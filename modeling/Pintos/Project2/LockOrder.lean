import Pintos.Lib.WaitGraph
import Pintos.Project2.DonationWalk

/-!
# LockOrder — programs that ask for locks in a fixed order

Every lock has a rank, and a thread asks for a lock only while all the locks that it holds have
lower ranks; `allocate_tid` and the end of `cond_wait` ask for locks, too.  Then no threads wait for
each other in a circle, and the walk of `donate_priority` ends.  `lock_try_acquire` does not wait, so
it may be called in any order.
-/

namespace Pintos
namespace Project2

open Lib Function Relation

/-! ## Code that asks in order -/

section Ordered

variable {rank : LockPtr → Nat}

/-- What is asked of a frame when the locks `H` are held. -/
def Frame.InOrder (rank : LockPtr → Nat) (H : List LockPtr) : Frame → Prop
  | .lockAcquire l | .downLoop (.ofLock l) _ => ∀ m ∈ H, rank m < rank l
  | .lockTryAcquire l => l ∉ H
  | .condSignal _ l | .condBroadcast _ l => l ∈ H
  | .threadCreate _ p => (PRI_MIN ≤ p ∧ p ≤ PRI_MAX) ∧ ∀ m ∈ H, rank m < rank .tidLock
  | .threadStart _ => ∀ m ∈ H, rank m < rank .tidLock
  | _ => True

def Ordered (rank : LockPtr → Nat) : List LockPtr → List Frame → Prop
  | _, [] => True
  | H, f :: rest => f.InOrder rank H ∧ Ordered rank (f.heldAfter H) rest

variable {k : Kernel} {f : Frame} {rest : List Frame} {o : Outcome} {H : List LockPtr}
  {order : Kernel → ThreadPtr → ThreadPtr → Bool}

theorem ordered_down {s : SemaPtr} {after : AfterDown} {got : Bool}
    (hf : (Frame.downLoop s after).isCoarse = true) (h : Ordered rank H (.downLoop s after :: rest)) :
    Ordered rank ((downOutcome s after k got).change.apply H)
      ((downOutcome s after k got).push ++ rest) := by
  cases got with
  | false =>
      exact h
  | true =>
      rcases downLoop_coarse hf with ⟨rfl, hs⟩ | ⟨l, rfl, rfl⟩
      · cases s with
        | ofLock l =>
            exact absurd rfl (hs l)
        | sema n | idleStarted | waiter t =>
            exact h.2
      · exact h.2

/-- A frame leaves code behind that asks in order. -/
theorem runFrame_ordered (hf : f.isCoarse = true) (ht : Typed H (f :: rest))
    (h : Ordered rank H (f :: rest)) (hr : runFrame ⟨.calls, order⟩ k f = .ok o) :
    Ordered rank (o.change.apply H) (o.push ++ rest) := by
  have hrest := h.2
  cases f with
  | acquireEntry | tryEntry | tryDown | releaseEntry | stmt =>
      cases hf
  | down s after =>
      rcases bind_eq_ok.1 hr with ⟨⟨k₁, got⟩, -, hr⟩
      cases hr
      obtain ⟨rfl, hs⟩ := down_coarse hf
      cases s with
      | ofLock l =>
          exact absurd rfl (hs l)
      | sema n | idleStarted | waiter t =>
          exact ordered_down rfl ⟨trivial, hrest⟩
  | downLoop s after =>
      rcases bind_eq_ok.1 hr with ⟨⟨k₁, got⟩, -, hr⟩
      cases hr
      exact ordered_down hf h
  | lockAcquire l =>
      rcases bind_eq_ok.1 hr with ⟨⟨k₁, got⟩, -, hr⟩
      cases got with
      | true =>
          cases hr
          exact hrest
      | false =>
          cases hr
          exact ⟨h.1, hrest⟩
  | lockTryAcquire l =>
      rcases bind_eq_ok.1 hr with ⟨⟨k₁, success⟩, -, hr⟩
      cases hr
      rw [show rest = [] from ht.1]
      trivial
  | condBroadcast c l =>
      simp only [runFrame] at hr
      split at hr
      · cases hr
        exact hrest
      · rcases bind_eq_ok.1 hr with ⟨k₁, -, hr⟩
        cases hr
        exact ⟨h.1, hrest⟩
  | threadCreate t p =>
      rcases bind_eq_ok.1 hr with ⟨k₁, -, hr⟩
      cases hr
      refine ⟨h.1.2, trivial, ?_⟩
      show Ordered rank ((LockPtr.tidLock :: H).erase .tidLock) rest
      rw [List.erase_cons_head]
      exact hrest
  | threadStart t =>
      rcases bind_eq_ok.1 hr with ⟨k₁, -, hr⟩
      cases hr
      refine ⟨h.1, trivial, trivial, ?_⟩
      show Ordered rank ((LockPtr.tidLock :: H).erase .tidLock) rest
      rw [List.erase_cons_head]
      exact hrest
  | takeTid t p =>
      cases hr
      exact ⟨trivial, trivial, hrest⟩
  | semaTryDown s | condReturn c l | blockReturn | sleepReturn =>
      cases hr
      exact hrest
  | timerSleep n | setIdle =>
      cases hr
      exact ⟨trivial, hrest⟩
  | threadBlock | sleepUntil d | idleUp | idleLoop =>
      rcases bind_eq_ok.1 hr with ⟨k₁, -, hr⟩
      cases hr
      exact ⟨trivial, hrest⟩
  | semaUp s | lockRelease l | condEnqueue c l | condSignal c l | startNew t p tid | threadYield
  | threadExit | threadSetPriority p | threadUnblock t =>
      rcases bind_eq_ok.1 hr with ⟨k₁, -, hr⟩
      cases hr
      exact hrest

end Ordered

/-! ## Runs of such programs -/

/-- Locks are asked for in the order of their ranks, a lock is not tried for twice, conditions are
signalled with the lock held, and new threads get a priority that exists. -/
def AsksInOrder (rank : LockPtr → Nat) (σ : System) : Act → Prop
  | .call (.lockAcquire n) => ∀ m ∈ σ.held σ.kernel.running, rank m < rank (.lock n)
  | .call (.condWait _ n) =>
      ∀ m ∈ (σ.held σ.kernel.running).erase (.lock n), rank m < rank (.lock n)
  | .call (.lockTryAcquire n) => .lock n ∉ σ.held σ.kernel.running
  | .call (.condSignal _ n) | .call (.condBroadcast _ n) => .lock n ∈ σ.held σ.kernel.running
  | .call (.threadCreate _ p) =>
      (PRI_MIN ≤ p ∧ p ≤ PRI_MAX) ∧ ∀ m ∈ σ.held σ.kernel.running, rank m < rank .tidLock
  | _ => True

instance instDecidableAsksInOrder (rank : LockPtr → Nat) (σ : System) :
    (a : Act) → Decidable (AsksInOrder rank σ a)
  | .call (.lockAcquire n) => inferInstanceAs (Decidable (∀ m ∈ _, rank m < rank (.lock n)))
  | .call (.condWait _ n) => inferInstanceAs (Decidable (∀ m ∈ _, rank m < rank (.lock n)))
  | .call (.lockTryAcquire n) => inferInstanceAs (Decidable (¬ (LockPtr.lock n ∈ _)))
  | .call (.condSignal _ n) => inferInstanceAs (Decidable (LockPtr.lock n ∈ _))
  | .call (.condBroadcast _ n) => inferInstanceAs (Decidable (LockPtr.lock n ∈ _))
  | .call (.threadCreate _ p) =>
      inferInstanceAs (Decidable ((PRI_MIN ≤ p ∧ p ≤ PRI_MAX) ∧ ∀ m ∈ _, rank m < rank .tidLock))
  | .call .threadYield | .call .threadExit | .call (.threadSetPriority _) | .call .threadBlock
  | .call (.threadUnblock _) | .call (.timerSleep _) | .call (.semaDown _)
  | .call (.semaTryDown _) | .call (.semaUp _) | .call (.lockRelease _) | .exec | .tick
  | .preempt _ => .isTrue trivial

def OrderUse (rank : LockPtr → Nat) (σ : System) (a : Act) : Prop :=
  CallUse σ a ∧ AsksInOrder rank σ a

instance instDecidableOrderUse (rank : LockPtr → Nat) (σ : System) (a : Act) :
    Decidable (OrderUse rank σ a) :=
  inferInstanceAs (Decidable (_ ∧ _))

/-- What holds in such runs. -/
structure LockOrdered (rank : LockPtr → Nat) (σ : System) : Prop where
  linked : Linked σ
  walkable : Walkable σ
  covered : ∀ s, Covered σ s
  ordered : ∀ t, Ordered rank (σ.held t) (σ.code t)

section Steps

variable {rank : LockPtr → Nat} {σ σ' : System} {l m : LockPtr} {t u : ThreadPtr}
  {order : Kernel → ThreadPtr → ThreadPtr → Bool}

theorem opFrames_ordered {op : Op} (h : AsksInOrder rank σ (.call op)) :
    Ordered rank (σ.held σ.kernel.running) (op.frames .calls σ.kernel.running) := by
  cases op with
  | condWait c n =>
      exact ⟨trivial, trivial, trivial, h, trivial, trivial⟩
  | lockAcquire n | lockTryAcquire n | condSignal c n | condBroadcast c n | threadCreate t p =>
      exact ⟨h, trivial⟩
  | _ =>
      exact ⟨trivial, trivial⟩

theorem LockOrdered.step {a : Act} (h : LockOrdered rank σ) (hu : OrderUse rank σ a)
    (hs : Project2.step ⟨.calls, order⟩ a σ = some σ') : LockOrdered rank σ' := by
  have hunblock : UnblockOk σ a := h.linked.bare.unblockOk a
  have hlinked := h.linked.step hu.1 hs
  refine ⟨hlinked, h.walkable.step hunblock hs,
    fun s => (h.covered s).step h.linked.coarse.settled hlinked.coarse.settled hs, fun t => ?_⟩
  cases a with
  | call op =>
      obtain ⟨-, rfl⟩ := step_call_iff.1 hs
      by_cases ht : t = σ.kernel.running
      · subst ht
        simpa using opFrames_ordered hu.2
      · simpa [ht] using h.ordered t
  | exec =>
      obtain ⟨f, rest, o, hc, hr, rfl⟩ := step_exec_iff.1 hs
      have hcoarse := h.linked.coarse
      have hf : f.isCoarse = true := hcoarse.coarse σ.kernel.running f (by simp [hc])
      rcases code_after hcoarse.live rest hr t with ⟨rfl, he⟩ | ⟨ht, prog, -, -, he, hprog⟩ | ⟨ht, he⟩
      · have hcode : (σ.after f rest o).code σ.kernel.running = o.push ++ rest := he
        have hheld : (σ.after f rest o).held σ.kernel.running =
            o.change.apply (σ.held σ.kernel.running) := update_self ..
        rw [hcode, hheld]
        exact runFrame_ordered hf (hc ▸ hcoarse.own.typed _) (hc ▸ h.ordered _) hr
      · -- a new thread asks for nothing
        have hcode : (σ.after f rest o).code t = prog := he
        rw [hcode]
        rcases hprog with rfl | ⟨rfl, -⟩
        · trivial
        · exact ⟨trivial, trivial⟩
      · have hcode : (σ.after f rest o).code t = σ.code t := he
        have hheld : (σ.after f rest o).held t = σ.held t := update_of_ne ht _ _
        rw [hcode, hheld]
        exact h.ordered t
  | tick =>
      obtain ⟨-, k, -, rfl⟩ := step_tick_iff.1 hs
      exact h.ordered t
  | preempt t' =>
      obtain ⟨-, rfl⟩ := step_preempt_iff.1 hs
      exact h.ordered t

theorem boot_lockOrdered (rank : LockPtr → Nat) (init : Nat → Fin unsignedSize) (idle : ThreadPtr) :
    LockOrdered rank (boot init idle) := by
  refine ⟨boot_linked init idle, boot_walkable init idle, fun s hw => absurd rfl hw, fun t => ?_⟩
  by_cases ht : t = initialThread
  · have hcode : (boot init idle).code t = [.threadStart idle] := if_pos ht
    rw [hcode]
    refine ⟨fun m hm => ?_, trivial⟩
    cases hm
  · have hcode : (boot init idle).code t = [] := if_neg ht
    rw [hcode]
    trivial

theorem lockOrdered_of_reach {init : Nat → Fin unsignedSize} {idle : ThreadPtr}
    (h : Reach (Project2.step ⟨.calls, order⟩) (OrderUse rank) (boot init idle) σ) :
    LockOrdered rank σ :=
  h.invariant (boot_lockOrdered rank init idle) fun _ _ _ hi hu hs => hi.step hu hs

/-! ## Who waits for whom -/

/-- A thread that is blocked in `lock_acquire` holds locks of lower rank only. -/
theorem LockOrdered.rank_lt (h : LockOrdered rank σ) (hm : σ.kernel.holder m = some t)
    (hb : σ.BlockedIn l t) : rank m < rank l := by
  obtain ⟨a, ha⟩ := inDown_iff.1 hb.2
  obtain ⟨rest, hc⟩ := List.head?_eq_some_iff.1 ha
  have hord := h.ordered t
  rw [hc] at hord
  exact hord.1 m (h.linked.coarse.holder_iff.1 hm)

/-- A thread has a lock as its holder, or it has been woken to take it. -/
def System.Has (σ : System) (t : ThreadPtr) (l : LockPtr) : Prop :=
  σ.kernel.holder l = some t ∨ σ.kernel.holder l = none ∧ t ∈ σ.pending (.ofLock l)

theorem LockOrdered.climbs (h : LockOrdered rank σ) :
    Climbs (fun t l => σ.BlockedIn l t) σ.Has rank := by
  rintro t l m (hl | ⟨-, hp⟩) hb
  · exact h.rank_lt hl hb
  · exact absurd hb.1 (Finset.mem_filter.1 hp).2.2

/-- A lock on which somebody is blocked has a holder, or somebody has been woken to take it. -/
theorem LockOrdered.exists_has (h : LockOrdered rank σ) (hb : σ.BlockedIn l t) :
    ∃ u ∈ σ.kernel.allList.toFinset, σ.Has u l := by
  cases hl : σ.kernel.holder l with
  | some u =>
      exact ⟨u, List.mem_toFinset.2 (h.linked.coarse.alive l u hl), Or.inl hl⟩
  | none =>
      have hw : σ.kernel.waiters (.ofLock l) ≠ [] :=
        List.ne_nil_of_mem (h.linked.coarse.settled.blockedIn_iff.1 hb)
      have hv : σ.kernel.value (.ofLock l) = 1 := by
        rw [h.linked.coarse.called.values, if_pos hl]
      have hcov := h.covered (.ofLock l) hw
      rw [hv] at hcov
      obtain ⟨u, hu⟩ := Finset.card_pos.1 hcov
      exact ⟨u, (Finset.mem_filter.1 hu).1, Or.inr ⟨hl, hu⟩⟩

/-- A lock that the running thread is about to ask for ranks above all that it holds. -/
theorem LockOrdered.asks (h : LockOrdered rank σ) {rest : List Frame}
    (hc : σ.code σ.kernel.running = .lockAcquire l :: rest)
    (hm : σ.kernel.holder m = some σ.kernel.running) : rank m < rank l := by
  have hord := h.ordered σ.kernel.running
  rw [hc] at hord
  exact hord.1 m (h.linked.coarse.holder_iff.1 hm)

/-- So the walk of `donate_priority` does not come back to it. -/
theorem LockOrdered.openWalk (h : LockOrdered rank σ) {rest : List Frame}
    (hc : σ.code σ.kernel.running = .lockAcquire l :: rest) : OpenWalk σ.kernel l := by
  intro x hx t ht
  have hreach : ReflTransGen (Awaits (fun t l => σ.BlockedIn l t) σ.Has) x t := by
    refine ReflTransGen.mono (fun u v hv => ?_) _ _ ht
    obtain ⟨m, hw, hh⟩ := Kernel.donee_eq_some.1 hv
    obtain ⟨-, -, -, hm⟩ := h.linked.links.linked u m hw
    exact ⟨m, h.linked.coarse.settled.blockedIn_iff.2 hm, Or.inl hh⟩
  refine ⟨?_, fun m hw => ?_⟩
  · rintro rfl
    obtain ⟨m, hm | ⟨-, hp⟩, hle⟩ := h.climbs.le_of_reaches (Or.inl hx) hreach
    · exact absurd (h.asks hc hm) hle.not_gt
    · -- the running thread is in no loop of `sema_down`
      obtain ⟨a, ha⟩ := inDown_iff.1 (Finset.mem_filter.1 hp).2.1
      rw [hc] at ha
      cases ha
  · obtain ⟨u, hu, -⟩ := h.linked.links.linked t m hw
    simp [hu]

theorem LockOrdered.lockDonate_ok (h : LockOrdered rank σ) {rest : List Frame}
    (hc : σ.code σ.kernel.running = .lockAcquire l :: rest) :
    ∃ k', lockDonate σ.kernel l = .ok k' := by
  cases hl : σ.kernel.holder l with
  | none =>
      exact ⟨σ.kernel, by simp only [lockDonate, hl]⟩
  | some x =>
      obtain ⟨k', hk'⟩ := (h.openWalk hc).donationEnds h.walkable.grounded
        (fun t ht => h.walkable.alive ht) x hl
      exact ⟨k', by simp only [lockDonate, hl, donatePriority_donating hl, hk']⟩

end Steps

/-! ## No deadlock -/

section Runs

variable {rank : LockPtr → Nat} {σ : System} {order : Kernel → ThreadPtr → ThreadPtr → Bool}

/-- Nobody waits for itself in the end, and behind everybody who is blocked in `lock_acquire` there
is a living thread that is not, and that has a lock or has been woken to take it. -/
theorem lock_order_prevents_deadlock {init : Nat → Fin unsignedSize} {idle : ThreadPtr}
    (h : Reach (step ⟨.calls, order⟩) (OrderUse rank) (boot init idle) σ) :
    (∀ t, ¬ TransGen (Awaits (fun t l => σ.BlockedIn l t) σ.Has) t t) ∧
      ∀ t l, σ.BlockedIn l t → ∃ u ∈ σ.kernel.allList,
        TransGen (Awaits (fun t l => σ.BlockedIn l t) σ.Has) t u ∧ ∀ m, ¬ σ.BlockedIn m u := by
  have ho := lockOrdered_of_reach h
  refine ⟨ho.climbs.acyclic, fun t l hb => ?_⟩
  obtain ⟨u, hu, hreach, hend⟩ := ho.climbs.exists_last σ.kernel.allList.toFinset
    (fun _ _ hw => ho.exists_has hw) hb
  exact ⟨u, List.mem_toFinset.1 hu, hreach, hend⟩

/-- The ranks for the run of `raiseSystem`. -/
def rankByNumber : LockPtr → Nat
  | .tidLock => 1000
  | .lock n => 10 - n

theorem lock_order_prevents_deadlock_chain :
    ∃ u ∈ raiseSystem.kernel.allList,
      TransGen (Awaits (fun t l => raiseSystem.BlockedIn l t) raiseSystem.Has) 2 u ∧
        ∀ m, ¬ raiseSystem.BlockedIn m u := by
  have hrun : Exec (step .calls) (boot allZero 1) (trace (step .calls) raiseActs (boot allZero 1))
      raiseSystem := Exec.of_runAll (Option.some_get _).symm
  have hreach : Reach (step .calls) (OrderUse rankByNumber) (boot allZero 1) raiseSystem :=
    hrun.reach (by decide +kernel)
  exact (lock_order_prevents_deadlock hreach).2 2 (.lock 0)
    (awaited_eq_some.1 (by decide +kernel))

end Runs

end Project2
end Pintos
