import Pintos.Lib.Successor
import Pintos.Project2.Recipients

/-!
# DonationWalk — when the loop of `donate_priority` ends

The loop follows `waiting_lock->holder` from holder to holder and keeps no record of whom it has
met.  Between steps these links are grounded: a link is made by a running thread only, and only when
its walk has ended.  So the loop ends just when the walk comes neither to the thread that is about
to be linked nor to a lock that has lost its holder.

Nothing is assumed here about which locks a thread releases or holds when it exits.
-/

namespace Pintos
namespace Project2

open Lib Function

/-! ## Chains and ways -/

section Chain

variable {k k' : Kernel} {l m : LockPtr} {h t u : ThreadPtr} {hs : List ThreadPtr} {n : Nat}

theorem HolderChain.acc (hc : HolderChain k h hs) : Acc (After k.donee) h := by
  induction hc with
  | last hw =>
      exact acc_of_none (by simp [Kernel.donee, hw])
  | next hw hl _ ih =>
      exact acc_of_some (Kernel.donee_eq_some.2 ⟨_, hw, hl⟩) ih

/-- Whoever comes after a thread of the chain is on the chain. -/
theorem HolderChain.mem_donee (hc : HolderChain k h hs) (ht : t ∈ hs) (hu : k.donee t = some u) :
    u ∈ hs := by
  induction hc with
  | last hw =>
      rw [List.mem_singleton.1 ht] at hu
      simp [Kernel.donee, hw] at hu
  | next hw hl hc ih =>
      rcases List.mem_cons.1 ht with rfl | ht
      · rw [Kernel.donee_eq_some.2 ⟨_, hw, hl⟩] at hu
        cases hu
        exact List.mem_cons_of_mem _ hc.head_mem
      · exact List.mem_cons_of_mem _ (ih ht)

theorem HolderChain.mem_of_leads (hc : HolderChain k h hs) (ht : Leads k.donee h t) : t ∈ hs := by
  induction ht with
  | refl =>
      exact hc.head_mem
  | tail _ hu ih =>
      exact hc.mem_donee ih hu

/-- A thread of the chain waits for no lock, or for one that has a holder. -/
theorem HolderChain.holder_ne_none (hc : HolderChain k h hs) (ht : t ∈ hs)
    (hw : k.waitingLock t = some m) : k.holder m ≠ none := by
  induction hc with
  | last hn =>
      rw [List.mem_singleton.1 ht, hn] at hw
      cases hw
  | next hw' hl hc ih =>
      rcases List.mem_cons.1 ht with rfl | ht
      · rw [hw'] at hw
        cases hw
        simp [hl]
      · exact ih ht

/-- All threads of the chain but the last wait for a lock. -/
theorem HolderChain.waits (hc : HolderChain k h hs) (ht : t ∈ hs.dropLast) :
    k.waitingLock t ≠ none := by
  induction hc with
  | last hn =>
      cases ht
  | next hw _ hc ih =>
      rw [List.dropLast_cons_of_ne_nil (List.ne_nil_of_mem hc.head_mem)] at ht
      rcases List.mem_cons.1 ht with rfl | ht
      · simp [hw]
      · exact ih ht

/-- Where the links are grounded, a walk that follows no `NULL` pointer is along a chain. -/
theorem exists_holderChain (hg : Grounded k.donee)
    (hnull : ∀ t, Leads k.donee h t → ∀ m, k.waitingLock t = some m → k.holder m ≠ none) :
    ∃ hs, HolderChain k h hs ∧ ∀ t ∈ hs, Leads k.donee h t := by
  induction h using hg.induction with
  | _ h ih =>
      cases hw : k.waitingLock h with
      | none =>
          refine ⟨[h], .last hw, fun t ht => ?_⟩
          rw [List.mem_singleton.1 ht]
          exact .refl
      | some m =>
          obtain ⟨h', hl⟩ := Option.ne_none_iff_exists'.1 (hnull h .refl m hw)
          have hd : k.donee h = some h' := Kernel.donee_eq_some.2 ⟨m, hw, hl⟩
          obtain ⟨hs, hc, hlead⟩ := ih h' hd fun t ht => hnull t (.head hd ht)
          refine ⟨h :: hs, .next hw hl hc, fun t ht => ?_⟩
          rcases List.mem_cons.1 ht with rfl | ht
          · exact .refl
          · exact .head hd (hlead t ht)

/-! ## One call of `lock_acquire` -/

/-- The loop that `lock_acquire` on the lock `l` leads to is over after at most `n` turns: its
condition is tested once more than its body is executed. -/
def DonationEnds (k : Kernel) (l : LockPtr) (n : Nat) : Prop :=
  ∀ h, k.holder l = some h → ∃ k', donateLoop (n + 1) ((k.donating l h).donatedTo h) h = .ok k'

/-- The walk from the holder of the lock comes neither to the caller nor to a lock without a
holder. -/
def OpenWalk (k : Kernel) (l : LockPtr) : Prop :=
  ∀ h, k.holder l = some h → ∀ t, Leads k.donee h t →
    t ≠ k.running ∧ ∀ m, k.waitingLock t = some m → k.holder m ≠ none

/-- A loop that ends has followed a chain. -/
theorem donateLoop_chain (hd : donateLoop n k h = .ok k') : ∃ hs, HolderChain k h hs := by
  induction n generalizing k h with
  | zero =>
      cases hd
  | succ n ih =>
      unfold donateLoop at hd
      split at hd
      · rename_i hw
        exact ⟨_, .last hw⟩
      · rename_i m hw
        split at hd
        · cases hd
        · rename_i h' hl
          obtain ⟨hs, hc⟩ := ih hd
          -- a donation has changed no link
          have hc' : HolderChain k h' hs := hc.congr (fun _ _ => rfl) rfl
          exact ⟨_, .next hw hl hc'⟩

theorem donating_waitingLock (k : Kernel) (l : LockPtr) (h : ThreadPtr) :
    (k.donating l h).waitingLock = update k.waitingLock k.running (some l) :=
  rfl

theorem donatePriority_donating (hl : k.holder l = some h) :
    donatePriority (k.donating l h) =
      donateLoop (k.allList.length + 1) ((k.donating l h).donatedTo h) h := by
  have hself : (k.donating l h).waitingLock (k.donating l h).running = some l := by
    simp [Kernel.donating]
  have hholder : (k.donating l h).holder l = some h := hl
  simp only [donatePriority, hself, hholder]
  rfl

/-- With the caller linked to the lock, the chain of the holder does not come to the caller, which
would have to come after itself. -/
theorem HolderChain.running_notMem (hl : k.holder l = some h)
    (hc : HolderChain (k.donating l h) h hs) : k.running ∉ hs := by
  intro hm
  obtain ⟨ts, hts, hle⟩ := hc.suffix hm
  have hself : (k.donating l h).waitingLock k.running = some l := by simp [Kernel.donating]
  have hown : HolderChain (k.donating l h) k.running (k.running :: hs) := .next hself hl hc
  rw [hts.unique hown] at hle
  exact absurd hle (by simp)

theorem DonationEnds.openWalk (hd : DonationEnds k l n) : OpenWalk k l := by
  intro h hl t ht
  obtain ⟨k', hk'⟩ := hd h hl
  obtain ⟨hs, hc⟩ := donateLoop_chain hk'
  have hc₁ : HolderChain (k.donating l h) h hs := hc.congr (fun _ _ => rfl) rfl
  have hr := hc₁.running_notMem hl
  -- off the caller the links are those before the call
  have hc₀ : HolderChain k h hs := by
    refine hc₁.congr (fun u hu => ?_) rfl
    have hne : u ≠ k.running := fun e => hr (e ▸ hu)
    rw [donating_waitingLock, update_of_ne hne]
  have hmem := hc₀.mem_of_leads ht
  exact ⟨fun e => hr (e ▸ hmem), fun m hw => hc₀.holder_ne_none hmem hw⟩

/-- With grounded links and linked threads alive, an open walk takes no more turns than there are
threads. -/
theorem OpenWalk.donationEnds (ho : OpenWalk k l) (hg : Grounded k.donee)
    (halive : ∀ t, k.waitingLock t ≠ none → t ∈ k.allList) :
    DonationEnds k l k.allList.length := by
  intro h hl
  obtain ⟨hs, hc, hlead⟩ := exists_holderChain hg fun t ht => (ho h hl t ht).2
  have hr : k.running ∉ hs := fun hm => (ho h hl _ (hlead _ hm)).1 rfl
  have hc' : HolderChain (k.donating l h) h hs := by
    refine hc.congr (fun t ht => ?_) rfl
    have hne : t ≠ k.running := fun e => hr (e ▸ ht)
    rw [donating_waitingLock, update_of_ne hne]
  -- all but the last holder are linked threads, and nobody is met twice
  have hsub : hs.dropLast.length ≤ k.allList.length :=
    ((hc.nodup.sublist (List.dropLast_sublist hs)).subperm fun t ht =>
      halive t (hc.waits ht)).length_le
  have hlen : hs.length ≤ k.allList.length + 1 := by
    rw [List.length_dropLast] at hsub
    omega
  exact hc'.donateLoop hlen rfl rfl

end Chain

/-! ## What a frame does to the links -/

section Links

variable {k k' : Kernel} {order : Kernel → ThreadPtr → ThreadPtr → Bool} {f : Frame} {o : Outcome}
  {t : ThreadPtr} {l m : LockPtr}

/-- The changes to `waiting_lock` and `holder` that occur. -/
inductive Relink (k k' : Kernel) : Prop
  /-- links are dropped -/
  | drops : (∀ t l, k'.waitingLock t = some l → k.waitingLock t = some l) →
      (∀ l u, k'.holder l = some u → k.holder l = some u) → Relink k k'
  /-- the running thread becomes a holder and waits for nothing -/
  | takes (l : LockPtr) : k'.waitingLock = update k.waitingLock k.running none →
      k'.holder = update k.holder l (some k.running) → Relink k k'
  /-- the running thread is linked to a lock, after a walk that has ended -/
  | waits (l : LockPtr) (h : ThreadPtr) (hs : List ThreadPtr) : k.holder l = some h →
      k'.waitingLock = update k.waitingLock k.running (some l) → k'.holder = k.holder →
      HolderChain k' h hs → Relink k k'

theorem Relink.same (hw : k'.waitingLock = k.waitingLock) (hh : k'.holder = k.holder) :
    Relink k k' :=
  .drops (fun t l h => by rwa [hw] at h) fun l u h => by rwa [hh] at h

/-- Only the running thread is linked anew. -/
theorem Relink.waitingLock (h : Relink k k') (ht : t ≠ k.running)
    (hw : k'.waitingLock t = some l) : k.waitingLock t = some l := by
  cases h with
  | drops hsub _ =>
      exact hsub t l hw
  | takes m hw' _ =>
      rwa [hw', update_of_ne ht] at hw
  | waits m u hs _ hw' _ _ =>
      rwa [hw', update_of_ne ht] at hw

theorem Relink.grounded (h : Relink k k') (hg : Grounded k.donee) : Grounded k'.donee := by
  cases h with
  | drops hw hh =>
      refine hg.mono fun t u hu => ?_
      obtain ⟨m, hm, hu⟩ := Kernel.donee_eq_some.1 hu
      exact Kernel.donee_eq_some.2 ⟨m, hw t m hm, hh m u hu⟩
  | takes l hw hh =>
      refine hg.redirect (a := k.running) (by simp [Kernel.donee, hw]) fun t u hu => ?_
      obtain ⟨m, hm, hu⟩ := Kernel.donee_eq_some.1 hu
      by_cases ht : t = k.running
      · simp [hw, ht] at hm
      · rw [hw, update_of_ne ht] at hm
        by_cases hml : m = l
        · subst hml
          rw [hh, update_self] at hu
          exact Or.inr (Option.some.inj hu).symm
        · rw [hh, update_of_ne hml] at hu
          exact Or.inl (Kernel.donee_eq_some.2 ⟨m, hm, hu⟩)
  | waits l u hs hl hw hh hc =>
      have hself : k'.donee k.running = some u :=
        Kernel.donee_eq_some.2 ⟨l, by rw [hw, update_self], by rw [hh]; exact hl⟩
      refine hg.attach hself hc.acc fun t ht => ?_
      simp [Kernel.donee, hw, hh, ht]

theorem removeLoop_waitingLock (ts : List ThreadPtr) (k : Kernel)
    (h : (removeLoop l ts k).waitingLock t = some m) : k.waitingLock t = some m := by
  induction ts generalizing k with
  | nil =>
      exact h
  | cons u ts ih =>
      unfold removeLoop at h
      split at h
      · have hk := ih _ h
        by_cases htu : t = u
        · simp [htu] at hk
        · simpa [htu] using hk
      · exact ih k h

/-- `lock_release` drops links. -/
theorem released_waitingLock_some (h : (k.released l).waitingLock t = some m) :
    k.waitingLock t = some m := by
  have hw : (k.released l).waitingLock =
      (removeLock { k with holder := update k.holder l none } l).waitingLock := by
    unfold Kernel.released
    rcases resetPriority_footprint (removeLock { k with holder := update k.holder l none } l) with
      ⟨p, d, hres⟩
    rw [hres]
  rw [hw] at h
  exact removeLoop_waitingLock _ { k with holder := update k.holder l none } h

theorem released_holder_some (h : (k.released l).holder m = some t) : k.holder m = some t := by
  rw [released_holder] at h
  by_cases hm : m = l
  · simp [hm] at h
  · simpa [hm] using h

/-- What a frame does to the links, and where it leaves the running thread if that is linked. -/
structure LinkStep (k : Kernel) (o : Outcome) : Prop where
  change : Relink k o.kernel
  loop : ∀ m, o.kernel.waitingLock k.running = some m →
    o.push = [.downLoop (.ofLock m) (.acquired m)]

/-- The running thread was not linked, and links are only dropped. -/
theorem LinkStep.of_drops (hfree : k.waitingLock k.running = none)
    (hw : ∀ t m, o.kernel.waitingLock t = some m → k.waitingLock t = some m)
    (hh : ∀ m u, o.kernel.holder m = some u → k.holder m = some u) : LinkStep k o := by
  refine ⟨.drops hw hh, fun m hm => ?_⟩
  have hlinked := hw _ m hm
  rw [hfree] at hlinked
  cases hlinked

theorem LinkStep.of_same (hfree : k.waitingLock k.running = none)
    (hw : o.kernel.waitingLock = k.waitingLock) (hh : o.kernel.holder = k.holder) :
    LinkStep k o :=
  .of_drops hfree (fun t m h => by rwa [hw] at h) fun m u h => by rwa [hh] at h

/-- The running thread takes the lock. -/
theorem LinkStep.of_takes (l : LockPtr)
    (hw : o.kernel.waitingLock = update k.waitingLock k.running none)
    (hh : o.kernel.holder = update k.holder l (some k.running)) : LinkStep k o := by
  refine ⟨.takes l hw hh, fun m hm => ?_⟩
  rw [hw, update_self] at hm
  cases hm

/-- `sema_down` writes no link; it switches threads only when it blocks. -/
theorem semaDownTurn_links {s : SemaPtr} {got : Bool} (hd : semaDownTurn k s = .ok (k', got)) :
    k'.waitingLock = k.waitingLock ∧ k'.holder = k.holder ∧
      (got = true → k'.running = k.running) := by
  rcases semaDownTurn_eq_ok.1 hd with ⟨-, rfl, hb⟩ | ⟨-, rfl, rfl⟩
  · rcases threadBlock_footprint hb with ⟨_, _, _, _, rfl⟩
    exact ⟨rfl, rfl, nofun⟩
  · exact ⟨rfl, rfl, fun _ => rfl⟩

theorem lockAcquire_linkStep (hfree : k.waitingLock k.running = none)
    (hr : runFrame ⟨.calls, order⟩ k (.lockAcquire l) = .ok o) : LinkStep k o := by
  obtain ⟨⟨k₁, got⟩, hd, hr⟩ := bind_eq_ok.1 hr
  obtain ⟨-, -, k₂, k₃, hdon, hdown, rfl⟩ := lockAcquire_eq_ok.1 hd
  obtain ⟨hw, hh, hrun⟩ := semaDownTurn_links (semaDown_eq_ok.1 hdown).2
  cases hl : k.holder l with
  | none =>
      -- nothing is donated, and the caller is not linked
      simp only [lockDonate, hl, Except.ok.injEq] at hdon
      subst hdon
      cases got with
      | false =>
          cases hr
          exact .of_same hfree hw hh
      | true =>
          cases hr
          refine .of_takes l ?_ ?_ <;> simp [Kernel.acquired, hw, hh, hrun rfl]
  | some h =>
      simp only [lockDonate, hl] at hdon
      have hwl : k₂.waitingLock = update k.waitingLock k.running (some l) := by
        rcases donatePriority_footprint hdon with ⟨_, rfl⟩
        rfl
      have hhl : k₂.holder = k.holder := by
        rcases donatePriority_footprint hdon with ⟨_, rfl⟩
        rfl
      have hrun₂ : k₂.running = k.running := by
        rcases donatePriority_footprint hdon with ⟨_, rfl⟩
        rfl
      cases got with
      | false =>
          cases hr
          rw [donatePriority_donating hl] at hdon
          obtain ⟨hs, hc⟩ := donateLoop_chain hdon
          refine ⟨.waits l h hs hl (hw.trans hwl) (hh.trans hhl) ?_, fun m hm => ?_⟩
          · exact hc.congr (fun t _ => congrFun (hw.trans hwl) t) (hh.trans hhl)
          · have hml : update k.waitingLock k.running (some l) k.running = some m := by
              rw [← hwl, ← hw]
              exact hm
            rw [update_self] at hml
            cases hml
            rfl
      | true =>
          cases hr
          refine .of_takes l ?_ ?_
          · simp [Kernel.acquired, hw, hwl, hrun rfl, hrun₂]
          · simp [Kernel.acquired, hh, hhl, hrun rfl, hrun₂]

/-- Back in the loop of `sema_down`, a waiter takes the lock or blocks again. -/
theorem downLoop_linkStep (hlinked : ∀ m, k.waitingLock k.running = some m → m = l)
    (hr : runFrame ⟨.calls, order⟩ k (.downLoop (.ofLock l) (.acquired l)) = .ok o) :
    LinkStep k o := by
  obtain ⟨⟨k₁, got⟩, hd, hr⟩ := bind_eq_ok.1 hr
  obtain ⟨hw, hh, hrun⟩ := semaDownTurn_links hd
  cases got with
  | false =>
      cases hr
      refine ⟨.same hw hh, fun m hm => ?_⟩
      have hm' : k.waitingLock k.running = some m := by
        rw [← hw]
        exact hm
      rw [hlinked m hm']
      rfl
  | true =>
      cases hr
      refine .of_takes l ?_ ?_ <;>
        simp [downOutcome, AfterDown.finish, Kernel.acquired, hw, hh, hrun rfl]

theorem lockTryAcquire_linkStep (hfree : k.waitingLock k.running = none)
    (hr : runFrame ⟨.calls, order⟩ k (.lockTryAcquire l) = .ok o) : LinkStep k o := by
  obtain ⟨⟨k₁, success⟩, hd, hr⟩ := bind_eq_ok.1 hr
  cases hr
  obtain ⟨-, hsucc, rfl⟩ := lockTryAcquire_eq_ok.1 hd
  cases success with
  | false =>
      exact .of_same hfree rfl rfl
  | true =>
      rcases semaTryDown_footprint k (.ofLock l) with ⟨_, _, _, _, _, _, he⟩
      have hw : (semaTryDown k (.ofLock l)).1.waitingLock = k.waitingLock := by rw [he]
      refine .of_takes l ?_ ?_
      · show (semaTryDown k (.ofLock l)).1.waitingLock = update k.waitingLock k.running none
        rw [hw, ← hfree, update_eq_self]
      · have hrun : (semaTryDown k (.ofLock l)).1.running = k.running := by
          unfold semaTryDown
          split <;> rfl
        simp [hrun]

/-- A frame at `Grain.calls`: a running thread that is linked is in the loop of that lock's
`sema_down`. -/
theorem runFrame_linkStep (hf : f.isCoarse = true)
    (hlinked : ∀ m, k.waitingLock k.running = some m → f = .downLoop (.ofLock m) (.acquired m))
    (hr : runFrame ⟨.calls, order⟩ k f = .ok o) : LinkStep k o := by
  have hun := runFrame_unwritten hr
  have hfree : (∀ m, f ≠ .downLoop (.ofLock m) (.acquired m)) → k.waitingLock k.running = none := by
    intro hne
    cases hw : k.waitingLock k.running with
    | none => rfl
    | some m => exact absurd (hlinked m hw) (hne m)
  -- the frames that write neither member
  have hkeep : (∀ m, f ≠ .downLoop (.ofLock m) (.acquired m)) → .waitingLock ∉ f.writes →
      .holder ∉ f.writes → LinkStep k o :=
    fun hne hw hh => .of_same (hfree hne) (hun.waitingLock hw) (hun.holder hh)
  cases f with
  | downLoop s after =>
      rcases downLoop_coarse hf with ⟨rfl, hs⟩ | ⟨l, rfl, rfl⟩
      · exact hkeep (fun m e => hs m (by injection e)) (by simp [Frame.writes, AfterDown.writes])
          (by simp [Frame.writes, AfterDown.writes])
      · refine downLoop_linkStep (fun m hm => ?_) hr
        injection hlinked m hm with hs _
        injection hs with hl
        exact hl.symm
  | down s after =>
      rcases down_coarse hf with ⟨rfl, -⟩
      exact hkeep (by simp) (by simp [Frame.writes, AfterDown.writes])
        (by simp [Frame.writes, AfterDown.writes])
  | lockAcquire l =>
      exact lockAcquire_linkStep (hfree (by simp)) hr
  | lockTryAcquire l =>
      exact lockTryAcquire_linkStep (hfree (by simp)) hr
  | lockRelease l =>
      obtain ⟨k₁, hd, hr⟩ := bind_eq_ok.1 hr
      cases hr
      obtain ⟨-, hu⟩ := lockRelease_eq_ok.1 hd
      have hb := (semaUp_footprint hu).sameBook
      refine .of_drops (hfree (by simp)) (fun t m ht => ?_) fun m u hm => ?_
      · exact released_waitingLock_some (hb.waitingLock ▸ ht)
      · exact released_holder_some (hb.holder ▸ hm)
  | threadCreate t p | threadStart t =>
      obtain ⟨k₁, hd, hr⟩ := bind_eq_ok.1 hr
      cases hr
      obtain ⟨-, -, rfl⟩ := threadCreate_eq_ok.1 hd
      refine .of_drops (hfree (by simp)) (fun u m hu => ?_) fun m u hm => hm
      by_cases hut : u = t
      · simp [Kernel.andThen, initThread, hut] at hu
      · simpa [Kernel.andThen, initThread, hut] using hu
  | acquireEntry l | tryEntry l | tryDown l | releaseEntry l | stmt st => cases hf
  | _ => exact hkeep (by simp) (by simp [Frame.writes]) (by simp [Frame.writes])

end Links

/-! ## Every step keeps the links grounded -/

section Runs

variable {σ σ' : System} {order : Kernel → ThreadPtr → ThreadPtr → Bool} {l : LockPtr}

/-- A linked thread is in the loop of its lock's `sema_down`, and the links are grounded. -/
structure Walkable (σ : System) : Prop where
  called : Called σ
  linked : ∀ t l, σ.kernel.waitingLock t = some l →
    (σ.code t).head? = some (.downLoop (.ofLock l) (.acquired l))
  grounded : Grounded σ.kernel.donee

theorem Walkable.alive (h : Walkable σ) {t : ThreadPtr} (ht : σ.kernel.waitingLock t ≠ none) :
    t ∈ σ.kernel.allList := by
  obtain ⟨m, hm⟩ := Option.ne_none_iff_exists'.1 ht
  have hhead := h.linked t m hm
  by_contra hdead
  have hplaced := h.called.settled.live.placed t
  rw [hplaced.dead_code (hplaced.dead.1 hdead)] at hhead
  cases hhead

theorem Walkable.exec (h : Walkable σ) (hcalled : Called σ')
    (hs : step ⟨.calls, order⟩ .exec σ = some σ') : Walkable σ' := by
  obtain ⟨f, rest, o, hc, hr, rfl⟩ := step_exec_iff.1 hs
  have hlinked : ∀ m, σ.kernel.waitingLock σ.kernel.running = some m →
      f = .downLoop (.ofLock m) (.acquired m) := by
    intro m hm
    have hhead := h.linked _ m hm
    rw [hc] at hhead
    exact Option.some.inj hhead
  have hstep := runFrame_linkStep (h.called.coarse σ.kernel.running f (by simp [hc])) hlinked hr
  refine ⟨hcalled, fun u m hm => ?_, hstep.change.grounded h.grounded⟩
  rcases code_after h.called.settled.live rest hr u with ⟨rfl, he⟩ | ⟨hu, prog, -, hdead, -⟩ | ⟨hu, he⟩
  · have hpush := hstep.loop m hm
    exact (congrArg List.head? he).trans (by rw [hpush]; rfl)
  · -- a new thread had no code, so it was not linked
    have hhead := h.linked u m (hstep.change.waitingLock hu hm)
    rw [hdead] at hhead
    cases hhead
  · exact (congrArg List.head? he).trans (h.linked u m (hstep.change.waitingLock hu hm))

theorem Walkable.step {a : Act} (h : Walkable σ) (hu : UnblockOk σ a)
    (hs : Project2.step ⟨.calls, order⟩ a σ = some σ') : Walkable σ' := by
  have hcalled := h.called.step hu hs
  cases a with
  | call op =>
      obtain ⟨hc, rfl⟩ := step_call_iff.1 hs
      refine ⟨hcalled, fun t m hm => ?_, h.grounded⟩
      have hhead := h.linked t m hm
      by_cases ht : t = σ.kernel.running
      · -- the caller was in its own code
        rw [ht, hc] at hhead
        cases hhead
      · simpa [ht] using hhead
  | exec =>
      exact h.exec hcalled hs
  | tick =>
      obtain ⟨-, k, ht, rfl⟩ := step_tick_iff.1 hs
      rcases timerInterrupt_footprint ht with ⟨_, _, _, _, _, _, _, _, rfl⟩
      exact ⟨hcalled, h.linked, h.grounded⟩
  | preempt t =>
      obtain ⟨-, rfl⟩ := step_preempt_iff.1 hs
      exact ⟨hcalled, h.linked, h.grounded⟩

theorem boot_walkable (init : Nat → Fin unsignedSize) (idle : ThreadPtr) :
    Walkable (boot init idle) := by
  refine ⟨boot_called init idle, fun t l ht => ?_, ⟨fun t => acc_of_none rfl⟩⟩
  cases ht

theorem walkable_of_reach {init : Nat → Fin unsignedSize} {idle : ThreadPtr}
    (h : Reach (Project2.step ⟨.calls, order⟩) UnblockOk (boot init idle) σ) : Walkable σ :=
  h.invariant (boot_walkable init idle) fun _ _ _ hi hu hs => hi.step hu hs

/-- The loop of `donate_priority` ends after at most as many turns as there are threads if and only
if the walk from the lock's holder comes neither to the caller nor to a lock without a holder, and
otherwise no number of turns is enough. -/
theorem donate_priority_ends_iff {init : Nat → Fin unsignedSize} {idle : ThreadPtr}
    (h : Reach (step ⟨.calls, order⟩) UnblockOk (boot init idle) σ) (l : LockPtr) :
    (DonationEnds σ.kernel l σ.kernel.allList.length ↔ OpenWalk σ.kernel l) ∧
      (¬ OpenWalk σ.kernel l → ∀ n, ¬ DonationEnds σ.kernel l n) := by
  have hw := walkable_of_reach h
  refine ⟨⟨DonationEnds.openWalk, fun ho => ?_⟩, fun ho n hd => ho hd.openWalk⟩
  exact ho.donationEnds hw.grounded fun t ht => hw.alive ht

/-- Along the chain of `raiseSystem` the loop ends. -/
theorem donate_priority_ends_chain :
    DonationEnds raiseSystem.kernel (.lock 1) raiseSystem.kernel.allList.length := by
  have hrun : Exec (step .calls) (boot allZero 1) (trace (step .calls) raiseActs (boot allZero 1))
      raiseSystem := Exec.of_runAll (Option.some_get _).symm
  have hiff := donate_priority_ends_iff (hrun.reach (by decide +kernel)) (.lock 1)
  refine hiff.1.2 fun h hl t ht => ?_
  have hfirst : raiseSystem.kernel.waitingLock 2 = some (.lock 0) := by decide +kernel
  have hnext : raiseSystem.kernel.holder (.lock 0) = some 0 := by decide +kernel
  have hholder : raiseSystem.kernel.holder (.lock 1) = some 2 := by decide +kernel
  have hrunning : raiseSystem.kernel.running = 3 := by decide +kernel
  have hc : HolderChain raiseSystem.kernel 2 [2, 0] :=
    .next hfirst hnext (.last (by decide +kernel))
  rw [hholder] at hl
  cases hl
  have hmem := hc.mem_of_leads ht
  refine ⟨fun e => ?_, fun m hw => hc.holder_ne_none hmem hw⟩
  rw [e, hrunning] at hmem
  exact absurd hmem (by decide)

/-- Thread 2 holds lock 1 and waits for lock 0; the initial thread, which holds lock 0, runs. -/
def knotActs : List Act :=
  bootActs ++ [.call (.lockAcquire 0), .exec] ++ createActs 2 40 ++
    [.call (.lockAcquire 1), .exec, .call (.lockAcquire 0), .exec]

def knotSystem : System :=
  (runAll (step .calls) knotActs (boot allZero 1)).get (by decide +kernel)

/-- When the initial thread calls `lock_acquire` for lock 1, the loop goes round for ever. -/
theorem donate_priority_goes_round :
    ¬ ∀ (σ : System) (l : LockPtr), Reach (step .calls) UnblockOk (boot allZero 1) σ →
      σ.kernel.holder l ≠ some σ.kernel.running → ∃ n, DonationEnds σ.kernel l n := by
  intro hall
  have hrun : Exec (step .calls) (boot allZero 1) (trace (step .calls) knotActs (boot allZero 1))
      knotSystem := Exec.of_runAll (Option.some_get _).symm
  have hholder : knotSystem.kernel.holder (.lock 1) = some 2 := by decide +kernel
  have hdonee : knotSystem.kernel.donee 2 = some knotSystem.kernel.running := by decide +kernel
  obtain ⟨n, hn⟩ := hall knotSystem (.lock 1) (hrun.reach (by decide +kernel)) (by decide +kernel)
  exact (hn.openWalk 2 hholder _ (.single hdonee)).1 rfl

end Runs

end Project2
end Pintos
