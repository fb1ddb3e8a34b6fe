import Pintos.Project2.Bookkeeping
import Pintos.Lib.StableQueue

/-!
# Dispatch — what a step does to the ready list

A step wakes some threads, which `System.woken` computes, and then blocks, yields, compares the head
of the ready list with the running thread, or leaves it at that.  `Turn` is the list of these
possibilities and `Called.step_turn` says that there are no others.
-/

namespace Pintos
namespace Project2

open Lib Function

/-! ## Threads that a step wakes -/

/-- The sleepers that the next timer interrupt wakes, in the order of the sleeping list. -/
def Kernel.expired (k : Kernel) : List ThreadPtr :=
  k.sleepingList.filter fun t => k.sleepingTicks t ≤ k.now

/-- The thread that `sema_up` wakes, if there is one. -/
def Kernel.firstWaiter (k : Kernel) (s : SemaPtr) : List ThreadPtr :=
  (sort (compare k) (k.waiters s)).head?.toList

def SemaOp.wakes (k : Kernel) : SemaOp → List ThreadPtr
  | upped s => k.firstWaiter s
  | none | took _ | queued _ | fresh _ => []

/-- The thread that executing the frame makes ready. -/
def Frame.wakes (cfg : Config) (k : Kernel) : Frame → List ThreadPtr
  | .startNew t _ _ | .threadUnblock t => [t]
  | f => (f.semaOp cfg k).wakes k

/-- The threads that a step makes ready, in this order. -/
def System.woken (cfg : Config) (σ : System) : Act → List ThreadPtr
  | .tick => σ.kernel.expired
  | .exec => ((σ.code σ.kernel.running).head?.map (Frame.wakes cfg σ.kernel)).getD []
  | _ => []

/-- Frames that end in a switch or in a comparison with the running thread. -/
def Frame.Checks (k : Kernel) : Frame → Prop
  | .startNew _ p _ => k.priority k.running < p
  | .threadUnblock _ => False
  | _ => True

/-- The step ends in a switch or in a comparison with the running thread. -/
def System.Checks (σ : System) : Act → Prop
  | .tick => TIME_SLICE ≤ σ.kernel.threadTicks + 1
  | .exec => ∀ f ∈ (σ.code σ.kernel.running).head?, f.Checks σ.kernel
  | _ => True

instance instDecidableFrameChecks (k : Kernel) (f : Frame) : Decidable (f.Checks k) :=
  match f with
  | .startNew _ p _ => inferInstanceAs (Decidable (k.priority k.running < p))
  | .threadUnblock _ => .isFalse not_false
  | .down _ _ | .downLoop _ _ | .semaTryDown _ | .semaUp _ | .lockAcquire _ | .lockTryAcquire _
  | .lockRelease _ | .acquireEntry _ | .tryEntry _ | .tryDown _ | .releaseEntry _ | .stmt _
  | .condEnqueue _ _ | .condSignal _ _ | .condBroadcast _ _ | .condReturn _ _ | .threadCreate _ _
  | .takeTid _ _ | .threadYield | .threadExit | .threadSetPriority _ | .threadBlock | .blockReturn
  | .timerSleep _ | .sleepUntil _ | .sleepReturn | .threadStart _ | .setIdle | .idleUp
  | .idleLoop => .isTrue trivial

instance instDecidableSystemChecks (σ : System) : (a : Act) → Decidable (σ.Checks a)
  | .tick => inferInstanceAs (Decidable (TIME_SLICE ≤ σ.kernel.threadTicks + 1))
  | .exec => inferInstanceAs (Decidable (∀ f ∈ (σ.code σ.kernel.running).head?, f.Checks σ.kernel))
  | .call _ | .preempt _ => .isTrue trivial

/-! ## The possibilities -/

/-- `ws` have been inserted into the ready list by the keys of `k₁`, which are those of `k` for the
threads that were in it. -/
structure Joined (k : Kernel) (ws : List ThreadPtr) (k₁ : Kernel) : Prop where
  running : k₁.running = k.running
  ready : k₁.readyList = insertAll (compare k₁) ws k.readyList
  keys : ∀ t ∈ k.readyList, k₁.priority t = k.priority t

/-- The next thread has been taken from the ready list of `k`, re-sorted by the keys of `k'`; it is
the idle thread when the list was empty. -/
def Popped (k k' : Kernel) : Prop :=
  (k.readyList = [] ∧ k'.readyList = [] ∧ k'.idleThread = some k'.running) ∨
    sort (compare k') k.readyList = k'.running :: k'.readyList

/-- What a step that wakes `ws` does to the ready list; `checked` says that it ends in a switch or
in a comparison. -/
inductive Turn (checked : Prop) (k : Kernel) (ws : List ThreadPtr) (k' : Kernel) : Prop
  /-- the running thread blocks or exits -/
  | pop : checked → ws = [] → k.running ∉ k'.readyList → Popped k k' → Turn checked k ws k'
  | yield (k₁ : Kernel) : checked → Joined k ws k₁ → Popped k₁.yielding k' →
      k'.priority = k₁.priority → Turn checked k ws k'
  /-- the head of the ready list is not above the running thread -/
  | stay : checked → Joined k ws k' → ¬ k'.Outranked → Turn checked k ws k'
  | join : (checked → ws = []) → Joined k ws k' → k'.priority k.running = k.priority k.running →
      (∀ t ∈ ws, k'.priority t = k.priority t) → Turn checked k ws k'

section Kernel

variable {k k₀ k₁ k' : Kernel} {ws : List ThreadPtr} {s : SemaPtr} {c : Prop}

theorem popped_of_next {t : ThreadPtr} {rest : List ThreadPtr} (h : Next k t rest) :
    Popped k (k.dispatch t rest) := by
  rcases h with ⟨h0, rfl, hi⟩ | h
  · exact Or.inl ⟨h0, rfl, hi⟩
  · exact Or.inr h

theorem mem_of_popped (h : Popped k k') {t : ThreadPtr} (ht : t ∈ k'.readyList) :
    t ∈ k.readyList := by
  rcases h with ⟨-, h0, -⟩ | h
  · rw [h0] at ht
    cases ht
  · exact (mem_iff_of_sort_eq_cons h t).2 (Or.inr ht)

/-- Nothing about the ready list changes. -/
theorem Turn.keep (hrun : k'.running = k.running) (hready : k'.readyList = k.readyList)
    (hkeys : ∀ t, t ∈ k.readyList ∨ t = k.running → k'.priority t = k.priority t) :
    Turn c k [] k' :=
  .join (fun _ => rfl) ⟨hrun, hready, fun t ht => hkeys t (Or.inl ht)⟩ (hkeys _ (Or.inr rfl))
    fun t ht => by cases ht

theorem threadBlock_turn (h : threadBlock k₀ = .ok k') (hready : k₀.readyList = k.readyList)
    (hnr : k.running ∉ k.readyList) (hc : c) : Turn c k [] k' := by
  rcases threadBlock_eq_ok.1 h with ⟨-, t, rest, hnext, rfl⟩
  have hpop : Popped k (k₀.blocked.dispatch t rest) := by
    have hp := popped_of_next hnext
    unfold Popped at hp ⊢
    rw [← hready]
    exact hp
  exact .pop hc rfl (fun hm => hnr (mem_of_popped hpop hm)) hpop

theorem threadYield_turn (hj : Joined k ws k₁) (h : threadYield k₁ = .ok k') (hc : c) :
    Turn c k ws k' := by
  rcases threadYield_eq_ok.1 h with ⟨-, t, rest, hnext, rfl⟩
  exact .yield k₁ hc hj (popped_of_next hnext) rfl

theorem steal_turn (hj : Joined k ws k₁) (h : stealRunningByPriority k₁ = .ok k') (hc : c) :
    Turn c k ws k' := by
  rcases stealRunningByPriority_eq_ok.1 h with ⟨-, hy⟩ | ⟨hn, rfl⟩
  · exact threadYield_turn hj hy hc
  · exact .stay hc hj hn

/-- The kernel `k₀` has the ready list of `k`, with the same keys. -/
structure SameReady (k k₀ : Kernel) : Prop where
  running : k₀.running = k.running
  ready : k₀.readyList = k.readyList
  keys : ∀ t ∈ k.readyList, k₀.priority t = k.priority t

theorem semaUp_turn (h : semaUp k₀ s = .ok k') (hk : SameReady k k₀) (hc : c) :
    Turn c k (k₀.firstWaiter s) k' := by
  rcases semaUp_eq_ok.1 h with ⟨k₁, hw, hs⟩
  rcases semaWake_eq_ok.1 hw with ⟨h0, rfl⟩ | ⟨t, rest, hsort, -, rfl⟩
  · have hfirst : k₁.firstWaiter s = [] := by simp [Kernel.firstWaiter, h0]
    rw [hfirst]
    have hj : Joined k [] (k₁.raised s) := ⟨hk.running, hk.ready, hk.keys⟩
    exact steal_turn hj hs hc
  · have hfirst : k₀.firstWaiter s = [t] := by simp [Kernel.firstWaiter, hsort]
    rw [hfirst]
    have hj : Joined k [t] ((k₀.woken s t rest).raised s) := by
      refine ⟨hk.running, ?_, hk.keys⟩
      rw [insertAll_cons, insertAll_nil, ← hk.ready]
      rfl
    exact steal_turn hj hs hc

theorem condSignal_turn {order : Kernel → ThreadPtr → ThreadPtr → Bool} {cv : CondPtr}
    {l : LockPtr} (h : condSignal order k cv l = .ok k') (hc : c) :
    Turn c k ((SemaOp.signal order k cv).wakes k) k' := by
  unfold SemaOp.signal
  rcases condSignal_eq_ok.1 h with ⟨-, -, ⟨h0, rfl⟩ | ⟨w, rest, hsort, hu⟩⟩
  · rw [h0]
    exact .keep rfl rfl fun _ _ => rfl
  · rw [hsort]
    have hk : SameReady k { k with condWaiters := update k.condWaiters cv rest } :=
      ⟨rfl, rfl, fun _ _ => rfl⟩
    have hturn := semaUp_turn hu hk hc
    exact hturn

theorem awakeLoop_ready {now : Int} {ts : List ThreadPtr} (h : awakeLoop now ts k = .ok k') :
    k'.readyList =
      insertAll (compare k) (ts.filter fun t => k.sleepingTicks t ≤ now) k.readyList := by
  induction ts generalizing k with
  | nil =>
      cases h
      rfl
  | cons t ts ih =>
      unfold awakeLoop at h
      split at h
      · rename_i he
        rcases bind_eq_ok.1 h with ⟨k₁, hu, h⟩
        rcases threadUnblock_eq_ok.1 hu with ⟨-, rfl⟩
        rw [List.filter_cons_of_pos (by simpa using he), insertAll_cons]
        exact ih h
      · rename_i he
        rw [List.filter_cons_of_neg (by simpa using he)]
        exact ih h

theorem timerInterrupt_turn (h : timerInterrupt k = .ok k') :
    Turn (TIME_SLICE ≤ k.threadTicks + 1) k k.expired k' := by
  rcases timerInterrupt_eq_ok.1 h with ⟨k₁, ha, hy⟩
  have hready := awakeLoop_ready ha
  have hj : Joined k k.expired k₁.returned := by
    rcases awakeLoop_footprint ha with ⟨_, _, _, rfl⟩
    exact ⟨rfl, hready, fun _ _ => rfl⟩
  rcases hy with ⟨hslice, hy⟩ | ⟨hslice, rfl⟩
  · exact threadYield_turn hj hy hslice
  · refine .join (fun hc => absurd hslice (not_lt.2 hc)) hj ?_ fun t _ => ?_
    · rcases awakeLoop_footprint ha with ⟨_, _, _, rfl⟩
      rfl
    · rcases awakeLoop_footprint ha with ⟨_, _, _, rfl⟩
      rfl

end Kernel

/-! ## Every step is one of them -/

section Steps

variable {order : Kernel → ThreadPtr → ThreadPtr → Bool} {k : Kernel}
  {code : ThreadPtr → List Frame} {f : Frame} {o : Outcome} {σ σ' : System}

theorem lockDonate_none {k' : Kernel} {l : LockPtr} (hn : k.holder l = none)
    (h : lockDonate k l = .ok k') : k' = k := by
  simp only [lockDonate, hn, Except.ok.injEq] at h
  exact h.symm

theorem lockTryAcquire_ready {k' : Kernel} {l : LockPtr} {success : Bool}
    (h : lockTryAcquire k l = .ok (k', success)) :
    k'.running = k.running ∧ k'.readyList = k.readyList ∧ k'.priority = k.priority := by
  rcases lockTryAcquire_eq_ok.1 h with ⟨-, -, rfl⟩
  by_cases h0 : 0 < k.value (.ofLock l)
  · cases success <;> simp [semaTryDown, h0, Kernel.lowered]
  · cases success <;> simp [semaTryDown, h0]

theorem semaDownTurn_turn {k' : Kernel} {s : SemaPtr} {got : Bool} (hlive : Live k code)
    (h : semaDownTurn k s = .ok (k', got)) (after : AfterDown) :
    Turn True k [] (downOutcome s after k' got).kernel := by
  have hnr := hlive.running_not_ready
  rcases semaDownTurn_eq_ok.1 h with ⟨-, rfl, hb⟩ | ⟨-, rfl, rfl⟩
  · have hturn : Turn True k [] k' := threadBlock_turn hb rfl hnr trivial
    exact hturn
  · refine .keep ?_ ?_ fun t _ => ?_ <;> cases after <;> rfl

theorem SemaOp.wakes_down (k : Kernel) (s : SemaPtr) : (SemaOp.down k s).wakes k = [] := by
  rcases SemaOp.down_cases k s with hop | hop <;> rw [hop] <;> rfl

theorem SemaOp.wakes_tryDown (k : Kernel) (s : SemaPtr) : (SemaOp.tryDown k s).wakes k = [] := by
  rcases SemaOp.tryDown_cases k s with hop | hop <;> rw [hop] <;> rfl

theorem Live.lockAcquire_turn {l : LockPtr} (hlive : Live k code) (hv : LockValues k)
    (hr : runFrame ⟨.calls, order⟩ k (.lockAcquire l) = .ok o) :
    Turn ((Frame.lockAcquire l).Checks k) k ((Frame.lockAcquire l).wakes ⟨.calls, order⟩ k)
      o.kernel := by
  have hnr := hlive.running_not_ready
  rcases bind_eq_ok.1 hr with ⟨⟨k₁, got⟩, hd, hr⟩
  rcases lockAcquire_eq_ok.1 hd with ⟨-, -, k₂, k₃, hdon, hdown, rfl⟩
  have hw : (Frame.lockAcquire l).wakes ⟨.calls, order⟩ k = [] := SemaOp.wakes_down k _
  rw [hw]
  rcases semaDownTurn_eq_ok.1 (semaDown_eq_ok.1 hdown).2 with ⟨-, rfl, hb⟩ | ⟨h0, rfl, rfl⟩
  · cases hr
    rcases lockDonate_footprint hdon with ⟨_, _, _, rfl⟩
    have hturn : Turn True k [] k₃ := threadBlock_turn hb rfl hnr trivial
    exact hturn
  · -- a lock that is up has no holder, so nothing was donated
    cases hr
    have hvalue : k.value (.ofLock l) ≠ 0 := by
      rcases lockDonate_footprint hdon with ⟨_, _, _, rfl⟩
      exact h0
    rcases hv.cases l with ⟨h0', -⟩ | ⟨-, hn⟩
    · exact absurd h0' hvalue
    · have hk := lockDonate_none hn hdon
      subst hk
      exact .keep rfl rfl fun _ _ => rfl

theorem Live.lockRelease_turn {l : LockPtr} (hlive : Live k code)
    (hr : runFrame ⟨.calls, order⟩ k (.lockRelease l) = .ok o) :
    Turn ((Frame.lockRelease l).Checks k) k ((Frame.lockRelease l).wakes ⟨.calls, order⟩ k)
      o.kernel := by
  have hnr := hlive.running_not_ready
  rcases bind_eq_ok.1 hr with ⟨k₁, hd, hr⟩
  cases hr
  rcases lockRelease_eq_ok.1 hd with ⟨-, hu⟩
  have hpri : ∀ t, t ≠ k.running → (k.released l).priority t = k.priority t :=
    fun _ ht => released_other ht
  have hrel : SameReady k (k.released l) := by
    refine ⟨?_, ?_, fun t ht => hpri t fun e => hnr (e ▸ ht)⟩
    · rcases released_footprint k l with ⟨_, _, _, he⟩
      rw [he]
    · rcases released_footprint k l with ⟨_, _, _, he⟩
      rw [he]
  have hwaiters : (k.released l).waiters = k.waiters := by
    rcases released_footprint k l with ⟨_, _, _, he⟩
    rw [he]
  have hw : (k.released l).firstWaiter (.ofLock l) = k.firstWaiter (.ofLock l) := by
    unfold Kernel.firstWaiter
    rw [hwaiters]
    have hsort := @sort_congr _ _ _ k.priority (k.released l).priority
      (k.waiters (.ofLock l)) fun t ht => hpri t fun e => by
        subst e
        exact hlive.not_wait_of_status (by simp [hlive.status_running]) _ ht
    rw [show sort (compare (k.released l)) (k.waiters (.ofLock l)) =
      sort (compare k) (k.waiters (.ofLock l)) from hsort]
  have hturn := semaUp_turn hu hrel (trivial : (Frame.lockRelease l).Checks k)
  rw [hw] at hturn
  exact hturn

theorem Live.setPriority_turn {p : Int} (hlive : Live k code)
    (hr : runFrame ⟨.calls, order⟩ k (.threadSetPriority p) = .ok o) :
    Turn ((Frame.threadSetPriority p).Checks k) k ((Frame.threadSetPriority p).wakes ⟨.calls, order⟩ k)
      o.kernel := by
  have hnr := hlive.running_not_ready
  rcases bind_eq_ok.1 hr with ⟨k₁, hd, hr⟩
  cases hr
  have hready : (resetPriority (k.prioritySet p)).running = k.running ∧
      (resetPriority (k.prioritySet p)).readyList = k.readyList := by
    rcases resetPriority_footprint (k.prioritySet p) with ⟨_, _, he⟩
    rw [he]
    exact ⟨rfl, rfl⟩
  have hpri : ∀ t, t ≠ k.running →
      (resetPriority (k.prioritySet p)).priority t = k.priority t := by
    intro t ht
    rw [@resetPriority_other (k.prioritySet p) t ht]
    exact update_of_ne ht _ _
  have hj : Joined k [] (resetPriority (k.prioritySet p)) :=
    ⟨hready.1, hready.2, fun t ht => hpri t fun e => hnr (e ▸ ht)⟩
  exact steal_turn hj hd trivial

theorem Live.runFrame_turn (hlive : Live k code) (hv : LockValues k) (hf : f.isCoarse = true)
    (hr : runFrame ⟨.calls, order⟩ k f = .ok o) :
    Turn (f.Checks k) k (f.wakes ⟨.calls, order⟩ k) o.kernel := by
  have hnr := hlive.running_not_ready
  have hsame : SameReady k k := ⟨rfl, rfl, fun _ _ => rfl⟩
  cases f with
  | down s after =>
      rcases bind_eq_ok.1 hr with ⟨⟨k₁, got⟩, hd, hr⟩
      cases hr
      have hturn := semaDownTurn_turn hlive (semaDown_eq_ok.1 hd).2 after
      have hw : (Frame.down s after).wakes ⟨.calls, order⟩ k = [] := SemaOp.wakes_down k _
      rw [hw]
      exact hturn
  | downLoop s after =>
      rcases bind_eq_ok.1 hr with ⟨⟨k₁, got⟩, hd, hr⟩
      cases hr
      have hturn := semaDownTurn_turn hlive hd after
      have hw : (Frame.downLoop s after).wakes ⟨.calls, order⟩ k = [] := SemaOp.wakes_down k _
      rw [hw]
      exact hturn
  | semaTryDown s =>
      cases hr
      have hw : (Frame.semaTryDown s).wakes ⟨.calls, order⟩ k = [] := SemaOp.wakes_tryDown k _
      rw [hw]
      refine .keep ?_ ?_ fun t _ => ?_ <;> simp only [semaTryDown] <;> split <;> rfl
  | semaUp s | idleUp =>
      rcases bind_eq_ok.1 hr with ⟨k₁, hd, hr⟩
      cases hr
      exact semaUp_turn hd hsame trivial
  | lockAcquire l => exact hlive.lockAcquire_turn hv hr
  | lockTryAcquire l =>
      rcases bind_eq_ok.1 hr with ⟨⟨k₁, success⟩, hd, hr⟩
      cases hr
      have hw : (Frame.lockTryAcquire l).wakes ⟨.calls, order⟩ k = [] := SemaOp.wakes_tryDown k _
      rw [hw]
      obtain ⟨hrun, hready, hpri⟩ := lockTryAcquire_ready hd
      exact .keep hrun hready fun t _ => congrFun hpri t
  | lockRelease l => exact hlive.lockRelease_turn hr
  | acquireEntry l | tryEntry l | tryDown l | releaseEntry l | stmt st => cases hf
  | condEnqueue c l =>
      rcases bind_eq_ok.1 hr with ⟨k₁, hd, hr⟩
      cases hr
      rcases condEnqueue_eq_ok.1 hd with ⟨-, -, rfl⟩
      exact .keep rfl rfl fun _ _ => rfl
  | condSignal c l =>
      rcases bind_eq_ok.1 hr with ⟨k₁, hd, hr⟩
      cases hr
      exact condSignal_turn hd trivial
  | condBroadcast c l =>
      simp only [runFrame] at hr
      split at hr
      · rename_i h0
        cases hr
        have hw : (Frame.condBroadcast c l).wakes ⟨.calls, order⟩ k = [] := by
          simp [Frame.wakes, Frame.semaOp, SemaOp.signal, h0, SemaOp.wakes]
        rw [hw]
        exact .keep rfl rfl fun _ _ => rfl
      · rcases bind_eq_ok.1 hr with ⟨k₁, hd, hr⟩
        cases hr
        exact condSignal_turn hd trivial
  | condReturn c l | blockReturn | sleepReturn | timerSleep n | setIdle | takeTid t p =>
      cases hr
      exact .keep rfl rfl fun _ _ => rfl
  | threadCreate t p | threadStart t =>
      rcases bind_eq_ok.1 hr with ⟨k₁, hd, hr⟩
      cases hr
      rcases threadCreate_eq_ok.1 hd with ⟨⟨ht, -⟩, -, rfl⟩
      -- the new thread's page was not in use
      refine .keep rfl rfl fun u hu => update_of_ne ?_ _ _
      rintro rfl
      rcases hu with hu | rfl
      · exact ht (hlive.mem_allList (by simp [hlive.status_of_ready hu]))
      · exact ht hlive.running_mem
  | startNew t p tid =>
      rcases bind_eq_ok.1 hr with ⟨k₁, hd, hr⟩
      cases hr
      have hj : Joined k [t] (k.started t tid) := ⟨rfl, rfl, fun _ _ => rfl⟩
      rcases (threadStartNew_eq_ok.1 hd).2 with ⟨hp, hy⟩ | ⟨hp, rfl⟩
      · exact threadYield_turn hj hy hp
      · exact .join (fun hc => absurd hc (not_lt.2 hp)) hj rfl fun _ _ => rfl
  | threadUnblock t =>
      rcases bind_eq_ok.1 hr with ⟨k₁, hd, hr⟩
      cases hr
      rcases threadUnblock_eq_ok.1 hd with ⟨-, rfl⟩
      exact .join False.elim ⟨rfl, rfl, fun _ _ => rfl⟩ rfl fun _ _ => rfl
  | threadYield =>
      rcases bind_eq_ok.1 hr with ⟨k₁, hd, hr⟩
      cases hr
      exact threadYield_turn ⟨rfl, rfl, fun _ _ => rfl⟩ hd trivial
  | threadExit =>
      rcases bind_eq_ok.1 hr with ⟨k₁, hd, hr⟩
      cases hr
      rcases threadExit_eq_ok.1 hd with ⟨-, t, rest, hnext, rfl⟩
      have hpop : Popped k (k.exiting.dispatch t rest) := popped_of_next hnext
      exact .pop trivial rfl (fun hm => hnr (mem_of_popped hpop hm)) hpop
  | threadSetPriority p => exact hlive.setPriority_turn hr
  | threadBlock | idleLoop =>
      rcases bind_eq_ok.1 hr with ⟨k₁, hd, hr⟩
      cases hr
      exact threadBlock_turn hd rfl hnr trivial
  | sleepUntil d =>
      rcases bind_eq_ok.1 hr with ⟨k₁, hd, hr⟩
      cases hr
      exact threadBlock_turn hd rfl hnr trivial

theorem Called.step_turn {a : Act} (h : Called σ) (ha : ∀ t, a ≠ .preempt t)
    (hs : Project2.step ⟨.calls, order⟩ a σ = some σ') :
    Turn (σ.Checks a) σ.kernel (σ.woken ⟨.calls, order⟩ a) σ'.kernel := by
  cases a with
  | call op =>
      rcases step_call_iff.1 hs with ⟨-, rfl⟩
      exact .keep rfl rfl fun _ _ => rfl
  | exec =>
      rcases step_exec_iff.1 hs with ⟨f, rest, o, hc, hr, rfl⟩
      have hturn := h.settled.live.runFrame_turn h.values
        (h.coarse σ.kernel.running f (by simp [hc])) hr
      have hw : σ.woken ⟨.calls, order⟩ .exec = f.wakes ⟨.calls, order⟩ σ.kernel := by
        simp [System.woken, hc]
      have hck : σ.Checks .exec = f.Checks σ.kernel := by simp [System.Checks, hc]
      rw [hw, hck]
      exact hturn
  | tick =>
      rcases step_tick_iff.1 hs with ⟨-, k, ht, rfl⟩
      exact timerInterrupt_turn ht
  | preempt t => exact absurd rfl (ha t)

end Steps

/-! ## A turn as a step of the queue -/

/-- The thread that was running, when it is in the ready list now. -/
def Kernel.rejoins (k k' : Kernel) : List ThreadPtr :=
  if k.running ∈ k'.readyList then [k.running] else []

section Queue

variable {k k' k₁ : Kernel} {ws : List ThreadPtr} {c : Prop}

theorem Joined.not_mem (hj : Joined k ws k₁) (hnr : k.running ∉ k.readyList)
    (hws : k.running ∉ ws) : k.running ∉ k₁.readyList := by
  rw [hj.ready, mem_insertAll]
  rintro (h | h)
  · exact hws h
  · exact hnr h

theorem Joined.descending (hj : Joined k ws k₁) (hd : Descending k.priority k.readyList) :
    Descending k₁.priority k₁.readyList := by
  rw [hj.ready]
  exact insertAll_descending (hd.congr hj.keys)

theorem rejoins_nil (h : k.running ∉ k'.readyList) : k.rejoins k' = [] :=
  if_neg h

/-- Every turn is a step of the queue in which the woken threads join, and the running thread if
it yields. -/
theorem Turn.serves (h : Turn c k ws k') (hd : Descending k.priority k.readyList)
    (hnr : k.running ∉ k.readyList) (hws : k.running ∉ ws) :
    ∃ key, (∀ t ∈ k.readyList, key t = k.priority t) ∧
      (∀ t ∈ ws ++ k.rejoins k', key t = k'.priority t) ∧
      Serves key k.readyList (ws ++ k.rejoins k') k'.priority k'.readyList := by
  -- nobody is dispatched
  have hstay : Joined k ws k' → ∃ key, (∀ t ∈ k.readyList, key t = k.priority t) ∧
      (∀ t ∈ ws ++ k.rejoins k', key t = k'.priority t) ∧
      Serves key k.readyList (ws ++ k.rejoins k') k'.priority k'.readyList := by
    intro hj
    rw [rejoins_nil (hj.not_mem hnr hws), List.append_nil]
    exact ⟨k'.priority, hj.keys, fun _ _ => rfl, .stay rfl hj.ready⟩
  cases h with
  | pop _ hnil hout hp =>
      subst hnil
      rw [rejoins_nil hout]
      refine ⟨k.priority, fun _ _ => rfl, by simp, ?_⟩
      rcases hp with ⟨h0, h0', -⟩ | hp
      · exact .empty h0 h0'
      · exact .take _ hp
  | stay _ hj _ => exact hstay hj
  | join _ hj _ _ => exact hstay hj
  | yield k₁ _ hj hp hpri =>
      refine ⟨k₁.priority, hj.keys, fun t _ => by rw [hpri], ?_⟩
      have hready := hj.ready
      have hmem : ∀ t, t ∈ k'.readyList → t ∈ k₁.yielding.readyList := fun t => mem_of_popped hp
      by_cases hidle : k₁.idleThread = some k₁.running
      · -- the idle thread is not put back
        have hy : k₁.yielding.readyList = k₁.readyList := if_pos hidle
        have hout : k.running ∉ k'.readyList := by
          intro hm
          have hm' := hmem _ hm
          rw [hy] at hm'
          exact hj.not_mem hnr hws hm'
        rw [rejoins_nil hout, List.append_nil]
        unfold Popped at hp
        rw [hy, hready] at hp
        rcases hp with ⟨h0, h0', -⟩ | hp
        · exact .empty h0 h0'
        · exact .take _ hp
      · have hy : k₁.yielding.readyList =
            insertOrdered (byKey k₁.priority) k.running k₁.readyList := by
          rw [← hj.running]
          exact if_neg hidle
        unfold Popped at hp
        rw [hy] at hp
        rcases hp with ⟨h0, -⟩ | hp
        · exact absurd h0 (insertOrdered_ne_nil _ _)
        · by_cases hself : k'.running = k.running
          · -- the running thread is dispatched again
            have htail : k'.readyList = k₁.readyList := by
              have hp' : sort (byKey k₁.priority)
                  (insertOrdered (byKey k₁.priority) k.running k₁.readyList) =
                    k.running :: k'.readyList := by
                rw [← hpri, ← hself]
                rw [← hpri, ← hself] at hp
                exact hp
              exact tail_of_sort_insert (hj.descending hd) (hj.not_mem hnr hws) hp'
            have hout : k.running ∉ k'.readyList := by
              rw [htail]
              exact hj.not_mem hnr hws
            rw [rejoins_nil hout, List.append_nil]
            exact .stay hpri (htail.trans hready)
          · have hin : k.running ∈ k'.readyList := by
              have hm := (mem_iff_of_sort_eq_cons hp k.running).1 (mem_insertOrdered.2 (Or.inl rfl))
              exact hm.resolve_left fun e => hself e.symm
            have hrj : k.rejoins k' = [k.running] := if_pos hin
            rw [hrj]
            refine .take k'.running ?_
            rw [insertAll_append]
            rw [hready] at hp
            exact hp

theorem Turn.descending (h : Turn c k ws k') (hd : Descending k.priority k.readyList)
    (hnr : k.running ∉ k.readyList) (hws : k.running ∉ ws) :
    Descending k'.priority k'.readyList := by
  obtain ⟨key, hold, -, hs⟩ := h.serves hd hnr hws
  exact hs.descending (hd.congr hold)

end Queue

/-! ## The threads that a step wakes were blocked -/

section Woken

variable {σ σ' : System} {cfg : Config} {a : Act} {t : ThreadPtr}

theorem Frame.wakes_cases (cfg : Config) (k : Kernel) (f : Frame) :
    (∃ t p tid, f = .startNew t p tid) ∨ (∃ t, f = .threadUnblock t) ∨
      f.wakes cfg k = (f.semaOp cfg k).wakes k := by
  cases f with
  | startNew t p tid => exact Or.inl ⟨t, p, tid, rfl⟩
  | threadUnblock t => exact Or.inr (Or.inl ⟨t, rfl⟩)
  | _ => exact Or.inr (Or.inr rfl)

theorem Live.wakes_blocked {k : Kernel} {code : ThreadPtr → List Frame} {f : Frame} {o : Outcome}
    (hlive : Live k code) (hr : runFrame cfg k f = .ok o) (ht : t ∈ f.wakes cfg k) :
    k.status t = .blocked := by
  have hop : ∀ op : SemaOp, t ∈ op.wakes k → k.status t = .blocked := by
    intro op hop
    cases op with
    | upped s =>
        have hmem : t ∈ sort (compare k) (k.waiters s) :=
          List.mem_of_head? (Option.mem_toList.1 hop)
        exact (hlive.wait (mem_sort.1 hmem)).1
    | none | took s | queued s | fresh u => cases hop
  rcases f.wakes_cases cfg k with ⟨u, p, tid, rfl⟩ | ⟨u, rfl⟩ | hf
  · rcases bind_eq_ok.1 hr with ⟨k₁, hd, -⟩
    rw [List.mem_singleton.1 ht]
    exact (threadStartNew_eq_ok.1 hd).1
  · rcases bind_eq_ok.1 hr with ⟨k₁, hd, -⟩
    rw [List.mem_singleton.1 ht]
    exact (threadUnblock_eq_ok.1 hd).1
  · exact hop _ (hf ▸ ht)

theorem Settled.woken_blocked (h : Settled σ) (hs : Project2.step cfg a σ = some σ')
    (ht : t ∈ σ.woken cfg a) : σ.kernel.status t = .blocked := by
  cases a with
  | call op => cases ht
  | exec =>
      rcases step_exec_iff.1 hs with ⟨f, rest, o, hc, hr, -⟩
      have hw : σ.woken cfg .exec = f.wakes cfg σ.kernel := by simp [System.woken, hc]
      rw [hw] at ht
      exact h.live.wakes_blocked hr ht
  | tick => exact (h.live.sleep (List.mem_of_mem_filter ht)).1
  | preempt u => cases ht

theorem Settled.woken_nodup (h : Settled σ) : (σ.woken cfg a).Nodup := by
  have hop : ∀ op : SemaOp, (op.wakes σ.kernel).Nodup := by
    intro op
    cases op with
    | upped s =>
        show (sort (compare σ.kernel) (σ.kernel.waiters s)).head?.toList.Nodup
        cases sort (compare σ.kernel) (σ.kernel.waiters s) with
        | nil => exact List.nodup_nil
        | cons t rest => exact List.nodup_singleton t
    | none | took s | queued s | fresh u => exact List.nodup_nil
  cases a with
  | call op => exact List.nodup_nil
  | exec =>
      unfold System.woken
      cases (σ.code σ.kernel.running).head? with
      | none => exact List.nodup_nil
      | some f =>
          rcases f.wakes_cases cfg σ.kernel with ⟨u, p, tid, rfl⟩ | ⟨u, rfl⟩ | hf
          · exact List.nodup_singleton _
          · exact List.nodup_singleton _
          · show (f.wakes cfg σ.kernel).Nodup
            rw [hf]
            exact hop _
  | tick => exact h.live.sleep_nodup.filter _
  | preempt u => exact List.nodup_nil

theorem Settled.running_not_woken (h : Settled σ) (hs : Project2.step cfg a σ = some σ') :
    σ.kernel.running ∉ σ.woken cfg a := by
  intro hm
  have hb := h.woken_blocked hs hm
  rw [h.live.status_running] at hb
  cases hb

theorem Settled.running_not_ready (h : Settled σ) : σ.kernel.running ∉ σ.kernel.readyList :=
  h.live.running_not_ready

end Woken

end Project2
end Pintos
