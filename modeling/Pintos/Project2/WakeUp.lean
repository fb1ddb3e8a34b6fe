import Pintos.Project2.LifeCycle

/-!
# WakeUp — one call of `sema_up`

`sema_up` wakes the waiter of highest priority, raises the value and then compares the head of the
ready list with the running thread.

* `Upped`: the increment and the wake-up;
* `sema_up_completes_iff`: when the call gets through, by its context.  Its comment allows a call by
  an interrupt handler, but `thread_yield` does not;
* `sema_up_wakes_top`: whom a call by a thread wakes, and who runs after it.
-/

namespace Pintos
namespace Project2

open Lib Function

/-! ## Yielding to a ready thread -/

section Yield

variable {k k' : Kernel} {s : SemaPtr} {t : ThreadPtr} {rest : List ThreadPtr}

theorem yielding_ne_nil (h : k.readyList ≠ []) : k.yielding.readyList ≠ [] := by
  unfold Kernel.yielding
  split
  · exact h
  · exact insertOrdered_ne_nil _ _

/-- Outside of interrupt handlers a thread can yield while somebody is ready. -/
theorem threadYield_ok (hi : k.intrContext = false) (h : k.readyList ≠ []) :
    ∃ k', threadYield k = .ok k' := by
  obtain ⟨t, rest, hs⟩ := @exists_sort_eq_cons _ (compare k.yielding) _ (yielding_ne_nil h)
  exact ⟨_, threadYield_eq_ok.2 ⟨hi, t, rest, Or.inr hs, rfl⟩⟩

theorem Kernel.Outranked.ne_nil (h : k.Outranked) : k.readyList ≠ [] := by
  obtain ⟨next, rest, hr, -⟩ := h
  simp [hr]

/-- `steal_running_by_priority` gets through outside of handlers, or when nobody ready at the
head is above the running thread. -/
theorem steal_ok_iff :
    (∃ k', stealRunningByPriority k = .ok k') ↔ (k.Outranked → k.intrContext = false) := by
  constructor
  · rintro ⟨k', h⟩ ho
    rcases stealRunningByPriority_eq_ok.1 h with ⟨-, hy⟩ | ⟨hn, -⟩
    · exact (threadYield_eq_ok.1 hy).1
    · exact absurd ho hn
  · intro h
    by_cases ho : k.Outranked
    · obtain ⟨k', hy⟩ := threadYield_ok (h ho) ho.ne_nil
      exact ⟨k', stealRunningByPriority_eq_ok.2 (Or.inl ⟨ho, hy⟩)⟩
    · exact ⟨k, stealRunningByPriority_eq_ok.2 (Or.inr ⟨ho, rfl⟩)⟩

/-! ## The ready list behind the wake-up -/

/-- The head of the ready list is above the running thread. -/
theorem outranked_iff_head :
    k.Outranked ↔ ∃ t ∈ k.readyList.head?, k.priority k.running < k.priority t := by
  unfold Kernel.Outranked
  cases k.readyList <;> simp

/-- The woken thread goes to the head only when it is above the one there. -/
theorem woken_outranked_iff :
    ((k.woken s t rest).raised s).Outranked ↔
      k.Outranked ∨ k.priority k.running < k.priority t := by
  have hlist : ((k.woken s t rest).raised s).readyList =
      insertOrdered (byKey k.priority) t k.readyList := rfl
  rw [outranked_iff_head, outranked_iff_head, hlist]
  show (∃ u ∈ _, k.priority k.running < k.priority u) ↔ _
  cases hr : k.readyList with
  | nil =>
      simp [insertOrdered]
  | cons u us =>
      rw [insertOrdered_cons]
      split
      · rename_i hlt
        simp only [List.head?_cons, Option.mem_def, Option.some.injEq, exists_eq_left']
        exact ⟨Or.inr, fun h => h.elim (fun h => h.trans hlt) id⟩
      · rename_i hle
        simp only [List.head?_cons, Option.mem_def, Option.some.injEq, exists_eq_left']
        exact ⟨Or.inl, fun h => h.elim id fun h => h.trans_le (not_lt.1 hle)⟩

end Yield

/-! ## The increment and the wake-up -/

/-- The value has gone up by one, in `unsigned` arithmetic, and one waiter, if there is any, has
left the waiters and is awake. -/
structure Upped (k k' : Kernel) (s : SemaPtr) : Prop where
  value : k'.value s = (k.value s + 1) % unsignedSize
  woken : (k.waiters s = [] ∧ k'.waiters s = []) ∨
    ∃ t, (k.waiters s).Perm (t :: k'.waiters s) ∧ k'.Awake t

section Upped

variable {k k' : Kernel} {s : SemaPtr} {t : ThreadPtr}

/-- `steal_running_by_priority` blocks nobody. -/
theorem steal_status (h : stealRunningByPriority k = .ok k')
    (ht : k.status t ≠ .blocked) : k'.status t ≠ .blocked := by
  rcases stealRunningByPriority_eq_ok.1 h with ⟨-, hy⟩ | ⟨-, rfl⟩
  · obtain ⟨-, u, rest, -, rfl⟩ := threadYield_eq_ok.1 hy
    by_cases hu : t = u
    · simp [Kernel.dispatch, hu]
    · by_cases hr : t = k.running
      · simp [Kernel.dispatch, Kernel.yielding, hr, hr ▸ hu]
      · simpa [Kernel.dispatch, Kernel.yielding, hu, hr] using ht
  · exact ht

/-- A ready thread is still in the list after a yield, or it runs. -/
theorem threadYield_awake (hy : threadYield k = .ok k') (hrun : t ≠ k.running)
    (hready : k.status t = .ready) (hone : k.readyList.count t = 1) : k'.Awake t := by
  obtain ⟨-, u, rest, hnext, rfl⟩ := threadYield_eq_ok.1 hy
  have hmem : t ∈ k.readyList := List.count_pos_iff.1 (by omega)
  have hcount : k.yielding.readyList.count t = 1 := by
    unfold Kernel.yielding
    split
    · exact hone
    · rw [(insertOrdered_perm k.running k.readyList).count_eq, List.count_cons_of_ne hrun.symm]
      exact hone
  by_cases hut : u = t
  · exact Or.inl ⟨hut, by simp [Kernel.dispatch, hut]⟩
  · refine Or.inr ⟨by simp [Kernel.dispatch, Kernel.yielding, Ne.symm hut, hrun, hready], ?_⟩
    rcases hnext with ⟨h0, -⟩ | hsort
    · rw [h0] at hcount
      cases hcount
    · show rest.count t = 1
      rw [← hcount, ← (perm_of_sort_eq_cons hsort).symm.count_eq, List.count_cons_of_ne hut]

theorem steal_awake (h : stealRunningByPriority k = .ok k') (hrun : t ≠ k.running)
    (hready : k.status t = .ready) (hone : k.readyList.count t = 1) : k'.Awake t := by
  rcases stealRunningByPriority_eq_ok.1 h with ⟨-, hy⟩ | ⟨-, rfl⟩
  · exact threadYield_awake hy hrun hready hone
  · exact Or.inr ⟨hready, hone⟩

/-- Whom `sema_up` wakes is no longer blocked, and awake when it was in no list before. -/
theorem semaUp_woken (h : semaUp k s = .ok k') :
    (k.waiters s = [] ∧ k'.waiters s = []) ∨
      ∃ t, (k.waiters s).Perm (t :: k'.waiters s) ∧ k'.status t ≠ .blocked ∧
        (t ≠ k.running → t ∉ k.readyList → k'.Awake t) := by
  obtain ⟨k₁, hw, hs⟩ := semaUp_eq_ok.1 h
  rcases stealRunningByPriority_footprint hs with ⟨st, r, run, ticks, hk'⟩
  rcases semaWake_eq_ok.1 hw with ⟨h0, rfl⟩ | ⟨t, rest, hsort, -, rfl⟩
  · refine Or.inl ⟨h0, ?_⟩
    rw [hk']
    exact h0
  · have hready : ((k.woken s t rest).raised s).status t = .ready := by
      simp [Kernel.raised, Kernel.woken, Kernel.madeReady]
    refine Or.inr ⟨t, ?_, steal_status hs (by simp [hready]), fun hrun hout => ?_⟩
    · rw [hk']
      simpa [Kernel.raised, Kernel.woken, Kernel.madeReady] using perm_of_sort_eq_cons hsort
    · refine steal_awake hs hrun hready ?_
      show (insertOrdered (compare k) t k.readyList).count t = 1
      rw [(insertOrdered_perm t k.readyList).count_eq, List.count_cons_self,
        List.count_eq_zero_of_not_mem hout]

theorem semaUp_value (h : semaUp k s = .ok k') :
    k'.value s = (k.value s + 1) % unsignedSize := by
  rw [(semaUp_does h).1]
  exact update_self _ _ _

/-- The call gets through unless it comes from a handler and has somebody to yield to. -/
theorem semaUp_ok_iff (hb : ∀ t ∈ k.waiters s, k.status t = .blocked) :
    (∃ k', semaUp k s = .ok k') ↔
      (k.intrContext = true → ∀ t, t ∈ k.readyList.head? ∨ t ∈ k.waiters s →
        k.priority t ≤ k.priority k.running) := by
  have hcontext : ∀ {p : Prop}, (p → k.intrContext = false) ↔ (k.intrContext = true → ¬ p) := by
    intro p
    cases k.intrContext <;> simp
  cases hs : sort (compare k) (k.waiters s) with
  | nil =>
      have h0 : k.waiters s = [] := sort_eq_nil.1 hs
      have hup : ∀ k', semaUp k s = .ok k' ↔ stealRunningByPriority (k.raised s) = .ok k' := by
        intro k'
        simp [semaUp, semaWake, hs]
        rfl
      simp only [hup, steal_ok_iff]
      rw [show (k.raised s).intrContext = k.intrContext from rfl, hcontext, outranked_iff_head]
      simp [h0, Kernel.raised]
  | cons w rest =>
      have hw : w ∈ k.waiters s := mem_of_sort_eq_cons hs
      have hup : ∀ k', semaUp k s = .ok k' ↔
          stealRunningByPriority ((k.woken s w rest).raised s) = .ok k' := by
        intro k'
        rw [semaUp_eq_ok]
        constructor
        · rintro ⟨k₁, hwake, hsteal⟩
          rcases semaWake_eq_ok.1 hwake with ⟨h0, -⟩ | ⟨t, rest', hs', -, rfl⟩
          · rw [h0] at hw
            cases hw
          · rw [hs] at hs'
            cases hs'
            exact hsteal
        · intro hsteal
          exact ⟨_, semaWake_eq_ok.2 (Or.inr ⟨w, rest, hs, hb w hw, rfl⟩), hsteal⟩
      simp only [hup, steal_ok_iff, woken_outranked_iff]
      rw [show ((k.woken s w rest).raised s).intrContext = k.intrContext from rfl, hcontext,
        outranked_iff_head]
      refine forall_congr' fun _ => ?_
      -- some waiter is above the running thread just when the one that is woken is
      have htop : ∀ t ∈ k.waiters s, k.priority t ≤ k.priority w := fun t ht =>
        le_of_sort_eq_cons hs ht
      constructor
      · rintro hn t (ht | ht)
        · exact not_lt.1 fun hlt => hn (Or.inl ⟨t, ht, hlt⟩)
        · exact (htop t ht).trans (not_lt.1 fun hlt => hn (Or.inr hlt))
      · rintro hle (⟨t, ht, hlt⟩ | hlt)
        · exact absurd (hle t (Or.inl ht)) (not_le.2 hlt)
        · exact absurd (hle w (Or.inr hw)) (not_le.2 hlt)

end Upped

/-! ## Both contexts -/

section Contexts

variable {cfg : Config} {σ : System} {k' : Kernel} {s : SemaPtr}

/-- The kernel as a function finds it that an external interrupt handler, or a thread, calls. -/
def Kernel.inContext (k : Kernel) (handler : Bool) : Kernel :=
  { k with intrContext := handler }

/-- The call of `sema_up` reaches its end, with the increment and the wake-up done. -/
def Kernel.Completes (k : Kernel) (s : SemaPtr) : Prop :=
  ∃ k', semaUp k s = .ok k' ∧ Upped k k' s

/-- Between two steps the waiters of a semaphore are in no other list. -/
theorem Settled.upped {handler : Bool} (h : Settled σ)
    (hu : semaUp (σ.kernel.inContext handler) s = .ok k') :
    Upped (σ.kernel.inContext handler) k' s := by
  refine ⟨semaUp_value hu, (semaUp_woken hu).imp id ?_⟩
  rintro ⟨t, hperm, -, hawake⟩
  have ht : t ∈ σ.kernel.waiters s := hperm.symm.subset List.mem_cons_self
  have hb := (h.live.wait ht).1
  refine ⟨t, hperm, hawake ?_ ?_⟩
  · rintro rfl
    have hr : σ.kernel.status σ.kernel.running = .blocked := hb
    rw [h.live.status_running] at hr
    cases hr
  · exact h.live.not_ready_of_status (by simp [hb])

/-- In every reachable state `sema_up` completes when a thread calls it.  In an interrupt handler it
completes if and only if neither the head of the ready list nor a waiter of the semaphore is above
the running thread. -/
theorem sema_up_completes_iff {init : Nat → Fin unsignedSize} {idle : ThreadPtr}
    (h : Reach (step cfg) UnblockOk (boot init idle) σ) (s : SemaPtr) (handler : Bool) :
    (σ.kernel.inContext handler).Completes s ↔
      (handler = true → ∀ t, t ∈ σ.kernel.readyList.head? ∨ t ∈ σ.kernel.waiters s →
        σ.kernel.priority t ≤ σ.kernel.priority σ.kernel.running) := by
  have hset := settled_of_reach h
  have hok := @semaUp_ok_iff (σ.kernel.inContext handler) s fun t ht => (hset.live.wait ht).1
  constructor
  · rintro ⟨k', hk', -⟩
    exact hok.1 ⟨k', hk'⟩
  · intro hle
    obtain ⟨k', hk'⟩ := hok.2 hle
    exact ⟨k', hk', hset.upped hk'⟩

/-- Runs that call no bare operation unblock nobody at will. -/
theorem reach_of_noBare {init : Nat → Fin unsignedSize} {idle : ThreadPtr}
    (h : Reach (step cfg) NoBareCall (boot init idle) σ) :
    Reach (step cfg) UnblockOk (boot init idle) σ := by
  induction h with
  | init => exact .init
  | next hrun ha hs ih => exact .next ih ((settled_of_noBare hrun).2.unblockOk _) hs

/-- Thread 2, of priority 40, waits for the plain semaphore 0. -/
def waitingActs : List Act :=
  bootActs ++ createActs 2 40 ++ [.call (.semaDown 0), .exec]

def waitingSystem : System :=
  (runAll (step .calls) waitingActs (boot allZero 1)).get (by decide +kernel)

theorem waitingSystem_reach : Reach (step .calls) UnblockOk (boot allZero 1) waitingSystem := by
  have hacts : ∀ a ∈ waitingActs, a.isBareCall = false := by decide
  exact reach_of_noBare (Reach.get_runAll _ fun a ha _ => hacts a ha)

theorem sema_up_completes_waiting : (waitingSystem.kernel.inContext false).Completes (.sema 0) :=
  (sema_up_completes_iff waitingSystem_reach (.sema 0) false).2 nofun

/-- The handler that takes the semaphore up wakes thread 2, which is above the running thread. -/
theorem sema_up_fails :
    ¬ ∀ σ : System, Reach (step .calls) UnblockOk (boot allZero 1) σ →
      ∀ (s : SemaPtr) (handler : Bool), (σ.kernel.inContext handler).Completes s := by
  intro hall
  obtain ⟨k', hk', -⟩ := hall waitingSystem waitingSystem_reach (.sema 0) true
  have hnone : (semaUp (waitingSystem.kernel.inContext true) (.sema 0)).toOption.isNone = true := by
    decide +kernel
  rw [hk'] at hnone
  cases hnone

end Contexts

/-! ## Called by a thread -/

section Thread

variable {k k' : Kernel} {s : SemaPtr}

/-- The ready list and the waiters of `s`, as they are between two operations: nobody is linked
twice, the waiters are blocked and the running thread is in neither list. -/
structure UpReady (k : Kernel) (s : SemaPtr) : Prop where
  waiters_nodup : (k.waiters s).Nodup
  ready_nodup : k.readyList.Nodup
  blocked : ∀ t ∈ k.waiters s, k.status t = .blocked
  ready : ∀ t ∈ k.readyList, k.status t = .ready
  running : k.status k.running = .running

theorem Settled.upReady {σ : System} (h : Settled σ) (s : SemaPtr) : UpReady σ.kernel s where
  waiters_nodup := h.live.wait_nodup s
  ready_nodup := h.live.ready_nodup
  blocked := fun _ ht => (h.live.wait ht).1
  ready := fun _ ht => h.live.status_of_ready ht
  running := h.live.status_running

/-- What `sema_up` does when it wakes `t`. -/
structure WakesTop (k k' : Kernel) (s : SemaPtr) (t : ThreadPtr) : Prop where
  waiter : t ∈ k.waiters s
  top : ∀ u ∈ k.waiters s, k.priority u ≤ k.priority t
  /-- `t` is ready and linked once in the ready list, or it runs -/
  woken : k'.Awake t
  /-- `t` is no longer blocked, and whoever else was blocked still is -/
  unblocked : ∀ u, k'.status u = .blocked ↔ k.status u = .blocked ∧ u ≠ t
  others : ∀ u, (k'.waiters s).count u = if u ∈ k.waiters s ∧ u ≠ t then 1 else 0
  /-- a more urgent thread preempts the caller, which stays linked in the ready list -/
  preempts : k.priority k.running < k.priority t →
    (k'.running = t ∨ k'.running ∈ k.readyList) ∧ k.priority t ≤ k.priority k'.running ∧
      (∀ u ∈ k'.readyList, k.priority u ≤ k.priority k'.running) ∧
        k'.readyList.count k.running = 1

/-- Whom a yield puts in front of a running thread that is not the idle thread. -/
theorem threadYield_top (hy : threadYield k = .ok k') (hidle : k.idleThread ≠ some k.running) :
    sort (byKey k.priority) (insertOrdered (byKey k.priority) k.running k.readyList) =
        k'.running :: k'.readyList ∧
      k'.status = update (update k.status k.running .ready) k'.running .running := by
  obtain ⟨-, x, r, hnext, rfl⟩ := threadYield_eq_ok.1 hy
  have hlist : k.yielding.readyList = insertOrdered (byKey k.priority) k.running k.readyList := by
    simp only [Kernel.yielding, if_neg hidle]
    rfl
  rcases hnext with ⟨h0, -⟩ | hsort
  · rw [hlist] at h0
    exact absurd h0 (insertOrdered_ne_nil _ _)
  · rw [hlist] at hsort
    exact ⟨hsort, rfl⟩

/-- The comparison at the end of `sema_up` blocks nobody and wakes nobody. -/
theorem steal_blocked_iff (h : stealRunningByPriority k = .ok k')
    (hready : ∀ t ∈ k.readyList, k.status t = .ready) (hrun : k.status k.running = .running)
    (hidle : k.idleThread ≠ some k.running) (u : ThreadPtr) :
    k'.status u = .blocked ↔ k.status u = .blocked := by
  rcases stealRunningByPriority_eq_ok.1 h with ⟨-, hy⟩ | ⟨-, rfl⟩
  · obtain ⟨hsort, hstatus⟩ := threadYield_top hy hidle
    have hx : k'.running = k.running ∨ k'.running ∈ k.readyList :=
      mem_insertOrdered.1 (mem_of_sort_eq_cons hsort)
    rw [hstatus]
    by_cases hux : u = k'.running
    · subst hux
      rcases hx with hx | hx
      · simp [hx, hrun]
      · simp [hready _ hx]
    · by_cases hur : u = k.running
      · subst hur
        simp [hux, hrun]
      · simp [hux, hur]
  · rfl

/-- The call wakes the waiter that the sort puts in front. -/
theorem UpReady.wakesTop {t : ThreadPtr} {rest : List ThreadPtr} (h : UpReady k s)
    (hidle : k.idleThread ≠ some k.running) (hsort : sort (compare k) (k.waiters s) = t :: rest)
    (hs : stealRunningByPriority ((k.woken s t rest).raised s) = .ok k') :
    WakesTop k k' s t := by
  have hmem : t ∈ k.waiters s := mem_of_sort_eq_cons hsort
  have hb := h.blocked t hmem
  have hrt : k.running ≠ t := by
    rintro e
    rw [← e, h.running] at hb
    cases hb
  have hlist : ((k.woken s t rest).raised s).readyList =
      insertOrdered (byKey k.priority) t k.readyList := rfl
  have hstatus : ((k.woken s t rest).raised s).status = update k.status t .ready := rfl
  have htr : t ∉ k.readyList := by
    intro hm
    rw [h.ready t hm] at hb
    cases hb
  have hready : ∀ u ∈ insertOrdered (byKey k.priority) t k.readyList,
      update k.status t .ready u = .ready := by
    intro u hu
    by_cases hut : u = t
    · simp [hut]
    · simpa [hut] using h.ready u ((mem_insertOrdered.1 hu).resolve_left hut)
  have hwaiters : k'.waiters s = rest := by
    rcases stealRunningByPriority_footprint hs with ⟨_, _, _, _, rfl⟩
    simp [Kernel.raised, Kernel.woken, Kernel.madeReady]
  have hone : (insertOrdered (byKey k.priority) t k.readyList).count t = 1 :=
    List.count_eq_one_of_mem (insertOrdered_nodup.2 ⟨htr, h.ready_nodup⟩)
      (mem_insertOrdered.2 (Or.inl rfl))
  refine ⟨hmem, fun u hu => le_of_sort_eq_cons hsort hu,
    steal_awake hs hrt.symm (by rw [hstatus, update_self]) hone, fun u => ?_, fun u => ?_,
    fun hlt => ?_⟩
  · have hrun : update k.status t .ready k.running = .running := by
      rw [update_of_ne hrt, h.running]
    rw [steal_blocked_iff hs hready hrun hidle, hstatus]
    by_cases hut : u = t
    · simp [hut]
    · simp [hut]
  · rw [hwaiters]
    have hiff := mem_tail_iff_of_sort_eq_cons h.waiters_nodup hsort u
    split
    · rename_i hu
      exact List.count_eq_one_of_mem (nodup_tail_of_sort_eq_cons h.waiters_nodup hsort) (hiff.2 hu)
    · rename_i hu
      exact List.count_eq_zero_of_not_mem fun hm => hu (hiff.1 hm)
  · rcases stealRunningByPriority_eq_ok.1 hs with ⟨-, hy⟩ | ⟨hn, -⟩
    · obtain ⟨hnext, -⟩ := threadYield_top hy hidle
      rw [hlist] at hnext
      have htop : ∀ u, u = k.running ∨ u = t ∨ u ∈ k.readyList →
          k.priority u ≤ k.priority k'.running := fun u hu =>
        le_of_sort_eq_cons hnext (by
          rw [mem_insertOrdered, mem_insertOrdered]
          exact hu)
      have hle := htop t (Or.inr (Or.inl rfl))
      have hne : k'.running ≠ k.running := fun e => absurd (e ▸ hlt.trans_le hle) (lt_irrefl _)
      have hin := mem_of_sort_eq_cons hnext
      rw [mem_insertOrdered, mem_insertOrdered] at hin
      -- the caller was in no list either
      have hrr : k.running ∉ insertOrdered (byKey k.priority) t k.readyList := by
        rw [mem_insertOrdered]
        rintro (e | hm)
        · exact hrt e
        · have hst := h.ready _ hm
          rw [h.running] at hst
          cases hst
      have hnd : (insertOrdered (byKey k.priority) k.running
          (insertOrdered (byKey k.priority) t k.readyList)).Nodup :=
        insertOrdered_nodup.2 ⟨hrr, insertOrdered_nodup.2 ⟨htr, h.ready_nodup⟩⟩
      refine ⟨hin.resolve_left hne, hle, fun u hu => ?_, ?_⟩
      · have hu' := (mem_iff_of_sort_eq_cons hnext u).2 (Or.inr hu)
        rw [mem_insertOrdered, mem_insertOrdered] at hu'
        exact htop u hu'
      · refine List.count_eq_one_of_mem (nodup_tail_of_sort_eq_cons hnd hnext) ?_
        rw [mem_tail_iff_of_sort_eq_cons hnd hnext]
        exact ⟨mem_insertOrdered.2 (Or.inl rfl), hne.symm⟩
    · exact absurd (woken_outranked_iff.2 (Or.inr hlt)) hn

/-- A thread other than the idle thread calls `sema_up`.  The call completes, the value is up by one
before the only point at which another thread can come to run, and a waiter of the highest current
priority is unblocked, whatever order the waiters and the ready list were in. -/
theorem sema_up_wakes_top (h : UpReady k s) (hi : k.intrContext = false)
    (hidle : k.idleThread ≠ some k.running) :
    ∃ k₁ k', semaWake k s = .ok k₁ ∧ k₁.running = k.running ∧
      stealRunningByPriority (k₁.raised s) = .ok k' ∧ semaUp k s = .ok k' ∧
      k'.priority = k.priority ∧
      k'.value = update k.value s ((k.value s + 1) % unsignedSize) ∧
      (k.value s + 1 < unsignedSize → k'.value s = k.value s + 1) ∧
      (k.waiters s = [] → k'.waiters s = [] ∧ ∀ u, k'.status u = .blocked ↔ k.status u = .blocked) ∧
      (k.waiters s ≠ [] → ∃ t, WakesTop k k' s t) := by
  obtain ⟨k', hk'⟩ := (semaUp_ok_iff h.blocked).2 fun hh => by
    rw [hi] at hh
    cases hh
  obtain ⟨k₁, hw, hs⟩ := semaUp_eq_ok.1 hk'
  have hval : k'.value = update k.value s ((k.value s + 1) % unsignedSize) := by
    rw [(semaUp_does hk').1]
    rfl
  have hprio : k'.priority = k.priority := by
    rcases semaUp_footprint hk' with ⟨_, _, _, _, _, _, rfl⟩
    rfl
  have hv : k.value s + 1 < unsignedSize → k'.value s = k.value s + 1 := by
    intro hlt
    rw [hval, update_self, Nat.mod_eq_of_lt hlt]
  rcases semaWake_eq_ok.1 hw with ⟨h0, rfl⟩ | ⟨t, rest, hsort, -, rfl⟩
  · refine ⟨k₁, k', hw, rfl, hs, hk', hprio, hval, hv, fun _ => ⟨?_, fun u => ?_⟩,
      fun hne => absurd h0 hne⟩
    · rcases stealRunningByPriority_footprint hs with ⟨_, _, _, _, rfl⟩
      exact h0
    · exact steal_blocked_iff hs h.ready h.running hidle u
  · have hne : k.waiters s ≠ [] := List.ne_nil_of_mem (mem_of_sort_eq_cons hsort)
    exact ⟨_, k', hw, rfl, hs, hk', hprio, hval, hv, fun h0 => absurd h0 hne,
      fun _ => ⟨t, h.wakesTop hidle hsort hs⟩⟩

theorem sema_up_wakes_top_waiting :
    ∃ k', semaUp waitingSystem.kernel (.sema 0) = .ok k' ∧
      WakesTop waitingSystem.kernel k' (.sema 0) 2 := by
  have hset := settled_of_reach waitingSystem_reach
  have hwaiters : waitingSystem.kernel.waiters (.sema 0) = [2] := by decide +kernel
  obtain ⟨k₁, k', -, -, -, hk', -, -, -, -, htop⟩ :=
    sema_up_wakes_top (hset.upReady (.sema 0)) (by decide +kernel) (by decide +kernel)
  obtain ⟨t, ht⟩ := htop (by rw [hwaiters]; simp)
  have hmem := ht.waiter
  rw [hwaiters, List.mem_singleton] at hmem
  subst hmem
  exact ⟨k', hk', ht⟩

end Thread

end Project2
end Pintos
