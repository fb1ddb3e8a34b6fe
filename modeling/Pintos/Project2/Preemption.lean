import Pintos.Project2.Dispatch

/-!
# Preemption — does a thread of highest priority run?

`sema_up`, `thread_set_priority` and `thread_create` compare the thread they have made ready, or the
head of the ready list, with the running thread, and yield to it.  `timer_interrupt` wakes sleepers
without any comparison: the interrupt yields only when the time slice is used up.
-/

namespace Pintos
namespace Project2

open Lib Function

/-! ## The property and its condition -/

/-- No ready thread has a higher priority than the running thread. -/
def Kernel.TopRuns (k : Kernel) : Prop :=
  ∀ t ∈ k.readyList, k.priority t ≤ k.priority k.running

/-- A step that the code can take without a bare `thread_unblock`. -/
def Act.isScheduled : Act → Bool
  | .preempt _ | .call (.threadUnblock _) => false
  | _ => true

def ScheduleUse (_ : System) (a : Act) : Prop :=
  a.isScheduled = true

instance instDecidableScheduleUse (σ : System) (a : Act) : Decidable (ScheduleUse σ a) :=
  inferInstanceAs (Decidable (_ = _))

/-- The step ends in a switch or a comparison, or it wakes nobody above the running thread. -/
def Preempts (order : Kernel → ThreadPtr → ThreadPtr → Bool) (σ : System) (a : Act) : Prop :=
  σ.Checks a ∨ ∀ t ∈ σ.woken ⟨.calls, order⟩ a,
    σ.kernel.priority t ≤ σ.kernel.priority σ.kernel.running

instance instDecidablePreempts (order : Kernel → ThreadPtr → ThreadPtr → Bool) (σ : System)
    (a : Act) : Decidable (Preempts order σ a) :=
  inferInstanceAs (Decidable (_ ∨ ∀ t ∈ _, _))

/-! ## What a turn does to it -/

section Kernel

variable {k k' : Kernel} {ws : List ThreadPtr} {c : Prop}

theorem popped_topRuns (h : Popped k k') : k'.TopRuns := by
  intro t ht
  rcases h with ⟨-, h0, -⟩ | h
  · rw [h0] at ht
    cases ht
  · exact le_of_sort_eq_cons h ((mem_iff_of_sort_eq_cons h t).2 (Or.inr ht))

theorem topRuns_of_not_outranked (hd : Descending k.priority k.readyList)
    (h : ¬ k.Outranked) : k.TopRuns := by
  intro t ht
  cases hr : k.readyList with
  | nil =>
      rw [hr] at ht
      cases ht
  | cons next rest =>
      rw [hr] at hd ht
      have hnext : k.priority next ≤ k.priority k.running := by
        by_contra hlt
        exact h ⟨next, rest, hr, not_le.1 hlt⟩
      exact (hd.le_head ht).trans hnext

/-- A turn that ends in a switch or a comparison leaves a thread of highest priority running, and
any other does when it wakes nobody above the running thread. -/
theorem Turn.topRuns_iff (h : Turn c k ws k') (hd : Descending k'.priority k'.readyList)
    (htop : k.TopRuns) :
    (c ∨ ∀ t ∈ ws, k.priority t ≤ k.priority k.running) ↔ k'.TopRuns := by
  cases h with
  | pop hc _ _ hp => exact iff_of_true (Or.inl hc) (popped_topRuns hp)
  | yield k₁ hc _ hp _ => exact iff_of_true (Or.inl hc) (popped_topRuns hp)
  | stay hc _ hn => exact iff_of_true (Or.inl hc) (topRuns_of_not_outranked hd hn)
  | join hc hj hrun hws =>
      constructor
      · intro hle t ht
        rw [hj.running, hrun]
        rw [hj.ready, mem_insertAll] at ht
        rcases ht with ht | ht
        · rw [hws t ht]
          rcases hle with hc' | hle
          · rw [hc hc'] at ht
            cases ht
          · exact hle t ht
        · rw [hj.keys t ht]
          exact htop t ht
      · intro htop'
        refine Or.inr fun t ht => ?_
        have hle := htop' t (by rw [hj.ready, mem_insertAll]; exact Or.inl ht)
        rw [hj.running, hrun, hws t ht] at hle
        exact hle

end Kernel

/-! ## The property in runs -/

/-- No thread is in a bare `thread_unblock`. -/
def NoUnblock (σ : System) : Prop :=
  ∀ t, ∀ f ∈ σ.code t, ∀ u, f ≠ .threadUnblock u

structure Scheduled (σ : System) : Prop where
  called : Called σ
  unblock : NoUnblock σ
  sorted : Descending σ.kernel.priority σ.kernel.readyList

section Runs

variable {σ σ' : System} {a : Act} {order : Kernel → ThreadPtr → ThreadPtr → Bool}

theorem NoUnblock.unblockOk (h : NoUnblock σ) (a : Act) : UnblockOk σ a := by
  intro _ t ht
  exact absurd rfl (h _ _ (List.mem_of_head? ht) t)

theorem runFrame_noUnblock {cfg : Config} {k : Kernel} {f : Frame} {o : Outcome}
    (hr : runFrame cfg k f = .ok o) (ho : f.OwnedBy k.running) (hf : ∀ u, f ≠ .threadUnblock u) :
    ∀ g ∈ o.push, ∀ u, g ≠ .threadUnblock u := by
  intro g hg u he
  subst he
  cases hb : f.isBare with
  | false =>
      have hbare := (runFrame_pushed hr ho).bare hb _ hg
      cases hbare
  | true =>
      cases f with
      | threadBlock =>
          rcases bind_eq_ok.1 hr with ⟨k₁, -, hr⟩
          cases hr
          simp [Kernel.andThen] at hg
      | blockReturn =>
          cases hr
          simp [Kernel.done] at hg
      | threadUnblock v => exact hf v rfl
      | _ => cases hb

theorem NoUnblock.step {cfg : Config} (h : NoUnblock σ) (hset : Settled σ) (ha : ScheduleUse σ a)
    (hs : Project2.step cfg a σ = some σ') : NoUnblock σ' := by
  cases a with
  | call op =>
      rcases step_call_iff.1 hs with ⟨-, rfl⟩
      intro t f hf u
      by_cases ht : t = σ.kernel.running
      · subst ht
        have hf' : f ∈ op.frames cfg.grain σ.kernel.running := by simpa using hf
        rintro rfl
        cases op with
        | threadUnblock v => cases ha
        | _ => cases hg : cfg.grain <;>
            simp [hg, Op.frames, acquireFrame, tryFrame, releaseFrame] at hf'
      · exact h t f (by simpa [ht] using hf) u
  | exec =>
      rcases step_exec_iff.1 hs with ⟨f, rest, o, hc, hr, rfl⟩
      intro t g hg u
      rcases code_after hset.live rest hr t with ⟨-, he⟩ | ⟨-, prog, -, -, he, hprog⟩ | ⟨-, he⟩
      · have hg' : g ∈ o.push ++ rest := he ▸ hg
        rcases List.mem_append.1 hg' with hg' | hg'
        · exact runFrame_noUnblock hr (hset.shape.owned _ f (by simp [hc]))
            (h σ.kernel.running f (by simp [hc])) g hg' u
        · exact h σ.kernel.running g (by simp [hc, hg']) u
      · have hg' : g ∈ prog := he ▸ hg
        rcases hprog with rfl | ⟨rfl, -⟩
        · cases hg'
        · rw [List.mem_singleton.1 hg']
          simp
      · exact h t g (he ▸ hg) u
  | tick =>
      rcases step_tick_iff.1 hs with ⟨-, k, -, rfl⟩
      exact h
  | preempt t =>
      rcases step_preempt_iff.1 hs with ⟨-, rfl⟩
      exact h

theorem ScheduleUse.not_preempt (ha : ScheduleUse σ a) (t : ThreadPtr) : a ≠ .preempt t := by
  rintro rfl
  cases ha

theorem Scheduled.turn (h : Scheduled σ) (ha : ScheduleUse σ a)
    (hs : Project2.step ⟨.calls, order⟩ a σ = some σ') :
    Turn (σ.Checks a) σ.kernel (σ.woken ⟨.calls, order⟩ a) σ'.kernel ∧
      Descending σ'.kernel.priority σ'.kernel.readyList := by
  have hturn := h.called.step_turn ha.not_preempt hs
  exact ⟨hturn, hturn.descending h.sorted h.called.settled.running_not_ready
    (h.called.settled.running_not_woken hs)⟩

theorem Scheduled.step (h : Scheduled σ) (ha : ScheduleUse σ a)
    (hs : Project2.step ⟨.calls, order⟩ a σ = some σ') : Scheduled σ' :=
  ⟨h.called.step (h.unblock.unblockOk a) hs, h.unblock.step h.called.settled ha hs,
    (h.turn ha hs).2⟩

theorem boot_scheduled (init : Nat → Fin unsignedSize) (idle : ThreadPtr) :
    Scheduled (boot init idle) := by
  refine ⟨boot_called init idle, fun t f hf u => ?_, List.Pairwise.nil⟩
  simp only [boot] at hf
  split at hf
  · rw [List.mem_singleton.1 hf]
    simp
  · cases hf

/-- No ready thread is above the running thread throughout a run exactly when every step of the
run compares, or wakes nobody above the running thread. -/
theorem top_runs_iff {init : Nat → Fin unsignedSize} {idle : ThreadPtr}
    {tr : List (System × Act)} (h : Exec (step ⟨.calls, order⟩) (boot init idle) tr σ)
    (hu : ∀ e ∈ tr, ScheduleUse e.1 e.2) :
    (∀ e ∈ tr, Preempts order e.1 e.2) ↔
      (∀ e ∈ tr, e.1.kernel.TopRuns) ∧ σ.kernel.TopRuns := by
  refine @Exec.forall_iff _ _ _ _ _ Scheduled (fun σ => σ.kernel.TopRuns) ScheduleUse
    (Preempts order) (boot_scheduled init idle) ?_ (fun _ _ _ hi ha hs => hi.step ha hs) ?_ _ h hu
  · intro t ht
    cases ht
  · intro σ a σ' hi htop ha hs
    obtain ⟨hturn, hd⟩ := hi.turn ha hs
    exact hturn.topRuns_iff hd htop

/-- Thread 2, of priority 40, sleeps until the next timer interrupt. -/
def alarmActs : List Act :=
  bootActs ++ createActs 2 40 ++ [.call (.timerSleep 1), .exec, .exec]

def alarmSystem : System :=
  (runAll (step .calls) alarmActs (boot allZero 1)).get (by decide +kernel)

theorem top_runs_iff_alarm :
    (∀ e ∈ trace (step .calls) alarmActs (boot allZero 1), Preempts compareSema e.1 e.2) ∧
      alarmSystem.kernel.TopRuns := by
  have hrun : Exec (step .calls) (boot allZero 1) (trace (step .calls) alarmActs (boot allZero 1))
      alarmSystem := Exec.of_runAll (Option.some_get _).symm
  have hp : ∀ e ∈ trace (step .calls) alarmActs (boot allZero 1),
      Preempts compareSema e.1 e.2 := by decide +kernel
  exact ⟨hp, ((top_runs_iff hrun (by decide +kernel)).1 hp).2⟩

/-- Its timer interrupt. -/
def wokenSystem : System :=
  (runAll (step .calls) (alarmActs ++ [.tick]) (boot allZero 1)).get (by decide +kernel)

/-- The woken thread has to wait although its priority is the highest. -/
theorem top_not_runs :
    ¬ ∀ σ, Reach (step .calls) ScheduleUse (boot allZero 1) σ → σ.kernel.TopRuns := by
  intro hall
  have hrun : Exec (step .calls) (boot allZero 1)
      (trace (step .calls) (alarmActs ++ [.tick]) (boot allZero 1)) wokenSystem :=
    Exec.of_runAll (Option.some_get _).symm
  have h := hall wokenSystem (hrun.reach (by decide +kernel)) 2 (by decide +kernel)
  exact absurd h (by decide +kernel)

end Runs

end Project2
end Pintos
