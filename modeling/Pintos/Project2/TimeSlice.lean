import Pintos.Project2.Preemption

/-!
# TimeSlice — how long a ready thread can be passed over

`timer_interrupt` makes sleepers ready without comparing them with the running thread, so that a
thread of higher priority may be left waiting.  `thread_ticks` counts the timer interrupts since
the last switch, and every switch takes the best of the ready threads; therefore this lasts less
than a time slice, at either granularity of the locks and whatever the threads do.
-/

namespace Pintos
namespace Project2

open Lib Function

/-! ## A step and the time slice -/

/-- A thread has begun its time slice, and nobody ready is above it. -/
structure Kernel.SliceBegins (k : Kernel) : Prop where
  ticks : k.threadTicks = 0
  top : k.TopRuns

/-- The time slice goes on, or another one begins. -/
def SliceGoesOn (k k' : Kernel) : Prop :=
  k'.threadTicks = k.threadTicks ∨ k'.SliceBegins

section Frames

variable {cfg : Config} {k k₁ k' : Kernel} {f : Frame} {o : Outcome} {s : SemaPtr}

theorem SliceGoesOn.congr (h : SliceGoesOn k₁ k') (hk : k₁.threadTicks = k.threadTicks) :
    SliceGoesOn k k' :=
  h.imp_left fun h => h.trans hk

/-- What `lock_acquire` and `lock_release` do to their own members leaves the slice alone. -/
theorem DonationOnly.threadTicks (h : DonationOnly k k') : k'.threadTicks = k.threadTicks := by
  rcases h with ⟨_, _, _, _, rfl⟩
  rfl

theorem dispatch_begins {t : ThreadPtr} {rest : List ThreadPtr} (h : Next k t rest) :
    (k.dispatch t rest).SliceBegins :=
  ⟨rfl, popped_topRuns (popped_of_next h)⟩

theorem threadBlock_begins (h : threadBlock k = .ok k') : k'.SliceBegins := by
  rcases threadBlock_eq_ok.1 h with ⟨-, t, rest, hnext, rfl⟩
  exact dispatch_begins hnext

theorem threadYield_begins (h : threadYield k = .ok k') : k'.SliceBegins := by
  rcases threadYield_eq_ok.1 h with ⟨-, t, rest, hnext, rfl⟩
  exact dispatch_begins hnext

theorem threadExit_begins (h : threadExit k = .ok k') : k'.SliceBegins := by
  rcases threadExit_eq_ok.1 h with ⟨-, t, rest, hnext, rfl⟩
  exact dispatch_begins hnext

theorem steal_slice (h : stealRunningByPriority k = .ok k') : SliceGoesOn k k' := by
  rcases stealRunningByPriority_eq_ok.1 h with ⟨-, hy⟩ | ⟨-, rfl⟩
  · exact Or.inr (threadYield_begins hy)
  · exact Or.inl rfl

theorem semaUp_slice (h : semaUp k s = .ok k') : SliceGoesOn k k' := by
  rcases semaUp_eq_ok.1 h with ⟨k₁, hw, hs⟩
  refine (steal_slice hs).congr ?_
  rcases semaWake_eq_ok.1 hw with ⟨-, rfl⟩ | ⟨t, rest, -, -, rfl⟩ <;> rfl

theorem condSignal_slice {order : Kernel → ThreadPtr → ThreadPtr → Bool} {c : CondPtr}
    {l : LockPtr} (h : condSignal order k c l = .ok k') : SliceGoesOn k k' := by
  rcases condSignal_eq_ok.1 h with ⟨-, -, ⟨-, rfl⟩ | ⟨w, rest, -, hu⟩⟩
  · exact Or.inl rfl
  · exact (semaUp_slice hu).congr rfl

/-- `sema_down` blocks, or it takes the semaphore and its caller goes on. -/
theorem semaDownTurn_slice {got : Bool} (h : semaDownTurn k s = .ok (k', got)) :
    (got = false ∧ k'.SliceBegins) ∨ (got = true ∧ k'.threadTicks = k.threadTicks) := by
  rcases semaDownTurn_eq_ok.1 h with ⟨-, rfl, hb⟩ | ⟨-, rfl, rfl⟩
  · exact Or.inl ⟨rfl, threadBlock_begins hb⟩
  · exact Or.inr ⟨rfl, rfl⟩

theorem downOutcome_slice {got : Bool} (after : AfterDown) (h : semaDownTurn k s = .ok (k', got)) :
    SliceGoesOn k (downOutcome s after k' got).kernel := by
  rcases semaDownTurn_slice h with ⟨rfl, hbegins⟩ | ⟨rfl, hticks⟩
  · exact Or.inr hbegins
  · exact Or.inl ((downOutcome_footprint s after true).threadTicks.trans hticks)

theorem semaTryDown_threadTicks (k : Kernel) (s : SemaPtr) :
    (semaTryDown k s).1.threadTicks = k.threadTicks := by
  unfold semaTryDown
  split <;> rfl

theorem runFrame_slice (h : runFrame cfg k f = .ok o) : SliceGoesOn k o.kernel := by
  cases f with
  | down s after =>
      rcases bind_eq_ok.1 h with ⟨⟨k₁, got⟩, hd, h⟩
      cases h
      exact downOutcome_slice after (semaDown_eq_ok.1 hd).2
  | downLoop s after =>
      rcases bind_eq_ok.1 h with ⟨⟨k₁, got⟩, hd, h⟩
      cases h
      exact downOutcome_slice after hd
  | semaTryDown s =>
      cases h
      exact Or.inl (semaTryDown_threadTicks k s)
  | tryDown l =>
      cases h
      exact Or.inl (semaTryDown_threadTicks k (.ofLock l))
  | semaUp s | idleUp =>
      rcases bind_eq_ok.1 h with ⟨k₁, hd, h⟩
      cases h
      exact semaUp_slice hd
  | lockAcquire l =>
      rcases bind_eq_ok.1 h with ⟨⟨k₁, got⟩, hd, h⟩
      rcases lockAcquire_eq_ok.1 hd with ⟨-, -, k₂, k₃, hdon, hdown, rfl⟩
      rcases lockDonate_footprint hdon with ⟨p, w, d, rfl⟩
      rcases semaDownTurn_slice (semaDown_eq_ok.1 hdown).2 with ⟨rfl, hbegins⟩ | ⟨rfl, hticks⟩
      · cases h
        exact Or.inr hbegins
      · cases h
        exact Or.inl hticks
  | lockTryAcquire l =>
      rcases bind_eq_ok.1 h with ⟨⟨k₁, got⟩, hd, h⟩
      cases h
      exact Or.inl ((tryDown_footprint hd).2.threadTicks.trans (semaTryDown_threadTicks k _))
  | lockRelease l =>
      rcases bind_eq_ok.1 h with ⟨k₁, hd, h⟩
      cases h
      rcases released_footprint k l with ⟨p, w, d, hrel⟩
      have hu := semaUp_slice (lockRelease_eq_ok.1 hd).2
      rw [hrel] at hu
      exact hu.congr rfl
  | acquireEntry l =>
      simp only [runFrame, assert_bind_eq_ok] at h
      cases h.2.2
      exact Or.inl rfl
  | tryEntry l | releaseEntry l =>
      simp only [runFrame, assert_bind_eq_ok] at h
      cases h.2
      exact Or.inl rfl
  | stmt st =>
      rcases bind_eq_ok.1 h with ⟨⟨k₁, next⟩, hd, h⟩
      cases h
      exact Or.inl (LockStmt.run_footprint hd).threadTicks
  | condEnqueue c l =>
      rcases bind_eq_ok.1 h with ⟨k₁, hd, h⟩
      cases h
      rcases condEnqueue_eq_ok.1 hd with ⟨-, -, rfl⟩
      exact Or.inl rfl
  | condSignal c l =>
      rcases bind_eq_ok.1 h with ⟨k₁, hd, h⟩
      cases h
      exact condSignal_slice hd
  | condBroadcast c l =>
      simp only [runFrame] at h
      split at h
      · cases h
        exact Or.inl rfl
      · rcases bind_eq_ok.1 h with ⟨k₁, hd, h⟩
        cases h
        exact condSignal_slice hd
  | condReturn c l | blockReturn | sleepReturn | timerSleep n | setIdle | takeTid t p =>
      cases h
      exact Or.inl rfl
  | threadCreate t p | threadStart t =>
      rcases bind_eq_ok.1 h with ⟨k₁, hd, h⟩
      cases h
      rcases threadCreate_eq_ok.1 hd with ⟨-, -, rfl⟩
      exact Or.inl rfl
  | startNew t p tid =>
      rcases bind_eq_ok.1 h with ⟨k₁, hd, h⟩
      cases h
      rcases (threadStartNew_eq_ok.1 hd).2 with ⟨-, hy⟩ | ⟨-, rfl⟩
      · exact Or.inr (threadYield_begins hy)
      · exact Or.inl rfl
  | threadYield =>
      rcases bind_eq_ok.1 h with ⟨k₁, hd, h⟩
      cases h
      exact Or.inr (threadYield_begins hd)
  | threadExit =>
      rcases bind_eq_ok.1 h with ⟨k₁, hd, h⟩
      cases h
      exact Or.inr (threadExit_begins hd)
  | threadSetPriority p =>
      rcases bind_eq_ok.1 h with ⟨k₁, hd, h⟩
      cases h
      rcases resetPriority_footprint
        { k with
          priority := update k.priority k.running p
          initPriority := update k.initPriority k.running p } with ⟨p', d, he⟩
      have hs := steal_slice hd
      rw [he] at hs
      exact hs.congr rfl
  | threadUnblock t =>
      rcases bind_eq_ok.1 h with ⟨k₁, hd, h⟩
      cases h
      rcases threadUnblock_eq_ok.1 hd with ⟨-, rfl⟩
      exact Or.inl rfl
  | threadBlock | idleLoop =>
      rcases bind_eq_ok.1 h with ⟨k₁, hd, h⟩
      cases h
      exact Or.inr (threadBlock_begins hd)
  | sleepUntil d =>
      rcases bind_eq_ok.1 h with ⟨k₁, hd, h⟩
      cases h
      exact Or.inr (threadBlock_begins hd)

/-- The timer interrupt switches when it has used up the slice. -/
theorem timerInterrupt_slice (h : timerInterrupt k = .ok k') :
    k'.SliceBegins ∨ (k'.threadTicks = k.threadTicks + 1 ∧ k.threadTicks + 1 < TIME_SLICE) := by
  rcases timerInterrupt_eq_ok.1 h with ⟨k₁, ha, hy⟩
  rcases hy with ⟨-, hy⟩ | ⟨hslice, rfl⟩
  · exact Or.inl (threadYield_begins hy)
  · rcases awakeLoop_footprint ha with ⟨_, _, _, rfl⟩
    exact Or.inr ⟨rfl, hslice⟩

end Frames

/-! ## Runs -/

def Act.isPreempt : Act → Bool
  | .preempt _ => true
  | _ => false

/-- A step that the code can take. -/
def NoPreempt (_ : System) (a : Act) : Prop :=
  a.isPreempt = false

instance instDecidableNoPreempt (σ : System) (a : Act) : Decidable (NoPreempt σ a) :=
  inferInstanceAs (Decidable (_ = _))

/-- The number of timer interrupts in a run. -/
def tickCount (tr : List (System × Act)) : Nat :=
  tr.countP fun e => e.2 = .tick

section Runs

variable {cfg : Config} {σ σ' s₀ : System} {a : Act} {tr : List (System × Act)}

theorem tickCount_snoc (tr : List (System × Act)) (σ : System) (a : Act) :
    tickCount (tr ++ [(σ, a)]) = tickCount tr + if a = .tick then 1 else 0 := by
  simp [tickCount, List.countP_append, List.countP_singleton]

/-- A step that does not begin a time slice counts its timer interrupt, if it is one. -/
theorem step_slice (ha : NoPreempt σ a) (hs : step cfg a σ = some σ') :
    σ'.kernel.SliceBegins ∨
      (σ'.kernel.threadTicks = σ.kernel.threadTicks + (if a = .tick then 1 else 0) ∧
        (a = .tick → σ'.kernel.threadTicks < TIME_SLICE)) := by
  cases a with
  | call o =>
      rcases step_call_iff.1 hs with ⟨-, rfl⟩
      exact Or.inr ⟨rfl, fun hk => Act.noConfusion hk⟩
  | exec =>
      rcases step_exec_iff.1 hs with ⟨f, rest, o, -, hr, rfl⟩
      rcases runFrame_slice hr with hticks | hbegins
      · exact Or.inr ⟨hticks, fun hk => Act.noConfusion hk⟩
      · exact Or.inl hbegins
  | tick =>
      rcases step_tick_iff.1 hs with ⟨-, k, ht, rfl⟩
      rcases timerInterrupt_slice ht with hbegins | ⟨hticks, hlt⟩
      · exact Or.inl hbegins
      · exact Or.inr ⟨hticks, fun _ => hticks.trans_lt hlt⟩
  | preempt t => cases ha

theorem threadTicks_step (ha : NoPreempt σ a) (h : σ.kernel.threadTicks < TIME_SLICE)
    (hs : step cfg a σ = some σ') : σ'.kernel.threadTicks < TIME_SLICE := by
  rcases step_slice ha hs with hbegins | ⟨hticks, hslice⟩
  · rw [hbegins.ticks]
    decide
  · by_cases hk : a = .tick
    · exact hslice hk
    · rw [hticks, if_neg hk]
      exact h

theorem threadTicks_lt {init : Nat → Fin unsignedSize} {idle : ThreadPtr}
    (h : Reach (step cfg) NoPreempt (boot init idle) σ) : σ.kernel.threadTicks < TIME_SLICE := by
  have hboot : (boot init idle).kernel.threadTicks < TIME_SLICE := by
    show 0 < TIME_SLICE
    decide
  exact @Reach.invariant _ _ _ _ _ _ (fun σ => σ.kernel.threadTicks < TIME_SLICE) hboot
    (fun _ _ _ hlt ha hs => threadTicks_step ha hlt hs) h

/-- Strict priority scheduling is broken for less than a time slice: in every run, while a ready
thread is above the running one, fewer than `TIME_SLICE` timer interrupts are counted. -/
theorem violation_within_time_slice {init : Nat → Fin unsignedSize} {idle : ThreadPtr}
    (h₀ : Reach (step cfg) NoPreempt (boot init idle) s₀) (hrun : Exec (step cfg) s₀ tr σ)
    (ha : ∀ e ∈ tr, NoPreempt e.1 e.2) (hstates : ∀ e ∈ tr, ¬ e.1.kernel.TopRuns)
    (hlast : ¬ σ.kernel.TopRuns) : s₀.kernel.threadTicks + tickCount tr < TIME_SLICE := by
  -- until a switch repairs the order, `thread_ticks` counts every interrupt
  have hcount : σ.kernel.threadTicks < TIME_SLICE ∧
      (¬ σ.kernel.TopRuns → s₀.kernel.threadTicks + tickCount tr = σ.kernel.threadTicks) := by
    refine hrun.history (P := fun σ a => NoPreempt σ a ∧ ¬ σ.kernel.TopRuns)
      (I := fun tr σ => σ.kernel.threadTicks < TIME_SLICE ∧
        (¬ σ.kernel.TopRuns → s₀.kernel.threadTicks + tickCount tr = σ.kernel.threadTicks))
      ⟨threadTicks_lt h₀, fun _ => rfl⟩ ?_ fun e he => ⟨ha e he, hstates e he⟩
    rintro tr σ a σ' ⟨hlt, heq⟩ ⟨hn, hbad⟩ hs
    refine ⟨threadTicks_step hn hlt hs, fun hbad' => ?_⟩
    rcases step_slice hn hs with hbegins | ⟨hticks, -⟩
    · exact absurd hbegins.top hbad'
    · rw [tickCount_snoc, hticks, ← heq hbad, Nat.add_assoc]
  rw [hcount.2 hlast]
  exact hcount.1

end Runs

/-- Thread 2, of priority 40, has been woken by the first timer interrupt; two more follow. -/
def passedOverSystem : System :=
  (runAll (step .calls) [.tick, .tick] wokenSystem).get (by decide +kernel)

theorem violation_within_time_slice_alarm :
    wokenSystem.kernel.threadTicks + tickCount (trace (step .calls) [.tick, .tick] wokenSystem) <
      TIME_SLICE := by
  have h₀ : Reach (step .calls) NoPreempt (boot allZero 1) wokenSystem :=
    Exec.reach (Exec.of_runAll (Option.some_get _).symm) (by decide +kernel)
  have hrun : Exec (step .calls) wokenSystem (trace (step .calls) [.tick, .tick] wokenSystem)
      passedOverSystem := Exec.of_runAll (Option.some_get _).symm
  have hbad : ∀ σ : System, 2 ∈ σ.kernel.readyList →
      σ.kernel.priority σ.kernel.running < σ.kernel.priority 2 → ¬ σ.kernel.TopRuns :=
    fun σ hmem hlt htop => absurd (htop 2 hmem) (not_le.2 hlt)
  refine violation_within_time_slice h₀ hrun (by decide +kernel) (fun e he => ?_)
    (hbad _ (by decide +kernel) (by decide +kernel))
  have hstates : ∀ e ∈ trace (step .calls) [.tick, .tick] wokenSystem,
      2 ∈ e.1.kernel.readyList ∧
        e.1.kernel.priority e.1.kernel.running < e.1.kernel.priority 2 := by decide +kernel
  exact hbad e.1 (hstates e he).1 (hstates e he).2

end Project2
end Pintos
