import Pintos.Project1.Places

/-!
# Progress — that timer interrupts keep coming

A thread that runs with interrupts off has them on again after its next steps, and a thread in its
own code can always block: until the idle thread has made itself known it is among the ready
threads.  `Frame` collects what every step leaves alone.
-/

namespace Pintos
namespace Project1

open Lib Function
open Project2 (ThreadPtr ThreadStatus Fault bind_eq_ok initialThread TIME_SLICE)

/-! ## What a step leaves alone -/

/-- The ready threads stay ready, but for one that may run now. -/
def KeepsReady (k k' : Kernel) : Prop := ∀ t ∈ k.readyList, t ∈ k'.readyList ∨ t = k'.running

section Kernel

variable {k k' : Kernel} {t : ThreadPtr} {rest : List ThreadPtr}

/-- `ticks` and `idle_thread` are as before. -/
def SameClock (k k' : Kernel) : Prop := k'.ticks = k.ticks ∧ k'.idleThread = k.idleThread

theorem keeps_refl : KeepsReady k k ∧ SameClock k k := ⟨fun _ ht => Or.inl ht, rfl, rfl⟩

theorem dispatch_keeps (hn : Next k t rest) :
    KeepsReady k (k.dispatch t rest) ∧ SameClock k (k.dispatch t rest) := by
  refine ⟨fun u hu => ?_, rfl, rfl⟩
  rcases hn with ⟨hnil, -, -⟩ | hcons
  · rw [hnil] at hu
    cases hu
  · rw [hcons] at hu
    exact (List.mem_cons.1 hu).symm

theorem threadBlock_keeps (h : threadBlock k = .ok k') : KeepsReady k k' ∧ SameClock k k' := by
  rcases threadBlock_eq_ok.1 h with ⟨-, t, rest, hn, rfl⟩
  exact dispatch_keeps hn

theorem threadYield_keeps (h : threadYield k = .ok k') : KeepsReady k k' ∧ SameClock k k' := by
  rcases threadYield_eq_ok.1 h with ⟨-, t, rest, hn, rfl⟩
  refine ⟨fun u hu => (dispatch_keeps hn).1 u ?_, rfl, rfl⟩
  by_cases hi : k.idleThread = some k.running
  · simpa [Kernel.yielding, hi] using hu
  · simp [Kernel.yielding, hi, hu]

theorem threadExit_keeps (h : threadExit k = .ok k') : KeepsReady k k' ∧ SameClock k k' := by
  rcases threadExit_eq_ok.1 h with ⟨-, t, rest, hn, rfl⟩
  exact dispatch_keeps hn

theorem threadUnblock_keeps (h : threadUnblock k t = .ok k') : KeepsReady k k' ∧ SameClock k k' := by
  rcases threadUnblock_eq_ok.1 h with ⟨-, rfl⟩
  exact ⟨fun u hu => Or.inl (List.mem_append_left _ hu), rfl, rfl⟩

end Kernel

/-- What every step leaves alone: the program of a thread that lives and does not run, what is
pending for it, the tick count except in an interrupt, and who is ready. -/
structure Frame (σ : System) (a : Act) (σ' : System) : Prop where
  ready : KeepsReady σ.kernel σ'.kernel
  pc : ∀ t ≠ σ.kernel.running, σ.kernel.status t ≠ .dying → σ'.pc t = σ.pc t
  pending : ∀ t ≠ σ.kernel.running, σ'.pending t = σ.pending t
  interrupted : σ'.pending σ.kernel.running = some .interrupted →
    σ'.kernel.running = σ.kernel.running
  ticks : σ'.kernel.ticks = if a = .tick then σ.kernel.now else σ.kernel.ticks
  idle : σ.kernel.idleThread ≠ none → σ'.kernel.idleThread ≠ none

section Steps

variable {k k' : Kernel} {σ σ' : System} {a : Act} {t : ThreadPtr}

/-- A step of a kernel function, with nothing pending for the running thread. -/
theorem Frame.of_call (ha : a ≠ .tick)
    (hkeeps : KeepsReady σ.kernel σ'.kernel ∧ SameClock σ.kernel σ'.kernel)
    (hpc : ∀ t ≠ σ.kernel.running, σ.kernel.status t ≠ .dying → σ'.pc t = σ.pc t)
    (hpend : ∀ t ≠ σ.kernel.running, σ'.pending t = σ.pending t)
    (hint : σ'.pending σ.kernel.running ≠ some .interrupted) : Frame σ a σ' := by
  obtain ⟨hready, hticks, hidle⟩ := hkeeps
  refine ⟨hready, hpc, hpend, fun h => absurd h hint, ?_, ?_⟩
  · rw [if_neg ha, hticks]
  · rw [hidle]
    exact id

theorem goto_pc_ne {p : Pc} (ht : t ≠ σ.kernel.running) : (σ.goto p).pc t = σ.pc t :=
  update_of_ne ht _ _

theorem Settled.exec_frame (h : Settled σ) (hpend : σ.pending σ.kernel.running = none)
    (hs : σ.exec = .ok σ') : Frame σ .exec σ' := by
  have hint : σ.pending σ.kernel.running ≠ some .interrupted := by simp [hpend]
  unfold System.exec at hs
  split at hs
  · cases hs
    exact .of_call (by simp) keeps_refl (fun _ _ _ => rfl) (fun _ _ => rfl) hint
  · rename_i i hpc
    rcases bind_eq_ok.1 hs with ⟨k, hc, hs⟩
    cases hs
    rcases threadCreate_eq_ok.1 hc with ⟨⟨hi, -⟩, -, rfl⟩
    refine .of_call (by simp) keeps_refl (fun t ht halive => ?_) (fun _ _ => rfl) hint
    -- the page of the new thread is no living thread's
    have hti : t ≠ i := by
      rintro rfl
      exact halive (h.dying hi)
    simp [ht, hti]
  · rename_i t hpc
    rcases bind_eq_ok.1 hs with ⟨k, hu, hs⟩
    cases hs
    exact .of_call (by simp) (threadUnblock_keeps hu)
      (fun _ ht _ => goto_pc_ne ht) (fun _ _ => rfl) hint
  · rename_i d hpc
    rcases bind_eq_ok.1 hs with ⟨k, hsl, hs⟩
    cases hs
    have hkeeps : KeepsReady (threadToSleep σ.kernel d) k ∧ SameClock (threadToSleep σ.kernel d) k :=
      threadBlock_keeps hsl
    exact .of_call (by simp) hkeeps (fun _ ht _ => goto_pc_ne ht) (fun _ _ => rfl) hint
  · cases hs
    exact .of_call (by simp) keeps_refl (fun _ ht _ => goto_pc_ne ht) (fun _ _ => rfl) hint
  · cases hs
    exact ⟨keeps_refl.1, fun _ ht _ => goto_pc_ne ht, fun _ _ => rfl, fun h => absurd h hint, rfl,
      fun _ => Option.some_ne_none _⟩
  · cases hs
    exact .of_call (by simp) keeps_refl (fun _ ht _ => goto_pc_ne ht) (fun _ _ => rfl) hint
  · rcases bind_eq_ok.1 hs with ⟨k, hb, hs⟩
    cases hs
    exact .of_call (by simp) (threadBlock_keeps hb) (fun _ _ _ => rfl) (fun _ _ => rfl) hint

theorem Settled.step_frame (h : Settled σ) (hs : Project1.step a σ = some σ') : Frame σ a σ' := by
  rcases step_iff.1 hs with ⟨r, hpend, rfl, hr⟩ | ⟨hpend, -, hr⟩
  · have hother : ∀ t ≠ σ.kernel.running,
        update σ.pending σ.kernel.running none t = σ.pending t := fun t ht => update_of_ne ht _ _
    cases r with
    | blocked =>
        cases hr
        exact .of_call (by simp) keeps_refl (fun _ _ _ => rfl) hother (by simp)
    | interrupted =>
        rcases bind_eq_ok.1 hr with ⟨k, hy, hr⟩
        cases hr
        exact .of_call (by simp) (threadYield_keeps hy) (fun _ _ _ => rfl) hother (by simp)
  have hint : σ.pending σ.kernel.running ≠ some .interrupted := by simp [hpend]
  cases a with
  | timerSleep n =>
      cases hr
      exact .of_call (by simp) keeps_refl (fun _ ht _ => goto_pc_ne ht) (fun _ _ => rfl) hint
  | threadYield =>
      rcases bind_eq_ok.1 hr with ⟨k, hy, hr⟩
      cases hr
      exact .of_call (by simp) (threadYield_keeps hy) (fun _ _ _ => rfl) (fun _ _ => rfl) hint
  | threadBlock =>
      rcases bind_eq_ok.1 hr with ⟨k, hb, hr⟩
      cases hr
      exact .of_call (by simp) (threadBlock_keeps hb) (fun _ _ _ => rfl)
        (fun t ht => update_of_ne ht _ _) (by simp)
  | threadUnblock t =>
      rcases bind_eq_ok.1 hr with ⟨k, hu, hr⟩
      cases hr
      exact .of_call (by simp) (threadUnblock_keeps hu) (fun _ _ _ => rfl) (fun _ _ => rfl) hint
  | threadCreate t p =>
      rcases bind_eq_ok.1 hr with ⟨k, hc, hr⟩
      cases hr
      rcases threadCreate_eq_ok.1 hc with ⟨-, -, rfl⟩
      exact .of_call (by simp) keeps_refl (fun _ ht _ => goto_pc_ne ht) (fun _ _ => rfl) hint
  | threadExit =>
      rcases bind_eq_ok.1 hr with ⟨k, hx, hr⟩
      cases hr
      exact .of_call (by simp) (threadExit_keeps hx) (fun _ _ _ => rfl) (fun _ _ => rfl) hint
  | exec => exact h.exec_frame hpend hr
  | tick =>
      rw [h.run_tick] at hr
      cases hr
      refine ⟨fun t ht => Or.inl (List.mem_append_left _ ht), fun _ _ _ => rfl, fun t ht => ?_,
        fun _ => rfl, rfl, id⟩
      show (if _ then _ else _ : ThreadPtr → Option Return) t = _
      split
      · exact update_of_ne ht _ _
      · rfl

end Steps

/-! ## Starting up -/

/-- How far `thread_start` is when `idle_thread` has not been set. -/
inductive Starting (σ : System) : Prop
  | before (i : ThreadPtr) : σ.pc σ.kernel.running = .threadStart i →
      σ.kernel.allList = [σ.kernel.running] → Starting σ
  | creating (i : ThreadPtr) : σ.pc σ.kernel.running = .creating i → σ.pc i = .setIdle →
      σ.kernel.allList = [σ.kernel.running, i] → Starting σ
  | runs : σ.pc σ.kernel.running = .setIdle → Starting σ
  | ready (i : ThreadPtr) : i ∈ σ.kernel.readyList → σ.pc i = .setIdle → Starting σ

/-- Only the running thread can be about to yield to an interrupt, and the idle thread is there or
comes up. -/
structure Live (σ : System) : Prop where
  interrupted : ∀ t, σ.pending t = some .interrupted → t = σ.kernel.running
  idle : σ.kernel.idleThread = none → Starting σ

section Starting

variable {k k' : Kernel} {σ σ' : System} {a : Act} {i t : ThreadPtr}

/-- While `thread_start` is under way nobody is ready. -/
theorem Settled.nobody_ready (h : Settled σ)
    (hall : ∀ t ∈ σ.kernel.allList, t = σ.kernel.running ∨ σ.kernel.status t = .blocked) :
    σ.kernel.readyList = [] := by
  refine List.eq_nil_iff_forall_not_mem.2 fun t ht => ?_
  have hready := h.places.ready t ht
  have hmem : t ∈ σ.kernel.allList := (h.places.alive t).2 (by simp [hready])
  rcases hall t hmem with rfl | hblocked
  · rw [h.running] at hready
    cases hready
  · rw [hblocked] at hready
    cases hready

/-- Only in its own code and in `thread_create` has a thread something to do behind
`thread_block`. -/
theorem Settled.not_returning {p : Pc} (h : Settled σ) (hpend : σ.pending t = some .blocked)
    (hpc : σ.pc t = p) (hown : p ≠ .own) (hcreating : ∀ u, p ≠ .creating u) : False := by
  rcases h.places.returns t hpend with hret | ⟨u, hret⟩
  · exact hown (hpc.symm.trans hret)
  · exact hcreating u (hpc.symm.trans hret)

/-- The only ready thread yields to itself. -/
theorem threadYield_alone (hready : k.readyList = []) (hidle : k.idleThread = none)
    (h : threadYield k = .ok k') : k'.running = k.running ∧ k'.allList = k.allList := by
  rcases threadYield_eq_ok.1 h with ⟨-, t, rest, hn, rfl⟩
  have hlist : k.yielding.readyList = [k.running] := by simp [Kernel.yielding, hready, hidle]
  rcases hn with ⟨hnil, -, -⟩ | hcons
  · rw [hlist] at hnil
    cases hnil
  · rw [hlist] at hcons
    cases hcons
    exact ⟨rfl, rfl⟩

theorem threadBlock_alone (hready : k.readyList = []) (hidle : k.idleThread = none) :
    threadBlock k ≠ .ok k' := by
  intro h
  rcases threadBlock_eq_ok.1 h with ⟨-, t, rest, ⟨-, -, hi⟩ | hcons, -⟩
  · have hi' : k.idleThread = some t := hi
    rw [hidle] at hi'
    cases hi'
  · have hcons' : k.readyList = t :: rest := hcons
    rw [hready] at hcons'
    cases hcons'

theorem Starting.step_before (hset : Settled σ) (hidle : σ.kernel.idleThread = none)
    (hpc : σ.pc σ.kernel.running = .threadStart i) (hall : σ.kernel.allList = [σ.kernel.running])
    (hs : Project1.step a σ = some σ') : Starting σ' := by
  have hready : σ.kernel.readyList = [] := by
    refine hset.nobody_ready fun t ht => Or.inl ?_
    rw [hall] at ht
    exact List.mem_singleton.1 ht
  rcases step_iff.1 hs with ⟨r, hpend, rfl, hr⟩ | ⟨hpend, hen, hr⟩
  · cases r with
    | blocked =>
        exact (hset.not_returning hpend hpc (by simp) (by simp)).elim
    | interrupted =>
        rcases bind_eq_ok.1 hr with ⟨k, hy, hr⟩
        cases hr
        obtain ⟨hrun, hlist⟩ := threadYield_alone hready hidle hy
        refine .before i ?_ ?_
        · rw [hrun]
          exact hpc
        · rw [hrun, hlist, hall]
  rw [hpc] at hen
  cases a with
  | exec =>
      simp only [System.run, System.exec, hpc] at hr
      rcases bind_eq_ok.1 hr with ⟨k, hc, hr⟩
      cases hr
      rcases threadCreate_eq_ok.1 hc with ⟨⟨hi, -⟩, -, rfl⟩
      have hne : i ≠ σ.kernel.running := by
        rintro rfl
        rw [hall] at hi
        exact hi List.mem_cons_self
      refine .creating i (update_self _ _ _) ?_ ?_
      · show update (update σ.pc i .setIdle) σ.kernel.running (.creating i) i = .setIdle
        rw [update_of_ne hne, update_self]
      · show σ.kernel.allList ++ [i] = _
        rw [hall]
        rfl
  | tick =>
      rw [hset.run_tick] at hr
      cases hr
      exact .before i hpc hall
  | timerSleep n | threadYield | threadBlock | threadUnblock t | threadCreate t p | threadExit =>
      cases hen

theorem Starting.step_creating (hset : Settled σ) (hu : UnblockOk σ a)
    (hidle : σ.kernel.idleThread = none) (hpc : σ.pc σ.kernel.running = .creating i)
    (hi : σ.pc i = .setIdle) (hall : σ.kernel.allList = [σ.kernel.running, i])
    (hs : Project1.step a σ = some σ') : Starting σ' := by
  obtain ⟨hblocked, -, hnone⟩ := hset.places.embryo _ i hpc
  have hready : σ.kernel.readyList = [] := by
    refine hset.nobody_ready fun t ht => ?_
    rw [hall] at ht
    rcases List.mem_pair.1 ht with rfl | rfl
    · exact Or.inl rfl
    · exact Or.inr hblocked
  have hne : i ≠ σ.kernel.running := by
    rintro rfl
    rw [hset.running] at hblocked
    cases hblocked
  rcases step_iff.1 hs with ⟨r, hpend, rfl, hr⟩ | ⟨hpend, hen, hr⟩
  · cases r with
    | blocked =>
        cases hr
        exact .creating i hpc hi hall
    | interrupted =>
        rcases bind_eq_ok.1 hr with ⟨k, hy, hr⟩
        cases hr
        obtain ⟨hrun, hlist⟩ := threadYield_alone hready hidle hy
        refine .creating i ?_ hi ?_
        · rw [hrun]
          exact hpc
        · rw [hrun, hlist, hall]
  rw [hpc] at hen
  cases a with
  | exec =>
      -- `thread_create` unblocks the idle thread
      simp only [System.run, System.exec, hpc] at hr
      rcases bind_eq_ok.1 hr with ⟨k, hub, hr⟩
      cases hr
      rcases threadUnblock_eq_ok.1 hub with ⟨-, rfl⟩
      refine .ready i (List.mem_append_right _ List.mem_cons_self) ?_
      exact (goto_pc_ne hne).trans hi
  | tick =>
      rw [hset.run_tick] at hr
      cases hr
      exact .creating i hpc hi hall
  | threadBlock =>
      rcases bind_eq_ok.1 hr with ⟨k, hb, -⟩
      exact absurd hb (threadBlock_alone hready hidle)
  | threadUnblock t =>
      -- the two threads that live are not blocked by a synchronization primitive
      rcases bind_eq_ok.1 hr with ⟨k, hub, -⟩
      rcases threadUnblock_eq_ok.1 hub with ⟨hb, -⟩
      have hpend' := hu t rfl
      have hmem : t ∈ σ.kernel.allList := (hset.places.alive t).2 (by simp [hb])
      rw [hall] at hmem
      rcases List.mem_pair.1 hmem with rfl | rfl
      · rw [hset.running] at hb
        cases hb
      · rw [hnone] at hpend'
        cases hpend'
  | timerSleep n | threadYield | threadCreate t p | threadExit =>
      cases hen

/-- The idle thread is ready, or runs now. -/
theorem Starting.of_ready (hready : i ∈ k.readyList) (hkeeps : KeepsReady k σ'.kernel)
    (hi : σ'.pc i = .setIdle) : Starting σ' := by
  rcases hkeeps i hready with hmem | rfl
  · exact .ready i hmem hi
  · exact .runs hi

theorem Starting.step_runs (hset : Settled σ) (hidle : σ.kernel.idleThread = none)
    (hidle' : σ'.kernel.idleThread = none) (hpc : σ.pc σ.kernel.running = .setIdle)
    (hs : Project1.step a σ = some σ') : Starting σ' := by
  rcases step_iff.1 hs with ⟨r, hpend, rfl, hr⟩ | ⟨hpend, hen, hr⟩
  · cases r with
    | blocked =>
        exact (hset.not_returning hpend hpc (by simp) (by simp)).elim
    | interrupted =>
        rcases bind_eq_ok.1 hr with ⟨k, hy, hr⟩
        cases hr
        rcases threadYield_eq_ok.1 hy with ⟨-, t, rest, hn, rfl⟩
        have hmem : σ.kernel.running ∈ σ.kernel.yielding.readyList := by
          simp [Kernel.yielding, hidle]
        exact .of_ready hmem (dispatch_keeps hn).1 hpc
  rw [hpc] at hen
  cases a with
  | exec =>
      simp only [System.run, System.exec, hpc] at hr
      cases hr
      cases hidle'
  | tick =>
      rw [hset.run_tick] at hr
      cases hr
      exact .runs hpc
  | timerSleep n | threadYield | threadBlock | threadUnblock t | threadCreate t p | threadExit =>
      cases hen

theorem Live.step (h : Live σ) (hset : Settled σ) (hu : UnblockOk σ a)
    (hs : Project1.step a σ = some σ') : Live σ' := by
  have hframe := hset.step_frame hs
  refine ⟨fun t ht => ?_, fun hidle' => ?_⟩
  · by_cases htr : t = σ.kernel.running
    · subst htr
      exact (hframe.interrupted ht).symm
    · rw [hframe.pending t htr] at ht
      exact absurd (h.interrupted t ht) htr
  · have hidle : σ.kernel.idleThread = none := by
      by_contra hne
      exact hframe.idle hne hidle'
    cases h.idle hidle with
    | before i hpc hall => exact Starting.step_before hset hidle hpc hall hs
    | creating i hpc hi hall => exact Starting.step_creating hset hu hidle hpc hi hall hs
    | runs hpc => exact Starting.step_runs hset hidle hidle' hpc hs
    | ready i hready hi =>
        have hst := hset.places.ready i hready
        have hne : i ≠ σ.kernel.running := by
          rintro rfl
          rw [hset.running] at hst
          cases hst
        exact .of_ready hready hframe.ready ((hframe.pc i hne (by simp [hst])).trans hi)

theorem boot_live (idle : ThreadPtr) : Live (boot idle) := by
  refine ⟨fun t ht => ?_, fun _ => .before idle rfl rfl⟩
  cases ht

end Starting

/-! ## Going on -/

section Progress

variable {k : Kernel} {σ σ' : System} {d : Int}

/-- A thread in `timer_sleep` can block. -/
theorem Live.falls_asleep (h : Live σ) (hset : Settled σ)
    (hpend : σ.pending σ.kernel.running = none)
    (hpc : σ.pc σ.kernel.running = .sleepUntil d) : ∃ σ', Project1.step .exec σ = some σ' := by
  let k := (threadToSleep σ.kernel d).blocked
  have hnext : ∃ t rest, Next k t rest := by
    cases hready : σ.kernel.readyList with
    | cons t rest =>
        exact ⟨t, rest, Or.inr hready⟩
    | nil =>
        cases hidle : σ.kernel.idleThread with
        | some i =>
            exact ⟨i, [], Or.inl ⟨hready, rfl, hidle⟩⟩
        | none =>
            cases h.idle hidle with
            | before i hpc' _ => rw [hpc] at hpc'; cases hpc'
            | creating i hpc' _ _ => rw [hpc] at hpc'; cases hpc'
            | runs hpc' => rw [hpc] at hpc'; cases hpc'
            | ready i hi _ => rw [hready] at hi; cases hi
  obtain ⟨t, rest, hn⟩ := hnext
  have hblock : sleepUntil σ.kernel d = .ok (k.dispatch t rest) :=
    threadBlock_eq_ok.2 ⟨hset.interrupts, t, rest, hn, rfl⟩
  refine ⟨{ σ.goto .asleep with kernel := k.dispatch t rest }, step_iff.2 (Or.inr ⟨hpend, ?_, ?_⟩)⟩
  · rw [hpc]
    rfl
  · simp only [System.run, System.exec, hpc, hblock]
    rfl

theorem threadYield_ok (hi : k.intrContext = false) : ∃ k', threadYield k = .ok k' := by
  have hnext : ∃ t rest, Next k.yielding t rest := by
    cases hready : k.yielding.readyList with
    | cons t rest =>
        exact ⟨t, rest, Or.inr hready⟩
    | nil =>
        by_cases hidle : k.idleThread = some k.running
        · exact ⟨k.running, [], Or.inl ⟨hready, rfl, hidle⟩⟩
        · simp [Kernel.yielding, hidle] at hready
  obtain ⟨t, rest, hn⟩ := hnext
  exact ⟨_, threadYield_eq_ok.2 ⟨hi, t, rest, hn, rfl⟩⟩

/-- A thread that is not to yield has interrupts on after at most one step. -/
theorem Settled.interrupts_on_next (hset : Settled σ)
    (hint : σ.pending σ.kernel.running ≠ some .interrupted) :
    ∃ tr σ', Exec Project1.step σ tr σ' ∧ (∀ e ∈ tr, e.2 = .exec) ∧ σ'.InterruptsOn := by
  have hone : ∀ {σ'}, Project1.step .exec σ = some σ' → σ'.InterruptsOn →
      ∃ tr σ', Exec Project1.step σ tr σ' ∧ (∀ e ∈ tr, e.2 = .exec) ∧ σ'.InterruptsOn :=
    fun hs hon => ⟨[(σ, .exec)], _, .snoc .nil hs, by simp, hon⟩
  cases hpend : σ.pending σ.kernel.running with
  | none =>
      by_cases hpc : σ.pc σ.kernel.running = .asleep
      · have hresumed : Project1.step .exec σ = some (σ.goto .own) := by
          refine step_iff.2 (Or.inr ⟨hpend, ?_, ?_⟩)
          · rw [hpc]
            rfl
          · simp only [System.run, System.exec, hpc]
        refine hone hresumed ⟨hpend, ?_⟩
        simp [System.goto]
      · exact ⟨[], σ, .nil, by simp, hpend, hpc⟩
  | some r =>
      cases r with
      | interrupted =>
          exact absurd hpend hint
      | blocked =>
          refine hone (step_iff.2 (Or.inl ⟨_, hpend, rfl, rfl⟩)) ⟨update_self _ _ _, ?_⟩
          rcases hset.places.returns _ hpend with hown | ⟨u, hown⟩
          · simp [hown]
          · simp [hown]

theorem Live.interrupts_on (h : Live σ) (hset : Settled σ) :
    ∃ tr σ', Exec Project1.step σ tr σ' ∧ (∀ e ∈ tr, e.2 = .exec) ∧ σ'.InterruptsOn := by
  by_cases hint : σ.pending σ.kernel.running = some .interrupted
  · obtain ⟨k, hy⟩ := threadYield_ok hset.interrupts
    let σ₁ : System := { σ with kernel := k, pending := update σ.pending σ.kernel.running none }
    have hs : Project1.step .exec σ = some σ₁ := by
      refine step_iff.2 (Or.inl ⟨_, hint, rfl, ?_⟩)
      simp only [System.resume, hy]
      rfl
    have hunblock : UnblockOk σ .exec := fun _ hu => by cases hu
    -- nobody else is about to yield
    have hint' : σ₁.pending σ₁.kernel.running ≠ some .interrupted := by
      intro hp
      have hp' : update σ.pending σ.kernel.running none σ₁.kernel.running = some .interrupted := hp
      by_cases ht : σ₁.kernel.running = σ.kernel.running
      · rw [ht, update_self] at hp'
        cases hp'
      · rw [update_of_ne ht] at hp'
        exact ht (h.interrupted _ hp')
    obtain ⟨tr, σ', hrun, hexec, hon⟩ := (hset.step hunblock hs).interrupts_on_next hint'
    refine ⟨(σ, .exec) :: tr, σ', .cons hs hrun, ?_, hon⟩
    simpa using hexec
  · exact hset.interrupts_on_next hint

end Progress

end Project1
end Pintos
