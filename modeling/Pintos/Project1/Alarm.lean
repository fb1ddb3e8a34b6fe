import Pintos.Project1.Places

/-!
# Alarm — who sleeps, and until when

A call `timer_sleep (n)` reads `start` from `timer_ticks ()` and later, with interrupts off, calls
`thread_toSleep (start + n)`; timer interrupts may come in between.  `Sleeping` says of a run that
a thread has gone to sleep and that no timer interrupt since then has counted up to its deadline.
-/

namespace Pintos
namespace Project1

open Lib Function
open Project2 (ThreadPtr ThreadStatus bind_eq_ok toInt64 toInt64_eq TIME_SLICE)

/-! ## Sleeping, in terms of the run -/

/-- What `timer_ticks ()` returned in a thread's last call of `timer_sleep`, and its argument. -/
structure Call where
  start : Int
  ticks : Int

def noteCall (last : ThreadPtr → Call) (e : System × Act) : ThreadPtr → Call :=
  match e.2 with
  | .timerSleep n => update last e.1.kernel.running ⟨e.1.kernel.ticks, n⟩
  | _ => last

/-- The last call of `timer_sleep` by each thread. -/
def lastCall (tr : List (System × Act)) : ThreadPtr → Call :=
  tr.foldl noteCall fun _ => ⟨0, 0⟩

def deadline (tr : List (System × Act)) (t : ThreadPtr) : Int :=
  (lastCall tr t).start + (lastCall tr t).ticks

/-- The running thread `t` is about to call `thread_toSleep`. -/
def System.FallsAsleep (σ : System) (t : ThreadPtr) : Prop :=
  t = σ.kernel.running ∧ σ.pending σ.kernel.running = none ∧
    ∃ d, σ.pc σ.kernel.running = .sleepUntil d

/-- `t` has gone to sleep with the deadline `d`, and every timer interrupt since has left the tick
count below it. -/
def Sleeping (tr : List (System × Act)) (t : ThreadPtr) (d : Int) : Prop :=
  ∃ tr₁ σ₁ tr₂, tr = tr₁ ++ (σ₁, .exec) :: tr₂ ∧ σ₁.FallsAsleep t ∧ d = deadline tr₁ t ∧
    ∀ e ∈ tr₂, e.2 = .tick → e.1.kernel.now < d

/-- `start + n` does not overflow, and the synchronization primitives unblock threads that they
have blocked. -/
def AlarmUse (σ : System) (a : Act) : Prop :=
  UnblockOk σ a ∧
    ∀ n, a = .timerSleep n → -2 ^ 63 ≤ σ.kernel.ticks + n ∧ σ.kernel.ticks + n < 2 ^ 63

instance instDecidableAlarmUse (σ : System) : (a : Act) → Decidable (AlarmUse σ a)
  | .threadUnblock t => decidable_of_iff (σ.pending t = some .blocked)
      ⟨fun h => ⟨fun _ hu => Act.threadUnblock.inj hu ▸ h, fun _ hn => Act.noConfusion hn⟩,
        fun h => h.1 t rfl⟩
  | .timerSleep n => decidable_of_iff
      (-2 ^ 63 ≤ σ.kernel.ticks + n ∧ σ.kernel.ticks + n < 2 ^ 63)
      ⟨fun h => ⟨fun _ hu => Act.noConfusion hu, fun _ hm => Act.timerSleep.inj hm ▸ h⟩,
        fun h => h.2 n rfl⟩
  | .threadYield | .threadBlock | .threadCreate _ _ | .threadExit | .exec | .tick =>
      .isTrue ⟨fun _ hu => Act.noConfusion hu, fun _ hn => Act.noConfusion hn⟩

/-- What a run says about the sleeping list. -/
structure AlarmLaw (tr : List (System × Act)) (σ : System) : Prop where
  /-- exactly the sleepers are listed, once each -/
  listed : ∀ t, t ∈ σ.kernel.sleepingList ↔ ∃ d, Sleeping tr t d
  once : σ.kernel.sleepingList.Nodup
  /-- no sleeper is ready or runs -/
  waits : ∀ t ∈ σ.kernel.sleepingList,
    σ.kernel.status t = .blocked ∧ t ∉ σ.kernel.readyList ∧ t ≠ σ.kernel.running
  /-- the handler of the timer interrupt comes back -/
  ticks : σ.InterruptsOn → ∃ σ', step .tick σ = some σ'
  /-- the interrupt that counts up to the deadline makes the sleeper ready, and leaves those with
  a later one alone -/
  rings : ∀ σ', step .tick σ = some σ' → ∀ t d, Sleeping tr t d →
    (d ≤ σ.kernel.now →
      t ∉ σ'.kernel.sleepingList ∧ σ'.kernel.status t = .ready ∧ σ'.kernel.readyList.count t = 1) ∧
    (σ.kernel.now < d →
      t ∈ σ'.kernel.sleepingList ∧ σ'.kernel.status t = .blocked ∧ t ∉ σ'.kernel.readyList ∧
        σ'.kernel.sleepingTicks t = σ.kernel.sleepingTicks t)

section Trace

variable {tr : List (System × Act)} {σ : System} {a : Act} {t : ThreadPtr} {d : Int}

theorem deadline_call {n : Int} :
    deadline (tr ++ [(σ, .timerSleep n)]) t =
      if t = σ.kernel.running then σ.kernel.ticks + n else deadline tr t := by
  by_cases ht : t = σ.kernel.running <;> simp [deadline, lastCall, noteCall, ht]

theorem deadline_other (ha : ∀ n, a ≠ .timerSleep n) :
    deadline (tr ++ [(σ, a)]) t = deadline tr t := by
  cases a with
  | timerSleep n => exact absurd rfl (ha n)
  | _ => simp [deadline, lastCall, noteCall]

theorem not_sleeping_nil : ¬ Sleeping [] t d := by
  rintro ⟨tr₁, σ₁, tr₂, h, -⟩
  simp at h

/-- One more step: a sleeper sleeps on, or a thread goes to sleep. -/
theorem sleeping_snoc :
    Sleeping (tr ++ [(σ, a)]) t d ↔
      (Sleeping tr t d ∧ (a = .tick → σ.kernel.now < d)) ∨
        (a = .exec ∧ σ.FallsAsleep t ∧ d = deadline tr t) := by
  constructor
  · rintro ⟨tr₁, σ₁, tr₂, heq, hf, hd, hnow⟩
    rcases List.eq_nil_or_concat tr₂ with rfl | ⟨tr₂, e, rfl⟩
    · obtain ⟨rfl, he⟩ := List.append_inj' heq rfl
      cases he
      exact Or.inr ⟨rfl, hf, hd⟩
    · rw [List.concat_eq_append] at heq hnow
      rw [← List.cons_append, ← List.append_assoc] at heq
      obtain ⟨rfl, he⟩ := List.append_inj' heq rfl
      cases he
      refine Or.inl ⟨⟨tr₁, σ₁, tr₂, rfl, hf, hd, fun e he => hnow e (by simp [he])⟩, fun ha => ?_⟩
      exact hnow (σ, a) (by simp) ha
  · rintro (⟨⟨tr₁, σ₁, tr₂, rfl, hf, hd, hnow⟩, ha⟩ | ⟨rfl, hf, hd⟩)
    · refine ⟨tr₁, σ₁, tr₂ ++ [(σ, a)], by simp, hf, hd, fun e he => ?_⟩
      rcases List.mem_append.1 he with he | he
      · exact hnow e he
      · rw [List.mem_singleton.1 he]
        exact ha
    · exact ⟨tr, σ, [], rfl, hf, hd, by simp⟩

end Trace

/-! ## What a step does to the sleepers -/

/-- The possibilities: the timer interrupt, the critical section of `timer_sleep`, and the steps
that leave the sleepers alone. -/
inductive Naps (σ : System) (a : Act) (σ' : System) : Prop
  | tick : a = .tick → σ'.kernel = σ.kernel.rung → σ'.pc = σ.pc → Naps σ a σ'
  | toSleep (d : Int) : a = .exec → σ.pending σ.kernel.running = none →
      σ.pc σ.kernel.running = .sleepUntil d →
      σ'.kernel.sleepingList = σ.kernel.sleepingList ++ [σ.kernel.running] →
      σ'.kernel.sleepingTicks = update σ.kernel.sleepingTicks σ.kernel.running d →
      σ'.pc = update σ.pc σ.kernel.running .asleep → Naps σ a σ'
  | call (n : Int) : a = .timerSleep n → σ'.kernel = σ.kernel →
      σ'.pc = update σ.pc σ.kernel.running (.sleepUntil (toInt64 (σ.kernel.ticks + n))) →
      Naps σ a σ'
  | keeps : a ≠ .tick → (∀ n, a ≠ .timerSleep n) → (∀ t, a = .exec → ¬ σ.FallsAsleep t) →
      σ'.kernel.sleepingList = σ.kernel.sleepingList →
      (∀ t ∈ σ.kernel.sleepingList, σ'.kernel.sleepingTicks t = σ.kernel.sleepingTicks t) →
      (∀ t d, σ'.pc t = .sleepUntil d → σ.pc t = .sleepUntil d) → Naps σ a σ'

section Steps

variable {k k' : Kernel} {σ σ' : System} {a : Act} {t : ThreadPtr} {tr : List (System × Act)}

/-- The two kernels have the same sleepers. -/
def SameSleepers (k k' : Kernel) : Prop :=
  k'.sleepingList = k.sleepingList ∧ k'.sleepingTicks = k.sleepingTicks

theorem threadBlock_sleepers (h : threadBlock k = .ok k') : SameSleepers k k' := by
  rcases threadBlock_eq_ok.1 h with ⟨-, t, rest, -, rfl⟩
  exact ⟨rfl, rfl⟩

theorem threadYield_sleepers (h : threadYield k = .ok k') : SameSleepers k k' := by
  rcases threadYield_eq_ok.1 h with ⟨-, t, rest, -, rfl⟩
  exact ⟨rfl, rfl⟩

theorem threadExit_sleepers (h : threadExit k = .ok k') : SameSleepers k k' := by
  rcases threadExit_eq_ok.1 h with ⟨-, t, rest, -, rfl⟩
  exact ⟨rfl, rfl⟩

theorem threadUnblock_sleepers (h : threadUnblock k t = .ok k') : SameSleepers k k' := by
  rcases threadUnblock_eq_ok.1 h with ⟨-, rfl⟩
  exact ⟨rfl, rfl⟩

theorem Naps.of_same (ha : a ≠ .tick) (hn : ∀ n, a ≠ .timerSleep n)
    (hf : ∀ t, a = .exec → ¬ σ.FallsAsleep t) (hk : SameSleepers σ.kernel σ'.kernel)
    (hpc : ∀ t d, σ'.pc t = .sleepUntil d → σ.pc t = .sleepUntil d) : Naps σ a σ' :=
  .keeps ha hn hf hk.1 (fun t _ => by rw [hk.2]) hpc

/-- A place that the running thread has gone on to, other than that of a call of `timer_sleep`. -/
theorem goto_pc {p : Pc} (hp : ∀ d, p ≠ .sleepUntil d) (d : Int)
    (h : (σ.goto p).pc t = .sleepUntil d) : σ.pc t = .sleepUntil d := by
  by_cases ht : t = σ.kernel.running
  · subst ht
    exact absurd (by simpa [System.goto] using h) (hp d)
  · simpa [System.goto, ht] using h

theorem Settled.created_sleepers (h : Settled σ) {priority : Int} (ht : t ∉ σ.kernel.allList) :
    ∀ u ∈ σ.kernel.sleepingList,
      (initThread σ.kernel t priority).sleepingTicks u = σ.kernel.sleepingTicks u := by
  intro u hu
  refine update_of_ne ?_ _ _
  rintro rfl
  exact h.places.not_sleep (by simp [h.dying ht]) hu

theorem Settled.exec_naps (h : Settled σ) (hpend : σ.pending σ.kernel.running = none)
    (hs : σ.exec = .ok σ') : Naps σ .exec σ' := by
  have hno : ∀ p, σ.pc σ.kernel.running = p → (∀ d, p ≠ .sleepUntil d) →
      ∀ t, Act.exec = .exec → ¬ σ.FallsAsleep t := by
    rintro p hp hne t - ⟨-, -, d, hd⟩
    exact hne d (hp.symm.trans hd)
  unfold System.exec at hs
  split at hs
  · rename_i hpc
    cases hs
    exact .of_same (by simp) (by simp) (hno _ hpc (by simp)) ⟨rfl, rfl⟩ fun _ _ h => h
  · rename_i i hpc
    rcases bind_eq_ok.1 hs with ⟨k, hc, hs⟩
    cases hs
    rcases threadCreate_eq_ok.1 hc with ⟨⟨hi, -⟩, -, rfl⟩
    refine .keeps (by simp) (by simp) (hno _ hpc (by simp)) rfl (h.created_sleepers hi) ?_
    intro t d ht
    by_cases htr : t = σ.kernel.running
    · simp [htr] at ht
    · simp only [update_of_ne htr] at ht
      by_cases hti : t = i
      · simp [hti] at ht
      · simpa [hti] using ht
  · rename_i t hpc
    rcases bind_eq_ok.1 hs with ⟨k, hu, hs⟩
    cases hs
    exact .of_same (by simp) (by simp) (hno _ hpc (by simp)) (threadUnblock_sleepers hu)
      fun u d => goto_pc (by simp) d
  · rename_i d hpc
    rcases bind_eq_ok.1 hs with ⟨k, hsl, hs⟩
    cases hs
    obtain ⟨hl, ht⟩ := threadBlock_sleepers hsl
    exact .toSleep d rfl hpend hpc hl ht rfl
  · rename_i hpc
    cases hs
    exact .of_same (by simp) (by simp) (hno _ hpc (by simp)) ⟨rfl, rfl⟩ fun u d => goto_pc (by simp) d
  · rename_i hpc
    cases hs
    exact .of_same (by simp) (by simp) (hno _ hpc (by simp)) ⟨rfl, rfl⟩ fun u d => goto_pc (by simp) d
  · rename_i hpc
    cases hs
    exact .of_same (by simp) (by simp) (hno _ hpc (by simp)) ⟨rfl, rfl⟩ fun u d => goto_pc (by simp) d
  · rename_i hpc
    rcases bind_eq_ok.1 hs with ⟨k, hb, hs⟩
    cases hs
    exact .of_same (by simp) (by simp) (hno _ hpc (by simp)) (threadBlock_sleepers hb) fun _ _ h => h

theorem Settled.step_naps (h : Settled σ) (hs : Project1.step a σ = some σ') : Naps σ a σ' := by
  rcases step_iff.1 hs with ⟨r, hpend, rfl, hr⟩ | ⟨hpend, -, hr⟩
  · have hno : ∀ t, Act.exec = .exec → ¬ σ.FallsAsleep t := by
      rintro t - ⟨-, hnone, -⟩
      rw [hpend] at hnone
      cases hnone
    cases r with
    | blocked =>
        cases hr
        exact .of_same (by simp) (by simp) hno ⟨rfl, rfl⟩ fun _ _ h => h
    | interrupted =>
        rcases bind_eq_ok.1 hr with ⟨k, hy, hr⟩
        cases hr
        exact .of_same (by simp) (by simp) hno (threadYield_sleepers hy) fun _ _ h => h
  cases a with
  | timerSleep n =>
      cases hr
      exact .call n rfl rfl rfl
  | threadYield =>
      rcases bind_eq_ok.1 hr with ⟨k, hy, hr⟩
      cases hr
      exact .of_same (by simp) (by simp) (by simp) (threadYield_sleepers hy) fun _ _ h => h
  | threadBlock =>
      rcases bind_eq_ok.1 hr with ⟨k, hb, hr⟩
      cases hr
      exact .of_same (by simp) (by simp) (by simp) (threadBlock_sleepers hb) fun _ _ h => h
  | threadUnblock t =>
      rcases bind_eq_ok.1 hr with ⟨k, hu, hr⟩
      cases hr
      exact .of_same (by simp) (by simp) (by simp) (threadUnblock_sleepers hu) fun _ _ h => h
  | threadCreate t p =>
      rcases bind_eq_ok.1 hr with ⟨k, hc, hr⟩
      cases hr
      rcases threadCreate_eq_ok.1 hc with ⟨⟨ht, -⟩, -, rfl⟩
      exact .keeps (by simp) (by simp) (by simp) rfl (h.created_sleepers ht)
        fun u d => goto_pc (by simp) d
  | threadExit =>
      rcases bind_eq_ok.1 hr with ⟨k, hx, hr⟩
      cases hr
      exact .of_same (by simp) (by simp) (by simp) (threadExit_sleepers hx) fun _ _ h => h
  | exec => exact h.exec_naps hpend hr
  | tick =>
      rw [h.run_tick] at hr
      cases hr
      exact .tick rfl rfl rfl

/-! ## The run -/

/-- What holds of the sleepers between two steps. -/
structure AlarmInv (tr : List (System × Act)) (σ : System) : Prop where
  settled : Settled σ
  calling : ∀ t d, σ.pc t = .sleepUntil d → d = deadline tr t
  listed : ∀ t, t ∈ σ.kernel.sleepingList ↔ ∃ d, Sleeping tr t d
  wakesAt : ∀ t d, Sleeping tr t d → σ.kernel.sleepingTicks t = d

theorem AlarmInv.step (h : AlarmInv tr σ) (hu : AlarmUse σ a)
    (hs : Project1.step a σ = some σ') : AlarmInv (tr ++ [(σ, a)]) σ' := by
  have hset := h.settled.step hu.1 hs
  cases h.settled.step_naps hs with
  | tick ha hk hpc =>
      subst ha
      have hnap : ∀ t d, Sleeping (tr ++ [(σ, .tick)]) t d ↔
          Sleeping tr t d ∧ σ.kernel.now < d := by
        intro t d
        rw [sleeping_snoc]
        simp
      refine ⟨hset, fun t d ht => ?_, fun t => ?_, fun t d ht => ?_⟩
      · rw [deadline_other (by simp)]
        exact h.calling t d (hpc ▸ ht)
      · have hmem : t ∈ σ'.kernel.sleepingList ↔
            t ∈ σ.kernel.sleepingList ∧ σ.kernel.now < σ.kernel.sleepingTicks t := by
          rw [hk]
          simp [Kernel.rung, Kernel.awakened]
        rw [hmem, h.listed t]
        simp only [hnap]
        constructor
        · rintro ⟨⟨d, hd⟩, hlt⟩
          exact ⟨d, hd, h.wakesAt t d hd ▸ hlt⟩
        · rintro ⟨d, hd, hlt⟩
          exact ⟨⟨d, hd⟩, (h.wakesAt t d hd).symm ▸ hlt⟩
      · rw [hk]
        exact h.wakesAt t d ((hnap t d).1 ht).1
  | toSleep d ha hpend hpc hl hticks hpc' =>
      subst ha
      have hd := h.calling σ.kernel.running d hpc
      have hnap : ∀ t e, Sleeping (tr ++ [(σ, .exec)]) t e ↔
          Sleeping tr t e ∨ (t = σ.kernel.running ∧ e = d) := by
        intro t e
        rw [sleeping_snoc]
        simp only [reduceCtorEq, false_implies, and_true, true_and, System.FallsAsleep]
        refine or_congr_right ⟨?_, ?_⟩
        · rintro ⟨⟨rfl, -⟩, rfl⟩
          exact ⟨rfl, hd.symm⟩
        · rintro ⟨rfl, rfl⟩
          exact ⟨⟨rfl, hpend, e, hpc⟩, hd⟩
      have hout : ∀ e, ¬ Sleeping tr σ.kernel.running e := fun e he =>
        h.settled.places.not_sleep (by simp [h.settled.running]) ((h.listed _).2 ⟨e, he⟩)
      refine ⟨hset, fun t e ht => ?_, fun t => ?_, fun t e ht => ?_⟩
      · rw [deadline_other (by simp)]
        rw [hpc'] at ht
        by_cases htr : t = σ.kernel.running
        · simp [htr] at ht
        · exact h.calling t e (by simpa [htr] using ht)
      · rw [hl, List.mem_append, h.listed t, List.mem_singleton]
        simp only [hnap, exists_or, exists_and_left, exists_eq, and_true]
      · rw [hticks]
        rcases (hnap t e).1 ht with ht | ⟨rfl, rfl⟩
        · have htr : t ≠ σ.kernel.running := fun he => hout e (he ▸ ht)
          rw [update_of_ne htr]
          exact h.wakesAt t e ht
        · exact update_self _ _ _
  | call n ha hk hpc =>
      subst ha
      have hnap : ∀ t e, Sleeping (tr ++ [(σ, .timerSleep n)]) t e ↔ Sleeping tr t e := by
        intro t e
        rw [sleeping_snoc]
        simp
      refine ⟨hset, fun t d ht => ?_, fun t => ?_, fun t d ht => ?_⟩
      · rw [deadline_call]
        rw [hpc] at ht
        by_cases htr : t = σ.kernel.running
        · rw [if_pos htr, ← toInt64_eq (hu.2 n rfl)]
          subst htr
          simpa [eq_comm] using ht
        · rw [if_neg htr]
          exact h.calling t d (by simpa [htr] using ht)
      · rw [hk]
        simp only [hnap]
        exact h.listed t
      · rw [hk]
        exact h.wakesAt t d ((hnap t d).1 ht)
  | keeps ha hn hf hl hticks hpc =>
      have hnap : ∀ t e, Sleeping (tr ++ [(σ, a)]) t e ↔ Sleeping tr t e := by
        intro t e
        rw [sleeping_snoc]
        constructor
        · rintro (⟨ht, -⟩ | ⟨hx, ht, -⟩)
          · exact ht
          · exact absurd ht (hf t hx)
        · exact fun ht => Or.inl ⟨ht, fun hx => absurd hx ha⟩
      refine ⟨hset, fun t d ht => ?_, fun t => ?_, fun t d ht => ?_⟩
      · rw [deadline_other hn]
        exact h.calling t d (hpc t d ht)
      · rw [hl]
        simp only [hnap]
        exact h.listed t
      · have ht' := (hnap t d).1 ht
        rw [hticks t ((h.listed t).2 ⟨d, ht'⟩)]
        exact h.wakesAt t d ht'

theorem boot_alarmInv (idle : ThreadPtr) : AlarmInv [] (boot idle) := by
  refine ⟨boot_settled idle, fun t d ht => ?_, fun t => ?_, fun t d ht => ?_⟩
  · have hpc : (boot idle).pc t = if t = Project2.initialThread then .threadStart idle else .own :=
      rfl
    rw [hpc] at ht
    split at ht <;> cases ht
  · refine iff_of_false (fun ht => by cases ht) ?_
    rintro ⟨d, hd⟩
    exact not_sleeping_nil hd
  · exact absurd ht not_sleeping_nil

theorem alarmInv_of_exec {idle : ThreadPtr} (h : Exec Project1.step (boot idle) tr σ)
    (hu : ∀ e ∈ tr, AlarmUse e.1 e.2) : AlarmInv tr σ :=
  h.history (boot_alarmInv idle) (fun _ _ _ _ hi ha hs => hi.step ha hs) hu

theorem AlarmInv.law (h : AlarmInv tr σ) : AlarmLaw tr σ := by
  have hp := h.settled.places
  refine ⟨h.listed, hp.sleep_nodup, fun t ht => ?_, fun hon => ?_, fun σ' hs t d hd => ?_⟩
  · have hb := (hp.sleep t ht).1
    refine ⟨hb, hp.not_ready (by simp [hb]), ?_⟩
    rintro rfl
    rw [h.settled.running] at hb
    cases hb
  · have hen : Act.tick.enabled (σ.pc σ.kernel.running) = true := by
      simpa [Act.enabled] using hon.2
    exact ⟨σ.ticked, step_iff.2 (Or.inr ⟨hon.1, hen, h.settled.run_tick⟩)⟩
  · have hmem := (h.listed t).2 ⟨d, hd⟩
    have hticks := h.wakesAt t d hd
    have hb := (hp.sleep t hmem).1
    have hr := hp.not_ready (t := t) (by simp [hb])
    have hk : σ'.kernel = σ.kernel.rung := by
      cases h.settled.step_naps hs with
      | tick _ hk _ => exact hk
      | keeps ha _ _ _ _ _ => exact absurd rfl ha
      | toSleep d ha _ _ _ _ _ | call n ha _ _ => cases ha
    rw [hk]
    refine ⟨fun hle => ?_, fun hlt => ?_⟩
    · have hdue : t ∈ σ.kernel.due σ.kernel.now := Places.mem_due.2 ⟨hmem, hticks.symm ▸ hle⟩
      refine ⟨fun hm => ?_, if_pos hdue, ?_⟩
      · have hlt : σ.kernel.now < σ.kernel.sleepingTicks t := by
          simpa using (List.mem_filter.1 hm).2
        exact absurd (hticks ▸ hlt) (not_lt.2 hle)
      · show (σ.kernel.readyList ++ σ.kernel.due σ.kernel.now).count t = 1
        rw [List.count_append, List.count_eq_zero_of_not_mem hr, Nat.zero_add]
        exact List.count_eq_one_of_mem (hp.sleep_nodup.filter _) hdue
    · have hdue : t ∉ σ.kernel.due σ.kernel.now := fun hm =>
        absurd (hticks ▸ (Places.mem_due.1 hm).2) (not_le.2 hlt)
      refine ⟨List.mem_filter.2 ⟨hmem, by simpa [hticks] using hlt⟩, (if_neg hdue).trans hb, ?_, rfl⟩
      show t ∉ σ.kernel.readyList ++ σ.kernel.due σ.kernel.now
      rw [List.mem_append]
      exact not_or.2 ⟨hr, hdue⟩

end Steps

/-- In every run a thread is in the sleeping list exactly from its `thread_toSleep` until the first
timer interrupt that counts up to its deadline, which makes it ready. -/
theorem alarm_clock {idle : ThreadPtr} {tr : List (System × Act)} {σ : System}
    (h : Exec step (boot idle) tr σ) (hu : ∀ e ∈ tr, AlarmUse e.1 e.2) : AlarmLaw tr σ :=
  (alarmInv_of_exec h hu).law

/-- Thread 1 becomes the idle thread; then the initial thread calls `timer_sleep (2)` at tick 0, and
the first timer interrupt comes before its `thread_toSleep`. -/
def napActs : List Act :=
  [.exec, .exec, .threadBlock, .exec, .threadUnblock 0, .exec, .exec, .exec, .timerSleep 2, .tick,
    .exec]

def napSystem : System :=
  (runAll step napActs (boot 1)).get (by decide +kernel)

theorem alarm_clock_nap :
    AlarmLaw (trace step napActs (boot 1)) napSystem ∧ napSystem.kernel.sleepingList = [0] ∧
      napSystem.kernel.sleepingTicks 0 = 2 ∧ napSystem.kernel.now = 2 := by
  have hrun : Exec step (boot 1) (trace step napActs (boot 1)) napSystem :=
    Exec.of_runAll (Option.some_get _).symm
  exact ⟨alarm_clock hrun (by decide +kernel), by decide +kernel, by decide +kernel,
    by decide +kernel⟩

end Project1
end Pintos
