import Pintos.Project1.Alarm
import Pintos.Project1.Progress

/-!
# SleepTimes — the arithmetic of `timer_sleep` and its relatives (`timer.c`)

`real_time_sleep` multiplies before it divides, and `timer_sleep` adds its argument to the tick
count; both are `int64_t` arithmetic.  A deadline that has wrapped around has passed when the next
timer interrupt compares it with the tick count.
-/

namespace Pintos
namespace Project1

open Lib Function
open Project2 (ThreadPtr toInt64 toInt64_eq)

/-! ## The code -/

/-- The argument with which `real_time_sleep` calls `timer_sleep`.  Otherwise it goes on to
`real_time_delay`, which waits in a loop and does not sleep. -/
def realTimeSleep (freq num denom : Int) : Option Int :=
  let ticks := (toInt64 (num * freq)).tdiv denom
  if ticks > 0 then some ticks else none

def timerMsleep (freq ms : Int) : Option Int := realTimeSleep freq ms 1000

def timerUsleep (freq us : Int) : Option Int := realTimeSleep freq us (1000 * 1000)

def timerNsleep (freq ns : Int) : Option Int := realTimeSleep freq ns (1000 * 1000 * 1000)

/-- The calls with which a thread goes to sleep. -/
inductive SleepCall
  | sleep (ticks : Int)
  | msleep (ms : Int)
  | usleep (us : Int)
  | nsleep (ns : Int)
  deriving DecidableEq, Repr

namespace SleepCall

def arg : SleepCall → Int
  | .sleep n | .msleep n | .usleep n | .nsleep n => n

/-- The argument that `timer_sleep` gets. -/
def timerSleep (freq : Int) : SleepCall → Option Int
  | .sleep ticks => some ticks
  | .msleep ms => timerMsleep freq ms
  | .usleep us => timerUsleep freq us
  | .nsleep ns => timerNsleep freq ns

/-- The running thread makes the call. -/
def enter (freq : Int) (c : SleepCall) (σ : System) : Option System :=
  match c.timerSleep freq with
  | some ticks => step (.timerSleep ticks) σ
  | none => some σ

/-! ## What is asked for -/

/-- The product that `real_time_sleep` computes, over the integers. -/
def product (freq : Int) : SleepCall → Int
  | .sleep ticks => ticks
  | .msleep n | .usleep n | .nsleep n => n * freq

/-- The number of ticks that the call asks for. -/
def requested (freq : Int) : SleepCall → Int
  | .sleep ticks => ticks
  | .msleep ms => ms * freq / 1000
  | .usleep us => us * freq / (1000 * 1000)
  | .nsleep ns => ns * freq / (1000 * 1000 * 1000)

end SleepCall

/-- `t` is in `timer_sleep`: it has not blocked yet, or it has not been made ready again. -/
def System.InSleep (σ : System) (t : ThreadPtr) : Prop :=
  (∃ d, σ.pc t = .sleepUntil d) ∨ t ∈ σ.kernel.sleepingList

/-- The timer interrupts of a run. -/
def ticksIn (tr : List (System × Act)) : Nat := tr.countP fun e => e.2 = .tick

/-- Whatever the threads do after the call, the caller sleeps until the tick count has advanced by
the requested number of ticks. -/
def NotCutShort (freq : Int) (c : SleepCall) (σ : System) : Prop :=
  ∀ σ₁, c.enter freq σ = some σ₁ → ∀ tr σ₂, Exec step σ₁ tr σ₂ → (∀ e ∈ tr, UnblockOk e.1 e.2) →
    (ticksIn tr : Int) < c.requested freq → σ₂.InSleep σ.kernel.running

/-! ## Arithmetic -/

def InInt64 (n : Int) : Prop := -2 ^ 63 ≤ n ∧ n < 2 ^ 63

section Arithmetic

variable {s n r m freq denom num : Int}

theorem toInt64_inInt64 (n : Int) : InInt64 (toInt64 n) := by
  unfold InInt64 toInt64
  omega

theorem toInt64_toInt64_add (s n : Int) : toInt64 (toInt64 s + n) = toInt64 (s + n) := by
  unfold toInt64
  omega

/-- The deadline is above the tick counts that come before it, if it does not wrap around or the
first tick count after the call does so too. -/
theorem toInt64_lt_deadline (hs : InInt64 s) (hr : r < 2 ^ 63)
    (h : s + r < 2 ^ 63 ∨ s = 2 ^ 63 - 1) (hm : 1 ≤ m) (hmr : m < r) :
    toInt64 (s + m) < toInt64 (s + r) := by
  unfold InInt64 at hs
  unfold toInt64
  omega

/-- A deadline that has wrapped around is not above the next tick count. -/
theorem deadline_le_next (hs : InInt64 s) (hr : r < 2 ^ 63) (hwraps : 2 ^ 63 ≤ s + r)
    (hmax : s ≠ 2 ^ 63 - 1) : 1 < r ∧ toInt64 (s + r) ≤ toInt64 (s + 1) := by
  unfold InInt64 at hs
  unfold toInt64
  omega

theorem realTimeSleep_of_fits (hdenom : 0 < denom) (hr : 1 ≤ num * freq / denom)
    (hfits : num * freq < 2 ^ 63) : realTimeSleep freq num denom = some (num * freq / denom) := by
  have hpos : denom ≤ num * freq := by
    have hle := Int.mul_le_of_le_ediv hdenom hr
    rwa [Int.one_mul] at hle
  have hid : toInt64 (num * freq) = num * freq := toInt64_eq ⟨by omega, hfits⟩
  have hdiv : (num * freq).tdiv denom = num * freq / denom := Int.tdiv_eq_ediv_of_nonneg (by omega)
  simp only [realTimeSleep, hid, hdiv]
  rw [if_pos (by omega)]

/-- A product that wraps around leaves fewer ticks. -/
theorem realTimeSleep_of_wraps (hdenom : 0 < denom) (hdenom' : denom ≤ 2 ^ 64)
    (hwraps : 2 ^ 63 ≤ num * freq) (h : realTimeSleep freq num denom = some n) :
    1 ≤ n ∧ n < num * freq / denom := by
  simp only [realTimeSleep] at h
  split at h
  · next hpos =>
      cases h
      refine ⟨hpos, ?_⟩
      have hsmall : toInt64 (num * freq) + 2 ^ 64 ≤ num * freq := by
        unfold toInt64
        omega
      have hnonneg : 0 ≤ toInt64 (num * freq) := by
        by_contra hneg
        -- the quotient of a negative number is not positive
        have hle := Int.tdiv_nonneg (show 0 ≤ -toInt64 (num * freq) by omega) hdenom.le
        rw [Int.neg_tdiv] at hle
        omega
      rw [Int.tdiv_eq_ediv_of_nonneg hnonneg]
      have hstep : (toInt64 (num * freq) + denom) / denom = toInt64 (num * freq) / denom + 1 := by
        rw [Int.add_ediv_of_dvd_right (Int.dvd_refl denom), Int.ediv_self hdenom.ne']
      calc toInt64 (num * freq) / denom
          < toInt64 (num * freq) / denom + 1 := Int.lt_succ _
        _ = (toInt64 (num * freq) + denom) / denom := hstep.symm
        _ ≤ num * freq / denom := Int.ediv_le_ediv hdenom (by omega)
  · cases h

theorem requested_le (hdenom : 0 < denom) (hr : 1 ≤ num * freq / denom)
    (hfits : num * freq < 2 ^ 63) : num * freq / denom < 2 ^ 63 := by
  have hle := Int.ediv_le_self denom (show 0 ≤ num * freq by
    by_contra hneg
    have hdiv := Int.ediv_neg_of_neg_of_pos (not_le.1 hneg) hdenom
    omega)
  omega

namespace SleepCall

variable {c : SleepCall}

/-- If the product fits, `timer_sleep` gets the requested number of ticks. -/
theorem timerSleep_of_fits (hr : 1 ≤ c.requested freq) (hfits : c.product freq < 2 ^ 63) :
    c.timerSleep freq = some (c.requested freq) ∧ c.requested freq < 2 ^ 63 := by
  cases c with
  | sleep ticks =>
      exact ⟨rfl, hfits⟩
  | msleep n | usleep n | nsleep n =>
      exact ⟨realTimeSleep_of_fits (by omega) hr hfits, requested_le (by omega) hr hfits⟩

/-- If it does not, `timer_sleep` gets fewer or is not called. -/
theorem timerSleep_of_wraps (harg : InInt64 c.arg) (hwraps : 2 ^ 63 ≤ c.product freq)
    (h : c.timerSleep freq = some n) : 1 ≤ n ∧ n < c.requested freq := by
  cases c with
  | sleep ticks =>
      exact absurd hwraps (not_le.2 harg.2)
  | msleep m | usleep m | nsleep m =>
      exact realTimeSleep_of_wraps (by omega) (by omega) hwraps h

end SleepCall

end Arithmetic

/-! ## A sleeper through a run -/

/-- `t` is in `timer_sleep` with the deadline `d`. -/
def Dozing (t : ThreadPtr) (d : Int) (σ : System) : Prop :=
  σ.pc t = .sleepUntil d ∨ t ∈ σ.kernel.sleepingList ∧ σ.kernel.sleepingTicks t = d

section Run

variable {σ σ' : System} {a : Act} {t : ThreadPtr} {d s r : Int} {tr : List (System × Act)}

theorem Dozing.inSleep (h : Dozing t d σ) : σ.InSleep t :=
  h.imp (fun hpc => ⟨d, hpc⟩) And.left

/-- A thread that is about to go to sleep does so, or stays where it is. -/
theorem Settled.step_sleepUntil (h : Settled σ) (hpc : σ.pc t = .sleepUntil d)
    (hs : Project1.step a σ = some σ') :
    σ'.pc t = .sleepUntil d ∨ a = .exec ∧ σ.FallsAsleep t := by
  have halive : σ.kernel.status t ≠ .dying := by
    intro hdead
    have hown := (h.places.dead t hdead).1
    rw [hpc] at hown
    cases hown
  by_cases ht : t = σ.kernel.running
  · subst ht
    rcases step_iff.1 hs with ⟨r, hpend, rfl, hr⟩ | ⟨hpend, hen, hr⟩
    · left
      cases r with
      | blocked =>
          cases hr
          exact hpc
      | interrupted =>
          rcases Project2.bind_eq_ok.1 hr with ⟨k, -, hr⟩
          cases hr
          exact hpc
    rw [hpc] at hen
    cases a with
    | exec => exact Or.inr ⟨rfl, rfl, hpend, d, hpc⟩
    | tick =>
        rw [h.run_tick] at hr
        cases hr
        exact Or.inl hpc
    | timerSleep n | threadYield | threadBlock | threadUnblock t | threadCreate t p | threadExit =>
        cases hen
  · exact Or.inl (((h.step_frame hs).pc t ht halive).trans hpc)

/-- Only an interrupt at a tick count that is not below the deadline ends the sleep. -/
theorem Settled.step_asleep (h : Settled σ) (hmem : t ∈ σ.kernel.sleepingList)
    (hticks : σ.kernel.sleepingTicks t = d) (hs : Project1.step a σ = some σ')
    (hnow : a = .tick → σ.kernel.now < d) :
    t ∈ σ'.kernel.sleepingList ∧ σ'.kernel.sleepingTicks t = d := by
  cases h.step_naps hs with
  | tick ha hk _ =>
      rw [hk]
      refine ⟨List.mem_filter.2 ⟨hmem, ?_⟩, hticks⟩
      simpa [hticks] using hnow ha
  | toSleep d' _ _ _ hl hticks' _ =>
      have hne : t ≠ σ.kernel.running := by
        rintro rfl
        exact h.places.not_sleep (by simp [h.running]) hmem
      rw [hl, hticks', update_of_ne hne]
      exact ⟨List.mem_append_left _ hmem, hticks⟩
  | call n _ hk _ =>
      rw [hk]
      exact ⟨hmem, hticks⟩
  | keeps _ _ _ hl hticks' _ =>
      rw [hl, hticks' t hmem]
      exact ⟨hmem, hticks⟩

theorem Settled.step_fallsAsleep (h : Settled σ) (hpc : σ.pc t = .sleepUntil d)
    (hfalls : σ.FallsAsleep t) (hs : Project1.step .exec σ = some σ') :
    t ∈ σ'.kernel.sleepingList ∧ σ'.kernel.sleepingTicks t = d := by
  have hfalls' := hfalls
  obtain ⟨rfl, -, -⟩ := hfalls'
  cases h.step_naps hs with
  | toSleep d' _ _ hd hl hticks _ =>
      have hdd : d' = d := by
        rw [hpc] at hd
        exact (Pc.sleepUntil.inj hd).symm
      rw [hl, hticks, update_self]
      exact ⟨List.mem_append_right _ List.mem_cons_self, hdd⟩
  | tick ha _ _ => cases ha
  | call n ha _ _ => cases ha
  | keeps _ _ hf _ _ _ => exact absurd hfalls (hf _ rfl)

theorem Dozing.step (h : Dozing t d σ) (hset : Settled σ) (hs : Project1.step a σ = some σ')
    (hnow : a = .tick → σ.kernel.now < d) : Dozing t d σ' := by
  rcases h with hpc | ⟨hmem, hticks⟩
  · rcases hset.step_sleepUntil hpc hs with hpc' | ⟨rfl, hfalls⟩
    · exact Or.inl hpc'
    · exact Or.inr (hset.step_fallsAsleep hpc hfalls hs)
  · exact Or.inr (hset.step_asleep hmem hticks hs hnow)

theorem ticksIn_snoc : ticksIn (tr ++ [(σ, a)]) = ticksIn tr + if a = .tick then 1 else 0 := by
  by_cases ha : a = .tick <;> simp [ticksIn, ha]

/-- The tick count after a run. -/
theorem ticks_step (hset : Settled σ) (hs : Project1.step a σ = some σ')
    (hticks : σ.kernel.ticks = toInt64 (s + ticksIn tr)) :
    σ'.kernel.ticks = toInt64 (s + ticksIn (tr ++ [(σ, a)])) := by
  rw [(hset.step_frame hs).ticks, ticksIn_snoc]
  by_cases ha : a = .tick
  · rw [if_pos ha, if_pos ha, Kernel.now, hticks, toInt64_toInt64_add]
    congr 1
    omega
  · rw [if_neg ha, if_neg ha, hticks]
    rfl

/-- A thread dozes as long as the tick counts stay below its deadline. -/
theorem Dozing.run {σ₁ σ₂ : System} (h : Dozing t d σ₁) (hset : Settled σ₁)
    (hticks : σ₁.kernel.ticks = toInt64 s)
    (hbelow : ∀ m, 1 ≤ m → m < r → toInt64 (s + m) < d) (hrun : Exec Project1.step σ₁ tr σ₂)
    (hu : ∀ e ∈ tr, UnblockOk e.1 e.2) (hr : (ticksIn tr : Int) < r) : Dozing t d σ₂ := by
  have hinv : Settled σ₂ ∧ σ₂.kernel.ticks = toInt64 (s + ticksIn tr) ∧
      ((ticksIn tr : Int) < r → Dozing t d σ₂) := by
    refine hrun.history (I := fun tr σ => Settled σ ∧ σ.kernel.ticks = toInt64 (s + ticksIn tr) ∧
      ((ticksIn tr : Int) < r → Dozing t d σ)) ⟨hset, ?_, fun _ => h⟩ ?_ hu
    · simpa [ticksIn] using hticks
    · rintro tr σ a σ' ⟨hset, hticks, hdoze⟩ hu hs
      refine ⟨hset.step hu hs, ticks_step hset hs hticks, fun hlt => ?_⟩
      rw [ticksIn_snoc] at hlt
      refine (hdoze (by omega)).step hset hs fun ha => ?_
      rw [if_pos ha] at hlt
      rw [Kernel.now, hticks, toInt64_toInt64_add]
      have hm := hbelow (ticksIn tr + 1) (by omega) (by omega)
      rwa [← Int.add_assoc] at hm
  exact hinv.2.2 hr

/-- `t` sleeps with the deadline `d`, the system goes on, and the tick count is that after `m`
interrupts. -/
structure Asleep (t : ThreadPtr) (d s : Int) (m : Nat) (σ : System) : Prop where
  settled : Settled σ
  live : Live σ
  listed : t ∈ σ.kernel.sleepingList
  deadline : σ.kernel.sleepingTicks t = d
  ticks : σ.kernel.ticks = toInt64 (s + m)

/-- Steps without an interrupt. -/
theorem Asleep.run {m : Nat} {σ₁ σ₂ : System} (h : Asleep t d s m σ₁)
    (hrun : Exec Project1.step σ₁ tr σ₂) (hexec : ∀ e ∈ tr, e.2 = .exec) : Asleep t d s m σ₂ := by
  refine (hrun.invariant (I := Asleep t d s m) (P := fun _ a => a = .exec) h ?_ hexec).2
  rintro σ a σ' h rfl hs
  have hu : UnblockOk σ .exec := fun _ ha => by cases ha
  obtain ⟨hmem, hticks⟩ := h.settled.step_asleep h.listed h.deadline hs fun ha => by cases ha
  refine ⟨h.settled.step hu hs, h.live.step h.settled hu hs, hmem, hticks, ?_⟩
  rw [(h.settled.step_frame hs).ticks, if_neg (by simp), h.ticks]

/-- A thread that is asleep at the next interrupt, too, has a deadline above its tick count. -/
theorem Asleep.next {m : Nat} (h : Asleep t d s m σ) (hon : σ.InterruptsOn) :
    Project1.step .tick σ = some σ.ticked ∧
      (σ.ticked.InSleep t → Asleep t d s (m + 1) σ.ticked ∧ toInt64 (s + (m + 1 : Nat)) < d) := by
  have hstep : Project1.step .tick σ = some σ.ticked := by
    refine step_iff.2 (Or.inr ⟨hon.1, ?_, h.settled.run_tick⟩)
    simpa [Act.enabled] using hon.2
  have hu : UnblockOk σ .tick := fun _ ha => by cases ha
  have hnow : σ.kernel.now = toInt64 (s + (m + 1 : Nat)) := by
    rw [Kernel.now, h.ticks, toInt64_toInt64_add, Int.add_assoc]
    rfl
  refine ⟨hstep, fun hsleep => ?_⟩
  have hmem : t ∈ σ.ticked.kernel.sleepingList := by
    rcases hsleep with ⟨d', hpc⟩ | hmem
    · have hasleep := (h.settled.places.sleep t h.listed).2
      have hpc' : σ.pc t = .sleepUntil d' := hpc
      rw [hasleep] at hpc'
      cases hpc'
    · exact hmem
  have hbelow : σ.kernel.now < d := by
    rw [← h.deadline]
    simpa using (List.mem_filter.1 hmem).2
  refine ⟨⟨h.settled.step hu hstep, h.live.step h.settled hu hstep, hmem, h.deadline, hnow⟩, ?_⟩
  rwa [← hnow]

/-- If no run of fewer than `r` interrupts ends the sleep, the deadline is above the tick counts
until then: the interrupts may come one after the other. -/
theorem Asleep.below {σ₁ : System} (h : Asleep t d s 0 σ₁)
    (hkept : ∀ tr σ₂, Exec Project1.step σ₁ tr σ₂ → (∀ e ∈ tr, UnblockOk e.1 e.2) →
      (ticksIn tr : Int) < r → σ₂.InSleep t) (m : Nat) (hm : (m : Int) < r) :
    ∃ tr σ₂, Exec Project1.step σ₁ tr σ₂ ∧ (∀ e ∈ tr, UnblockOk e.1 e.2) ∧ ticksIn tr = m ∧
      Asleep t d s m σ₂ ∧ (1 ≤ m → toInt64 (s + m) < d) := by
  induction m with
  | zero =>
      exact ⟨[], σ₁, .nil, nofun, rfl, h, nofun⟩
  | succ m ih =>
      obtain ⟨tr, σ, hrun, hu, hticks, hasleep, -⟩ := ih (by omega)
      obtain ⟨tr', σ', hrun', hexec, hon⟩ := hasleep.live.interrupts_on hasleep.settled
      have hasleep' := hasleep.run hrun' hexec
      obtain ⟨hstep, hnext⟩ := hasleep'.next hon
      have hticks' : ticksIn tr' = 0 := by
        refine List.countP_eq_zero.2 fun e he => ?_
        simp [hexec e he]
      have hrun₂ : Exec Project1.step σ₁ ((tr ++ tr') ++ [(σ', .tick)]) σ'.ticked :=
        (hrun.append hrun').snoc hstep
      have hu₂ : ∀ e ∈ (tr ++ tr') ++ [(σ', Act.tick)], UnblockOk e.1 e.2 := by
        intro e he
        rcases List.mem_append.1 he with he | he
        · rcases List.mem_append.1 he with he | he
          · exact hu e he
          · intro u hunblock
            rw [hexec e he] at hunblock
            cases hunblock
        · rw [List.mem_singleton.1 he]
          intro u hunblock
          cases hunblock
      have hcount : ticksIn ((tr ++ tr') ++ [(σ', Act.tick)]) = m + 1 := by
        have happend : ticksIn (tr ++ tr') = ticksIn tr + ticksIn tr' := List.countP_append
        rw [ticksIn_snoc, happend, hticks, hticks']
        rfl
      obtain ⟨hasleep₂, hbelow⟩ := hnext (hkept _ _ hrun₂ hu₂ (by rw [hcount]; exact hm))
      exact ⟨_, _, hrun₂, hu₂, hcount, hasleep₂, fun _ => hbelow⟩

end Run

/-! ## The result -/

section Result

variable {idle : ThreadPtr} {σ σ₁ : System} {tr : List (System × Act)} {freq n : Int} {c : SleepCall}

/-- What holds in every run. -/
structure Sound (σ : System) : Prop where
  settled : Settled σ
  live : Live σ
  ticks : InInt64 σ.kernel.ticks

theorem sound_of_exec (h : Exec Project1.step (boot idle) tr σ)
    (hu : ∀ e ∈ tr, UnblockOk e.1 e.2) : Sound σ := by
  have hboot : Sound (boot idle) := by
    have hzero : InInt64 0 := ⟨by decide, by decide⟩
    exact ⟨boot_settled idle, boot_live idle, hzero⟩
  refine (h.invariant hboot ?_ hu).2
  intro σ a σ' hsound hu hs
  refine ⟨hsound.settled.step hu hs, hsound.live.step hsound.settled hu hs, ?_⟩
  rw [(hsound.settled.step_frame hs).ticks]
  split
  · exact toInt64_inInt64 _
  · exact hsound.ticks

theorem step_timerSleep (hon : σ.pending σ.kernel.running = none)
    (hown : σ.pc σ.kernel.running = .own) :
    Project1.step (.timerSleep n) σ =
      some (σ.goto (.sleepUntil (toInt64 (σ.kernel.ticks + n)))) := by
  refine step_iff.2 (Or.inr ⟨hon, ?_, rfl⟩)
  rw [hown]
  rfl

/-- The tick counts below the requested one are below the deadline of a call that keeps its caller
asleep. -/
theorem NotCutShort.below (h : NotCutShort freq c σ) (hsound : Sound σ)
    (hon : σ.pending σ.kernel.running = none) (hown : σ.pc σ.kernel.running = .own)
    (hcall : c.timerSleep freq = some n) {m : Nat} (hm : 1 ≤ m) (hmr : (m : Int) < c.requested freq) :
    toInt64 (σ.kernel.ticks + m) < toInt64 (σ.kernel.ticks + n) := by
  let d := toInt64 (σ.kernel.ticks + n)
  let σ₁ := σ.goto (.sleepUntil d)
  have hstep : Project1.step (.timerSleep n) σ = some σ₁ := step_timerSleep hon hown
  have hu₁ : UnblockOk σ (.timerSleep n) := fun _ ha => by cases ha
  have hset := hsound.settled.step hu₁ hstep
  have hlive := hsound.live.step hsound.settled hu₁ hstep
  have hpc : σ₁.pc σ₁.kernel.running = .sleepUntil d := update_self _ _ _
  obtain ⟨σ₂, hexec⟩ := hlive.falls_asleep hset hon hpc
  have hu₂ : UnblockOk σ₁ .exec := fun _ ha => by cases ha
  obtain ⟨hmem, hdeadline⟩ := hset.step_fallsAsleep hpc ⟨rfl, hon, d, hpc⟩ hexec
  have hasleep : Asleep σ.kernel.running d σ.kernel.ticks 0 σ₂ := by
    refine ⟨hset.step hu₂ hexec, hlive.step hset hu₂ hexec, hmem, hdeadline, ?_⟩
    rw [(hset.step_frame hexec).ticks, if_neg (by simp)]
    exact ((congrArg toInt64 (Int.add_zero _)).trans (toInt64_eq hsound.ticks)).symm
  have hkept : ∀ tr σ₃, Exec Project1.step σ₂ tr σ₃ → (∀ e ∈ tr, UnblockOk e.1 e.2) →
      (ticksIn tr : Int) < c.requested freq → σ₃.InSleep σ.kernel.running := by
    intro tr σ₃ hrun hu hr
    refine h σ₁ ?_ ((σ₁, .exec) :: tr) σ₃ (.cons hexec hrun) ?_ ?_
    · rw [SleepCall.enter, hcall]
      exact hstep
    · intro e he
      rcases List.mem_cons.1 he with rfl | he
      · exact hu₂
      · exact hu e he
    · simpa [ticksIn] using hr
  obtain ⟨-, -, -, -, -, -, hbelow⟩ := hasleep.below hkept m hmr
  exact hbelow hm

end Result

/-- A call for at least one tick is not cut short exactly if the product fits into 64 bits and so
does the deadline, or the tick count is the last one before it wraps around itself. -/
theorem sleep_not_cut_short_iff {idle : ThreadPtr} {tr : List (System × Act)} {σ : System}
    (h : Exec step (boot idle) tr σ) (hu : ∀ e ∈ tr, UnblockOk e.1 e.2)
    (hon : σ.pending σ.kernel.running = none) (hown : σ.pc σ.kernel.running = .own) {freq : Int}
    {c : SleepCall} (harg : InInt64 c.arg) (hr : 1 ≤ c.requested freq) :
    NotCutShort freq c σ ↔ c.product freq < 2 ^ 63 ∧
      (σ.kernel.ticks + c.requested freq < 2 ^ 63 ∨ σ.kernel.ticks = 2 ^ 63 - 1) := by
  have hsound := sound_of_exec h hu
  constructor
  · intro hkept
    cases hcall : c.timerSleep freq with
    | none =>
        -- the thread waits in a loop and does not sleep
        have henter : c.enter freq σ = some σ := by rw [SleepCall.enter, hcall]
        rcases hkept σ henter [] σ .nil nofun (Int.lt_of_lt_of_le Int.zero_lt_one hr) with ⟨d, hpc⟩ | hmem
        · rw [hown] at hpc
          cases hpc
        · exact absurd hmem (hsound.settled.places.not_sleep (by simp [hsound.settled.running]))
    | some n =>
        have hfits : c.product freq < 2 ^ 63 := by
          by_contra hwraps
          obtain ⟨hn, hnr⟩ := SleepCall.timerSleep_of_wraps harg (not_lt.1 hwraps) hcall
          have hcast : (n.toNat : Int) = n := Int.toNat_of_nonneg (by omega)
          have hlt := hkept.below hsound hon hown hcall (m := n.toNat) (by omega) (by omega)
          rw [hcast] at hlt
          exact lt_irrefl _ hlt
        obtain ⟨hexact, hsmall⟩ := SleepCall.timerSleep_of_fits hr hfits
        refine ⟨hfits, ?_⟩
        by_contra hno
        obtain ⟨hwraps, hmax⟩ := not_or.1 hno
        obtain ⟨hone, hle⟩ := deadline_le_next hsound.ticks hsmall (not_lt.1 hwraps) hmax
        exact absurd (hkept.below hsound hon hown hexact le_rfl hone) (not_lt.2 hle)
  · rintro ⟨hfits, hdeadline⟩ σ₁ henter tr' σ₂ hrun hu' hticks
    obtain ⟨hexact, hsmall⟩ := SleepCall.timerSleep_of_fits hr hfits
    rw [SleepCall.enter, hexact] at henter
    have hstep : step (.timerSleep (c.requested freq)) σ = some σ₁ := henter
    have hset := hsound.settled.step (fun _ ha => by cases ha) hstep
    rw [step_timerSleep hon hown] at hstep
    cases hstep
    have hdoze : Dozing σ.kernel.running (toInt64 (σ.kernel.ticks + c.requested freq))
        (σ.goto (.sleepUntil (toInt64 (σ.kernel.ticks + c.requested freq)))) :=
      Or.inl (update_self _ _ _)
    exact (hdoze.run hset (toInt64_eq hsound.ticks).symm
      (fun m hm hmr => toInt64_lt_deadline hsound.ticks hsmall hdeadline hm hmr) hrun hu'
      hticks).inSleep

/-- The system has come up, and the initial thread runs at tick 1. -/
def upActs : List Act := napActs.take 8 ++ [.tick]

def upSystem : System := (runAll step upActs (boot 1)).get (by decide +kernel)

theorem up_exec : Exec step (boot 1) (trace step upActs (boot 1)) upSystem :=
  Exec.of_runAll (Option.some_get _).symm

theorem up_unblockOk : ∀ e ∈ trace step upActs (boot 1), UnblockOk e.1 e.2 := by
  have huse : ∀ e ∈ trace step upActs (boot 1), AlarmUse e.1 e.2 := by decide +kernel
  exact fun e he => (huse e he).1

/-- `timer_msleep (1000)` with 100 ticks a second. -/
theorem sleep_not_cut_short_second :
    NotCutShort 100 (.msleep 1000) upSystem ↔ (SleepCall.msleep 1000).product 100 < 2 ^ 63 ∧
      (upSystem.kernel.ticks + (SleepCall.msleep 1000).requested 100 < 2 ^ 63 ∨
        upSystem.kernel.ticks = 2 ^ 63 - 1) :=
  sleep_not_cut_short_iff up_exec up_unblockOk (by decide +kernel) (by decide +kernel)
    ⟨by decide, by decide⟩ (by decide)

/-- `timer_sleep (INT64_MAX)` at tick 1 comes back with the next timer interrupt. -/
theorem sleep_cut_short :
    ∃ tr σ, Exec step (boot 1) tr σ ∧ (∀ e ∈ tr, UnblockOk e.1 e.2) ∧
      σ.pending σ.kernel.running = none ∧ σ.pc σ.kernel.running = .own ∧ σ.kernel.ticks = 1 ∧
      ¬ NotCutShort 100 (.sleep (2 ^ 63 - 1)) σ := by
  refine ⟨_, _, up_exec, up_unblockOk, by decide +kernel, by decide +kernel, by decide +kernel, ?_⟩
  intro h
  let acts : List Act := [.exec, .tick]
  let σ₁ := (step (.timerSleep (2 ^ 63 - 1)) upSystem).get (by decide +kernel)
  let σ₂ := (runAll step acts σ₁).get (by decide +kernel)
  have hrun : Exec step σ₁ (trace step acts σ₁) σ₂ := Exec.of_runAll (Option.some_get _).symm
  have hpc : σ₂.pc upSystem.kernel.running = .asleep := by decide +kernel
  have hout : upSystem.kernel.running ∉ σ₂.kernel.sleepingList := by decide +kernel
  have huse : ∀ e ∈ trace step acts σ₁, AlarmUse e.1 e.2 := by decide +kernel
  rcases h σ₁ (Option.some_get _).symm _ σ₂ hrun (fun e he => (huse e he).1)
    (by decide +kernel) with ⟨d, hd⟩ | hmem
  · rw [hpc] at hd
    cases hd
  · exact hout hmem

end Project1
end Pintos
