import Pintos.Project2.TimeSlice
import Pintos.Lib.AlarmClock
import Pintos.Lib.Simulation

/-!
# AlarmClock — `timer_sleep` under priority scheduling

The sleeping list of project 2 is an alarm clock: what each thread is doing in `timer_sleep`, read
off the kernel and the thread's code, is at every moment what `Lib.AlarmClock` computes from the
thread's own steps and the timer interrupts.  Together with the time slice this bounds the moment
at which a sleeper of high priority gets the processor.
-/

namespace Pintos
namespace Project2

open Lib Function

/-! ## Reading the alarm clock off the kernel -/

/-- Frames of `timer_sleep`. -/
def Frame.isSleep : Frame → Bool
  | .timerSleep _ | .sleepUntil _ | .sleepReturn => true
  | _ => false

/-- What `t` is doing in `timer_sleep`. -/
def System.nap (σ : System) (t : ThreadPtr) : Nap :=
  match σ.code t with
  | .sleepUntil d :: _ => .due d
  | .sleepReturn :: _ =>
      if t ∈ σ.kernel.sleepingList then .asleep (σ.kernel.sleepingTicks t)
      else .woken (σ.kernel.sleepingTicks t)
  | _ => .up

def System.alarm (σ : System) : AlarmClock ThreadPtr := ⟨σ.kernel.ticks, σ.nap⟩

/-- What a step does to the alarm clock. -/
def alarmEvent (σ : System) : Act → Option (AlarmEvent ThreadPtr)
  | .tick => some .tick
  | .exec =>
      match σ.code σ.kernel.running with
      | .timerSleep n :: _ => some (.set σ.kernel.running n)
      | .sleepUntil _ :: _ => some (.lie σ.kernel.running)
      | .sleepReturn :: _ => some (.getUp σ.kernel.running)
      | _ => none
  | _ => none

/-- What a step adds to `ticks`, in `ticks++` and in `start + ticks`. -/
def ticksAdded (σ : System) (a : Act) : Option Int :=
  match alarmEvent σ a with
  | some .tick => some 1
  | some (.set _ n) => some n
  | _ => none

/-- Bare `thread_unblock`s are for threads in a bare `thread_block`, and neither the tick counter
nor a time to sleep until overflows. -/
def AlarmUse (σ : System) (a : Act) : Prop :=
  UnblockOk σ a ∧
    ∀ n ∈ ticksAdded σ a, -2 ^ 63 ≤ σ.kernel.ticks + n ∧ σ.kernel.ticks + n < 2 ^ 63

instance instDecidableAlarmUse (σ : System) (a : Act) : Decidable (AlarmUse σ a) :=
  inferInstanceAs (Decidable (_ ∧ ∀ n ∈ _, _))

/-- The frames of `timer_sleep` are all of a thread's code. -/
def SleepAlone (code : ThreadPtr → List Frame) : Prop :=
  ∀ t, ∀ f ∈ code t, f.isSleep = true → code t = [f]

section Frames

variable {cfg : Config} {k k' : Kernel} {f : Frame} {o : Outcome}

/-- Only `timer_sleep` goes on inside `timer_sleep`. -/
theorem runFrame_awake (h : runFrame cfg k f = .ok o) (hf : f.isSleep = false) :
    ∀ g ∈ o.push, g.isSleep = false := by
  cases f with
  | down s after =>
      rcases bind_eq_ok.1 h with ⟨⟨k₁, got⟩, -, h⟩
      cases h
      cases got <;> cases after <;>
        simp [downOutcome, AfterDown.finish, Kernel.andThen, Kernel.done, Frame.isSleep]
  | downLoop s after =>
      rcases bind_eq_ok.1 h with ⟨⟨k₁, got⟩, -, h⟩
      cases h
      cases got <;> cases after <;>
        simp [downOutcome, AfterDown.finish, Kernel.andThen, Kernel.done, Frame.isSleep]
  | lockAcquire l =>
      rcases bind_eq_ok.1 h with ⟨⟨k₁, got⟩, -, h⟩
      cases got <;> cases h <;> simp [Kernel.andThen, Frame.isSleep]
  | lockTryAcquire l =>
      rcases bind_eq_ok.1 h with ⟨⟨k₁, success⟩, -, h⟩
      cases h
      simp
  | tryDown l =>
      cases h
      cases hs : (semaTryDown k (.ofLock l)).2 <;> simp [Kernel.andThen, Frame.isSleep]
  | acquireEntry l =>
      simp only [runFrame, assert_bind_eq_ok] at h
      cases h.2.2
      simp [Kernel.andThen, Frame.isSleep]
  | tryEntry l | releaseEntry l =>
      simp only [runFrame, assert_bind_eq_ok] at h
      cases h.2
      simp [Kernel.andThen, Frame.isSleep]
  | stmt st =>
      rcases bind_eq_ok.1 h with ⟨⟨k₁, next⟩, -, h⟩
      cases h
      intro g hg
      obtain ⟨st', -, rfl⟩ := List.mem_map.1 hg
      rfl
  | condBroadcast c l =>
      simp only [runFrame] at h
      split at h
      · cases h
        simp [Kernel.done]
      · rcases bind_eq_ok.1 h with ⟨_, -, h⟩
        cases h
        simp [Kernel.andThen, Frame.isSleep]
  | timerSleep n | sleepUntil n | sleepReturn => cases hf
  | semaTryDown s | condReturn c l | blockReturn | setIdle =>
      cases h
      simp [Kernel.done, Kernel.andThen, Frame.isSleep]
  | takeTid t p =>
      cases h
      cases hg : cfg.grain <;> simp [Kernel.andThen, Frame.isSleep, releaseFrame]
  | threadCreate t p | threadStart t =>
      rcases bind_eq_ok.1 h with ⟨_, -, h⟩
      cases h
      cases hg : cfg.grain <;> simp [Kernel.andThen, Frame.isSleep, acquireFrame]
  | _ =>
      rcases bind_eq_ok.1 h with ⟨_, -, h⟩
      cases h
      simp [Kernel.done, Kernel.andThen, Frame.isSleep]

theorem opFrames_sleep (g : Grain) (cur : ThreadPtr) (o : Op) :
    ∀ f ∈ o.frames g cur, f.isSleep = true → o.frames g cur = [f] := by
  cases o <;> cases g <;>
    simp [Op.frames, acquireFrame, tryFrame, releaseFrame, Frame.isSleep]

theorem runFrame_sleepers (h : runFrame cfg k f = .ok o) (hf : f.isSleep = false) :
    o.kernel.sleepingList = k.sleepingList ∧
      ∀ t, (∀ prog, f.spawns ≠ some (t, prog)) → o.kernel.sleepingTicks t = k.sleepingTicks t := by
  cases f with
  | threadCreate u p | threadStart u =>
      rcases bind_eq_ok.1 h with ⟨k₁, hd, h⟩
      cases h
      rcases threadCreate_eq_ok.1 hd with ⟨-, -, rfl⟩
      refine ⟨rfl, fun t ht => update_of_ne ?_ _ _⟩
      rintro rfl
      exact ht _ rfl
  | timerSleep n | sleepUntil n | sleepReturn => cases hf
  | down s after | downLoop s after =>
      have hw := (runFrame_unwritten h).sleeping
        (by cases after <;> simp [Frame.writes, AfterDown.writes])
      exact ⟨hw.2, fun t _ => by rw [hw.1]⟩
  | _ =>
      have hw := (runFrame_unwritten h).sleeping (by simp [Frame.writes])
      exact ⟨hw.2, fun t _ => by rw [hw.1]⟩

theorem awakeLoop_sleepers {now : Int} {ts : List ThreadPtr} (hts : ts.Nodup)
    (hk : k.sleepingList.Nodup) (h : awakeLoop now ts k = .ok k') (t : ThreadPtr) :
    t ∈ k'.sleepingList ↔ t ∈ k.sleepingList ∧ ¬ (t ∈ ts ∧ k.sleepingTicks t ≤ now) := by
  induction ts generalizing k with
  | nil =>
      cases h
      simp
  | cons u us ih =>
      obtain ⟨hu, hus⟩ := List.nodup_cons.1 hts
      unfold awakeLoop at h
      split at h
      · rename_i hle
        rcases bind_eq_ok.1 h with ⟨k₁, hub, h⟩
        rcases threadUnblock_eq_ok.1 hub with ⟨-, rfl⟩
        have hrest := ih hus (hk.erase u) h
        rw [hrest]
        show (t ∈ k.sleepingList.erase u ∧ _) ↔ _
        rw [hk.mem_erase_iff]
        by_cases htu : t = u
        · subst htu
          simp [hle]
        · simp [htu, Kernel.madeReady]
      · rename_i hlt
        rw [ih hus hk h]
        by_cases htu : t = u
        · subst htu
          simp [hlt]
        · simp [htu]

/-- The timer interrupt takes the threads off the sleeping list whose time has come. -/
theorem timerInterrupt_sleepers (hk : k.sleepingList.Nodup) (h : timerInterrupt k = .ok k') :
    k'.ticks = k.now ∧ k'.sleepingTicks = k.sleepingTicks ∧
      ∀ t, t ∈ k'.sleepingList ↔ t ∈ k.sleepingList ∧ k.now < k.sleepingTicks t := by
  rcases timerInterrupt_eq_ok.1 h with ⟨k₁, ha, hy⟩
  have hmem := awakeLoop_sleepers hk (by exact hk) ha
  rcases awakeLoop_footprint ha with ⟨_, _, _, rfl⟩
  have hsame : k'.ticks = k.now ∧ k'.sleepingTicks = k.sleepingTicks ∧
      ∀ t, t ∈ k'.sleepingList ↔ t ∈ k.sleepingList ∧
        ¬ (t ∈ k.sleepingList ∧ k.sleepingTicks t ≤ k.now) := by
    rcases hy with ⟨-, hy⟩ | ⟨-, rfl⟩
    · rcases threadYield_footprint hy with ⟨_, _, _, _, rfl⟩
      exact ⟨rfl, rfl, hmem⟩
    · exact ⟨rfl, rfl, hmem⟩
  refine ⟨hsame.1, hsame.2.1, fun t => ?_⟩
  rw [hsame.2.2]
  constructor
  · rintro ⟨ht, hnot⟩
    exact ⟨ht, not_le.1 fun hle => hnot ⟨ht, hle⟩⟩
  · rintro ⟨ht, hlt⟩
    exact ⟨ht, fun h => not_lt.2 h.2 hlt⟩

end Frames

/-! ## Every step follows the clock -/

section Steps

variable {cfg : Config} {σ σ' : System} {a : Act} {t : ThreadPtr}

theorem nap_congr (hc : σ'.code t = σ.code t)
    (hl : t ∈ σ'.kernel.sleepingList ↔ t ∈ σ.kernel.sleepingList)
    (ht : σ'.kernel.sleepingTicks t = σ.kernel.sleepingTicks t) : σ'.nap t = σ.nap t := by
  simp only [System.nap, hc, hl, ht]

theorem nap_up (h : ∀ f ∈ (σ.code t).head?, f.isSleep = false) : σ.nap t = .up := by
  unfold System.nap
  cases hc : σ.code t with
  | nil =>
      rfl
  | cons f rest =>
      have hf := h f (by simp [hc])
      cases f with
      | sleepUntil d | sleepReturn => cases hf
      | _ => rfl

/-- The alarm clock as the new code and the new list of sleepers show it. -/
theorem alarm_eq {c : AlarmClock ThreadPtr} (hnow : c.now = σ.kernel.ticks)
    (hnap : ∀ t, c.nap t = σ.nap t) : c = σ.alarm := by
  cases c with
  | mk now nap =>
      simp only at hnow hnap
      rw [hnow, funext hnap]
      rfl

/-- Below a frame that is not of `timer_sleep` there is none. -/
theorem SleepAlone.rest (h : SleepAlone σ.code) {f : Frame} {rest : List Frame}
    (hc : σ.code t = f :: rest) {g : Frame} (hg : g ∈ rest) : g.isSleep = false := by
  by_contra hsleep
  have hone := h t g (by simp [hc, hg]) (by simpa using hsleep)
  rw [hc] at hone
  obtain ⟨-, hnil⟩ := List.cons_eq_cons.1 hone
  rw [hnil] at hg
  cases hg

theorem SleepAlone.nil (h : SleepAlone σ.code) {f : Frame} {rest : List Frame}
    (hc : σ.code t = f :: rest) (hf : f.isSleep = true) : rest = [] := by
  have hone := h t f (by simp [hc]) hf
  rw [hc] at hone
  exact (List.cons_eq_cons.1 hone).2

/-- How `timer_sleep` goes on. -/
theorem runFrame_sleep {f : Frame} {o : Outcome} {k : Kernel} (h : runFrame cfg k f = .ok o)
    (hf : f.isSleep = true) : o.push = [] ∨ ∃ g, o.push = [g] := by
  cases f with
  | timerSleep n =>
      cases h
      exact Or.inr ⟨_, rfl⟩
  | sleepUntil d =>
      rcases bind_eq_ok.1 h with ⟨_, -, h⟩
      cases h
      exact Or.inr ⟨_, rfl⟩
  | sleepReturn =>
      cases h
      exact Or.inl rfl
  | _ => cases hf

theorem SleepAlone.step (h : SleepAlone σ.code) (hset : Settled σ)
    (hs : Project2.step cfg a σ = some σ') : SleepAlone σ'.code := by
  cases a with
  | call op =>
      rcases step_call_iff.1 hs with ⟨-, rfl⟩
      intro t f hf hsleep
      by_cases ht : t = σ.kernel.running
      · subst ht
        simp only [update_self] at hf ⊢
        exact opFrames_sleep _ _ op f hf hsleep
      · simp only [update_of_ne ht] at hf ⊢
        exact h t f hf hsleep
  | exec =>
      rcases step_exec_iff.1 hs with ⟨f, rest, o, hc, hr, rfl⟩
      intro t g hg hsleep
      rcases code_after hset.live rest hr t with ⟨-, he⟩ | ⟨-, prog, -, -, he, hprog⟩ | ⟨-, he⟩
      · have hg' : g ∈ o.push ++ rest := he ▸ hg
        refine he.trans ?_
        cases hf : f.isSleep with
        | false =>
            rcases List.mem_append.1 hg' with hg' | hg'
            · simp [runFrame_awake hr hf g hg'] at hsleep
            · simp [h.rest hc hg'] at hsleep
        | true =>
            rw [h.nil hc hf, List.append_nil] at hg' ⊢
            rcases runFrame_sleep hr hf with hnil | ⟨g', hone⟩
            · rw [hnil] at hg'
              cases hg'
            · rw [hone] at hg' ⊢
              rw [List.mem_singleton.1 hg']
      · have hg' : g ∈ prog := he ▸ hg
        rcases hprog with rfl | ⟨rfl, -⟩
        · cases hg'
        · rw [List.mem_singleton.1 hg'] at hsleep
          cases hsleep
      · exact he.trans (h t g (he ▸ hg) hsleep)
  | tick =>
      rcases step_tick_iff.1 hs with ⟨-, k, -, rfl⟩
      exact h
  | preempt u =>
      rcases step_preempt_iff.1 hs with ⟨-, rfl⟩
      exact h

/-- A frame that is not of `timer_sleep` leaves the alarm clock alone. -/
theorem exec_alarm_same (hset : Settled σ) (halone : SleepAlone σ.code) {f : Frame}
    {rest : List Frame} {o : Outcome} (hc : σ.code σ.kernel.running = f :: rest)
    (hr : runFrame cfg σ.kernel f = .ok o) (hf : f.isSleep = false) :
    (σ.after f rest o).alarm = σ.alarm := by
  obtain ⟨hlist, hticks⟩ := runFrame_sleepers hr hf
  refine (alarm_eq ?_ fun t => ?_).symm
  · exact (runFrame_unwritten hr).ticks.symm
  rcases code_after hset.live rest hr t with ⟨rfl, he⟩ | ⟨hne, prog, hsp, hold, he, hprog⟩ | ⟨hne, he⟩
  · show σ.nap _ = _
    rw [nap_up (by simpa [hc] using hf), nap_up fun g hg => ?_]
    have hg' : g ∈ o.push ++ rest := List.mem_of_head? (he ▸ hg)
    rcases List.mem_append.1 hg' with hg' | hg'
    · exact runFrame_awake hr hf g hg'
    · exact halone.rest hc hg'
  · show σ.nap _ = _
    rw [nap_up (by simp [hold]), nap_up fun g hg => ?_]
    have hg' : g ∈ prog := List.mem_of_head? (he ▸ hg)
    rcases hprog with rfl | ⟨rfl, -⟩
    · cases hg'
    · rw [List.mem_singleton.1 hg']
      rfl
  · by_cases hsp : ∃ prog, f.spawns = some (t, prog)
    · obtain ⟨prog, hsp⟩ := hsp
      have hdead := (hset.live.placed t).dead.1 (runFrame_spawns hr hsp).1
      have hold := (hset.live.placed t).dead_code hdead
      show σ.nap _ = _
      rw [nap_up (by simp [hold]), nap_up fun g hg => ?_]
      have hg' : g ∈ σ.code t := List.mem_of_head? (he ▸ hg)
      rw [hold] at hg'
      cases hg'
    · refine (nap_congr he (by rw [← hlist]; exact Iff.rfl) ?_).symm
      exact hticks t fun prog hp => hsp ⟨prog, hp⟩

/-- The frames of `timer_sleep` take the steps of the clock. -/
theorem exec_alarm (hset : Settled σ) (halone : SleepAlone σ.code) (ha : AlarmUse σ .exec)
    {f : Frame} {rest : List Frame} {o : Outcome} (hc : σ.code σ.kernel.running = f :: rest)
    (hr : runFrame cfg σ.kernel f = .ok o) :
    Follows AlarmClock.step σ.alarm (alarmEvent σ .exec) (σ.after f rest o).alarm := by
  cases hf : f.isSleep with
  | false =>
      have hnone : alarmEvent σ .exec = none := by
        simp only [alarmEvent, hc]
        cases f with
        | timerSleep n | sleepUntil d | sleepReturn => cases hf
        | _ => rfl
      rw [hnone]
      exact exec_alarm_same hset halone hc hr hf
  | true =>
      have hnil := halone.nil hc hf
      have hother : ∀ t, t ≠ σ.kernel.running → f.spawns = none →
          (σ.after f rest o).code t = σ.code t := by
        intro t ht hsp
        simp [System.after, spawnCode, hsp, ht]
      cases f with
      | timerSleep n =>
          cases hr
          have hevent : alarmEvent σ .exec = some (.set σ.kernel.running n) := by
            simp only [alarmEvent, hc]
          have hd := toInt64_eq (ha.2 n (by simp [ticksAdded, hevent]))
          have hup : σ.alarm.nap σ.kernel.running = .up := by
            show σ.nap _ = _
            simp only [System.nap, hc]
          rw [hevent]
          simp only [Follows, AlarmClock.step, hup]
          refine congrArg some (alarm_eq rfl fun t => ?_)
          by_cases ht : t = σ.kernel.running
          · subst ht
            simp [System.nap, System.after, Kernel.andThen, hd, System.alarm]
          · simp only [update_of_ne ht]
            exact (nap_congr (hother t ht rfl) Iff.rfl rfl).symm
      | sleepUntil d =>
          rcases bind_eq_ok.1 hr with ⟨k₁, hb, hr⟩
          cases hr
          have hevent : alarmEvent σ .exec = some (.lie σ.kernel.running) := by
            simp only [alarmEvent, hc]
          have hdue : σ.alarm.nap σ.kernel.running = .due d := by
            show σ.nap _ = _
            simp only [System.nap, hc]
          rw [hevent]
          simp only [Follows, AlarmClock.step, hdue]
          rcases threadBlock_footprint hb with ⟨_, _, _, _, rfl⟩
          refine congrArg some (alarm_eq rfl fun t => ?_)
          by_cases ht : t = σ.kernel.running
          · subst ht
            simp [System.nap, System.after, Kernel.andThen, threadToSleep]
          · simp only [update_of_ne ht]
            refine (nap_congr (hother t ht rfl) ?_ ?_).symm <;>
              simp [System.after, Kernel.andThen, threadToSleep, ht]
      | sleepReturn =>
          cases hr
          have hevent : alarmEvent σ .exec = some (.getUp σ.kernel.running) := by
            simp only [alarmEvent, hc]
          have hout : σ.kernel.running ∉ σ.kernel.sleepingList :=
            hset.live.not_sleep_of_status (by simp [hset.live.status_running])
          have hwoken : σ.alarm.nap σ.kernel.running =
              .woken (σ.kernel.sleepingTicks σ.kernel.running) := by
            show σ.nap _ = _
            simp only [System.nap, hc, if_neg hout]
          rw [hevent]
          simp only [Follows, AlarmClock.step, hwoken]
          refine congrArg some (alarm_eq rfl fun t => ?_)
          by_cases ht : t = σ.kernel.running
          · subst ht
            simp [System.nap, System.after, Kernel.done, hnil]
          · simp only [update_of_ne ht]
            exact (nap_congr (hother t ht rfl) Iff.rfl rfl).symm
      | _ => cases hf

theorem step_alarm (hset : Settled σ) (halone : SleepAlone σ.code) (ha : AlarmUse σ a)
    (hs : step cfg a σ = some σ') :
    Follows AlarmClock.step σ.alarm (alarmEvent σ a) σ'.alarm := by
  cases a with
  | call op =>
      rcases step_call_iff.1 hs with ⟨hc, rfl⟩
      refine (alarm_eq rfl fun t => ?_).symm
      by_cases ht : t = σ.kernel.running
      · subst ht
        show σ.nap _ = _
        rw [nap_up (by simp [hc])]
        cases op <;> cases cfg.grain <;>
          simp [System.nap, Op.frames, acquireFrame, tryFrame, releaseFrame]
      · have hcode : update σ.code σ.kernel.running (op.frames cfg.grain σ.kernel.running) t =
            σ.code t := update_of_ne ht _ _
        exact (@nap_congr σ { σ with code := update σ.code σ.kernel.running _ } t hcode
          Iff.rfl rfl).symm
  | exec =>
      rcases step_exec_iff.1 hs with ⟨f, rest, o, hc, hr, rfl⟩
      exact exec_alarm hset halone ha hc hr
  | tick =>
      rcases step_tick_iff.1 hs with ⟨-, k, ht, rfl⟩
      obtain ⟨hnow, hticks, hlist⟩ := timerInterrupt_sleepers hset.live.sleep_nodup ht
      have htick : σ.kernel.now = σ.kernel.ticks + 1 := toInt64_eq (ha.2 1 rfl)
      rw [htick] at hnow hlist
      refine congrArg some (alarm_eq hnow.symm fun t => ?_)
      show (σ.nap t).ring (σ.kernel.ticks + 1) = _
      simp only [System.nap, hticks, hlist]
      cases σ.code t with
      | nil =>
          rfl
      | cons f rest =>
          cases f with
          | sleepReturn =>
              by_cases hmem : t ∈ σ.kernel.sleepingList
              · by_cases hle : σ.kernel.sleepingTicks t ≤ σ.kernel.ticks + 1
                · simp [hmem, hle, not_lt.2 hle, Nap.ring]
                · simp [hmem, hle, not_le.1 hle, Nap.ring]
              · simp [hmem, Nap.ring]
          | _ => rfl
  | preempt u =>
      rcases step_preempt_iff.1 hs with ⟨-, rfl⟩
      exact (alarm_eq rfl fun t => (nap_congr rfl Iff.rfl rfl).symm).symm

end Steps

/-! ## Runs -/

/-- What holds of the alarm clock between two steps. -/
structure Rings (σ : System) (c : AlarmClock ThreadPtr) : Prop where
  settled : Settled σ
  alone : SleepAlone σ.code
  alarm : c = σ.alarm

section Runs

variable {cfg : Config} {init : Nat → Fin unsignedSize} {idle t : ThreadPtr} {σ σ' s₀ : System}
  {a : Act} {tr : List (System × Act)} {d : Int}

theorem boot_rings (init : Nat → Fin unsignedSize) (idle : ThreadPtr) :
    Rings (boot init idle) ⟨0, fun _ => .up⟩ := by
  have hcode : ∀ t, ∀ f ∈ (boot init idle).code t, f = .threadStart idle := by
    intro t f hf
    simp only [boot] at hf
    split at hf
    · exact List.mem_singleton.1 hf
    · cases hf
  refine ⟨boot_settled init idle, fun t f hf hsleep => ?_, alarm_eq rfl fun t => (nap_up ?_).symm⟩
  · rw [hcode t f hf] at hsleep
    cases hsleep
  · intro f hf
    rw [hcode t f (List.mem_of_head? hf)]
    rfl

theorem simulates_alarm :
    Simulates (step cfg) AlarmUse alarmEvent AlarmClock.step Rings := by
  rintro σ a σ' c ⟨hset, halone, rfl⟩ ha hs
  exact ⟨σ'.alarm, step_alarm hset halone ha hs, hset.step ha.1 hs, halone.step hset hs, rfl⟩

/-- The threads on the sleeping list are those that the clock has asleep. -/
theorem Settled.asleep_iff (h : Settled σ) :
    σ.nap t = .asleep d ↔ t ∈ σ.kernel.sleepingList ∧ σ.kernel.sleepingTicks t = d := by
  constructor
  · intro hn
    unfold System.nap at hn
    split at hn
    · cases hn
    · split at hn
      · rename_i hmem
        exact ⟨hmem, Nap.asleep.inj hn⟩
      · cases hn
    · cases hn
  · rintro ⟨hmem, rfl⟩
    obtain ⟨rest, hc⟩ := List.head?_eq_some_iff.1 (h.live.sleep hmem).2
    simp only [System.nap, hc, if_pos hmem]

/-- A woken thread is ready or runs. -/
theorem Settled.of_woken (h : Settled σ) (hn : σ.nap t = .woken d) :
    t ∈ σ.kernel.readyList ∨ t = σ.kernel.running := by
  have hhead : (σ.code t).head? = some .sleepReturn ∧ t ∉ σ.kernel.sleepingList := by
    unfold System.nap at hn
    split at hn
    · cases hn
    · rename_i hc
      split at hn
      · cases hn
      · rename_i hnot
        exact ⟨by rw [hc]; rfl, hnot⟩
    · cases hn
  have hidle : σ.kernel.idleThread ≠ some t := by
    intro hi
    rcases h.live.idle_head hi with hf | hf <;> simp [hhead.1] at hf
  cases hst : σ.kernel.status t with
  | running => exact Or.inr (Option.some.inj ((h.live.placed t).runs.1 hst)).symm
  | ready => exact Or.inl ((h.live.placed t).ready.2 ⟨hst, hidle⟩)
  | blocked =>
      cases (h.live.placed t).blocked hst with
      | sleeping hf hs => exact absurd hs hhead.2
      | waiting s a hf hw =>
          rw [hhead.1] at hf
          cases hf
      | bare hf =>
          rw [hhead.1] at hf
          cases hf
      | idle hi => exact absurd hi hidle
      | embryo u hu => exact absurd hu (h.live.not_embryo_of_head hhead.1 (by simp) u)
  | dying =>
      have hc := (h.live.placed t).dead_code hst
      simp [hc] at hhead

/-- `timer_sleep` is an alarm clock: in every run in which `AlarmUse` holds, with donations, locks,
semaphores and condition variables in use and switches anywhere, what the threads and the timer
interrupt do to the clock is a run of the clock; exactly its sleepers are on the sleeping list,
blocked, until the tick that reaches their time makes them ready. -/
theorem alarm_clock_refines (hrun : Exec (step cfg) (boot init idle) tr σ)
    (ha : ∀ e ∈ tr, AlarmUse e.1 e.2) :
    runAll AlarmClock.step (events alarmEvent tr) ⟨0, fun _ => .up⟩ = some σ.alarm ∧
      ∀ t, (∀ d, σ.alarm.nap t = .asleep d ↔
          t ∈ σ.kernel.sleepingList ∧ σ.kernel.sleepingTicks t = d) ∧
        (t ∈ σ.kernel.sleepingList → σ.kernel.status t = .blocked ∧ t ∉ σ.kernel.readyList ∧
          t ≠ σ.kernel.running) ∧
        ∀ d, σ.alarm.nap t = .woken d →
          d ≤ σ.kernel.ticks ∧ (t ∈ σ.kernel.readyList ∨ t = σ.kernel.running) := by
  obtain ⟨c, hgo, hset, -, rfl⟩ := simulates_alarm.run (boot_rings init idle) hrun ha
  have hstart : (⟨0, fun _ => .up⟩ : AlarmClock ThreadPtr).Punctual := fun t d h => by cases h
  have hpunctual := hstart.run hgo
  refine ⟨hgo, fun t => ⟨fun d => hset.asleep_iff, fun hmem => ?_, fun d hn => ?_⟩⟩
  · have hst := (hset.live.sleep hmem).1
    refine ⟨hst, hset.live.not_ready_of_status (by simp [hst]), ?_⟩
    rintro rfl
    simp [hset.live.status_running] at hst
  · exact ⟨hpunctual t d hn, hset.of_woken hn⟩

/-- What a step does to a thread that is not the one that runs. -/
theorem step_sleeper (hset : Settled σ) (halone : SleepAlone σ.code) (ha : AlarmUse σ a)
    (hs : step cfg a σ = some σ') (ht : t ≠ σ.kernel.running) :
    (a = .tick ∧ σ'.kernel.ticks = σ.kernel.ticks + 1 ∧
        σ'.nap t = (σ.nap t).ring (σ.kernel.ticks + 1)) ∨
      (a ≠ .tick ∧ σ'.kernel.ticks = σ.kernel.ticks ∧ σ'.nap t = σ.nap t) := by
  have hfollow := step_alarm hset halone ha hs
  cases hev : alarmEvent σ a with
  | none =>
      rw [hev] at hfollow
      have hsame : σ'.alarm = σ.alarm := hfollow
      refine Or.inr ⟨?_, congrArg AlarmClock.now hsame,
        congrArg (fun c : AlarmClock ThreadPtr => c.nap t) hsame⟩
      rintro rfl
      cases hev
  | some e =>
      rw [hev] at hfollow
      have hstep : AlarmClock.step e σ.alarm = some σ'.alarm := hfollow
      have hclient : e = .tick ∧ a = .tick ∨ e.client = some σ.kernel.running ∧ a ≠ .tick := by
        cases a with
        | tick =>
            cases hev
            exact Or.inl ⟨rfl, rfl⟩
        | exec =>
            simp only [alarmEvent] at hev
            split at hev <;> cases hev <;> exact Or.inr ⟨rfl, by simp⟩
        | call op | preempt u => cases hev
      have hnow := AlarmClock.now_of_step hstep
      have hnap := @AlarmClock.nap_of_step _ _ _ _ t _ hstep
      rcases hclient with ⟨rfl, rfl⟩ | ⟨hc, hne⟩
      · exact Or.inl ⟨rfl, hnow, hnap (by simp [AlarmEvent.client])⟩
      · have htick : e ≠ .tick := by
          rintro rfl
          cases hc
        rw [if_neg htick] at hnow hnap
        exact Or.inr ⟨hne, hnow, hnap (by rw [hc]; simpa using Ne.symm ht)⟩

/-- A step of the code in which `timer_sleep` is used as in `AlarmUse`. -/
def TimedUse (σ : System) (a : Act) : Prop :=
  NoPreempt σ a ∧ AlarmUse σ a

instance instDecidableTimedUse (σ : System) (a : Act) : Decidable (TimedUse σ a) :=
  inferInstanceAs (Decidable (_ ∧ _))

/-- `t` sleeps until `d`, or it has been woken, at the latest by the tick that counts up to `w`, and
waits for the end of the time slice. -/
structure Awaits (t : ThreadPtr) (d w : Int) (σ : System) : Prop where
  settled : Settled σ
  alone : SleepAlone σ.code
  slice : σ.kernel.threadTicks < TIME_SLICE
  place : (σ.nap t = .asleep d ∧ σ.kernel.ticks < w) ∨
    (σ.nap t = .woken d ∧ d ≤ σ.kernel.ticks ∧ σ.kernel.ticks < w + TIME_SLICE ∧
      (¬ σ.kernel.TopRuns → σ.kernel.ticks + 1 ≤ w + σ.kernel.threadTicks))

theorem Awaits.step {w : Int} (h : Awaits t d w σ) (hd : d ≤ w) (ha : TimedUse σ a)
    (hs : Project2.step cfg a σ = some σ') (ht : t ≠ σ.kernel.running)
    (hhigh : t ∈ σ.kernel.readyList →
      σ.kernel.priority σ.kernel.running < σ.kernel.priority t) : Awaits t d w σ' := by
  have hlt := threadTicks_step ha.1 h.slice hs
  have hslice := step_slice ha.1 hs
  refine ⟨h.settled.step ha.2.1 hs, h.alone.step h.settled hs, hlt, ?_⟩
  rcases h.place with ⟨hn, hw⟩ | ⟨hn, hle, -, hcount⟩
  · rcases step_sleeper h.settled h.alone ha.2 hs ht with ⟨rfl, hnow, hnap⟩ | ⟨-, hnow, hnap⟩
    · rw [hn] at hnap
      by_cases hring : d ≤ σ.kernel.ticks + 1
      · -- the tick that wakes it begins a slice, or is counted in the one that goes on
        simp only [Nap.ring, if_pos hring] at hnap
        refine Or.inr ⟨hnap, by omega, by omega, fun hbad => ?_⟩
        rcases hslice with hbegins | ⟨hticks, -⟩
        · exact absurd hbegins.top hbad
        · rw [if_pos rfl] at hticks
          omega
      · simp only [Nap.ring, if_neg hring] at hnap
        exact Or.inl ⟨hnap, by omega⟩
    · exact Or.inl ⟨hnap.trans hn, by omega⟩
  · -- it is ready and above the running thread
    have hready := (h.settled.of_woken hn).resolve_right ht
    have hbound := hcount fun htop => not_le.2 (hhigh hready) (htop t hready)
    have hafter : σ'.nap t = .woken d ∧
        σ'.kernel.ticks = σ.kernel.ticks + if a = .tick then 1 else 0 := by
      rcases step_sleeper h.settled h.alone ha.2 hs ht with ⟨rfl, hnow, hnap⟩ | ⟨hne, hnow, hnap⟩
      · exact ⟨by rw [hnap, hn]; rfl, by rw [hnow, if_pos rfl]⟩
      · exact ⟨hnap.trans hn, by rw [hnow, if_neg hne, add_zero]⟩
    obtain ⟨hnap, hnow⟩ := hafter
    have hslice' := h.slice
    refine Or.inr ⟨hnap, by split at hnow <;> omega, by split at hnow <;> omega, fun hbad => ?_⟩
    rcases hslice with hbegins | ⟨hticks, -⟩
    · exact absurd hbegins.top hbad
    · by_cases hk : a = .tick
      · rw [if_pos hk] at hnow hticks
        omega
      · rw [if_neg hk] at hnow hticks
        omega

/-- A sleeper whose priority is above that of the threads running meanwhile gets the processor on
time: not before the tick `d` it sleeps until, and within a time slice after it. -/
theorem sleeper_runs_on_time (h₀ : Reach (step cfg) TimedUse (boot init idle) s₀)
    (hsleep : t ∈ s₀.kernel.sleepingList) (hrun : Exec (step cfg) s₀ tr σ)
    (ha : ∀ e ∈ tr, TimedUse e.1 e.2) (hwait : ∀ e ∈ tr, t ≠ e.1.kernel.running)
    (hhigh : ∀ e ∈ tr, t ∈ e.1.kernel.readyList →
      e.1.kernel.priority e.1.kernel.running < e.1.kernel.priority t) :
    let d := s₀.kernel.sleepingTicks t
    (t = σ.kernel.running → d ≤ σ.kernel.ticks) ∧
      σ.kernel.ticks < max d (s₀.kernel.ticks + 1) + TIME_SLICE := by
  intro d
  have hlt : s₀.kernel.threadTicks < TIME_SLICE := threadTicks_lt (h₀.mono fun _ _ h => h.1)
  obtain ⟨hset, halone⟩ : Settled s₀ ∧ SleepAlone s₀.code := by
    refine @Reach.invariant _ _ _ _ _ _ (fun σ => Settled σ ∧ SleepAlone σ.code)
      ⟨boot_settled init idle, (boot_rings init idle).alone⟩ ?_ h₀
    rintro σ a σ' ⟨hset, halone⟩ ha hs
    exact ⟨hset.step ha.2.1 hs, halone.step hset hs⟩
  have hasleep : s₀.nap t = .asleep d := hset.asleep_iff.2 ⟨hsleep, rfl⟩
  have hawaits : Awaits t d (max d (s₀.kernel.ticks + 1)) σ := by
    refine hrun.history (P := fun σ a => TimedUse σ a ∧ t ≠ σ.kernel.running ∧
        (t ∈ σ.kernel.readyList → σ.kernel.priority σ.kernel.running < σ.kernel.priority t))
      (I := fun _ σ => Awaits t d (max d (s₀.kernel.ticks + 1)) σ)
      ⟨hset, halone, hlt, Or.inl ⟨hasleep, by omega⟩⟩ ?_
      fun e he => ⟨ha e he, hwait e he, hhigh e he⟩
    rintro - σ a σ' h ⟨hu, hne, hh⟩ hs
    exact h.step (le_max_left _ _) hu hs hne hh
  rcases hawaits.place with ⟨hn, hw⟩ | ⟨-, hle, hw, -⟩
  · refine ⟨?_, ?_⟩
    · rintro rfl
      exact absurd (hawaits.settled.asleep_iff.1 hn).1
        (hawaits.settled.live.not_sleep_of_status (by simp [hawaits.settled.live.status_running]))
    · have hpos : (0 : Int) < TIME_SLICE := by decide
      omega
  · exact ⟨fun _ => hle, hw⟩

end Runs

/-- The first timer interrupt wakes thread 2, of priority 40; the slice of the initial thread ends
with the fourth. -/
def onTimeSystem : System :=
  (runAll (step .calls) [.tick, .tick, .tick, .tick] alarmSystem).get (by decide +kernel)

theorem alarm_clock_refines_woken :
    runAll AlarmClock.step [.set 2 1, .lie 2, .tick] ⟨0, fun _ => .up⟩ = some wokenSystem.alarm ∧
      2 ∈ wokenSystem.kernel.readyList := by
  have hrun : Exec (step .calls) (boot allZero 1)
      (trace (step .calls) (alarmActs ++ [.tick]) (boot allZero 1)) wokenSystem :=
    Exec.of_runAll (Option.some_get _).symm
  have h := alarm_clock_refines hrun (by decide +kernel)
  have hev : events alarmEvent (trace (step .calls) (alarmActs ++ [.tick]) (boot allZero 1)) =
      [.set 2 1, .lie 2, .tick] := by decide +kernel
  rw [hev] at h
  have hwoken : wokenSystem.alarm.nap 2 = .woken 1 := by decide +kernel
  exact ⟨h.1, ((h.2 2).2.2 1 hwoken).2.resolve_right (by decide +kernel)⟩

theorem sleeper_runs_on_time_alarm :
    2 = onTimeSystem.kernel.running ∧
      alarmSystem.kernel.sleepingTicks 2 ≤ onTimeSystem.kernel.ticks ∧
      onTimeSystem.kernel.ticks <
        max (alarmSystem.kernel.sleepingTicks 2) (alarmSystem.kernel.ticks + 1) + TIME_SLICE := by
  have h₀ : Reach (step .calls) TimedUse (boot allZero 1) alarmSystem :=
    Exec.reach (Exec.of_runAll (Option.some_get _).symm) (by decide +kernel)
  have hrun : Exec (step .calls) alarmSystem
      (trace (step .calls) [.tick, .tick, .tick, .tick] alarmSystem) onTimeSystem :=
    Exec.of_runAll (Option.some_get _).symm
  have h := sleeper_runs_on_time h₀ (by decide +kernel : 2 ∈ alarmSystem.kernel.sleepingList) hrun
    (by decide +kernel) (by decide +kernel) (by decide +kernel)
  have hruns : 2 = onTimeSystem.kernel.running := by decide +kernel
  exact ⟨hruns, h.1 hruns, h.2⟩

end Project2
end Pintos
