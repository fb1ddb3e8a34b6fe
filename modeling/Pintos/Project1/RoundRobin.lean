import Mathlib.Data.List.Perm.Subperm
import Pintos.Lib.Potential
import Pintos.Lib.Simulation
import Pintos.Project1.SleepTimes

/-!
# RoundRobin — how long a ready thread waits

The ready list of project 1 is a queue, and the timer interrupt takes the processor from a thread
that has run for `TIME_SLICE` ticks.  So nobody overtakes a ready thread, and the number of ticks
until it runs is bounded by its place in the queue; for a sleeper the ticks until its deadline are
added.
-/

namespace Pintos
namespace Project1

open Lib Function
open Project2 (ThreadPtr ThreadStatus bind_eq_ok toInt64_eq TIME_SLICE)

/-! ## What a step does to the queue -/

/-- The possibilities: the timer interrupt, a step without a switch, and a switch to the first
thread of the queue, at the end of which the running thread may be put, or to the idle thread. -/
inductive Turn (σ : System) (a : Act) (σ' : System) : Prop
  | ticks (ts : List ThreadPtr) : a = .tick → σ.pending σ.kernel.running = none →
      σ'.kernel.running = σ.kernel.running → σ'.kernel.readyList = σ.kernel.readyList ++ ts →
      σ'.kernel.threadTicks = σ.kernel.threadTicks + 1 →
      (TIME_SLICE ≤ σ.kernel.threadTicks + 1 →
        σ'.pending σ.kernel.running = some .interrupted) → Turn σ a σ'
  | stays (ts : List ThreadPtr) : a ≠ .tick →
      σ.pending σ.kernel.running ≠ some .interrupted →
      σ'.kernel.running = σ.kernel.running → σ'.kernel.readyList = σ.kernel.readyList ++ ts →
      σ'.kernel.threadTicks = σ.kernel.threadTicks → Turn σ a σ'
  | switches (ts : List ThreadPtr) : a ≠ .tick →
      σ.kernel.readyList ++ ts = σ'.kernel.running :: σ'.kernel.readyList →
      σ'.kernel.threadTicks = 0 → Turn σ a σ'
  | idles : a ≠ .tick → σ.kernel.readyList = [] → σ'.kernel.threadTicks = 0 → Turn σ a σ'

section Steps

variable {k k' : Kernel} {σ σ' : System} {a : Act} {t : ThreadPtr} {ts rest : List ThreadPtr}

/-- A switch, with `ts` put at the end of the queue before it. -/
theorem Turn.of_next {k : Kernel} (ha : a ≠ .tick) (hq : k.readyList = σ.kernel.readyList ++ ts)
    (hn : Next k t rest) (hk : σ'.kernel = k.dispatch t rest) : Turn σ a σ' := by
  have hticks : σ'.kernel.threadTicks = 0 := by rw [hk]; rfl
  rcases hn with ⟨hnil, -, -⟩ | hcons
  · rw [hq] at hnil
    exact .idles ha (List.append_eq_nil_iff.1 hnil).1 hticks
  · refine .switches ts ha ?_ hticks
    rw [← hq, hcons, hk]
    rfl

theorem Turn.of_block (ha : a ≠ .tick) (hq : k.readyList = σ.kernel.readyList)
    (hb : threadBlock k = .ok σ'.kernel) : Turn σ a σ' := by
  obtain ⟨-, t, rest, hn, hk⟩ := threadBlock_eq_ok.1 hb
  have hblocked : k.blocked.readyList = σ.kernel.readyList ++ [] :=
    hq.trans (List.append_nil _).symm
  exact .of_next ha hblocked hn hk

theorem Turn.of_yield (ha : a ≠ .tick) (hy : threadYield σ.kernel = .ok σ'.kernel) :
    Turn σ a σ' := by
  obtain ⟨-, t, rest, hn, hk⟩ := threadYield_eq_ok.1 hy
  by_cases hi : σ.kernel.idleThread = some σ.kernel.running
  · have hq : σ.kernel.yielding.readyList = σ.kernel.readyList ++ [] := by
      simp [Kernel.yielding, hi]
    exact .of_next ha hq hn hk
  · have hq : σ.kernel.yielding.readyList = σ.kernel.readyList ++ [σ.kernel.running] := by
      simp [Kernel.yielding, hi]
    exact .of_next ha hq hn hk

theorem Turn.of_exit (ha : a ≠ .tick) (hx : threadExit σ.kernel = .ok σ'.kernel) :
    Turn σ a σ' := by
  obtain ⟨-, t, rest, hn, hk⟩ := threadExit_eq_ok.1 hx
  have hq : σ.kernel.exiting.readyList = σ.kernel.readyList ++ [] := by simp [Kernel.exiting]
  exact .of_next ha hq hn hk

/-- No switch, and nobody becomes ready. -/
theorem Turn.of_same (ha : a ≠ .tick) (hint : σ.pending σ.kernel.running ≠ some .interrupted)
    (hrun : σ'.kernel.running = σ.kernel.running) (hq : σ'.kernel.readyList = σ.kernel.readyList)
    (ht : σ'.kernel.threadTicks = σ.kernel.threadTicks) : Turn σ a σ' :=
  .stays [] ha hint hrun (by simpa using hq) ht

theorem Turn.of_unblock (ha : a ≠ .tick) (hint : σ.pending σ.kernel.running ≠ some .interrupted)
    (hu : threadUnblock σ.kernel t = .ok σ'.kernel) : Turn σ a σ' := by
  obtain ⟨-, hk⟩ := threadUnblock_eq_ok.1 hu
  exact .stays [t] ha hint (by rw [hk]; rfl) (by rw [hk]; rfl) (by rw [hk]; rfl)

theorem Turn.of_create {p : Int} (ha : a ≠ .tick)
    (hint : σ.pending σ.kernel.running ≠ some .interrupted)
    (hc : threadCreate σ.kernel t p = .ok σ'.kernel) : Turn σ a σ' := by
  obtain ⟨-, -, hk⟩ := threadCreate_eq_ok.1 hc
  exact .of_same ha hint (by rw [hk]; rfl) (by rw [hk]; rfl) (by rw [hk]; rfl)

theorem exec_turn (hpend : σ.pending σ.kernel.running = none) (hs : σ.exec = .ok σ') :
    Turn σ .exec σ' := by
  have hint : σ.pending σ.kernel.running ≠ some .interrupted := by simp [hpend]
  have ha : Act.exec ≠ .tick := by simp
  unfold System.exec at hs
  split at hs
  · cases hs
    exact .of_same ha hint rfl rfl rfl
  · obtain ⟨k, hc, hs⟩ := bind_eq_ok.1 hs
    cases hs
    exact .of_create ha hint hc
  · obtain ⟨k, hu, hs⟩ := bind_eq_ok.1 hs
    cases hs
    exact .of_unblock ha hint hu
  · rename_i d hpc
    obtain ⟨k, hsl, hs⟩ := bind_eq_ok.1 hs
    cases hs
    have hb : threadBlock (threadToSleep σ.kernel d) = .ok k := hsl
    exact .of_block (σ := σ) (k := threadToSleep σ.kernel d) ha rfl hb
  · cases hs
    exact .of_same ha hint rfl rfl rfl
  · cases hs
    exact .of_same ha hint rfl rfl rfl
  · cases hs
    exact .of_same ha hint rfl rfl rfl
  · obtain ⟨k, hb, hs⟩ := bind_eq_ok.1 hs
    cases hs
    exact .of_block ha rfl hb

theorem Settled.step_turn (h : Settled σ) (hs : Project1.step a σ = some σ') : Turn σ a σ' := by
  rcases step_iff.1 hs with ⟨r, hpend, rfl, hr⟩ | ⟨hpend, -, hr⟩
  · have ha : Act.exec ≠ .tick := by simp
    cases r with
    | blocked =>
        cases hr
        exact .of_same ha (by simp [hpend]) rfl rfl rfl
    | interrupted =>
        obtain ⟨k, hy, hr⟩ := bind_eq_ok.1 hr
        cases hr
        exact .of_yield ha hy
  have hint : σ.pending σ.kernel.running ≠ some .interrupted := by simp [hpend]
  cases a with
  | timerSleep n =>
      cases hr
      exact .of_same (by simp) hint rfl rfl rfl
  | threadYield =>
      obtain ⟨k, hy, hr⟩ := bind_eq_ok.1 hr
      cases hr
      exact .of_yield (by simp) hy
  | threadBlock =>
      obtain ⟨k, hb, hr⟩ := bind_eq_ok.1 hr
      cases hr
      exact .of_block (by simp) rfl hb
  | threadUnblock t =>
      obtain ⟨k, hu, hr⟩ := bind_eq_ok.1 hr
      cases hr
      exact .of_unblock (by simp) hint hu
  | threadCreate t p =>
      obtain ⟨k, hc, hr⟩ := bind_eq_ok.1 hr
      cases hr
      exact .of_create (by simp) hint hc
  | threadExit =>
      obtain ⟨k, hx, hr⟩ := bind_eq_ok.1 hr
      cases hr
      exact .of_exit (by simp) hx
  | exec => exact exec_turn hpend hr
  | tick =>
      rw [h.run_tick] at hr
      cases hr
      refine .ticks (σ.kernel.due σ.kernel.now) rfl hpend rfl rfl rfl fun hslice => ?_
      simp [System.ticked, hslice]

end Steps

/-! ## In line -/

/-- The threads that are ahead of `t` in the ready list. -/
def Kernel.aheadOf (k : Kernel) (t : ThreadPtr) : List ThreadPtr :=
  k.readyList.takeWhile fun u => u ≠ t

/-- The thread to which a step switches. -/
def switchedTo (σ : System) (a : Act) : Option ThreadPtr :=
  match step a σ with
  | none => none
  | some σ' =>
      if σ'.kernel.running = σ.kernel.running then none else some σ'.kernel.running

/-- The threads that get the processor in a run, one after the other. -/
def dispatches (tr : List (System × Act)) : List ThreadPtr :=
  events switchedTo tr

/-- Of the threads that were ahead of `t` the first ones, `served`, have had their turn; the others
are still ahead of it. -/
structure InLine (t : ThreadPtr) (ahead served : List ThreadPtr) (k : Kernel) : Prop where
  waits : k.running ≠ t
  place : ∃ left behind, ahead = served ++ left ∧ k.readyList = left ++ t :: behind

section Waiting

variable {σ σ' : System} {a : Act} {t : ThreadPtr} {ahead served : List ThreadPtr}
  {tr : List (System × Act)}

theorem dispatches_stay (hs : Project1.step a σ = some σ')
    (hrun : σ'.kernel.running = σ.kernel.running) :
    dispatches (tr ++ [(σ, a)]) = dispatches tr := by
  unfold dispatches
  rw [events_snoc]
  simp [switchedTo, hs, hrun]

theorem dispatches_switch (hs : Project1.step a σ = some σ')
    (hrun : σ'.kernel.running ≠ σ.kernel.running) :
    dispatches (tr ++ [(σ, a)]) = dispatches tr ++ [σ'.kernel.running] := by
  unfold dispatches
  rw [events_snoc]
  simp [switchedTo, hs, hrun]

theorem InLine.grows {k k' : Kernel} {ts : List ThreadPtr} (h : InLine t ahead served k)
    (hrun : k'.running = k.running) (hq : k'.readyList = k.readyList ++ ts) :
    InLine t ahead served k' := by
  obtain ⟨hwaits, left, behind, hahead, hready⟩ := h
  refine ⟨hrun ▸ hwaits, left, behind ++ ts, hahead, ?_⟩
  rw [hq, hready, List.append_assoc, List.cons_append]

theorem Settled.not_ready_running (h : Settled σ) : σ.kernel.running ∉ σ.kernel.readyList :=
  h.places.not_ready (by simp [h.running])

/-- Either it is the turn of `t`, after all that were ahead of it, or it stays in line. -/
theorem InLine.step (h : InLine t ahead (dispatches tr) σ.kernel) (hset : Settled σ)
    (hs : Project1.step a σ = some σ') :
    (σ'.kernel.running = t ∧ dispatches (tr ++ [(σ, a)]) = ahead ++ [t]) ∨
      InLine t ahead (dispatches (tr ++ [(σ, a)])) σ'.kernel := by
  cases hset.step_turn hs with
  | ticks ts ha hpend hrun hq hticks hslice =>
      rw [dispatches_stay hs hrun]
      exact Or.inr (h.grows hrun hq)
  | stays ts ha hint hrun hq hticks =>
      rw [dispatches_stay hs hrun]
      exact Or.inr (h.grows hrun hq)
  | switches ts ha hq hticks =>
      obtain ⟨-, left, behind, hahead, hready⟩ := h
      -- the thread that is dispatched has been ready
      have hswitch : σ'.kernel.running ∈ σ.kernel.readyList →
          dispatches (tr ++ [(σ, a)]) = dispatches tr ++ [σ'.kernel.running] :=
        fun hm => dispatches_switch hs fun he => hset.not_ready_running (he ▸ hm)
      have hnd := hset.places.ready_nodup
      rw [hready] at hq hswitch hnd
      cases left with
      | nil =>
          have ht : t = σ'.kernel.running := (List.cons.inj hq).1
          rw [← ht] at hswitch ⊢
          rw [hswitch List.mem_cons_self, hahead, List.append_nil]
          exact Or.inl ⟨rfl, rfl⟩
      | cons x left =>
          -- the first thread that is ahead is served
          obtain ⟨hx, hrest⟩ := List.cons.inj hq
          rw [← hx] at hswitch ⊢
          rw [hswitch (List.mem_append_left _ List.mem_cons_self)]
          refine Or.inr ⟨?_, left, behind ++ ts, ?_, ?_⟩
          · rw [← hx]
            rintro rfl
            exact (List.nodup_cons.1 hnd).1 (List.mem_append_right _ List.mem_cons_self)
          · rw [hahead, List.append_assoc, List.singleton_append]
          · rw [← hrest]
            simp only [List.append_eq, List.append_assoc, List.cons_append]
  | idles ha hnil hticks =>
      obtain ⟨-, left, behind, hahead, hready⟩ := h
      rw [hnil] at hready
      exact absurd hready.symm (by simp)

end Waiting

/-! ## The time slice -/

/-- The running thread has not used up more than its time slice, and is about to yield when it has
used it up. -/
structure Sliced (σ : System) : Prop where
  sound : Sound σ
  slice : σ.kernel.threadTicks ≤ TIME_SLICE
  expired : σ.kernel.threadTicks = TIME_SLICE →
    σ.pending σ.kernel.running = some .interrupted

/-- The ticks until `t` runs at the latest, when every thread ahead of it uses up its slice. -/
def Kernel.waitTicks (k : Kernel) (t : ThreadPtr) : Nat :=
  if k.running = t then 0
  else TIME_SLICE * (k.readyList.idxOf t + 1) - k.threadTicks

/-- `t` runs or is ready. -/
def Kernel.InQueue (k : Kernel) (t : ThreadPtr) : Prop :=
  k.running = t ∨ t ∈ k.readyList

section Slices

variable {σ σ' : System} {a : Act} {t : ThreadPtr}

theorem Sound.step (h : Sound σ) (hu : UnblockOk σ a) (hs : Project1.step a σ = some σ') :
    Sound σ' := by
  refine ⟨h.settled.step hu hs, h.live.step h.settled hu hs, ?_⟩
  rw [(h.settled.step_frame hs).ticks]
  split
  · exact toInt64_inInt64 _
  · exact h.ticks

theorem Sliced.step (h : Sliced σ) (hu : UnblockOk σ a) (hs : Project1.step a σ = some σ') :
    Sliced σ' := by
  have hsound := h.sound.step hu hs
  have hlt : σ.pending σ.kernel.running ≠ some .interrupted →
      σ.kernel.threadTicks < TIME_SLICE :=
    fun hint => lt_of_le_of_ne h.slice fun he => hint (h.expired he)
  cases h.sound.settled.step_turn hs with
  | ticks ts ha hpend hrun hq hticks hslice =>
      have hbelow := hlt (by simp [hpend])
      refine ⟨hsound, by omega, fun he => ?_⟩
      rw [hrun]
      exact hslice (by omega)
  | stays ts ha hint hrun hq hticks =>
      have hbelow := hlt hint
      exact ⟨hsound, by omega, fun he => by omega⟩
  | switches ts ha hq hticks =>
      exact ⟨hsound, by simp [hticks], fun he => by simp [hticks, TIME_SLICE] at he⟩
  | idles ha hnil hticks =>
      exact ⟨hsound, by simp [hticks], fun he => by simp [hticks, TIME_SLICE] at he⟩

theorem boot_sliced (idle : ThreadPtr) : Sliced (boot idle) := by
  have hzero : InInt64 0 := ⟨by decide, by decide⟩
  refine ⟨⟨boot_settled idle, boot_live idle, hzero⟩, Nat.zero_le _, fun he => ?_⟩
  have hnot : (boot idle).kernel.threadTicks ≠ TIME_SLICE := Nat.zero_ne_add_one 3
  exact absurd he hnot

theorem sliced_of_exec {idle : ThreadPtr} {tr : List (System × Act)}
    (h : Exec Project1.step (boot idle) tr σ) (hu : ∀ e ∈ tr, UnblockOk e.1 e.2) : Sliced σ :=
  (h.invariant (boot_sliced idle) (fun _ _ _ hi hu hs => hi.step hu hs) hu).2

/-- A ready thread stays in the queue until it runs, every tick brings it closer, and no step sets
it back. -/
theorem Sliced.waitTicks_step (h : Sliced σ) (ht : t ∈ σ.kernel.readyList)
    (hrun : σ.kernel.running ≠ t) (hs : Project1.step a σ = some σ') :
    σ'.kernel.InQueue t ∧
      σ'.kernel.waitTicks t + (if a = .tick then 1 else 0) ≤ σ.kernel.waitTicks t := by
  have hslice := h.slice
  -- the queue grows at its end only
  have hidx : ∀ ts, (σ.kernel.readyList ++ ts).idxOf t = σ.kernel.readyList.idxOf t :=
    fun ts => List.idxOf_append_of_mem ht
  have hΦ : σ.kernel.waitTicks t =
      TIME_SLICE * (σ.kernel.readyList.idxOf t + 1) - σ.kernel.threadTicks := if_neg hrun
  rw [hΦ]
  cases h.sound.settled.step_turn hs with
  | ticks ts ha hpend hrun' hq hticks _ =>
      have hlt : σ.kernel.threadTicks < TIME_SLICE :=
        lt_of_le_of_ne hslice fun he => by simp [h.expired he] at hpend
      refine ⟨Or.inr (hq ▸ List.mem_append_left _ ht), ?_⟩
      rw [Kernel.waitTicks, hrun', if_neg hrun, hq, hidx, hticks, if_pos ha, Nat.mul_add]
      omega
  | stays ts ha hint hrun' hq hticks =>
      refine ⟨Or.inr (hq ▸ List.mem_append_left _ ht), ?_⟩
      rw [Kernel.waitTicks, hrun', if_neg hrun, hq, hidx, hticks, if_neg ha, Nat.add_zero]
  | switches ts ha hq hticks =>
      rw [if_neg ha, Nat.add_zero, Kernel.waitTicks]
      by_cases hrun' : σ'.kernel.running = t
      · exact ⟨Or.inl hrun', by simp [hrun']⟩
      · -- another thread is served, and a full slice begins
        have hmem : t ∈ σ'.kernel.running :: σ'.kernel.readyList :=
          hq ▸ List.mem_append_left _ ht
        have hnext : σ.kernel.readyList.idxOf t = σ'.kernel.readyList.idxOf t + 1 := by
          rw [← hidx ts, hq, List.idxOf_cons_ne _ hrun']
        refine ⟨Or.inr ((List.mem_cons.1 hmem).resolve_left (Ne.symm hrun')), ?_⟩
        rw [if_neg hrun', hnext, hticks, Nat.mul_succ TIME_SLICE (_ + 1)]
        omega
  | idles ha hnil hticks =>
      rw [hnil] at ht
      cases ht

end Slices

/-! ## A sleeper -/

/-- `t` sleeps with the deadline `d`. -/
def Kernel.SleepsUntil (k : Kernel) (t : ThreadPtr) (d : Int) : Prop :=
  t ∈ k.sleepingList ∧ k.sleepingTicks t = d

/-- The ticks until `t` runs at the latest, with `n` threads at most: those until its deadline, one
at least, and then a slice for each other thread. -/
def Kernel.sleepTicks (k : Kernel) (t : ThreadPtr) (d : Int) (n : Nat) : Nat :=
  if k.status t = .blocked then max 1 (d - k.ticks).toNat + TIME_SLICE * (n - 1)
  else k.waitTicks t

section Sleepers

variable {σ σ' : System} {a : Act} {t : ThreadPtr} {d : Int} {n : Nat}

/-- The running thread and the ready ones are among all threads, once each. -/
theorem Settled.ready_length (h : Settled σ) :
    σ.kernel.readyList.length + 1 ≤ σ.kernel.allList.length := by
  have hnodup : (σ.kernel.running :: σ.kernel.readyList).Nodup :=
    List.nodup_cons.2 ⟨h.not_ready_running, h.places.ready_nodup⟩
  refine (hnodup.subperm fun u hu => ?_).length_le
  rcases List.mem_cons.1 hu with rfl | hu
  · exact (h.places.alive _).2 (by simp [h.running])
  · exact (h.places.alive u).2 (by simp [h.places.ready u hu])

/-- The wait of a thread in the queue is at most a slice for each other thread. -/
theorem Settled.waitTicks_le (h : Settled σ) (ht : t ∈ σ.kernel.readyList)
    (hn : σ.kernel.allList.length ≤ n) : σ.kernel.waitTicks t ≤ TIME_SLICE * (n - 1) := by
  have hlen := h.ready_length
  have hidx : σ.kernel.readyList.idxOf t < σ.kernel.readyList.length := List.idxOf_lt_length_of_mem ht
  unfold Kernel.waitTicks
  split
  · exact Nat.zero_le _
  · refine (Nat.sub_le _ _).trans (Nat.mul_le_mul_left _ ?_)
    omega

theorem Settled.status_of_inQueue (h : Settled σ) (ht : σ.kernel.InQueue t) :
    σ.kernel.status t ≠ .blocked := by
  rcases ht with rfl | ht
  · simp [h.running]
  · simp [h.places.ready t ht]

theorem Kernel.sleepTicks_of_inQueue (h : Settled σ) (ht : σ.kernel.InQueue t) :
    σ.kernel.sleepTicks t d n = σ.kernel.waitTicks t :=
  if_neg (h.status_of_inQueue ht)

theorem Kernel.sleepTicks_of_sleeps (h : Settled σ) (ht : σ.kernel.SleepsUntil t d) :
    σ.kernel.sleepTicks t d n = max 1 (d - σ.kernel.ticks).toNat + TIME_SLICE * (n - 1) :=
  if_pos (h.places.sleep t ht.1).1

theorem Sound.now_eq (h : Sound σ) (hmax : σ.kernel.ticks ≠ 2 ^ 63 - 1) :
    σ.kernel.now = σ.kernel.ticks + 1 := by
  obtain ⟨hlow, hhigh⟩ := h.ticks
  exact toInt64_eq ⟨by omega, by omega⟩

/-- A sleeper sleeps on or joins the queue, every tick brings it closer, and no step sets it
back. -/
theorem Sliced.sleepTicks_step (h : Sliced σ)
    (ht : σ.kernel.InQueue t ∨ σ.kernel.SleepsUntil t d) (hrun : σ.kernel.running ≠ t)
    (hn : σ.kernel.allList.length ≤ n) (hmax : σ.kernel.ticks ≠ 2 ^ 63 - 1) (hu : UnblockOk σ a)
    (hs : Project1.step a σ = some σ') :
    (σ'.kernel.InQueue t ∨ σ'.kernel.SleepsUntil t d) ∧
      σ'.kernel.sleepTicks t d n + (if a = .tick then 1 else 0) ≤ σ.kernel.sleepTicks t d n := by
  have hset := h.sound.settled
  have hset' := (h.step hu hs).sound.settled
  rcases ht with hqueue | hsleep
  · obtain ⟨hqueue', hle⟩ := h.waitTicks_step (hqueue.resolve_left hrun) hrun hs
    refine ⟨Or.inl hqueue', ?_⟩
    rwa [Kernel.sleepTicks_of_inQueue hset hqueue, Kernel.sleepTicks_of_inQueue hset' hqueue']
  · have hclock := (hset.step_frame hs).ticks
    have hnow := h.sound.now_eq hmax
    rw [Kernel.sleepTicks_of_sleeps hset hsleep]
    by_cases hrings : a = .tick ∧ d ≤ σ.kernel.now
    · -- the interrupt wakes the thread, which joins the queue
      obtain ⟨rfl, hdue⟩ := hrings
      have hk : σ'.kernel = σ.kernel.rung := by
        cases hset.step_naps hs with
        | tick _ hk _ => exact hk
        | toSleep d' ha => cases ha
        | call m ha => cases ha
        | keeps ha => exact absurd rfl ha
      have hmem : t ∈ σ.kernel.due σ.kernel.now :=
        Places.mem_due.2 ⟨hsleep.1, hsleep.2.le.trans hdue⟩
      have hready : t ∈ σ'.kernel.readyList := by
        rw [hk]
        exact List.mem_append_right _ hmem
      have hlen : σ'.kernel.allList.length ≤ n := by
        rw [hk]
        exact hn
      have hwait := hset'.waitTicks_le hready hlen
      refine ⟨Or.inl (Or.inr hready), ?_⟩
      rw [Kernel.sleepTicks_of_inQueue hset' (Or.inr hready), if_pos rfl]
      omega
    · have hbelow : a = .tick → σ.kernel.now < d := fun ha => not_le.1 fun hd => hrings ⟨ha, hd⟩
      have hsleep' : σ'.kernel.SleepsUntil t d :=
        hset.step_asleep hsleep.1 hsleep.2 hs hbelow
      refine ⟨Or.inr hsleep', ?_⟩
      rw [Kernel.sleepTicks_of_sleeps hset' hsleep', hclock]
      by_cases ha : a = .tick
      · have hlt := hbelow ha
        rw [if_pos ha, if_pos ha]
        omega
      · rw [if_neg ha, if_neg ha]
        omega

end Sleepers

/-! ## In every run -/

section Runs

variable {idle : ThreadPtr} {σ σ' : System} {tr₀ tr : List (System × Act)} {t : ThreadPtr}

/-- While a ready thread waits, the processor goes to the threads that were ahead of it in the ready
list, once to each of them and in their order, and to nobody else; then it is the thread's turn. -/
theorem no_overtaking (h : Exec step (boot idle) tr₀ σ) (hu₀ : ∀ e ∈ tr₀, UnblockOk e.1 e.2)
    (ht : t ∈ σ.kernel.readyList) (hrun : Exec step σ tr σ') (hu : ∀ e ∈ tr, UnblockOk e.1 e.2)
    (hwait : ∀ e ∈ tr, e.1.kernel.running ≠ t) :
    (σ.kernel.aheadOf t).Nodup ∧
      ((σ'.kernel.running = t ∧ dispatches tr = σ.kernel.aheadOf t ++ [t]) ∨
        InLine t (σ.kernel.aheadOf t) (dispatches tr) σ'.kernel) := by
  let ahead := σ.kernel.aheadOf t
  have hset := (sliced_of_exec h hu₀).sound.settled
  have hstart : InLine t ahead [] σ.kernel := by
    refine ⟨fun he => hset.not_ready_running (he ▸ ht), ?_⟩
    obtain ⟨left, behind, hlist, hnot⟩ := List.eq_append_cons_of_mem ht
    refine ⟨left, behind, ?_, hlist⟩
    have hpos : ∀ u ∈ left, decide (u ≠ t) = true :=
      fun u hu => decide_eq_true fun he => hnot (he ▸ hu)
    show σ.kernel.readyList.takeWhile (fun u => u ≠ t) = [] ++ left
    rw [hlist, List.takeWhile_append_of_pos hpos, List.takeWhile_cons_of_neg (by simp)]
    simp
  refine ⟨(List.takeWhile_sublist _).nodup hset.places.ready_nodup, ?_⟩
  have hkeep := hrun.history
    (I := fun tr s => Settled s ∧
      ((s.kernel.running = t ∧ dispatches tr = ahead ++ [t]) ∨
        InLine t ahead (dispatches tr) s.kernel))
    (P := fun s a => UnblockOk s a ∧ s.kernel.running ≠ t)
    ⟨hset, Or.inr hstart⟩ ?_ fun e he => ⟨hu e he, hwait e he⟩
  · exact hkeep.2
  · rintro tr s a s' ⟨hI, hline⟩ ⟨hP, hne⟩ hs
    exact ⟨hI.step hP hs, (hline.resolve_left fun h => hne h.1).step hI hs⟩

/-- A thread at position `i` of the ready list runs before the timer interrupt has come more than
`TIME_SLICE * (i + 1)` times, less the ticks that the running thread has had already. -/
theorem ready_runs (h : Exec step (boot idle) tr₀ σ) (hu₀ : ∀ e ∈ tr₀, UnblockOk e.1 e.2)
    (ht : t ∈ σ.kernel.readyList) (hrun : Exec step σ tr σ') (hu : ∀ e ∈ tr, UnblockOk e.1 e.2)
    (hticks : TIME_SLICE * (σ.kernel.readyList.idxOf t + 1) - σ.kernel.threadTicks < ticksIn tr) :
    ∃ e ∈ tr, e.1.kernel.running = t := by
  have hsliced := sliced_of_exec h hu₀
  have hlt : σ.kernel.waitTicks t < tr.countP fun e => e.2 = .tick := by
    refine lt_of_le_of_lt ?_ hticks
    unfold Kernel.waitTicks
    split
    · exact Nat.zero_le _
    · exact le_rfl
  obtain ⟨e, he, hnot⟩ := hrun.exists_ended (I := fun s => Sliced s ∧ s.kernel.InQueue t)
    (Φ := fun s => s.kernel.waitTicks t) (P := UnblockOk)
    (W := fun s => s.kernel.running ≠ t) ⟨hsliced, Or.inr ht⟩
    (fun s a s' hI hP hs => ⟨hI.1.step hP.1 hs,
      (hI.1.waitTicks_step (hI.2.resolve_left hP.2) hP.2 hs).1⟩)
    (fun s a s' hI hP hs => by
      simpa using (hI.1.waitTicks_step (hI.2.resolve_left hP.2) hP.2 hs).2) hu hlt
  exact ⟨e, he, not_not.1 hnot⟩

/-- A sleeper runs before the timer interrupt has come more often than it takes to its deadline, and
`TIME_SLICE` times for each other thread. -/
theorem sleeper_runs {d : Int} {n : Nat} (h : Exec step (boot idle) tr₀ σ)
    (hu₀ : ∀ e ∈ tr₀, UnblockOk e.1 e.2) (ht : σ.kernel.SleepsUntil t d)
    (hrun : Exec step σ tr σ') (hu : ∀ e ∈ tr, UnblockOk e.1 e.2)
    (hn : ∀ e ∈ tr, e.1.kernel.allList.length ≤ n)
    (hmax : ∀ e ∈ tr, e.1.kernel.ticks ≠ 2 ^ 63 - 1)
    (hticks : max 1 (d - σ.kernel.ticks).toNat + TIME_SLICE * (n - 1) < ticksIn tr) :
    ∃ e ∈ tr, e.1.kernel.running = t := by
  have hsliced := sliced_of_exec h hu₀
  have hlt : σ.kernel.sleepTicks t d n < tr.countP fun e => e.2 = .tick := by
    rw [Kernel.sleepTicks_of_sleeps hsliced.sound.settled ht]
    exact hticks
  obtain ⟨e, he, hnot⟩ := hrun.exists_ended
    (I := fun s => Sliced s ∧ (s.kernel.InQueue t ∨ s.kernel.SleepsUntil t d))
    (Φ := fun s => s.kernel.sleepTicks t d n)
    (P := fun s a => UnblockOk s a ∧ s.kernel.allList.length ≤ n ∧ s.kernel.ticks ≠ 2 ^ 63 - 1)
    (W := fun s => s.kernel.running ≠ t) ⟨hsliced, Or.inr ht⟩
    (fun s a s' hI hP hs => ⟨hI.1.step hP.1.1 hs,
      (hI.1.sleepTicks_step hI.2 hP.2 hP.1.2.1 hP.1.2.2 hP.1.1 hs).1⟩)
    (fun s a s' hI hP hs => by
      simpa using (hI.1.sleepTicks_step hI.2 hP.2 hP.1.2.1 hP.1.2.2 hP.1.1 hs).2)
    (fun e he => ⟨hu e he, hn e he, hmax e he⟩) hlt
  exact ⟨e, he, not_not.1 hnot⟩

end Runs

/-! ### Two threads in line behind the initial thread -/

def lineActs : List Act :=
  napActs.take 8 ++ [.threadCreate 2 31, .exec, .threadCreate 3 31, .exec]

def lineSystem : System := (runAll step lineActs (boot 1)).get (by decide +kernel)

theorem line_exec : Exec step (boot 1) (trace step lineActs (boot 1)) lineSystem :=
  Exec.of_runAll (Option.some_get _).symm

/-- The initial thread and thread 2 use up their slices, and thread 3 runs. -/
def slicesActs : List Act :=
  List.replicate 4 .tick ++ [.exec] ++ List.replicate 4 .tick ++ [.exec, .tick]

def slicesSystem : System := (runAll step slicesActs lineSystem).get (by decide +kernel)

theorem slices_exec : Exec step lineSystem (trace step slicesActs lineSystem) slicesSystem :=
  Exec.of_runAll (Option.some_get _).symm

/-- Thread 2 has its slice, and then thread 3 is dispatched. -/
theorem no_overtaking_line :
    lineSystem.kernel.aheadOf 3 = [2] ∧
      dispatches (trace step (slicesActs.take 10) lineSystem) = [2, 3] := by
  have huse₀ : ∀ e ∈ trace step lineActs (boot 1), AlarmUse e.1 e.2 := by decide +kernel
  have huse : ∀ e ∈ trace step (slicesActs.take 10) lineSystem, AlarmUse e.1 e.2 := by
    decide +kernel
  have hrun : Exec step lineSystem (trace step (slicesActs.take 10) lineSystem)
      ((runAll step (slicesActs.take 10) lineSystem).get (by decide +kernel)) :=
    Exec.of_runAll (Option.some_get _).symm
  have hahead : lineSystem.kernel.aheadOf 3 = [2] := by decide +kernel
  have hline := (no_overtaking line_exec (fun e he => (huse₀ e he).1) (t := 3) (by decide +kernel)
    hrun (fun e he => (huse e he).1) (by decide +kernel)).2
  rw [hahead] at hline
  rcases hline with ⟨-, hserved⟩ | hline
  · exact ⟨hahead, hserved⟩
  · exact absurd (by decide +kernel) hline.waits

theorem ready_runs_line :
    TIME_SLICE * (lineSystem.kernel.readyList.idxOf 3 + 1) - lineSystem.kernel.threadTicks <
        ticksIn (trace step slicesActs lineSystem) ∧
      ∃ e ∈ trace step slicesActs lineSystem, e.1.kernel.running = 3 := by
  have huse₀ : ∀ e ∈ trace step lineActs (boot 1), AlarmUse e.1 e.2 := by decide +kernel
  have huse : ∀ e ∈ trace step slicesActs lineSystem, AlarmUse e.1 e.2 := by decide +kernel
  have hticks : TIME_SLICE * (lineSystem.kernel.readyList.idxOf 3 + 1) -
      lineSystem.kernel.threadTicks < ticksIn (trace step slicesActs lineSystem) := by
    decide +kernel
  exact ⟨hticks, ready_runs line_exec (fun e he => (huse₀ e he).1) (by decide +kernel) slices_exec
    (fun e he => (huse e he).1) hticks⟩

/-- The interrupt at tick 2 wakes the initial thread, and the idle thread makes way. -/
def wakeActs : List Act :=
  [.tick, .exec, .exec] ++ List.replicate 4 .tick ++ [.exec, .tick]

theorem sleeper_runs_nap :
    napSystem.kernel.SleepsUntil 0 2 ∧
      ∃ e ∈ trace step wakeActs napSystem, e.1.kernel.running = 0 := by
  have hrun₀ : Exec step (boot 1) (trace step napActs (boot 1)) napSystem :=
    Exec.of_runAll (Option.some_get _).symm
  have hrun : Exec step napSystem (trace step wakeActs napSystem)
      ((runAll step wakeActs napSystem).get (by decide +kernel)) :=
    Exec.of_runAll (Option.some_get _).symm
  have huse₀ : ∀ e ∈ trace step napActs (boot 1), AlarmUse e.1 e.2 := by decide +kernel
  have huse : ∀ e ∈ trace step wakeActs napSystem, AlarmUse e.1 e.2 := by decide +kernel
  have hsleep : napSystem.kernel.SleepsUntil 0 2 := ⟨by decide +kernel, by decide +kernel⟩
  exact ⟨hsleep, sleeper_runs (n := 2) hrun₀ (fun e he => (huse₀ e he).1) hsleep hrun
    (fun e he => (huse e he).1) (by decide +kernel) (by decide +kernel) (by decide +kernel)⟩

end Project1
end Pintos
