import Pintos.Project2.Kernel

/-!
# Thread — the scheduler functions of project 2's `thread.c`

`thread_current ()` is the member `running` of the kernel.  A function that switches threads
returns the kernel as the next thread finds it; what the suspended thread still has to do is kept
outside the kernel (`System`).

Every function comes with a lemma `…_eq_ok` that says when the call succeeds and what it returns.
-/

namespace Pintos
namespace Project2

open Lib Function

/-! ## Choosing and switching to the next thread -/

/-- `next_thread_to_run`: the head of the re-sorted ready list, or the idle thread. -/
def nextThreadToRun (k : Kernel) : Option ThreadPtr × Kernel :=
  if k.readyList = [] then (k.idleThread, k)
  else
    match sort (compare k) k.readyList with
    | [] => (none, k)
    | t :: rest => (some t, { k with readyList := rest })

/-- `thread_schedule_tail`, after the switch.  The page of a thread that was dying is free from
here on, which is what its absence from `allList` says. -/
def threadScheduleTail (k : Kernel) : Kernel :=
  { k with status := update k.status k.running .running, threadTicks := 0 }

def schedule (k : Kernel) : Except Fault Kernel := do
  assert (k.status k.running ≠ .running) .stillRunning
  match nextThreadToRun k with
  | (none, _) => .error .notThread
  | (some next, k) => .ok (threadScheduleTail { k with running := next })

/-- `t` is the thread that `next_thread_to_run` picks and `rest` what it leaves of the ready
list. -/
def Next (k : Kernel) (t : ThreadPtr) (rest : List ThreadPtr) : Prop :=
  (k.readyList = [] ∧ rest = [] ∧ k.idleThread = some t) ∨
    sort (compare k) k.readyList = t :: rest

/-- The kernel after a switch to `t`. -/
def Kernel.dispatch (k : Kernel) (t : ThreadPtr) (rest : List ThreadPtr) : Kernel :=
  { k with
    readyList := rest
    running := t
    status := update k.status t .running
    threadTicks := 0 }

theorem schedule_eq_ok {k k' : Kernel} :
    schedule k = .ok k' ↔
      k.status k.running ≠ .running ∧ ∃ t rest, Next k t rest ∧ k' = k.dispatch t rest := by
  simp only [schedule, nextThreadToRun, assert_bind_eq_ok]
  refine and_congr_right fun _ => ?_
  by_cases hr : k.readyList = []
  · -- the ready list is empty: only the idle thread can be next
    cases hi : k.idleThread with
    | none =>
        simp [Next, hr, hi]
    | some i =>
        simp only [hr, if_true, Next, hi, Option.some.injEq, true_and, sort_nil, List.nil_eq,
          reduceCtorEq, or_false, Except.ok.injEq]
        constructor
        · rintro rfl
          exact ⟨i, [], ⟨rfl, rfl⟩, by simp [threadScheduleTail, Kernel.dispatch, hi]⟩
        · rintro ⟨t, rest, ⟨rfl, rfl⟩, rfl⟩
          simp [threadScheduleTail, Kernel.dispatch, hi]
  · obtain ⟨t, rest, hs⟩ := @exists_sort_eq_cons _ (compare k) _ hr
    simp only [hr, if_false, hs, Next, false_and, false_or, List.cons.injEq, Except.ok.injEq]
    constructor
    · rintro rfl
      exact ⟨t, rest, ⟨rfl, rfl⟩, rfl⟩
    · rintro ⟨t', rest', ⟨rfl, rfl⟩, rfl⟩
      rfl

/-! ## Blocking, yielding, exiting -/

/-- The running thread marked blocked. -/
def Kernel.blocked (k : Kernel) : Kernel :=
  { k with status := update k.status k.running .blocked }

def threadBlock (k : Kernel) : Except Fault Kernel := do
  assert (k.intrContext = false) .intrContext
  schedule k.blocked

/-- The running thread put back into the ready list, unless it is the idle thread. -/
def Kernel.yielding (k : Kernel) : Kernel :=
  { k with
    readyList :=
      if k.idleThread = some k.running then k.readyList
      else insertOrdered (compare k) k.running k.readyList
    status := update k.status k.running .ready }

def threadYield (k : Kernel) : Except Fault Kernel := do
  assert (k.intrContext = false) .intrContext
  schedule k.yielding

/-- The running thread taken off the list of all threads and marked dying. -/
def Kernel.exiting (k : Kernel) : Kernel :=
  { k with
    allList := k.allList.erase k.running
    status := update k.status k.running .dying }

def threadExit (k : Kernel) : Except Fault Kernel := do
  assert (k.intrContext = false) .intrContext
  schedule k.exiting

theorem threadBlock_eq_ok {k k' : Kernel} :
    threadBlock k = .ok k' ↔
      k.intrContext = false ∧ ∃ t rest, Next k.blocked t rest ∧ k' = k.blocked.dispatch t rest := by
  simp [threadBlock, schedule_eq_ok, Kernel.blocked]

theorem threadYield_eq_ok {k k' : Kernel} :
    threadYield k = .ok k' ↔
      k.intrContext = false ∧
        ∃ t rest, Next k.yielding t rest ∧ k' = k.yielding.dispatch t rest := by
  simp [threadYield, schedule_eq_ok, Kernel.yielding]

theorem threadExit_eq_ok {k k' : Kernel} :
    threadExit k = .ok k' ↔
      k.intrContext = false ∧ ∃ t rest, Next k.exiting t rest ∧ k' = k.exiting.dispatch t rest := by
  simp [threadExit, schedule_eq_ok, Kernel.exiting]

/-! ## Making threads ready -/

/-- `t` in the ready list and marked ready. -/
def Kernel.madeReady (k : Kernel) (t : ThreadPtr) : Kernel :=
  { k with
    readyList := insertOrdered (compare k) t k.readyList
    status := update k.status t .ready }

def threadUnblock (k : Kernel) (t : ThreadPtr) : Except Fault Kernel := do
  assert (k.status t = .blocked) .notBlocked
  .ok (k.madeReady t)

theorem threadUnblock_eq_ok {k k' : Kernel} {t : ThreadPtr} :
    threadUnblock k t = .ok k' ↔ k.status t = .blocked ∧ k' = k.madeReady t := by
  simp only [threadUnblock, assert_bind_eq_ok, Except.ok.injEq]
  exact and_congr_right fun _ => eq_comm

/-- `steal_running_by_priority`: yield when the head of the ready list has a higher priority. -/
def stealRunningByPriority (k : Kernel) : Except Fault Kernel :=
  match k.readyList with
  | [] => .ok k
  | next :: _ => if compare k next k.running = true then threadYield k else .ok k

/-- The head of the ready list has a higher priority than the running thread. -/
def Kernel.Outranked (k : Kernel) : Prop :=
  ∃ next rest, k.readyList = next :: rest ∧ k.priority k.running < k.priority next

theorem stealRunningByPriority_eq_ok {k k' : Kernel} :
    stealRunningByPriority k = .ok k' ↔
      (k.Outranked ∧ threadYield k = .ok k') ∨ (¬ k.Outranked ∧ k' = k) := by
  unfold stealRunningByPriority Kernel.Outranked
  cases hr : k.readyList with
  | nil =>
      simp [eq_comm]
  | cons next rest =>
      by_cases hp : k.priority k.running < k.priority next <;>
        simp [compare, byKey, hp, eq_comm]

/-! ## Creating a thread -/

/-- `init_thread` on a zeroed page: every member that the code reads gets its first value. -/
def initThread (k : Kernel) (t : ThreadPtr) (priority : Int) : Kernel :=
  { k with
    tid := update k.tid t 0
    status := update k.status t .blocked
    sleepingTicks := update k.sleepingTicks t 0
    initPriority := update k.initPriority t priority
    priority := update k.priority t priority
    waitingLock := update k.waitingLock t none
    donations := update k.donations t []
    allList := k.allList ++ [t] }

/-- The first part of `thread_create`: `palloc_get_page` returns the page `t`, which no thread
uses, and `init_thread` fills it. -/
def threadCreate (k : Kernel) (t : ThreadPtr) (priority : Int) : Except Fault Kernel := do
  assert (t ∉ k.allList ∧ t ≠ initialThread) .pageInUse
  assert (PRI_MIN ≤ priority ∧ priority ≤ PRI_MAX) .badPriority
  .ok (initThread k t priority)

/-- The last part of `thread_create`: the new thread becomes ready and runs at once if its
priority is higher. -/
def threadStartNew (k : Kernel) (t : ThreadPtr) (priority : Int) (tid : Int) :
    Except Fault Kernel := do
  let k := { k with tid := update k.tid t tid }
  let k ← threadUnblock k t
  if k.priority k.running < priority then threadYield k else .ok k

/-- The new thread with its identifier, made ready. -/
def Kernel.started (k : Kernel) (t : ThreadPtr) (tid : Int) : Kernel :=
  { k with tid := update k.tid t tid }.madeReady t

theorem threadCreate_eq_ok {k k' : Kernel} {t : ThreadPtr} {priority : Int} :
    threadCreate k t priority = .ok k' ↔
      (t ∉ k.allList ∧ t ≠ initialThread) ∧ (PRI_MIN ≤ priority ∧ priority ≤ PRI_MAX) ∧
        k' = initThread k t priority := by
  simp only [threadCreate, assert_bind_eq_ok, Except.ok.injEq]
  exact and_congr_right fun _ => and_congr_right fun _ => eq_comm

theorem threadStartNew_eq_ok {k k' : Kernel} {t : ThreadPtr} {priority tid : Int} :
    threadStartNew k t priority tid = .ok k' ↔
      k.status t = .blocked ∧
        ((k.priority k.running < priority ∧ threadYield (k.started t tid) = .ok k') ∨
          (priority ≤ k.priority k.running ∧ k' = k.started t tid)) := by
  have hsplit : ∀ x : Except Fault Kernel,
      (if k.priority k.running < priority then x else .ok (k.started t tid)) = .ok k' ↔
        (k.priority k.running < priority ∧ x = .ok k') ∨
          (priority ≤ k.priority k.running ∧ k' = k.started t tid) := by
    intro x
    by_cases hp : k.priority k.running < priority
    · simp [hp, not_le.2 hp]
    · simp [hp, not_lt.1 hp, eq_comm]
  rw [← hsplit, threadStartNew, bind_eq_ok]
  constructor
  · rintro ⟨k₁, hu, h⟩
    obtain ⟨hb, rfl⟩ := threadUnblock_eq_ok.1 hu
    exact ⟨hb, h⟩
  · rintro ⟨hb, h⟩
    exact ⟨_, threadUnblock_eq_ok.2 ⟨hb, rfl⟩, h⟩

/-! ## Priorities and donations -/

/-- `lock_holder->priority = cur->priority`. -/
def Kernel.donatedTo (k : Kernel) (h : ThreadPtr) : Kernel :=
  { k with priority := update k.priority h (k.priority k.running) }

/-- The `while` loop of `donate_priority`: `h` is `lock_holder`.  The fuel bounds the number of
holders; running out of it is a loop that does not end. -/
def donateLoop : Nat → Kernel → ThreadPtr → Except Fault Kernel
  | 0, _, _ => .error .diverges
  | n + 1, k, h =>
      match k.waitingLock h with
      | none => .ok k
      | some l =>
          match k.holder l with
          | none => .error .nullPointer
          | some h' => donateLoop n (k.donatedTo h') h'

/-- `donate_priority`. -/
def donatePriority (k : Kernel) : Except Fault Kernel :=
  match k.waitingLock k.running with
  | none => .error .nullPointer
  | some l =>
      match k.holder l with
      | none => .error .nullPointer
      | some h => donateLoop (k.allList.length + 1) (k.donatedTo h) h

/-- The loop of `remove_lock` over the donors that are still to be visited. -/
def removeLoop (l : LockPtr) : List ThreadPtr → Kernel → Kernel
  | [], k => k
  | t :: ts, k =>
      if k.waitingLock t = some l then
        removeLoop l ts
          { k with
            waitingLock := update k.waitingLock t none
            donations := update k.donations k.running ((k.donations k.running).erase t) }
      else removeLoop l ts k

/-- `remove_lock`. -/
def removeLock (k : Kernel) (l : LockPtr) : Kernel :=
  removeLoop l (k.donations k.running) k

/-- `reset_priority`: the initial priority, or the priority of the donor that the sort puts
first. -/
def resetPriority (k : Kernel) : Kernel :=
  let k := { k with priority := update k.priority k.running (k.initPriority k.running) }
  match sort (compareDonation k) (k.donations k.running) with
  | [] => k
  | d :: ds =>
      let k := { k with donations := update k.donations k.running (d :: ds) }
      if k.priority k.running < k.priority d then
        { k with priority := update k.priority k.running (k.priority d) }
      else k

/-- `thread_set_priority`. -/
def threadSetPriority (k : Kernel) (p : Int) : Except Fault Kernel :=
  stealRunningByPriority <| resetPriority
    { k with
      priority := update k.priority k.running p
      initPriority := update k.initPriority k.running p }

/-! ## Sleeping and the timer interrupt -/

/-- `int64_t` arithmetic: the value modulo 2^64 in the signed range. -/
def toInt64 (n : Int) : Int :=
  (n + 2 ^ 63) % 2 ^ 64 - 2 ^ 63

theorem toInt64_eq {n : Int} (h : -2 ^ 63 ≤ n ∧ n < 2 ^ 63) : toInt64 n = n := by
  unfold toInt64
  omega

/-- `thread_toSleep`. -/
def threadToSleep (k : Kernel) (ticks : Int) : Kernel :=
  { k with
    sleepingTicks := update k.sleepingTicks k.running ticks
    sleepingList := k.sleepingList ++ [k.running] }

/-- The critical section of `timer_sleep`. -/
def sleepUntil (k : Kernel) (ticks : Int) : Except Fault Kernel :=
  threadBlock (threadToSleep k ticks)

/-- `t` taken off the sleeping list and made ready. -/
def Kernel.awakened (k : Kernel) (t : ThreadPtr) : Kernel :=
  { k with sleepingList := k.sleepingList.erase t }.madeReady t

/-- The loop of `thread_awake` over the sleepers that are still to be visited. -/
def awakeLoop (now : Int) : List ThreadPtr → Kernel → Except Fault Kernel
  | [], k => .ok k
  | t :: ts, k =>
      if k.sleepingTicks t ≤ now then do
        let k ← threadUnblock { k with sleepingList := k.sleepingList.erase t } t
        awakeLoop now ts k
      else awakeLoop now ts k

/-- `thread_awake`. -/
def threadAwake (k : Kernel) (now : Int) : Except Fault Kernel :=
  awakeLoop now k.sleepingList k

/-- `thread_tick`; the flag is `intr_yield_on_return`. -/
def threadTick (k : Kernel) : Kernel × Bool :=
  let k :=
    if k.idleThread = some k.running then { k with idleTicks := k.idleTicks + 1 }
    else { k with kernelTicks := k.kernelTicks + 1 }
  let k := { k with threadTicks := k.threadTicks + 1 }
  (k, decide (TIME_SLICE ≤ k.threadTicks))

/-- Back from an interrupt handler. -/
def Kernel.returned (k : Kernel) : Kernel :=
  { k with intrContext := false }

/-- `ticks` behind `ticks++`. -/
def Kernel.now (k : Kernel) : Int :=
  toInt64 (k.ticks + 1)

/-- The handler `timer_interrupt` runs in interrupt context; a requested yield follows on
return. -/
def timerInterrupt (k : Kernel) : Except Fault Kernel := do
  let (k, yieldOnReturn) := threadTick { k with ticks := k.now, intrContext := true }
  let k ← threadAwake k k.ticks
  if yieldOnReturn then threadYield k.returned else .ok k.returned

/-- The kernel when `timer_interrupt` calls `thread_awake`. -/
def Kernel.ticked (k : Kernel) : Kernel :=
  { k with
    ticks := k.now
    intrContext := true
    idleTicks := if k.idleThread = some k.running then k.idleTicks + 1 else k.idleTicks
    kernelTicks := if k.idleThread = some k.running then k.kernelTicks else k.kernelTicks + 1
    threadTicks := k.threadTicks + 1 }

theorem threadTick_eq (k : Kernel) :
    threadTick { k with ticks := k.now, intrContext := true } =
      (k.ticked, decide (TIME_SLICE ≤ k.threadTicks + 1)) := by
  by_cases hi : k.idleThread = some k.running <;> simp [threadTick, Kernel.ticked, hi]

theorem timerInterrupt_eq_ok {k k' : Kernel} :
    timerInterrupt k = .ok k' ↔
      ∃ k₁, awakeLoop k.now k.sleepingList k.ticked = .ok k₁ ∧
        ((TIME_SLICE ≤ k.threadTicks + 1 ∧ threadYield k₁.returned = .ok k') ∨
          (k.threadTicks + 1 < TIME_SLICE ∧ k' = k₁.returned)) := by
  simp only [timerInterrupt, threadTick_eq, bind_eq_ok]
  refine exists_congr fun k₁ => and_congr_right fun _ => ?_
  by_cases hs : TIME_SLICE ≤ k.threadTicks + 1
  · simp [hs, not_lt.2 hs]
  · simp [hs, not_le.1 hs, eq_comm]

end Project2
end Pintos
