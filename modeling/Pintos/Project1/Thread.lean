import Pintos.Project2.Synch

/-!
# Thread — project 1's `thread.c` and the timer interrupt of `timer.c`

The scheduler is the first-in first-out one that Pintos comes with.  `elem` of a thread is linked
in `ready_list` or in `sleeping_list`, never in both; a list is the list of the threads whose
`elem` it links.

The types of project 1's `thread.h` are those of project 2's.
-/

namespace Pintos
namespace Project1

open Function
open Project2 (ThreadPtr ThreadStatus Fault assert assert_bind_eq_ok bind_eq_ok listNext toInt64
  initialThread PRI_MIN PRI_DEFAULT PRI_MAX TIME_SLICE)

/-- The memory that `thread.c` and the timer interrupt work on. -/
structure Kernel where
  -- `struct thread`
  status : ThreadPtr → ThreadStatus
  priority : ThreadPtr → Int
  sleepingTicks : ThreadPtr → Int
  -- `thread.c`
  readyList : List ThreadPtr
  allList : List ThreadPtr
  sleepingList : List ThreadPtr
  idleThread : Option ThreadPtr
  running : ThreadPtr
  idleTicks : Nat
  kernelTicks : Nat
  threadTicks : Nat
  -- `timer.c` and the interrupt controller
  ticks : Int
  intrContext : Bool

variable {k k' : Kernel}

/-! ## Switching -/

/-- `next_thread_to_run`. -/
def nextThreadToRun (k : Kernel) : Option ThreadPtr × Kernel :=
  match k.readyList with
  | [] => (k.idleThread, k)
  | t :: rest => (some t, { k with readyList := rest })

/-- `thread_schedule_tail`, after the switch. -/
def threadScheduleTail (k : Kernel) : Kernel :=
  { k with status := update k.status k.running .running, threadTicks := 0 }

def schedule (k : Kernel) : Except Fault Kernel := do
  assert (k.status k.running ≠ .running) .stillRunning
  match nextThreadToRun k with
  | (none, _) => .error .notThread
  | (some next, k) => .ok (threadScheduleTail { k with running := next })

/-- `next_thread_to_run` returns `t` and leaves `rest` of the ready list. -/
def Next (k : Kernel) (t : ThreadPtr) (rest : List ThreadPtr) : Prop :=
  (k.readyList = [] ∧ rest = [] ∧ k.idleThread = some t) ∨ k.readyList = t :: rest

/-- The kernel after a switch to `t`. -/
def Kernel.dispatch (k : Kernel) (t : ThreadPtr) (rest : List ThreadPtr) : Kernel :=
  { k with
    readyList := rest
    running := t
    status := update k.status t .running
    threadTicks := 0 }

theorem schedule_eq_ok :
    schedule k = .ok k' ↔
      k.status k.running ≠ .running ∧ ∃ t rest, Next k t rest ∧ k' = k.dispatch t rest := by
  simp only [schedule, nextThreadToRun, assert_bind_eq_ok]
  refine and_congr_right fun _ => ?_
  cases hr : k.readyList with
  | nil =>
      cases hi : k.idleThread with
      | none =>
          simp [Next, hr, hi]
      | some i =>
          simp only [hi, Next, hr, Option.some.injEq, true_and, List.nil_eq, reduceCtorEq,
            or_false, Except.ok.injEq]
          constructor
          · rintro rfl
            exact ⟨i, [], ⟨rfl, rfl⟩, by simp [threadScheduleTail, Kernel.dispatch, hi]⟩
          · rintro ⟨t, rest, ⟨rfl, rfl⟩, rfl⟩
            simp [threadScheduleTail, Kernel.dispatch, hi]
  | cons t rest =>
      simp only [Next, hr, reduceCtorEq, false_and, false_or, List.cons.injEq, Except.ok.injEq]
      constructor
      · rintro rfl
        exact ⟨t, rest, ⟨rfl, rfl⟩, rfl⟩
      · rintro ⟨t', rest', ⟨rfl, rfl⟩, rfl⟩
        rfl

/-- The running thread marked blocked. -/
def Kernel.blocked (k : Kernel) : Kernel :=
  { k with status := update k.status k.running .blocked }

def threadBlock (k : Kernel) : Except Fault Kernel := do
  assert (k.intrContext = false) .intrContext
  schedule k.blocked

/-- The running thread at the end of the ready list, unless it is the idle thread. -/
def Kernel.yielding (k : Kernel) : Kernel :=
  { k with
    readyList :=
      if k.idleThread = some k.running then k.readyList else k.readyList ++ [k.running]
    status := update k.status k.running .ready }

def threadYield (k : Kernel) : Except Fault Kernel := do
  assert (k.intrContext = false) .intrContext
  schedule k.yielding

/-- The running thread off the list of all threads and marked dying. -/
def Kernel.exiting (k : Kernel) : Kernel :=
  { k with
    allList := k.allList.erase k.running
    status := update k.status k.running .dying }

def threadExit (k : Kernel) : Except Fault Kernel := do
  assert (k.intrContext = false) .intrContext
  schedule k.exiting

theorem threadBlock_eq_ok :
    threadBlock k = .ok k' ↔
      k.intrContext = false ∧ ∃ t rest, Next k.blocked t rest ∧ k' = k.blocked.dispatch t rest := by
  simp [threadBlock, schedule_eq_ok, Kernel.blocked]

theorem threadYield_eq_ok :
    threadYield k = .ok k' ↔
      k.intrContext = false ∧
        ∃ t rest, Next k.yielding t rest ∧ k' = k.yielding.dispatch t rest := by
  simp [threadYield, schedule_eq_ok, Kernel.yielding]

theorem threadExit_eq_ok :
    threadExit k = .ok k' ↔
      k.intrContext = false ∧ ∃ t rest, Next k.exiting t rest ∧ k' = k.exiting.dispatch t rest := by
  simp [threadExit, schedule_eq_ok, Kernel.exiting]

/-! ## Making threads ready -/

/-- `t` at the end of the ready list and marked ready. -/
def Kernel.madeReady (k : Kernel) (t : ThreadPtr) : Kernel :=
  { k with readyList := k.readyList ++ [t], status := update k.status t .ready }

def threadUnblock (k : Kernel) (t : ThreadPtr) : Except Fault Kernel := do
  assert (k.status t = .blocked) .notBlocked
  .ok (k.madeReady t)

theorem threadUnblock_eq_ok {t : ThreadPtr} :
    threadUnblock k t = .ok k' ↔ k.status t = .blocked ∧ k' = k.madeReady t := by
  simp only [threadUnblock, assert_bind_eq_ok, Except.ok.injEq]
  exact and_congr_right fun _ => eq_comm

/-- `init_thread` on a zeroed page. -/
def initThread (k : Kernel) (t : ThreadPtr) (priority : Int) : Kernel :=
  { k with
    status := update k.status t .blocked
    priority := update k.priority t priority
    sleepingTicks := update k.sleepingTicks t 0
    allList := k.allList ++ [t] }

/-- The first part of `thread_create`: `palloc_get_page` returns the page `t`, which no thread
uses, and `init_thread` fills it.  Behind `allocate_tid` follows `thread_unblock (t)`. -/
def threadCreate (k : Kernel) (t : ThreadPtr) (priority : Int) : Except Fault Kernel := do
  assert (t ∉ k.allList ∧ t ≠ initialThread) .pageInUse
  assert (PRI_MIN ≤ priority ∧ priority ≤ PRI_MAX) .badPriority
  .ok (initThread k t priority)

theorem threadCreate_eq_ok {t : ThreadPtr} {priority : Int} :
    threadCreate k t priority = .ok k' ↔
      (t ∉ k.allList ∧ t ≠ initialThread) ∧ (PRI_MIN ≤ priority ∧ priority ≤ PRI_MAX) ∧
        k' = initThread k t priority := by
  simp only [threadCreate, assert_bind_eq_ok, Except.ok.injEq]
  exact and_congr_right fun _ => and_congr_right fun _ => eq_comm

/-! ## Sleeping and waking up -/

def threadToSleep (k : Kernel) (ticks : Int) : Kernel :=
  { k with
    sleepingTicks := update k.sleepingTicks k.running ticks
    sleepingList := k.sleepingList ++ [k.running] }

/-- The critical section of `timer_sleep`. -/
def sleepUntil (k : Kernel) (ticks : Int) : Except Fault Kernel :=
  threadBlock (threadToSleep k ticks)

/-- `t` off the sleeping list. -/
def Kernel.unlinked (k : Kernel) (t : ThreadPtr) : Kernel :=
  { k with sleepingList := k.sleepingList.erase t }

/-- The `while` loop of `thread_awake` at the element `e`, `none` being `list_end`.  The fuel bounds
the number of turns. -/
def awakeLoop (now : Int) : Nat → Option ThreadPtr → Kernel → Except Fault Kernel
  | _, none, k => .ok k
  | 0, some _, _ => .error .diverges
  | n + 1, some t, k =>
      if k.sleepingTicks t ≤ now then do
        -- `list_remove` returns the element behind `t`
        let e := listNext t k.sleepingList
        let k ← threadUnblock (k.unlinked t) t
        awakeLoop now n e k
      else awakeLoop now n (listNext t k.sleepingList) k

def threadAwake (k : Kernel) (ticks : Int) : Except Fault Kernel :=
  awakeLoop ticks k.sleepingList.length k.sleepingList.head? k

/-- `thread_tick`; the flag is `intr_yield_on_return`. -/
def threadTick (k : Kernel) : Kernel × Bool :=
  let k :=
    if k.idleThread = some k.running then { k with idleTicks := k.idleTicks + 1 }
    else { k with kernelTicks := k.kernelTicks + 1 }
  let k := { k with threadTicks := k.threadTicks + 1 }
  (k, decide (TIME_SLICE ≤ k.threadTicks))

/-- `ticks` behind `ticks++`. -/
def Kernel.now (k : Kernel) : Int :=
  toInt64 (k.ticks + 1)

/-- The handler `timer_interrupt`, in interrupt context; the flag says that a yield follows on
return. -/
def timerInterrupt (k : Kernel) : Except Fault (Kernel × Bool) := do
  let (k, yieldOnReturn) := threadTick { k with ticks := k.now, intrContext := true }
  let k ← threadAwake k k.ticks
  .ok ({ k with intrContext := false }, yieldOnReturn)

/-! ## What the interrupt does -/

/-- The sleepers whose time has come at `now`. -/
def Kernel.due (k : Kernel) (now : Int) : List ThreadPtr :=
  k.sleepingList.filter fun t => k.sleepingTicks t ≤ now

/-- `ts` at the end of the ready list and marked ready, and `rest` left of the sleeping list. -/
def Kernel.awakened (k : Kernel) (ts rest : List ThreadPtr) : Kernel :=
  { k with
    sleepingList := rest
    readyList := k.readyList ++ ts
    status := fun t => if t ∈ ts then .ready else k.status t }

theorem listNext_append {t : ThreadPtr} {l r : List ThreadPtr} (ht : t ∉ l) :
    listNext t (l ++ t :: r) = r.head? := by
  induction l with
  | nil =>
      simp [listNext]
  | cons x l ih =>
      obtain ⟨hx, hl⟩ := not_or.1 (List.mem_cons.not.1 ht)
      rw [List.cons_append, listNext, if_neg (Ne.symm hx), ih hl]

/-- The loop, at the first element of `r`, wakes those of `r` whose time has come and leaves the
others where they are. -/
theorem awakeLoop_eq {now : Int} {n : Nat} {l r : List ThreadPtr} (hl : k.sleepingList = l ++ r)
    (hnd : (l ++ r).Nodup) (hb : ∀ t ∈ r, k.status t = .blocked) (hn : r.length ≤ n) :
    awakeLoop now n r.head? k = .ok (k.awakened (r.filter fun t => k.sleepingTicks t ≤ now)
      (l ++ r.filter fun t => now < k.sleepingTicks t)) := by
  induction r generalizing n l k with
  | nil =>
      have hl' : l = k.sleepingList := by simpa using hl.symm
      subst hl'
      simp [awakeLoop, Kernel.awakened]
  | cons t r ih =>
      obtain ⟨m, rfl⟩ := Nat.exists_eq_succ_of_ne_zero (Nat.ne_of_gt (Nat.lt_of_lt_of_le
        (Nat.succ_pos r.length) hn))
      have htl : t ∉ l := fun h => (List.nodup_append.1 hnd).2.2 t h t (by simp) rfl
      have htr : t ∉ r := (List.nodup_cons.1 (List.nodup_append.1 hnd).2.1).1
      have hnext : listNext t k.sleepingList = r.head? := by rw [hl, listNext_append htl]
      have hlen : r.length ≤ m := by simpa using hn
      by_cases hdue : k.sleepingTicks t ≤ now
      · -- the element is taken out, and the loop goes on behind it
        have herase : (k.unlinked t).sleepingList = l ++ r := by
          simp [Kernel.unlinked, hl, List.erase_append_right _ htl]
        have hunblock : threadUnblock (k.unlinked t) t = .ok ((k.unlinked t).madeReady t) :=
          threadUnblock_eq_ok.2 ⟨hb t (by simp), rfl⟩
        have herase' : ((k.unlinked t).madeReady t).sleepingList = l ++ r := herase
        have hb' : ∀ u ∈ r, ((k.unlinked t).madeReady t).status u = .blocked := by
          intro u hu
          have hne : u ≠ t := fun e => htr (e ▸ hu)
          simpa [Kernel.madeReady, Kernel.unlinked, hne] using hb u (by simp [hu])
        have hnd' : (l ++ r).Nodup := (List.nodup_middle.1 hnd).of_cons
        have hrest : awakeLoop now m r.head? ((k.unlinked t).madeReady t) =
            .ok (((k.unlinked t).madeReady t).awakened (r.filter fun t => k.sleepingTicks t ≤ now)
              (l ++ r.filter fun t => now < k.sleepingTicks t)) := ih herase' hnd' hb' hlen
        rw [List.head?_cons, awakeLoop, if_pos hdue, hnext, hunblock]
        refine hrest.trans (congrArg Except.ok ?_)
        simp only [Kernel.awakened, Kernel.madeReady, Kernel.unlinked, List.filter_cons, hdue,
          decide_true, if_true, not_lt.2 hdue, decide_false, Bool.false_eq_true, if_false,
          List.append_assoc, List.singleton_append, List.mem_cons]
        congr 1
        funext u
        by_cases hu : u = t
        · simp [hu]
        · simp [hu]
      · have hl' : k.sleepingList = (l ++ [t]) ++ r := by simpa using hl
        rw [List.head?_cons, awakeLoop, if_neg hdue, hnext]
        rw [ih hl' (by simpa using hnd) (fun u hu => hb u (by simp [hu])) hlen]
        simp [hdue, not_le.1 hdue]

/-- The kernel when `timer_interrupt` calls `thread_awake`. -/
def Kernel.ticked (k : Kernel) : Kernel :=
  { k with
    ticks := k.now
    intrContext := true
    idleTicks := if k.idleThread = some k.running then k.idleTicks + 1 else k.idleTicks
    kernelTicks := if k.idleThread = some k.running then k.kernelTicks else k.kernelTicks + 1
    threadTicks := k.threadTicks + 1 }

theorem threadTick_eq (k : Kernel) :
    threadTick { k with ticks := k.now, intrContext := true } =
      (k.ticked, decide (TIME_SLICE ≤ k.threadTicks + 1)) := by
  by_cases hi : k.idleThread = some k.running <;> simp [threadTick, Kernel.ticked, hi]

/-- The kernel when the handler comes back. -/
def Kernel.rung (k : Kernel) : Kernel :=
  { k.ticked.awakened (k.due k.now)
      (k.sleepingList.filter fun t => k.now < k.sleepingTicks t) with intrContext := false }

/-- With every sleeper blocked and linked once, the handler comes back and this is what it does. -/
theorem timerInterrupt_eq (hnd : k.sleepingList.Nodup)
    (hb : ∀ t ∈ k.sleepingList, k.status t = .blocked) :
    timerInterrupt k = .ok (k.rung, decide (TIME_SLICE ≤ k.threadTicks + 1)) := by
  have hloop : threadAwake k.ticked k.now = .ok (k.ticked.awakened (k.due k.now)
      (k.sleepingList.filter fun t => k.now < k.sleepingTicks t)) :=
    @awakeLoop_eq k.ticked k.now _ [] k.sleepingList rfl hnd hb le_rfl
  simp only [timerInterrupt, threadTick_eq]
  show (do let k₁ ← threadAwake k.ticked k.now; _) = _
  rw [hloop]
  rfl

end Project1
end Pintos
