import Pintos.Project2.Synch
import Pintos.Lib.Execution

/-!
# System — threads executing the kernel's operations

A `System` is the kernel's memory together with what each thread still has to execute of the
operation it is in: a list of `Frame`s, empty while the thread is in its own code.  The steps are

* `call`: the running thread, in its own code, calls an operation;
* `exec`: the running thread executes its next frame;
* `tick`: the timer interrupt, possible whenever the running thread has interrupts enabled;
* `preempt`: a switch to any ready thread at such a moment.  The code never does this (a timer
  interrupt yields to the thread of highest priority); it is there for the properties that are to
  hold under every interleaving, and the others exclude it.

The locks' functions come in the two granularities of `Synch`: `Grain.calls` executes each call up
to its block or return in one frame, `Grain.statements` one statement at a time.
-/

namespace Pintos
namespace Project2

open Lib Function

/-! ## Frames -/

/-- What a caller of `sema_down` does when it returns. -/
inductive AfterDown
  /-- nothing: the caller is the operation itself -/
  | ret
  /-- the last two statements of `lock_acquire`, at once -/
  | acquired (l : LockPtr)
  /-- the last two statements of `lock_acquire`, one by one -/
  | acquiring (l : LockPtr)
  deriving DecidableEq, Repr

/-- A piece of an operation that a thread still has to execute. -/
inductive Frame
  -- `synch.c`: semaphores; `downLoop` is the loop of `sema_down` back from `thread_block`
  | down (s : SemaPtr) (after : AfterDown)
  | downLoop (s : SemaPtr) (after : AfterDown)
  | semaTryDown (s : SemaPtr)
  | semaUp (s : SemaPtr)
  -- locks, a call at a time
  | lockAcquire (l : LockPtr)
  | lockTryAcquire (l : LockPtr)
  | lockRelease (l : LockPtr)
  -- locks, a statement at a time
  | acquireEntry (l : LockPtr)
  | tryEntry (l : LockPtr)
  | tryDown (l : LockPtr)
  | releaseEntry (l : LockPtr)
  | stmt (st : LockStmt)
  -- conditions; `condReturn` is the end of `cond_wait`
  | condEnqueue (c : CondPtr) (l : LockPtr)
  | condSignal (c : CondPtr) (l : LockPtr)
  | condBroadcast (c : CondPtr) (l : LockPtr)
  | condReturn (c : CondPtr) (l : LockPtr)
  -- `thread.c`; `takeTid` is the body of `allocate_tid`
  | threadCreate (t : ThreadPtr) (priority : Int)
  | takeTid (t : ThreadPtr) (priority : Int)
  | startNew (t : ThreadPtr) (priority : Int) (tid : Int)
  | threadYield
  | threadExit
  | threadSetPriority (priority : Int)
  | threadBlock
  | blockReturn
  | threadUnblock (t : ThreadPtr)
  -- `timer_sleep`
  | timerSleep (ticks : Int)
  | sleepUntil (ticks : Int)
  | sleepReturn
  -- `thread_start` and `idle`
  | threadStart (idle : ThreadPtr)
  | setIdle
  | idleUp
  | idleLoop
  deriving DecidableEq, Repr

/-- Frames in which a thread comes back from `thread_block` with interrupts still off. -/
def Frame.isReturn : Frame → Bool
  | .downLoop _ _ | .blockReturn | .sleepReturn => true
  | _ => false

/-- How finely the locks' functions are cut into frames. -/
inductive Grain
  | calls
  | statements
  deriving DecidableEq, Repr

structure Config where
  grain : Grain
  /-- the comparison by which a condition's waiters are kept in order -/
  order : Kernel → ThreadPtr → ThreadPtr → Bool

/-- The code as it is, a call of a lock function at a time. -/
def Config.calls : Config := ⟨.calls, compareSema⟩

/-- The code as it is, a statement of a lock function at a time. -/
def Config.statements : Config := ⟨.statements, compareSema⟩

def acquireFrame : Grain → LockPtr → Frame
  | .calls => .lockAcquire
  | .statements => .acquireEntry

def tryFrame : Grain → LockPtr → Frame
  | .calls => .lockTryAcquire
  | .statements => .tryEntry

def releaseFrame : Grain → LockPtr → Frame
  | .calls => .lockRelease
  | .statements => .releaseEntry

/-! ## Executing a frame -/

/-- What a frame does to the locks that the thread's own program counts as acquired. -/
inductive HeldChange
  | same
  | acquired (l : LockPtr)
  | released (l : LockPtr)
  deriving DecidableEq, Repr

def HeldChange.apply : HeldChange → List LockPtr → List LockPtr
  | .same, h => h
  | .acquired l, h => l :: h
  | .released l, h => h.erase l

/-- The kernel after a frame, the frames that replace it, and what became of the locks held. -/
structure Outcome where
  kernel : Kernel
  push : List Frame
  change : HeldChange

def Kernel.done (k : Kernel) : Outcome := ⟨k, [], .same⟩

def Kernel.andThen (k : Kernel) (fs : List Frame) : Outcome := ⟨k, fs, .same⟩

/-- The caller of `sema_down` goes on. -/
def AfterDown.finish (k : Kernel) : AfterDown → Outcome
  | .ret => k.done
  | .acquired l => ⟨k.acquired l, [], .acquired l⟩
  | .acquiring l => k.andThen [.stmt .clearWaiting, .stmt (.setHolder l)]

/-- `sema_down` has got the semaphore, or it waits in its loop. -/
def downOutcome (s : SemaPtr) (after : AfterDown) (k : Kernel) (got : Bool) : Outcome :=
  if got then after.finish k else k.andThen [.downLoop s after]

def stmtChange : LockStmt → HeldChange
  | .setHolder l => .acquired l
  | _ => .same

def runFrame (cfg : Config) (k : Kernel) : Frame → Except Fault Outcome
  | .down s after => do
      let (k, got) ← semaDown k s
      .ok (downOutcome s after k got)
  | .downLoop s after => do
      let (k, got) ← semaDownTurn k s
      .ok (downOutcome s after k got)
  | .semaTryDown s => .ok (semaTryDown k s).1.done
  | .semaUp s => do
      let k ← semaUp k s
      .ok k.done
  | .lockAcquire l => do
      let (k, got) ← lockAcquire k l
      if got then .ok ⟨k, [], .acquired l⟩
      else .ok (k.andThen [.downLoop (.ofLock l) (.acquired l)])
  | .lockTryAcquire l => do
      let (k, success) ← lockTryAcquire k l
      .ok ⟨k, [], if success then .acquired l else .same⟩
  | .lockRelease l => do
      let k ← lockRelease k l
      .ok ⟨k, [], .released l⟩
  | .acquireEntry l => do
      assert (k.intrContext = false) .intrContext
      assert (k.holder l ≠ some k.running) .lockHeld
      .ok (k.andThen [.stmt (.acquireTest l), .down (.ofLock l) (.acquiring l)])
  | .tryEntry l => do
      assert (k.holder l ≠ some k.running) .lockHeld
      .ok (k.andThen [.tryDown l])
  | .tryDown l =>
      let (k, success) := semaTryDown k (.ofLock l)
      .ok (k.andThen (if success then [.stmt (.setHolder l)] else []))
  | .releaseEntry l => do
      assert (k.holder l = some k.running) .lockNotHeld
      .ok ⟨k, [.stmt (.clearHolder l), .stmt (.removeBegin l), .stmt .resetInit,
        .semaUp (.ofLock l)], .released l⟩
  | .stmt st => do
      let (k, next) ← st.run k
      .ok ⟨k, next.map .stmt, stmtChange st⟩
  | .condEnqueue c l => do
      let k ← condEnqueue cfg.order k c l
      .ok k.done
  | .condSignal c l => do
      let k ← condSignal cfg.order k c l
      .ok k.done
  | .condBroadcast c l =>
      if k.condWaiters c = [] then .ok k.done
      else do
        let k ← condSignal cfg.order k c l
        .ok (k.andThen [.condBroadcast c l])
  | .condReturn _ _ => .ok k.done
  | .threadCreate t p => do
      let k ← threadCreate k t p
      .ok (k.andThen [acquireFrame cfg.grain .tidLock, .takeTid t p])
  | .takeTid t p =>
      .ok ({ k with nextTid := k.nextTid + 1 }.andThen
        [releaseFrame cfg.grain .tidLock, .startNew t p k.nextTid])
  | .startNew t p tid => do
      let k ← threadStartNew k t p tid
      .ok k.done
  | .threadYield => do
      let k ← threadYield k
      .ok k.done
  | .threadExit => do
      let k ← threadExit k
      .ok k.done
  | .threadSetPriority p => do
      let k ← threadSetPriority k p
      .ok k.done
  | .threadBlock => do
      let k ← threadBlock k
      .ok (k.andThen [.blockReturn])
  | .blockReturn => .ok k.done
  | .threadUnblock t => do
      let k ← threadUnblock k t
      .ok k.done
  | .timerSleep n => .ok (k.andThen [.sleepUntil (toInt64 (k.ticks + n))])
  | .sleepUntil d => do
      let k ← sleepUntil k d
      .ok (k.andThen [.sleepReturn])
  | .sleepReturn => .ok k.done
  | .threadStart t => do
      let k ← threadCreate k t PRI_MIN
      .ok (k.andThen
        [acquireFrame cfg.grain .tidLock, .takeTid t PRI_MIN, .down .idleStarted .ret])
  | .setIdle => .ok ({ k with idleThread := some k.running }.andThen [.idleUp])
  | .idleUp => do
      let k ← semaUp k .idleStarted
      .ok (k.andThen [.idleLoop])
  | .idleLoop => do
      let k ← threadBlock k
      .ok (k.andThen [.idleLoop])

/-- The thread that a frame creates, with the code it starts in. -/
def Frame.spawns : Frame → Option (ThreadPtr × List Frame)
  | .threadCreate t _ => some (t, [])
  | .threadStart t => some (t, [.setIdle])
  | _ => none

/-! ## The system -/

structure System where
  kernel : Kernel
  /-- what each thread still has to execute of its current operation -/
  code : ThreadPtr → List Frame
  /-- the locks that each thread's program has acquired and not begun to release; like
  `lock->holder` they stay with the page when a thread exits and its page is used again -/
  held : ThreadPtr → List LockPtr

/-- Make room for a new thread. -/
def spawnCode (f : Frame) (code : ThreadPtr → List Frame) : ThreadPtr → List Frame :=
  match f.spawns with
  | none => code
  | some (t, fs) => update code t fs

namespace System

/-- The system after the running thread has executed the frame `f` in front of `rest`. -/
def after (σ : System) (f : Frame) (rest : List Frame) (o : Outcome) : System where
  kernel := o.kernel
  code := update (spawnCode f σ.code) σ.kernel.running (o.push ++ rest)
  held := update σ.held σ.kernel.running (o.change.apply (σ.held σ.kernel.running))

/-- Interrupts are off only while a thread is on its way back from `thread_block`. -/
def InterruptsOn (σ : System) : Prop :=
  ∀ f ∈ (σ.code σ.kernel.running).head?, f.isReturn = false

instance instDecidableInterruptsOn (σ : System) : Decidable σ.InterruptsOn :=
  inferInstanceAs (Decidable (∀ f ∈ (σ.code σ.kernel.running).head?, f.isReturn = false))

end System

/-- The operations that a thread's program can call. -/
inductive Op
  | threadCreate (t : ThreadPtr) (priority : Int)
  | threadYield
  | threadExit
  | threadSetPriority (priority : Int)
  | threadBlock
  | threadUnblock (t : ThreadPtr)
  | timerSleep (ticks : Int)
  | semaDown (n : Nat)
  | semaTryDown (n : Nat)
  | semaUp (n : Nat)
  | lockAcquire (n : Nat)
  | lockTryAcquire (n : Nat)
  | lockRelease (n : Nat)
  | condWait (c : CondPtr) (n : Nat)
  | condSignal (c : CondPtr) (n : Nat)
  | condBroadcast (c : CondPtr) (n : Nat)
  deriving DecidableEq, Repr

/-- The frames of an operation called by the thread `cur`. -/
def Op.frames (g : Grain) (cur : ThreadPtr) : Op → List Frame
  | .threadCreate t p => [.threadCreate t p]
  | .threadYield => [.threadYield]
  | .threadExit => [.threadExit]
  | .threadSetPriority p => [.threadSetPriority p]
  | .threadBlock => [.threadBlock]
  | .threadUnblock t => [.threadUnblock t]
  | .timerSleep n => [.timerSleep n]
  | .semaDown n => [.down (.sema n) .ret]
  | .semaTryDown n => [.semaTryDown (.sema n)]
  | .semaUp n => [.semaUp (.sema n)]
  | .lockAcquire n => [acquireFrame g (.lock n)]
  | .lockTryAcquire n => [tryFrame g (.lock n)]
  | .lockRelease n => [releaseFrame g (.lock n)]
  | .condWait c n =>
      [.condEnqueue c (.lock n), releaseFrame g (.lock n), .down (.waiter cur) .ret,
        acquireFrame g (.lock n), .condReturn c (.lock n)]
  | .condSignal c n => [.condSignal c (.lock n)]
  | .condBroadcast c n => [.condBroadcast c (.lock n)]

inductive Act
  | call (o : Op)
  | exec
  | tick
  | preempt (t : ThreadPtr)
  deriving DecidableEq, Repr

/-- A switch from the running thread to the ready thread `t`. -/
def Kernel.switchTo (k : Kernel) (t : ThreadPtr) : Kernel :=
  k.yielding.dispatch t (k.yielding.readyList.erase t)

/-- The steps of the system; `none` when the step is not possible or ends in a fault. -/
def step (cfg : Config) : Act → System → Option System
  | .call o, σ =>
      match σ.code σ.kernel.running with
      | [] =>
          some { σ with
            code := update σ.code σ.kernel.running (o.frames cfg.grain σ.kernel.running) }
      | _ :: _ => none
  | .exec, σ =>
      match σ.code σ.kernel.running with
      | [] => none
      | f :: rest =>
          match runFrame cfg σ.kernel f with
          | .ok o => some (σ.after f rest o)
          | .error _ => none
  | .tick, σ =>
      if σ.InterruptsOn then
        match timerInterrupt σ.kernel with
        | .ok k => some { σ with kernel := k }
        | .error _ => none
      else none
  | .preempt t, σ =>
      if σ.InterruptsOn ∧ t ∈ σ.kernel.readyList then
        some { σ with kernel := σ.kernel.switchTo t }
      else none

/-! ## The start -/

/-- The kernel when `thread_init` has returned: the initial thread runs, every lock is free, and
a page that holds no thread counts as dying. -/
def bootKernel (init : Nat → Fin unsignedSize) : Kernel where
  tid := fun _ => 1
  status := fun t => if t = initialThread then .running else .dying
  sleepingTicks := fun _ => 0
  initPriority := fun _ => PRI_DEFAULT
  priority := fun _ => PRI_DEFAULT
  waitingLock := fun _ => none
  donations := fun _ => []
  readyList := []
  allList := [initialThread]
  sleepingList := []
  idleThread := none
  running := initialThread
  idleTicks := 0
  kernelTicks := 0
  threadTicks := 0
  nextTid := 2
  ticks := 0
  intrContext := false
  value
    | .sema n => init n
    | .ofLock _ => 1
    | .idleStarted | .waiter _ => 0
  waiters := fun _ => []
  holder := fun _ => none
  condWaiters := fun _ => []

/-- The initial thread in `thread_start`, behind `sema_init (&idle_started, 0)`; `idle` is the page
that the idle thread will get, and `init` gives the initial values of the plain semaphores. -/
def boot (init : Nat → Fin unsignedSize) (idle : ThreadPtr) : System where
  kernel := bootKernel init
  code := fun t => if t = initialThread then [.threadStart idle] else []
  held := fun _ => []

/-- Every plain semaphore starts at 0. -/
def allZero (_ : Nat) : Fin unsignedSize :=
  ⟨0, by decide⟩

/-- From `thread_start` to the initial thread's own code, at `Grain.calls`. -/
def bootActs : List Act :=
  List.replicate 9 .exec

/-- A whole call of `thread_create` that finds the lock of `allocate_tid` free. -/
def createActs (t : ThreadPtr) (priority : Int) : List Act :=
  .call (.threadCreate t priority) :: List.replicate 5 .exec

/-! ## What a step can do -/

variable {cfg : Config} {σ σ' : System}

theorem step_call_iff {o : Op} :
    step cfg (.call o) σ = some σ' ↔
      σ.code σ.kernel.running = [] ∧
        σ' = { σ with
          code := update σ.code σ.kernel.running (o.frames cfg.grain σ.kernel.running) } := by
  cases hc : σ.code σ.kernel.running with
  | nil =>
      simp [step, hc, eq_comm]
  | cons f rest =>
      simp [step, hc]

theorem step_exec_iff :
    step cfg .exec σ = some σ' ↔
      ∃ f rest o, σ.code σ.kernel.running = f :: rest ∧ runFrame cfg σ.kernel f = .ok o ∧
        σ' = σ.after f rest o := by
  cases hc : σ.code σ.kernel.running with
  | nil =>
      simp [step, hc]
  | cons f rest =>
      cases hr : runFrame cfg σ.kernel f with
      | error e =>
          simp only [step, hc, hr]
          constructor
          · intro h
            cases h
          · rintro ⟨f', rest', o, hcons, ho, -⟩
            cases hcons
            simp [hr] at ho
      | ok o =>
          simp only [step, hc, hr, Option.some.injEq]
          constructor
          · rintro rfl
            exact ⟨f, rest, o, rfl, hr, rfl⟩
          · rintro ⟨f', rest', o', hcons, ho, rfl⟩
            cases hcons
            rw [hr] at ho
            cases ho
            rfl

theorem step_tick_iff :
    step cfg .tick σ = some σ' ↔
      σ.InterruptsOn ∧ ∃ k, timerInterrupt σ.kernel = .ok k ∧ σ' = { σ with kernel := k } := by
  by_cases hi : σ.InterruptsOn
  · cases ht : timerInterrupt σ.kernel <;> simp [step, hi, ht, eq_comm]
  · simp [step, hi]

theorem step_preempt_iff {t : ThreadPtr} :
    step cfg (.preempt t) σ = some σ' ↔
      (σ.InterruptsOn ∧ t ∈ σ.kernel.readyList) ∧
        σ' = { σ with kernel := σ.kernel.switchTo t } := by
  by_cases hi : σ.InterruptsOn ∧ t ∈ σ.kernel.readyList
  · simp only [step, hi, and_self, if_true, Option.some.injEq, true_and]
    exact eq_comm
  · simp only [step, hi, if_false, false_and, reduceCtorEq]

end Project2
end Pintos
