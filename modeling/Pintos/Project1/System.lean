import Pintos.Project1.Thread
import Pintos.Lib.Execution

/-!
# System — threads executing project 1's operations

A `System` is the memory together with where each thread is in its program.  A step is the running
thread calling an operation from its own code, its next statements in an operation, or a timer
interrupt, possible whenever interrupts are on.

The synchronization primitives are not part of the project's sources.  To this model they are code
that blocks its caller and unblocks threads it has blocked, called from a thread's own code, from
`allocate_tid` inside `thread_create` or, at the start, from `idle`.
-/

namespace Pintos
namespace Project1

open Lib Function
open Project2 (ThreadPtr ThreadStatus Fault assert assert_bind_eq_ok bind_eq_ok toInt64
  initialThread PRI_MIN PRI_DEFAULT PRI_MAX TIME_SLICE)

/-! ## Programs -/

/-- Where a thread is in its program. -/
inductive Pc
  | own
  /-- at the start of `thread_start`; `idle` is the page that the idle thread will get -/
  | threadStart (idle : ThreadPtr)
  /-- in `thread_create`, before `thread_unblock (t)` -/
  | creating (t : ThreadPtr)
  /-- in `timer_sleep`, between `timer_ticks ()` and `intr_disable ()` -/
  | sleepUntil (ticks : Int)
  /-- in `timer_sleep`, before it comes back from `thread_block` -/
  | asleep
  -- the statements of `idle`
  | setIdle
  | idleUp
  | idleLoop
  deriving DecidableEq, Repr

/-- What a thread still has to do with interrupts off before it goes on in its program. -/
inductive Return
  /-- come back from a `thread_block` called by a synchronization primitive -/
  | blocked
  /-- yield on return from the timer interrupt -/
  | interrupted
  deriving DecidableEq, Repr

structure System where
  kernel : Kernel
  pc : ThreadPtr → Pc
  pending : ThreadPtr → Option Return

/-! ## Steps -/

inductive Act
  | timerSleep (ticks : Int)
  | threadYield
  | threadBlock
  | threadUnblock (t : ThreadPtr)
  | threadCreate (t : ThreadPtr) (priority : Int)
  | threadExit
  | exec
  | tick
  deriving DecidableEq, Repr

/-- What a thread can do at a place of its program when it has nothing pending. -/
def Act.enabled : Act → Pc → Bool
  | .timerSleep _, .own | .threadYield, .own | .threadCreate _ _, .own | .threadExit, .own => true
  | .threadBlock, .own | .threadBlock, .creating _ => true
  | .threadUnblock _, .own | .threadUnblock _, .creating _ | .threadUnblock _, .idleUp => true
  | .exec, p => p ≠ .own
  | .tick, p => p ≠ .asleep
  | _, _ => false

namespace System

/-- The running thread goes on at `p`. -/
def goto (σ : System) (p : Pc) : System :=
  { σ with pc := update σ.pc σ.kernel.running p }

def exec (σ : System) : Except Fault System :=
  match σ.pc σ.kernel.running with
  | .own => .ok σ
  | .threadStart idle => do
      let k ← threadCreate σ.kernel idle PRI_MIN
      .ok { σ with
        kernel := k
        pc := update (update σ.pc idle .setIdle) σ.kernel.running (.creating idle) }
  | .creating t => do
      let k ← threadUnblock σ.kernel t
      .ok { σ.goto .own with kernel := k }
  | .sleepUntil ticks => do
      let k ← sleepUntil σ.kernel ticks
      .ok { σ.goto .asleep with kernel := k }
  | .asleep => .ok (σ.goto .own)
  | .setIdle =>
      .ok { σ.goto .idleUp with kernel := { σ.kernel with idleThread := some σ.kernel.running } }
  | .idleUp => .ok (σ.goto .idleLoop)
  | .idleLoop => do
      let k ← threadBlock σ.kernel
      .ok { σ with kernel := k }

/-- What the running thread does with nothing pending. -/
def run (σ : System) : Act → Except Fault System
  | .timerSleep n => .ok (σ.goto (.sleepUntil (toInt64 (σ.kernel.ticks + n))))
  | .threadYield => do
      let k ← threadYield σ.kernel
      .ok { σ with kernel := k }
  | .threadBlock => do
      let k ← threadBlock σ.kernel
      .ok { σ with kernel := k, pending := update σ.pending σ.kernel.running (some .blocked) }
  | .threadUnblock t => do
      let k ← threadUnblock σ.kernel t
      .ok { σ with kernel := k }
  | .threadCreate t p => do
      let k ← threadCreate σ.kernel t p
      .ok { σ.goto (.creating t) with kernel := k }
  | .threadExit => do
      let k ← threadExit σ.kernel
      .ok { σ with kernel := k }
  | .exec => σ.exec
  | .tick => do
      let (k, yieldOnReturn) ← timerInterrupt σ.kernel
      .ok { σ with
        kernel := k
        pending :=
          if yieldOnReturn then update σ.pending σ.kernel.running (some .interrupted)
          else σ.pending }

/-- What the running thread does with something pending. -/
def resume (σ : System) : Return → Except Fault System
  | .blocked => .ok { σ with pending := update σ.pending σ.kernel.running none }
  | .interrupted => do
      let k ← threadYield σ.kernel
      .ok { σ with kernel := k, pending := update σ.pending σ.kernel.running none }

/-- Interrupts are on. -/
def InterruptsOn (σ : System) : Prop :=
  σ.pending σ.kernel.running = none ∧ σ.pc σ.kernel.running ≠ .asleep

end System

/-- The steps of the system; `none` when the step is not possible or ends in a fault. -/
def step (a : Act) (σ : System) : Option System :=
  match σ.pending σ.kernel.running with
  | some r => if a = .exec then (σ.resume r).toOption else none
  | none => if a.enabled (σ.pc σ.kernel.running) then (σ.run a).toOption else none

/-- When `thread_init` has returned: the initial thread runs. -/
def bootKernel : Kernel where
  status := fun t => if t = initialThread then .running else .dying
  priority := fun _ => PRI_DEFAULT
  sleepingTicks := fun _ => 0
  readyList := []
  allList := [initialThread]
  sleepingList := []
  idleThread := none
  running := initialThread
  idleTicks := 0
  kernelTicks := 0
  threadTicks := 0
  ticks := 0
  intrContext := false

/-- The initial thread in `thread_start`. -/
def boot (idle : ThreadPtr) : System where
  kernel := bootKernel
  pc := fun t => if t = initialThread then .threadStart idle else .own
  pending := fun _ => none

variable {σ σ' : System} {a : Act}

theorem toOption_eq_some {x : Except Fault System} : x.toOption = some σ' ↔ x = .ok σ' := by
  cases x <;> simp [Except.toOption]

theorem step_iff :
    step a σ = some σ' ↔
      (∃ r, σ.pending σ.kernel.running = some r ∧ a = .exec ∧ σ.resume r = .ok σ') ∨
        (σ.pending σ.kernel.running = none ∧ a.enabled (σ.pc σ.kernel.running) = true ∧
          σ.run a = .ok σ') := by
  unfold step
  cases hp : σ.pending σ.kernel.running with
  | none =>
      by_cases he : a.enabled (σ.pc σ.kernel.running) = true <;> simp [he, toOption_eq_some]
  | some r =>
      by_cases ha : a = .exec <;> simp [ha, toOption_eq_some]

end Project1
end Pintos
