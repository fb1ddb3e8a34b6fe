import Pintos.Lib.Execution
import Pintos.Userprog.Memory

/-!
# Processes — exec, wait and thread_exit with the semaphores of `struct thread`

`sema_exit` and `sema_load` are pointers that nobody assigns.  `thread_create` initialises the
semaphores that they point to; `exec`, `process_wait` and `thread_exit` lower a semaphore at the
address of the pointer itself, so its word is the value there and the fields after it are the list
of waiters.

A step goes from one access to what the processes share to the next.  Only a process itself edits
its child list, which it can therefore scan in one step.
-/

namespace Pintos
namespace Project3

open Userprog Function Lib

abbrev Tid := ℕ

/-! ## State -/

/-- An `ASSERT` fails, or `sema_down` enters the caller into a list that nobody has initialised. -/
inductive Panic
  | assertion
  | strayList
  deriving DecidableEq

/-- Where a thread is.  `t` is the child that a call is about. -/
inductive Pc
  | absent
  /-- `start_process` before `load` has returned -/
  | loading
  | user
  /-- `exec` before `sema_down (&sema_load)` -/
  | execDown (t : Tid)
  /-- `exec` before `list_remove` -/
  | execUnlink (t : Tid)
  /-- `process_wait` before `sema_down (&sema_exit)` -/
  | waitDown (t : Tid)
  /-- `process_wait` before `list_remove` -/
  | waitUnlink (t : Tid)
  /-- `thread_exit` before `isProcessExit = true` -/
  | exiting
  /-- `thread_exit` before `sema_down (&sema_exit)` -/
  | exitDown
  | gone
  deriving DecidableEq

/-- The fields of `struct thread` that the protocol uses, the pointers as words. -/
structure Thread where
  pc : Pc
  children : List Tid
  memoryLoad : Bool
  isProcessExit : Bool
  semaExit : Word
  semaLoad : Word
  exitStatus : ℤ

inductive ProcEvent
  /-- `load` has returned -/
  | loaded (t : Tid) (success : Bool)
  | exitCalled (t : Tid) (status : ℤ)
  | execReturned (p t : Tid)
  /-- `exec` returns -1 -/
  | execFailed (p : Tid)
  /-- `process_wait` has found its child -/
  | waitReturned (p t : Tid) (value : ℤ)
  /-- `process_wait` has not found it and returns -1 -/
  | waitRefused (p : Tid) (tid : ℤ)
  deriving DecidableEq

/-- `value` are the semaphores that have been initialised, by their addresses. -/
structure Machine where
  thread : Tid → Thread
  nextTid : Tid
  value : Word → ℕ
  panic : Option Panic
  log : List ProcEvent

/-- What the `memset` of `init_thread` leaves. -/
def initThread (pc : Pc) : Thread where
  pc := pc
  children := []
  memoryLoad := false
  isProcessExit := false
  semaExit := 0
  semaLoad := 0
  exitStatus := 0

/-- After `thread_init`, with the initial thread alone. -/
def newMachine : Machine where
  thread := fun t => initThread (if t = 1 then .user else .absent)
  nextTid := 2
  value := fun _ => 0
  panic := none
  log := []

namespace Machine

variable (m : Machine) (p : Tid)

def set (th : Thread) : Machine := { m with thread := update m.thread p th }

def goto (pc : Pc) : Machine := m.set p { m.thread p with pc := pc }

def record (e : ProcEvent) : Machine := { m with log := m.log ++ [e] }

end Machine

/-! ## Calls -/

def semaInit (sema : Word) (value : ℕ) (m : Machine) : Except Panic Machine :=
  if sema = 0 then .error .assertion else .ok { m with value := update m.value sema value }

/-- `sema_down` of a field that holds the word `w`, with the word that it leaves. -/
def semaDown (w : Word) : Except Panic Word := if w = 0 then .error .strayList else .ok (w - 1)

def assert (b : Bool) : Except Panic Unit := if b then .ok () else .error .assertion

/-- `thread_create` of the thread `p`, when `palloc_get_page` has returned a page.  The new thread
starts at `entry`. -/
def threadCreate (p : Tid) (entry : Pc) (m : Machine) : Except Panic (Tid × Machine) := do
  let t := m.nextTid
  let parent := m.thread p
  assert (parent.memoryLoad != true)
  assert (parent.isProcessExit != true)
  let m ← semaInit parent.semaExit 0 { m with nextTid := t + 1 }
  let m ← semaInit parent.semaLoad 0 m
  let m := m.set p { parent with children := parent.children ++ [t] }
  pure (t, m.set t (initThread entry))

/-- The rest of `exec`: the loop over the children, up to `sema_down`. -/
def execScan (p : Tid) (tid : ℤ) (m : Machine) : Machine :=
  match (m.thread p).children.find? fun (t : Tid) => tid = t with
  | none => m.record (.execFailed p)
  | some t => m.goto p (.execDown t)

/-- The loop of `process_wait`, up to `sema_down`. -/
def processWait (p : Tid) (tid : ℤ) (m : Machine) : Machine :=
  match (m.thread p).children.find? fun (t : Tid) => tid = t with
  | none => m.record (.waitRefused p tid)
  | some t => m.goto p (.waitDown t)

/-- `list_remove` of a child. -/
def unlink (p t : Tid) (m : Machine) : Machine :=
  m.set p { m.thread p with children := (m.thread p).children.erase t }

/-! ## Steps -/

inductive ProcAct
  /-- `thread_create` of a kernel thread -/
  | create (p : Tid) (page : Bool)
  /-- `exec`, with the results of the two calls of `palloc_get_page` -/
  | exec (p : Tid) (fnCopy page : Bool)
  | wait (p : Tid) (tid : ℤ)
  | exit (p : Tid) (status : ℤ)
  | load (t : Tid) (success : Bool)
  | run (p : Tid)
  deriving DecidableEq

/-- The next access of a thread that is in the kernel. -/
def runStep (p : Tid) (m : Machine) : Option (Except Panic Machine) :=
  let th := m.thread p
  match th.pc with
  -- `sema_down (&sema_load)` takes the pointer's word for the value
  | .execDown t => some do
      let w ← semaDown th.semaLoad
      pure (m.set p { th with semaLoad := w, pc := .execUnlink t })
  | .execUnlink t => some (.ok (((unlink p t m).goto p .user).record (.execReturned p t)))
  | .waitDown t => some do
      let w ← semaDown th.semaExit
      pure (m.set p { th with semaExit := w, pc := .waitUnlink t })
  | .waitUnlink t =>
      let value := (m.thread t).exitStatus
      some (.ok (((unlink p t m).goto p .user).record (.waitReturned p t value)))
  | .exiting => some (.ok (m.set p { th with isProcessExit := true, pc := .exitDown }))
  | .exitDown => some do
      let w ← semaDown th.semaExit
      pure (m.set p { th with semaExit := w, pc := .gone })
  | .absent | .loading | .user | .gone => none

/-- The step of a kernel that has not panicked. -/
def kernelStep (a : ProcAct) (m : Machine) : Option (Except Panic Machine) :=
  match a with
  | .create p page =>
      if (m.thread p).pc = .user then
        some (if page then (threadCreate p .user m).map Prod.snd else .ok m)
      else none
  | .exec p fnCopy page =>
      if (m.thread p).pc = .user then
        -- `thread_create` is not called, or returns `TID_ERROR`, without the pages
        some (if fnCopy && page then
            (threadCreate p .loading m).map fun r => execScan p r.1 r.2
          else .ok (execScan p (-1) m))
      else none
  | .wait p tid => if (m.thread p).pc = .user then some (.ok (processWait p tid m)) else none
  | .exit p status =>
      if (m.thread p).pc = .user then
        some (.ok ((m.set p { m.thread p with exitStatus := status, pc := .exiting }).record
          (.exitCalled p status)))
      else none
  | .load t success =>
      if (m.thread t).pc = .loading then
        some (.ok ((m.goto t (if success then .user else .exiting)).record (.loaded t success)))
      else none
  | .run p => runStep p m

def procStep (a : ProcAct) (m : Machine) : Option Machine :=
  if m.panic = none then
    (kernelStep a m).map fun r =>
      match r with
      | .error e => { m with panic := some e }
      | .ok m' => m'
  else none

end Project3
end Pintos
