import Mathlib.Data.List.Basic
import Mathlib.Data.List.InsertIdx
import Mathlib.Data.List.Perm.Basic
import Pintos.Lib.Execution
import Pintos.Project4.Syscall

/-!
# Processes — exec, wait and exit (`userprog/process.c`)

A parent and its child meet through three semaphores: the child raises `load_lock` of its parent
when its program is loaded, raises its own `child_lock` when it ends, and waits on its own
`mem_lock` until the parent has fetched its status.  Any process may run between any two accesses to
what they share.

A process is known by its `tid`, which `thread_create` does not give out twice, and the initial
thread is the root of the tree.  `exec` starts where `thread_create` has succeeded.
-/

namespace Pintos
namespace Project4

open Function Lib

/-! ## State -/

/-- Who has called `process_wait`: the system call, or `process_execute` for its new child. -/
inductive Caller
  | wait
  | exec (t : Tid)
  deriving DecidableEq

/-- Where a process is.  `t` is the child that a call is about, `todo` the rest of the child list in
a loop over it. -/
inductive Pc
  | absent
  /-- `start_process` before `load` has returned -/
  | loading
  /-- before `sema_up (&parent->load_lock)` -/
  | loaded (success : Bool)
  /-- before `exit (-1)` -/
  | failed
  | user
  /-- `process_execute` before `sema_down (&load_lock)` -/
  | execDown (t : Tid)
  | execScan (t : Tid) (todo : List Tid)
  | waitScan (c : Caller) (tid : ℤ) (todo : List Tid)
  /-- before `sema_down (&t->child_lock)` -/
  | waitDown (c : Caller) (t : Tid)
  /-- before `exit_status = t->exit_status` -/
  | waitRead (c : Caller) (t : Tid)
  /-- before `list_remove` -/
  | waitUnlink (c : Caller) (t : Tid) (status : ℤ)
  /-- before `sema_up (&t->mem_lock)` -/
  | waitUp (c : Caller) (t : Tid) (status : ℤ)
  /-- `process_exit` before `sema_up (&child_lock)` -/
  | exiting
  /-- before `sema_down (&mem_lock)` -/
  | exitDown
  | gone
  deriving DecidableEq

inductive ProcEvent
  | loaded (t : Tid) (success : Bool)
  | exitCalled (t : Tid) (status : ℤ)
  | killed (t : Tid)
  /-- `process_execute` calls `process_wait` -/
  | execWaits (p t : Tid)
  | execReturned (p t : Tid) (value : ℤ)
  | statusRead (p t : Tid) (value : ℤ)
  | unlinked (p t : Tid)
  /-- `process_wait` has found its child -/
  | waitReturned (p t : Tid) (value : ℤ)
  /-- `process_wait` has not found it and returns -1 -/
  | waitRefused (p : Tid) (tid : ℤ)
  deriving DecidableEq

/-- The fields of `struct thread`, and what has happened so far. -/
structure Procs where
  pc : Tid → Pc
  parent : Tid → Tid
  children : Tid → List Tid
  exitStatus : Tid → ℤ
  childLock : Tid → ℕ
  memLock : Tid → ℕ
  loadLock : Tid → ℕ
  log : List ProcEvent

/-- The initial thread. -/
def root : Tid := 0

def noProcs : Procs where
  pc := fun t => if t = root then .user else .absent
  parent := fun _ => root
  children := fun _ => []
  exitStatus := fun _ => 0
  childLock := fun _ => 0
  memLock := fun _ => 0
  loadLock := fun _ => 0
  log := []

namespace Procs

variable (s : Procs) (p : Tid)

def goto (pc : Pc) : Procs := { s with pc := update s.pc p pc }

def record (e : ProcEvent) : Procs := { s with log := s.log ++ [e] }

end Procs

/-! ## Steps -/

inductive ProcAct
  | exec (p t : Tid) (pos : ℕ)
  | wait (p : Tid) (tid : ℤ)
  | exit (p : Tid) (status : ℤ)
  | kill (p : Tid)
  | load (t : Tid) (success : Bool)
  | run (p : Tid)
  deriving DecidableEq

section Steps

-- `v₀` is the `exit_status` of a new thread
variable (v₀ : ℤ)

/-- `thread_create` links the new thread at some position into the child list. -/
def threadCreate (p t : Tid) (pos : ℕ) (s : Procs) : Procs :=
  { s with
    pc := update (update s.pc t .loading) p (.execDown t)
    parent := update s.parent t p
    children := update (update s.children t []) p ((s.children p).insertIdx pos t)
    exitStatus := update s.exitStatus t v₀
    childLock := update s.childLock t 0
    memLock := update s.memLock t 0
    loadLock := update s.loadLock t 0 }

/-- `exit`, up to the `sema_up` of `process_exit`. -/
def exitWith (p : Tid) (status : ℤ) (s : Procs) : Procs :=
  ({ s with exitStatus := update s.exitStatus p status } : Procs).goto p .exiting
    |>.record (.exitCalled p status)

/-- `process_wait` returns, and `process_execute` with it when that has called it. -/
def Caller.returned (p : Tid) (value : ℤ) : Caller → List ProcEvent
  | .wait => []
  | .exec t => [.execReturned p t value]

def waitReturn (p : Tid) (c : Caller) (value : ℤ) (e : ProcEvent) (s : Procs) : Procs :=
  { s.goto p .user with log := s.log ++ e :: c.returned p value }

/-- The next access of a process that is in the kernel. -/
def runStep (p : Tid) (s : Procs) : Option Procs :=
  match s.pc p with
  | .loaded success =>
      let s' := { s with loadLock := update s.loadLock (s.parent p) (s.loadLock (s.parent p) + 1) }
      some (s'.goto p (if success then .user else .failed))
  | .failed => some (exitWith p (-1) s)
  | .execDown t =>
      if s.loadLock p = 0 then none
      else
        let s' := { s with loadLock := update s.loadLock p (s.loadLock p - 1) }
        some (s'.goto p (.execScan t (s.children p)))
  | .execScan t [] => some ((s.goto p .user).record (.execReturned p t t))
  | .execScan t (c :: todo) =>
      if s.exitStatus c = -1 then
        some ((s.goto p (.waitScan (.exec t) t (s.children p))).record (.execWaits p t))
      else if todo = [] then some ((s.goto p .user).record (.execReturned p t t))
      else some (s.goto p (.execScan t todo))
  | .waitScan c tid [] => some (waitReturn p c (-1) (.waitRefused p tid) s)
  | .waitScan c tid (t :: todo) =>
      if tid = t then some (s.goto p (.waitDown c t)) else some (s.goto p (.waitScan c tid todo))
  | .waitDown c t =>
      if s.childLock t = 0 then none
      else
        let s' := { s with childLock := update s.childLock t (s.childLock t - 1) }
        some (s'.goto p (.waitRead c t))
  | .waitRead c t =>
      some ((s.goto p (.waitUnlink c t (s.exitStatus t))).record (.statusRead p t (s.exitStatus t)))
  | .waitUnlink c t v =>
      let s' := { s with children := update s.children p ((s.children p).erase t) }
      some ((s'.goto p (.waitUp c t v)).record (.unlinked p t))
  | .waitUp c t v =>
      let s' := { s with memLock := update s.memLock t (s.memLock t + 1) }
      some (waitReturn p c v (.waitReturned p t v) s')
  | .exiting =>
      let s' := { s with childLock := update s.childLock p (s.childLock p + 1) }
      some (s'.goto p .exitDown)
  | .exitDown =>
      if s.memLock p = 0 then none
      else
        let s' := { s with memLock := update s.memLock p (s.memLock p - 1) }
        some (s'.goto p .gone)
  | .absent | .loading | .user | .gone => none

/-- The initial thread runs no program: it calls neither `exit` nor `kill`. -/
def procStep (a : ProcAct) (s : Procs) : Option Procs :=
  match a with
  | .exec p t pos =>
      if s.pc p = .user ∧ s.pc t = .absent ∧ pos ≤ (s.children p).length then
        some (threadCreate v₀ p t pos s)
      else none
  | .wait p tid =>
      if s.pc p = .user then some (s.goto p (.waitScan .wait tid (s.children p))) else none
  | .exit p status => if s.pc p = .user ∧ p ≠ root then some (exitWith p status s) else none
  | .kill p =>
      if s.pc p = .user ∧ p ≠ root then some ((s.goto p .exiting).record (.killed p)) else none
  | .load t success =>
      if s.pc t = .loading then
        some ((s.goto t (.loaded success)).record (.loaded t success))
      else none
  | .run p => runStep p s

end Steps

end Project4
end Pintos
