import Pintos.Userprog.Memory
import Mathlib.Data.List.Range

/-!
# Syscall — the system calls on files (`userprog/syscall.c`)

Every process has a table of open files.  `open`, `read` and `write` hold `filesys_lock` while they
work; `exit` never returns, so a call that takes it in the middle leaves everything as it stands
there.  Between the statement that acquires the lock and the rest of the call, any other process may
run.
-/

namespace Pintos
namespace Project4

open Userprog Function

/-! ## State -/

abbrev Tid := ℕ

/-- The system calls, with their decoded arguments.  `exit` also stands for every other way in which
the kernel calls `exit` outside the calls below, such as a failed check of a user address. -/
inductive Call
  | exit (status : ℤ)
  | create (file : Option (List Byte))
  | remove (file : Option (List Byte))
  | open (file : Option (List Byte))
  | filesize (fd : ℤ)
  | read (fd : ℤ) (buffer : ℕ → Byte) (size : ℕ)
  | write (fd : ℤ) (size : ℕ)
  | seek (fd : ℤ)
  | tell (fd : ℤ)
  | close (fd : ℤ)

/-- What a call gets from the file system and from the user's memory.  An access to user memory
faults when it ends in `page_fault` with `exit (-1)`; `unassigned` is the value of a variable that
has not been set. -/
structure Answers where
  file : Option FilePtr
  result : ℤ
  faults : Bool
  nameFaults : Bool
  unassigned : ℤ

/-- The value that a call returns, or it has ended the process. -/
inductive Outcome
  | returned (value : ℤ)
  | exited
  deriving DecidableEq

/-- `pending` is the call in whose critical section the process is.  `fd` at an index outside
`0..199` is the word of memory there. -/
structure Process where
  name : List Byte
  fd : ℤ → Option FilePtr
  exitStatus : ℤ
  alive : Bool
  pending : Option Call

/-- `opened` and `closed` list what `filesys_open` has returned and what `file_close` has got. -/
structure Files where
  proc : Tid → Process
  filesysLock : Option Tid
  opened : List FilePtr
  closed : List FilePtr
  denyWrite : FilePtr → Bool

namespace Files

variable (σ : Files) (cur t : Tid) (f : Process → Process)

/-- Change the thread `cur`. -/
def modify : Files := { σ with proc := update σ.proc cur (f (σ.proc cur)) }

@[simp] theorem modify_self : (σ.modify cur f).proc cur = f (σ.proc cur) :=
  update_self cur _ σ.proc

theorem modify_of_ne (h : t ≠ cur) : (σ.modify cur f).proc t = σ.proc t :=
  update_of_ne h _ σ.proc

@[simp] theorem modify_filesysLock : (σ.modify cur f).filesysLock = σ.filesysLock := rfl

@[simp] theorem modify_opened : (σ.modify cur f).opened = σ.opened := rfl

@[simp] theorem modify_closed : (σ.modify cur f).closed = σ.closed := rfl

/-- `thread_current ()->fd` -/
def fd : ℤ → Option FilePtr := (σ.proc cur).fd

def setFd (i : ℤ) (fp : Option FilePtr) : Files :=
  σ.modify cur fun p => { p with fd := update p.fd i fp }

def fileClose (fp : FilePtr) : Files := { σ with closed := σ.closed ++ [fp] }

end Files

/-! ## The calls -/

section Calls

variable (cur : Tid)

/-- `close` of a descriptor whose slot is not empty. -/
def closeSlot (i : ℤ) (σ : Files) : Files :=
  match σ.fd cur i with
  | none => σ
  | some fp => (σ.setFd cur i none).fileClose fp

/-- `for (i = 3; i < 128; i++)` -/
def fdRange : List ℤ := (List.range 125).map fun (k : ℕ) => (k : ℤ) + 3

/-- The loop of `exit`, which closes the descriptors whose slot is not empty. -/
def closeAll (σ : Files) : Files := fdRange.foldl (fun σ i => closeSlot cur i σ) σ

/-- The thread ends in `thread_exit`. -/
def exit (status : ℤ) (σ : Files) : Files :=
  (closeAll cur (σ.modify cur fun p => { p with exitStatus := status })).modify cur fun p =>
    { p with alive := false, pending := none }

def lockAcquire (c : Call) (σ : Files) : Files :=
  ({ σ with filesysLock := some cur } : Files).modify cur fun p => { p with pending := some c }

def lockRelease (σ : Files) : Files :=
  ({ σ with filesysLock := none } : Files).modify cur fun p => { p with pending := none }

def exitCall (σ : Files) : Files × Outcome := (exit cur (-1) σ, .exited)

def create (file : Option (List Byte)) (ans : Answers) (σ : Files) : Files × Outcome :=
  if file = none then exitCall cur σ else (σ, .returned ans.result)

def remove (file : Option (List Byte)) (ans : Answers) (σ : Files) : Files × Outcome :=
  if file = none then exitCall cur σ else (σ, .returned ans.result)

def filesize (fd : ℤ) (ans : Answers) (σ : Files) : Files × Outcome :=
  if σ.fd cur fd = none then exitCall cur σ else (σ, .returned ans.result)

def seek (fd : ℤ) (σ : Files) : Files × Outcome :=
  if σ.fd cur fd = none then exitCall cur σ else (σ, .returned 0)

def tell (fd : ℤ) (ans : Answers) (σ : Files) : Files × Outcome :=
  if σ.fd cur fd = none then exitCall cur σ else (σ, .returned ans.result)

def close (fd : ℤ) (σ : Files) : Files × Outcome :=
  if σ.fd cur fd = none then exitCall cur σ else (closeSlot cur fd σ, .returned 0)

/-- The number of bytes before the first zero byte. -/
def scan (buffer : ℕ → Byte) (size : ℕ) : ℕ :=
  ((List.range size).find? fun i => buffer i = 0).getD size

/-- `read` after `lock_acquire`. -/
def readLocked (fd : ℤ) (buffer : ℕ → Byte) (size : ℕ) (ans : Answers) (σ : Files) :
    Files × Outcome :=
  if fd = 0 then
    if ans.faults then exitCall cur σ
    else (lockRelease cur σ, .returned (scan buffer size))
  else if fd > 2 then
    if σ.fd cur fd = none then exitCall cur σ
    else if ans.faults then exitCall cur σ
    else (lockRelease cur σ, .returned ans.result)
  else (lockRelease cur σ, .returned ans.unassigned)

/-- `write` after `lock_acquire`. -/
def writeLocked (fd : ℤ) (size : ℕ) (ans : Answers) (σ : Files) : Files × Outcome :=
  if fd = 1 then
    if ans.faults then exitCall cur σ
    else (lockRelease cur σ, .returned size)
  else if fd > 2 then
    match σ.fd cur fd with
    | none => exitCall cur (lockRelease cur σ)
    | some fp =>
        let σ := if σ.denyWrite fp then { σ with denyWrite := update σ.denyWrite fp true } else σ
        if ans.faults then exitCall cur σ
        else (lockRelease cur σ, .returned ans.result)
  else (lockRelease cur σ, .returned (-1))

/-- The first empty slot that the loop of `open` meets. -/
def freeSlot (σ : Files) (cur : Tid) : Option ℤ := fdRange.find? fun i => σ.fd cur i = none

/-- `open` after `lock_acquire`.  When no slot is free, `fp` stays open. -/
def openLocked (file : List Byte) (ans : Answers) (σ : Files) : Files × Outcome :=
  if ans.faults then exitCall cur σ
  else
    match ans.file with
    | none => (lockRelease cur σ, .returned (-1))
    | some fp =>
        let σ := { σ with opened := σ.opened ++ [fp] }
        match freeSlot σ cur with
        | none => (lockRelease cur σ, .returned (-1))
        | some i =>
            if ans.nameFaults then exitCall cur σ
            else
              let σ := if (σ.proc cur).name = file then
                  { σ with denyWrite := update σ.denyWrite fp true }
                else σ
              (lockRelease cur (σ.setFd cur i (some fp)), .returned i)

/-- What a call does after `lock_acquire`; the other calls do not get there. -/
def finish (c : Call) (ans : Answers) (σ : Files) : Files × Outcome :=
  match c with
  | .open (some file) => openLocked cur file ans σ
  | .read fd buffer size => readLocked cur fd buffer size ans σ
  | .write fd size => writeLocked cur fd size ans σ
  | _ => (σ, .returned 0)

/-- The calls that acquire `filesys_lock`. -/
def Call.locks : Call → Bool
  | .open (some _) | .read _ _ _ | .write _ _ => true
  | _ => false

/-- A call that does not acquire it. -/
def run (c : Call) (ans : Answers) (σ : Files) : Files × Outcome :=
  match c with
  | .exit status => (exit cur status σ, .exited)
  | .create file => create cur file ans σ
  | .remove file => remove cur file ans σ
  | .open _ => exitCall cur σ
  | .filesize fd => filesize cur fd ans σ
  | .seek fd => seek cur fd σ
  | .tell fd => tell cur fd ans σ
  | .close fd => close cur fd σ
  | .read _ _ _ | .write _ _ => (σ, .returned 0)

end Calls

/-! ## Runs of any number of processes -/

/-- A process is created; a process makes a call that does not lock, or enters one that does; a
process leaves the call in whose critical section it is. -/
inductive FileAct
  | start (t : Tid) (name : List Byte)
  | call (t : Tid) (c : Call) (ans : Answers)
  | leave (t : Tid) (ans : Answers)

/-- The result of a step, with what the call has returned if the step ends one. -/
def fileStep' (a : FileAct) (σ : Files) : Option (Files × Option Outcome) :=
  match a with
  | .start t name =>
      if (σ.proc t).alive then none
      else
        let p : Process :=
          { name := name, fd := fun _ => none, exitStatus := 0, alive := true, pending := none }
        some (σ.modify t fun _ => p, none)
  | .call t c ans =>
      if (σ.proc t).alive = true ∧ (σ.proc t).pending.isNone = true then
        if c.locks then
          if σ.filesysLock = none then some (lockAcquire t c σ, none) else none
        else
          let r := run t c ans σ
          some (r.1, some r.2)
      else none
  | .leave t ans =>
      match (σ.proc t).pending with
      | none => none
      | some c =>
          let r := finish t c ans σ
          some (r.1, some r.2)

def fileStep (a : FileAct) (σ : Files) : Option Files := (fileStep' a σ).map Prod.fst

/-- No process and no file yet. -/
def noFiles : Files where
  proc := fun _ =>
    { name := [], fd := fun _ => none, exitStatus := 0, alive := false, pending := none }
  filesysLock := none
  opened := []
  closed := []
  denyWrite := fun _ => false

end Project4
end Pintos
