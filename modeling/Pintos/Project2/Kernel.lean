import Pintos.Lib.OrderedList
import Mathlib.Logic.Function.Basic
import Mathlib.Algebra.Order.Ring.Int

/-!
# Kernel — the data of project 2's `thread.h`, `thread.c` and `synch.h`

`Kernel` is the memory that the thread system and the synchronization primitives share.  Each
member of `struct thread` is a map over thread pointers, so that an assignment to one member
visibly leaves the others alone; the same holds for semaphores, locks and conditions.

* A list of threads is the list of the pointers whose `elem` is linked there.
* A condition's waiter is a `struct semaphore_elem` on the stack of the waiting thread; it is
  named by that thread, since a thread is inside at most one `cond_wait`.
* Functions that can fail return `Except Fault`: a failing `ASSERT`, a followed `NULL` pointer or
  a loop that does not end.
-/

namespace Pintos
namespace Project2

open Lib

/-! ## Types -/

inductive ThreadStatus
  | running
  | ready
  | blocked
  | dying
  deriving DecidableEq, Repr

/-- `struct thread *`: the number of the page that holds the structure. -/
abbrev ThreadPtr := Nat

/-- `struct lock *`. -/
inductive LockPtr
  | tidLock
  | lock (n : Nat)
  deriving DecidableEq, Repr

/-- `struct semaphore *`: a plain semaphore, `thread_start`'s local one, the one inside a lock, or
the one inside the `struct semaphore_elem` on a thread's stack. -/
inductive SemaPtr
  | sema (n : Nat)
  | idleStarted
  | ofLock (l : LockPtr)
  | waiter (t : ThreadPtr)
  deriving DecidableEq, Repr

/-- `struct condition *`. -/
abbrev CondPtr := Nat

def PRI_MIN : Int := 0
def PRI_DEFAULT : Int := 31
def PRI_MAX : Int := 63
def TIME_SLICE : Nat := 4

/-- The number of values of `unsigned`. -/
def unsignedSize : Nat := 2 ^ 32

/-- The ways a call can fail to come back. -/
inductive Fault
  /-- `ASSERT (t->status == THREAD_BLOCKED)` in `thread_unblock` -/
  | notBlocked
  /-- `ASSERT (cur->status != THREAD_RUNNING)` in `schedule` -/
  | stillRunning
  /-- `ASSERT (is_thread (next))` in `schedule` -/
  | notThread
  /-- `ASSERT (!intr_context ())` -/
  | intrContext
  /-- `ASSERT (!lock_held_by_current_thread (lock))` -/
  | lockHeld
  /-- `ASSERT (lock_held_by_current_thread (lock))` -/
  | lockNotHeld
  /-- `ASSERT (PRI_MIN <= priority && priority <= PRI_MAX)` in `init_thread` -/
  | badPriority
  /-- a `NULL` pointer is followed -/
  | nullPointer
  /-- the loop of `donate_priority` does not end -/
  | diverges
  /-- not a failure: the page is in use, so `palloc_get_page` does not return it -/
  | pageInUse
  deriving DecidableEq, Repr

/-- The memory of the thread system. -/
structure Kernel where
  -- `struct thread`
  tid : ThreadPtr → Int
  status : ThreadPtr → ThreadStatus
  sleepingTicks : ThreadPtr → Int
  initPriority : ThreadPtr → Int
  priority : ThreadPtr → Int
  waitingLock : ThreadPtr → Option LockPtr
  donations : ThreadPtr → List ThreadPtr
  -- `thread.c`
  readyList : List ThreadPtr
  allList : List ThreadPtr
  sleepingList : List ThreadPtr
  idleThread : Option ThreadPtr
  running : ThreadPtr
  idleTicks : Nat
  kernelTicks : Nat
  threadTicks : Nat
  nextTid : Int
  -- `timer.c` and the interrupt controller
  ticks : Int
  intrContext : Bool
  -- `struct semaphore`, `struct lock`, `struct condition`
  value : SemaPtr → Nat
  waiters : SemaPtr → List ThreadPtr
  holder : LockPtr → Option ThreadPtr
  condWaiters : CondPtr → List ThreadPtr

/-- `struct thread *initial_thread`; its page is never given back. -/
def initialThread : ThreadPtr := 0

/-! ## The comparison functions handed to the list library -/

/-- `compare` on two `elem` pointers: the greater priority comes first. -/
def compare (k : Kernel) : ThreadPtr → ThreadPtr → Bool :=
  byKey k.priority

/-- The address of page `t`, read as an `int`: kernel pages start at `0xc0000000`. -/
def pageAddr (t : ThreadPtr) : Int :=
  4096 * t - 0x40000000

/-- What `compare` reads as the priority when it is given a `donation_elem`.

`compare` subtracts the offset of `elem` (52), not that of `donation_elem` (80), so the slot of
`priority` (40) falls on byte 68 of `struct thread`: `donations.head.next`.  That word is the
address of the first donor's `donation_elem`, or of the list's own tail (byte 72) when there is
no donor. -/
def donationWord (k : Kernel) (t : ThreadPtr) : Int :=
  match k.donations t with
  | [] => pageAddr t + 72
  | d :: _ => pageAddr d + 80

/-- `compare` on two `donation_elem` pointers. -/
def compareDonation (k : Kernel) : ThreadPtr → ThreadPtr → Bool :=
  byKey (donationWord k)

/-- What `compare_sema` reads as the priority of the first waiter of `t`'s `semaphore_elem`.

With no waiter `list_begin` is the tail of the empty list (byte 20 of `struct semaphore_elem`);
12 bytes below it, where the priority of an enclosing thread would be, lies `semaphore.value`. -/
def semaWord (k : Kernel) (t : ThreadPtr) : Int :=
  match k.waiters (.waiter t) with
  | [] => k.value (.waiter t)
  | w :: _ => k.priority w

/-- `compare_sema` on two waiting `semaphore_elem`s. -/
def compareSema (k : Kernel) : ThreadPtr → ThreadPtr → Bool :=
  byKey (semaWord k)

/-! ## Failing computations -/

/-- `ASSERT (c)`. -/
def assert (c : Prop) [Decidable c] (f : Fault) : Except Fault Unit :=
  if c then .ok () else .error f

section Except

variable {α β : Type}

theorem bind_eq_ok {x : Except Fault α} {f : α → Except Fault β} {b : β} :
    (x >>= f) = .ok b ↔ ∃ a, x = .ok a ∧ f a = .ok b := by
  cases x with
  | error e =>
      simp [bind, Except.bind]
  | ok a =>
      simp [bind, Except.bind]

@[simp] theorem assert_bind_eq_ok {c : Prop} [Decidable c] {f : Fault} {x : Except Fault β}
    {b : β} : (assert c f >>= fun _ => x) = .ok b ↔ c ∧ x = .ok b := by
  by_cases hc : c <;> simp [assert, hc, bind, Except.bind]

theorem bind_eq_error {x : Except Fault α} {f : α → Except Fault β} {e : Fault} :
    (x >>= f) = .error e ↔ x = .error e ∨ ∃ a, x = .ok a ∧ f a = .error e := by
  cases x with
  | error e' =>
      simp [bind, Except.bind]
  | ok a =>
      simp [bind, Except.bind]

theorem assert_eq_error {c : Prop} [Decidable c] {g e : Fault} :
    assert c g = .error e ↔ ¬ c ∧ g = e := by
  by_cases hc : c <;> simp [assert, hc]

end Except

end Project2
end Pintos
