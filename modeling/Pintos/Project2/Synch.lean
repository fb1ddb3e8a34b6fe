import Pintos.Project2.Thread

/-!
# Synch — project 2's `synch.c`

Semaphores, locks and condition variables.  A call of `sema_down` may block in the middle; the
functions here stop there, and the flag they return says whether the semaphore was obtained.  The
rest of a blocked call is taken up by `System`.

The lock functions come in two granularities: `lockAcquire` and `lockRelease` run up to the point
where they block or return, and `LockStmt` has the statements of the same functions one by one, for
runs in which threads switch between any two of them.
-/

namespace Pintos
namespace Project2

open Lib Function

/-! ## Semaphores -/

/-- `sema->value--` on an `unsigned`. -/
def Kernel.lowered (k : Kernel) (s : SemaPtr) : Kernel :=
  { k with value := update k.value s ((k.value s + unsignedSize - 1) % unsignedSize) }

/-- `sema->value++` on an `unsigned`. -/
def Kernel.raised (k : Kernel) (s : SemaPtr) : Kernel :=
  { k with value := update k.value s ((k.value s + 1) % unsignedSize) }

/-- The running thread queued on the semaphore, by priority. -/
def Kernel.queued (k : Kernel) (s : SemaPtr) : Kernel :=
  { k with waiters := update k.waiters s (insertOrdered (compare k) k.running (k.waiters s)) }

/-- One turn of the `while` loop of `sema_down`: block at value 0, else take the semaphore. -/
def semaDownTurn (k : Kernel) (s : SemaPtr) : Except Fault (Kernel × Bool) :=
  if k.value s = 0 then do
    let k ← threadBlock (k.queued s)
    .ok (k, false)
  else .ok (k.lowered s, true)

def semaDown (k : Kernel) (s : SemaPtr) : Except Fault (Kernel × Bool) := do
  assert (k.intrContext = false) .intrContext
  semaDownTurn k s

def semaTryDown (k : Kernel) (s : SemaPtr) : Kernel × Bool :=
  if 0 < k.value s then (k.lowered s, true) else (k, false)

/-- The wake-up of `sema_up`: the first waiter after a re-sort. -/
def semaWake (k : Kernel) (s : SemaPtr) : Except Fault Kernel :=
  match sort (compare k) (k.waiters s) with
  | [] => .ok k
  | t :: rest => threadUnblock { k with waiters := update k.waiters s rest } t

def semaUp (k : Kernel) (s : SemaPtr) : Except Fault Kernel := do
  let k ← semaWake k s
  stealRunningByPriority (k.raised s)

/-- `sema_init`. -/
def semaInit (k : Kernel) (s : SemaPtr) (value : Nat) : Kernel :=
  { k with value := update k.value s value, waiters := update k.waiters s [] }

/-- `t` taken out of the waiters of `s` and made ready. -/
def Kernel.woken (k : Kernel) (s : SemaPtr) (t : ThreadPtr) (rest : List ThreadPtr) : Kernel :=
  { k with waiters := update k.waiters s rest }.madeReady t

theorem semaDownTurn_eq_ok {k k' : Kernel} {s : SemaPtr} {got : Bool} :
    semaDownTurn k s = .ok (k', got) ↔
      (k.value s = 0 ∧ got = false ∧ threadBlock (k.queued s) = .ok k') ∨
        (k.value s ≠ 0 ∧ got = true ∧ k' = k.lowered s) := by
  unfold semaDownTurn
  by_cases hv : k.value s = 0
  · cases got <;> simp [hv, bind_eq_ok]
  · cases got <;> simp [hv, eq_comm]

theorem semaDown_eq_ok {k k' : Kernel} {s : SemaPtr} {got : Bool} :
    semaDown k s = .ok (k', got) ↔
      k.intrContext = false ∧ semaDownTurn k s = .ok (k', got) := by
  simp [semaDown]

theorem semaWake_eq_ok {k k' : Kernel} {s : SemaPtr} :
    semaWake k s = .ok k' ↔
      (k.waiters s = [] ∧ k' = k) ∨
        ∃ t rest, sort (compare k) (k.waiters s) = t :: rest ∧ k.status t = .blocked ∧
          k' = k.woken s t rest := by
  unfold semaWake
  cases hs : sort (compare k) (k.waiters s) with
  | nil =>
      simp [sort_eq_nil.1 hs, eq_comm]
  | cons t rest =>
      have hw : k.waiters s ≠ [] := fun h => by simp [h] at hs
      simp only [hw, false_and, false_or, threadUnblock_eq_ok, List.cons.injEq]
      constructor
      · rintro ⟨hb, rfl⟩
        exact ⟨t, rest, ⟨rfl, rfl⟩, hb, rfl⟩
      · rintro ⟨t', rest', ⟨rfl, rfl⟩, hb, rfl⟩
        exact ⟨hb, rfl⟩

theorem semaUp_eq_ok {k k' : Kernel} {s : SemaPtr} :
    semaUp k s = .ok k' ↔
      ∃ k₁, semaWake k s = .ok k₁ ∧ stealRunningByPriority (k₁.raised s) = .ok k' :=
  bind_eq_ok

/-! ## Locks, each call up to its block or return -/

/-- The first two statements of the contended branch of `lock_acquire`. -/
def Kernel.donating (k : Kernel) (l : LockPtr) (h : ThreadPtr) : Kernel :=
  { k with
    waitingLock := update k.waitingLock k.running (some l)
    donations :=
      update k.donations h (insertOrdered (compareDonation k) k.running (k.donations h)) }

/-- The statements of `lock_acquire` before its `sema_down`. -/
def lockDonate (k : Kernel) (l : LockPtr) : Except Fault Kernel :=
  match k.holder l with
  | none => .ok k
  | some h => donatePriority (k.donating l h)

/-- The statements of `lock_acquire` after its `sema_down`. -/
def Kernel.acquired (k : Kernel) (l : LockPtr) : Kernel :=
  { k with
    waitingLock := update k.waitingLock k.running none
    holder := update k.holder l (some k.running) }

def lockAcquire (k : Kernel) (l : LockPtr) : Except Fault (Kernel × Bool) := do
  assert (k.intrContext = false) .intrContext
  assert (k.holder l ≠ some k.running) .lockHeld
  let k ← lockDonate k l
  let (k, got) ← semaDown k (.ofLock l)
  if got then .ok (k.acquired l, true) else .ok (k, false)

def lockTryAcquire (k : Kernel) (l : LockPtr) : Except Fault (Kernel × Bool) := do
  assert (k.holder l ≠ some k.running) .lockHeld
  let (k, success) := semaTryDown k (.ofLock l)
  if success then .ok ({ k with holder := update k.holder l (some k.running) }, true)
  else .ok (k, false)

/-- `lock_release` up to its `sema_up`. -/
def Kernel.released (k : Kernel) (l : LockPtr) : Kernel :=
  resetPriority (removeLock { k with holder := update k.holder l none } l)

def lockRelease (k : Kernel) (l : LockPtr) : Except Fault Kernel := do
  assert (k.holder l = some k.running) .lockNotHeld
  semaUp (k.released l) (.ofLock l)

theorem lockAcquire_eq_ok {k k' : Kernel} {l : LockPtr} {got : Bool} :
    lockAcquire k l = .ok (k', got) ↔
      k.intrContext = false ∧ k.holder l ≠ some k.running ∧
        ∃ k₁ k₂, lockDonate k l = .ok k₁ ∧ semaDown k₁ (.ofLock l) = .ok (k₂, got) ∧
          k' = if got then k₂.acquired l else k₂ := by
  simp only [lockAcquire, assert_bind_eq_ok]
  refine and_congr_right fun _ => and_congr_right fun _ => ?_
  constructor
  · intro h
    obtain ⟨k₁, hd, h⟩ := bind_eq_ok.1 h
    obtain ⟨⟨k₂, got'⟩, hs, h⟩ := bind_eq_ok.1 h
    refine ⟨k₁, k₂, hd, ?_⟩
    cases got' <;> cases h <;> exact ⟨hs, rfl⟩
  · rintro ⟨k₁, k₂, hd, hs, rfl⟩
    refine bind_eq_ok.2 ⟨k₁, hd, bind_eq_ok.2 ⟨(k₂, got), hs, ?_⟩⟩
    cases got <;> rfl

theorem lockTryAcquire_eq_ok {k k' : Kernel} {l : LockPtr} {success : Bool} :
    lockTryAcquire k l = .ok (k', success) ↔
      k.holder l ≠ some k.running ∧ success = (semaTryDown k (.ofLock l)).2 ∧
        k' = if success then { (semaTryDown k (.ofLock l)).1 with
          holder := update k.holder l (some k.running) } else k := by
  simp only [lockTryAcquire, assert_bind_eq_ok]
  refine and_congr_right fun _ => ?_
  by_cases hv : 0 < k.value (.ofLock l) <;> cases success <;>
    simp [semaTryDown, hv, eq_comm, Kernel.lowered]

theorem lockRelease_eq_ok {k k' : Kernel} {l : LockPtr} :
    lockRelease k l = .ok k' ↔
      k.holder l = some k.running ∧ semaUp (k.released l) (.ofLock l) = .ok k' := by
  simp [lockRelease]

/-! ## Locks, statement by statement -/

/-- A statement of `lock_acquire`, `lock_release` or of the functions of `thread.c` they call,
run with interrupts enabled.  The parameters are the values of the function's local variables.
The assertions at the start of the functions and their calls of `sema_down` and `sema_up` are
frames of their own (`System`). -/
inductive LockStmt
  -- `lock_acquire`
  | acquireTest (l : LockPtr)
  | setWaiting (l : LockPtr)
  | insertDonation (l : LockPtr)
  | clearWaiting
  | setHolder (l : LockPtr)
  -- `donate_priority`
  | donateFirst
  | donateSet (lockHolder : Option ThreadPtr)
  | donateTest (lockHolder : ThreadPtr)
  | donateNext (lockHolder : ThreadPtr)
  -- `lock_release`
  | clearHolder (l : LockPtr)
  -- `remove_lock`
  | removeBegin (l : LockPtr)
  | removeTest (l : LockPtr) (e : Option ThreadPtr)
  | removeClear (l : LockPtr) (t : ThreadPtr)
  | removeUnlink (l : LockPtr) (t : ThreadPtr)
  | removeNext (l : LockPtr) (t : ThreadPtr)
  -- `reset_priority`
  | resetInit
  | resetTest
  | resetSort
  | resetRead
  | resetRaise (highPriority : Int)
  deriving DecidableEq, Repr

/-- `list_next`: the element behind `t`, or the end of the list. -/
def listNext (t : ThreadPtr) : List ThreadPtr → Option ThreadPtr
  | [] => none
  | x :: xs => if x = t then xs.head? else listNext t xs

namespace LockStmt

/-- Execute one statement; the list holds the statements to execute next. -/
def run (k : Kernel) : LockStmt → Except Fault (Kernel × List LockStmt)
  | acquireTest l =>
      if k.holder l = none then .ok (k, [])
      else .ok (k, [setWaiting l, insertDonation l, donateFirst])
  | setWaiting l => .ok ({ k with waitingLock := update k.waitingLock k.running (some l) }, [])
  | insertDonation l =>
      match k.holder l with
      | none => .error .nullPointer
      | some h =>
          .ok ({ k with
            donations :=
              update k.donations h (insertOrdered (compareDonation k) k.running (k.donations h)) },
            [])
  | clearWaiting => .ok ({ k with waitingLock := update k.waitingLock k.running none }, [])
  | setHolder l => .ok ({ k with holder := update k.holder l (some k.running) }, [])
  | donateFirst =>
      match k.waitingLock k.running with
      | none => .error .nullPointer
      | some l => .ok (k, [donateSet (k.holder l)])
  | donateSet none => .error .nullPointer
  | donateSet (some h) =>
      .ok ({ k with priority := update k.priority h (k.priority k.running) }, [donateTest h])
  | donateTest h => if k.waitingLock h = none then .ok (k, []) else .ok (k, [donateNext h])
  | donateNext h =>
      match k.waitingLock h with
      | none => .error .nullPointer
      | some l => .ok (k, [donateSet (k.holder l)])
  | clearHolder l => .ok ({ k with holder := update k.holder l none }, [])
  | removeBegin l => .ok (k, [removeTest l (k.donations k.running).head?])
  | removeTest _ none => .ok (k, [])
  | removeTest l (some t) =>
      if k.waitingLock t = some l then .ok (k, [removeClear l t]) else .ok (k, [removeNext l t])
  | removeClear l t =>
      .ok ({ k with waitingLock := update k.waitingLock t none }, [removeUnlink l t])
  | removeUnlink l t =>
      -- `list_remove` leaves `t`'s own links in place, so the loop goes on behind it
      .ok ({ k with donations := update k.donations k.running ((k.donations k.running).erase t) },
        [removeTest l (listNext t (k.donations k.running))])
  | removeNext l t => .ok (k, [removeTest l (listNext t (k.donations k.running))])
  | resetInit =>
      .ok ({ k with priority := update k.priority k.running (k.initPriority k.running) },
        [resetTest])
  | resetTest => if k.donations k.running = [] then .ok (k, []) else .ok (k, [resetSort])
  | resetSort =>
      .ok ({ k with
        donations :=
          update k.donations k.running (sort (compareDonation k) (k.donations k.running)) },
        [resetRead])
  | resetRead =>
      match k.donations k.running with
      -- the list was not empty before the sort, and only its owner removes donors
      | [] => .error .nullPointer
      | d :: _ => .ok (k, [resetRaise (k.priority d)])
  | resetRaise p =>
      if k.priority k.running < p then
        .ok ({ k with priority := update k.priority k.running p }, [])
      else .ok (k, [])

end LockStmt

/-! ## Condition variables

The order in which `list_insert_ordered` and `list_sort` arrange the waiters is a parameter; the
code passes `compare_sema`. -/

section Conditions

variable (order : Kernel → ThreadPtr → ThreadPtr → Bool)

/-- `cond_wait` up to its `lock_release`: the waiter's semaphore is fresh and its element queued. -/
def condEnqueue (k : Kernel) (c : CondPtr) (l : LockPtr) : Except Fault Kernel := do
  assert (k.intrContext = false) .intrContext
  assert (k.holder l = some k.running) .lockNotHeld
  let k := semaInit k (.waiter k.running) 0
  .ok { k with
    condWaiters := update k.condWaiters c (insertOrdered (order k) k.running (k.condWaiters c)) }

/-- The running thread queued on the condition with a fresh semaphore. -/
def Kernel.enqueued (k : Kernel) (c : CondPtr) : Kernel :=
  { semaInit k (.waiter k.running) 0 with
    condWaiters :=
      update k.condWaiters c
        (insertOrdered (order (semaInit k (.waiter k.running) 0)) k.running (k.condWaiters c)) }

def condSignal (k : Kernel) (c : CondPtr) (l : LockPtr) : Except Fault Kernel := do
  assert (k.intrContext = false) .intrContext
  assert (k.holder l = some k.running) .lockNotHeld
  match sort (order k) (k.condWaiters c) with
  | [] => .ok k
  | w :: rest => semaUp { k with condWaiters := update k.condWaiters c rest } (.waiter w)

variable {order} {k k' : Kernel} {c : CondPtr} {l : LockPtr}

theorem condEnqueue_eq_ok :
    condEnqueue order k c l = .ok k' ↔
      k.intrContext = false ∧ k.holder l = some k.running ∧ k' = k.enqueued order c := by
  simp only [condEnqueue, assert_bind_eq_ok, Except.ok.injEq]
  exact and_congr_right fun _ => and_congr_right fun _ => eq_comm

theorem condSignal_eq_ok :
    condSignal order k c l = .ok k' ↔
      k.intrContext = false ∧ k.holder l = some k.running ∧
        ((k.condWaiters c = [] ∧ k' = k) ∨
          ∃ w rest, sort (order k) (k.condWaiters c) = w :: rest ∧
            semaUp { k with condWaiters := update k.condWaiters c rest } (.waiter w) = .ok k') := by
  simp only [condSignal, assert_bind_eq_ok]
  refine and_congr_right fun _ => and_congr_right fun _ => ?_
  cases hs : sort (order k) (k.condWaiters c) with
  | nil =>
      simp [sort_eq_nil.1 hs, eq_comm]
  | cons w rest =>
      have hw : k.condWaiters c ≠ [] := fun h => by simp [h] at hs
      simp [hw]

end Conditions

end Project2
end Pintos
