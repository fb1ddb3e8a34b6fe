import Pintos.Project2.System
import Pintos.Project2.Footprint

/-!
# Frames — what each frame writes, and what it does to the semaphores

`Frame.writes` is the table of the members that a frame may write; `runFrame_unwritten` says that
every other member stays as it was.  The members of the semaphores have a table of their own:
`Frame.semaOp` computes from the state what a frame will do to them, and `runFrame_semaOp` says
that it does that and nothing else.
-/

namespace Pintos
namespace Project2

open Lib Function

/-! ## The members that a frame writes -/

inductive Member
  | holder
  | waitingLock
  | donations
  | priority
  | initPriority
  | condWaiters
  | idleThread
  | sleeping
  | allList
  deriving DecidableEq, Repr

def AfterDown.writes : AfterDown → List Member
  | .acquired _ => [.waitingLock, .holder]
  | .ret | .acquiring _ => []

def Frame.writes : Frame → List Member
  | .down _ after | .downLoop _ after => after.writes
  | .lockAcquire _ => [.waitingLock, .donations, .priority, .holder]
  | .lockTryAcquire _ => [.holder]
  | .lockRelease _ | .stmt _ => [.holder, .waitingLock, .donations, .priority]
  | .condEnqueue _ _ | .condSignal _ _ | .condBroadcast _ _ => [.condWaiters]
  | .threadCreate _ _ | .threadStart _ =>
      [.sleeping, .initPriority, .priority, .waitingLock, .donations, .allList]
  | .threadSetPriority _ => [.priority, .initPriority, .donations]
  | .threadExit => [.allList]
  | .sleepUntil _ => [.sleeping]
  | .setIdle => [.idleThread]
  | _ => []

/-- The members outside the list `w` are the same. -/
structure Unwritten (w : List Member) (k k' : Kernel) : Prop where
  holder : .holder ∉ w → k'.holder = k.holder
  waitingLock : .waitingLock ∉ w → k'.waitingLock = k.waitingLock
  donations : .donations ∉ w → k'.donations = k.donations
  priority : .priority ∉ w → k'.priority = k.priority
  initPriority : .initPriority ∉ w → k'.initPriority = k.initPriority
  condWaiters : .condWaiters ∉ w → k'.condWaiters = k.condWaiters
  idleThread : .idleThread ∉ w → k'.idleThread = k.idleThread
  sleeping : .sleeping ∉ w → k'.sleepingTicks = k.sleepingTicks ∧
    k'.sleepingList = k.sleepingList
  allList : .allList ∉ w → k'.allList = k.allList
  intrContext : k'.intrContext = k.intrContext
  ticks : k'.ticks = k.ticks

variable {cfg : Config} {k k' : Kernel} {f : Frame} {o : Outcome} {w : List Member}

theorem Unwritten.refl (w : List Member) (k : Kernel) : Unwritten w k k :=
  ⟨fun _ => rfl, fun _ => rfl, fun _ => rfl, fun _ => rfl, fun _ => rfl, fun _ => rfl,
    fun _ => rfl, fun _ => ⟨rfl, rfl⟩, fun _ => rfl, rfl, rfl⟩

theorem SemaOnly.unwritten (h : SemaOnly k k') (w : List Member) : Unwritten w k k' := by
  rcases h with ⟨_, _, _, _, _, _, rfl⟩
  constructor <;> simp

theorem SchedOnly.unwritten (h : SchedOnly k k') (w : List Member) : Unwritten w k k' :=
  h.semaOnly.unwritten w

theorem Unwritten.trans {k₁ k₂ k₃ : Kernel} (h₁ : Unwritten w k₁ k₂) (h₂ : Unwritten w k₂ k₃) :
    Unwritten w k₁ k₃ where
  holder := fun hw => (h₂.holder hw).trans (h₁.holder hw)
  waitingLock := fun hw => (h₂.waitingLock hw).trans (h₁.waitingLock hw)
  donations := fun hw => (h₂.donations hw).trans (h₁.donations hw)
  priority := fun hw => (h₂.priority hw).trans (h₁.priority hw)
  initPriority := fun hw => (h₂.initPriority hw).trans (h₁.initPriority hw)
  condWaiters := fun hw => (h₂.condWaiters hw).trans (h₁.condWaiters hw)
  idleThread := fun hw => (h₂.idleThread hw).trans (h₁.idleThread hw)
  sleeping := fun hw => ⟨(h₂.sleeping hw).1.trans (h₁.sleeping hw).1,
    (h₂.sleeping hw).2.trans (h₁.sleeping hw).2⟩
  allList := fun hw => (h₂.allList hw).trans (h₁.allList hw)
  intrContext := h₂.intrContext.trans h₁.intrContext
  ticks := h₂.ticks.trans h₁.ticks

theorem downOutcome_unwritten (s : SemaPtr) (after : AfterDown) (k : Kernel) (got : Bool) :
    Unwritten after.writes k (downOutcome s after k got).kernel := by
  cases got with
  | false =>
      exact .refl _ _
  | true =>
      cases after with
      | acquired l =>
          constructor <;> simp [AfterDown.writes, downOutcome, AfterDown.finish, Kernel.acquired]
      | ret | acquiring l =>
          exact .refl _ _

theorem condSignal_unwritten {order : Kernel → ThreadPtr → ThreadPtr → Bool} {c : CondPtr}
    {l : LockPtr} (h : condSignal order k c l = .ok k') : Unwritten [.condWaiters] k k' := by
  rcases condSignal_eq_ok.1 h with ⟨-, -, ⟨-, rfl⟩ | ⟨w, rest, -, hu⟩⟩
  · exact .refl _ _
  · refine Unwritten.trans ?_ ((semaUp_footprint hu).unwritten _)
    constructor <;> simp

/-- A frame leaves every member alone that the table does not list. -/
theorem runFrame_unwritten (h : runFrame cfg k f = .ok o) : Unwritten f.writes k o.kernel := by
  cases f with
  | down s after =>
      rcases bind_eq_ok.1 h with ⟨⟨k₁, got⟩, hd, h⟩
      cases h
      exact ((semaDown_footprint hd).unwritten _).trans (downOutcome_unwritten s after k₁ got)
  | downLoop s after =>
      rcases bind_eq_ok.1 h with ⟨⟨k₁, got⟩, hd, h⟩
      cases h
      exact ((semaDownTurn_footprint hd).unwritten _).trans (downOutcome_unwritten s after k₁ got)
  | semaTryDown s =>
      cases h
      exact (semaTryDown_footprint k s).unwritten _
  | tryDown l =>
      cases h
      exact (semaTryDown_footprint k (.ofLock l)).unwritten _
  | semaUp s | idleUp =>
      rcases bind_eq_ok.1 h with ⟨k₁, hd, h⟩
      cases h
      exact (semaUp_footprint hd).unwritten _
  | lockAcquire l =>
      rcases bind_eq_ok.1 h with ⟨⟨k₁, got⟩, hd, h⟩
      rcases lockAcquire_eq_ok.1 hd with ⟨-, -, k₂, k₃, hdon, hdown, rfl⟩
      rcases lockDonate_footprint hdon with ⟨p, w, d, rfl⟩
      rcases semaDown_footprint hdown with ⟨_, _, _, _, _, _, rfl⟩
      cases got <;> cases h <;> constructor <;> simp [Frame.writes, Kernel.andThen,
        Kernel.acquired]
  | lockTryAcquire l =>
      rcases bind_eq_ok.1 h with ⟨⟨k₁, got⟩, hd, h⟩
      cases h
      rcases lockTryAcquire_eq_ok.1 hd with ⟨-, -, rfl⟩
      cases got
      · exact .refl _ _
      · refine ((semaTryDown_footprint k (.ofLock l)).unwritten _).trans ?_
        constructor <;> simp [Frame.writes]
  | lockRelease l =>
      rcases bind_eq_ok.1 h with ⟨k₁, hd, h⟩
      cases h
      rcases released_footprint k l with ⟨p, w, d, hrel⟩
      refine Unwritten.trans ?_ ((semaUp_footprint (lockRelease_eq_ok.1 hd).2).unwritten _)
      rw [hrel]
      constructor <;> simp [Frame.writes]
  | acquireEntry l =>
      simp only [runFrame, assert_bind_eq_ok] at h
      cases h.2.2
      exact .refl _ _
  | tryEntry l | releaseEntry l =>
      simp only [runFrame, assert_bind_eq_ok] at h
      cases h.2
      exact .refl _ _
  | stmt st =>
      rcases bind_eq_ok.1 h with ⟨⟨k₁, next⟩, hd, h⟩
      cases h
      rcases LockStmt.run_footprint hd with ⟨_, _, _, _, rfl⟩
      constructor <;> simp [Frame.writes]
  | condEnqueue c l =>
      rcases bind_eq_ok.1 h with ⟨k₁, hd, h⟩
      cases h
      rcases condEnqueue_eq_ok.1 hd with ⟨-, -, rfl⟩
      constructor <;> simp [Frame.writes, Kernel.done, Kernel.enqueued, semaInit]
  | condSignal c l =>
      rcases bind_eq_ok.1 h with ⟨k₁, hd, h⟩
      cases h
      exact condSignal_unwritten hd
  | condBroadcast c l =>
      simp only [runFrame] at h
      split at h
      · cases h
        exact .refl _ _
      · rcases bind_eq_ok.1 h with ⟨k₁, hd, h⟩
        cases h
        exact condSignal_unwritten hd
  | condReturn c l | blockReturn | sleepReturn | timerSleep n =>
      cases h
      exact .refl _ _
  | takeTid t p =>
      cases h
      constructor <;> simp [Kernel.andThen]
  | setIdle =>
      cases h
      constructor <;> simp [Frame.writes, Kernel.andThen]
  | threadCreate t p | threadStart t =>
      rcases bind_eq_ok.1 h with ⟨k₁, hd, h⟩
      cases h
      rcases threadCreate_eq_ok.1 hd with ⟨-, -, rfl⟩
      constructor <;> simp [Frame.writes, Kernel.andThen, initThread]
  | startNew t p tid =>
      rcases bind_eq_ok.1 h with ⟨k₁, hd, h⟩
      cases h
      have hst : Unwritten (Frame.startNew t p tid).writes k (k.started t tid) := by
        constructor <;> simp [Kernel.started, Kernel.madeReady]
      rcases (threadStartNew_eq_ok.1 hd).2 with ⟨-, hy⟩ | ⟨-, rfl⟩
      · exact hst.trans ((threadYield_footprint hy).unwritten _)
      · exact hst
  | threadYield =>
      rcases bind_eq_ok.1 h with ⟨k₁, hd, h⟩
      cases h
      exact (threadYield_footprint hd).unwritten _
  | threadExit =>
      rcases bind_eq_ok.1 h with ⟨k₁, hd, h⟩
      cases h
      rcases threadExit_eq_ok.1 hd with ⟨-, t, rest, -, rfl⟩
      constructor <;> simp [Frame.writes, Kernel.done, Kernel.dispatch, Kernel.exiting]
  | threadSetPriority p =>
      rcases bind_eq_ok.1 h with ⟨k₁, hd, h⟩
      cases h
      refine Unwritten.trans ?_ ((stealRunningByPriority_footprint hd).unwritten _)
      rcases resetPriority_footprint
        { k with
          priority := update k.priority k.running p
          initPriority := update k.initPriority k.running p } with ⟨p', d, he⟩
      rw [he]
      constructor <;> simp [Frame.writes]
  | threadUnblock t =>
      rcases bind_eq_ok.1 h with ⟨k₁, hd, h⟩
      cases h
      rcases threadUnblock_eq_ok.1 hd with ⟨-, rfl⟩
      constructor <;> simp [Kernel.done, Kernel.madeReady]
  | threadBlock | idleLoop =>
      rcases bind_eq_ok.1 h with ⟨k₁, hd, h⟩
      cases h
      exact (threadBlock_footprint hd).unwritten _
  | sleepUntil d =>
      rcases bind_eq_ok.1 h with ⟨k₁, hd, h⟩
      cases h
      refine Unwritten.trans ?_ ((threadBlock_footprint hd).unwritten _)
      constructor <;> simp [Frame.writes, threadToSleep]

theorem runFrame_idleThread (h : runFrame cfg k f = .ok o) :
    o.kernel.idleThread = if f = .setIdle then some k.running else k.idleThread := by
  by_cases hf : f = .setIdle
  · subst hf
    cases h
    rfl
  · rw [if_neg hf]
    refine (runFrame_unwritten h).idleThread ?_
    cases f with
    | setIdle => exact absurd rfl hf
    | down s after | downLoop s after => cases after <;> simp [Frame.writes, AfterDown.writes]
    | _ => simp [Frame.writes]

/-- Only `thread_exit` takes a thread, the running one, off the list of all threads. -/
theorem runFrame_allList (h : runFrame cfg k f = .ok o) {u : ThreadPtr} (hu : u ∈ k.allList)
    (hx : f = .threadExit → u ≠ k.running) : u ∈ o.kernel.allList := by
  cases f with
  | threadExit =>
      rcases bind_eq_ok.1 h with ⟨k₁, hd, h⟩
      cases h
      rcases threadExit_eq_ok.1 hd with ⟨-, t, rest, -, rfl⟩
      exact (List.mem_erase_of_ne (hx rfl)).2 hu
  | threadCreate t p | threadStart t =>
      rcases bind_eq_ok.1 h with ⟨k₁, hd, h⟩
      cases h
      rcases threadCreate_eq_ok.1 hd with ⟨-, -, rfl⟩
      exact List.mem_append_left _ hu
  | down s after | downLoop s after =>
      rw [(runFrame_unwritten h).allList (by cases after <;> simp [Frame.writes, AfterDown.writes])]
      exact hu
  | _ =>
      rw [(runFrame_unwritten h).allList (by simp [Frame.writes])]
      exact hu

/-! ## What a frame does to the semaphores -/

inductive SemaOp
  | none
  /-- the value goes down -/
  | took (s : SemaPtr)
  /-- the running thread queues up at value 0 -/
  | queued (s : SemaPtr)
  /-- a waiter is woken, if there is one, and the value goes up -/
  | upped (s : SemaPtr)
  /-- `sema_init` of the semaphore on a thread's stack -/
  | fresh (t : ThreadPtr)
  deriving DecidableEq, Repr

/-- `sema_down` and a turn of its loop. -/
def SemaOp.down (k : Kernel) (s : SemaPtr) : SemaOp :=
  if k.value s = 0 then queued s else took s

def SemaOp.tryDown (k : Kernel) (s : SemaPtr) : SemaOp :=
  if k.value s = 0 then none else took s

/-- `cond_signal` takes up the semaphore of the waiter that the sort puts first. -/
def SemaOp.signal (order : Kernel → ThreadPtr → ThreadPtr → Bool) (k : Kernel) (c : CondPtr) :
    SemaOp :=
  match sort (order k) (k.condWaiters c) with
  | [] => none
  | w :: _ => upped (.waiter w)

theorem SemaOp.down_cases (k : Kernel) (s : SemaPtr) :
    SemaOp.down k s = .queued s ∨ SemaOp.down k s = .took s := by
  unfold SemaOp.down
  split
  · exact Or.inl rfl
  · exact Or.inr rfl

theorem SemaOp.tryDown_cases (k : Kernel) (s : SemaPtr) :
    SemaOp.tryDown k s = .none ∨ SemaOp.tryDown k s = .took s := by
  unfold SemaOp.tryDown
  split
  · exact Or.inl rfl
  · exact Or.inr rfl

theorem SemaOp.signal_cases (order : Kernel → ThreadPtr → ThreadPtr → Bool) (k : Kernel)
    (c : CondPtr) :
    SemaOp.signal order k c = .none ∨ ∃ w, SemaOp.signal order k c = .upped (.waiter w) := by
  unfold SemaOp.signal
  split
  · exact Or.inl rfl
  · exact Or.inr ⟨_, rfl⟩

/-- What executing the frame will do to the semaphores. -/
def Frame.semaOp (cfg : Config) (k : Kernel) : Frame → SemaOp
  | .down s _ | .downLoop s _ => .down k s
  | .semaTryDown s => .tryDown k s
  | .semaUp s => .upped s
  | .lockAcquire l => .down k (.ofLock l)
  | .lockTryAcquire l | .tryDown l => .tryDown k (.ofLock l)
  | .lockRelease l => .upped (.ofLock l)
  | .condEnqueue _ _ => .fresh k.running
  | .condSignal c _ | .condBroadcast c _ => .signal cfg.order k c
  | .idleUp => .upped .idleStarted
  | _ => .none

/-- The waiters of `s`, taken from `ws`, when one has been woken. -/
def Woken (ws ws' : List ThreadPtr) : Prop :=
  (ws = [] ∧ ws' = []) ∨ ∃ t, ws.Perm (t :: ws')

/-- The semaphores before and after an operation on them. -/
def SemaOp.Does (k k' : Kernel) : SemaOp → Prop
  | none => k'.value = k.value ∧ k'.waiters = k.waiters
  | took s =>
      k.value s ≠ 0 ∧ k'.value = (k.lowered s).value ∧ k'.waiters = k.waiters
  | queued s =>
      k.value s = 0 ∧ k'.value = k.value ∧
        ∃ ws, ws.Perm (k.running :: k.waiters s) ∧ k'.waiters = update k.waiters s ws
  | upped s =>
      k'.value = (k.raised s).value ∧
        ∃ ws, Woken (k.waiters s) ws ∧ k'.waiters = update k.waiters s ws
  | fresh t =>
      k'.value = update k.value (.waiter t) 0 ∧ k'.waiters = update k.waiters (.waiter t) []

theorem downOutcome_footprint (s : SemaPtr) (after : AfterDown) (got : Bool) :
    DonationOnly k (downOutcome s after k got).kernel := by
  cases got with
  | false =>
      exact .refl _
  | true =>
      cases after with
      | acquired l =>
          exact ⟨_, _, _, _, rfl⟩
      | ret | acquiring l =>
          exact .refl _

theorem tryDown_footprint {l : LockPtr} {success : Bool} {k' : Kernel}
    (h : lockTryAcquire k l = .ok (k', success)) :
    SemaOnly k (semaTryDown k (.ofLock l)).1 ∧ DonationOnly (semaTryDown k (.ofLock l)).1 k' := by
  simp only [lockTryAcquire, assert_bind_eq_ok] at h
  refine ⟨semaTryDown_footprint _ _, ?_⟩
  rcases h with ⟨-, h⟩
  split at h
  · cases h
    exact ⟨_, _, _, _, rfl⟩
  · cases h
    exact .refl _

theorem SchedOnly.semas (h : SchedOnly k k') : k'.value = k.value ∧ k'.waiters = k.waiters := by
  rcases h with ⟨_, _, _, _, rfl⟩
  exact ⟨rfl, rfl⟩

theorem DonationOnly.semas (h : DonationOnly k k') :
    k'.value = k.value ∧ k'.waiters = k.waiters := by
  rcases h with ⟨_, _, _, _, rfl⟩
  exact ⟨rfl, rfl⟩

/-- Scheduling and the bookkeeping of locks around it do not change what an operation does. -/
theorem SemaOp.Does.congr {op : SemaOp} {k₁ k₁' : Kernel} (h : op.Does k k')
    (h₁ : k₁.value = k.value ∧ k₁.waiters = k.waiters) (hr : k₁.running = k.running)
    (h₂ : k₁'.value = k'.value ∧ k₁'.waiters = k'.waiters) : op.Does k₁ k₁' := by
  rcases h₁ with ⟨hv, hw⟩
  rcases h₂ with ⟨hv', hw'⟩
  cases op with
  | none => exact ⟨by rw [hv', hv, h.1], by rw [hw', hw, h.2]⟩
  | took s =>
      refine ⟨by rw [hv]; exact h.1, ?_, by rw [hw', hw, h.2.2]⟩
      rw [hv', h.2.1]
      simp [Kernel.lowered, hv]
  | queued s =>
      rcases h with ⟨h0, hval, ws, hp, hws⟩
      exact ⟨by rw [hv]; exact h0, by rw [hv', hv, hval], ws, by rw [hr, hw]; exact hp,
        by rw [hw', hw, hws]⟩
  | upped s =>
      rcases h with ⟨hval, ws, hp, hws⟩
      refine ⟨?_, ws, by rw [hw]; exact hp, by rw [hw', hw, hws]⟩
      rw [hv', hval]
      simp [Kernel.raised, hv]
  | fresh t => exact ⟨by rw [hv', hv, h.1], by rw [hw', hw, h.2]⟩

/-- An operation on another semaphore, or a `sema_init` of this one. -/
theorem SemaOp.Does.elsewhere {op : SemaOp} {s : SemaPtr} (h : op.Does k k')
    (hq : op ≠ .queued s) (ht : op ≠ .took s) (hu : op ≠ .upped s) :
    ((∀ t, op = .fresh t → s ≠ .waiter t) ∧ k'.value s = k.value s ∧
        k'.waiters s = k.waiters s) ∨
      (∃ t, op = .fresh t ∧ s = .waiter t ∧ k'.value s = 0 ∧ k'.waiters s = []) := by
  cases op with
  | none =>
      exact Or.inl ⟨by simp, by rw [h.1], by rw [h.2]⟩
  | took s' =>
      have hne : s ≠ s' := fun e => ht (by rw [e])
      exact Or.inl ⟨by simp, by rw [h.2.1]; simp [Kernel.lowered, hne], by rw [h.2.2]⟩
  | queued s' =>
      have hne : s ≠ s' := fun e => hq (by rw [e])
      rcases h with ⟨-, hv, ws, -, hw⟩
      exact Or.inl ⟨by simp, by rw [hv], by rw [hw, update_of_ne hne]⟩
  | upped s' =>
      have hne : s ≠ s' := fun e => hu (by rw [e])
      rcases h with ⟨hv, ws, -, hw⟩
      exact Or.inl ⟨by simp, by rw [hv]; simp [Kernel.raised, hne], by rw [hw, update_of_ne hne]⟩
  | fresh t =>
      by_cases hs : s = .waiter t
      · exact Or.inr ⟨t, rfl, hs, by rw [h.1, hs, update_self], by rw [h.2, hs, update_self]⟩
      · exact Or.inl ⟨by rintro u ⟨⟩; exact hs, by rw [h.1, update_of_ne hs],
          by rw [h.2, update_of_ne hs]⟩

theorem semaDownTurn_does {s : SemaPtr} {got : Bool} (h : semaDownTurn k s = .ok (k', got)) :
    (SemaOp.down k s).Does k k' := by
  unfold SemaOp.down
  rcases semaDownTurn_eq_ok.1 h with ⟨h0, -, hb⟩ | ⟨h0, -, rfl⟩
  · rw [if_pos h0]
    have hs := (threadBlock_footprint hb).semas
    exact ⟨h0, hs.1, _, insertOrdered_perm _ _, hs.2⟩
  · rw [if_neg h0]
    exact ⟨h0, rfl, rfl⟩

theorem semaTryDown_does (k : Kernel) (s : SemaPtr) :
    (SemaOp.tryDown k s).Does k (semaTryDown k s).1 := by
  by_cases h0 : k.value s = 0
  · simp [SemaOp.tryDown, semaTryDown, h0, SemaOp.Does]
  · simp [SemaOp.tryDown, semaTryDown, h0, Nat.pos_of_ne_zero h0, SemaOp.Does, Kernel.lowered]

theorem semaUp_does {s : SemaPtr} (h : semaUp k s = .ok k') : (SemaOp.upped s).Does k k' := by
  rcases semaUp_eq_ok.1 h with ⟨k₁, hw, hs⟩
  have hsem := (stealRunningByPriority_footprint hs).semas
  rcases semaWake_eq_ok.1 hw with ⟨h0, rfl⟩ | ⟨t, rest, hsort, -, rfl⟩
  · exact ⟨hsem.1, [], Or.inl ⟨h0, rfl⟩, by rw [hsem.2, ← h0]; simp [Kernel.raised]⟩
  · exact ⟨hsem.1, rest, Or.inr ⟨t, perm_of_sort_eq_cons hsort⟩, hsem.2⟩

theorem condSignal_does {order : Kernel → ThreadPtr → ThreadPtr → Bool} {c : CondPtr} {l : LockPtr}
    (h : condSignal order k c l = .ok k') : (SemaOp.signal order k c).Does k k' := by
  unfold SemaOp.signal
  rcases condSignal_eq_ok.1 h with ⟨-, -, ⟨h0, rfl⟩ | ⟨w, rest, hsort, hu⟩⟩
  · rw [h0]
    exact ⟨rfl, rfl⟩
  · rw [hsort]
    exact (semaUp_does hu).congr ⟨rfl, rfl⟩ rfl ⟨rfl, rfl⟩

/-- A frame does to the semaphores what the table says. -/
theorem runFrame_semaOp (h : runFrame cfg k f = .ok o) : (f.semaOp cfg k).Does k o.kernel := by
  cases f with
  | down s after =>
      rcases bind_eq_ok.1 h with ⟨⟨k₁, got⟩, hd, h⟩
      cases h
      exact (semaDownTurn_does (semaDown_eq_ok.1 hd).2).congr ⟨rfl, rfl⟩ rfl
        (downOutcome_footprint s after got).semas
  | downLoop s after =>
      rcases bind_eq_ok.1 h with ⟨⟨k₁, got⟩, hd, h⟩
      cases h
      exact (semaDownTurn_does hd).congr ⟨rfl, rfl⟩ rfl (downOutcome_footprint s after got).semas
  | semaTryDown s =>
      cases h
      exact semaTryDown_does k s
  | tryDown l =>
      cases h
      exact semaTryDown_does k (.ofLock l)
  | semaUp s | idleUp =>
      rcases bind_eq_ok.1 h with ⟨k₁, hd, h⟩
      cases h
      exact semaUp_does hd
  | lockAcquire l =>
      rcases bind_eq_ok.1 h with ⟨⟨k₁, got⟩, hd, h⟩
      rcases lockAcquire_eq_ok.1 hd with ⟨-, -, k₂, k₃, hdon, hdown, rfl⟩
      rcases lockDonate_footprint hdon with ⟨p, w, d, rfl⟩
      refine (semaDownTurn_does (semaDown_eq_ok.1 hdown).2).congr ⟨rfl, rfl⟩ rfl ?_
      cases got <;> cases h <;> exact ⟨rfl, rfl⟩
  | lockTryAcquire l =>
      rcases bind_eq_ok.1 h with ⟨⟨k₁, got⟩, hd, h⟩
      cases h
      exact (semaTryDown_does k (.ofLock l)).congr ⟨rfl, rfl⟩ rfl (tryDown_footprint hd).2.semas
  | lockRelease l =>
      rcases bind_eq_ok.1 h with ⟨k₁, hd, h⟩
      cases h
      rcases released_footprint k l with ⟨p, w, d, hrel⟩
      have hu := semaUp_does (lockRelease_eq_ok.1 hd).2
      rw [hrel] at hu
      exact hu.congr ⟨rfl, rfl⟩ rfl ⟨rfl, rfl⟩
  | acquireEntry l =>
      simp only [runFrame, assert_bind_eq_ok] at h
      cases h.2.2
      exact ⟨rfl, rfl⟩
  | tryEntry l | releaseEntry l =>
      simp only [runFrame, assert_bind_eq_ok] at h
      cases h.2
      exact ⟨rfl, rfl⟩
  | stmt st =>
      rcases bind_eq_ok.1 h with ⟨⟨k₁, next⟩, hd, h⟩
      cases h
      exact (LockStmt.run_footprint hd).semas
  | condEnqueue c l =>
      rcases bind_eq_ok.1 h with ⟨k₁, hd, h⟩
      cases h
      rcases condEnqueue_eq_ok.1 hd with ⟨-, -, rfl⟩
      exact ⟨rfl, rfl⟩
  | condSignal c l =>
      rcases bind_eq_ok.1 h with ⟨k₁, hd, h⟩
      cases h
      exact condSignal_does hd
  | condBroadcast c l =>
      simp only [runFrame] at h
      split at h
      · rename_i h0
        cases h
        simp [Frame.semaOp, SemaOp.signal, h0, SemaOp.Does, Kernel.done]
      · rcases bind_eq_ok.1 h with ⟨k₁, hd, h⟩
        cases h
        exact condSignal_does hd
  | condReturn c l | blockReturn | sleepReturn | timerSleep n | setIdle | takeTid t p =>
      cases h
      exact ⟨rfl, rfl⟩
  | threadCreate t p | threadStart t =>
      rcases bind_eq_ok.1 h with ⟨k₁, hd, h⟩
      cases h
      rcases threadCreate_eq_ok.1 hd with ⟨-, -, rfl⟩
      exact ⟨rfl, rfl⟩
  | startNew t p tid =>
      rcases bind_eq_ok.1 h with ⟨k₁, hd, h⟩
      cases h
      rcases (threadStartNew_eq_ok.1 hd).2 with ⟨-, hy⟩ | ⟨-, rfl⟩
      · exact (threadYield_footprint hy).semas
      · exact ⟨rfl, rfl⟩
  | threadYield =>
      rcases bind_eq_ok.1 h with ⟨k₁, hd, h⟩
      cases h
      exact (threadYield_footprint hd).semas
  | threadExit =>
      rcases bind_eq_ok.1 h with ⟨k₁, hd, h⟩
      cases h
      rcases threadExit_eq_ok.1 hd with ⟨-, t, rest, -, rfl⟩
      exact ⟨rfl, rfl⟩
  | threadSetPriority p =>
      rcases bind_eq_ok.1 h with ⟨k₁, hd, h⟩
      cases h
      rcases resetPriority_footprint
        { k with
          priority := update k.priority k.running p
          initPriority := update k.initPriority k.running p } with ⟨p', d, he⟩
      have hs := (stealRunningByPriority_footprint hd).semas
      rw [he] at hs
      exact hs
  | threadUnblock t =>
      rcases bind_eq_ok.1 h with ⟨k₁, hd, h⟩
      cases h
      rcases threadUnblock_eq_ok.1 hd with ⟨-, rfl⟩
      exact ⟨rfl, rfl⟩
  | threadBlock | idleLoop =>
      rcases bind_eq_ok.1 h with ⟨k₁, hd, h⟩
      cases h
      exact (threadBlock_footprint hd).semas
  | sleepUntil d =>
      rcases bind_eq_ok.1 h with ⟨k₁, hd, h⟩
      cases h
      have hs := (threadBlock_footprint hd).semas
      exact hs

end Project2
end Pintos
