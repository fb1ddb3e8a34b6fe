import Pintos.Project2.Calls

/-!
# Bookkeeping — what a call does to `holder`, `waiting_lock`, `donations` and `priority`

With a lock function as one frame, a step does one of eight things to the members that priority
donation is about.  `System.bookOp` computes from the state which one it will be, `BookOp.Does`
says what it is, and `step_bookOp` that a step does that and nothing else.
-/

namespace Pintos
namespace Project2

open Lib Function

/-! ## The members of the bookkeeping -/

/-- The members of the bookkeeping are the same. -/
structure SameBook (k k' : Kernel) : Prop where
  holder : k'.holder = k.holder
  waitingLock : k'.waitingLock = k.waitingLock
  donations : k'.donations = k.donations
  priority : k'.priority = k.priority
  initPriority : k'.initPriority = k.initPriority

section SameBook

variable {k k' k₁ k₂ k₃ : Kernel}

theorem SameBook.refl (k : Kernel) : SameBook k k := ⟨rfl, rfl, rfl, rfl, rfl⟩

theorem SameBook.trans (h₁ : SameBook k₁ k₂) (h₂ : SameBook k₂ k₃) : SameBook k₁ k₃ :=
  ⟨h₂.holder.trans h₁.holder, h₂.waitingLock.trans h₁.waitingLock,
    h₂.donations.trans h₁.donations, h₂.priority.trans h₁.priority,
    h₂.initPriority.trans h₁.initPriority⟩

theorem SchedOnly.sameBook (h : SchedOnly k k') : SameBook k k' := by
  rcases h with ⟨_, _, _, _, rfl⟩
  exact ⟨rfl, rfl, rfl, rfl, rfl⟩

theorem SemaOnly.sameBook (h : SemaOnly k k') : SameBook k k' := by
  rcases h with ⟨_, _, _, _, _, _, rfl⟩
  exact ⟨rfl, rfl, rfl, rfl, rfl⟩

/-- A frame whose table of members has none of the bookkeeping. -/
theorem Unwritten.sameBook {w : List Member} (h : Unwritten w k k')
    (hw : .holder ∉ w ∧ .waitingLock ∉ w ∧ .donations ∉ w ∧ .priority ∉ w ∧ .initPriority ∉ w) :
    SameBook k k' :=
  ⟨h.holder hw.1, h.waitingLock hw.2.1, h.donations hw.2.2.1, h.priority hw.2.2.2.1,
    h.initPriority hw.2.2.2.2⟩

end SameBook

/-! ## The operations -/

inductive BookOp
  | keep
  /-- the running thread becomes the holder of the free lock -/
  | take (l : LockPtr)
  /-- `lock_acquire` finds a holder, donates to it and blocks -/
  | wait (l : LockPtr)
  /-- a woken waiter finds the lock taken again and blocks again -/
  | requeue (l : LockPtr)
  | release (l : LockPtr)
  | create (t : ThreadPtr) (priority : Int)
  | setPriority (priority : Int)
  deriving DecidableEq, Repr

/-- What executing the frame will do to the bookkeeping. -/
def Frame.bookOp (k : Kernel) : Frame → BookOp
  | .lockAcquire l => if k.value (.ofLock l) = 0 then .wait l else .take l
  | .downLoop (.ofLock l) _ => if k.value (.ofLock l) = 0 then .requeue l else .take l
  | .lockTryAcquire l => if k.value (.ofLock l) = 0 then .keep else .take l
  | .lockRelease l => .release l
  | .threadCreate t p => .create t p
  | .threadStart t => .create t PRI_MIN
  | .threadSetPriority p => .setPriority p
  | _ => .keep

/-- What a step will do to the bookkeeping. -/
def System.bookOp (σ : System) : Act → BookOp
  | .exec => ((σ.code σ.kernel.running).head?.map (Frame.bookOp σ.kernel)).getD .keep
  | _ => .keep

/-- `thread_set_priority` up to its `reset_priority`. -/
def Kernel.prioritySet (k : Kernel) (p : Int) : Kernel :=
  { k with
    priority := update k.priority k.running p
    initPriority := update k.initPriority k.running p }

/-- The threads queued on the locks. -/
def Kernel.lockWaiters (k : Kernel) (l : LockPtr) : List ThreadPtr :=
  k.waiters (.ofLock l)

/-- The running thread is queued on the lock. -/
def QueuesUp (k k' : Kernel) (l : LockPtr) : Prop :=
  ∃ ws, ws.Perm (k.running :: k.lockWaiters l) ∧ k'.lockWaiters = update k.lockWaiters l ws

/-- The bookkeeping and the waiters of the locks before and after an operation. -/
def BookOp.Does (k k' : Kernel) : BookOp → Prop
  | keep => SameBook k k' ∧ k'.lockWaiters = k.lockWaiters
  | take l => k.holder l = none ∧ SameBook (k.acquired l) k' ∧ k'.lockWaiters = k.lockWaiters
  | wait l =>
      (∃ h k₁, k.holder l = some h ∧ donatePriority (k.donating l h) = .ok k₁ ∧
        SameBook k₁ k') ∧ QueuesUp k k' l
  | requeue l => (∃ h, k.holder l = some h) ∧ SameBook k k' ∧ QueuesUp k k' l
  | release l =>
      k.holder l = some k.running ∧ SameBook (k.released l) k' ∧
        ∃ ws, Woken (k.lockWaiters l) ws ∧ k'.lockWaiters = update k.lockWaiters l ws
  | create t p =>
      (∀ l, k.holder l ≠ some t ∧ t ∉ k.lockWaiters l) ∧ SameBook (initThread k t p) k' ∧
        k'.lockWaiters = k.lockWaiters
  | setPriority p =>
      SameBook (resetPriority (k.prioritySet p)) k' ∧ k'.lockWaiters = k.lockWaiters

/-! ## Every step does its operation -/

section Steps

variable {σ σ' : System} {order : Kernel → ThreadPtr → ThreadPtr → Bool} {f : Frame}
  {rest : List Frame} {o : Outcome} {k k' : Kernel} {s : SemaPtr} {after : AfterDown}

/-- The waiters of the locks after an operation on the semaphores. -/
theorem SemaOp.Does.lockWaiters {op : SemaOp} (h : op.Does k k')
    (hq : ∀ l, op ≠ .queued (.ofLock l)) (hu : ∀ l, op ≠ .upped (.ofLock l)) :
    k'.lockWaiters = k.lockWaiters := by
  refine funext fun l => ?_
  by_cases ht : op = .took (.ofLock l)
  · subst ht
    exact congrFun h.2.2 _
  · rcases h.elsewhere (hq l) ht (hu l) with ⟨-, -, hw⟩ | ⟨t, -, hs, -⟩
    · exact hw
    · cases hs

theorem SemaOp.Does.queuesUp {l : LockPtr} (h : (SemaOp.queued (.ofLock l)).Does k k') :
    QueuesUp k k' l := by
  rcases h with ⟨-, -, ws, hp, hw⟩
  refine ⟨ws, hp, funext fun m => ?_⟩
  have hm := congrFun hw (.ofLock m)
  by_cases he : m = l
  · subst he
    simpa [Kernel.lockWaiters] using hm
  · simpa [Kernel.lockWaiters, he] using hm

theorem SemaOp.Does.wakes {l : LockPtr} (h : (SemaOp.upped (.ofLock l)).Does k k') :
    ∃ ws, Woken (k.lockWaiters l) ws ∧ k'.lockWaiters = update k.lockWaiters l ws := by
  rcases h with ⟨-, ws, hp, hw⟩
  refine ⟨ws, hp, funext fun m => ?_⟩
  have hm := congrFun hw (.ofLock m)
  by_cases he : m = l
  · subst he
    simpa [Kernel.lockWaiters] using hm
  · simpa [Kernel.lockWaiters, he] using hm

/-- The running thread does not wait for a lock: then the two ways to take a lock leave the same
bookkeeping. -/
theorem SameBook.of_holder {l : LockPtr} (hfree : k.waitingLock k.running = none)
    (h : SameBook { k with holder := update k.holder l (some k.running) } k') :
    SameBook (k.acquired l) k' := by
  refine ⟨h.holder, h.waitingLock.trans ?_, h.donations, h.priority, h.initPriority⟩
  show k.waitingLock = update k.waitingLock k.running none
  rw [← hfree, update_eq_self]

/-- `sema_down` of a semaphore that belongs to no lock. -/
theorem keep_down (hun : Unwritten [] k k') (hdoes : (SemaOp.down k s).Does k k')
    (hs : ∀ l, s ≠ .ofLock l) : BookOp.keep.Does k k' := by
  rcases SemaOp.down_cases k s with hop | hop <;>
    exact ⟨hun.sameBook (by simp), hdoes.lockWaiters (by simp [hop, hs]) (by simp [hop])⟩

theorem Coarse.exec_bookOp (h : Coarse σ)
    (hfree : σ.kernel.waitingLock σ.kernel.running = none)
    (hc : σ.code σ.kernel.running = f :: rest)
    (hr : runFrame ⟨.calls, order⟩ σ.kernel f = .ok o) :
    (f.bookOp σ.kernel).Does σ.kernel o.kernel := by
  have hcoarse : f.isCoarse = true := h.coarse σ.kernel.running f (by simp [hc])
  have hun := runFrame_unwritten hr
  have hdoes := runFrame_semaOp hr
  cases f with
  | down s after =>
      rcases down_coarse hcoarse with ⟨rfl, hs⟩
      exact keep_down hun hdoes hs
  | downLoop s after =>
      rcases downLoop_coarse hcoarse with ⟨rfl, hs⟩ | ⟨l, rfl, rfl⟩
      · have hop : (Frame.downLoop s .ret).bookOp σ.kernel = .keep := by
          cases s with
          | ofLock l => exact absurd rfl (hs l)
          | sema n | idleStarted | waiter t => rfl
        rw [hop]
        exact keep_down hun hdoes hs
      · rcases bind_eq_ok.1 hr with ⟨⟨k₁, got⟩, hd, hr⟩
        cases hr
        rcases h.called.values.cases l with ⟨h0, hu⟩ | ⟨h0, hn⟩
        · rcases semaDownTurn_eq_ok.1 hd with ⟨-, rfl, hb⟩ | ⟨hne, -⟩
          · simp only [Frame.bookOp, if_pos h0]
            simp only [Frame.semaOp, SemaOp.down, if_pos h0] at hdoes
            have hq : SemaOnly σ.kernel (σ.kernel.queued (.ofLock l)) := ⟨_, _, _, _, _, _, rfl⟩
            exact ⟨hu, hq.sameBook.trans (threadBlock_footprint hb).sameBook, hdoes.queuesUp⟩
          · exact absurd h0 hne
        · rcases semaDownTurn_eq_ok.1 hd with ⟨h0', -⟩ | ⟨-, rfl, rfl⟩
          · exact absurd h0' h0
          · simp only [Frame.bookOp, if_neg h0]
            exact ⟨hn, ⟨rfl, rfl, rfl, rfl, rfl⟩, rfl⟩
  | lockAcquire l =>
      rcases bind_eq_ok.1 hr with ⟨⟨k₁, got⟩, hd, hr⟩
      rcases lockAcquire_eq_ok.1 hd with ⟨-, -, k₂, k₃, hdon, hdown, rfl⟩
      have hturn := (semaDown_eq_ok.1 hdown).2
      have hvalue : k₂.value = σ.kernel.value := by
        rcases lockDonate_footprint hdon with ⟨_, _, _, rfl⟩
        rfl
      rcases h.called.values.cases l with ⟨h0, u, hu⟩ | ⟨h0, hn⟩
      · simp only [Frame.bookOp, if_pos h0]
        simp only [Frame.semaOp, SemaOp.down, if_pos h0] at hdoes
        rcases semaDownTurn_eq_ok.1 hturn with ⟨-, rfl, hb⟩ | ⟨hne, -⟩
        · cases hr
          simp only [lockDonate, hu] at hdon
          have hq : SemaOnly k₂ (k₂.queued (.ofLock l)) := ⟨_, _, _, _, _, _, rfl⟩
          exact ⟨⟨u, k₂, hu, hdon, hq.sameBook.trans (threadBlock_footprint hb).sameBook⟩,
            hdoes.queuesUp⟩
        · rw [hvalue] at hne
          exact absurd h0 hne
      · simp only [Frame.bookOp, if_neg h0]
        simp only [lockDonate, hn, Except.ok.injEq] at hdon
        subst hdon
        rcases semaDownTurn_eq_ok.1 hturn with ⟨h0', -⟩ | ⟨-, rfl, rfl⟩
        · exact absurd h0' h0
        · cases hr
          exact ⟨hn, ⟨rfl, rfl, rfl, rfl, rfl⟩, rfl⟩
  | lockTryAcquire l =>
      rcases bind_eq_ok.1 hr with ⟨⟨k₁, success⟩, hd, hr⟩
      cases hr
      rcases lockTryAcquire_eq_ok.1 hd with ⟨-, hsucc, rfl⟩
      rcases h.called.values.cases l with ⟨h0, -⟩ | ⟨h0, hn⟩
      · simp only [Frame.bookOp, if_pos h0]
        have hfalse : success = false := by simp [hsucc, semaTryDown, h0]
        subst hfalse
        exact ⟨.refl _, rfl⟩
      · simp only [Frame.bookOp, if_neg h0]
        have hdn : semaTryDown σ.kernel (.ofLock l) = (σ.kernel.lowered (.ofLock l), true) := by
          simp [semaTryDown, Nat.pos_of_ne_zero h0]
        rw [hdn] at hsucc
        subst hsucc
        refine ⟨hn, .of_holder hfree ?_, ?_⟩
        · simp only [hdn, if_true]
          exact ⟨rfl, rfl, rfl, rfl, rfl⟩
        · simp only [hdn, if_true]
          rfl
  | lockRelease l =>
      rcases bind_eq_ok.1 hr with ⟨k₁, hd, hr⟩
      cases hr
      rcases lockRelease_eq_ok.1 hd with ⟨hl, hu⟩
      exact ⟨hl, (semaUp_footprint hu).sameBook, hdoes.wakes⟩
  | threadCreate t p | threadStart t =>
      rcases bind_eq_ok.1 hr with ⟨k₁, hd, hr⟩
      cases hr
      rcases threadCreate_eq_ok.1 hd with ⟨⟨ht, -⟩, -, rfl⟩
      have hdead := (h.live.placed t).dead.1 ht
      refine ⟨fun l => ⟨fun hh => ht (h.alive l t hh), ?_⟩, .refl _, rfl⟩
      exact h.live.not_wait_of_status (by simp [hdead]) _
  | threadSetPriority p =>
      rcases bind_eq_ok.1 hr with ⟨k₁, hd, hr⟩
      cases hr
      exact ⟨(stealRunningByPriority_footprint hd).sameBook,
        hdoes.lockWaiters (by simp [Frame.semaOp]) (by simp [Frame.semaOp])⟩
  | acquireEntry l | tryEntry l | tryDown l | releaseEntry l | stmt st => cases hcoarse
  | semaTryDown s =>
      rcases SemaOp.tryDown_cases σ.kernel s with hop | hop <;>
        exact ⟨hun.sameBook (by simp [Frame.writes]),
          hdoes.lockWaiters (by simp [Frame.semaOp, hop]) (by simp [Frame.semaOp, hop])⟩
  | semaUp s =>
      have hs : ∀ l, s ≠ .ofLock l := by
        rintro l rfl
        cases hcoarse
      exact ⟨hun.sameBook (by simp [Frame.writes]),
        hdoes.lockWaiters (by simp [Frame.semaOp]) (by simp [Frame.semaOp, hs])⟩
  | condSignal c l | condBroadcast c l =>
      rcases SemaOp.signal_cases order σ.kernel c with hop | ⟨w, hop⟩ <;>
        exact ⟨hun.sameBook (by simp [Frame.writes]),
          hdoes.lockWaiters (by simp [Frame.semaOp, hop]) (by simp [Frame.semaOp, hop])⟩
  | _ =>
      exact ⟨hun.sameBook (by simp [Frame.writes]),
        hdoes.lockWaiters (by simp [Frame.semaOp]) (by simp [Frame.semaOp])⟩

theorem Coarse.step_bookOp {a : Act} (h : Coarse σ)
    (hfree : σ.kernel.waitingLock σ.kernel.running = none)
    (hs : Project2.step ⟨.calls, order⟩ a σ = some σ') : (σ.bookOp a).Does σ.kernel σ'.kernel := by
  cases a with
  | call op =>
      rcases step_call_iff.1 hs with ⟨-, rfl⟩
      exact ⟨.refl _, rfl⟩
  | exec =>
      rcases step_exec_iff.1 hs with ⟨f, rest, o, hc, hr, rfl⟩
      have hop : σ.bookOp .exec = f.bookOp σ.kernel := by simp [System.bookOp, hc]
      rw [hop]
      exact h.exec_bookOp hfree hc hr
  | tick =>
      rcases step_tick_iff.1 hs with ⟨-, k, ht, rfl⟩
      rcases timerInterrupt_footprint ht with ⟨_, _, _, _, _, _, _, _, rfl⟩
      exact ⟨⟨rfl, rfl, rfl, rfl, rfl⟩, rfl⟩
  | preempt t =>
      rcases step_preempt_iff.1 hs with ⟨-, rfl⟩
      exact ⟨⟨rfl, rfl, rfl, rfl, rfl⟩, rfl⟩

end Steps

end Project2
end Pintos
