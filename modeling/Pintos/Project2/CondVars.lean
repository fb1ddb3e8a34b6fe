import Pintos.Project2.Ownership
import Pintos.Project2.WakeUp
import Pintos.Lib.Monitor

/-!
# CondVars — no wake-up of a condition is lost or doubled

A thread in `cond_wait` is published in the condition's waiters before it releases the lock, and
sleeps only later, on a semaphore of its own.  `System.condEvent` reads a step as an event of the
abstract monitor, and `CondInv.step` says that every step is a possible one: the waiters are the
threads in phase `waiting`, and the semaphore of a thread is up exactly in phase `released`.  A
switch is possible between any two frames.
-/

namespace Pintos
namespace Project2

open Lib Function

/-! ## Frames of `cond_wait` -/

/-- Frames that queue a thread on a condition, touch the semaphore of a waiter or end `cond_wait`. -/
def Frame.isCond : Frame → Bool
  | .condEnqueue _ _ | .condReturn _ _ | .down (.waiter _) _ | .downLoop (.waiter _) _
  | .semaTryDown (.waiter _) | .semaUp (.waiter _) => true
  | _ => false

/-- Frames of `lock_release`. -/
def Frame.isRelease : Frame → Bool
  | .lockRelease _ | .releaseEntry _ | .stmt _ | .semaUp (.ofLock _) => true
  | _ => false

/-- The condition that a frame signals, with the lock it is given. -/
def Frame.condLock : Frame → Option (CondPtr × LockPtr)
  | .condSignal c l | .condBroadcast c l => some (c, l)
  | _ => none

section RunFrame

variable {cfg : Config} {k : Kernel} {f : Frame} {o : Outcome}

theorem isCond_of_isRelease (hf : f.isRelease = true) : f.isCond = false := by
  cases f with
  | semaUp s => cases s <;> first | rfl | cases hf
  | lockRelease l | releaseEntry l | stmt st => rfl
  | _ => cases hf

theorem downOutcome_free {s : SemaPtr} {after : AfterDown} {got : Bool}
    (hf : (Frame.downLoop s after).isCond = false) :
    ∀ g ∈ (downOutcome s after k got).push, g.isCond = false ∧ g.condLock = none := by
  cases got with
  | false =>
      simpa [downOutcome, Kernel.andThen, Frame.condLock] using hf
  | true =>
      cases after <;> simp [downOutcome, AfterDown.finish, Kernel.andThen, Kernel.done,
        Frame.isCond, Frame.condLock]

/-- A frame outside `cond_wait` pushes none of its frames, and no signal but a broadcast's next
round. -/
theorem runFrame_free (hf : f.isCond = false) (hr : runFrame cfg k f = .ok o) :
    ∀ g ∈ o.push, g.isCond = false ∧
      (g.condLock = none ∨ o.push = [f] ∧ o.change = .same) := by
  cases f with
  | down s after | downLoop s after =>
      rcases bind_eq_ok.1 hr with ⟨⟨k₁, got⟩, -, hr⟩
      cases hr
      intro g hg
      have hs : (Frame.downLoop s after).isCond = false := by
        cases s <;> first | rfl | cases hf
      obtain ⟨hfree, hlock⟩ := downOutcome_free hs g hg
      exact ⟨hfree, Or.inl hlock⟩
  | lockAcquire l =>
      rcases bind_eq_ok.1 hr with ⟨⟨k₁, got⟩, -, hr⟩
      -- the frames pushed are those of a lock, not of a condition
      cases got <;> cases hr <;> simp [Kernel.andThen, Frame.isCond, Frame.condLock]
  | acquireEntry l =>
      simp only [runFrame, assert_bind_eq_ok] at hr
      cases hr.2.2
      simp [Kernel.andThen, Frame.isCond, Frame.condLock]
  | tryEntry l | releaseEntry l =>
      simp only [runFrame, assert_bind_eq_ok] at hr
      cases hr.2
      simp [Kernel.andThen, Frame.isCond, Frame.condLock]
  | tryDown l =>
      cases hr
      simp only [Kernel.andThen]
      split <;> simp [Frame.isCond, Frame.condLock]
  | stmt st =>
      rcases bind_eq_ok.1 hr with ⟨⟨k₁, next⟩, -, hr⟩
      cases hr
      simp [Frame.isCond, Frame.condLock]
  | condBroadcast c l =>
      simp only [runFrame] at hr
      split at hr
      · cases hr
        simp [Kernel.done]
      · rcases bind_eq_ok.1 hr with ⟨k₁, -, hr⟩
        cases hr
        -- the next round: `cond_broadcast` calls `cond_signal` while somebody waits
        simp [Kernel.andThen, Frame.isCond]
  | threadCreate t p | threadStart t =>
      rcases bind_eq_ok.1 hr with ⟨k₁, -, hr⟩
      cases hr
      cases cfg.grain <;> simp [Kernel.andThen, acquireFrame, Frame.isCond, Frame.condLock]
  | takeTid t p =>
      cases hr
      cases cfg.grain <;> simp [Kernel.andThen, releaseFrame, Frame.isCond, Frame.condLock]
  | condEnqueue c l | condReturn c l => cases hf
  | semaTryDown s | blockReturn | sleepReturn | timerSleep n | setIdle =>
      cases hr
      simp [Kernel.done, Kernel.andThen, Frame.isCond, Frame.condLock]
  | _ =>
      rcases bind_eq_ok.1 hr with ⟨_, -, hr⟩
      cases hr
      simp [Kernel.done, Kernel.andThen, Frame.isCond, Frame.condLock]

/-- `lock_release` goes on with frames of its own. -/
theorem runFrame_release (hf : f.isRelease = true) (hr : runFrame cfg k f = .ok o) :
    ∀ g ∈ o.push, g.isRelease = true := by
  cases f with
  | lockRelease l | semaUp s =>
      rcases bind_eq_ok.1 hr with ⟨k₁, -, hr⟩
      cases hr
      simp [Kernel.done]
  | releaseEntry l =>
      simp only [runFrame, assert_bind_eq_ok] at hr
      cases hr.2
      simp [Frame.isRelease]
  | stmt st =>
      rcases bind_eq_ok.1 hr with ⟨⟨k₁, next⟩, -, hr⟩
      cases hr
      simp [Frame.isRelease]
  | _ => cases hf

end RunFrame

/-! ## Events -/

/-- What executing the frame will be to the monitor. -/
def Frame.condEvent (cfg : Config) (k : Kernel) : Frame → Option (MonitorEvent ThreadPtr CondPtr)
  | .condEnqueue c _ => some (.enqueue k.running c)
  | .condSignal c _ | .condBroadcast c _ =>
      match sort (cfg.order k) (k.condWaiters c) with
      | [] => none
      | w :: _ => some (.wake w c)
  | .down (.waiter t) _ | .downLoop (.waiter t) _ =>
      if k.value (.waiter t) = 0 then none else some (.goOn t)
  | .condReturn c _ => some (.leave k.running c)
  | _ => none

def System.condEvent (cfg : Config) (σ : System) : Act → Option (MonitorEvent ThreadPtr CondPtr)
  | .exec =>
      match σ.code σ.kernel.running with
      | [] => none
      | f :: _ => f.condEvent cfg σ.kernel
  | _ => none

/-- The events of a run. -/
def condEvents (cfg : Config) (tr : List (System × Act)) : List (MonitorEvent ThreadPtr CondPtr) :=
  tr.filterMap fun e => e.1.condEvent cfg e.2

/-- The phases after a step that is an event or none. -/
def afterEvent (p : ThreadPtr → Phase CondPtr) :
    Option (MonitorEvent ThreadPtr CondPtr) → Option (ThreadPtr → Phase CondPtr)
  | none => some p
  | some e => e.apply p

/-! ## What holds of the kernel and of a thread's code -/

/-- The waiters of the conditions are the threads in phase `waiting`, and the semaphore of a
thread is up, with nobody waiting, in phase `released`. -/
structure Waits (k : Kernel) (p : ThreadPtr → Phase CondPtr) : Prop where
  queued : ∀ c t, t ∈ k.condWaiters c ↔ p t = .waiting c
  nodup : ∀ c, (k.condWaiters c).Nodup
  value : ∀ t, k.value (.waiter t) = if (p t).isReleased = true then 1 else 0
  awake : ∀ t, (p t).isReleased = true → k.waiters (.waiter t) = []

section InWait

variable (lockOf : CondPtr → Nat) (g : Grain)

/-- The end of `cond_wait`, behind its `sema_down`. -/
def waitTail (c : CondPtr) : List Frame :=
  [acquireFrame g (.lock (lockOf c)), .condReturn c (.lock (lockOf c))]

/-- The code of the thread `t` in a phase of `cond_wait`. -/
inductive InWait (t : ThreadPtr) : Phase CondPtr → List Frame → Prop
  | outside {fs : List Frame} : (∀ f ∈ fs, f.isCond = false) → InWait t .outside fs
  | called (c : CondPtr) : InWait t .outside ((Op.condWait c (lockOf c)).frames g t)
  /-- on the way to its `sema_down` -/
  | entering {p : Phase CondPtr} {c : CondPtr} {pre : List Frame} :
      p = .waiting c ∨ p = .released c → (∀ f ∈ pre, f.isRelease = true) →
        InWait t p (pre ++ .down (.waiter t) .ret :: waitTail lockOf g c)
  /-- inside its `sema_down` -/
  | asleep {p : Phase CondPtr} {c : CondPtr} : p = .waiting c ∨ p = .released c →
      InWait t p (.downLoop (.waiter t) .ret :: waitTail lockOf g c)
  | leaving {c : CondPtr} {pre : List Frame} : (∀ f ∈ pre, f.isCond = false) →
      InWait t (.returning c) (pre ++ [.condReturn c (.lock (lockOf c))])

end InWait

section Head

variable {lockOf : CondPtr → Nat} {g : Grain} {t : ThreadPtr} {p : Phase CondPtr} {f : Frame}
  {rest : List Frame}

/-- The first frame and the phase. -/
inductive WaitHead (lockOf : CondPtr → Nat) (g : Grain) (t : ThreadPtr) (p : Phase CondPtr)
    (f : Frame) (rest : List Frame) : Prop
  /-- a frame of another operation, of `lock_release` or of `lock_acquire` -/
  | other : f.isCond = false →
      (∀ push : List Frame, (∀ g ∈ push, g.isCond = false) →
        (f.isRelease = true → ∀ g ∈ push, g.isRelease = true) →
          InWait lockOf g t p (push ++ rest)) → WaitHead lockOf g t p f rest
  | enqueue (c : CondPtr) : p = .outside → f = .condEnqueue c (.lock (lockOf c)) →
      rest = releaseFrame g (.lock (lockOf c)) :: .down (.waiter t) .ret :: waitTail lockOf g c →
        WaitHead lockOf g t p f rest
  | down (c : CondPtr) : p = .waiting c ∨ p = .released c →
      f = .down (.waiter t) .ret ∨ f = .downLoop (.waiter t) .ret → rest = waitTail lockOf g c →
        WaitHead lockOf g t p f rest
  | leave (c : CondPtr) : p = .returning c → f = .condReturn c (.lock (lockOf c)) → rest = [] →
      WaitHead lockOf g t p f rest

theorem InWait.head (h : InWait lockOf g t p (f :: rest)) : WaitHead lockOf g t p f rest := by
  generalize hfs : f :: rest = fs at h
  cases h with
  | outside hf =>
      subst hfs
      refine .other (hf f List.mem_cons_self) fun push hpush _ => .outside fun x hx => ?_
      rcases List.mem_append.1 hx with hx | hx
      · exact hpush x hx
      · exact hf x (List.mem_cons_of_mem _ hx)
  | called c =>
      obtain ⟨rfl, rfl⟩ := List.cons.inj hfs
      exact .enqueue c rfl rfl rfl
  | @entering _ c pre hp hpre =>
      cases pre with
      | nil =>
          obtain ⟨rfl, rfl⟩ := List.cons.inj hfs
          -- `lock_release` is through
          exact .down c hp (Or.inl rfl) rfl
      | cons x pre =>
          rw [List.cons_append] at hfs
          obtain ⟨rfl, rfl⟩ := List.cons.inj hfs
          have hf := hpre f List.mem_cons_self
          -- in `lock_release`, and what it goes on with is `lock_release` still
          refine .other (isCond_of_isRelease hf) fun push _ hpush => ?_
          rw [← List.append_assoc]
          refine .entering hp fun y hy => ?_
          rcases List.mem_append.1 hy with hy | hy
          · exact hpush hf y hy
          · exact hpre y (List.mem_cons_of_mem _ hy)
  | @asleep _ c hp =>
      obtain ⟨rfl, rfl⟩ := List.cons.inj hfs
      exact .down c hp (Or.inr rfl) rfl
  | @leaving c pre hpre =>
      cases pre with
      | nil =>
          obtain ⟨rfl, rfl⟩ := List.cons.inj hfs
          exact .leave c rfl rfl rfl
      | cons x pre =>
          rw [List.cons_append] at hfs
          obtain ⟨rfl, rfl⟩ := List.cons.inj hfs
          -- in the `lock_acquire` that takes the lock back
          refine .other (hpre f List.mem_cons_self) fun push hpush _ => ?_
          rw [← List.append_assoc]
          refine .leaving fun y hy => ?_
          rcases List.mem_append.1 hy with hy | hy
          · exact hpush y hy
          · exact hpre y (List.mem_cons_of_mem _ hy)

/-- A thread in its own code is in no call. -/
theorem InWait.of_nil (h : InWait lockOf g t p []) : p = .outside := by
  generalize hfs : ([] : List Frame) = fs at h
  cases h with
  | outside _ | called c => rfl
  | entering _ _ | leaving _ => simp at hfs
  | asleep _ => cases hfs

/-- A waiting or released thread is in `lock_release` or in its `sema_down`. -/
theorem InWait.head_of_wait {c : CondPtr} {fs : List Frame} (h : InWait lockOf g t p fs)
    (hp : p = .waiting c ∨ p = .released c) :
    ∃ f, fs.head? = some f ∧
      (f.isRelease = true ∨ f = .down (.waiter t) .ret ∨ f = .downLoop (.waiter t) .ret) := by
  cases h with
  | outside _ | called _ | leaving _ => rcases hp with hp | hp <;> cases hp
  | @entering _ _ pre _ hpre =>
      cases pre with
      | nil => exact ⟨_, rfl, Or.inr (Or.inl rfl)⟩
      | cons f pre => exact ⟨f, rfl, Or.inl (hpre f List.mem_cons_self)⟩
  | asleep _ => exact ⟨_, rfl, Or.inr (Or.inr rfl)⟩

/-- A signal releases a waiter wherever it is on its way to sleep. -/
theorem InWait.release {c : CondPtr} {fs : List Frame} (h : InWait lockOf g t (.waiting c) fs) :
    InWait lockOf g t (.released c) fs := by
  generalize hp : Phase.waiting c = p at h
  cases h with
  | outside _ | called _ | leaving _ => cases hp
  | entering hw hpre =>
      rcases hw with rfl | rfl
      · cases hp
        exact .entering (Or.inr rfl) hpre
      · cases hp
  | asleep hw =>
      rcases hw with rfl | rfl
      · cases hp
        exact .asleep (Or.inr rfl)
      · cases hp

end Head

/-! ## What a frame does -/

section Exec

variable {cfg : Config} {k k' : Kernel} {f : Frame} {o : Outcome} {p : ThreadPtr → Phase CondPtr}

/-- A frame outside `cond_wait` either signals a condition that has waiters, or has nothing to do
with the waiters' semaphores. -/
theorem condEvent_cases (hf : f.isCond = false) :
    (∃ c l w rest, (f = .condSignal c l ∨ f = .condBroadcast c l) ∧
        sort (cfg.order k) (k.condWaiters c) = w :: rest ∧
          f.condEvent cfg k = some (.wake w c)) ∨
      (f.condEvent cfg k = none ∧ (∀ t, f.semaOp cfg k ≠ .fresh t) ∧
        ∀ t, f.semaOp cfg k ≠ .queued (.waiter t) ∧ f.semaOp cfg k ≠ .took (.waiter t) ∧
          f.semaOp cfg k ≠ .upped (.waiter t)) := by
  cases f with
  | condSignal c l =>
      cases hs : sort (cfg.order k) (k.condWaiters c) with
      | nil => exact Or.inr (by simp [Frame.condEvent, Frame.semaOp, SemaOp.signal, hs])
      | cons w rest => exact Or.inl ⟨c, l, w, rest, Or.inl rfl, hs, by simp [Frame.condEvent, hs]⟩
  | condBroadcast c l =>
      cases hs : sort (cfg.order k) (k.condWaiters c) with
      | nil => exact Or.inr (by simp [Frame.condEvent, Frame.semaOp, SemaOp.signal, hs])
      | cons w rest => exact Or.inl ⟨c, l, w, rest, Or.inr rfl, hs, by simp [Frame.condEvent, hs]⟩
  | condEnqueue c l | condReturn c l => cases hf
  | down s after | downLoop s after =>
      have hs : ∀ t, s ≠ .waiter t := by
        rintro t rfl
        cases hf
      refine Or.inr ⟨?_, ?_⟩
      · cases s <;> first | rfl | cases hf
      · rcases SemaOp.down_cases k s with h | h <;> simp [Frame.semaOp, h, hs]
  | semaTryDown s =>
      have hs : ∀ t, s ≠ .waiter t := by
        rintro t rfl
        cases hf
      refine Or.inr ⟨rfl, ?_⟩
      rcases SemaOp.tryDown_cases k s with h | h <;> simp [Frame.semaOp, h, hs]
  | semaUp s =>
      have hs : ∀ t, s ≠ .waiter t := by
        rintro t rfl
        cases hf
      exact Or.inr ⟨rfl, by simp [Frame.semaOp, hs]⟩
  | lockAcquire l =>
      refine Or.inr ⟨rfl, ?_⟩
      rcases SemaOp.down_cases k (.ofLock l) with h | h <;> simp [Frame.semaOp, h]
  | lockTryAcquire l | tryDown l =>
      refine Or.inr ⟨rfl, ?_⟩
      rcases SemaOp.tryDown_cases k (.ofLock l) with h | h <;> simp [Frame.semaOp, h]
  | _ => exact Or.inr ⟨rfl, by simp [Frame.semaOp]⟩

/-- Only three frames write a condition's waiters. -/
theorem runFrame_condWaiters (hr : runFrame cfg k f = .ok o) (hf : f.isCond = false)
    (hev : f.condEvent cfg k = none) : o.kernel.condWaiters = k.condWaiters := by
  cases f with
  | condSignal c l =>
      have hs : sort (cfg.order k) (k.condWaiters c) = [] := by
        cases hs : sort (cfg.order k) (k.condWaiters c) with
        | nil => rfl
        | cons w rest => simp [Frame.condEvent, hs] at hev
      obtain ⟨k₁, hd, hr⟩ := bind_eq_ok.1 hr
      cases hr
      rcases condSignal_eq_ok.1 hd with ⟨-, -, ⟨-, rfl⟩ | ⟨w, rest, hs', -⟩⟩
      · rfl
      · rw [hs] at hs'
        cases hs'
  | condBroadcast c l =>
      have h0 : k.condWaiters c = [] := by
        cases hs : sort (cfg.order k) (k.condWaiters c) with
        | nil => exact sort_eq_nil.1 hs
        | cons w rest => simp [Frame.condEvent, hs] at hev
      simp only [runFrame, h0, if_true] at hr
      cases hr
      rfl
  | condEnqueue c l => cases hf
  | down s after | downLoop s after =>
      exact (runFrame_unwritten hr).condWaiters (by cases after <;> simp [Frame.writes,
        AfterDown.writes])
  | _ => exact (runFrame_unwritten hr).condWaiters (by simp [Frame.writes])

/-- A signal of a condition with waiters. -/
theorem runFrame_signal {c : CondPtr} {l : LockPtr} {w : ThreadPtr} {rest : List ThreadPtr}
    (hf : f = .condSignal c l ∨ f = .condBroadcast c l) (hr : runFrame cfg k f = .ok o)
    (hs : sort (cfg.order k) (k.condWaiters c) = w :: rest) :
    k.holder l = some k.running ∧
      semaUp { k with condWaiters := update k.condWaiters c rest } (.waiter w) = .ok o.kernel := by
  have hne : k.condWaiters c ≠ [] := fun h0 => by simp [h0] at hs
  have hsignal : condSignal cfg.order k c l = .ok o.kernel := by
    rcases hf with rfl | rfl
    · obtain ⟨k₁, hd, hr⟩ := bind_eq_ok.1 hr
      cases hr
      exact hd
    · simp only [runFrame, if_neg hne] at hr
      obtain ⟨k₁, hd, hr⟩ := bind_eq_ok.1 hr
      cases hr
      exact hd
  rcases condSignal_eq_ok.1 hsignal with ⟨-, hl, ⟨h0, -⟩ | ⟨w', rest', hs', hu⟩⟩
  · exact absurd h0 hne
  · rw [hs] at hs'
    cases hs'
    exact ⟨hl, hu⟩

/-- Nothing that concerns the conditions differs. -/
theorem Waits.congr (h : Waits k p) (hc : k'.condWaiters = k.condWaiters)
    (hv : ∀ t, k'.value (.waiter t) = k.value (.waiter t))
    (hw : ∀ t, (p t).isReleased = true → k'.waiters (.waiter t) = k.waiters (.waiter t)) :
    Waits k' p where
  queued := by
    rw [hc]
    exact h.queued
  nodup := by
    rw [hc]
    exact h.nodup
  value := fun t => (hv t).trans (h.value t)
  awake := fun t ht => (hw t ht).trans (h.awake t ht)

/-- One thread comes to another phase, and the others stay where they are. -/
theorem Waits.rephase {t : ThreadPtr} {x : Phase CondPtr} (h : Waits k p)
    (hqueue : ∀ c, (t ∈ k'.condWaiters c ↔ x = .waiting c) ∧
      ∀ u, u ≠ t → (u ∈ k'.condWaiters c ↔ u ∈ k.condWaiters c))
    (hnodup : ∀ c, (k'.condWaiters c).Nodup)
    (hvalue : k'.value (.waiter t) = if x.isReleased then 1 else 0)
    (hvalues : ∀ u, u ≠ t → k'.value (.waiter u) = k.value (.waiter u))
    (hawake : x.isReleased = true → k'.waiters (.waiter t) = [])
    (hwaiters : ∀ u, u ≠ t → k'.waiters (.waiter u) = k.waiters (.waiter u)) :
    Waits k' (update p t x) where
  queued := by
    intro c u
    by_cases hu : u = t
    · subst hu
      rw [update_self]
      exact (hqueue c).1
    · rw [update_of_ne hu]
      exact ((hqueue c).2 u hu).trans (h.queued c u)
  nodup := hnodup
  value := by
    intro u
    by_cases hu : u = t
    · subst hu
      rw [update_self]
      exact hvalue
    · rw [update_of_ne hu]
      exact (hvalues u hu).trans (h.value u)
  awake := by
    intro u hrel
    by_cases hu : u = t
    · subst hu
      rw [update_self] at hrel
      exact hawake hrel
    · rw [update_of_ne hu] at hrel
      exact (hwaiters u hu).trans (h.awake u hrel)

theorem Waits.enqueue {order : Kernel → ThreadPtr → ThreadPtr → Bool} {c : CondPtr}
    (h : Waits k p) (hp : p k.running = .outside) :
    Waits (k.enqueued order c) (update p k.running (.waiting c)) := by
  -- a thread outside `cond_wait` waits on no condition, so it is queued once only
  have hout : ∀ c', k.running ∉ k.condWaiters c' := fun c' hm => by
    rw [h.queued, hp] at hm
    cases hm
  refine h.rephase ?_ ?_ ?_ ?_ nofun ?_
  · intro c'
    by_cases hc : c' = c
    · subst hc
      exact ⟨by simp [Kernel.enqueued], fun u hu => by simp [Kernel.enqueued, hu]⟩
    · exact ⟨by simp [Kernel.enqueued, semaInit, hc, hout, Ne.symm hc],
        fun u _ => by simp [Kernel.enqueued, semaInit, hc]⟩
  · intro c'
    by_cases hc : c' = c
    · subst hc
      simpa [Kernel.enqueued] using insertOrdered_nodup.2 ⟨hout c', h.nodup c'⟩
    · simpa [Kernel.enqueued, semaInit, hc] using h.nodup c'
  · simp [Kernel.enqueued, semaInit, Phase.isReleased]
  · exact fun u hu => by simp [Kernel.enqueued, semaInit, hu]
  · exact fun u hu => by simp [Kernel.enqueued, semaInit, hu]

/-- The waiter that a signal takes out gets its semaphore. -/
theorem Waits.wake {c : CondPtr} {w : ThreadPtr} {rest : List ThreadPtr} (h : Waits k p)
    (hown : ∀ t, ∀ u ∈ k.waiters (.waiter t), u = t) (hnd : (k.waiters (.waiter w)).Nodup)
    (hs : sort (cfg.order k) (k.condWaiters c) = w :: rest)
    (hu : semaUp { k with condWaiters := update k.condWaiters c rest } (.waiter w) = .ok k') :
    p w = .waiting c ∧ Waits k' (update p w (.released c)) := by
  have hpw : p w = .waiting c := (h.queued c w).1 (mem_of_sort_eq_cons hs)
  have hcond : k'.condWaiters = update k.condWaiters c rest := by
    rcases semaUp_footprint hu with ⟨_, _, _, _, _, _, rfl⟩
    rfl
  obtain ⟨hv, ws, hwoken, hws⟩ := semaUp_does hu
  have hrest := mem_tail_iff_of_sort_eq_cons (h.nodup c) hs
  -- nobody has signalled the waiter before, so its semaphore is still down
  have h0 : k.value (.waiter w) = 0 := by
    rw [h.value, hpw]
    rfl
  refine ⟨hpw, h.rephase ?_ ?_ ?_ ?_ ?_ ?_⟩
  · intro c'
    rw [hcond]
    by_cases hc : c' = c
    · subst hc
      rw [update_self]
      exact ⟨by simp [hrest], fun u hu => by simp [hrest, hu]⟩
    · rw [update_of_ne hc]
      refine ⟨?_, fun u _ => Iff.rfl⟩
      rw [h.queued, hpw]
      simp [Ne.symm hc]
  · intro c'
    rw [hcond]
    by_cases hc : c' = c
    · subst hc
      simpa using nodup_tail_of_sort_eq_cons (h.nodup c') hs
    · simpa [hc] using h.nodup c'
  · rw [hv]
    simp [Kernel.raised, h0, Phase.isReleased, unsignedSize]
  · intro u hu
    rw [hv]
    simp [Kernel.raised, hu]
  · intro _
    rw [hws, update_self]
    rcases hwoken with ⟨-, rfl⟩ | ⟨u, hperm⟩
    · rfl
    · -- the waiter itself was the only one
      obtain ⟨hnot, -⟩ := List.nodup_cons.1 (hperm.nodup_iff.1 hnd)
      have hself : u = w := hown w u (hperm.symm.subset List.mem_cons_self)
      refine List.eq_nil_iff_forall_not_mem.2 fun x hx => hnot ?_
      have hx' : x = w := hown w x (hperm.symm.subset (List.mem_cons_of_mem _ hx))
      rwa [hself, ← hx']
  · intro u hu
    -- the other waiters' semaphores are other semaphores
    rw [hws, update_of_ne (by simpa using hu)]

/-- The phases behind the step of the running thread: its own code fits its new phase, and the
others are where they were, but for one that has been released. -/
structure Moved (lockOf : CondPtr → Nat) (g : Grain) (t : ThreadPtr) (k' : Kernel)
    (fs : List Frame) (p p' : ThreadPtr → Phase CondPtr) : Prop where
  waits : Waits k' p'
  own : InWait lockOf g t (p' t) fs
  others : ∀ u, u ≠ t → p' u = p u ∨ ∃ c, p u = .waiting c ∧ p' u = .released c

variable {lockOf : CondPtr → Nat} {rest : List Frame}

/-- A turn of `sema_down` on the thread's own semaphore. -/
theorem semaDownTurn_waiter {t : ThreadPtr} {got : Bool}
    (hd : semaDownTurn k (.waiter t) = .ok (k', got)) :
    (k.value (.waiter t) = 0 ∧ got = false ∧ k'.condWaiters = k.condWaiters ∧
        k'.value = k.value ∧ ∀ u, u ≠ t → k'.waiters (.waiter u) = k.waiters (.waiter u)) ∨
      (k.value (.waiter t) ≠ 0 ∧ got = true ∧ k'.condWaiters = k.condWaiters ∧
        k'.value = (k.lowered (.waiter t)).value ∧ k'.waiters = k.waiters) := by
  rcases semaDownTurn_eq_ok.1 hd with ⟨h0, hg, hb⟩ | ⟨h0, hg, rfl⟩
  · rcases threadBlock_footprint hb with ⟨_, _, _, _, rfl⟩
    refine Or.inl ⟨h0, hg, rfl, rfl, fun u hu => ?_⟩
    simp [Kernel.queued, hu]
  · exact Or.inr ⟨h0, hg, rfl, rfl, rfl⟩

theorem Waits.turn {got : Bool} {c : CondPtr} (h : Waits k p)
    (hp : p k.running = .waiting c ∨ p k.running = .released c)
    (hd : semaDownTurn k (.waiter k.running) = .ok (k', got)) :
    ∃ p', afterEvent p (if k.value (.waiter k.running) = 0 then none else some (.goOn k.running)) =
        some p' ∧
      Moved lockOf cfg.grain k.running k'
        ((downOutcome (.waiter k.running) .ret k' got).push ++ waitTail lockOf cfg.grain c) p p' := by
  rcases semaDownTurn_waiter hd with ⟨h0, rfl, hcond, hv, hw⟩ | ⟨h0, rfl, hcond, hv, hw⟩
  · -- not signalled yet: the thread goes to sleep in the phase it is in
    refine ⟨p, by rw [if_pos h0]; rfl, ?_, ?_, fun u _ => Or.inl rfl⟩
    · refine h.congr hcond (fun t => by rw [hv]) fun t ht => ?_
      by_cases htr : t = k.running
      · -- its semaphore is down
        rw [h.value, ← htr, if_pos ht] at h0
        cases h0
      · exact hw t htr
    · exact .asleep hp
  · -- the semaphore is up only for a thread that has been released
    have hrel : p k.running = .released c := by
      rcases hp with hp | hp
      · rw [h.value, hp] at h0
        exact absurd rfl h0
      · exact hp
    have h1 : k.value (.waiter k.running) = 1 := by
      rw [h.value, hrel]
      rfl
    refine ⟨update p k.running (.returning c), ?_, h.rephase ?_ ?_ ?_ ?_ nofun ?_, ?_,
      fun u hu => ?_⟩
    · rw [if_neg h0]
      simp only [afterEvent, MonitorEvent.apply, hrel]
    · intro c'
      rw [hcond]
      refine ⟨?_, fun u _ => Iff.rfl⟩
      rw [h.queued, hrel]
      simp
    · rw [hcond]
      exact h.nodup
    · rw [hv]
      simp [Kernel.lowered, h1, unsignedSize, Phase.isReleased]
    · intro u hu
      rw [hv]
      simp [Kernel.lowered, hu]
    · intro u _
      rw [hw]
    · rw [update_self]
      refine @InWait.leaving lockOf cfg.grain k.running c [acquireFrame cfg.grain _] ?_
      cases cfg.grain <;> simp [acquireFrame, Frame.isCond]
    · exact Or.inl (update_of_ne hu _ _)

/-- Every frame is a possible event of the monitor, or none. -/
theorem Waits.exec (h : Waits k p) (hown : ∀ t, ∀ u ∈ k.waiters (.waiter t), u = t)
    (hnd : ∀ s, (k.waiters s).Nodup)
    (hin : InWait lockOf cfg.grain k.running (p k.running) (f :: rest))
    (hr : runFrame cfg k f = .ok o) :
    ∃ p', afterEvent p (f.condEvent cfg k) = some p' ∧
      Moved lockOf cfg.grain k.running o.kernel (o.push ++ rest) p p' := by
  cases hin.head with
  | other hf hback =>
      have hfree := hback o.push (fun x hx => (runFrame_free hf hr x hx).1)
        fun hrel => runFrame_release hrel hr
      rcases @condEvent_cases cfg k f hf with
        ⟨c, l, w, ws, hsig, hs, hev⟩ | ⟨hev, hfresh, hsem⟩
      · -- a signal
        obtain ⟨-, hu⟩ := runFrame_signal hsig hr hs
        obtain ⟨hpw, hwaits⟩ := h.wake hown (hnd _) hs hu
        refine ⟨update p w (.released c), ?_, hwaits, ?_, fun u hu => ?_⟩
        · rw [hev]
          simp [afterEvent, MonitorEvent.apply, hpw]
        · by_cases hw : k.running = w
          · rw [← hw] at hpw ⊢
            rw [update_self]
            rw [hpw] at hfree
            exact hfree.release
          · rwa [update_of_ne hw]
        · by_cases hw : u = w
          · subst hw
            exact Or.inr ⟨c, hpw, update_self _ _ _⟩
          · exact Or.inl (update_of_ne hw _ _)
      · -- no event, and no waiter's semaphore is touched
        refine ⟨p, by rw [hev]; rfl, ?_, hfree, fun u _ => Or.inl rfl⟩
        have hsame : ∀ t, o.kernel.value (.waiter t) = k.value (.waiter t) ∧
            o.kernel.waiters (.waiter t) = k.waiters (.waiter t) := by
          intro t
          obtain ⟨hq, ht, hu⟩ := hsem t
          rcases (runFrame_semaOp hr).elsewhere hq ht hu with ⟨-, hv, hw⟩ | ⟨u, he, -⟩
          · exact ⟨hv, hw⟩
          · exact absurd he (hfresh u)
        exact h.congr (runFrame_condWaiters hr hf hev) (fun t => (hsame t).1)
          fun t _ => (hsame t).2
  | enqueue c hp hf hrest =>
      subst hf hrest
      obtain ⟨k₁, hd, hr⟩ := bind_eq_ok.1 hr
      cases hr
      -- `cond_wait` goes on with `lock_release`
      obtain ⟨-, -, rfl⟩ := condEnqueue_eq_ok.1 hd
      refine ⟨update p k.running (.waiting c), ?_, h.enqueue hp, ?_, fun u hu => ?_⟩
      · simp [Frame.condEvent, afterEvent, MonitorEvent.apply, hp]
      · rw [update_self]
        refine @InWait.entering lockOf cfg.grain k.running _ c [releaseFrame cfg.grain _]
          (Or.inl rfl) ?_
        cases cfg.grain <;> simp [releaseFrame, Frame.isRelease]
      · exact Or.inl (update_of_ne hu _ _)
  | down c hp hf hrest =>
      subst hrest
      rcases hf with rfl | rfl
      · obtain ⟨⟨k₁, got⟩, hd, hr⟩ := bind_eq_ok.1 hr
        cases hr
        have hker : (downOutcome (.waiter k.running) .ret k₁ got).kernel = k₁ := by
          cases got <;> rfl
        obtain ⟨p', hp', hm⟩ := @Waits.turn cfg k k₁ p lockOf got c h hp (semaDown_eq_ok.1 hd).2
        exact ⟨p', hp', by rw [hker]; exact hm⟩
      · obtain ⟨⟨k₁, got⟩, hd, hr⟩ := bind_eq_ok.1 hr
        cases hr
        have hker : (downOutcome (.waiter k.running) .ret k₁ got).kernel = k₁ := by
          cases got <;> rfl
        obtain ⟨p', hp', hm⟩ := @Waits.turn cfg k k₁ p lockOf got c h hp hd
        exact ⟨p', hp', by rw [hker]; exact hm⟩
  | leave c hp hf hrest =>
      subst hf hrest
      cases hr
      refine ⟨update p k.running .outside, ?_, ?_, ?_, fun u hu => ?_⟩
      · simp [Frame.condEvent, afterEvent, MonitorEvent.apply, hp]
      · refine h.rephase (fun c' => ⟨?_, fun u _ => Iff.rfl⟩) h.nodup ?_ (fun _ _ => rfl)
          (fun hx => Bool.noConfusion hx) fun _ _ => rfl
        · simpa [Kernel.done] using (h.queued c' k.running).not.2 (by simp [hp])
        · simpa [hp, Phase.isReleased, Kernel.done] using h.value k.running
      · rw [update_self]
        exact .outside (by simp [Kernel.done])
      · exact Or.inl (update_of_ne hu _ _)

end Exec

/-! ## Every step is a possible event -/

/-- The condition that a call names, with the lock it gives. -/
def Op.condLock : Op → Option (CondPtr × Nat)
  | .condWait c n | .condSignal c n | .condBroadcast c n => some (c, n)
  | _ => none

def Act.condLock : Act → Option (CondPtr × Nat)
  | .call o => o.condLock
  | _ => none

/-- `cond_wait`, `cond_signal` and `cond_broadcast` are called with the condition's lock, which the
caller holds. -/
def CondOk (lockOf : CondPtr → Nat) (σ : System) (a : Act) : Prop :=
  ∀ x ∈ a.condLock, x.2 = lockOf x.1 ∧ .lock x.2 ∈ σ.held σ.kernel.running

/-- The runs in which conditions are used with their locks. -/
def CondUse (lockOf : CondPtr → Nat) (σ : System) (a : Act) : Prop :=
  UnblockOk σ a ∧ ReleaseOk σ a ∧ CondOk lockOf σ a

instance instDecidableCondOk (lockOf : CondPtr → Nat) (σ : System) (a : Act) :
    Decidable (CondOk lockOf σ a) :=
  inferInstanceAs (Decidable (∀ x ∈ a.condLock, _))

instance instDecidableCondUse (lockOf : CondPtr → Nat) (σ : System) (a : Act) :
    Decidable (CondUse lockOf σ a) :=
  inferInstanceAs (Decidable (_ ∧ _ ∧ _))

/-- What holds of the conditions between two steps. -/
structure CondInv (lockOf : CondPtr → Nat) (cfg : Config) (σ : System)
    (p : ThreadPtr → Phase CondPtr) : Prop where
  own : Ownership σ
  waits : Waits σ.kernel p
  code : ∀ t, InWait lockOf cfg.grain t (p t) (σ.code t)
  /-- whoever is about to signal does nothing else and holds the lock -/
  locked : ∀ t, ∀ f ∈ σ.code t, ∀ x ∈ f.condLock,
    σ.code t = [f] ∧ x.2 = .lock (lockOf x.1) ∧ x.2 ∈ σ.held t

section Steps

variable {lockOf : CondPtr → Nat} {cfg : Config} {σ σ' : System} {p : ThreadPtr → Phase CondPtr}
  {a : Act}

theorem Settled.waiter_self (h : Settled σ) {t u : ThreadPtr}
    (hu : u ∈ σ.kernel.waiters (.waiter t)) : u = t := by
  obtain ⟨-, a, ha⟩ := h.live.wait hu
  exact (h.shape.owned u _ (List.mem_of_head? ha)).symm

/-- Only a broadcast goes on with a signal. -/
theorem runFrame_condLock {k : Kernel} {f g : Frame} {o : Outcome} {t : ThreadPtr} {p : Phase CondPtr}
    {rest : List Frame} (hin : InWait lockOf cfg.grain t p (f :: rest))
    (hr : runFrame cfg k f = .ok o) (hg : g ∈ o.push) {x : CondPtr × LockPtr} (hx : x ∈ g.condLock) :
    o.push = [f] ∧ o.change = .same := by
  cases hin.head with
  | other hf _ =>
      rcases (runFrame_free hf hr g hg).2 with hn | hsame
      · rw [hn] at hx
        cases hx
      · exact hsame
  | enqueue c _ hf _ =>
      subst hf
      obtain ⟨k₁, -, hr⟩ := bind_eq_ok.1 hr
      cases hr
      cases hg
  | down c _ hf _ =>
      have hpush : ∀ got k₁, g ∈ (downOutcome (.waiter t) .ret k₁ got).push → g.condLock = none := by
        intro got k₁ hm
        cases got with
        | true => cases hm
        | false =>
            rw [List.mem_singleton.1 hm]
            rfl
      rcases hf with rfl | rfl
      · obtain ⟨⟨k₁, got⟩, -, hr⟩ := bind_eq_ok.1 hr
        cases hr
        rw [hpush got k₁ hg] at hx
        cases hx
      · obtain ⟨⟨k₁, got⟩, -, hr⟩ := bind_eq_ok.1 hr
        cases hr
        rw [hpush got k₁ hg] at hx
        cases hx
  | leave c _ hf _ =>
      subst hf
      cases hr
      cases hg

theorem CondInv.exec {f : Frame} {rest : List Frame} {o : Outcome} (h : CondInv lockOf cfg σ p)
    (hc : σ.code σ.kernel.running = f :: rest) (hr : runFrame cfg σ.kernel f = .ok o)
    (hown : Ownership (σ.after f rest o)) :
    ∃ p', afterEvent p (f.condEvent cfg σ.kernel) = some p' ∧
      CondInv lockOf cfg (σ.after f rest o) p' := by
  have hset := h.own.settled
  have hin := h.code σ.kernel.running
  rw [hc] at hin
  obtain ⟨p', hp', hm⟩ := h.waits.exec (fun t u hu => hset.waiter_self hu) hset.live.wait_nodup hin hr
  refine ⟨p', hp', hown, hm.waits, fun u => ?_, fun u g hg x hx => ?_⟩
  · rcases code_after hset.live rest hr u with ⟨rfl, he⟩ | ⟨hu, prog, -, hold, he, hprog⟩ | ⟨hu, he⟩
    · -- the running thread
      rw [show (σ.after f rest o).code σ.kernel.running = o.push ++ rest from he]
      exact hm.own
    · -- a new thread
      have hcode := h.code u
      rw [hold] at hcode
      rw [show (σ.after f rest o).code u = prog from he]
      have hfree : ∀ x ∈ prog, x.isCond = false := by
        rcases hprog with rfl | ⟨rfl, -⟩ <;> simp [Frame.isCond]
      have hout : p u = .outside := hcode.of_nil
      rcases hm.others u hu with he' | ⟨c, hw, -⟩
      · rw [he', hout]
        exact .outside hfree
      · rw [hout] at hw
        cases hw
    · -- any other thread, which a signal may have released
      rw [show (σ.after f rest o).code u = σ.code u from he]
      have hcode := h.code u
      rcases hm.others u hu with he' | ⟨c, hw, hw'⟩
      · rw [he']
        exact hcode
      · rw [hw] at hcode
        rw [hw']
        exact hcode.release
  · rcases code_after hset.live rest hr u with ⟨rfl, he⟩ | ⟨hu, prog, -, -, he, hprog⟩ | ⟨hu, he⟩
    · have hcode : (σ.after f rest o).code σ.kernel.running = o.push ++ rest := he
      rw [hcode] at hg ⊢
      rcases List.mem_append.1 hg with hg | hg
      · -- a broadcast's next round
        obtain ⟨hpush, hchange⟩ := runFrame_condLock hin hr hg hx
        have hgf : g = f := List.mem_singleton.1 (hpush ▸ hg)
        subst hgf
        obtain ⟨hone, hl, hheld⟩ := h.locked _ g (by rw [hc]; exact List.mem_cons_self) x hx
        have hrest : rest = [] := by
          rw [hc] at hone
          exact (List.cons.inj hone).2
        refine ⟨by rw [hpush, hrest]; rfl, hl, ?_⟩
        simp [System.after, hchange, HeldChange.apply, hheld]
      · -- a signal below the first frame would be alone
        obtain ⟨hone, -⟩ := h.locked _ g (by rw [hc]; exact List.mem_cons_of_mem _ hg) x hx
        rw [hc] at hone
        rw [(List.cons.inj hone).2] at hg
        cases hg
    · have hcode : (σ.after f rest o).code u = prog := he
      rw [hcode] at hg
      rcases hprog with rfl | ⟨rfl, -⟩
      · cases hg
      · rw [List.mem_singleton.1 hg] at hx
        cases hx
    · have hcode : (σ.after f rest o).code u = σ.code u := he
      have hheld : (σ.after f rest o).held u = σ.held u := by simp [System.after, hu]
      rw [hcode, hheld]
      exact h.locked u g (hcode ▸ hg) x hx

theorem opFrames_inWait {cur : ThreadPtr} {o : Op}
    (ho : ∀ x ∈ o.condLock, x.2 = lockOf x.1) :
    InWait lockOf cfg.grain cur .outside (o.frames cfg.grain cur) := by
  cases o with
  | condWait c n =>
      have hn : n = lockOf c := ho (c, n) rfl
      rw [hn]
      exact .called c
  | _ =>
      refine .outside ?_
      cases cfg.grain <;> simp [Op.frames, acquireFrame, tryFrame, releaseFrame, Frame.isCond]

theorem opFrames_condLock {g : Grain} {cur : ThreadPtr} {o : Op} {f : Frame}
    (hf : f ∈ o.frames g cur) {x : CondPtr × LockPtr} (hx : x ∈ f.condLock) :
    o.frames g cur = [f] ∧ ∃ n, (x.1, n) ∈ o.condLock ∧ x.2 = .lock n := by
  cases o with
  | condSignal c n | condBroadcast c n =>
      have hf' := List.mem_singleton.1 hf
      subst hf'
      cases hx
      exact ⟨rfl, n, rfl, rfl⟩
  | _ => cases g <;> simp [Op.frames, acquireFrame, tryFrame, releaseFrame] at hf <;>
      rcases hf with rfl | rfl | rfl | rfl | rfl <;> cases hx

theorem CondInv.step (h : CondInv lockOf cfg σ p) (hu : CondUse lockOf σ a)
    (hs : Project2.step cfg a σ = some σ') :
    ∃ p', afterEvent p (σ.condEvent cfg a) = some p' ∧ CondInv lockOf cfg σ' p' := by
  have hown := h.own.step hu.1 hu.2.1 hs
  cases a with
  | call op =>
      obtain ⟨hc, rfl⟩ := step_call_iff.1 hs
      refine ⟨p, rfl, hown, h.waits, fun u => ?_, fun u f hf x hx => ?_⟩
      · by_cases hur : u = σ.kernel.running
        · subst hur
          have hcode := h.code σ.kernel.running
          rw [hc] at hcode
          rw [hcode.of_nil]
          simpa using opFrames_inWait fun x hx => (hu.2.2 x hx).1
        · simpa [hur] using h.code u
      · by_cases hur : u = σ.kernel.running
        · subst hur
          have hf' : f ∈ op.frames cfg.grain σ.kernel.running := by simpa using hf
          -- the caller's obligation gives the lock, held, of the condition
          obtain ⟨hone, n, hn, hl⟩ := opFrames_condLock hf' hx
          obtain ⟨hlock, hheld⟩ := hu.2.2 (x.1, n) hn
          refine ⟨by simpa using hone, ?_, ?_⟩
          · rw [hl]
            exact congrArg _ hlock
          · rw [hl]
            exact hheld
        · have hf' : f ∈ σ.code u := by simpa [hur] using hf
          simpa [hur] using h.locked u f hf' x hx
  | exec =>
      obtain ⟨f, rest, o, hc, hr, rfl⟩ := step_exec_iff.1 hs
      obtain ⟨p', hp', hinv⟩ := h.exec hc hr hown
      exact ⟨p', by simpa only [System.condEvent, hc] using hp', hinv⟩
  | tick =>
      obtain ⟨-, k, ht, rfl⟩ := step_tick_iff.1 hs
      -- the timer interrupt wakes sleepers, which wait on no condition
      refine ⟨p, rfl, hown, ?_, h.code, h.locked⟩
      rcases timerInterrupt_footprint ht with ⟨_, _, _, _, _, _, _, _, rfl⟩
      exact h.waits.congr rfl (fun _ => rfl) fun _ _ => rfl
  | preempt t =>
      obtain ⟨-, rfl⟩ := step_preempt_iff.1 hs
      exact ⟨p, rfl, hown, h.waits.congr rfl (fun _ => rfl) fun _ _ => rfl, h.code, h.locked⟩

theorem boot_condInv (lockOf : CondPtr → Nat) (cfg : Config) (init : Nat → Fin unsignedSize)
    (idle : ThreadPtr) : CondInv lockOf cfg (boot init idle) fun _ => .outside := by
  have hmem : ∀ t, ∀ f ∈ (boot init idle).code t, f = .threadStart idle := by
    intro t f hf
    simp only [boot] at hf
    split at hf
    · exact List.mem_singleton.1 hf
    · cases hf
  refine ⟨boot_ownership init idle, ⟨?_, fun _ => List.nodup_nil, fun _ => rfl,
    fun _ hx => Bool.noConfusion hx⟩, fun t => .outside fun f hf => ?_, fun t f hf x hx => ?_⟩
  · intro c t
    simp [boot, bootKernel]
  · rw [hmem t f hf]
    rfl
  · rw [hmem t f hf] at hx
    cases hx

end Steps

end Project2
end Pintos
