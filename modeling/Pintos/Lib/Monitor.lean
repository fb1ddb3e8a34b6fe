import Pintos.Lib.Execution
import Mathlib.Data.List.Induction
import Mathlib.Logic.Function.Basic

/-!
# Monitor — the life of a call that waits on a condition

What a condition variable promises can be said without its queue.  Each thread `τ` is in one phase
of a call that waits on a condition `κ`: it is queued, then some signal releases it, then it goes
on, and in the end it leaves the call.

* `MonitorEvent.apply`: an event moves one thread to its next phase and is not possible otherwise,
  so that a sequence of events that is possible neither loses nor doubles a wake-up;
* `accounted_of_runAll`: the counts that follow for every thread.
-/

namespace Pintos
namespace Lib

open Function

variable {τ κ : Type*}

/-! ## Phases and events -/

/-- Where a thread stands in its call. -/
inductive Phase (κ : Type*)
  | outside
  | waiting (c : κ)
  | released (c : κ)
  | returning (c : κ)
  deriving DecidableEq

namespace Phase

def isWaiting : Phase κ → Bool
  | waiting _ => true
  | _ => false

def isReleased : Phase κ → Bool
  | released _ => true
  | _ => false

def isReturning : Phase κ → Bool
  | returning _ => true
  | _ => false

end Phase

inductive MonitorEvent (τ κ : Type*)
  /-- `t` joins the waiters of `c` -/
  | enqueue (t : τ) (c : κ)
  /-- a signal of `c` releases `t` -/
  | wake (t : τ) (c : κ)
  /-- the released call of `t` goes on -/
  | goOn (t : τ)
  /-- the call of `t` returns -/
  | leave (t : τ) (c : κ)
  deriving DecidableEq

namespace MonitorEvent

variable [DecidableEq τ] [DecidableEq κ]

/-- The phases after the event, if it is possible. -/
def apply : MonitorEvent τ κ → (τ → Phase κ) → Option (τ → Phase κ)
  | enqueue t c, p => if p t = .outside then some (update p t (.waiting c)) else none
  | wake t c, p => if p t = .waiting c then some (update p t (.released c)) else none
  | goOn t, p =>
      match p t with
      | .released c => some (update p t (.returning c))
      | _ => none
  | leave t c, p => if p t = .returning c then some (update p t .outside) else none

/-- The thread that the event moves. -/
def thread : MonitorEvent τ κ → τ
  | enqueue t _ | wake t _ | goOn t | leave t _ => t

def isEnqueue (t : τ) : MonitorEvent τ κ → Bool
  | enqueue u _ => u = t
  | _ => false

def isWake (t : τ) : MonitorEvent τ κ → Bool
  | wake u _ => u = t
  | _ => false

def isGoOn (t : τ) : MonitorEvent τ κ → Bool
  | goOn u => u = t
  | _ => false

def isLeave (t : τ) : MonitorEvent τ κ → Bool
  | leave u _ => u = t
  | _ => false

end MonitorEvent

/-! ## Counting -/

/-- Every call of `t` that joined was released once or waits, every release let a call go on once or
will, and every call that went on has returned or will. -/
structure Accounted [DecidableEq τ] (es : List (MonitorEvent τ κ)) (t : τ) (p : Phase κ) :
    Prop where
  joined : es.countP (MonitorEvent.isEnqueue t) =
    es.countP (MonitorEvent.isWake t) + if p.isWaiting = true then 1 else 0
  released : es.countP (MonitorEvent.isWake t) =
    es.countP (MonitorEvent.isGoOn t) + if p.isReleased = true then 1 else 0
  gone : es.countP (MonitorEvent.isGoOn t) =
    es.countP (MonitorEvent.isLeave t) + if p.isReturning = true then 1 else 0

variable [DecidableEq τ] [DecidableEq κ] {es : List (MonitorEvent τ κ)} {p p' : τ → Phase κ}
  {e : MonitorEvent τ κ} {t : τ}

/-- An event leaves the other threads where they are. -/
theorem MonitorEvent.apply_other (he : e.apply p = some p') (ht : t ≠ e.thread) : p' t = p t := by
  cases e with
  | enqueue u c | wake u c | leave u c =>
      simp only [apply, Option.ite_none_right_eq_some, Option.some.injEq] at he
      rw [← he.2]
      exact update_of_ne ht _ _
  | goOn u =>
      cases hu : p u with
      | outside | waiting c | returning c => simp [apply, hu] at he
      | released c =>
          simp only [apply, hu, Option.some.injEq] at he
          rw [← he]
          exact update_of_ne ht _ _

omit [DecidableEq κ] in
theorem MonitorEvent.count_other (ht : t ≠ e.thread) :
    e.isEnqueue t = false ∧ e.isWake t = false ∧ e.isGoOn t = false ∧ e.isLeave t = false := by
  cases e <;> simp [isEnqueue, isWake, isGoOn, isLeave] <;> exact ht.symm

theorem Accounted.snoc (h : Accounted es t (p t)) (he : e.apply p = some p') :
    Accounted (es ++ [e]) t (p' t) := by
  obtain ⟨hj, hr, hg⟩ := h
  by_cases ht : t = e.thread
  · -- the event takes `t` from one phase to the next
    subst ht
    cases e with
    | enqueue u c | wake u c | leave u c =>
        simp only [MonitorEvent.apply, Option.ite_none_right_eq_some, Option.some.injEq] at he
        obtain ⟨hu, rfl⟩ := he
        simp only [MonitorEvent.thread, hu] at hj hr hg
        constructor <;> simp_all [MonitorEvent.isEnqueue, MonitorEvent.isWake, MonitorEvent.isGoOn,
          MonitorEvent.isLeave, MonitorEvent.thread, Phase.isWaiting, Phase.isReleased,
          Phase.isReturning]
    | goOn u =>
        cases hu : p u with
        | outside | waiting c | returning c => simp [MonitorEvent.apply, hu] at he
        | released c =>
            simp only [MonitorEvent.apply, hu, Option.some.injEq] at he
            subst he
            simp only [MonitorEvent.thread, hu] at hj hr hg
            constructor <;> simp_all [MonitorEvent.isEnqueue, MonitorEvent.isWake,
              MonitorEvent.isGoOn, MonitorEvent.isLeave, MonitorEvent.thread, Phase.isWaiting,
              Phase.isReleased, Phase.isReturning]
  · obtain ⟨h₁, h₂, h₃, h₄⟩ := MonitorEvent.count_other ht
    rw [MonitorEvent.apply_other he ht]
    constructor <;> simp [h₁, h₂, h₃, h₄, hj, hr, hg]

/-- The counts hold after every possible sequence of events. -/
theorem accounted_of_runAll (h : runAll MonitorEvent.apply es (fun _ => .outside) = some p)
    (t : τ) : Accounted es t (p t) := by
  induction es using List.reverseRecOn generalizing p with
  | nil =>
      cases h
      constructor <;> rfl
  | append_singleton es e ih =>
      rw [runAll_append] at h
      obtain ⟨p₁, h₁, h₂⟩ := Option.bind_eq_some_iff.1 h
      have he : e.apply p₁ = some p := by
        simpa [runAll] using h₂
      exact (ih h₁).snoc he

end Lib
end Pintos
