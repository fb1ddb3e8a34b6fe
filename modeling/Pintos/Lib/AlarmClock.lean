import Mathlib.Logic.Function.Basic
import Pintos.Lib.Execution

/-!
# AlarmClock — clients that sleep for a number of ticks

A client sets its alarm `n` ticks ahead, lies down, is woken by the tick that reaches the time it
has set, and gets up.  A client cannot get up before it is woken, nor lie down without an alarm:
`AlarmClock.step` is partial.

* `AlarmClock.nap_of_step`: nobody but the client itself and the tick moves a client;
* `AlarmClock.Punctual.run`: in every run nobody is woken before its time.
-/

namespace Pintos
namespace Lib

open Function

variable {ι : Type*}

/-! ## The clock -/

/-- What a client is doing; `d` is the time it has set. -/
inductive Nap
  | up
  | due (d : Int)
  | asleep (d : Int)
  | woken (d : Int)
  deriving DecidableEq, Repr

structure AlarmClock (ι : Type*) where
  now : Int
  nap : ι → Nap

inductive AlarmEvent (ι : Type*)
  | set (t : ι) (n : Int)
  | lie (t : ι)
  | tick
  | getUp (t : ι)
  deriving DecidableEq, Repr

/-- The client whose doing an event is. -/
def AlarmEvent.client : AlarmEvent ι → Option ι
  | .set t _ | .lie t | .getUp t => some t
  | .tick => none

/-- The tick that counts up to `now` wakes a sleeper whose time has come. -/
def Nap.ring (now : Int) : Nap → Nap
  | .asleep d => if d ≤ now then .woken d else .asleep d
  | s => s

namespace AlarmClock

variable [DecidableEq ι] {c c' : AlarmClock ι} {t : ι} {n : Int}

def step : AlarmEvent ι → AlarmClock ι → Option (AlarmClock ι)
  | .set t n, c =>
      match c.nap t with
      | .up => some { c with nap := update c.nap t (.due (c.now + n)) }
      | _ => none
  | .lie t, c =>
      match c.nap t with
      | .due d => some { c with nap := update c.nap t (.asleep d) }
      | _ => none
  | .tick, c => some ⟨c.now + 1, fun t => (c.nap t).ring (c.now + 1)⟩
  | .getUp t, c =>
      match c.nap t with
      | .woken _ => some { c with nap := update c.nap t .up }
      | _ => none

theorem step_set (h : step (.set t n) c = some c') :
    c.nap t = .up ∧ c' = { c with nap := update c.nap t (.due (c.now + n)) } := by
  simp only [step] at h
  split at h
  · rename_i hs
    exact ⟨hs, (Option.some.inj h).symm⟩
  · cases h

theorem step_lie (h : step (.lie t) c = some c') :
    ∃ d, c.nap t = .due d ∧ c' = { c with nap := update c.nap t (.asleep d) } := by
  simp only [step] at h
  split at h
  · rename_i d hs
    exact ⟨d, hs, (Option.some.inj h).symm⟩
  · cases h

theorem step_getUp (h : step (.getUp t) c = some c') :
    ∃ d, c.nap t = .woken d ∧ c' = { c with nap := update c.nap t .up } := by
  simp only [step] at h
  split at h
  · rename_i d hs
    exact ⟨d, hs, (Option.some.inj h).symm⟩
  · cases h

theorem now_of_step {e : AlarmEvent ι} (h : step e c = some c') :
    c'.now = if e = .tick then c.now + 1 else c.now := by
  cases e with
  | set u n =>
      obtain ⟨-, rfl⟩ := step_set h
      rfl
  | lie u =>
      obtain ⟨d, -, rfl⟩ := step_lie h
      rfl
  | tick =>
      cases h
      rfl
  | getUp u =>
      obtain ⟨d, -, rfl⟩ := step_getUp h
      rfl

/-- A client that does nothing itself is left alone, or the tick reaches it. -/
theorem nap_of_step {e : AlarmEvent ι} (h : step e c = some c') (he : e.client ≠ some t) :
    c'.nap t = if e = .tick then (c.nap t).ring (c.now + 1) else c.nap t := by
  cases e with
  | set u n =>
      have hne : t ≠ u := fun e => he (by rw [e]; rfl)
      obtain ⟨-, rfl⟩ := step_set h
      simp [hne]
  | lie u =>
      have hne : t ≠ u := fun e => he (by rw [e]; rfl)
      obtain ⟨d, -, rfl⟩ := step_lie h
      simp [hne]
  | tick =>
      cases h
      rfl
  | getUp u =>
      have hne : t ≠ u := fun e => he (by rw [e]; rfl)
      obtain ⟨d, -, rfl⟩ := step_getUp h
      simp [hne]

/-! ## What holds in every run -/

/-- Nobody is woken before the time it has set. -/
def Punctual (c : AlarmClock ι) : Prop :=
  ∀ t d, c.nap t = .woken d → d ≤ c.now

theorem Punctual.step {e : AlarmEvent ι} (h : c.Punctual) (hs : AlarmClock.step e c = some c') :
    c'.Punctual := by
  intro t d ht
  cases e with
  | set u n =>
      obtain ⟨-, rfl⟩ := step_set hs
      by_cases hu : t = u
      · simp [hu] at ht
      · exact h t d (by simpa [hu] using ht)
  | lie u =>
      obtain ⟨e, -, rfl⟩ := step_lie hs
      by_cases hu : t = u
      · simp [hu] at ht
      · exact h t d (by simpa [hu] using ht)
  | tick =>
      cases hs
      cases hn : c.nap t with
      | asleep e =>
          simp only [hn, Nap.ring] at ht
          split at ht
          · rename_i hle
            cases ht
            exact hle
          · cases ht
      | woken e =>
          have hle : d ≤ c.now := h t d (by simpa [hn, Nap.ring] using ht)
          show d ≤ c.now + 1
          omega
      | up | due e =>
          simp [hn, Nap.ring] at ht
  | getUp u =>
      obtain ⟨e, -, rfl⟩ := step_getUp hs
      by_cases hu : t = u
      · simp [hu] at ht
      · exact h t d (by simpa [hu] using ht)

theorem Punctual.run {es : List (AlarmEvent ι)} (h : c.Punctual)
    (hs : runAll AlarmClock.step es c = some c') : c'.Punctual := by
  induction es generalizing c with
  | nil =>
      cases hs
      exact h
  | cons e es ih =>
      obtain ⟨c₁, h₁, h₂⟩ := Option.bind_eq_some_iff.1 hs
      exact ih (h.step h₁) h₂

end AlarmClock

end Lib
end Pintos
