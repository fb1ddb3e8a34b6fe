import Mathlib.Data.List.Count
import Pintos.Lib.Execution

/-!
# Potential — how often a step can happen in a run

A potential is a number that no step raises.  Steps that lower it can happen only so often:

* `Exec.countP_add_le`: those that happen are paid for by the potential of the first state;
* `Exec.exists_ended`: a run with more of them has left the region in which they are paid for.
-/

namespace Pintos
namespace Lib

variable {σ α : Type*} {step : α → σ → Option σ} {P : σ → α → Prop} {s₀ s : σ}

namespace Exec

variable {I : σ → Prop} {Φ : σ → ℕ} {E : σ × α → Bool} {tr : List (σ × α)}

/-- Steps that lower the potential number no more than it is high at the start. -/
theorem countP_add_le (h₀ : I s₀) (hkeep : ∀ s a s', I s → P s a → step a s = some s' → I s')
    (hcost : ∀ s a s', I s → P s a → step a s = some s' →
      Φ s' + (if E (s, a) then 1 else 0) ≤ Φ s)
    (h : Exec step s₀ tr s) (hP : ∀ e ∈ tr, P e.1 e.2) : tr.countP E + Φ s ≤ Φ s₀ := by
  have hboth : I s ∧ tr.countP E + Φ s ≤ Φ s₀ := by
    refine h.history (I := fun tr s => I s ∧ tr.countP E + Φ s ≤ Φ s₀) ⟨h₀, by simp⟩ ?_ hP
    rintro tr s a s' ⟨hI, hle⟩ hPa hs
    refine ⟨hkeep s a s' hI hPa hs, ?_⟩
    have hstep := hcost s a s' hI hPa hs
    rw [List.countP_append, List.countP_singleton]
    omega
  exact hboth.2

/-- A run with more such steps passes a state, or ends in one, that is not in the region `W`. -/
theorem exists_ended {W : σ → Prop} (h₀ : I s₀)
    (hkeep : ∀ s a s', I s → P s a ∧ W s → step a s = some s' → I s')
    (hcost : ∀ s a s', I s → P s a ∧ W s → step a s = some s' →
      Φ s' + (if E (s, a) then 1 else 0) ≤ Φ s)
    (h : Exec step s₀ tr s) (hP : ∀ e ∈ tr, P e.1 e.2) (hmany : Φ s₀ < tr.countP E) :
    ∃ e ∈ tr, ¬ W e.1 := by
  by_contra hnone
  have hW : ∀ e ∈ tr, P e.1 e.2 ∧ W e.1 := by
    intro e he
    refine ⟨hP e he, ?_⟩
    by_contra hout
    exact hnone ⟨e, he, hout⟩
  have hle := h.countP_add_le (P := fun s a => P s a ∧ W s) h₀ hkeep hcost hW
  omega

end Exec

end Lib
end Pintos
