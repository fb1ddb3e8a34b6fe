import Pintos.Lib.Execution

/-!
# Simulation — the visible events of a run are a run of an abstract system

`visible s a` is what an observer sees of the step `a` in the state `s`, if anything.  A relation
that every step keeps, the abstract system taking the visible event or standing still, carries every
run over to a run of the abstract system on the events of the run.
-/

namespace Pintos
namespace Lib

variable {σ τ α ε : Type*}

/-- What is seen of a run. -/
def events (visible : σ → α → Option ε) (tr : List (σ × α)) : List ε :=
  tr.filterMap fun e => visible e.1 e.2

/-- The abstract system follows a step by taking its event, if there is one. -/
def Follows (astep : ε → τ → Option τ) (t : τ) : Option ε → τ → Prop
  | none, t' => t' = t
  | some e, t' => astep e t = some t'

/-- `R` relates the two systems, and every admitted step keeps it. -/
def Simulates (step : α → σ → Option σ) (P : σ → α → Prop) (visible : σ → α → Option ε)
    (astep : ε → τ → Option τ) (R : σ → τ → Prop) : Prop :=
  ∀ s a s' t, R s t → P s a → step a s = some s' →
    ∃ t', Follows astep t (visible s a) t' ∧ R s' t'

theorem events_snoc (visible : σ → α → Option ε) (tr : List (σ × α)) (e : σ × α) :
    events visible (tr ++ [e]) = events visible tr ++ (visible e.1 e.2).toList := by
  rw [events, List.filterMap_append, events]
  cases h : visible e.1 e.2 with
  | none =>
      simp [h]
  | some ev =>
      simp [h]

variable {step : α → σ → Option σ} {P : σ → α → Prop} {visible : σ → α → Option ε}
  {astep : ε → τ → Option τ} {R : σ → τ → Prop} {s₀ s : σ} {t₀ t t' : τ}

theorem Follows.runAll {e : Option ε} (h : Follows astep t e t') :
    runAll astep e.toList t = some t' := by
  cases e with
  | none =>
      exact congrArg some (Eq.symm h)
  | some e =>
      have hstep : astep e t = some t' := h
      simp [Lib.runAll, hstep]

/-- Every run shows a run of the abstract system, and ends in related states. -/
theorem Simulates.run (h : Simulates step P visible astep R) (h₀ : R s₀ t₀)
    {tr : List (σ × α)} (hrun : Exec step s₀ tr s) (hP : ∀ e ∈ tr, P e.1 e.2) :
    ∃ t, runAll astep (events visible tr) t₀ = some t ∧ R s t := by
  refine hrun.history (I := fun tr s => ∃ t, runAll astep (events visible tr) t₀ = some t ∧ R s t)
    ⟨t₀, rfl, h₀⟩ ?_ hP
  rintro tr s a s' ⟨t, hgo, hR⟩ ha hs
  obtain ⟨t', hfollow, hR'⟩ := h s a s' t hR ha hs
  refine ⟨t', ?_, hR'⟩
  rw [events_snoc, runAll_append, hgo]
  exact hfollow.runAll

end Lib
end Pintos
