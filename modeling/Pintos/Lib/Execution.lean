import Mathlib.Data.Option.Basic
import Mathlib.Data.List.Basic

/-!
# Execution — runs of a labelled step function

A system is a partial step function `step : α → σ → Option σ` on states `σ` with labels `α`.

* `Reach step P s₀ s`: `s` is reached from `s₀` by steps that all satisfy `P state label`;
* `Exec step s₀ tr s`: the same with the list `tr` of (state before, label) pairs kept, so that
  a property of a whole run can be stated;
* `Reach.invariant` and `Exec.forall_iff` turn step lemmas into run lemmas.
-/

namespace Pintos
namespace Lib

variable {σ α : Type*}

/-! ## Reachability -/

/-- States reached from `s₀` by steps whose state and label satisfy `P`. -/
inductive Reach (step : α → σ → Option σ) (P : σ → α → Prop) (s₀ : σ) : σ → Prop
  | init : Reach step P s₀ s₀
  | next {s s' : σ} {a : α} :
      Reach step P s₀ s → P s a → step a s = some s' → Reach step P s₀ s'

/-- Runs, with the state before and the label of every step. -/
inductive Exec (step : α → σ → Option σ) (s₀ : σ) : List (σ × α) → σ → Prop
  | nil : Exec step s₀ [] s₀
  | snoc {tr : List (σ × α)} {s s' : σ} {a : α} :
      Exec step s₀ tr s → step a s = some s' → Exec step s₀ (tr ++ [(s, a)]) s'

/-- Take the given steps one after the other. -/
def runAll (step : α → σ → Option σ) : List α → σ → Option σ
  | [], s => some s
  | a :: as, s => (step a s).bind (runAll step as)

/-- The states before the given steps, with the steps, up to the first that is not possible. -/
def trace (step : α → σ → Option σ) : List α → σ → List (σ × α)
  | [], _ => []
  | a :: as, s =>
      match step a s with
      | none => []
      | some s' => (s, a) :: trace step as s'

variable {step : α → σ → Option σ} {P Q : σ → α → Prop} {s₀ s s' : σ}

theorem runAll_append (as bs : List α) (s : σ) :
    runAll step (as ++ bs) s = (runAll step as s).bind (runAll step bs) := by
  induction as generalizing s with
  | nil =>
      rfl
  | cons a as ih =>
      show (step a s).bind (runAll step (as ++ bs)) = ((step a s).bind (runAll step as)).bind _
      rw [Option.bind_assoc]
      exact congrArg _ (funext ih)

namespace Reach

/-- A property that holds at the start and is kept by every admitted step holds throughout. -/
theorem invariant {Inv : σ → Prop} (h₀ : Inv s₀)
    (hstep : ∀ s a s', Inv s → P s a → step a s = some s' → Inv s')
    (h : Reach step P s₀ s) : Inv s := by
  induction h with
  | init =>
      exact h₀
  | next _ hP hs ih =>
      exact hstep _ _ _ ih hP hs

theorem mono (hPQ : ∀ s a, P s a → Q s a) (h : Reach step P s₀ s) : Reach step Q s₀ s := by
  induction h with
  | init =>
      exact .init
  | next _ hP hs ih =>
      exact .next ih (hPQ _ _ hP) hs

theorem trans {s₁ : σ} (h₁ : Reach step P s₀ s₁) (h₂ : Reach step P s₁ s) :
    Reach step P s₀ s := by
  induction h₂ with
  | init =>
      exact h₁
  | next _ hP hs ih =>
      exact .next ih hP hs

/-- A run computed by `runAll` is a run, when every label is admitted in every state. -/
theorem of_runAll {as : List α} (hP : ∀ a ∈ as, ∀ s, P s a) (h : runAll step as s = some s') :
    Reach step P s s' := by
  induction as generalizing s with
  | nil =>
      simp only [runAll, Option.some.injEq] at h
      exact h ▸ .init
  | cons a as ih =>
      obtain ⟨s₁, h₁, h₂⟩ := Option.bind_eq_some_iff.1 h
      have hfirst : Reach step P s s₁ := .next .init (hP a List.mem_cons_self s) h₁
      exact hfirst.trans (ih (fun b hb => hP b (List.mem_cons_of_mem _ hb)) h₂)

/-- The state at the end of a computed run is reached. -/
theorem get_runAll {as : List α} (h : (runAll step as s).isSome = true)
    (hP : ∀ a ∈ as, ∀ s, P s a) : Reach step P s ((runAll step as s).get h) :=
  of_runAll hP (Option.some_get h).symm

end Reach

namespace Exec

theorem cons {tr : List (σ × α)} {s₁ : σ} {a : α} (h₁ : step a s₀ = some s₁)
    (h : Exec step s₁ tr s) : Exec step s₀ ((s₀, a) :: tr) s := by
  induction h with
  | nil =>
      exact .snoc .nil h₁
  | snoc _ hs ih =>
      exact .snoc ih hs

theorem append {tr tr' : List (σ × α)} {s₁ : σ} (h₁ : Exec step s₀ tr s₁)
    (h : Exec step s₁ tr' s) : Exec step s₀ (tr ++ tr') s := by
  induction h with
  | nil =>
      rwa [List.append_nil]
  | snoc _ hs ih =>
      rw [← List.append_assoc]
      exact .snoc ih hs

/-- A computed run, with its trace. -/
theorem of_runAll {as : List α} (h : runAll step as s = some s') :
    Exec step s (trace step as s) s' := by
  induction as generalizing s with
  | nil =>
      simp only [runAll, Option.some.injEq] at h
      exact h ▸ .nil
  | cons a as ih =>
      obtain ⟨s₁, h₁, h₂⟩ := Option.bind_eq_some_iff.1 h
      simp only [trace, h₁]
      exact .cons h₁ (ih h₂)

/-- Every state and label along a run that satisfies `P` throughout is reached through `P`. -/
theorem reach {tr : List (σ × α)} (h : Exec step s₀ tr s) (hP : ∀ e ∈ tr, P e.1 e.2) :
    Reach step P s₀ s := by
  induction h with
  | nil =>
      exact .init
  | snoc _ hs ih =>
      refine .next (ih fun e he => hP e (by simp [he])) ?_ hs
      simpa using hP (_, _) (List.mem_append_right _ List.mem_cons_self)

/-- What holds of the run that has not begun, and of a run and one more step, holds of every run. -/
theorem history {I : List (σ × α) → σ → Prop} (h₀ : I [] s₀)
    (hkeep : ∀ tr s a s', I tr s → P s a → step a s = some s' → I (tr ++ [(s, a)]) s')
    {tr : List (σ × α)} (h : Exec step s₀ tr s) (hP : ∀ e ∈ tr, P e.1 e.2) : I tr s := by
  induction h with
  | nil =>
      exact h₀
  | @snoc tr s s' a _ hs ih =>
      have hI : I tr s := ih fun e he => hP e (List.mem_append_left _ he)
      have hPa : P s a := hP (s, a) (List.mem_append_right _ List.mem_cons_self)
      exact hkeep tr s a s' hI hPa hs

/-- An invariant holds in every state that the run passes. -/
theorem invariant {I : σ → Prop} (h₀ : I s₀)
    (hkeep : ∀ s a s', I s → P s a → step a s = some s' → I s') {tr : List (σ × α)}
    (h : Exec step s₀ tr s) (hP : ∀ e ∈ tr, P e.1 e.2) : (∀ e ∈ tr, I e.1) ∧ I s := by
  refine h.history (I := fun tr s => (∀ e ∈ tr, I e.1) ∧ I s) ⟨nofun, h₀⟩ ?_ hP
  rintro tr s a s' ⟨hstates, hlast⟩ hPa hs
  refine ⟨?_, hkeep s a s' hlast hPa hs⟩
  intro e he
  rcases List.mem_append.1 he with he | he
  · exact hstates e he
  · rw [List.mem_singleton.1 he]
    exact hlast

/-- If an invariant-backed step lemma says that a step keeps `Q` exactly when `C` holds, then a
run keeps `Q` throughout exactly when every step of it meets `C`. -/
theorem forall_iff {Inv Q : σ → Prop} {P C : σ → α → Prop} (hInv : Inv s₀) (hQ : Q s₀)
    (hkeep : ∀ s a s', Inv s → P s a → step a s = some s' → Inv s')
    (hstep : ∀ s a s', Inv s → Q s → P s a → step a s = some s' → (C s a ↔ Q s'))
    {tr : List (σ × α)} (h : Exec step s₀ tr s) (hP : ∀ e ∈ tr, P e.1 e.2) :
    (∀ e ∈ tr, C e.1 e.2) ↔ (∀ e ∈ tr, Q e.1) ∧ Q s := by
  induction h with
  | nil =>
      simp [hQ]
  | @snoc tr s s' a hrun hs ih =>
      have hP' : ∀ e ∈ tr, P e.1 e.2 := fun e he => hP e (by simp [he])
      have hPa : P s a := by
        simpa using hP (s, a) (List.mem_append_right _ List.mem_cons_self)
      have hi : Inv s := (hrun.reach hP').invariant hInv hkeep
      have ih := ih hP'
      constructor
      · intro hC
        obtain ⟨hQs, hq⟩ := ih.1 fun e he => hC e (by simp [he])
        have hCa : C s a := by
          simpa using hC (s, a) (List.mem_append_right _ List.mem_cons_self)
        refine ⟨?_, (hstep s a s' hi hq hPa hs).1 hCa⟩
        intro e he
        rcases List.mem_append.1 he with he | he
        · exact hQs e he
        · rw [List.mem_singleton.1 he]
          exact hq
      · rintro ⟨hQs, hq'⟩
        have hq : Q s := by
          simpa using hQs (s, a) (List.mem_append_right _ List.mem_cons_self)
        have hC := ih.2 ⟨fun e he => hQs e (by simp [he]), hq⟩
        intro e he
        rcases List.mem_append.1 he with he | he
        · exact hC e he
        · rw [List.mem_singleton.1 he]
          exact (hstep s a s' hi hq hPa hs).2 hq'

end Exec

end Lib
end Pintos
