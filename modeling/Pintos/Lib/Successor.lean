import Mathlib.Logic.Relation

/-!
# Successor — following a partial function

A partial function `next : α → Option α` is followed from an element until it gives nothing.

* `Grounded next`: from every element this comes to an end;
* `Leads next a b`: on the way from `a` one comes to `b`.

Waiting for at most one thing at a time is such a function.  The three ways in which a wait-for
relation usually changes keep it grounded: links are dropped (`Grounded.mono`), links are turned to
an element that has none (`Grounded.redirect`), and one element is linked to another from which the
way ends (`Grounded.attach`).
-/

namespace Pintos
namespace Lib

variable {α : Type*} {next next' : α → Option α} {a b : α}

/-- `u` comes directly after `t`. -/
def After (next : α → Option α) (u t : α) : Prop :=
  next t = some u

/-- Every way along `next` ends. -/
def Grounded (next : α → Option α) : Prop :=
  WellFounded (After next)

/-- The way from `a` along `next` comes to `b`. -/
def Leads (next : α → Option α) : α → α → Prop :=
  Relation.ReflTransGen fun t u => next t = some u

/-! ## Ways that end -/

theorem acc_of_none (h : next a = none) : Acc (After next) a := by
  refine Acc.intro a fun u hu => ?_
  have hu' : next a = some u := hu
  rw [h] at hu'
  cases hu'

theorem acc_of_some (h : next a = some b) (hb : Acc (After next) b) : Acc (After next) a := by
  refine Acc.intro a fun u hu => ?_
  have hu' : next a = some u := hu
  rw [h] at hu'
  cases hu'
  exact hb

namespace Grounded

/-- Links are dropped. -/
theorem mono (hg : Grounded next) (h : ∀ t u, next' t = some u → next t = some u) :
    Grounded next' :=
  Subrelation.wf (fun {u t} hu => h t u hu) hg

/-- Links are turned to `a`, which has none. -/
theorem redirect (hg : Grounded next) (ha : next' a = none)
    (h : ∀ t u, next' t = some u → next t = some u ∨ u = a) : Grounded next' := by
  refine ⟨fun t => ?_⟩
  induction t using hg.induction with
  | _ t ih =>
      refine Acc.intro t fun u hu => ?_
      rcases h t u hu with hold | rfl
      · exact ih u hold
      · exact acc_of_none ha

/-- `a` is linked to `b`, from which the way ends also with the new link. -/
theorem attach (hg : Grounded next) (ha : next' a = some b) (hb : Acc (After next') b)
    (h : ∀ t, t ≠ a → next' t = next t) : Grounded next' := by
  refine ⟨fun t => ?_⟩
  induction t using hg.induction with
  | _ t ih =>
      by_cases ht : t = a
      · subst ht
        exact acc_of_some ha hb
      · refine Acc.intro t fun u hu => ih u ?_
        have hu' : next' t = some u := hu
        rwa [h t ht] at hu'

end Grounded

end Lib
end Pintos
