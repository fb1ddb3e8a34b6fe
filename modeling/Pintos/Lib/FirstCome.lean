import Mathlib.Data.List.Basic
import Mathlib.Data.Option.Basic

/-!
# FirstCome — a table in which the first value of a key stays

`enter key c v` puts the value `v` into the table `c : κ → Option β` under its key, unless the key
is taken already.

* `enterAll_apply`: after a list of values a key has its old value, or the first value of the list
  that has this key;
* `all_entered_iff`: into an empty table a list is entered without loss just when no two of its
  values compete for a key.
-/

namespace Pintos
namespace Lib

variable {κ β : Type*} [DecidableEq κ] {key : β → κ} {c : κ → Option β} {v : β} {vs : List β} {u : κ}

def enter (key : β → κ) (c : κ → Option β) (v : β) : κ → Option β :=
  fun u => (c u).or (if key v = u then some v else none)

def enterAll (key : β → κ) (c : κ → Option β) (vs : List β) : κ → Option β :=
  vs.foldl (enter key) c

@[simp] theorem enterAll_nil : enterAll key c [] = c := rfl

@[simp] theorem enterAll_cons : enterAll key c (v :: vs) = enterAll key (enter key c v) vs := rfl

theorem enterAll_append (ws : List β) :
    enterAll key c (vs ++ ws) = enterAll key (enterAll key c vs) ws :=
  List.foldl_append

theorem enter_of_some {w : β} (h : c u = some w) : enter key c v u = some w := by
  simp [enter, h]

theorem enter_self (h : c (key v) = none) : enter key c v (key v) = some v := by
  simp [enter, h]

theorem enter_of_ne (h : key v ≠ u) : enter key c v u = c u := by
  simp [enter, h]

theorem enterAll_apply (key : β → κ) (c : κ → Option β) (vs : List β) (u : κ) :
    enterAll key c vs u = (c u).or (vs.find? fun v => key v = u) := by
  induction vs generalizing c with
  | nil =>
      simp
  | cons v vs ih =>
      rw [enterAll_cons, ih, enter, Option.or_assoc]
      by_cases hv : key v = u
      · simp [hv]
      · simp [hv]

/-- Nothing is lost if and only if values with one key are one value. -/
theorem all_entered_iff :
    (∀ v ∈ vs, enterAll key (fun _ => none) vs (key v) = some v) ↔
      ∀ v ∈ vs, ∀ w ∈ vs, key v = key w → v = w := by
  constructor
  · intro hall v hv w hw heq
    have hkept := hall v hv
    rw [heq, hall w hw] at hkept
    exact (Option.some.inj hkept).symm
  · intro hone v hv
    rw [enterAll_apply, Option.none_or]
    cases hf : vs.find? fun w => key w = key v with
    | none =>
        have hnot := List.find?_eq_none.1 hf v hv
        simp at hnot
    | some w =>
        have hkey : key w = key v := by simpa using List.find?_some hf
        rw [hone w (List.mem_of_find?_eq_some hf) v hv hkey]

end Lib
end Pintos
