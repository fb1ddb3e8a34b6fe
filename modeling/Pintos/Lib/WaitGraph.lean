import Mathlib.Data.Fintype.Card
import Mathlib.Data.Set.Finite.Basic
import Mathlib.Logic.Relation

/-!
# WaitGraph — waiting for resources in the order of their ranks

`waits t l` says that `t` waits for the resource `l`, `holds t l` that it has it.  Where everybody
waits for resources of higher rank only than all that it has (`Climbs`), nobody waits for itself in
the end, and behind everybody who waits there is somebody who does not.
-/

namespace Pintos
namespace Lib

open Relation

variable {T L R : Type*} [Preorder R] {waits holds : T → L → Prop} {rank : L → R} {t u : T} {l : L}

/-- `u` has what `t` waits for. -/
def Awaits (waits holds : T → L → Prop) (t u : T) : Prop := ∃ l, waits t l ∧ holds u l

def Climbs (waits holds : T → L → Prop) (rank : L → R) : Prop :=
  ∀ t l m, holds t l → waits t m → rank l < rank m

namespace Climbs

/-- Along the way the ranks of what is held do not go down. -/
theorem le_of_reaches (h : Climbs waits holds rank) (hl : holds t l)
    (hr : ReflTransGen (Awaits waits holds) t u) : ∃ m, holds u m ∧ rank l ≤ rank m := by
  induction hr with
  | refl =>
      exact ⟨l, hl, le_rfl⟩
  | tail _ hstep ih =>
      obtain ⟨m, hm, hle⟩ := ih
      obtain ⟨m', hwaits, hholds⟩ := hstep
      exact ⟨m', hholds, hle.trans (h _ m m' hm hwaits).le⟩

theorem acyclic (h : Climbs waits holds rank) (t : T) : ¬ TransGen (Awaits waits holds) t t := by
  intro hcycle
  obtain ⟨u, ⟨l, hwaits, hholds⟩, hrest⟩ := TransGen.head'_iff.1 hcycle
  obtain ⟨m, hm, hle⟩ := h.le_of_reaches hholds hrest
  exact lt_irrefl _ (hle.trans_lt (h t m l hm hwaits))

/-- If what is waited for is held within a finite set, the way ends at somebody who does not
wait. -/
theorem exists_last (h : Climbs waits holds rank) (s : Finset T)
    (hs : ∀ t l, waits t l → ∃ u ∈ s, holds u l) (hl : waits t l) :
    ∃ u ∈ s, TransGen (Awaits waits holds) t u ∧ ∀ m, ¬ waits u m := by
  -- on the finite set, waiting is well founded
  let next : s → s → Prop := fun u v => TransGen (Awaits waits holds) v.1 u.1
  have htrans : IsTrans s next := ⟨fun _ _ _ huv hvw => hvw.trans huv⟩
  have hirrefl : Std.Irrefl next := ⟨fun u => h.acyclic u.1⟩
  have hwf : WellFounded next := Finite.wellFounded_of_trans_of_irrefl next
  obtain ⟨u₀, hu₀, hholds⟩ := hs t l hl
  have hreach : ∀ u : s, TransGen (Awaits waits holds) t u.1 →
      ∃ v ∈ s, TransGen (Awaits waits holds) t v ∧ ∀ m, ¬ waits v m := by
    intro u
    induction u using hwf.induction with
    | _ u ih =>
        intro hu
        by_cases hend : ∀ m, ¬ waits u.1 m
        · exact ⟨u.1, u.2, hu, hend⟩
        · obtain ⟨m, hm⟩ := not_forall_not.1 hend
          obtain ⟨v, hv, hvm⟩ := hs u.1 m hm
          have hstep : Awaits waits holds u.1 v := ⟨m, hm, hvm⟩
          exact ih ⟨v, hv⟩ (.single hstep) (hu.tail hstep)
  exact hreach ⟨u₀, hu₀⟩ (.single ⟨l, hl, hholds⟩)

end Climbs

end Lib
end Pintos
