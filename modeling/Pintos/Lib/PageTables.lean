import Mathlib.Data.Finset.Basic

/-!
# PageTables — processes that share a pool of frames

Every process of `P` has a page table, which maps pages of `U` to frames of `K` with a writable
flag; the frames have bytes, and those of `used` have been taken from the pool.

* `Disjoint`: no frame is mapped twice, and only frames that have been taken are;
* `Tight`: every frame that has been taken is mapped;
* `Shows n flat`: what the pages hold, `n` bytes each, is `flat`.

`Extends p`, `Drops p` and a write through one page are what can happen; each keeps the three.
-/

namespace Pintos
namespace Lib

open Function

structure PageTables (P U K B : Type*) where
  used : Finset K
  bytes : K → ℕ → B
  dir : P → U → Option (K × Bool)

namespace PageTables

variable {P U K B : Type*}

structure Disjoint (s : PageTables P U K B) : Prop where
  used : ∀ {p u k w}, s.dir p u = some (k, w) → k ∈ s.used
  inj : ∀ {p u k w q v w'}, s.dir p u = some (k, w) → s.dir q v = some (k, w') → p = q ∧ u = v

def Tight (s : PageTables P U K B) : Prop := ∀ k ∈ s.used, ∃ p u w, s.dir p u = some (k, w)

def Shows (n : ℕ) (s : PageTables P U K B) (flat : P → U → ℕ → B) : Prop :=
  ∀ p u k w, s.dir p u = some (k, w) → ∀ i < n, s.bytes k i = flat p u i

/-- `p` has got pages, on frames that were free. -/
structure Extends (p : P) (s s' : PageTables P U K B) : Prop where
  used : s.used ⊆ s'.used
  bytes : ∀ k ∈ s.used, s'.bytes k = s.bytes k
  other : ∀ q ≠ p, s'.dir q = s.dir q
  kept : ∀ {u x}, s.dir p u = some x → s'.dir p u = some x
  new : ∀ {u k w}, s.dir p u = none → s'.dir p u = some (k, w) → k ∉ s.used ∧ k ∈ s'.used
  inj : ∀ {u v k w w'}, s.dir p u = none → s.dir p v = none → s'.dir p u = some (k, w) →
    s'.dir p v = some (k, w') → u = v
  tight : ∀ k ∈ s'.used, k ∈ s.used ∨ ∃ u w, s'.dir p u = some (k, w)

/-- The frames of `p` have been given back. -/
structure Drops (p : P) (s s' : PageTables P U K B) : Prop where
  used : ∀ k, k ∈ s'.used ↔ k ∈ s.used ∧ ∀ u w, s.dir p u ≠ some (k, w)
  bytes : ∀ k ∈ s'.used, s'.bytes k = s.bytes k
  other : ∀ q ≠ p, s'.dir q = s.dir q
  gone : ∀ u, s'.dir p u = none

variable {p q : P} {u v : U} {k : K} {w : Bool} {n : ℕ} {s s' : PageTables P U K B}
  {flat flat' : P → U → ℕ → B}

/-! ## Getting pages -/

/-- A mapped page was mapped before, or it is a new one of `p`. -/
theorem Extends.cases (h : Extends p s s') (hv : s'.dir q v = some (k, w)) :
    s.dir q v = some (k, w) ∨ q = p ∧ s.dir p v = none ∧ k ∉ s.used ∧ k ∈ s'.used := by
  by_cases hq : q = p
  · subst hq
    cases hold : s.dir q v with
    | none =>
        exact Or.inr ⟨rfl, rfl, h.new hold hv⟩
    | some x =>
        exact Or.inl ((h.kept hold).symm.trans hv)
  · rw [h.other q hq] at hv
    exact Or.inl hv

theorem Extends.refl (p : P) (s : PageTables P U K B) : Extends p s s :=
  ⟨subset_rfl, fun _ _ => rfl, fun _ _ => rfl, id, fun hnone hsome => by simp [hnone] at hsome,
    fun hnone _ hsome _ => by simp [hnone] at hsome, fun _ hk => Or.inl hk⟩

/-- The page table and the frames are the old ones. -/
theorem Extends.of_keeps (hused : s'.used = s.used) (hdir : ∀ q, s'.dir q = s.dir q)
    (hbytes : ∀ k ∈ s.used, s'.bytes k = s.bytes k) : Extends p s s' := by
  refine ⟨hused ▸ subset_rfl, hbytes, fun q _ => hdir q, fun hu => (congrFun (hdir p) _).trans hu,
    fun hnone hsome => ?_, fun hnone _ hsome _ => ?_, fun k hk => Or.inl (hused ▸ hk)⟩
  all_goals
    rw [hdir, hnone] at hsome
    cases hsome

/-- One page is mapped, to a frame that was free. -/
theorem Extends.of_map [DecidableEq U] [DecidableEq K] (hfree : s.dir p u = none) (hk : k ∉ s.used)
    (hused : s'.used = insert k s.used) (hdir : s'.dir p = update (s.dir p) u (some (k, w)))
    (hother : ∀ q ≠ p, s'.dir q = s.dir q) (hbytes : ∀ k' ≠ k, s'.bytes k' = s.bytes k') :
    Extends p s s' := by
  -- a page of `p` that was not mapped is this one
  have hnew : ∀ {v k' w'}, s.dir p v = none → s'.dir p v = some (k', w') → v = u ∧ k' = k := by
    intro v k' w' hnone hsome
    rw [hdir] at hsome
    by_cases hv : v = u
    · rw [hv, update_self] at hsome
      exact ⟨hv, (congrArg Prod.fst (Option.some.inj hsome)).symm⟩
    · rw [update_of_ne hv, hnone] at hsome
      cases hsome
  refine ⟨hused ▸ Finset.subset_insert k _, fun k' hk' => hbytes k' fun heq => hk (heq ▸ hk'),
    hother, fun {v x} hv => ?_, fun hnone hsome => ?_, fun hnu hnv hsu hsv => ?_, fun k' hk' => ?_⟩
  · have hne : v ≠ u := by
      rintro rfl
      exact absurd (hfree.symm.trans hv) (by simp)
    rw [hdir, update_of_ne hne]
    exact hv
  · obtain ⟨-, rfl⟩ := hnew hnone hsome
    exact ⟨hk, hused ▸ Finset.mem_insert_self _ _⟩
  · rw [(hnew hnu hsu).1, (hnew hnv hsv).1]
  · rw [hused] at hk'
    rcases Finset.mem_insert.1 hk' with rfl | hold
    · exact Or.inr ⟨u, w, by rw [hdir, update_self]⟩
    · exact Or.inl hold

/-- What one page table gets, among those of others. -/
theorem Extends.embed {t t' : PageTables Unit U K B} (h : Extends () t t')
    (hs : t = ⟨s.used, s.bytes, fun _ => s.dir p⟩) (hs' : t' = ⟨s'.used, s'.bytes, fun _ => s'.dir p⟩)
    (hother : ∀ q ≠ p, s'.dir q = s.dir q) : Extends p s s' := by
  subst hs
  subst hs'
  exact ⟨h.used, h.bytes, hother, h.kept, h.new, h.inj, h.tight⟩

theorem Extends.trans {s'' : PageTables P U K B} (h : Extends p s s') (h' : Extends p s' s'') :
    Extends p s s'' := by
  have hfirst : ∀ {u x}, s.dir p u = some x → s''.dir p u = some x := fun hu => h'.kept (h.kept hu)
  refine ⟨h.used.trans h'.used, fun k hk => ?_, fun q hq => (h'.other q hq).trans (h.other q hq),
    hfirst, fun {u k w} hnone hsome => ?_, fun {u v k w w'} hnu hnv hsu hsv => ?_, fun k hk => ?_⟩
  · rw [h'.bytes k (h.used hk), h.bytes k hk]
  · rcases h'.cases hsome with hmid | ⟨-, -, hk, hk'⟩
    · obtain ⟨hk, hk'⟩ := h.new hnone hmid
      exact ⟨hk, h'.used hk'⟩
    · exact ⟨fun hmem => hk (h.used hmem), hk'⟩
  · rcases h'.cases hsu with hmu | ⟨-, hu, hk, -⟩
    · rcases h'.cases hsv with hmv | ⟨-, hv, hk', -⟩
      · exact h.inj hnu hnv hmu hmv
      · exact absurd (h.new hnu hmu).2 hk'
    · rcases h'.cases hsv with hmv | ⟨-, hv, hk', -⟩
      · exact absurd (h.new hnv hmv).2 hk
      · exact h'.inj hu hv hsu hsv
  · rcases h'.tight k hk with hold | hnew
    · rcases h.tight k hold with hold' | ⟨u, w, hu⟩
      · exact Or.inl hold'
      · exact Or.inr ⟨u, w, h'.kept hu⟩
    · exact Or.inr hnew

theorem Disjoint.extends (hd : s.Disjoint) (h : Extends p s s') : s'.Disjoint := by
  refine ⟨fun hv => ?_, fun {q v k w q' v' w'} hv hv' => ?_⟩
  · rcases h.cases hv with hold | ⟨-, -, -, hk⟩
    · exact h.used (hd.used hold)
    · exact hk
  · rcases h.cases hv with hold | ⟨rfl, hnone, hk, -⟩
    · rcases h.cases hv' with hold' | ⟨-, -, hk', -⟩
      · exact hd.inj hold hold'
      · exact absurd (hd.used hold) hk'
    · rcases h.cases hv' with hold' | ⟨rfl, hnone', -, -⟩
      · exact absurd (hd.used hold') hk
      · exact ⟨rfl, h.inj hnone hnone' hv hv'⟩

theorem Tight.extends (ht : s.Tight) (h : Extends p s s') : s'.Tight := by
  intro k hk
  rcases h.tight k hk with hold | ⟨u, w, hu⟩
  · obtain ⟨q, u, w, hu⟩ := ht k hold
    by_cases hq : q = p
    · subst hq
      exact ⟨q, u, w, h.kept hu⟩
    · exact ⟨q, u, w, by rw [h.other q hq, hu]⟩
  · exact ⟨p, u, w, hu⟩

/-- The pages of others, and the old pages of `p`, still show what they did. -/
theorem Shows.extends (hs : s.Shows n flat) (hd : s.Disjoint) (h : Extends p s s')
    (hold : ∀ q v, s.dir q v ≠ none → ∀ i < n, flat' q v i = flat q v i)
    (hnew : ∀ {u k w}, s.dir p u = none → s'.dir p u = some (k, w) →
      ∀ i < n, s'.bytes k i = flat' p u i) : s'.Shows n flat' := by
  intro q v k w hv i hi
  rcases h.cases hv with hv' | ⟨rfl, hnone, -⟩
  · rw [h.bytes k (hd.used hv'), hs q v k w hv' i hi, hold q v (by simp [hv']) i hi]
  · exact hnew hnone hv i hi

/-! ## Giving them back -/

theorem Drops.cases (h : Drops p s s') (hv : s'.dir q v = some (k, w)) :
    q ≠ p ∧ s.dir q v = some (k, w) := by
  by_cases hq : q = p
  · subst hq
    rw [h.gone v] at hv
    cases hv
  · exact ⟨hq, by rw [← h.other q hq, hv]⟩

theorem Disjoint.drops (hd : s.Disjoint) (h : Drops p s s') : s'.Disjoint := by
  refine ⟨fun {q v k w} hv => ?_, fun hv hv' => hd.inj (h.cases hv).2 (h.cases hv').2⟩
  obtain ⟨hq, hold⟩ := h.cases hv
  exact (h.used k).2 ⟨hd.used hold, fun u w' hu => hq (hd.inj hold hu).1⟩

theorem Tight.drops (ht : s.Tight) (h : Drops p s s') : s'.Tight := by
  intro k hk
  obtain ⟨hk', hnot⟩ := (h.used k).1 hk
  obtain ⟨q, u, w, hu⟩ := ht k hk'
  have hq : q ≠ p := fun heq => hnot u w (heq ▸ hu)
  exact ⟨q, u, w, by rw [h.other q hq, hu]⟩

theorem Shows.drops (hs : s.Shows n flat) (hd : s.Disjoint) (h : Drops p s s')
    (hold : ∀ q ≠ p, flat' q = flat q) : s'.Shows n flat' := by
  intro q v k w hv i hi
  obtain ⟨hq, hv'⟩ := h.cases hv
  rw [h.bytes k ((hd.drops h).used hv), hold q hq]
  exact hs q v k w hv' i hi

/-- The frames that `p` has got last are given back with the others. -/
theorem Extends.drops {s'' : PageTables P U K B} (h : Extends p s s') (h' : Drops p s' s'') :
    Drops p s s'' := by
  have hused : ∀ k, k ∈ s''.used ↔ k ∈ s.used ∧ ∀ u w, s.dir p u ≠ some (k, w) := by
    intro k
    rw [h'.used]
    constructor
    · rintro ⟨hk, hnot⟩
      refine ⟨(h.tight k hk).resolve_right ?_, fun u w hu => hnot u w (h.kept hu)⟩
      rintro ⟨u, w, hu⟩
      exact hnot u w hu
    · rintro ⟨hk, hnot⟩
      refine ⟨h.used hk, fun u w hu => ?_⟩
      rcases h.cases hu with hold | ⟨-, -, hfree, -⟩
      · exact hnot u w hold
      · exact hfree hk
  refine ⟨hused, fun k hk => ?_, fun q hq => (h'.other q hq).trans (h.other q hq), h'.gone⟩
  rw [h'.bytes k hk, h.bytes k ((hused k).1 hk).1]

/-! ## Writing -/

section Write

variable [DecidableEq K]

def write (s : PageTables P U K B) (k : K) (i : ℕ) (b : B) : PageTables P U K B :=
  { s with bytes := update s.bytes k (update (s.bytes k) i b) }

theorem Disjoint.write (hd : s.Disjoint) (k : K) (i : ℕ) (b : B) : (s.write k i b).Disjoint :=
  ⟨hd.used, hd.inj⟩

theorem Tight.write (ht : s.Tight) (k : K) (i : ℕ) (b : B) : (s.write k i b).Tight := ht

variable [DecidableEq P] [DecidableEq U]

/-- One byte of one page of one process. -/
def flatWrite (flat : P → U → ℕ → B) (p : P) (u : U) (i : ℕ) (b : B) : P → U → ℕ → B :=
  update flat p (update (flat p) u (update (flat p u) i b))

/-- A write through a page is seen there and nowhere else. -/
theorem Shows.write (hs : s.Shows n flat) (hd : s.Disjoint) (hu : s.dir p u = some (k, w))
    (i : ℕ) (b : B) : (s.write k i b).Shows n (flatWrite flat p u i b) := by
  intro q v k' w' hv j hj
  have hv' : s.dir q v = some (k', w') := hv
  by_cases hk : k' = k
  · subst hk
    obtain ⟨rfl, rfl⟩ := hd.inj hv' hu
    simp only [PageTables.write, flatWrite, update_self]
    by_cases hij : j = i
    · subst hij
      simp
    · simp only [update_of_ne hij]
      exact hs q v k' w' hv' j hj
  · have hflat : flatWrite flat p u i b q v = flat q v := by
      unfold flatWrite
      by_cases hq : q = p
      · subst hq
        have hvu : v ≠ u := by
          rintro rfl
          rw [hu] at hv'
          exact hk (congrArg Prod.fst (Option.some.inj hv')).symm
        rw [update_self, update_of_ne hvu]
      · rw [update_of_ne hq]
    rw [hflat]
    simp only [PageTables.write, update_of_ne hk]
    exact hs q v k' w' hv' j hj

end Write

end PageTables

end Lib
end Pintos
