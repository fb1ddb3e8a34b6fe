import Mathlib.Data.List.Sort

/-!
# OrderedList — ordered insertion and stable sorting by a caller's comparison

Two list operations driven by a comparison `less` that the caller supplies:

* `insertOrdered less x l` puts `x` before the first element it is less than;
* `sort less l` is the stable sort.

Nothing is assumed of `less` for the facts about membership and permutation.  When `less` compares
keys, greatest first (`byKey`), both operations produce lists in non-increasing key order and keep
the relative order of elements with equal keys.
-/

namespace Pintos
namespace Lib

variable {ι κ : Type*}

/-! ## The operations -/

/-- Insert `x` before the first element of the list that it is `less` than. -/
def insertOrdered (less : ι → ι → Bool) (x : ι) (l : List ι) : List ι :=
  l.orderedInsert (fun a b => less a b = true) x

/-- Stable sort: `a` may stay in front of `b` unless `b` is `less` than `a`. -/
def sort (less : ι → ι → Bool) (l : List ι) : List ι :=
  l.insertionSort (fun a b => less b a = false)

/-- The comparison that puts greater keys first. -/
def byKey [LinearOrder κ] (key : ι → κ) (a b : ι) : Bool :=
  decide (key b < key a)

/-- Keys never increase along the list. -/
def Descending [LinearOrder κ] (key : ι → κ) (l : List ι) : Prop :=
  l.Pairwise (fun a b => key b ≤ key a)

/-- The calls of `less` that the insertion makes: on the new element and each element of the list in
turn, up to the first one that it is less than. -/
def insertComparisons (less : ι → ι → Bool) (x : ι) : List ι → List (ι × ι)
  | [] => []
  | e :: l => (x, e) :: if less x e then [] else insertComparisons less x l

/-- A sorting procedure, given by the calls of `less` that it makes, compares two different elements
of its list each time. -/
def ComparesMembers (calls : (ι → ι → Bool) → List ι → List (ι × ι)) : Prop :=
  ∀ less l, ∀ e ∈ calls less l, ∃ r, l.Perm (e.1 :: e.2 :: r)

/-- Each element compared with the one in front of it. -/
def adjacentPairs (_ : ι → ι → Bool) (l : List ι) : List (ι × ι) :=
  l.tail.zip l

/-! ## Membership and permutation -/

section AnyComparison

variable {less : ι → ι → Bool}

theorem insertOrdered_perm (x : ι) (l : List ι) : (insertOrdered less x l).Perm (x :: l) :=
  List.perm_orderedInsert _ x l

@[simp] theorem mem_insertOrdered {x a : ι} {l : List ι} :
    a ∈ insertOrdered less x l ↔ a = x ∨ a ∈ l :=
  List.mem_orderedInsert _

@[simp] theorem insertOrdered_ne_nil (x : ι) (l : List ι) : insertOrdered less x l ≠ [] := by
  intro h
  have hx : x ∈ insertOrdered less x l := by simp
  simp [h] at hx

theorem insertOrdered_nodup {x : ι} {l : List ι} :
    (insertOrdered less x l).Nodup ↔ x ∉ l ∧ l.Nodup := by
  rw [(insertOrdered_perm x l).nodup_iff, List.nodup_cons]

theorem sublist_insertOrdered (x : ι) (l : List ι) : l.Sublist (insertOrdered less x l) :=
  List.sublist_orderedInsert x l

/-- An insertion into a list that is walked keeps what is in front of the walk: the new element is
passed over where it lands directly before the place of the walk. -/
theorem insertOrdered_split (x : ι) (before after : List ι) :
    ∃ before' after', insertOrdered less x (before ++ after) = before' ++ after' ∧
      after'.head? = after.head? ∧ after ⊆ after' := by
  induction before with
  | nil =>
      cases after with
      | nil =>
          exact ⟨[x], [], rfl, rfl, fun _ => id⟩
      | cons a after =>
          by_cases hx : less x a = true
          · exact ⟨[x], a :: after, by simp [insertOrdered, hx], rfl, fun _ => id⟩
          · refine ⟨[], a :: insertOrdered less x after, by simp [insertOrdered, hx], rfl, ?_⟩
            exact List.cons_subset_cons a (sublist_insertOrdered x after).subset
  | cons b before ih =>
      by_cases hx : less x b = true
      · exact ⟨x :: b :: before, after, by simp [insertOrdered, hx], rfl, fun _ => id⟩
      · obtain ⟨before', after', hlist, hhead, hsub⟩ := ih
        exact ⟨b :: before', after', by simpa [insertOrdered, hx] using hlist, hhead, hsub⟩

theorem sort_perm (l : List ι) : (sort less l).Perm l :=
  List.perm_insertionSort _ l

@[simp] theorem mem_sort {a : ι} {l : List ι} : a ∈ sort less l ↔ a ∈ l :=
  List.mem_insertionSort _

@[simp] theorem sort_nil : sort less ([] : List ι) = [] := rfl

@[simp] theorem sort_eq_nil {l : List ι} : sort less l = [] ↔ l = [] := by
  constructor
  · intro h
    exact List.eq_nil_of_length_eq_zero (by simpa [h] using (@sort_perm _ less l).length_eq.symm)
  · rintro rfl
    rfl

/-- A nonempty list sorts to some head and tail. -/
theorem exists_sort_eq_cons {l : List ι} (h : l ≠ []) : ∃ x r, sort less l = x :: r :=
  List.exists_cons_of_ne_nil (by simpa using h)

theorem mem_of_sort_eq_cons {l r : List ι} {x : ι} (h : sort less l = x :: r) : x ∈ l := by
  rw [← @mem_sort _ less, h]
  exact List.mem_cons_self

theorem perm_of_sort_eq_cons {l r : List ι} {x : ι} (h : sort less l = x :: r) :
    l.Perm (x :: r) :=
  h ▸ (sort_perm l).symm

theorem mem_iff_of_sort_eq_cons {l r : List ι} {x : ι} (h : sort less l = x :: r) (a : ι) :
    a ∈ l ↔ a = x ∨ a ∈ r := by
  rw [(perm_of_sort_eq_cons h).mem_iff, List.mem_cons]

/-- Taking the head off the sorted list removes exactly that element. -/
theorem mem_tail_iff_of_sort_eq_cons {l r : List ι} {x : ι} (hl : l.Nodup)
    (h : sort less l = x :: r) (a : ι) : a ∈ r ↔ a ∈ l ∧ a ≠ x := by
  have hnd : (x :: r).Nodup := (perm_of_sort_eq_cons h).nodup_iff.1 hl
  rw [mem_iff_of_sort_eq_cons h]
  constructor
  · intro ha
    exact ⟨Or.inr ha, fun hax => (List.nodup_cons.1 hnd).1 (hax ▸ ha)⟩
  · rintro ⟨rfl | ha, hne⟩
    · exact absurd rfl hne
    · exact ha

theorem nodup_tail_of_sort_eq_cons {l r : List ι} {x : ι} (hl : l.Nodup)
    (h : sort less l = x :: r) : r.Nodup :=
  (List.nodup_cons.1 ((perm_of_sort_eq_cons h).nodup_iff.1 hl)).2

/-- Nothing is compared in a list of one element. -/
theorem ComparesMembers.eq_nil {calls : (ι → ι → Bool) → List ι → List (ι × ι)}
    (h : ComparesMembers calls) {l : List ι} (hl : l.length ≤ 1) : calls less l = [] := by
  refine List.eq_nil_iff_forall_not_mem.2 fun e he => ?_
  obtain ⟨r, hr⟩ := h less l e he
  have hlen : l.length = r.length + 2 := hr.length_eq
  omega

theorem comparesMembers_adjacent : ComparesMembers (@adjacentPairs ι) := by
  intro less l e he
  induction l with
  | nil =>
      cases he
  | cons x l ih =>
      cases l with
      | nil =>
          cases he
      | cons y l =>
          rcases List.mem_cons.1 he with rfl | he
          · exact ⟨l, List.Perm.swap y x l⟩
          · obtain ⟨r, hr⟩ := ih he
            refine ⟨x :: r, (hr.cons x).trans ?_⟩
            exact (List.Perm.swap _ _ _).trans ((List.Perm.swap _ _ _).cons _)

end AnyComparison

/-! ## Comparison by keys, greatest first -/

section ByKey

variable [LinearOrder κ] {key : ι → κ}

theorem byKey_eq_false {a b : ι} : byKey key b a = false ↔ key b ≤ key a := by
  simp [byKey]

instance instTotalByKey : Std.Total (fun a b => byKey key b a = false) where
  total a b := by simpa [byKey] using le_total (key b) (key a)

instance instTransByKey : IsTrans ι (fun a b => byKey key b a = false) where
  trans a b c hab hbc := by
    simp only [byKey_eq_false] at *
    exact hbc.trans hab

theorem sort_descending (l : List ι) : Descending key (sort (byKey key) l) := by
  have h := List.pairwise_insertionSort (fun a b => byKey key b a = false) l
  exact h.imp (fun hab => byKey_eq_false.1 hab)

/-- Sorting a list that is already in order changes nothing. -/
theorem sort_eq_self {l : List ι} (h : Descending key l) : sort (byKey key) l = l :=
  List.Pairwise.insertionSort_eq (h.imp (fun hab => byKey_eq_false.2 hab))

/-- Stability: two elements that are in order keep their relative position. -/
theorem sort_keeps_pair {a b : ι} {l : List ι} (hk : key b ≤ key a) (h : [a, b].Sublist l) :
    [a, b].Sublist (sort (byKey key) l) :=
  List.pair_sublist_insertionSort (byKey_eq_false.2 hk) h

theorem insertOrdered_cons (x b : ι) (l : List ι) :
    insertOrdered (byKey key) x (b :: l) =
      if key b < key x then x :: b :: l else b :: insertOrdered (byKey key) x l := by
  simp [insertOrdered, byKey]

theorem insertOrdered_descending {x : ι} {l : List ι} (h : Descending key l) :
    Descending key (insertOrdered (byKey key) x l) := by
  induction l with
  | nil =>
      exact List.pairwise_singleton _ x
  | cons b l ih =>
      obtain ⟨hb, hl⟩ := List.pairwise_cons.1 h
      rw [insertOrdered_cons]
      split
      · rename_i hlt
        refine List.pairwise_cons.2 ⟨?_, h⟩
        intro c hc
        rcases List.mem_cons.1 hc with rfl | hc
        · exact hlt.le
        · exact (hb c hc).trans hlt.le
      · rename_i hle
        refine List.pairwise_cons.2 ⟨?_, ih hl⟩
        intro c hc
        rcases mem_insertOrdered.1 hc with rfl | hc
        · exact not_lt.1 hle
        · exact hb c hc

/-- In an ordered list a new element goes behind everything whose key is not smaller. -/
theorem insertOrdered_behind {x y : ι} {l : List ι} (h : Descending key l) (hy : y ∈ l)
    (hk : key x ≤ key y) : [y, x].Sublist (insertOrdered (byKey key) x l) := by
  induction l with
  | nil =>
      cases hy
  | cons b l ih =>
      obtain ⟨hb, hl⟩ := List.pairwise_cons.1 h
      have hyb : key y ≤ key b := by
        rcases List.mem_cons.1 hy with rfl | hy
        · exact le_rfl
        · exact hb y hy
      rw [insertOrdered_cons, if_neg (not_lt.2 (hk.trans hyb))]
      rcases List.mem_cons.1 hy with rfl | hy
      · exact List.Sublist.cons_cons _ (List.singleton_sublist.2 (by simp))
      · exact (ih hl hy).cons _

/-- The head of the sorted list has a greatest key. -/
theorem le_of_sort_eq_cons {l r : List ι} {x : ι} (h : sort (byKey key) l = x :: r)
    {a : ι} (ha : a ∈ l) : key a ≤ key x := by
  have hd : Descending key (x :: r) := h ▸ sort_descending l
  rcases (mem_iff_of_sort_eq_cons h a).1 ha with rfl | ha
  · exact le_rfl
  · exact (List.pairwise_cons.1 hd).1 a ha

theorem descending_tail_of_sort_eq_cons {l r : List ι} {x : ι}
    (h : sort (byKey key) l = x :: r) : Descending key r := by
  have hd : Descending key (x :: r) := h ▸ sort_descending l
  exact (List.pairwise_cons.1 hd).2

/-- The head of an ordered list has a greatest key. -/
theorem Descending.le_head {x : ι} {l : List ι} (h : Descending key (x :: l)) {a : ι}
    (ha : a ∈ x :: l) : key a ≤ key x := by
  rcases List.mem_cons.1 ha with rfl | ha
  · exact le_rfl
  · exact (List.pairwise_cons.1 h).1 a ha

/-- `x` is the first of the elements with the greatest key. -/
def FirstGreatest (key : ι → κ) (l : List ι) (x : ι) : Prop :=
  ∃ before after, l = before ++ x :: after ∧ (∀ y ∈ before, key y < key x) ∧
    ∀ y ∈ after, key y ≤ key x

/-- The stable sort puts the first element of greatest key in front. -/
theorem sort_head?_eq_some {l : List ι} {x : ι} :
    (sort (byKey key) l).head? = some x ↔ FirstGreatest key l x := by
  induction l generalizing x with
  | nil =>
      simp [FirstGreatest]
  | cons a l ih =>
      have hins : ∀ y r, sort (byKey key) l = y :: r →
          (sort (byKey key) (a :: l)).head? = some (if key y ≤ key a then a else y) := by
        intro y r hs
        have hcons : sort (byKey key) (a :: l) =
            (sort (byKey key) l).orderedInsert (fun a b => byKey key b a = false) a := rfl
        rw [hcons, hs]
        by_cases hya : key y ≤ key a
        · simp [List.orderedInsert, byKey_eq_false, hya]
        · simp [List.orderedInsert, byKey_eq_false, hya]
      constructor
      · intro h
        cases hs : sort (byKey key) l with
        | nil =>
            rw [sort_eq_nil.1 hs] at h ⊢
            cases h
            exact ⟨[], [], rfl, by simp, by simp⟩
        | cons y r =>
            rw [hins y r hs] at h
            obtain ⟨before, after, rfl, hbefore, hafter⟩ := ih.1 (by simp [hs] : _ = some y)
            split at h
            · rename_i hya
              cases h
              refine ⟨[], _, rfl, by simp, fun z hz => le_trans ?_ hya⟩
              exact le_of_sort_eq_cons hs hz
            · rename_i hya
              cases h
              refine ⟨a :: before, after, rfl, fun z hz => ?_, hafter⟩
              rcases List.mem_cons.1 hz with rfl | hz
              · exact not_le.1 hya
              · exact hbefore z hz
      · rintro ⟨before, after, hl, hbefore, hafter⟩
        cases before with
        | nil =>
            cases hl
            cases hs : sort (byKey key) l with
            | nil =>
                rw [sort_eq_nil.1 hs]
                rfl
            | cons y r => rw [hins y r hs, if_pos (hafter y (mem_of_sort_eq_cons hs))]
        | cons b before =>
            cases hl
            have hx := (@ih x).2 ⟨before, after, rfl,
              fun y hy => hbefore y (List.mem_cons_of_mem _ hy), hafter⟩
            obtain ⟨r, hs⟩ := List.head?_eq_some_iff.1 hx
            rw [hins x r hs, if_neg (not_le.2 (hbefore a List.mem_cons_self))]

theorem sort_congr {key' : ι → κ} {l : List ι} (hk : ∀ a ∈ l, key' a = key a) :
    sort (byKey key') l = sort (byKey key) l := by
  have hinsert : ∀ (x : ι) (r : List ι), (∀ y, y = x ∨ y ∈ r → key' y = key y) →
      r.orderedInsert (fun a b => byKey key' b a = false) x =
        r.orderedInsert (fun a b => byKey key b a = false) x := by
    intro x r
    induction r with
    | nil =>
        intro _
        rfl
    | cons y r ih =>
        intro hr
        have hx := hr x (Or.inl rfl)
        have hy := hr y (Or.inr List.mem_cons_self)
        have htail := ih fun z hz => hr z (hz.imp id (List.mem_cons_of_mem y))
        by_cases hxy : key x < key y
        · simpa [List.orderedInsert, byKey, hx, hy, hxy] using htail
        · simp [List.orderedInsert, byKey, hx, hy, hxy]
  induction l with
  | nil =>
      rfl
  | cons x l ih =>
      have hl := ih fun a ha => hk a (List.mem_cons_of_mem x ha)
      have hmem : ∀ y, y = x ∨ y ∈ sort (byKey key) l → key' y = key y := by
        rintro y (rfl | hy)
        · exact hk y List.mem_cons_self
        · exact hk y (List.mem_cons_of_mem x (mem_sort.1 hy))
      calc
        sort (byKey key') (x :: l)
            = (sort (byKey key') l).orderedInsert (fun a b => byKey key' b a = false) x := rfl
        _ = (sort (byKey key) l).orderedInsert (fun a b => byKey key b a = false) x := by
              rw [hl, hinsert x _ hmem]
        _ = sort (byKey key) (x :: l) := rfl

/-- Order only depends on the keys of the members. -/
theorem Descending.congr {key' : ι → κ} {l : List ι} (h : Descending key l)
    (hk : ∀ a ∈ l, key' a = key a) : Descending key' l :=
  List.Pairwise.imp_of_mem (fun ha hb hab => by rw [hk _ ha, hk _ hb]; exact hab) h

end ByKey

end Lib
end Pintos
