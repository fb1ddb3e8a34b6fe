import Pintos.Lib.OrderedList

/-!
# StableQueue — a queue of greatest key, first come first served among equals

A queue is a list in non-increasing key order.  Elements join it by ordered insertion, and the next
one is taken from its head after a stable re-sort by keys that may have changed since.

* `Serves key l ws key' l'`: the elements `ws` join the queue `l` one after the other, and then
  nothing, or one element, leaves it;
* `Serves.descending`: the queue stays in order;
* `Serves.keeps_pair`, `Serves.behind`, `Serves.pair`: who came first stays first.
-/

namespace Pintos
namespace Lib

variable {ι κ : Type*} [LinearOrder κ]

/-! ## Joining one after the other -/

/-- Insert the elements of `ws` one after the other. -/
def insertAll (less : ι → ι → Bool) (ws l : List ι) : List ι :=
  ws.foldl (fun l x => insertOrdered less x l) l

section InsertAll

variable {less : ι → ι → Bool} {key : ι → κ} {ws l : List ι} {a b : ι}

@[simp] theorem insertAll_nil : insertAll less [] l = l := rfl

@[simp] theorem insertAll_cons (x : ι) :
    insertAll less (x :: ws) l = insertAll less ws (insertOrdered less x l) := rfl

theorem insertAll_append (ws ws' : List ι) :
    insertAll less (ws ++ ws') l = insertAll less ws' (insertAll less ws l) :=
  List.foldl_append

@[simp] theorem mem_insertAll : a ∈ insertAll less ws l ↔ a ∈ ws ∨ a ∈ l := by
  induction ws generalizing l with
  | nil =>
      simp
  | cons x ws ih =>
      rw [insertAll_cons, ih, mem_insertOrdered, List.mem_cons]
      tauto

theorem insertAll_perm : (insertAll less ws l).Perm (ws ++ l) := by
  induction ws generalizing l with
  | nil =>
      exact List.Perm.refl _
  | cons x ws ih =>
      have hx : (ws ++ insertOrdered less x l).Perm (ws ++ x :: l) :=
        (insertOrdered_perm x l).append_left ws
      exact (ih.trans hx).trans List.perm_middle

theorem insertAll_descending (h : Descending key l) :
    Descending key (insertAll (byKey key) ws l) := by
  induction ws generalizing l with
  | nil =>
      exact h
  | cons x ws ih =>
      exact ih (insertOrdered_descending h)

/-- Those already queued keep their relative order. -/
theorem sublist_insertAll : l.Sublist (insertAll less ws l) := by
  induction ws generalizing l with
  | nil =>
      exact List.Sublist.refl l
  | cons x ws ih =>
      exact (sublist_insertOrdered x l).trans ih

/-- Whoever joins gets behind those whose key is not smaller. -/
theorem insertAll_behind (h : Descending key l) (ha : a ∈ l) (hb : b ∈ ws)
    (hk : key b ≤ key a) : [a, b].Sublist (insertAll (byKey key) ws l) := by
  induction ws generalizing l with
  | nil =>
      cases hb
  | cons x ws ih =>
      rcases List.mem_cons.1 hb with rfl | hb
      · exact (insertOrdered_behind h ha hk).trans sublist_insertAll
      · exact ih (insertOrdered_descending h) (mem_insertOrdered.2 (Or.inr ha)) hb

/-- Of two that join, the first stays in front unless its key is smaller. -/
theorem insertAll_pair (h : Descending key l) (hab : [a, b].Sublist ws)
    (hk : key b ≤ key a) : [a, b].Sublist (insertAll (byKey key) ws l) := by
  induction ws generalizing l with
  | nil =>
      cases hab
  | cons x ws ih =>
      cases hab with
      | cons _ hab =>
          exact ih (insertOrdered_descending h) hab
      | cons_cons _ hb =>
          have hb' : b ∈ ws := List.singleton_sublist.1 hb
          rw [insertAll_cons]
          exact insertAll_behind (insertOrdered_descending h) (mem_insertOrdered.2 (Or.inl rfl))
            hb' hk

end InsertAll

/-! ## The head after a re-sort -/

section Head

variable {key : ι → κ} {l r : List ι} {a b x : ι}

/-- Of two queued elements the one in front is taken first, unless its key is smaller. -/
theorem pair_of_sort_eq_cons (hl : l.Nodup) (hab : [a, b].Sublist l) (hk : key b ≤ key a)
    (h : sort (byKey key) l = x :: r) : x ≠ b ∧ (x = a ∨ [a, b].Sublist r) := by
  have hpair : [a, b].Sublist (x :: r) := h ▸ sort_keeps_pair hk hab
  have hnd : (x :: r).Nodup := (perm_of_sort_eq_cons h).nodup_iff.1 hl
  obtain ⟨hx, -⟩ := List.nodup_cons.1 hnd
  cases hpair with
  | cons _ hr =>
      have hb : b ∈ r := hr.subset (by simp)
      exact ⟨fun he => hx (he ▸ hb), Or.inr hr⟩
  | cons_cons _ hb =>
      have hb' : b ∈ r := List.singleton_sublist.1 hb
      exact ⟨fun he => hx (he ▸ hb'), Or.inl rfl⟩

/-- An element that is inserted and taken out again leaves the queue as it was. -/
theorem tail_of_sort_insert (hd : Descending key l) (hx : x ∉ l)
    (h : sort (byKey key) (insertOrdered (byKey key) x l) = x :: r) : r = l := by
  rw [sort_eq_self (insertOrdered_descending hd)] at h
  cases l with
  | nil =>
      simpa [insertOrdered] using h.symm
  | cons y l =>
      rw [insertOrdered_cons] at h
      split at h
      · exact (List.cons.inj h).2.symm
      · have hyx : y = x := (List.cons.inj h).1
        exact absurd (hyx ▸ List.mem_cons_self) hx

end Head

/-! ## A step of the queue -/

/-- `ws` join the queue `l`, then nothing or one element leaves it: the head after a re-sort by
the keys `key'`. -/
inductive Serves (key : ι → κ) (l ws : List ι) (key' : ι → κ) (l' : List ι) : Prop
  | stay : key' = key → l' = insertAll (byKey key) ws l → Serves key l ws key' l'
  | empty : insertAll (byKey key) ws l = [] → l' = [] → Serves key l ws key' l'
  | take (x : ι) : sort (byKey key') (insertAll (byKey key) ws l) = x :: l' →
      Serves key l ws key' l'

namespace Serves

variable {key key' : ι → κ} {l ws l' : List ι} {a b : ι}

theorem descending (h : Serves key l ws key' l') (hd : Descending key l) : Descending key' l' := by
  cases h with
  | stay hk hl =>
      rw [hk, hl]
      exact insertAll_descending hd
  | empty _ hl =>
      rw [hl]
      exact List.Pairwise.nil
  | take x hs =>
      exact descending_tail_of_sort_eq_cons hs

/-- Nobody leaves, or exactly one element does, and its key is the greatest. -/
theorem removes (h : Serves key l ws key' l') :
    l'.Perm (ws ++ l) ∨ ∃ x, (ws ++ l).Perm (x :: l') ∧ ∀ y ∈ l', key' y ≤ key' x := by
  cases h with
  | stay _ hl =>
      rw [hl]
      exact Or.inl insertAll_perm
  | empty h0 hl =>
      rw [hl, ← h0]
      exact Or.inl insertAll_perm
  | take x hs =>
      refine Or.inr ⟨x, insertAll_perm.symm.trans (perm_of_sort_eq_cons hs), fun y hy => ?_⟩
      exact le_of_sort_eq_cons hs ((mem_iff_of_sort_eq_cons hs y).2 (Or.inr hy))

theorem subset (h : Serves key l ws key' l') (ha : a ∈ l') : a ∈ ws ∨ a ∈ l := by
  cases h with
  | stay _ hl =>
      rw [hl] at ha
      exact mem_insertAll.1 ha
  | empty _ hl =>
      rw [hl] at ha
      cases ha
  | take x hs =>
      exact mem_insertAll.1 ((mem_iff_of_sort_eq_cons hs a).2 (Or.inr ha))

/-- Two that stand in order when the last one has joined: the second is still queued, and if the
first is too they stand in order. -/
theorem keeps (h : Serves key l ws key' l') (hnd : (ws ++ l).Nodup)
    (hab : [a, b].Sublist (insertAll (byKey key) ws l)) (hk : key' b ≤ key' a) :
    b ∈ l' ∧ (a ∈ l' → [a, b].Sublist l') := by
  have hb : b ∈ insertAll (byKey key) ws l := hab.subset (by simp)
  have hnd' : (insertAll (byKey key) ws l).Nodup := insertAll_perm.nodup_iff.2 hnd
  cases h with
  | stay _ hl =>
      rw [hl]
      exact ⟨hb, fun _ => hab⟩
  | empty h0 _ =>
      rw [h0] at hb
      cases hb
  | take x hs =>
      obtain ⟨hxb, hxa⟩ := pair_of_sort_eq_cons hnd' hab hk hs
      have hr := mem_tail_iff_of_sort_eq_cons hnd' hs
      refine ⟨(hr b).2 ⟨hb, hxb.symm⟩, fun ha => ?_⟩
      rcases hxa with rfl | hxa
      · exact absurd rfl ((hr x).1 ha).2
      · exact hxa

/-- Two that were queued in order. -/
theorem keeps_pair (h : Serves key l ws key' l') (hnd : (ws ++ l).Nodup)
    (hab : [a, b].Sublist l) (hk : key' b ≤ key' a) :
    b ∈ l' ∧ (a ∈ l' → [a, b].Sublist l') :=
  h.keeps hnd (hab.trans sublist_insertAll) hk

/-- One that was queued, and one that joins. -/
theorem behind (h : Serves key l ws key' l') (hnd : (ws ++ l).Nodup) (hd : Descending key l)
    (ha : a ∈ l) (hb : b ∈ ws) (hk : key b ≤ key a) (hk' : key' b ≤ key' a) :
    b ∈ l' ∧ (a ∈ l' → [a, b].Sublist l') :=
  h.keeps hnd (insertAll_behind hd ha hb hk) hk'

/-- Two that join in order. -/
theorem pair (h : Serves key l ws key' l') (hnd : (ws ++ l).Nodup) (hd : Descending key l)
    (hab : [a, b].Sublist ws) (hk : key b ≤ key a) (hk' : key' b ≤ key' a) :
    b ∈ l' ∧ (a ∈ l' → [a, b].Sublist l') :=
  h.keeps hnd (insertAll_pair hd hab hk) hk'

end Serves

end Lib
end Pintos
