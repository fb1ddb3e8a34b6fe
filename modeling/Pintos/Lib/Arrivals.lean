import Pintos.Lib.StableQueue

/-!
# Arrivals — the queue of greatest key as its users see it

What a stable queue of greatest key promises can be said without its list.  A `Line` names the
queued elements in order of arrival and those of them whose key has changed since they joined.

* `Line.arrive`, `Line.keep`: elements join, and the others leave;
* `Line.Gives`: an element may be served, since its key is a greatest one and nobody of the same
  key has been waiting longer with keys unchanged;
* `Line.Shows`: a list is one that the queue may have for the line;
* `Serves.shows`, `Serves.gives`: a step of the queue keeps it so and serves such an element.
-/

namespace Pintos
namespace Lib

variable {ι κ : Type*}

/-! ## Lines -/

/-- Who is queued, in order of arrival, and whose key has changed since. -/
structure Line (ι : Type*) where
  queued : List ι
  moved : List ι

namespace Line

def empty : Line ι := ⟨[], []⟩

/-- `a` joined before `b`, and neither has changed its key since it joined. -/
def Ahead (L : Line ι) (a b : ι) : Prop :=
  [a, b].Sublist L.queued ∧ a ∉ L.moved ∧ b ∉ L.moved

/-- The keys become `key'`, and `ws` join one after the other. -/
def arrive [DecidableEq κ] (L : Line ι) (key key' : ι → κ) (ws : List ι) : Line ι where
  queued := L.queued ++ ws
  moved := L.moved ++ L.queued.filter fun t => key' t ≠ key t

/-- Those that are not in `l` leave. -/
def keep [DecidableEq ι] (L : Line ι) (l : List ι) : Line ι where
  queued := L.queued.filter fun t => t ∈ l
  moved := L.moved.filter fun t => t ∈ l

/-- `x` is queued with a greatest key, and whoever is ahead of it has a smaller one. -/
structure Gives [LinearOrder κ] (L : Line ι) (key : ι → κ) (x : ι) : Prop where
  queued : x ∈ L.queued
  greatest : ∀ y ∈ L.queued, key y ≤ key x
  first : ∀ y, L.Ahead y x → key y < key x

/-- The list `l` holds the elements of the line, and those of equal keys that have not changed in
order of arrival. -/
structure Shows [LinearOrder κ] (L : Line ι) (key : ι → κ) (l : List ι) : Prop where
  perm : L.queued.Perm l
  moved : ∀ t ∈ L.moved, t ∈ l
  order : ∀ a b, L.Ahead a b → key b ≤ key a → [a, b].Sublist l

theorem empty_shows [LinearOrder κ] (key : ι → κ) : (empty : Line ι).Shows key [] := by
  refine ⟨List.Perm.refl _, fun t ht => ht, fun a b hab _ => ?_⟩
  exact hab.1

end Line

/-! ## A step of the queue -/

/-- Where two elements of two lists in a row stand. -/
theorem pair_sublist_append {a b : ι} {l r : List ι} (h : [a, b].Sublist (l ++ r)) :
    [a, b].Sublist l ∨ (a ∈ l ∧ b ∈ r) ∨ [a, b].Sublist r := by
  rcases List.sublist_append_iff.1 h with ⟨l₁, l₂, he, hl, hr⟩
  match l₁, l₂, he with
  | [], _, rfl => exact Or.inr (Or.inr hr)
  | [_], [_], rfl =>
      exact Or.inr (Or.inl ⟨List.singleton_sublist.1 hl, List.singleton_sublist.1 hr⟩)
  | [_, _], [], rfl => exact Or.inl hl

namespace Serves

variable [LinearOrder κ] {key key₁ key' : ι → κ} {l ws l' : List ι} {L : Line ι} {a b x : ι}

/-- Whoever stands behind somebody of a key that is not smaller is not served. -/
theorem ahead (h : Serves key₁ l ws key' l') (hL : L.Shows key l) (hd : Descending key l)
    (hnd : (ws ++ l).Nodup) (hold : ∀ t ∈ l, key₁ t = key t) (hnew : ∀ t ∈ ws, key₁ t = key' t)
    (hab : (L.arrive key key' ws).Ahead a b) (hk : key' b ≤ key' a) :
    b ∈ l' ∧ (a ∈ l' → [a, b].Sublist l') := by
  obtain ⟨hsub, ha, hb⟩ := hab
  -- one that was queued and has not moved still has the key it was queued with
  have hkey : ∀ t ∈ L.queued, t ∉ (L.arrive key key' ws).moved → key₁ t = key' t := by
    intro t ht hm
    have hsame : key' t = key t := by
      by_contra hne
      exact hm (List.mem_append_right _ (List.mem_filter.2 ⟨ht, by simpa using hne⟩))
    rw [hold t (hL.perm.subset ht), hsame]
  have hmoved : ∀ t, t ∉ (L.arrive key key' ws).moved → t ∉ L.moved :=
    fun t ht hm => ht (List.mem_append_left _ hm)
  have hd₁ : Descending key₁ l := hd.congr hold
  rcases pair_sublist_append hsub with hab | ⟨haq, hbw⟩ | hab
  · have hka := hkey a (hab.subset (by simp)) ha
    have hkb := hkey b (hab.subset (by simp)) hb
    have hal : a ∈ l := hL.perm.subset (hab.subset (by simp))
    have hbl : b ∈ l := hL.perm.subset (hab.subset (by simp))
    refine h.keeps_pair hnd (hL.order a b ⟨hab, hmoved a ha, hmoved b hb⟩ ?_) hk
    rw [← hold a hal, ← hold b hbl, hka, hkb]
    exact hk
  · refine h.behind hnd hd₁ (hL.perm.subset haq) hbw ?_ hk
    rw [hkey a haq ha, hnew b hbw]
    exact hk
  · refine h.pair hnd hd₁ hab ?_ hk
    rw [hnew a (hab.subset (by simp)), hnew b (hab.subset (by simp))]
    exact hk

/-- After the step the list is one that the queue may have for the new line. -/
theorem shows [DecidableEq ι] (h : Serves key₁ l ws key' l') (hL : L.Shows key l)
    (hd : Descending key l) (hnd : (ws ++ l).Nodup) (hnd' : l'.Nodup)
    (hold : ∀ t ∈ l, key₁ t = key t) (hnew : ∀ t ∈ ws, key₁ t = key' t) :
    ((L.arrive key key' ws).keep l').Shows key' l' := by
  have hq : (L.queued ++ ws).Nodup := by
    have hp : (L.queued ++ ws).Perm (ws ++ l) :=
      List.perm_append_comm.trans (hL.perm.append_left ws)
    exact hp.nodup_iff.2 hnd
  refine ⟨?_, fun t ht => by simpa using (List.mem_filter.1 ht).2, fun a b hab hk => ?_⟩
  · refine (List.perm_ext_iff_of_nodup (hq.filter _) hnd').2 fun t => ?_
    have hsub : t ∈ l' → t ∈ L.queued ∨ t ∈ ws := fun ht =>
      (h.subset ht).symm.imp (fun hl => hL.perm.symm.subset hl) id
    simp only [List.mem_filter, List.mem_append, decide_eq_true_eq]
    exact ⟨fun ht => ht.2, fun ht => ⟨hsub ht, ht⟩⟩
  · obtain ⟨hsub, ha, hb⟩ := hab
    have hmem : ∀ t ∈ [a, b], t ∈ l' := fun t ht => by
      simpa using (List.mem_filter.1 (hsub.subset ht)).2
    have hout : ∀ t ∈ [a, b], t ∉ ((L.arrive key key' ws).keep l').moved →
        t ∉ (L.arrive key key' ws).moved := fun t ht hm hm' =>
      hm (List.mem_filter.2 ⟨hm', by simpa using hmem t ht⟩)
    have hahead : (L.arrive key key' ws).Ahead a b :=
      ⟨hsub.trans List.filter_sublist, hout a (by simp) ha, hout b (by simp) hb⟩
    exact (h.ahead hL hd hnd hold hnew hahead hk).2 (hmem a (by simp))

/-- Whoever leaves is one that the line gives. -/
theorem gives (h : Serves key₁ l ws key' l') (hL : L.Shows key l) (hd : Descending key l)
    (hnd : (ws ++ l).Nodup) (hold : ∀ t ∈ l, key₁ t = key t) (hnew : ∀ t ∈ ws, key₁ t = key' t)
    (hx : x ∈ L.queued ++ ws) (hx' : x ∉ l') : (L.arrive key key' ws).Gives key' x := by
  have hperm : (L.queued ++ ws).Perm (ws ++ l) :=
    List.perm_append_comm.trans (hL.perm.append_left ws)
  refine ⟨hx, fun y hy => ?_, fun y hy => ?_⟩
  · rcases h.removes with hp | ⟨z, hp, hz⟩
    · exact absurd (hp.symm.subset (hperm.subset hx)) hx'
    · have hxz : x = z := (List.mem_cons.1 (hp.subset (hperm.subset hx))).resolve_right hx'
      rw [hxz]
      rcases List.mem_cons.1 (hp.subset (hperm.subset hy)) with rfl | hy
      · exact le_rfl
      · exact hz y hy
  · by_contra hle
    exact hx' (h.ahead hL hd hnd hold hnew hy (not_lt.1 hle)).1

end Serves

end Lib
end Pintos
