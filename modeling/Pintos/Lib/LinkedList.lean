import Mathlib.Data.List.Chain
import Mathlib.Logic.Function.Basic

/-!
# LinkedList — doubly linked lists between two end nodes

The `prev` and `next` fields of all nodes are one memory, so that a node can leave one list and join
another through the same two fields.  A list starts at a head and ends at a tail, neither of which
is an element.

* `NodeLinks.remove` takes a node out and leaves that node's own fields in place;
* `IsList m L xs`: in the memory `m` the elements between the ends `L` are `xs`;
* `IsList.remove`, `IsList.pushBack`: what the operations do to a list, and that they write no node
  outside of it;
* `IsList.congr`: a list only depends on the fields of its own nodes;
* `IsList.apart`: no node is an element of two lists.
-/

namespace Pintos
namespace Lib

open Function

variable {ν : Type*}

/-! ## Nodes and operations -/

/-- The fields of all nodes; `none` is a null pointer. -/
structure NodeLinks (ν : Type*) where
  prev : ν → Option ν
  next : ν → Option ν

/-- The two end nodes of a list. -/
structure ListEnds (ν : Type*) where
  head : ν
  tail : ν

namespace ListEnds

variable (L : ListEnds ν)

/-- The nodes of the list with the elements `xs`, in order. -/
def nodes (xs : List ν) : List ν := L.head :: (xs ++ [L.tail])

/-- The node with which a walk over `xs` starts. -/
def first (xs : List ν) : ν := xs.headD L.tail

end ListEnds

namespace NodeLinks

variable [DecidableEq ν] (m : NodeLinks ν)

def setPrev (x : ν) (p : Option ν) : NodeLinks ν := { m with prev := update m.prev x p }

def setNext (x : ν) (n : Option ν) : NodeLinks ν := { m with next := update m.next x n }

/-- Take `e` out; the result is the node behind it, and `none` if `e` has no neighbours. -/
def remove (e : ν) : Option (NodeLinks ν × ν) :=
  match m.prev e, m.next e with
  | some p, some n => some ((m.setNext p (some n)).setPrev n (some p), n)
  | _, _ => none

/-- Put `e` in front of `before`; `none` if nothing is in front of that. -/
def insert (before e : ν) : Option (NodeLinks ν) :=
  match m.prev before with
  | some p =>
      some ((((m.setPrev e (some p)).setNext e (some before)).setNext p (some e)).setPrev before
        (some e))
  | none => none

def pushBack (L : ListEnds ν) (e : ν) : Option (NodeLinks ν) := m.insert L.tail e

end NodeLinks

/-! ## Lists in memory -/

/-- `b` is behind `a`, and the two say so. -/
def Adjacent (m : NodeLinks ν) (a b : ν) : Prop := m.next a = some b ∧ m.prev b = some a

instance instDecidableAdjacent [DecidableEq ν] (m : NodeLinks ν) (a b : ν) :
    Decidable (Adjacent m a b) :=
  inferInstanceAs (Decidable (_ ∧ _))

/-- The elements between the two ends are `xs`. -/
structure IsList (m : NodeLinks ν) (L : ListEnds ν) (xs : List ν) : Prop where
  nodup : (L.nodes xs).Nodup
  linked : (L.nodes xs).IsChain (Adjacent m)
  before : m.prev L.head = none
  behind : m.next L.tail = none

/-- The two memories have the same fields at `x`. -/
def SameAt (m m' : NodeLinks ν) (x : ν) : Prop := m'.next x = m.next x ∧ m'.prev x = m.prev x

section Lists

variable {m m' : NodeLinks ν} {L : ListEnds ν} {xs ys l r : List ν} {a b e : ν}

theorem SameAt.trans {m'' : NodeLinks ν} {x : ν} (h : SameAt m m' x) (h' : SameAt m' m'' x) :
    SameAt m m'' x :=
  ⟨h'.1.trans h.1, h'.2.trans h.2⟩

@[simp] theorem mem_nodes {x : ν} : x ∈ L.nodes xs ↔ x = L.head ∨ x ∈ xs ∨ x = L.tail := by
  simp [ListEnds.nodes]

theorem IsList.congr (h : IsList m L xs) (hsame : ∀ x ∈ L.nodes xs, SameAt m m' x) :
    IsList m' L xs := by
  refine ⟨h.nodup, ?_, ?_, ?_⟩
  · refine h.linked.imp_of_mem_imp fun x y hx hy hxy => ?_
    exact ⟨(hsame x hx).1.trans hxy.1, (hsame y hy).2.trans hxy.2⟩
  · exact (hsame L.head (by simp)).2.trans h.before
  · exact (hsame L.tail (by simp)).1.trans h.behind

/-- The nodes around the place between `xs` and `ys`. -/
theorem exists_neighbours (L : ListEnds ν) (xs ys : List ν) :
    ∃ l a b r, L.head :: xs = l ++ [a] ∧ ys ++ [L.tail] = b :: r ∧ b = L.first ys := by
  have hhead : L.head :: xs ≠ [] := List.cons_ne_nil _ _
  cases ys with
  | nil =>
      exact ⟨_, _, L.tail, [], (List.dropLast_append_getLast hhead).symm, rfl, rfl⟩
  | cons y ys =>
      exact ⟨_, _, y, ys ++ [L.tail], (List.dropLast_append_getLast hhead).symm, rfl, rfl⟩

/-- A walk over linked nodes, in a memory that keeps the fields that it follows. -/
theorem linked_congr (h : l.IsChain (Adjacent m))
    (hnext : ∀ x ∈ l, ∀ y ∈ l, m.next x = some y → m'.next x = some y)
    (hprev : ∀ x ∈ l, ∀ y ∈ l, m.prev y = some x → m'.prev y = some x) :
    l.IsChain (Adjacent m') :=
  h.imp_of_mem_imp fun x y hx hy hxy => ⟨hnext x hx y hy hxy.1, hprev x hx y hy hxy.2⟩

/-! ## Walking -/

theorem IsList.next_head (h : IsList m L xs) : m.next L.head = some (L.first xs) := by
  have hlinked := h.linked
  cases xs with
  | nil =>
      exact (List.isChain_cons_cons.1 hlinked).1.1
  | cons x xs =>
      exact (List.isChain_cons_cons.1 hlinked).1.1

theorem IsList.next (h : IsList m L (xs ++ e :: ys)) : m.next e = some (L.first ys) := by
  obtain ⟨l, a, b, r, hl, hr, rfl⟩ := exists_neighbours L xs ys
  have hnodes : L.nodes (xs ++ e :: ys) = (L.head :: xs) ++ e :: L.first ys :: r := by
    simp [ListEnds.nodes, hr]
  have hlinked := h.linked
  rw [hnodes] at hlinked
  exact (List.isChain_append_cons_cons.1 hlinked).2.1.1

/-- Behind an element of a list is an element or the tail, and that is linked back to it. -/
theorem IsList.next_mem (h : IsList m L xs) {x y : ν} (hx : x ∈ xs) (hy : m.next x = some y) :
    (y ∈ xs ∨ y = L.tail) ∧ m.prev y = some x := by
  obtain ⟨l, r, rfl⟩ := List.append_of_mem hx
  obtain ⟨l', a, b, r', hl, hr, hb⟩ := exists_neighbours L l r
  have hyb : y = b := by
    rw [hb]
    exact Option.some.inj (hy.symm.trans h.next)
  have hnodes : L.nodes (l ++ x :: r) = (L.head :: l) ++ x :: b :: r' := by
    simp [ListEnds.nodes, hr]
  have hlinked := h.linked
  rw [hnodes] at hlinked
  refine ⟨?_, hyb ▸ (List.isChain_append_cons_cons.1 hlinked).2.1.2⟩
  have hmem : y ∈ r ++ [L.tail] := by
    rw [hr, hyb]
    exact List.mem_cons_self
  rcases List.mem_append.1 hmem with hmem | hmem
  · exact Or.inl (List.mem_append_right _ (List.mem_cons_of_mem _ hmem))
  · exact Or.inr (List.mem_singleton.1 hmem)

/-- Two lists with different ends have no element in common: a walk from it would reach both
tails. -/
theorem IsList.apart {L' : ListEnds ν} (h : IsList m L xs) (h' : IsList m L' ys)
    (htail : L.tail ∉ L'.nodes ys) {x : ν} (hx : x ∈ xs) : x ∉ ys := by
  obtain ⟨l, r, rfl⟩ := List.append_of_mem hx
  clear hx
  induction r generalizing l x with
  | nil =>
      intro hy
      have hmem := (h'.next_mem hy h.next).1
      exact htail (mem_nodes.2 (Or.inr hmem))
  | cons z r ih =>
      intro hy
      have hz := h'.next_mem hy h.next
      have hlist : IsList m L ((l ++ [x]) ++ z :: r) := by simpa using h
      refine ih (l ++ [x]) hlist ?_
      rcases hz.1 with hz | hz
      · exact hz
      · -- nothing is behind the other tail
        have hnext : m.next L'.tail = some (L.first r) := hz ▸ hlist.next
        rw [h'.behind] at hnext
        cases hnext

variable [DecidableEq ν]

/-! ## Taking a node out -/

/-- The fields of the two neighbours are all that has to change. -/
theorem linked_unlink (h : (l ++ a :: e :: b :: r).IsChain (Adjacent m))
    (hnd : (l ++ a :: e :: b :: r).Nodup) :
    (l ++ a :: b :: r).IsChain (Adjacent ((m.setNext a (some b)).setPrev b (some a))) := by
  obtain ⟨hleft, hae, hright⟩ := List.isChain_append_cons_cons.1 h
  obtain ⟨heb, hright⟩ := List.isChain_cons_cons.1 hright
  obtain ⟨hl, hr, hdisj⟩ := List.nodup_append.1 hnd
  refine List.isChain_append_cons_cons.2 ⟨?_, ?_, ?_⟩
  · refine linked_congr hleft (fun x _ y hy hxy => ?_) fun x _ y hy hxy => ?_
    · have hxa : x ≠ a := by
        -- `a` is the last node of the walk, and what is behind it is `e`
        rintro rfl
        have hye : y = e := Option.some.inj (hxy.symm.trans hae.1)
        subst hye
        grind
      exact (update_of_ne hxa _ _).trans hxy
    · have hyb : y ≠ b := by grind
      exact (update_of_ne hyb _ _).trans hxy
  · exact ⟨update_self _ _ _, update_self _ _ _⟩
  · refine linked_congr hright (fun x hx y _ hxy => ?_) fun x hx y _ hxy => ?_
    · have hxa : x ≠ a := by grind
      exact (update_of_ne hxa _ _).trans hxy
    · have hyb : y ≠ b := by
        -- `b` is the first node of the walk, and what is in front of it is `e`
        rintro rfl
        have hxe : x = e := Option.some.inj (hxy.symm.trans heb.2)
        subst hxe
        grind
      exact (update_of_ne hyb _ _).trans hxy

/-- What `remove` does to a list. -/
structure Removed (m m' : NodeLinks ν) (L : ListEnds ν) (xs ys : List ν) : Prop where
  isList : IsList m' L (xs ++ ys)
  outside : ∀ x, x ∉ L.nodes (xs ++ ys) → SameAt m m' x

theorem IsList.remove (h : IsList m L (xs ++ e :: ys)) :
    ∃ m', m.remove e = some (m', L.first ys) ∧ Removed m m' L xs ys := by
  obtain ⟨l, a, b, r, hl, hr, hb⟩ := exists_neighbours L xs ys
  have hnodes : L.nodes (xs ++ e :: ys) = l ++ a :: e :: b :: r := by
    calc L.nodes (xs ++ e :: ys)
        = (L.head :: xs) ++ e :: (ys ++ [L.tail]) := by simp [ListEnds.nodes]
      _ = l ++ a :: e :: b :: r := by simp [hl, hr]
  have hnodes' : L.nodes (xs ++ ys) = l ++ a :: b :: r := by
    calc L.nodes (xs ++ ys)
        = (L.head :: xs) ++ (ys ++ [L.tail]) := by simp [ListEnds.nodes]
      _ = l ++ a :: b :: r := by simp [hl, hr]
  have hlinked := h.linked
  have hnd := h.nodup
  rw [hnodes] at hlinked hnd
  obtain ⟨-, hae, heb⟩ := List.isChain_append_cons_cons.1 hlinked
  have heb := (List.isChain_cons_cons.1 heb).1
  refine ⟨(m.setNext a (some b)).setPrev b (some a), ?_, ⟨?_, ?_, ?_, ?_⟩, ?_⟩
  · rw [NodeLinks.remove, hae.2, heb.1, ← hb]
  · rw [hnodes']
    exact hnd.sublist (List.Sublist.append_left ((List.sublist_cons_self _ _).cons_cons a) l)
  · rw [hnodes']
    exact linked_unlink hlinked hnd
  · have hne : L.head ≠ b := fun heq => by simpa [heq, heb.2] using h.before
    exact (update_of_ne hne _ _).trans h.before
  · have hne : L.tail ≠ a := fun heq => by simpa [heq, hae.1] using h.behind
    exact (update_of_ne hne _ _).trans h.behind
  · intro x hx
    rw [hnodes'] at hx
    have hxa : x ≠ a := by grind
    have hxb : x ≠ b := by grind
    exact ⟨update_of_ne hxa _ _, update_of_ne hxb _ _⟩

/-! ## Putting a node in -/

/-- `e` between `a` and `b`. -/
theorem linked_link (h : (l ++ a :: b :: r).IsChain (Adjacent m)) (hnd : (l ++ a :: b :: r).Nodup)
    (he : e ∉ l ++ a :: b :: r) :
    (l ++ a :: e :: b :: r).IsChain (Adjacent
      ((((m.setPrev e (some a)).setNext e (some b)).setNext a (some e)).setPrev b (some e))) := by
  obtain ⟨hleft, hab, hright⟩ := List.isChain_append_cons_cons.1 h
  have hae : a ≠ e := by grind
  have hbe : b ≠ e := by grind
  have hne : a ≠ b := by grind
  refine List.isChain_append_cons_cons.2 ⟨?_, ?_, List.isChain_cons_cons.2 ⟨?_, ?_⟩⟩
  · refine linked_congr hleft (fun x hx y hy hxy => ?_) fun x hx y hy hxy => ?_
    · have hxa : x ≠ a := by
        -- `a` is the last node of the walk, and what is behind it is `b`
        rintro rfl
        have hyb : y = b := Option.some.inj (hxy.symm.trans hab.1)
        subst hyb
        grind
      have hxe : x ≠ e := by grind
      simpa [NodeLinks.setNext, NodeLinks.setPrev, hxa, hxe] using hxy
    · have hyb : y ≠ b := by grind
      have hye : y ≠ e := by grind
      simpa [NodeLinks.setNext, NodeLinks.setPrev, hyb, hye] using hxy
  · simp [Adjacent, NodeLinks.setNext, NodeLinks.setPrev, hbe.symm]
  · simp [Adjacent, NodeLinks.setNext, NodeLinks.setPrev, hae.symm]
  · refine linked_congr hright (fun x hx y hy hxy => ?_) fun x hx y hy hxy => ?_
    · have hxa : x ≠ a := by grind
      have hxe : x ≠ e := by grind
      simpa [NodeLinks.setNext, NodeLinks.setPrev, hxa, hxe] using hxy
    · have hyb : y ≠ b := by
        rintro rfl
        have hxa : x = a := Option.some.inj (hxy.symm.trans hab.2)
        subst hxa
        grind
      have hye : y ≠ e := by grind
      simpa [NodeLinks.setNext, NodeLinks.setPrev, hyb, hye] using hxy

/-- What `pushBack` does to a list. -/
structure Pushed (m m' : NodeLinks ν) (L : ListEnds ν) (xs : List ν) (e : ν) : Prop where
  isList : IsList m' L (xs ++ [e])
  outside : ∀ x, x ∉ L.nodes (xs ++ [e]) → SameAt m m' x

theorem IsList.pushBack (h : IsList m L xs) (he : e ∉ L.nodes xs) :
    ∃ m', m.pushBack L e = some m' ∧ Pushed m m' L xs e := by
  obtain ⟨l, a, b, r, hl, hr, hb⟩ := exists_neighbours L xs []
  obtain ⟨rfl, rfl⟩ : b = L.tail ∧ r = [] := by simpa [eq_comm] using hr
  have hnodes : L.nodes xs = l ++ [a, L.tail] := by
    rw [ListEnds.nodes, ← List.cons_append, hl, List.append_assoc, List.singleton_append]
  have hnodes' : L.nodes (xs ++ [e]) = l ++ [a, e, L.tail] := by
    calc L.nodes (xs ++ [e])
        = (L.head :: xs) ++ [e, L.tail] := by simp [ListEnds.nodes]
      _ = l ++ [a, e, L.tail] := by simp [hl]
  have hlinked := h.linked
  have hnd := h.nodup
  rw [hnodes] at hlinked hnd he
  obtain ⟨-, hab, -⟩ := List.isChain_append_cons_cons.1 hlinked
  refine ⟨(((m.setPrev e (some a)).setNext e (some L.tail)).setNext a (some e)).setPrev L.tail
    (some e), ?_, ⟨?_, ?_, ?_, ?_⟩, ?_⟩
  · rw [NodeLinks.pushBack, NodeLinks.insert, hab.2]
  · rw [hnodes']
    have hperm : (l ++ [a, e, L.tail]).Perm (e :: (l ++ [a, L.tail])) := by
      simpa using @List.perm_middle _ e (l ++ [a]) [L.tail]
    exact hperm.nodup_iff.2 (List.nodup_cons.2 ⟨he, hnd⟩)
  · rw [hnodes']
    exact linked_link hlinked hnd he
  · have hhe : L.head ≠ e := by grind
    have hht : L.head ≠ L.tail := fun heq => by simpa [heq, hab.2] using h.before
    simpa [NodeLinks.setNext, NodeLinks.setPrev, hhe, hht] using h.before
  · have hte : L.tail ≠ e := by grind
    have hta : L.tail ≠ a := fun heq => by simpa [heq, hab.1] using h.behind
    simpa [NodeLinks.setNext, NodeLinks.setPrev, hte, hta] using h.behind
  · intro x hx
    rw [hnodes'] at hx
    have hxa : x ≠ a := by grind
    have hxe : x ≠ e := by grind
    have hxt : x ≠ L.tail := by grind
    exact ⟨by simp [NodeLinks.setNext, NodeLinks.setPrev, hxa, hxe],
      by simp [NodeLinks.setNext, NodeLinks.setPrev, hxt, hxe]⟩

end Lists

end Lib
end Pintos
