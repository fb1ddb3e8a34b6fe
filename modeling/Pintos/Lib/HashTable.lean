import Mathlib.Data.Set.Function
import Mathlib.Order.Lattice
import Mathlib.Data.List.Basic

/-!
# HashTable — tables that identify their elements by a hash and an order

An intrusive hash table files pointers to elements and is handed a hash and a comparison of elements
with every call: it has no notion of a key.  Two elements are the same to it when their hashes agree
and neither compares below the other.

* `HashTable E`: the operations of such a table and what a caller may rely on;
* `buckets n`: an implementation with `n` buckets;
* `Keyed h key t`: no two elements of `t` have the same key, where the hash is a hash of the key and
  the comparison is the order of the keys;
* `Keyed.find_eq_some`, `Keyed.find_eq_none`, `Keyed.mem_insert`, `Keyed.mem_delete`: a keyed table
  is a map from keys to elements.
-/

namespace Pintos
namespace Lib

/-! ## The interface -/

section Interface

variable {E : Type}

/-- Elements of which neither compares below the other have the same hash. -/
def Compatible (hash : E → ℕ) (less : E → E → Bool) : Prop :=
  ∀ a b, less a b = false → less b a = false → hash a = hash b

/-- The two elements are the same to the table. -/
def Same (hash : E → ℕ) (less : E → E → Bool) (a b : E) : Prop :=
  hash a = hash b ∧ less a b = false ∧ less b a = false

/-- `insert` and `delete` also return the element that they have found in the table. -/
structure HashTable (E : Type) where
  Table : Type
  elems : Table → Set E
  /-- Every element lies where this hash puts it. -/
  Filed : (E → ℕ) → Table → Prop
  init : Table
  find : (E → ℕ) → (E → E → Bool) → Table → E → Option E
  insert : (E → ℕ) → (E → E → Bool) → Table → E → Table × Option E
  delete : (E → ℕ) → (E → E → Bool) → Table → E → Table × Option E
  elems_init : elems init = ∅
  filed_init : ∀ hash, Filed hash init
  filed_congr : ∀ {hash hash' t}, (∀ e ∈ elems t, hash e = hash' e) → Filed hash t → Filed hash' t
  find_some : ∀ {hash less t e o}, Compatible hash less → Filed hash t →
    find hash less t e = some o → o ∈ elems t ∧ Same hash less e o
  find_none : ∀ {hash less t e}, Compatible hash less → Filed hash t →
    find hash less t e = none → ∀ o ∈ elems t, ¬ Same hash less e o
  insert_old : ∀ hash less t e, (insert hash less t e).2 = find hash less t e
  insert_filed : ∀ {hash less t e}, Filed hash t → Filed hash (insert hash less t e).1
  insert_found : ∀ {hash less t e o}, find hash less t e = some o →
    elems (insert hash less t e).1 = elems t
  insert_absent : ∀ {hash less t e}, find hash less t e = none →
    elems (insert hash less t e).1 = Set.insert e (elems t)
  delete_old : ∀ hash less t e, (delete hash less t e).2 = find hash less t e
  delete_filed : ∀ {hash less t e}, Filed hash t → Filed hash (delete hash less t e).1
  delete_found : ∀ {hash less t e o}, Filed hash t → find hash less t e = some o →
    elems (delete hash less t e).1 = elems t \ {o}
  delete_absent : ∀ {hash less t e}, find hash less t e = none →
    elems (delete hash less t e).1 = elems t

end Interface

/-! ## An implementation -/

section Buckets

variable {E : Type}

/-- The first element of the bucket that neither compares below `e` nor above it. -/
def findBucket (less : E → E → Bool) (bucket : List E) (e : E) : Option E :=
  bucket.find? fun o => !less e o && !less o e

def bucketsFind (n : ℕ) (hash : E → ℕ) (less : E → E → Bool) (t : ℕ → List E) (e : E) : Option E :=
  findBucket less (t (hash e % n)) e

def bucketsInsert (n : ℕ) (hash : E → ℕ) (less : E → E → Bool) (t : ℕ → List E) (e : E) :
    (ℕ → List E) × Option E :=
  match bucketsFind n hash less t e with
  | some o => (t, some o)
  | none => (Function.update t (hash e % n) (e :: t (hash e % n)), none)

def bucketsDelete [DecidableEq E] (n : ℕ) (hash : E → ℕ) (less : E → E → Bool) (t : ℕ → List E) (e : E) :
    (ℕ → List E) × Option E :=
  match bucketsFind n hash less t e with
  | some o => (fun b => (t b).filter (· ≠ o), some o)
  | none => (t, none)

theorem bucketsFind_some {n : ℕ} {hash : E → ℕ} {less : E → E → Bool} {t : ℕ → List E} {e o : E}
    (h : bucketsFind n hash less t e = some o) :
    o ∈ t (hash e % n) ∧ less e o = false ∧ less o e = false := by
  have hmem : o ∈ t (hash e % n) := List.mem_of_find?_eq_some h
  have hsame := List.find?_some h
  simp only [Bool.and_eq_true, Bool.not_eq_true'] at hsame
  exact ⟨hmem, hsame⟩

/-- `n` buckets, each of them a list; an element is filed in the bucket of its hash. -/
def buckets (E : Type) [DecidableEq E] (n : ℕ) : HashTable E where
  Table := ℕ → List E
  elems t := {e | ∃ b, e ∈ t b}
  Filed hash t := ∀ b, ∀ e ∈ t b, hash e % n = b
  init := fun _ => []
  find := bucketsFind n
  insert := bucketsInsert n
  delete := bucketsDelete n
  elems_init := by
    ext e
    simp
  filed_init := by
    intro hash b e he
    cases he
  filed_congr := by
    intro hash hash' t hcongr hfiled b e he
    rw [← hcongr e ⟨b, he⟩]
    exact hfiled b e he
  find_some := by
    intro hash less t e o hcompat _ h
    obtain ⟨hmem, hlt, hgt⟩ := bucketsFind_some h
    exact ⟨⟨_, hmem⟩, hcompat e o hlt hgt, hlt, hgt⟩
  find_none := by
    rintro hash less t e - hfiled h o ⟨b, ho⟩ ⟨hhash, hlt, hgt⟩
    have hb : b = hash e % n := by rw [hhash, hfiled b o ho]
    have hno := List.find?_eq_none.1 h o (hb ▸ ho)
    simp [hlt, hgt] at hno
  insert_old := by
    intro hash less t e
    unfold bucketsInsert
    cases h : bucketsFind n hash less t e with
    | none =>
        rfl
    | some o =>
        rfl
  insert_filed := by
    intro hash less t e hfiled b o ho
    unfold bucketsInsert at ho
    cases h : bucketsFind n hash less t e with
    | some o' =>
        rw [h] at ho
        exact hfiled b o ho
    | none =>
        rw [h] at ho
        by_cases hb : b = hash e % n
        · subst hb
          simp only [Function.update_self, List.mem_cons] at ho
          rcases ho with rfl | ho
          · rfl
          · exact hfiled _ o ho
        · simp only [Function.update_of_ne hb] at ho
          exact hfiled b o ho
  insert_found := by
    intro hash less t e o h
    simp [bucketsInsert, h]
  insert_absent := by
    intro hash less t e h
    ext o
    simp only [bucketsInsert, h, Set.mem_ofPred_eq]
    show _ ↔ o = e ∨ ∃ b, o ∈ t b
    constructor
    · rintro ⟨b, ho⟩
      by_cases hb : b = hash e % n
      · subst hb
        simp only [Function.update_self, List.mem_cons] at ho
        exact ho.imp_right fun ho => ⟨_, ho⟩
      · simp only [Function.update_of_ne hb] at ho
        exact Or.inr ⟨b, ho⟩
    · rintro (rfl | ⟨b, ho⟩)
      · exact ⟨hash o % n, by simp⟩
      · refine ⟨b, ?_⟩
        by_cases hb : b = hash e % n
        · subst hb
          simp [ho]
        · simpa only [Function.update_of_ne hb] using ho
  delete_old := by
    intro hash less t e
    unfold bucketsDelete
    cases h : bucketsFind n hash less t e with
    | none =>
        rfl
    | some o =>
        rfl
  delete_filed := by
    intro hash less t e hfiled b o ho
    unfold bucketsDelete at ho
    cases h : bucketsFind n hash less t e with
    | none =>
        rw [h] at ho
        exact hfiled b o ho
    | some o' =>
        rw [h] at ho
        exact hfiled b o (List.mem_of_mem_filter ho)
  delete_found := by
    intro hash less t e o _ h
    ext o'
    simp [bucketsDelete, h]
  delete_absent := by
    intro hash less t e h
    simp [bucketsDelete, h]

end Buckets

/-! ## Keyed tables -/

section Keyed

variable {E K : Type} [LinearOrder K]

/-- The hash of the key. -/
def hashOf (h : K → ℕ) (key : E → K) (e : E) : ℕ := h (key e)

/-- The order of the keys. -/
def lessOf (key : E → K) (a b : E) : Bool := decide (key a < key b)

variable {h : K → ℕ} {key key' : E → K}

theorem lessOf_eq_false {a b : E} : lessOf key a b = false ↔ key b ≤ key a := by
  simp [lessOf]

theorem compatible_keyed : Compatible (hashOf h key) (lessOf key) := by
  intro a b hab hba
  have hkey : key a = key b := le_antisymm (lessOf_eq_false.1 hba) (lessOf_eq_false.1 hab)
  exact congrArg h hkey

theorem same_keyed {a b : E} : Same (hashOf h key) (lessOf key) a b ↔ key a = key b := by
  constructor
  · rintro ⟨-, hab, hba⟩
    exact le_antisymm (lessOf_eq_false.1 hba) (lessOf_eq_false.1 hab)
  · intro hkey
    exact ⟨congrArg h hkey, lessOf_eq_false.2 hkey.ge, lessOf_eq_false.2 hkey.le⟩

namespace HashTable

variable (H : HashTable E)

/-- The table is filed by a hash of the keys and no two of its elements have the same key. -/
structure Keyed (h : K → ℕ) (key : E → K) (t : H.Table) : Prop where
  filed : H.Filed (hashOf h key) t
  inj : Set.InjOn key (H.elems t)

namespace Keyed

variable {H} {t : H.Table} {e o : E}

omit [LinearOrder K] in
theorem init : H.Keyed h key H.init := by
  refine ⟨H.filed_init _, ?_⟩
  rw [H.elems_init]
  exact Set.injOn_empty key

omit [LinearOrder K] in
/-- The keys of elements outside the table may change. -/
theorem congr (ht : H.Keyed h key t) (hkey : ∀ e ∈ H.elems t, key e = key' e) :
    H.Keyed h key' t := by
  refine ⟨H.filed_congr (fun e he => congrArg h (hkey e he)) ht.filed, ?_⟩
  intro a ha b hb hab
  exact ht.inj ha hb (by rw [hkey a ha, hkey b hb, hab])

theorem find_eq_some (ht : H.Keyed h key t) :
    H.find (hashOf h key) (lessOf key) t e = some o ↔ o ∈ H.elems t ∧ key o = key e := by
  constructor
  · intro hfind
    obtain ⟨hmem, hsame⟩ := H.find_some compatible_keyed ht.filed hfind
    exact ⟨hmem, (same_keyed.1 hsame).symm⟩
  · rintro ⟨hmem, hkey⟩
    cases hfind : H.find (hashOf h key) (lessOf key) t e with
    | none =>
        exact absurd (same_keyed.2 hkey.symm) (H.find_none compatible_keyed ht.filed hfind o hmem)
    | some o' =>
        obtain ⟨hmem', hsame⟩ := H.find_some compatible_keyed ht.filed hfind
        have hkey' : key o' = key o := by rw [← same_keyed.1 hsame, hkey]
        rw [ht.inj hmem' hmem hkey']

theorem find_eq_none (ht : H.Keyed h key t) :
    H.find (hashOf h key) (lessOf key) t e = none ↔ ∀ o ∈ H.elems t, key o ≠ key e := by
  rw [Option.eq_none_iff_forall_ne_some]
  constructor
  · intro hno o ho hkey
    exact hno o (ht.find_eq_some.2 ⟨ho, hkey⟩)
  · intro hno o hfind
    obtain ⟨ho, hkey⟩ := ht.find_eq_some.1 hfind
    exact hno o ho hkey

theorem mem_insert (ht : H.Keyed h key t) :
    o ∈ H.elems (H.insert (hashOf h key) (lessOf key) t e).1 ↔
      o ∈ H.elems t ∨ (o = e ∧ ∀ o' ∈ H.elems t, key o' ≠ key e) := by
  cases hfind : H.find (hashOf h key) (lessOf key) t e with
  | none =>
      rw [H.insert_absent hfind]
      have hno := ht.find_eq_none.1 hfind
      change o = e ∨ o ∈ H.elems t ↔ _
      tauto
  | some o' =>
      rw [H.insert_found hfind]
      obtain ⟨hmem, hkey⟩ := ht.find_eq_some.1 hfind
      constructor
      · exact Or.inl
      · rintro (ho | ⟨-, hno⟩)
        · exact ho
        · exact absurd hkey (hno o' hmem)

theorem mem_delete (ht : H.Keyed h key t) :
    o ∈ H.elems (H.delete (hashOf h key) (lessOf key) t e).1 ↔
      o ∈ H.elems t ∧ key o ≠ key e := by
  cases hfind : H.find (hashOf h key) (lessOf key) t e with
  | none =>
      rw [H.delete_absent hfind]
      have hno := ht.find_eq_none.1 hfind
      exact ⟨fun ho => ⟨ho, hno o ho⟩, fun ho => ho.1⟩
  | some o' =>
      rw [H.delete_found ht.filed hfind]
      obtain ⟨hmem, hkey⟩ := ht.find_eq_some.1 hfind
      have hiff : o ∈ H.elems t → (o ≠ o' ↔ key o ≠ key e) := by
        intro ho
        rw [← hkey]
        exact (ht.inj.ne_iff ho hmem).symm
      exact and_congr_right hiff

theorem insert (ht : H.Keyed h key t) :
    H.Keyed h key (H.insert (hashOf h key) (lessOf key) t e).1 := by
  refine ⟨H.insert_filed ht.filed, ?_⟩
  intro a ha b hb hab
  rcases ht.mem_insert.1 ha with hat | ⟨hae, hno⟩
  · rcases ht.mem_insert.1 hb with hbt | ⟨hbe, hno⟩
    · exact ht.inj hat hbt hab
    · exact absurd (hbe ▸ hab) (hno a hat)
  · rcases ht.mem_insert.1 hb with hbt | ⟨hbe, -⟩
    · exact absurd (hae ▸ hab.symm) (hno b hbt)
    · rw [hae, hbe]

theorem delete (ht : H.Keyed h key t) :
    H.Keyed h key (H.delete (hashOf h key) (lessOf key) t e).1 := by
  refine ⟨H.delete_filed ht.filed, ?_⟩
  intro a ha b hb hab
  exact ht.inj (ht.mem_delete.1 ha).1 (ht.mem_delete.1 hb).1 hab

end Keyed

end HashTable

end Keyed

end Lib
end Pintos
