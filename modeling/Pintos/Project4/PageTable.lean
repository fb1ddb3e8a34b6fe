import Pintos.Lib.Execution
import Pintos.Project4.Page

/-!
# PageTable — is the supplemental page table a map keyed by page?

`insert_vme` and `delete_vme` hand the table pointers to `elem` members, so that it is a map from
`vaddr` to entries.  `find_vme` hands it a pointer to the member `vaddr` of its probe, and the
callbacks read the key of the probe 32 bytes below the probe.
-/

namespace Pintos
namespace Project4

open Lib Userprog Function

/-! ## Runs -/

/-- The memory and one process's `vm`. -/
structure VmState (H : HashTable Ptr) where
  mem : Memory
  vm : H.Table

inductive VmAct
  | write (p : VmePtr) (e : VmEntry)
  | insert (p : VmePtr)
  | delete (p : VmePtr)

section Runs

variable {H : HashTable Ptr} {hashInt : Word → ℕ}

def VmState.start (H : HashTable Ptr) (m : Memory) : VmState H := ⟨m, vmInit H⟩

def vmStep (hashInt : Word → ℕ) (a : VmAct) (s : VmState H) : Option (VmState H) :=
  match a with
  | .write p e => some { s with mem := s.mem.write (.heap p) e }
  | .insert p => some { s with vm := (insertVme H hashInt s.mem s.vm p).1 }
  | .delete p => some { s with vm := (deleteVme H hashInt s.mem s.vm p).1 }

/-- An entry is filled in before it is inserted; the `vaddr` of a linked entry is not changed. -/
def KeepsVaddr (s : VmState H) : VmAct → Prop
  | .write p e => elemOf p ∈ H.elems s.vm → e.vaddr = (s.mem.entry (.heap p)).vaddr
  | _ => True

end Runs

/-! ## The map that the table stands for -/

/-- The entry of each page. -/
abbrev PageMap := Word → Option VmePtr

def PageMap.insert (f : PageMap) (u : Word) (p : VmePtr) : PageMap :=
  if f u = none then update f u (some p) else f

def PageMap.delete (f : PageMap) (u : Word) : PageMap := update f u none

section Map

variable {H : HashTable Ptr} {hashInt : Word → ℕ}

def pageMapStep (f : PageMap) (e : VmState H × VmAct) : PageMap :=
  match e.2 with
  | .write _ _ => f
  | .insert p => f.insert (e.1.mem.entry (.heap p)).vaddr p
  | .delete p => f.delete (e.1.mem.entry (.heap p)).vaddr

/-- The entries inserted and not yet deleted in a run. -/
def pageMapOf (tr : List (VmState H × VmAct)) : PageMap :=
  tr.foldl pageMapStep fun _ => none

@[simp] theorem pageMapOf_nil : pageMapOf ([] : List (VmState H × VmAct)) = fun _ => none := rfl

@[simp] theorem pageMapOf_snoc (tr : List (VmState H × VmAct)) (e : VmState H × VmAct) :
    pageMapOf (tr ++ [e]) = pageMapStep (pageMapOf tr) e := by
  simp [pageMapOf, List.foldl_append]

/-- The table stands for the map `f`. -/
structure Represents (hashInt : Word → ℕ) (s : VmState H) (f : PageMap) : Prop where
  keyed : H.Keyed hashInt s.mem.key s.vm
  elem : ∀ e ∈ H.elems s.vm, ∃ p, e = elemOf p
  entry : ∀ u p, f u = some p ↔ elemOf p ∈ H.elems s.vm ∧ (s.mem.entry (.heap p)).vaddr = u

namespace Represents

variable {s s' : VmState H} {f : PageMap} {p : VmePtr} {u : Word}

theorem none_iff (h : Represents hashInt s f) :
    f u = none ↔ ∀ e ∈ H.elems s.vm, s.mem.key e ≠ u := by
  rw [Option.eq_none_iff_forall_ne_some]
  constructor
  · -- an element of that address would be the entry of the page
    intro hno e he hkey
    obtain ⟨p, rfl⟩ := h.elem e he
    exact hno p ((h.entry u p).2 ⟨he, by rw [← hkey, key_elemOf]⟩)
  · intro hno p hp
    obtain ⟨he, hu⟩ := (h.entry u p).1 hp
    exact hno _ he (by rw [key_elemOf, hu])

theorem start (m : Memory) : Represents hashInt (VmState.start H m) fun _ => none := by
  have hempty : H.elems (VmState.start H m).vm = ∅ := H.elems_init
  refine ⟨HashTable.Keyed.init, ?_, ?_⟩
  · intro e he
    rw [hempty] at he
    cases he
  · intro u p
    rw [hempty]
    simp

theorem write (h : Represents hashInt s f) {e : VmEntry} (hP : KeepsVaddr s (.write p e)) :
    Represents hashInt { s with mem := s.mem.write (.heap p) e } f := by
  -- the entries that are linked keep their `vaddr`, so the order of the table stays
  have hentry : ∀ q, elemOf q ∈ H.elems s.vm →
      ((s.mem.write (.heap p) e).entry (.heap q)).vaddr = (s.mem.entry (.heap q)).vaddr := by
    intro q hq
    by_cases hqp : q = p
    · subst hqp
      rw [write_entry_self]
      exact hP hq
    · rw [write_entry_of_ne (by simpa using hqp)]
  refine ⟨h.keyed.congr ?_, h.elem, ?_⟩
  · intro a ha
    obtain ⟨q, rfl⟩ := h.elem a ha
    rw [key_elemOf, key_elemOf, hentry q ha]
  · intro u q
    rw [h.entry u q]
    constructor
    · rintro ⟨hq, hu⟩
      exact ⟨hq, by rw [hentry q hq, hu]⟩
    · rintro ⟨hq, hu⟩
      exact ⟨hq, by rw [← hentry q hq, hu]⟩

/-! ### `insert_vme` and `delete_vme` -/

theorem insertVme_eq (s : VmState H) (p : VmePtr) :
    insertVme H hashInt s.mem s.vm p =
      ((H.insert (hashOf hashInt s.mem.key) (lessOf s.mem.key) s.vm (elemOf p)).1,
        (H.find (hashOf hashInt s.mem.key) (lessOf s.mem.key) s.vm (elemOf p)).isNone) := by
  rw [← H.insert_old]
  unfold insertVme
  rw [vmHashFunc_eq, vmLessFunc_eq]
  rcases H.insert (hashOf hashInt s.mem.key) (lessOf s.mem.key) s.vm (elemOf p) with ⟨vm', old⟩
  cases old with
  | none =>
      rfl
  | some o =>
      rfl

theorem deleteVme_eq (s : VmState H) (p : VmePtr) :
    deleteVme H hashInt s.mem s.vm p =
      ((H.delete (hashOf hashInt s.mem.key) (lessOf s.mem.key) s.vm (elemOf p)).1,
        (H.find (hashOf hashInt s.mem.key) (lessOf s.mem.key) s.vm (elemOf p)).isSome) := by
  rw [← H.delete_old]
  unfold deleteVme
  rw [vmHashFunc_eq, vmLessFunc_eq]
  rcases H.delete (hashOf hashInt s.mem.key) (lessOf s.mem.key) s.vm (elemOf p) with ⟨vm', old⟩
  cases old with
  | none =>
      rfl
  | some o =>
      rfl

/-- The table finds an element of that address exactly when the map has an entry. -/
theorem find_isNone (h : Represents hashInt s f) :
    (H.find (hashOf hashInt s.mem.key) (lessOf s.mem.key) s.vm (elemOf p)).isNone = true ↔
      f (s.mem.entry (.heap p)).vaddr = none := by
  rw [Option.isNone_iff_eq_none, h.keyed.find_eq_none, h.none_iff, key_elemOf]

theorem insertVme_eq_true (h : Represents hashInt s f) :
    (insertVme H hashInt s.mem s.vm p).2 = true ↔ f (s.mem.entry (.heap p)).vaddr = none := by
  rw [insertVme_eq]
  exact h.find_isNone

theorem deleteVme_eq_true (h : Represents hashInt s f) :
    (deleteVme H hashInt s.mem s.vm p).2 = true ↔ f (s.mem.entry (.heap p)).vaddr ≠ none := by
  rw [deleteVme_eq, ne_eq, ← h.find_isNone, Option.isNone_iff_eq_none]
  exact Option.isSome_iff_ne_none

theorem mem_insertVme (h : Represents hashInt s f) {e : Ptr} :
    e ∈ H.elems (insertVme H hashInt s.mem s.vm p).1 ↔
      e ∈ H.elems s.vm ∨ e = elemOf p ∧ f (s.mem.entry (.heap p)).vaddr = none := by
  rw [insertVme_eq, h.none_iff]
  simpa only [key_elemOf] using h.keyed.mem_insert (e := elemOf p) (o := e)

theorem mem_deleteVme (h : Represents hashInt s f) {e : Ptr} :
    e ∈ H.elems (deleteVme H hashInt s.mem s.vm p).1 ↔
      e ∈ H.elems s.vm ∧ s.mem.key e ≠ (s.mem.entry (.heap p)).vaddr := by
  rw [deleteVme_eq]
  simpa only [key_elemOf] using h.keyed.mem_delete (e := elemOf p) (o := e)

theorem insert (h : Represents hashInt s f) (p : VmePtr) :
    Represents hashInt { s with vm := (insertVme H hashInt s.mem s.vm p).1 }
      (f.insert (s.mem.entry (.heap p)).vaddr p) := by
  refine ⟨?_, ?_, ?_⟩
  · rw [insertVme_eq]
    exact h.keyed.insert
  · intro e he
    rcases h.mem_insertVme.1 he with he | ⟨rfl, -⟩
    · exact h.elem e he
    · exact ⟨p, rfl⟩
  · intro u q
    rw [h.mem_insertVme, elemOf_injective.eq_iff]
    by_cases hnone : f (s.mem.entry (.heap p)).vaddr = none
    · simp only [PageMap.insert, hnone, if_true, and_true]
      by_cases hu : u = (s.mem.entry (.heap p)).vaddr
      · subst hu
        -- nothing in the table has this address
        have hno : ¬ (elemOf q ∈ H.elems s.vm ∧
            (s.mem.entry (.heap q)).vaddr = (s.mem.entry (.heap p)).vaddr) := by
          rw [← h.entry, hnone]
          simp
        rw [update_self, Option.some.injEq]
        constructor
        · rintro rfl
          exact ⟨Or.inr rfl, rfl⟩
        · rintro ⟨hq | hq, hv⟩
          · exact absurd ⟨hq, hv⟩ hno
          · exact hq.symm
      · rw [update_of_ne hu, h.entry]
        constructor
        · rintro ⟨hq, hv⟩
          exact ⟨Or.inl hq, hv⟩
        · rintro ⟨hq | rfl, hv⟩
          · exact ⟨hq, hv⟩
          · exact absurd hv.symm hu
    · -- the page has an entry, and the table is left as it is
      simp only [PageMap.insert, hnone, if_false, and_false, or_false]
      exact h.entry u q

theorem delete (h : Represents hashInt s f) (p : VmePtr) :
    Represents hashInt { s with vm := (deleteVme H hashInt s.mem s.vm p).1 }
      (f.delete (s.mem.entry (.heap p)).vaddr) := by
  refine ⟨?_, ?_, ?_⟩
  · rw [deleteVme_eq]
    exact h.keyed.delete
  · intro e he
    exact h.elem e (h.mem_deleteVme.1 he).1
  · intro u q
    rw [h.mem_deleteVme, key_elemOf, PageMap.delete]
    by_cases hu : u = (s.mem.entry (.heap p)).vaddr
    · subst hu
      rw [update_self]
      constructor
      · intro hq
        cases hq
      · rintro ⟨⟨-, hne⟩, hv⟩
        exact absurd hv hne
    · rw [update_of_ne hu, h.entry]
      constructor
      · rintro ⟨hq, hv⟩
        exact ⟨⟨hq, fun hv' => hu (hv ▸ hv')⟩, hv⟩
      · rintro ⟨⟨hq, -⟩, hv⟩
        exact ⟨hq, hv⟩

theorem step (h : Represents hashInt s f) {a : VmAct} (hP : KeepsVaddr s a)
    (hs : vmStep hashInt a s = some s') : Represents hashInt s' (pageMapStep f (s, a)) := by
  cases a with
  | write p e =>
      cases hs
      exact h.write hP
  | insert p =>
      cases hs
      exact h.insert p
  | delete p =>
      cases hs
      exact h.delete p

/-- In every run the table stands for the entries inserted and not yet deleted. -/
theorem of_exec {m : Memory} {tr : List (VmState H × VmAct)}
    (hrun : Exec (vmStep hashInt) (VmState.start H m) tr s) (hP : ∀ e ∈ tr, KeepsVaddr e.1 e.2) :
    Represents hashInt s (pageMapOf tr) := by
  refine hrun.history (I := fun tr s => Represents hashInt s (pageMapOf tr)) (start m) ?_ hP
  intro tr s a s' h ha hs
  rw [pageMapOf_snoc]
  exact h.step ha hs

end Represents

/-! ## `find_vme` -/

/-- The word that the callbacks take for the `vaddr` of the probe. -/
def Memory.probeWord (m : Memory) : Word := m.around .probe (-32)

/-- `find_vme` returns the entry of the page that holds `a`. -/
def FindsEntry (hashInt : Word → ℕ) (s : VmState H) (f : PageMap) (a : Word) : Prop :=
  findVme H hashInt s.mem s.vm a = (f (pgRoundDown a)).map fun p => ⟨.heap p, 0⟩

/-- The word below the probe is the page of `a`, or neither of the two addresses has an entry. -/
def ProbeHits (s : VmState H) (f : PageMap) (a : Word) : Prop :=
  s.mem.probeWord = pgRoundDown a ∨ f s.mem.probeWord = none ∧ f (pgRoundDown a) = none

/-- The three functions work on the table as on the map `f`. -/
structure IsMap (hashInt : Word → ℕ) (s : VmState H) (f : PageMap) (a : Word) : Prop where
  find : FindsEntry hashInt s f a
  insert_false : ∀ p, (insertVme H hashInt s.mem s.vm p).2 = false ↔
    f (s.mem.entry (.heap p)).vaddr ≠ none
  insert_unchanged : ∀ p, (insertVme H hashInt s.mem s.vm p).2 = false →
    H.elems (insertVme H hashInt s.mem s.vm p).1 = H.elems s.vm
  delete_true : ∀ p, (deleteVme H hashInt s.mem s.vm p).2 = true ↔
    ∃ e ∈ H.elems s.vm, H.elems (deleteVme H hashInt s.mem s.vm p).1 = H.elems s.vm \ {e}
  delete_unchanged : ∀ p, (deleteVme H hashInt s.mem s.vm p).2 = false →
    H.elems (deleteVme H hashInt s.mem s.vm p).1 = H.elems s.vm

namespace Represents

variable {s : VmState H} {f : PageMap} {p : VmePtr}

/-- It returns the entry of the page that the word below the probe names. -/
theorem findVme_eq (h : Represents hashInt s f) (a : Word) :
    findVme H hashInt s.mem s.vm a = (f s.mem.probeWord).map fun p => ⟨.heap p, 0⟩ := by
  -- writing the probe changes no key in the table
  have hkeyed : H.Keyed hashInt
      (s.mem.write .probe { s.mem.entry .probe with vaddr := pgRoundDown a }).key s.vm := by
    refine h.keyed.congr fun e he => ?_
    obtain ⟨p, rfl⟩ := h.elem e he
    rw [key_elemOf, key_elemOf, write_entry_of_ne (by simp)]
  have hsome : ∀ p, f s.mem.probeWord = some p →
      findVme H hashInt s.mem s.vm a = some ⟨.heap p, 0⟩ := by
    intro p hp
    obtain ⟨he, hu⟩ := (h.entry _ p).1 hp
    -- the key that the callbacks read off the probe is the word below it
    have hfind := hkeyed.find_eq_some.2
      ⟨he, show _ = Memory.key _ ⟨.probe, VADDR_OFFSET⟩ from ?_⟩
    · simp only [findVme, vmHashFunc_eq, vmLessFunc_eq, hfind, hashEntry_elemOf]
    · rw [key_elemOf, key_probe, write_entry_of_ne (by simp), write_around]
      exact hu
  have hnone : f s.mem.probeWord = none → findVme H hashInt s.mem s.vm a = none := by
    intro hno
    have hfind := hkeyed.find_eq_none.2
      (show ∀ o ∈ _, _ ≠ Memory.key _ ⟨.probe, VADDR_OFFSET⟩ from ?_)
    · simp only [findVme, vmHashFunc_eq, vmLessFunc_eq, hfind]
    · intro o ho
      obtain ⟨p, rfl⟩ := h.elem o ho
      rw [key_elemOf, key_probe, write_entry_of_ne (by simp), write_around]
      have hkey := h.none_iff.1 hno _ ho
      rwa [key_elemOf] at hkey
  cases hp : f s.mem.probeWord with
  | none =>
      exact hnone hp
  | some p =>
      exact hsome p hp

/-- Distinct pages have distinct entries. -/
theorem eq_of_eq_some (h : Represents hashInt s f) {u v : Word} (hu : f u = some p)
    (hv : f v = some p) : u = v := by
  rw [← ((h.entry u p).1 hu).2, ← ((h.entry v p).1 hv).2]

theorem findsEntry_iff (h : Represents hashInt s f) (a : Word) :
    FindsEntry hashInt s f a ↔ ProbeHits s f a := by
  have hinj : Injective fun p : VmePtr => (⟨.heap p, 0⟩ : Ptr) := by
    intro p q hpq
    simpa using hpq
  rw [FindsEntry, h.findVme_eq, (Option.map_injective hinj).eq_iff]
  constructor
  · -- an entry has one address, so finding it means that the word is this address
    intro heq
    cases hp : f s.mem.probeWord with
    | none =>
        exact Or.inr ⟨hp, heq ▸ hp⟩
    | some p =>
        exact Or.inl (h.eq_of_eq_some hp (heq ▸ hp))
  · rintro (heq | ⟨hp, ha⟩)
    · rw [heq]
    · rw [hp, ha]

theorem elems_insertVme (h : Represents hashInt s f)
    (hp : f (s.mem.entry (.heap p)).vaddr ≠ none) :
    H.elems (insertVme H hashInt s.mem s.vm p).1 = H.elems s.vm := by
  ext e
  rw [h.mem_insertVme]
  simp [hp]

theorem elems_deleteVme_of_none (h : Represents hashInt s f)
    (hp : f (s.mem.entry (.heap p)).vaddr = none) :
    H.elems (deleteVme H hashInt s.mem s.vm p).1 = H.elems s.vm := by
  ext e
  rw [h.mem_deleteVme]
  exact ⟨fun he => he.1, fun he => ⟨he, h.none_iff.1 hp e he⟩⟩

theorem elems_deleteVme_of_some (h : Represents hashInt s f) {q : VmePtr}
    (hq : f (s.mem.entry (.heap p)).vaddr = some q) :
    H.elems (deleteVme H hashInt s.mem s.vm p).1 = H.elems s.vm \ {elemOf q} := by
  obtain ⟨hmem, hkey⟩ := (h.entry _ q).1 hq
  ext e
  rw [h.mem_deleteVme]
  refine and_congr_right fun he => not_congr ?_
  rw [← hkey, ← key_elemOf]
  exact h.keyed.inj.eq_iff he hmem

end Represents

/-- After every sequence of `insert_vme` and `delete_vme`, the table is a map keyed by page for the
look-up of `a` exactly when the word below the probe happens to lead to the right entry. -/
theorem page_table_is_map_iff {m : Memory} {tr : List (VmState H × VmAct)} {s : VmState H}
    (hrun : Exec (vmStep hashInt) (VmState.start H m) tr s)
    (hP : ∀ e ∈ tr, KeepsVaddr e.1 e.2) (a : Word) :
    IsMap hashInt s (pageMapOf tr) a ↔ ProbeHits s (pageMapOf tr) a := by
  have h : Represents hashInt s (pageMapOf tr) := Represents.of_exec hrun hP
  constructor
  · intro hmap
    exact (h.findsEntry_iff a).1 hmap.find
  · intro hhits
    refine ⟨(h.findsEntry_iff a).2 hhits, ?_, ?_, ?_, ?_⟩
    · intro p
      rw [← Bool.not_eq_true, h.insertVme_eq_true]
    · intro p hfalse
      rw [← Bool.not_eq_true, h.insertVme_eq_true] at hfalse
      exact h.elems_insertVme hfalse
    · intro p
      rw [h.deleteVme_eq_true]
      constructor
      · intro hne
        obtain ⟨q, hq⟩ := Option.ne_none_iff_exists'.1 hne
        exact ⟨elemOf q, ((h.entry _ q).1 hq).1, h.elems_deleteVme_of_some hq⟩
      · rintro ⟨e, he, hdel⟩ hnone
        rw [h.elems_deleteVme_of_none hnone] at hdel
        -- nothing can be taken away from a table that has no such entry
        have hnot : e ∉ H.elems s.vm := by
          rw [hdel]
          simp
        exact hnot he
    · intro p hfalse
      rw [← Bool.not_eq_true, h.deleteVme_eq_true, not_not] at hfalse
      exact h.elems_deleteVme_of_none hfalse

end Map

/-! ### One entry, and two possible words below the probe -/

/-- The first page of a program's text. -/
def textEntry : VmEntry :=
  { type := VM_BIN, vaddr := 0x08048000, writable := false, isLoaded := false, file := 0,
    offset := 0, readBytes := 4096, zeroBytes := 0 }

/-- A memory in which every stray word is `w`. -/
def strayMemory (w : Word) : Memory := ⟨fun _ => { textEntry with vaddr := 0 }, fun _ _ => w⟩

def textActs : List VmAct := [.write 0 textEntry, .insert 0]

def textStart (w : Word) : VmState (buckets Ptr 4) := .start _ (strayMemory w)

def textSystem (w : Word) : VmState (buckets Ptr 4) :=
  (runAll (vmStep BitVec.toNat) textActs (textStart w)).get (by rfl)

theorem textExec (w : Word) :
    Exec (vmStep BitVec.toNat) (textStart w) (trace (vmStep BitVec.toNat) textActs (textStart w))
      (textSystem w) :=
  Exec.of_runAll (Option.some_get _).symm

theorem text_keepsVaddr (w : Word) :
    ∀ e ∈ trace (vmStep BitVec.toNat) textActs (textStart w), KeepsVaddr e.1 e.2 := by
  intro e he
  have hempty : (buckets Ptr 4).elems (textStart w).vm = ∅ := (buckets Ptr 4).elems_init
  have he' : e ∈ [(textStart w, VmAct.write 0 textEntry), (_, VmAct.insert 0)] := he
  -- the entry is written while the table is empty
  rcases List.mem_cons.1 he' with rfl | he'
  · intro hmem
    rw [hempty] at hmem
    cases hmem
  · rw [List.mem_singleton.1 he']
    trivial

/-- The stray word is the page by chance. -/
theorem page_table_is_map_text :
    IsMap BitVec.toNat (textSystem 0x08048000)
      (pageMapOf (trace (vmStep BitVec.toNat) textActs (textStart 0x08048000))) 0x08048123 :=
  (page_table_is_map_iff (textExec 0x08048000) (text_keepsVaddr _) 0x08048123).2
    (Or.inl (by decide +kernel))

/-- The stray word is zero, and the entry is not found. -/
theorem page_table_not_map :
    ¬ ∀ (H : HashTable Ptr) (hashInt : Word → ℕ) (m : Memory) (tr : List (VmState H × VmAct))
        (s : VmState H), Exec (vmStep hashInt) (VmState.start H m) tr s →
        (∀ e ∈ tr, KeepsVaddr e.1 e.2) → ∀ a, IsMap hashInt s (pageMapOf tr) a := by
  intro hall
  have hmap := hall _ _ _ _ _ (textExec 0) (text_keepsVaddr 0) 0x08048123
  have hlost : findVme _ BitVec.toNat (textSystem 0).mem (textSystem 0).vm 0x08048123 = none := by
    decide +kernel
  have hthere : pageMapOf (trace (vmStep BitVec.toNat) textActs (textStart 0))
      (pgRoundDown 0x08048123) = some 0 := by
    decide +kernel
  have hfind := hmap.find
  rw [FindsEntry, hlost, hthere] at hfind
  cases hfind

end Project4
end Pintos
