import Pintos.Lib.Execution
import Pintos.Project4.Load

/-!
# FileLifetime — does demand loading use a closed file?

The entries that `load_segment` registers keep the `struct file *` that `load` has opened, and
`load` passes it to `file_close` on its way out.  So every page that is brought in later is read
through a closed file.
-/

namespace Pintos
namespace Project4

open Lib Userprog Function

/-! ## Computations that have not failed -/

section Except

variable {α β : Type}

theorem except_bind_eq_ok {x : Except Fault α} {f : α → Except Fault β} {b : β} :
    x.bind f = .ok b ↔ ∃ a, x = .ok a ∧ f a = .ok b := by
  cases x with
  | error e =>
      simp [Except.bind]
  | ok a =>
      simp [Except.bind]

theorem except_map_eq_ok {x : Except Fault α} {f : α → β} {b : β} :
    x.map f = .ok b ↔ ∃ a, x = .ok a ∧ f a = b := by
  cases x with
  | error e =>
      simp [Except.map]
  | ok a =>
      simp [Except.map]

end Except

/-! ## What loading registers -/

section Grows

variable {S : Services} {H : HashTable Ptr} {hashInt : Word → ℕ} {file : FilePtr}
  {m m' m'' : Machine S H}

/-- No file has been opened or closed, and the new entries for pages of the executable carry
`file`. -/
structure Grows (file : FilePtr) (m m' : Machine S H) : Prop where
  log : m'.space.log = m.space.log
  heap : m.heap ⊆ m'.heap
  entry : ∀ p ∈ m.heap, m'.mem.entry (.heap p) = m.mem.entry (.heap p)
  bin : ∀ p ∈ m'.heap, p ∉ m.heap → (m'.mem.entry (.heap p)).type = VM_BIN →
    (m'.mem.entry (.heap p)).file = file

namespace Grows

theorem of_space {sp : Space S} (h : sp.log = m.space.log) :
    Grows file m { m with space := sp } :=
  ⟨h, subset_rfl, fun _ _ => rfl, fun _ hp hnew => absurd hp hnew⟩

theorem refl : Grows file m m := of_space rfl

theorem trans (h : Grows file m m') (h' : Grows file m' m'') : Grows file m m'' := by
  refine ⟨h'.log.trans h.log, h.heap.trans h'.heap, ?_, ?_⟩
  · intro p hp
    rw [h'.entry p (h.heap hp), h.entry p hp]
  · intro p hp hnew hbin
    by_cases hmid : p ∈ m'.heap
    · rw [h'.entry p hmid] at hbin ⊢
      exact h.bin p hmid hnew hbin
    · exact h'.bin p hp hmid hbin

/-- A fresh entry. -/
theorem of_malloc {sp : Space S} {p : VmePtr} {e : VmEntry} {vm : H.Table} (hp : p ∉ m.heap)
    (hlog : sp.log = m.space.log) (he : e.type = VM_BIN → e.file = file) :
    Grows file m ⟨sp, insert p m.heap, m.mem.write (.heap p) e, vm⟩ := by
  refine ⟨hlog, Finset.subset_insert p m.heap, ?_, ?_⟩
  · intro q hq
    have hne : q ≠ p := fun heq => hp (heq ▸ hq)
    exact write_entry_of_ne (by simpa using hne) e
  · intro q hq hnew hbin
    have hqp : q = p := (Finset.mem_insert.1 hq).resolve_right hnew
    subst hqp
    have hself : (m.mem.write (.heap q) e).entry (.heap q) = e := write_entry_self _ _
    change ((m.mem.write (.heap q) e).entry (.heap q)).type = VM_BIN at hbin
    change ((m.mem.write (.heap q) e).entry (.heap q)).file = file
    rw [hself] at hbin ⊢
    exact he hbin

end Grows

theorem registerPage_grows {writable : Bool} {ofs upage : Word} {r z : ℕ}
    (h : registerPage hashInt file writable ofs upage r z m = .ok m') : Grows file m m' := by
  unfold registerPage at h
  cases hp : S.malloc m.heap with
  | none =>
      rw [hp] at h
      cases h
  | some p =>
      rw [hp] at h
      cases h
      exact Grows.of_malloc (S.malloc_fresh hp) rfl fun _ => rfl

theorem loadSegmentLoop_grows {writable : Bool} {fuel : ℕ} :
    ∀ {ofs upage : Word} {r z : ℕ} {m m' : Machine S H},
    loadSegmentLoop hashInt file writable fuel ofs upage r z m = .ok m' → Grows file m m' := by
  induction fuel with
  | zero =>
      intro ofs upage r z m m' h
      cases h
      exact Grows.refl
  | succ fuel ih =>
      intro ofs upage r z m m' h
      unfold loadSegmentLoop at h
      split at h
      · -- one entry is registered, and the loop goes on
        obtain ⟨m₁, hreg, hloop⟩ := except_bind_eq_ok.1 h
        exact (registerPage_grows hreg).trans (ih hloop)
      · cases h
        exact Grows.refl

theorem loadSegment_grows {ofs upage : Word} {r z : ℕ} {writable b : Bool}
    (h : loadSegment hashInt file ofs upage r z writable m = .ok (m', b)) : Grows file m m' := by
  unfold loadSegment at h
  split at h
  · obtain ⟨m₁, hloop, he⟩ := except_map_eq_ok.1 h
    cases he
    have hseek : Grows file m { m with space := m.space.fileSeek file ofs } :=
      Grows.of_space rfl
    exact hseek.trans (loadSegmentLoop_grows hloop)
  · cases h

theorem installPage_log (sp : Space S) (u : Word) (k : FramePtr) (w : Bool) :
    (sp.installPage u k w).1.log = sp.log := by
  unfold Space.installPage
  split <;> rfl

theorem setupStack_grows {esp : Option Word} (h : setupStack hashInt m = .ok (m', esp)) :
    Grows file m m' := by
  unfold setupStack at h
  cases hk : S.palloc m.space.used with
  | none =>
      simp only [pallocGetPage_of_none hk] at h
      cases h
      exact Grows.refl
  | some k =>
      simp only [pallocGetPage_of_some hk] at h
      split at h
      · cases hp : S.malloc m.heap with
        | none =>
            rw [hp] at h
            cases h
        | some p =>
            rw [hp] at h
            cases h
            refine Grows.of_malloc (S.malloc_fresh hp) (installPage_log _ _ _ _) fun hbin => ?_
            exact absurd (show VM_ANON = VM_BIN from hbin) (by decide)
      · cases h
        exact Grows.of_space (installPage_log _ _ _ _)

theorem loadPhdr_grows {phdr : Elf32Phdr} {b : Bool}
    (h : loadPhdr hashInt file phdr m = .ok (m', b)) : Grows file m m' := by
  unfold loadPhdr at h
  split at h
  · exact loadSegment_grows h
  · cases h
    exact Grows.refl

theorem loadPhdrs_grows {n : ℕ} : ∀ {ofs : Word} {m m' : Machine S H} {b : Bool},
    loadPhdrs hashInt file n ofs m = .ok (m', b) → Grows file m m' := by
  induction n with
  | zero =>
      intro ofs m m' b h
      cases h
      exact Grows.refl
  | succ n ih =>
      intro ofs m m' b h
      unfold loadPhdrs at h
      -- the program header is read, which neither opens nor closes a file
      let sp := ((m.space.fileSeek file ofs).fileReadLocal file PHDR_SIZE).1
      have hread : Grows file m { m with space := sp } := Grows.of_space rfl
      split at h
      · cases h
        exact Grows.refl
      · dsimp only at h
        split at h
        · cases h
          exact hread
        · split at h
          · cases h
            exact hread
          · obtain ⟨⟨m₁, b₁⟩, hp, hrest⟩ := except_bind_eq_ok.1 h
            -- a segment may have been loaded; other headers are skipped
            have hphdr : Grows file { m with space := sp } m₁ := by
              split at hp
              · exact loadPhdr_grows hp
              · cases hp
                exact Grows.refl
            split at hrest
            · exact (hread.trans hphdr).trans (ih hrest)
            · cases hrest
              exact hread.trans hphdr

theorem loadImage_grows {r : Option (Word × Word)}
    (h : loadImage hashInt file m = .ok (m', r)) : Grows file m m' := by
  unfold loadImage at h
  let sp := (m.space.fileReadLocal file EHDR_SIZE).1
  have hread : Grows file m { m with space := sp } := Grows.of_space rfl
  dsimp only at h
  split at h
  · cases h
    exact hread
  · obtain ⟨⟨m₁, b⟩, hphdrs, hrest⟩ := except_bind_eq_ok.1 h
    -- behind the segments the stack is set up, whose entry is not of the executable
    have hloop := hread.trans (loadPhdrs_grows hphdrs)
    split at hrest
    · obtain ⟨s, hstack, he⟩ := except_map_eq_ok.1 hrest
      cases he
      exact hloop.trans (setupStack_grows hstack)
    · cases hrest
      exact hloop

/-- A successful `load` has opened one file, registered it in its entries and closed it. -/
theorem load_grows {name : List Byte} {r : Word × Word}
    (h : load hashInt name m = .ok (m', some r)) :
    ∃ file, m'.space.log = m.space.log ++ [.opened file, .closed file] ∧ m.heap ⊆ m'.heap ∧
      ∀ p ∈ m'.heap, p ∉ m.heap → (m'.mem.entry (.heap p)).type = VM_BIN →
        (m'.mem.entry (.heap p)).file = file := by
  unfold load at h
  split at h
  · cases h
  · dsimp only [Space.filesysOpen] at h
    rcases hopen : S.filesysOpen m.space.files name with ⟨files', opened⟩
    rw [hopen] at h
    cases opened with
    | none =>
        cases h
    | some file =>
        obtain ⟨⟨m₂, r₂⟩, himage, he⟩ := except_map_eq_ok.1 h
        cases he
        have hgrows := loadImage_grows himage
        refine ⟨file, ?_, hgrows.heap, hgrows.bin⟩
        simp only [Space.fileClose, hgrows.log, List.append_assoc, List.cons_append,
          List.nil_append]

end Grows

/-! ## After `load` has returned -/

/-- What happens to a process that has been loaded: `handle_mm_fault` on one of its entries, files
opened and closed by anybody, and anything else that leaves its entries alone. -/
inductive LateAct (S : Services) (H : HashTable Ptr)
  | fault (p : VmePtr)
  | filesysOpen (name : List Byte)
  | fileClose (f : FilePtr)
  | other (m : Machine S H)

section Late

variable {S : Services} {H : HashTable Ptr}

def lateStep (a : LateAct S H) (m : Machine S H) : Option (Machine S H) :=
  match a with
  | .fault p => some (handleMmFault m p).1
  | .filesysOpen name => some { m with space := (m.space.filesysOpen name).1 }
  | .fileClose f => some { m with space := m.space.fileClose (some f) }
  | .other m' =>
      if m'.space.log = m.space.log ∧ m.heap ⊆ m'.heap ∧
          ∀ p ∈ m.heap, m'.mem.entry (.heap p) = m.mem.entry (.heap p) then some m'
      else none

/-- `f` has been closed after it was opened, both since the events `log₀`. -/
def ClosedSinceOpened (log₀ log : List FileEvent) (f : FilePtr) : Prop :=
  ∃ l₁ l₂, log = log₀ ++ l₁ ++ .opened f :: l₂ ∧ .closed f ∈ l₂

/-- The entry has been created by `load_segment` between `m₀` and `m₁`. -/
def SegmentEntry (m₀ m₁ : Machine S H) (p : VmePtr) : Prop :=
  p ∈ m₁.heap ∧ p ∉ m₀.heap ∧ (m₁.mem.entry (.heap p)).type = VM_BIN

/-- If the step brings in a page of the executable, then through a file that is still open. -/
def UsesOpenFile (m₀ m₁ m : Machine S H) : LateAct S H → Prop
  | .fault p => SegmentEntry m₀ m₁ p →
      ¬ ClosedSinceOpened m₀.space.log m.space.log (m.mem.entry (.heap p)).file
  | _ => True

/-- The step brings in a page of the executable. -/
def FaultsOnSegment (m₀ m₁ : Machine S H) : LateAct S H → Prop
  | .fault p => SegmentEntry m₀ m₁ p
  | _ => False

/-- The entries keep their files, and events are only added. -/
structure Keeps (m₁ m : Machine S H) : Prop where
  log : m₁.space.log <+: m.space.log
  heap : m₁.heap ⊆ m.heap
  file : ∀ p ∈ m₁.heap, (m.mem.entry (.heap p)).file = (m₁.mem.entry (.heap p)).file

theorem handleMmFault_log (m : Machine S H) (p : VmePtr) :
    (handleMmFault m p).1.space.log = m.space.log := by
  -- reading a page neither opens nor closes a file
  have hload : ∀ (sp : Space S) (k : FramePtr) (e : VmEntry), (loadFile sp k e).1.log = sp.log := by
    intro sp k e
    unfold loadFile
    dsimp only
    split <;> rfl
  have htype : ∀ (sp : Space S) (k : FramePtr) (e : VmEntry), (loadType sp k e).1.log = sp.log := by
    intro sp k e
    unfold loadType
    dsimp only
    split_ifs <;> simp only [hload]
  unfold handleMmFault
  cases hk : m.space.pallocGetPage with
  | none =>
      rfl
  | some ksp =>
      rcases ksp with ⟨k, sp⟩
      have hsp : sp.log = m.space.log := by
        simp only [Space.pallocGetPage, Option.map_eq_some_iff] at hk
        obtain ⟨k', -, hk'⟩ := hk
        cases hk'
        rfl
      rcases ht : loadType sp k (m.mem.entry (.heap p)) with ⟨sp', success⟩
      have hsp' : sp'.log = m.space.log := by
        rw [← hsp, ← htype sp k (m.mem.entry (.heap p)), ht]
      dsimp only
      rw [ht]
      cases success with
      | none =>
          exact hsp'
      | some b =>
          have hinst := (installPage_log sp' (m.mem.entry (.heap p)).vaddr k
            (m.mem.entry (.heap p)).writable).trans hsp'
          dsimp only
          split
          · exact hinst
          · exact hinst

theorem handleMmFault_heap (m : Machine S H) (p : VmePtr) :
    (handleMmFault m p).1.heap = m.heap := by
  unfold handleMmFault
  dsimp only
  split
  · rfl
  · split
    · rfl
    · split <;> rfl

theorem handleMmFault_file (m : Machine S H) (p q : VmePtr) :
    ((handleMmFault m p).1.mem.entry (.heap q)).file = (m.mem.entry (.heap q)).file := by
  unfold handleMmFault
  dsimp only
  split
  · rfl
  · split
    · rfl
    · split
      · -- only `is_loaded` of the entry itself is written
        by_cases hqp : q = p
        · subst hqp
          change ((m.mem.write (.heap q) _).entry (.heap q)).file = _
          rw [write_entry_self]
        · exact congrArg VmEntry.file (write_entry_of_ne (by simpa using hqp) _)
      · rfl

theorem Keeps.step {m₁ m m' : Machine S H} {a : LateAct S H} (h : Keeps m₁ m)
    (hs : lateStep a m = some m') : Keeps m₁ m' := by
  cases a with
  | fault p =>
      cases hs
      refine ⟨?_, ?_, ?_⟩
      · rw [handleMmFault_log]
        exact h.log
      · rw [handleMmFault_heap]
        exact h.heap
      · intro q hq
        rw [handleMmFault_file, h.file q hq]
  | filesysOpen name =>
      cases hs
      refine ⟨?_, h.heap, h.file⟩
      dsimp only [Space.filesysOpen]
      rcases S.filesysOpen m.space.files name with ⟨files', f⟩
      cases f with
      | none =>
          exact h.log
      | some f =>
          exact h.log.trans (List.prefix_append _ _)
  | fileClose f =>
      cases hs
      exact ⟨h.log.trans (List.prefix_append _ _), h.heap, h.file⟩
  | other m' =>
      unfold lateStep at hs
      dsimp only at hs
      split at hs
      · next hsame =>
          cases hs
          refine ⟨hsame.1 ▸ h.log, h.heap.trans hsame.2.1, ?_⟩
          intro p hp
          rw [hsame.2.2 p (h.heap hp), h.file p hp]
      · cases hs

theorem Keeps.of_exec {m₁ m : Machine S H} {tr : List (Machine S H × LateAct S H)}
    (hrun : Exec lateStep m₁ tr m) : ∀ e ∈ tr, Keeps m₁ e.1 := by
  have h₀ : Keeps m₁ m₁ := ⟨List.prefix_rfl, subset_rfl, fun _ _ => rfl⟩
  exact (hrun.invariant (P := fun _ _ => True) h₀ (fun _ _ _ hk _ hs => hk.step hs)
    fun _ _ => trivial).1

/-- After a successful `load`, a run brings in pages of the executable through open files only if it
brings in none. -/
theorem demand_loading_uses_open_file_iff {hashInt : Word → ℕ} {name : List Byte}
    {m₀ m₁ m : Machine S H} {r : Word × Word} {tr : List (Machine S H × LateAct S H)}
    (hload : load hashInt name m₀ = .ok (m₁, some r)) (hrun : Exec lateStep m₁ tr m) :
    (∀ e ∈ tr, UsesOpenFile m₀ m₁ e.1 e.2) ↔ ∀ e ∈ tr, ¬ FaultsOnSegment m₀ m₁ e.2 := by
  obtain ⟨file, hlog, -, hbin⟩ := load_grows hload
  have hkeeps := Keeps.of_exec hrun
  refine forall₂_congr fun e he => ?_
  rcases e with ⟨m', a⟩
  cases a with
  | fault p =>
      refine forall_congr' fun hp => iff_of_false (not_not.2 ?_) id
      have hk : Keeps m₁ m' := hkeeps _ he
      have hfile : (m'.mem.entry (.heap p)).file = file :=
        (hk.file p hp.1).trans (hbin p hp.1 hp.2.1 hp.2.2)
      obtain ⟨l, hl⟩ := hk.log
      refine ⟨[], .closed file :: l, ?_, ?_⟩
      · change m'.space.log = _
        rw [← hl, hlog, hfile]
        simp
      · rw [hfile]
        exact List.mem_cons_self
  | filesysOpen name | fileClose f | other m' =>
      exact iff_of_true trivial id

end Late

/-! ### An executable with one segment -/

def ehdrBytes : List Byte :=
  [0x7f, 0x45, 0x4c, 0x46, 1, 1, 1, 0, 0, 0, 0, 0, 0, 0, 0, 0, 2, 0, 3, 0, 1, 0, 0, 0,
    0, 0x80, 4, 8, 52, 0, 0, 0, 0, 0, 0, 0, 0, 0, 0, 0, 52, 0, 32, 0, 1, 0, 0, 0, 0, 0, 0, 0]

def phdrBytes : List Byte :=
  [1, 0, 0, 0, 0, 0, 0, 0, 0, 0x80, 4, 8, 0, 0x80, 4, 8, 84, 0, 0, 0, 84, 0, 0, 0,
    5, 0, 0, 0, 0, 0x10, 0, 0]

/-- The executable is the only file. -/
def oneSegment : Services := .ofContents (fun _ => ehdrBytes ++ phdrBytes) (fun _ => some 0) 16 16

def freshMachine : Machine oneSegment (buckets Ptr 4) :=
  .start (.start fun _ => 0) (strayMemory 0)

def loadedMachine : Machine oneSegment (buckets Ptr 4) × Option (Word × Word) :=
  ((load BitVec.toNat [0x61] freshMachine).toOption).get (by decide +kernel)

theorem load_freshMachine : load BitVec.toNat [0x61] freshMachine =
    .ok (loadedMachine.1, some (0x08048000, PHYS_BASE)) := by
  have hentry : loadedMachine.2 = some (0x08048000, PHYS_BASE) := by decide +kernel
  have hload : (load BitVec.toNat [0x61] freshMachine).toOption = some loadedMachine :=
    (Option.some_get _).symm
  cases h : load BitVec.toNat [0x61] freshMachine with
  | error e =>
      rw [h] at hload
      cases hload
  | ok r =>
      rw [h] at hload
      cases hload
      rw [← hentry]

/-- A run in which the process opens another file and touches no page. -/
theorem demand_loading_uses_open_file_idle :
    (∀ e ∈ trace lateStep [.filesysOpen [0x62]] loadedMachine.1,
        ¬ FaultsOnSegment freshMachine loadedMachine.1 e.2) ∧
      ∀ e ∈ trace lateStep [.filesysOpen [0x62]] loadedMachine.1,
        UsesOpenFile freshMachine loadedMachine.1 e.1 e.2 := by
  have hrun : Exec lateStep loadedMachine.1 (trace lateStep [.filesysOpen [0x62]] loadedMachine.1)
      ((runAll lateStep [.filesysOpen [0x62]] loadedMachine.1).get (by rfl)) :=
    Exec.of_runAll (Option.some_get _).symm
  have hidle : ∀ e ∈ trace lateStep [.filesysOpen [0x62]] loadedMachine.1,
      ¬ FaultsOnSegment freshMachine loadedMachine.1 e.2 := by
    intro e he
    rw [List.mem_singleton.1 he]
    exact id
  exact ⟨hidle, (demand_loading_uses_open_file_iff load_freshMachine hrun).2 hidle⟩

/-- The first instruction of the process is fetched through the closed executable. -/
theorem demand_loading_uses_closed_file :
    ¬ ∀ (S : Services) (H : HashTable Ptr) (hashInt : Word → ℕ) (name : List Byte)
        (m₀ m₁ m : Machine S H) (r : Word × Word) (tr : List (Machine S H × LateAct S H)),
        load hashInt name m₀ = .ok (m₁, some r) → Exec lateStep m₁ tr m →
          ∀ e ∈ tr, UsesOpenFile m₀ m₁ e.1 e.2 := by
  intro hall
  have hrun : Exec lateStep loadedMachine.1 [(loadedMachine.1, .fault 0)]
      (handleMmFault loadedMachine.1 0).1 := Exec.snoc .nil rfl
  have huse := hall _ _ _ _ _ _ _ _ _ load_freshMachine hrun _ (List.mem_singleton_self _)
  have hseg : SegmentEntry freshMachine loadedMachine.1 0 :=
    ⟨by decide +kernel, by decide +kernel, by decide +kernel⟩
  have hlog : loadedMachine.1.space.log = [] ++ [] ++ .opened 0 :: [.closed 0] := by
    decide +kernel
  have hfile : (loadedMachine.1.mem.entry (.heap 0)).file = 0 := by decide +kernel
  refine huse hseg ⟨[], [.closed 0], ?_, ?_⟩
  · rw [hfile]
    exact hlog
  · rw [hfile]
    exact List.mem_singleton_self _

end Project4
end Pintos
