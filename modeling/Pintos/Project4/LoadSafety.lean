import Pintos.Project4.LoadResult

/-!
# LoadSafety — `load` on a file with any contents

No file makes an assertion of `load` fail.  When `load` succeeds the file is an executable, and the
table holds its pages; when it fails no frame is taken or mapped.
-/

namespace Pintos
namespace Project4

open Lib Userprog Function

/-! ## The program headers of a file -/

/-- The headers at the offset, whatever they are. -/
def phdrsFrom (S : Services) (file : FilePtr) : ℕ → Word → List Elf32Phdr
  | 0, _ => []
  | n + 1, fileOfs =>
      Elf32Phdr.ofBytes (S.stored file fileOfs PHDR_SIZE) ::
        phdrsFrom S file n (fileOfs + BitVec.ofNat 32 PHDR_SIZE)

def fileEhdr (S : Services) (file : FilePtr) : Elf32Ehdr :=
  Elf32Ehdr.ofBytes (S.stored file 0 EHDR_SIZE)

def filePhdrs (S : Services) (file : FilePtr) : List Elf32Phdr :=
  phdrsFrom S file (fileEhdr S file).ePhnum.toNat (fileEhdr S file).ePhoff

theorem length_phdrsFrom {S : Services} {file : FilePtr} {n : ℕ} :
    ∀ {fileOfs : Word}, (phdrsFrom S file n fileOfs).length = n := by
  induction n with
  | zero =>
      intro fileOfs
      rfl
  | succ n ih =>
      intro fileOfs
      rw [phdrsFrom, List.length_cons, ih]

/-! ## Pages of user memory -/

section UserPages

variable {S : Services} {file : FilePtr} {phdr : Elf32Phdr} {fileLength : Word} {pg : SegmentPage}

/-- A whole page of user memory, and not the first. -/
structure UserPage (u : Word) : Prop where
  aligned : pgOfs u = 0
  notFirst : BitVec.ofNat 32 PGSIZE ≤ u
  user : u < PHYS_BASE

theorem userPage_of_mem (hvalid : validateSegment phdr fileLength = true) (hpg : pg ∈ phdr.pages) :
    UserPage pg.upage ∧ pg.readBytes + pg.zeroBytes = PGSIZE := by
  obtain ⟨i, hi, rfl⟩ := mem_segmentPages.1 hpg
  obtain ⟨-, hend⟩ := validateSegment_bounds hvalid
  have hspan := toNat_span hvalid
  have hfirst : BitVec.ofNat 32 PGSIZE ≤ phdr.pVaddr := by
    simp only [validateSegment, Bool.and_eq_true, decide_eq_true_eq] at hvalid
    exact hvalid.2
  rw [BitVec.le_def, toNat_pgsize] at hfirst
  have hbase := toNat_pgRoundDown phdr.pVaddr
  rw [hspan] at hi
  rw [toNat_physBase] at hend
  simp only [PGSIZE] at hi hbase
  have hat : (pageAddr (pgRoundDown phdr.pVaddr) i).toNat =
      (pgRoundDown phdr.pVaddr).toNat + i * PGSIZE := by
    refine toNat_offset ?_
    rw [hbase, PGSIZE]
    omega
  refine ⟨⟨?_, ?_, ?_⟩, readBytes_add_zeroBytes⟩
  · rw [pgOfs_eq_zero, segmentPage, hat, hbase, PGSIZE]
    omega
  · rw [BitVec.le_def, toNat_pgsize, segmentPage, hat, hbase, PGSIZE]
    omega
  · rw [BitVec.lt_def, toNat_physBase, segmentPage, hat, hbase, PGSIZE]
    omega

theorem userPage_stackPage : UserPage stackPage := by
  refine ⟨?_, ?_, ?_⟩ <;> decide

/-- Every header of an executable is accepted. -/
theorem HasPhdrs.accepted {phdrs : List Elf32Phdr} :
    ∀ {fileOfs : Word}, HasPhdrs S file fileOfs phdrs →
      ∀ phdr ∈ phdrs, phdr.Accepted (S.fileLength file) := by
  induction phdrs with
  | nil =>
      intro fileOfs _ phdr hphdr
      cases hphdr
  | cons phdr phdrs ih =>
      intro fileOfs h phdr' hphdr'
      rcases List.mem_cons.1 hphdr' with rfl | hrest
      · exact h.2.2.2.1
      · exact ih h.2.2.2.2 phdr' hrest

/-- `validate_segment` lets only segments of user pages through. -/
theorem segmentEntries_userPage (hvalid : phdr.pType = PT_LOAD →
    validateSegment phdr fileLength = true) {e : VmEntry} (he : e ∈ segmentEntries file phdr) :
    UserPage e.vaddr := by
  unfold segmentEntries at he
  split at he
  · next hload =>
      obtain ⟨pg, hpg, rfl⟩ := List.mem_map.1 he
      exact (userPage_of_mem (hvalid hload) hpg).1
  · cases he

end UserPages

/-! ## What loading adds -/

section Adds

variable {S : Services} {H : HashTable Ptr} {hashInt : Word → ℕ} {m m' m'' : Machine S H}
  {c : Word → Option VmEntry} {es es' : List VmEntry} {file : FilePtr}

/-- At most file positions differ. -/
structure SameFrames (sp sp' : Space S) : Prop where
  used : sp'.used = sp.used
  bytes : sp'.bytes = sp.bytes
  pagedir : sp'.pagedir = sp.pagedir

/-- The entries `es` have been registered, in fresh blocks. -/
structure Enters (hashInt : Word → ℕ) (c : Word → Option VmEntry) (es : List VmEntry)
    (m m' : Machine S H) : Prop where
  stores : m'.Stores hashInt (enterAll VmEntry.vaddr c es)
  around : m'.mem.around = m.mem.around
  heap : m.heap ⊆ m'.heap
  entry : ∀ p ∈ m.heap, m'.mem.entry (.heap p) = m.mem.entry (.heap p)
  elem : ∀ p, elemOf p ∈ H.elems m'.vm → elemOf p ∈ H.elems m.vm ∨ p ∉ m.heap
  card : m'.heap.card = m.heap.card + es.length

/-- And nothing else has happened. -/
structure Adds (hashInt : Word → ℕ) (c : Word → Option VmEntry) (es : List VmEntry)
    (m m' : Machine S H) : Prop extends Enters hashInt c es m m' where
  frames : SameFrames m.space m'.space
  log : m'.space.log = m.space.log

theorem SameFrames.trans {sp sp' sp'' : Space S} (h : SameFrames sp sp')
    (h' : SameFrames sp' sp'') : SameFrames sp sp'' :=
  ⟨h'.used.trans h.used, h'.bytes.trans h.bytes, h'.pagedir.trans h.pagedir⟩

namespace Enters

theorem of_space (h : m.Stores hashInt c) (sp : Space S) :
    Enters hashInt c [] m { m with space := sp } :=
  ⟨h.of_space sp, rfl, subset_rfl, fun _ _ => rfl, fun _ => Or.inl, rfl⟩

theorem with_space (h : Enters hashInt c es m m') (sp : Space S) :
    Enters hashInt c es m { m' with space := sp } :=
  ⟨h.stores.of_space sp, h.around, h.heap, h.entry, h.elem, h.card⟩

theorem trans (h : Enters hashInt c es m m')
    (h' : Enters hashInt (enterAll VmEntry.vaddr c es) es' m' m'') :
    Enters hashInt c (es ++ es') m m'' := by
  refine ⟨?_, h'.around.trans h.around, h.heap.trans h'.heap, fun p hp => ?_, fun p hp => ?_, ?_⟩
  · rw [enterAll_append]
    exact h'.stores
  · rw [h'.entry p (h.heap hp), h.entry p hp]
  · rcases h'.elem p hp with hold | hnew
    · exact h.elem p hold
    · exact Or.inr fun hmem => hnew (h.heap hmem)
  · rw [h'.card, h.card, List.length_append, Nat.add_assoc]

/-- A fresh block is filled in and inserted. -/
theorem of_malloc (h : m.Stores hashInt c) {p : VmePtr} (hp : S.malloc m.heap = some p)
    (sp : Space S) (e : VmEntry) :
    Enters hashInt c [e] m ⟨sp, insert p m.heap, m.mem.write (.heap p) e,
      (insertVme H hashInt (m.mem.write (.heap p) e) m.vm p).1⟩ := by
  have hfresh : p ∉ m.heap := S.malloc_fresh hp
  refine ⟨h.malloc hp sp e, rfl, Finset.subset_insert p m.heap, fun q hq => ?_, fun q hq => ?_,
    Finset.card_insert_of_notMem hfresh⟩
  · have hne : q ≠ p := fun heq => hfresh (heq ▸ hq)
    exact write_entry_of_ne (by simpa using hne) e
  obtain ⟨f, hf, -⟩ := h
  have hnew : elemOf p ∉ H.elems m.vm := fun hmem =>
    hfresh (hf.heap _ p ((hf.represents.entry _ p).2 ⟨hmem, rfl⟩))
  have hwrite : Represents hashInt ⟨m.mem.write (.heap p) e, m.vm⟩ f :=
    hf.represents.write (e := e) fun hmem => absurd hmem hnew
  rcases hwrite.mem_insertVme.1 hq with hold | ⟨heq, -⟩
  · exact Or.inl hold
  · exact Or.inr (elemOf_injective heq ▸ hfresh)

end Enters

namespace Adds

theorem of_space (h : m.Stores hashInt c) {sp : Space S} (hsp : SameFrames m.space sp)
    (hlog : sp.log = m.space.log) : Adds hashInt c [] m { m with space := sp } :=
  ⟨.of_space h sp, hsp, hlog⟩

theorem refl (h : m.Stores hashInt c) : Adds hashInt c [] m m := of_space h ⟨rfl, rfl, rfl⟩ rfl

theorem trans (h : Adds hashInt c es m m')
    (h' : Adds hashInt (enterAll VmEntry.vaddr c es) es' m' m'') :
    Adds hashInt c (es ++ es') m m'' :=
  ⟨h.toEnters.trans h'.toEnters, h.frames.trans h'.frames, h'.log.trans h.log⟩

end Adds

/-! ## A segment -/

theorem registerPage_adds {writable : Bool} {pg : SegmentPage} (h : m.Stores hashInt c)
    (hreg : registerPage hashInt file writable pg.ofs pg.upage pg.readBytes pg.zeroBytes m = .ok m') :
    Adds hashInt c [binEntry file writable pg] m m' := by
  unfold registerPage at hreg
  cases hp : S.malloc m.heap with
  | none =>
      rw [hp] at hreg
      cases hreg
  | some p =>
      rw [hp] at hreg
      cases hreg
      exact ⟨.of_malloc h hp m.space (binEntry file writable pg), ⟨rfl, rfl, rfl⟩, rfl⟩

theorem registerPages_adds {writable : Bool} {ps : List SegmentPage} :
    ∀ {m m' : Machine S H} {c : Word → Option VmEntry}, m.Stores hashInt c →
    registerPages hashInt file writable ps m = .ok m' →
    Adds hashInt c (ps.map (binEntry file writable)) m m' := by
  induction ps with
  | nil =>
      intro m m' c h hgo
      cases hgo
      exact .refl h
  | cons pg ps ih =>
      intro m m' c h hgo
      obtain ⟨m₁, hreg, hrest⟩ := except_bind_eq_ok.1 hgo
      have hfirst := registerPage_adds h hreg
      exact hfirst.trans (ih hfirst.stores hrest)

theorem registerPages_ne_assertion {writable : Bool} {ps : List SegmentPage} :
    ∀ {m : Machine S H}, registerPages hashInt file writable ps m ≠ .error .assertion := by
  induction ps with
  | nil =>
      intro m h
      cases h
  | cons pg ps ih =>
      intro m h
      simp only [registerPages] at h
      cases hreg : registerPage hashInt file writable pg.ofs pg.upage pg.readBytes pg.zeroBytes m with
      | ok m₁ =>
          rw [hreg] at h
          exact ih h
      | error e =>
          rw [hreg] at h
          cases h
          unfold registerPage at hreg
          cases hp : S.malloc m.heap with
          | none =>
              rw [hp] at hreg
              cases hreg
          | some p =>
              rw [hp] at hreg
              cases hreg

theorem loadPhdr_eq {phdr : Elf32Phdr} (hvalid : validateSegment phdr (S.fileLength file) = true) :
    loadPhdr hashInt file phdr m =
      (registerPages hashInt file phdr.writable phdr.pages
        { m with space := m.space.fileSeek file (pgRoundDown phdr.pOffset) }).map
          fun m => (m, true) := by
  have hsum := span_pages hvalid
  have hmod : (phdr.readBytes.toNat + (phdr.span - phdr.readBytes).toNat) % PGSIZE = 0 := by
    rw [hsum]
    exact Nat.mul_mod_left _ _
  have hle : phdr.span.toNat / PGSIZE ≤
      phdr.readBytes.toNat + (phdr.span - phdr.readBytes).toNat := by
    rw [hsum]
    exact Nat.le_mul_of_pos_right _ (by decide)
  rw [loadPhdr, if_pos hvalid]
  show loadSegment hashInt file (pgRoundDown phdr.pOffset) (pgRoundDown phdr.pVaddr)
      phdr.readBytes.toNat (phdr.span - phdr.readBytes).toNat phdr.writable m = _
  rw [loadSegment, if_pos ⟨hmod, pgOfs_pgRoundDown _, pgOfs_pgRoundDown _⟩,
    loadSegmentLoop_eq hsum hle]
  rfl

/-! ## The program headers -/

/-- What the loop over `n` program headers from `fileOfs` on has made of the table `c`. -/
structure PhdrsLoaded (hashInt : Word → ℕ) (file : FilePtr) (n : ℕ) (fileOfs : Word)
    (c : Word → Option VmEntry) (m : Machine S H) (r : Except Fault (Machine S H × Bool)) :
    Prop where
  safe : r ≠ .error .assertion
  goes : m.heap.card + (imageEntries file (phdrsFrom S file n fileOfs)).length ≤ S.heapSize →
    ∃ r', r = .ok r'
  done : ∀ m', r = .ok (m', true) → HasPhdrs S file fileOfs (phdrsFrom S file n fileOfs) ∧
    Adds hashInt c (imageEntries file (phdrsFrom S file n fileOfs)) m m'
  stopped : ∀ m', r = .ok (m', false) → ¬ HasPhdrs S file fileOfs (phdrsFrom S file n fileOfs) ∧
    ∃ es, Adds hashInt c es m m' ∧ ∀ e ∈ es, UserPage e.vaddr

theorem PhdrsLoaded.of_stop {n : ℕ} {fileOfs : Word} (hadds : Adds hashInt c [] m m')
    (hnot : ¬ HasPhdrs S file fileOfs (phdrsFrom S file n fileOfs)) :
    PhdrsLoaded hashInt file n fileOfs c m (.ok (m', false)) := by
  refine ⟨by simp, fun _ => ⟨_, rfl⟩, fun m'' h => ?_, fun m'' h => ?_⟩
  · cases h
  · cases h
    exact ⟨hnot, [], hadds, nofun⟩

/-- The `switch` on the type of one program header. -/
theorem loadOne_adds {phdr : Elf32Phdr} (h : m.Stores hashInt c) :
    (if phdr.pType = PT_LOAD then loadPhdr hashInt file phdr m else .ok (m, true)) ≠
        .error .assertion ∧
      (m.heap.card + (segmentEntries file phdr).length ≤ S.heapSize →
        ∃ r, (if phdr.pType = PT_LOAD then loadPhdr hashInt file phdr m else .ok (m, true)) =
          .ok r) ∧
      ∀ m₁ b, (if phdr.pType = PT_LOAD then loadPhdr hashInt file phdr m else .ok (m, true)) =
          .ok (m₁, b) →
        (b = true → (phdr.pType = PT_LOAD → validateSegment phdr (S.fileLength file) = true) ∧
          Adds hashInt c (segmentEntries file phdr) m m₁) ∧
        (b = false → phdr.pType = PT_LOAD ∧ validateSegment phdr (S.fileLength file) = false ∧
          m₁ = m) := by
  by_cases hload : phdr.pType = PT_LOAD
  · rw [if_pos hload]
    by_cases hvalid : validateSegment phdr (S.fileLength file) = true
    · have hentries : segmentEntries file phdr = phdr.pages.map (binEntry file phdr.writable) :=
        if_pos hload
      let m₀ : Machine S H := { m with space := m.space.fileSeek file (pgRoundDown phdr.pOffset) }
      have hseek : Adds hashInt c [] m m₀ := .of_space h ⟨rfl, rfl, rfl⟩ rfl
      rw [loadPhdr_eq hvalid, hentries]
      refine ⟨fun herr => ?_, fun hroom => ?_, fun m₁ b hgo => ?_⟩
      · cases hreg : registerPages hashInt file phdr.writable phdr.pages m₀ with
        | ok m₁ =>
            rw [hreg] at herr
            cases herr
        | error e =>
            rw [hreg] at herr
            cases herr
            exact registerPages_ne_assertion hreg
      · rw [List.length_map] at hroom
        obtain ⟨m₁, hreg, -⟩ := registerPages_registered file phdr.writable hseek.stores hroom
        exact ⟨_, by rw [hreg]; rfl⟩
      · obtain ⟨m₂, hreg, heq⟩ := except_map_eq_ok.1 hgo
        cases heq
        refine ⟨fun _ => ⟨fun _ => hvalid, ?_⟩, fun hfalse => absurd hfalse (by simp)⟩
        exact hseek.trans (registerPages_adds hseek.stores hreg)
    · rw [loadPhdr, if_neg hvalid]
      refine ⟨by simp, fun _ => ⟨_, rfl⟩, fun m₁ b hgo => ?_⟩
      cases hgo
      exact ⟨fun htrue => absurd htrue (by simp), fun _ => ⟨hload, by simpa using hvalid, rfl⟩⟩
  · rw [if_neg hload]
    refine ⟨by simp, fun _ => ⟨_, rfl⟩, fun m₁ b hgo => ?_⟩
    cases hgo
    have hentries : segmentEntries file phdr = [] := if_neg hload
    rw [hentries]
    exact ⟨fun _ => ⟨fun h => absurd h hload, .refl h⟩, fun hfalse => absurd hfalse (by simp)⟩

theorem loadPhdrs_loaded {n : ℕ} : ∀ {fileOfs : Word} {m : Machine S H}
    {c : Word → Option VmEntry}, m.Stores hashInt c →
    PhdrsLoaded hashInt file n fileOfs c m (loadPhdrs hashInt file n fileOfs m) := by
  induction n with
  | zero =>
      intro fileOfs m c h
      refine ⟨by simp [loadPhdrs], fun _ => ⟨_, rfl⟩, fun m' hgo => ?_, fun m' hgo => ?_⟩
      · cases hgo
        exact ⟨trivial, .refl h⟩
      · cases hgo
  | succ n ih =>
      intro fileOfs m c h
      -- the header is read where the offset says
      have hread : ((m.space.fileSeek file fileOfs).fileReadLocal file PHDR_SIZE).2 =
          S.stored file fileOfs PHDR_SIZE := by
        simp only [Space.fileReadLocal, S.read_bytes, Space.fileSeek, S.seek_pos]
      obtain ⟨phdr, hphdr⟩ : ∃ phdr, Elf32Phdr.ofBytes (S.stored file fileOfs PHDR_SIZE) = phdr :=
        ⟨_, rfl⟩
      let m₀ : Machine S H := { m with
        space := ((m.space.fileSeek file fileOfs).fileReadLocal file PHDR_SIZE).1 }
      have hmoved : Adds hashInt c [] m m₀ := .of_space h ⟨rfl, rfl, rfl⟩ rfl
      by_cases hofs : (fileOfs.slt 0 || (S.fileLength file).slt fileOfs) = true
      · rw [loadPhdrs, if_pos hofs]
        refine .of_stop (.refl h) fun hhas => ?_
        rw [hhas.1.1, hhas.1.2] at hofs
        cases hofs
      rw [loadPhdrs, if_neg hofs]
      simp only [hread, hphdr]
      by_cases hlen : (S.stored file fileOfs PHDR_SIZE).length ≠ PHDR_SIZE
      · rw [if_pos hlen]
        exact .of_stop hmoved fun hhas => hlen hhas.2.1
      rw [if_neg hlen]
      by_cases htype : phdr.pType = PT_DYNAMIC ∨ phdr.pType = PT_INTERP ∨ phdr.pType = PT_SHLIB
      · rw [if_pos htype]
        refine .of_stop hmoved fun hhas => ?_
        have hacc := hhas.2.2.2.1.1
        rw [hphdr] at hacc
        rcases htype with ht | ht | ht
        · exact hacc.1 ht
        · exact hacc.2.1 ht
        · exact hacc.2.2 ht
      rw [if_neg htype]
      have hcons : phdrsFrom S file (n + 1) fileOfs =
          phdr :: phdrsFrom S file n (fileOfs + BitVec.ofNat 32 PHDR_SIZE) := by
        rw [phdrsFrom, hphdr]
      have happend : imageEntries file (phdrsFrom S file (n + 1) fileOfs) =
          segmentEntries file phdr ++
            imageEntries file (phdrsFrom S file n (fileOfs + BitVec.ofNat 32 PHDR_SIZE)) := by
        rw [hcons]
        rfl
      obtain ⟨hsafe, hgoes, hone⟩ := @loadOne_adds S H hashInt m₀ c file phdr hmoved.stores
      have hroom₀ : m.heap.card + (imageEntries file (phdrsFrom S file (n + 1) fileOfs)).length ≤
          S.heapSize → m₀.heap.card + (segmentEntries file phdr).length ≤ S.heapSize := by
        intro hroom
        rw [happend, List.length_append] at hroom
        show m.heap.card + _ ≤ _
        omega
      change PhdrsLoaded hashInt file (n + 1) fileOfs c m (Except.bind
        (if phdr.pType = PT_LOAD then loadPhdr hashInt file phdr m₀ else .ok (m₀, true)) _)
      generalize (if phdr.pType = PT_LOAD then loadPhdr hashInt file phdr m₀ else .ok (m₀, true)) = r
        at hsafe hgoes hone
      cases r with
      | error e =>
          refine ⟨fun herr => hsafe (by cases herr; rfl), fun hroom => ?_, fun m' hgo => ?_,
            fun m' hgo => ?_⟩
          · obtain ⟨r, hr⟩ := hgoes (hroom₀ hroom)
            cases hr
          · cases hgo
          · cases hgo
      | ok r =>
          obtain ⟨m₁, b⟩ := r
          cases b with
          | false =>
              obtain ⟨hload, hinvalid, rfl⟩ := (hone _ _ rfl).2 rfl
              refine .of_stop hmoved fun hhas => ?_
              have hvalid := hhas.2.2.2.1.2
              rw [hphdr] at hvalid
              rw [hvalid hload] at hinvalid
              cases hinvalid
          | true =>
              obtain ⟨hvalid, hadds⟩ := (hone _ _ rfl).1 rfl
              have hfirst : Adds hashInt c (segmentEntries file phdr) m m₁ := hmoved.trans hadds
              obtain ⟨hsafe', hgoes', hdone, hstop⟩ :=
                @ih (fileOfs + BitVec.ofNat 32 PHDR_SIZE) _ _ hfirst.stores
              have hiff : HasPhdrs S file fileOfs (phdrsFrom S file (n + 1) fileOfs) ↔
                  HasPhdrs S file (fileOfs + BitVec.ofNat 32 PHDR_SIZE)
                    (phdrsFrom S file n (fileOfs + BitVec.ofNat 32 PHDR_SIZE)) := by
                rw [hcons]
                refine ⟨fun hhas => hhas.2.2.2.2, fun hhas => ⟨?_, by simpa using hlen, hphdr,
                  ⟨?_, hvalid⟩, hhas⟩⟩
                · simpa using hofs
                · simpa only [not_or] using htype
              refine ⟨hsafe', fun hroom => hgoes' ?_, fun m' hgo => ?_, fun m' hgo => ?_⟩
              · rw [happend, List.length_append] at hroom
                rw [hfirst.card]
                omega
              · obtain ⟨hhas, hrest⟩ := hdone m' hgo
                rw [happend]
                exact ⟨hiff.2 hhas, hfirst.trans hrest⟩
              · obtain ⟨hnot, es, hrest, huser⟩ := hstop m' hgo
                refine ⟨fun hhas => hnot (hiff.1 hhas), _, hfirst.trans hrest, fun e he => ?_⟩
                rcases List.mem_append.1 he with he | he
                · exact segmentEntries_userPage hvalid he
                · exact huser e he

end Adds

/-! ## The stack -/

/-- The page of the initial stack, which has nothing from the file. -/
def stackPg : SegmentPage := ⟨stackPage, 0, 0, PGSIZE⟩

section Stack

variable {S : Services} {H : HashTable Ptr} {hashInt : Word → ℕ} {m m' : Machine S H}
  {c : Word → Option VmEntry} {file : FilePtr} {esp : Word} {i : ℕ}

@[simp] theorem pageByte_stackPg : S.pageByte file stackPg i = 0 := by
  have hlen : (S.stored file 0 0).length ≤ 0 := S.stored_length _ _ _
  have hnil : S.stored file 0 0 = [] := List.length_eq_zero_iff.1 (Nat.le_zero.1 hlen)
  show ((S.stored file 0 0)[i]?).getD 0 = 0
  rw [hnil]
  rfl

theorem memset_page {sp : Space S} {k : FramePtr} (hi : i < PGSIZE) :
    (sp.memset k 0 PGSIZE).bytes k i = 0 := by
  simp only [Space.memset, update_self]
  rw [storeBytes_mem (Nat.zero_le i) (by simpa using hi)]
  simp [hi]

/-- The stack has been set up. -/
structure StackSet (hashInt : Word → ℕ) (c : Word → Option VmEntry) (m m' : Machine S H) : Prop where
  free : m.space.pagedir stackPage = none
  maps : ∀ file, Maps file true stackPg m.space m'.space
  log : m'.space.log = m.space.log
  entry : ∃ e, e.vaddr = stackPage ∧ e.type = VM_ANON ∧ Enters hashInt c [e] m m'

theorem setupStack_some (h : m.Stores hashInt c) (hgo : setupStack hashInt m = .ok (m', some esp)) :
    esp = PHYS_BASE ∧ StackSet hashInt c m m' := by
  cases hk : S.palloc m.space.used with
  | none =>
      simp only [setupStack, pallocGetPage_of_none hk] at hgo
      cases hgo
  | some k =>
      let sp : Space S := { m.space with used := insert k m.space.used }
      have halloc : m.space.pallocGetPage = some (k, sp) := pallocGetPage_of_some hk
      by_cases hfree : m.space.pagedir stackPage = none ∧
          S.pageTable m.space.pagedir stackPage = true
      · let sp' : Space S := { sp.memset k 0 PGSIZE with
          pagedir := update m.space.pagedir stackPage (some (k, true)) }
        have hinst : (sp.memset k 0 PGSIZE).installPage (PHYS_BASE - BitVec.ofNat 32 PGSIZE) k true =
            (sp', true) := if_pos hfree
        cases hp : S.malloc m.heap with
        | none =>
            simp only [setupStack, halloc, hinst, if_true, hp] at hgo
            cases hgo
        | some p =>
            simp only [setupStack, halloc, hinst, if_true, hp] at hgo
            cases hgo
            refine ⟨rfl, hfree.1, fun file => ⟨k, S.palloc_fresh hk, rfl, rfl, fun i hi => ?_,
              fun k' hk' => ?_⟩, rfl, _, rfl, rfl, .of_malloc h hp _ _⟩
            · rw [pageByte_stackPg]
              exact memset_page hi
            · exact update_of_ne hk' _ _
      · have hinst : (sp.memset k 0 PGSIZE).installPage (PHYS_BASE - BitVec.ofNat 32 PGSIZE) k true =
            (sp.memset k 0 PGSIZE, false) := if_neg hfree
        simp only [setupStack, halloc, hinst, Bool.false_eq_true, if_false] at hgo
        cases hgo

theorem setupStack_none (hgo : setupStack hashInt m = .ok (m', none)) :
    KeepsPages m.space m'.space ∧ m'.space.log = m.space.log ∧
      m' = { m with space := m'.space } := by
  cases hk : S.palloc m.space.used with
  | none =>
      simp only [setupStack, pallocGetPage_of_none hk] at hgo
      cases hgo
      exact ⟨⟨rfl, rfl, fun _ _ => rfl⟩, rfl, rfl⟩
  | some k =>
      let sp : Space S := { m.space with used := insert k m.space.used }
      have halloc : m.space.pallocGetPage = some (k, sp) := pallocGetPage_of_some hk
      by_cases hfree : m.space.pagedir stackPage = none ∧
          S.pageTable m.space.pagedir stackPage = true
      · have hinst : (sp.memset k 0 PGSIZE).installPage (PHYS_BASE - BitVec.ofNat 32 PGSIZE) k true =
            ({ sp.memset k 0 PGSIZE with
                pagedir := update m.space.pagedir stackPage (some (k, true)) }, true) :=
          if_pos hfree
        cases hp : S.malloc m.heap with
        | none =>
            simp only [setupStack, halloc, hinst, if_true, hp] at hgo
            cases hgo
        | some p =>
            simp only [setupStack, halloc, hinst, if_true, hp] at hgo
            cases hgo
      · -- the frame is given back
        have hinst : (sp.memset k 0 PGSIZE).installPage (PHYS_BASE - BitVec.ofNat 32 PGSIZE) k true =
            (sp.memset k 0 PGSIZE, false) := if_neg hfree
        simp only [setupStack, halloc, hinst, Bool.false_eq_true, if_false] at hgo
        cases hgo
        have hfresh : k ∉ m.space.used := S.palloc_fresh hk
        refine ⟨⟨Finset.erase_insert hfresh, rfl, fun k' hk' => ?_⟩, rfl, rfl⟩
        exact update_of_ne (fun heq : k' = k => hfresh (heq ▸ hk')) _ _

theorem setupStack_goes (hroom : m.heap.card < S.heapSize) : ∃ r, setupStack hashInt m = .ok r := by
  obtain ⟨p, hp⟩ := Option.ne_none_iff_exists'.1 (S.malloc_some hroom)
  unfold setupStack
  dsimp only
  split
  · exact ⟨_, rfl⟩
  · split
    · rw [hp]
      exact ⟨_, rfl⟩
    · exact ⟨_, rfl⟩

theorem setupStack_ne_assertion : setupStack hashInt m ≠ .error .assertion := by
  unfold setupStack
  dsimp only
  split
  · simp
  · split
    · split <;> simp
    · simp

end Stack

/-! ## `load` -/

section Load

variable {S : Services} {H : HashTable Ptr} {hashInt : Word → ℕ} {m m' : Machine S H}
  {file : FilePtr} {name : List Byte} {files : S.Files} {r : Word × Word}

/-- The entries for the pages of an executable. -/
def fileEntries (S : Services) (file : FilePtr) : List VmEntry :=
  imageEntries file (filePhdrs S file)

/-- What `load` has done when it succeeds: the pages of the executable are registered, and the page
of the stack is mapped to a frame of zeros. -/
structure Loaded (hashInt : Word → ℕ) (file : FilePtr) (m m' : Machine S H) : Prop where
  executable : Executable S file (filePhdrs S file)
  maps : ∀ file, Maps file true stackPg { m.space with pagedir := fun _ => none } m'.space
  entry : ∃ e, e.vaddr = stackPage ∧ e.type = VM_ANON ∧
    Enters hashInt (fun _ => none) (fileEntries S file ++ [e]) m m'

/-- What it has done when it fails. -/
structure LoadFailed (m m' : Machine S H) : Prop where
  pages : KeepsPages { m.space with pagedir := fun _ => none } m'.space
  around : m'.mem.around = m.mem.around
  heap : m.heap ⊆ m'.heap
  entry : ∀ p ∈ m.heap, m'.mem.entry (.heap p) = m.mem.entry (.heap p)
  elem : ∀ p, elemOf p ∈ H.elems m'.vm → elemOf p ∈ H.elems m.vm ∨ p ∉ m.heap
  userPages : ∀ u p, m'.IsEntry u p → UserPage u

/-- `load` of a file that can be opened. -/
structure LoadEnds (hashInt : Word → ℕ) (file : FilePtr) (m : Machine S H)
    (r : Except Fault (Machine S H × Option (Word × Word))) : Prop where
  safe : r ≠ .error .assertion
  goes : m.heap.card + (fileEntries S file).length < S.heapSize → ∃ m' b, r = .ok (m', b)
  closes : ∀ m' b, r = .ok (m', b) → m'.space.log = m.space.log ++ [.opened file, .closed file]
  loaded : ∀ m' b, r = .ok (m', some b) →
    Loaded hashInt file m m' ∧ b = ((fileEhdr S file).eEntry, PHYS_BASE)
  failed : ∀ m', r = .ok (m', none) → LoadFailed m m'

theorem SameFrames.keepsPages {sp sp' : Space S} (h : SameFrames sp sp') : KeepsPages sp sp' :=
  ⟨h.used, h.pagedir, fun k _ => congrFun h.bytes k⟩

/-- The table that holds entries for user pages has an entry for no other page. -/
theorem Machine.Stores.userPages {es : List VmEntry}
    (h : m.Stores hashInt (enterAll VmEntry.vaddr (fun _ => none) es))
    (hes : ∀ e ∈ es, UserPage e.vaddr) {u : Word} {p : VmePtr} (hp : m.IsEntry u p) :
    UserPage u := by
  have hin := h.eq_some_iff.2 ⟨p, hp, rfl⟩
  rw [enterAll_apply, Option.none_or] at hin
  have haddr : (m.mem.entry (.heap p)).vaddr = u := hp.2
  exact haddr ▸ hes _ (List.mem_of_find?_eq_some hin)

theorem LoadFailed.of_adds {sp : Space S} {es : List VmEntry}
    (hsp : SameFrames { m.space with pagedir := fun _ => none } sp)
    (h : Adds hashInt (fun _ => none) es { m with space := sp } m')
    (hes : ∀ e ∈ es, UserPage e.vaddr) : LoadFailed m m' :=
  ⟨(hsp.trans h.frames).keepsPages, h.around, h.heap, h.entry, h.elem,
    fun _ _ hp => h.stores.userPages hes hp⟩

theorem loadImage_ends {sp : Space S} (hpos : S.pos sp.files file = 0)
    (hsp : SameFrames { m.space with pagedir := fun _ => none } sp) (hvm : m.vm = vmInit H) :
    loadImage hashInt file { m with space := sp } ≠ .error .assertion ∧
      (m.heap.card + (fileEntries S file).length < S.heapSize →
        ∃ r, loadImage hashInt file { m with space := sp } = .ok r) ∧
      ∀ m' b, loadImage hashInt file { m with space := sp } = .ok (m', b) →
        m'.space.log = sp.log ∧
        (∀ r, b = some r → Loaded hashInt file m m' ∧ r = ((fileEhdr S file).eEntry, PHYS_BASE)) ∧
        (b = none → LoadFailed m m') := by
  have hheader : (sp.fileReadLocal file EHDR_SIZE).2 = S.stored file 0 EHDR_SIZE := by
    simp only [Space.fileReadLocal, S.read_bytes, hpos]
  let m₁ : Machine S H := { m with space := sp }
  let m₀ : Machine S H := { m with space := (sp.fileReadLocal file EHDR_SIZE).1 }
  have hempty : m₁.Stores hashInt fun _ => none := Machine.Stores.of_vmInit hvm
  have hread : Adds hashInt (fun _ => none) [] m₁ m₀ := .of_space hempty ⟨rfl, rfl, rfl⟩ rfl
  by_cases hbad : (S.stored file 0 EHDR_SIZE).length ≠ EHDR_SIZE ∨
      (fileEhdr S file).valid = false
  · -- the header is not that of an executable
    have himage : loadImage hashInt file { m with space := sp } = .ok (m₀, none) := by
      rw [← hheader] at hbad
      unfold fileEhdr at hbad
      simp only [loadImage, ← hheader] at hbad ⊢
      exact if_pos hbad
    rw [himage]
    refine ⟨by simp, fun _ => ⟨_, rfl⟩, fun m' b hgo => ?_⟩
    cases hgo
    exact ⟨rfl, fun r hr => absurd hr (by simp), fun _ => .of_adds hsp hread (by simp)⟩
  have hgo₀ : loadImage hashInt file { m with space := sp } =
      (loadPhdrs hashInt file (fileEhdr S file).ePhnum.toNat (fileEhdr S file).ePhoff m₀).bind
        fun r => if r.2 then (setupStack hashInt r.1).map fun s =>
          (s.1, s.2.map fun esp => ((fileEhdr S file).eEntry, esp)) else .ok (r.1, none) := by
    unfold fileEhdr at hbad ⊢
    simp only [loadImage, hheader]
    exact if_neg hbad
  rw [hgo₀]
  have hphdrs := @loadPhdrs_loaded S H hashInt file (fileEhdr S file).ePhnum.toNat
    (fileEhdr S file).ePhoff m₀ _ hread.stores
  generalize loadPhdrs hashInt file (fileEhdr S file).ePhnum.toNat (fileEhdr S file).ePhoff m₀ = r
    at hphdrs
  obtain ⟨hsafe, hgoes, hdone, hstop⟩ := hphdrs
  cases r with
  | error e =>
      refine ⟨fun herr => hsafe (by cases herr; rfl), fun hroom => ?_, fun m' b hgo => ?_⟩
      · obtain ⟨r, hr⟩ := hgoes hroom.le
        cases hr
      · cases hgo
  | ok r =>
      obtain ⟨m₂, b₂⟩ := r
      cases b₂ with
      | false =>
          obtain ⟨-, es, hadds, hes⟩ := hstop m₂ rfl
          refine ⟨by simp [Except.bind], fun _ => ⟨_, rfl⟩, fun m' b hgo => ?_⟩
          cases hgo
          exact ⟨hadds.log, fun r hr => absurd hr (by simp),
            fun _ => .of_adds hsp (hread.trans hadds) hes⟩
      | true =>
          obtain ⟨hhas, hadds⟩ := hdone m₂ rfl
          have hall : Adds hashInt (fun _ => none) (fileEntries S file) m₁ m₂ := hread.trans hadds
          have huser : ∀ e ∈ fileEntries S file, UserPage e.vaddr := fun e he => by
            obtain ⟨phdr, hphdr, hload, pg, hpg, rfl⟩ := mem_imageEntries.1 he
            exact (userPage_of_mem ((hhas.accepted phdr hphdr).2 hload) hpg).1
          refine ⟨fun herr => ?_, fun hroom => ?_, fun m' b hgo => ?_⟩
          · cases hstack : setupStack hashInt m₂ with
            | ok s =>
                simp [Except.bind, hstack, Except.map] at herr
            | error e =>
                simp only [Except.bind, hstack, Except.map, if_true] at herr
                cases herr
                exact setupStack_ne_assertion hstack
          · have hcard : m₂.heap.card = m.heap.card + (fileEntries S file).length := hall.card
            obtain ⟨s, hs⟩ := @setupStack_goes S H hashInt m₂ (hcard ▸ hroom)
            exact ⟨_, by simp only [Except.bind, hs, Except.map, if_true]; rfl⟩
          · obtain ⟨⟨m₃, esp⟩, hstack, heq⟩ := except_map_eq_ok.1 hgo
            cases heq
            cases esp with
            | none =>
                obtain ⟨hkeeps, hlog, hm₃⟩ := setupStack_none hstack
                have hframes := hsp.trans hall.frames
                refine ⟨hlog.trans hall.log, fun r hr => absurd hr (by simp),
                  fun _ => ⟨?_, ?_, ?_, ?_, ?_, fun u p hp => ?_⟩⟩
                · exact ⟨hkeeps.1.trans hframes.used, hkeeps.2.1.trans hframes.pagedir,
                    fun k hk => (hkeeps.2.2 k (hframes.used ▸ hk)).trans (congrFun hframes.bytes k)⟩
                · rw [hm₃]
                  exact hall.around
                · rw [hm₃]
                  exact hall.heap
                · rw [hm₃]
                  exact hall.entry
                · rw [hm₃]
                  exact hall.elem
                · have hstores := hall.stores.of_space m₃.space
                  rw [← hm₃] at hstores
                  exact hstores.userPages huser hp
            | some esp =>
                obtain ⟨rfl, hset⟩ := setupStack_some hall.stores hstack
                obtain ⟨e, haddr, htype, henters⟩ := hset.entry
                have hframes := hsp.trans hall.frames
                refine ⟨hset.log.trans hall.log, fun r hr => ?_, fun h => by cases h⟩
                cases hr
                have hexe : Executable S file (filePhdrs S file) := by
                  rw [not_or, not_not, Bool.not_eq_false] at hbad
                  exact ⟨hbad.1, hbad.2, length_phdrsFrom.symm, hhas⟩
                have hentries := hall.toEnters.trans henters
                refine ⟨⟨hexe, fun file => ?_, e, haddr, htype, hentries.stores, hentries.around,
                  hentries.heap, hentries.entry, hentries.elem, hentries.card⟩, rfl⟩
                obtain ⟨k, hk, hused, hdir, hbytes, hother⟩ := hset.maps file
                refine ⟨k, hframes.used ▸ hk, hused.trans (by rw [hframes.used]), ?_, hbytes,
                  fun k' hk' => (hother k' hk').trans (congrFun hframes.bytes k')⟩
                rw [hdir, hframes.pagedir]

theorem load_ends (hopen : S.filesysOpen m.space.files name = (files, some file))
    (hpos : S.pos files file = 0) (hcreate : S.pagedirCreate = true) (hvm : m.vm = vmInit H) :
    LoadEnds hashInt file m (load hashInt name m) := by
  let sp : Space S :=
    { m.space with pagedir := fun _ => none, files := files, log := m.space.log ++ [.opened file] }
  have hopened : ({ m.space with pagedir := fun _ => none } : Space S).filesysOpen name =
      (sp, some file) := by
    simp only [Space.filesysOpen, hopen, sp]
  obtain ⟨hsafe, hgoes, hends⟩ := @loadImage_ends S H hashInt m file sp hpos ⟨rfl, rfl, rfl⟩ hvm
  have hcreate' : ¬ S.pagedirCreate = false := by simp [hcreate]
  have hgo : load hashInt name m = (loadImage hashInt file { m with space := sp }).map fun r =>
      ({ r.1 with space := r.1.space.fileClose (some file) }, r.2) := by
    simp only [load, if_neg hcreate', hopened]
  rw [hgo]
  refine ⟨fun herr => ?_, fun hroom => ?_, fun m' b h => ?_, fun m' b h => ?_, fun m' h => ?_⟩
  · cases himage : loadImage hashInt file { m with space := sp } with
    | ok r =>
        rw [himage] at herr
        cases herr
    | error e =>
        rw [himage] at herr
        cases herr
        exact hsafe himage
  · obtain ⟨r, hr⟩ := hgoes hroom
    exact ⟨_, _, by rw [hr]; rfl⟩
  all_goals
    obtain ⟨⟨m₁, b₁⟩, himage, heq⟩ := except_map_eq_ok.1 h
    obtain ⟨hlog, hsome, hnone⟩ := hends m₁ b₁ himage
    cases heq
  · show m₁.space.log ++ [FileEvent.closed file] = _
    rw [hlog]
    exact List.append_assoc ..
  · obtain ⟨⟨hexe, hmaps, e, haddr, htype, henters⟩, hr⟩ := hsome b rfl
    exact ⟨⟨hexe, hmaps, e, haddr, htype, henters.with_space _⟩, hr⟩
  · obtain ⟨hpages, haround, hheap, hentry, helem, huser⟩ := hnone rfl
    exact ⟨hpages, haround, hheap, hentry, helem, huser⟩

/-- A `load` that succeeds has opened the file. -/
theorem load_opens (hgo : load hashInt name m = .ok (m', some r)) :
    S.pagedirCreate = true ∧ ∃ files file, S.filesysOpen m.space.files name = (files, some file) := by
  unfold load at hgo
  split at hgo
  · cases hgo
  · next hcreate =>
      refine ⟨by simpa using hcreate, ?_⟩
      dsimp only [Space.filesysOpen] at hgo
      rcases hopen : S.filesysOpen m.space.files name with ⟨files, opened⟩
      rw [hopen] at hgo
      cases opened with
      | none =>
          cases hgo
      | some file =>
          exact ⟨files, file, rfl⟩

/-- However it fails, no frame is taken. -/
theorem load_failed (hopen : ∀ s name s' f, S.filesysOpen s name = (s', some f) → S.pos s' f = 0)
    (hvm : m.vm = vmInit H) (hdir : m.space.pagedir = fun _ => none)
    (hgo : load hashInt name m = .ok (m', none)) : LoadFailed m m' := by
  have hnone : ∀ sp : Space S, sp.used = m.space.used → sp.bytes = m.space.bytes →
      sp.pagedir = (fun _ => none) → LoadFailed m { m with space := sp } := by
    intro sp hused hbytes hsp
    refine ⟨⟨hused, hsp, fun k _ => congrFun hbytes k⟩, rfl, subset_rfl, fun _ _ => rfl,
      fun _ => Or.inl, fun u p hp => ?_⟩
    -- nothing has been registered
    have hempty : m.Stores hashInt (enterAll VmEntry.vaddr (fun _ => none) []) := .of_vmInit hvm
    exact hempty.userPages (by simp) hp
  by_cases hcreate : S.pagedirCreate = true
  · rcases hfile : S.filesysOpen m.space.files name with ⟨files, opened⟩
    cases opened with
    | some file =>
        exact (load_ends hfile (hopen _ _ _ _ hfile) hcreate hvm).failed m' hgo
    | none =>
        have hcreate' : ¬ S.pagedirCreate = false := by simp [hcreate]
        simp only [load, if_neg hcreate', Space.filesysOpen, hfile] at hgo
        cases hgo
        exact hnone _ rfl rfl rfl
  · rw [load, if_pos (by simpa using hcreate)] at hgo
    cases hgo
    exact hnone _ rfl rfl hdir

/-- Whatever the file contains, with room on the heap for an entry of each page that the file
describes `load` comes to an end, and it closes the file; without, it may follow the `NULL` of
`malloc`.  It registers an executable with its stack, or takes no frame.  With memory enough, the
files that it loads are the executables. -/
theorem load_any_file (hopen : S.filesysOpen m.space.files name = (files, some file))
    (hpos : S.pos files file = 0) (hcreate : S.pagedirCreate = true) (hvm : m.vm = vmInit H) :
    LoadEnds hashInt file m (load hashInt name m) ∧
      ((∀ dir u, S.pageTable dir u = true) → m.space.used.card < S.poolSize →
        m.heap.card + (fileEntries S file).length < S.heapSize →
          ((∃ m' r, load hashInt name m = .ok (m', some r)) ↔
            Executable S file (filePhdrs S file))) := by
  have hends : LoadEnds hashInt file m (load hashInt name m) := load_ends hopen hpos hcreate hvm
  refine ⟨hends, fun htable hpool hroom => ⟨?_, fun hexe => ?_⟩⟩
  · rintro ⟨m', r, hgo⟩
    exact (hends.loaded m' r hgo).1.executable
  · obtain ⟨m', r, e, hgo, -⟩ := load_stores hexe hopen hpos hcreate htable hvm hpool hroom
    exact ⟨m', r, hgo⟩

end Load

/-! ## The pages of an executable -/

section UserPages

variable {S : Services} {file : FilePtr}

theorem fileEntries_page (hexe : Executable S file (filePhdrs S file)) {e : VmEntry}
    (he : e ∈ fileEntries S file) :
    UserPage e.vaddr ∧ e.type = VM_BIN ∧ e.file = file ∧ e.readBytes + e.zeroBytes = PGSIZE := by
  obtain ⟨phdr, hphdr, hload, pg, hpg, rfl⟩ := mem_imageEntries.1 he
  obtain ⟨hpage, hsize⟩ := userPage_of_mem ((hexe.phdrs.accepted phdr hphdr).2 hload) hpg
  exact ⟨hpage, rfl, rfl, hsize⟩

/-- Whatever the file contains and however the call ends, the pages that `load` registers and maps
are pages of user memory. -/
theorem load_registers_user_pages {H : HashTable Ptr} {hashInt : Word → ℕ} {m m' : Machine S H}
    {name : List Byte} {b : Option (Word × Word)}
    (hopen : ∀ s name s' f, S.filesysOpen s name = (s', some f) → S.pos s' f = 0)
    (hvm : m.vm = vmInit H) (hdir : m.space.pagedir = fun _ => none)
    (hgo : load hashInt name m = .ok (m', b)) :
    (∀ u p, m'.IsEntry u p → UserPage u) ∧ ∀ u, m'.space.pagedir u ≠ none → UserPage u := by
  cases b with
  | none =>
      have hfailed := load_failed hopen hvm hdir hgo
      refine ⟨hfailed.userPages, fun u hu => ?_⟩
      rw [hfailed.pages.2.1] at hu
      exact absurd rfl hu
  | some r =>
      obtain ⟨hcreate, files, file, hfile⟩ := load_opens hgo
      obtain ⟨hexe, hmaps, e, haddr, htype, henters⟩ :=
        ((load_ends hfile (hopen _ _ _ _ hfile) hcreate hvm).loaded m' r hgo).1
      refine ⟨fun u p hp => henters.stores.userPages (fun e' he' => ?_) hp, fun u hu => ?_⟩
      · rcases List.mem_append.1 he' with hmem | hmem
        · exact (fileEntries_page hexe hmem).1
        · rw [List.mem_singleton.1 hmem, haddr]
          exact userPage_stackPage
      · by_cases heq : u = stackPage
        · exact heq ▸ userPage_stackPage
        · rw [(hmaps file).pagedir_of_ne heq] at hu
          exact absurd rfl hu

end UserPages

/-! ### The executable of one segment -/

theorem oneSegment_opens : ∀ s name s' f, oneSegment.filesysOpen s name = (s', some f) →
    oneSegment.pos s' f = 0 := by
  intro s name s' f h
  cases h
  rfl

theorem load_any_file_one :
    LoadEnds BitVec.toNat 0 freshMachine (load BitVec.toNat [0x61] freshMachine) ∧
      ((∀ dir u, oneSegment.pageTable dir u = true) →
        freshMachine.space.used.card < oneSegment.poolSize →
        freshMachine.heap.card + (fileEntries oneSegment 0).length < oneSegment.heapSize →
          ((∃ m' r, load BitVec.toNat [0x61] freshMachine = .ok (m', some r)) ↔
            Executable oneSegment 0 (filePhdrs oneSegment 0))) :=
  load_any_file rfl rfl rfl rfl

theorem load_registers_user_pages_one :
    (∀ u p, loadedMachine.1.IsEntry u p → UserPage u) ∧
      ∀ u, loadedMachine.1.space.pagedir u ≠ none → UserPage u :=
  load_registers_user_pages oneSegment_opens rfl rfl load_freshMachine

end Project4
end Pintos
