import Pintos.Lib.FirstCome
import Pintos.Userprog.Pages
import Pintos.Project4.DemandLoading
import Pintos.Project4.FileLifetime

/-!
# LoadResult — does `load` succeed only if everything was registered?

`insert_vme` refuses an entry whose page has one already, but neither `load_segment` nor
`setup_stack` passes the refusal on.  So `load` succeeds with every executable that it accepts, and
what the table holds afterwards is what came first on each page.
-/

namespace Pintos
namespace Project4

open Lib Userprog Function

/-! ## The entries of the table -/

section Stores

variable {S : Services} {H : HashTable Ptr} {hashInt : Word → ℕ} {m m' m'' : Machine S H}
  {c : Word → Option VmEntry} {e : VmEntry} {u : Word} {p : VmePtr}

/-- The table holds the entries `c`, and they come from `malloc`. -/
def Machine.Stores (hashInt : Word → ℕ) (m : Machine S H) (c : Word → Option VmEntry) : Prop :=
  ∃ f, m.Registers hashInt f ∧ ∀ u, c u = (f u).map fun p => m.mem.entry (.heap p)

namespace Machine.Stores

theorem of_space (h : m.Stores hashInt c) (sp : Space S) :
    ({ m with space := sp } : Machine S H).Stores hashInt c := by
  obtain ⟨f, hf, hc⟩ := h
  exact ⟨f, ⟨hf.represents, hf.heap⟩, hc⟩

theorem of_vmInit (h : m.vm = vmInit H) : m.Stores hashInt fun _ => none := by
  have hrep : Represents hashInt ⟨m.mem, m.vm⟩ fun _ => none := by
    rw [h]
    exact Represents.start m.mem
  exact ⟨fun _ => none, ⟨hrep, nofun⟩, fun _ => rfl⟩

/-- What the table holds for a page, by its entries. -/
theorem eq_some_iff (h : m.Stores hashInt c) :
    c u = some e ↔ ∃ p, m.IsEntry u p ∧ m.mem.entry (.heap p) = e := by
  obtain ⟨f, hf, hc⟩ := h
  rw [hc, Option.map_eq_some_iff]
  exact exists_congr fun p => and_congr_left fun _ => hf.represents.entry u p

/-- A fresh block is filled in and inserted. -/
theorem malloc (h : m.Stores hashInt c) (hp : S.malloc m.heap = some p) (sp : Space S)
    (e : VmEntry) :
    (⟨sp, insert p m.heap, m.mem.write (.heap p) e,
        (insertVme H hashInt (m.mem.write (.heap p) e) m.vm p).1⟩ : Machine S H).Stores hashInt
      (enter VmEntry.vaddr c e) := by
  obtain ⟨f, hf, hc⟩ := h
  have hfresh : p ∉ m.heap := S.malloc_fresh hp
  have hnew : elemOf p ∉ H.elems m.vm := fun hmem =>
    hfresh (hf.heap _ p ((hf.represents.entry _ p).2 ⟨hmem, rfl⟩))
  let mem' := m.mem.write (.heap p) e
  have hself : mem'.entry (.heap p) = e := write_entry_self _ _
  have hwrite : Represents hashInt ⟨mem', m.vm⟩ f :=
    hf.represents.write (e := e) fun hmem => absurd hmem hnew
  have hins := hwrite.insert p
  rw [show ((⟨mem', m.vm⟩ : VmState H).mem.entry (.heap p)).vaddr = e.vaddr from
    congrArg VmEntry.vaddr hself] at hins
  -- the entries that were there keep their contents
  have hkept : ∀ u, ((f u).map fun q => mem'.entry (.heap q)) = c u := by
    intro u
    rw [hc]
    refine Option.map_congr fun q hq => ?_
    have hne : q ≠ p := fun heq => hfresh (heq ▸ hf.heap u q hq)
    exact write_entry_of_ne (by simpa using hne) e
  refine ⟨f.insert e.vaddr p, ⟨hins, fun u q hq => ?_⟩, fun u => ?_⟩
  · unfold PageMap.insert at hq
    split at hq
    · by_cases hu : u = e.vaddr
      · rw [hu, update_self, Option.some.injEq] at hq
        exact hq ▸ Finset.mem_insert_self p m.heap
      · rw [update_of_ne hu] at hq
        exact Finset.mem_insert_of_mem (hf.heap u q hq)
    · exact Finset.mem_insert_of_mem (hf.heap u q hq)
  · have hnone : f e.vaddr = none ↔ c e.vaddr = none := by
      rw [hc, Option.map_eq_none_iff]
    unfold PageMap.insert
    split
    · rename_i hfree
      by_cases hu : u = e.vaddr
      · rw [hu, enter_self (hnone.1 hfree), update_self]
        exact congrArg some hself.symm
      · rw [enter_of_ne (Ne.symm hu), update_of_ne hu]
        exact (hkept u).symm
    · rename_i htaken
      obtain ⟨e', he'⟩ := Option.ne_none_iff_exists'.1 fun hno => htaken (hnone.2 hno)
      by_cases hu : u = e.vaddr
      · rw [hu, enter_of_some he', ← he']
        exact (hkept _).symm
      · rw [enter_of_ne (Ne.symm hu)]
        exact (hkept u).symm

end Machine.Stores

/-- The entries `es` have been registered, in this order, in a table that held `c`; of the memory at
most file positions have changed. -/
structure Registered (hashInt : Word → ℕ) (c : Word → Option VmEntry) (es : List VmEntry)
    (m m' : Machine S H) : Prop where
  stores : m'.Stores hashInt (enterAll VmEntry.vaddr c es)
  used : m'.space.used = m.space.used
  pagedir : m'.space.pagedir = m.space.pagedir
  heap : m'.heap.card = m.heap.card + es.length

namespace Registered

variable {es es' : List VmEntry}

theorem of_space (h : m.Stores hashInt c) {sp : Space S} (hused : sp.used = m.space.used)
    (hdir : sp.pagedir = m.space.pagedir) :
    Registered hashInt c [] m { m with space := sp } :=
  ⟨h.of_space sp, hused, hdir, rfl⟩

theorem trans (h : Registered hashInt c es m m')
    (h' : Registered hashInt (enterAll VmEntry.vaddr c es) es' m' m'') :
    Registered hashInt c (es ++ es') m m'' := by
  refine ⟨?_, h'.used.trans h.used, h'.pagedir.trans h.pagedir, ?_⟩
  · rw [enterAll_append]
    exact h'.stores
  · rw [h'.heap, h.heap, List.length_append, Nat.add_assoc]

end Registered

theorem registerPages_registered (file : FilePtr) (writable : Bool) {ps : List SegmentPage} :
    ∀ {m : Machine S H} {c : Word → Option VmEntry}, m.Stores hashInt c →
    m.heap.card + ps.length ≤ S.heapSize →
    ∃ m', registerPages hashInt file writable ps m = .ok m' ∧
      Registered hashInt c (ps.map (binEntry file writable)) m m' := by
  induction ps with
  | nil =>
      intro m c h _
      exact ⟨m, rfl, .of_space h rfl rfl⟩
  | cons pg ps ih =>
      intro m c h hroom
      rw [List.length_cons] at hroom
      obtain ⟨p, hp⟩ := Option.ne_none_iff_exists'.1
        (S.malloc_some (show m.heap.card < S.heapSize by omega))
      let m₁ : Machine S H := ⟨m.space, insert p m.heap,
        m.mem.write (.heap p) (binEntry file writable pg),
        (insertVme H hashInt (m.mem.write (.heap p) (binEntry file writable pg)) m.vm p).1⟩
      have hreg : registerPage hashInt file writable pg.ofs pg.upage pg.readBytes pg.zeroBytes m =
          .ok m₁ := by
        simp only [registerPage, hp]
        rfl
      have hcard : m₁.heap.card = m.heap.card + 1 := Finset.card_insert_of_notMem (S.malloc_fresh hp)
      have hfirst : Registered hashInt c [binEntry file writable pg] m m₁ :=
        ⟨h.malloc hp m.space (binEntry file writable pg), rfl, rfl, hcard⟩
      obtain ⟨m', hgo, hrest⟩ := ih hfirst.stores (by omega)
      refine ⟨m', ?_, hfirst.trans hrest⟩
      simp only [registerPages, hreg, Except.bind, hgo]

end Stores

/-! ## The pages of a segment -/

section Phdr

def Elf32Phdr.writable (phdr : Elf32Phdr) : Bool := decide (phdr.pFlags &&& PF_W ≠ 0)

/-- The bytes from the start of the first page to the end of what comes from the file. -/
def Elf32Phdr.readBytes (phdr : Elf32Phdr) : Word :=
  if phdr.pFilesz > 0 then pgOfs phdr.pVaddr + phdr.pFilesz else 0

/-- The bytes from the start of the first page to the end of the last. -/
def Elf32Phdr.span (phdr : Elf32Phdr) : Word := roundUp (pgOfs phdr.pVaddr + phdr.pMemsz)

/-- The pages that the segment covers, with the parts of the file that belong there. -/
def Elf32Phdr.pages (phdr : Elf32Phdr) : List SegmentPage :=
  segmentPages (pgRoundDown phdr.pOffset) (pgRoundDown phdr.pVaddr) phdr.readBytes.toNat
    (phdr.span.toNat / PGSIZE)

variable {phdr : Elf32Phdr} {fileLength x : Word}

theorem toNat_roundUp (h : x.toNat < PHYS_BASE.toNat) :
    (roundUp x).toNat = (x.toNat + 4095) / PGSIZE * PGSIZE := by
  rw [toNat_physBase] at h
  have hsum : (x + BitVec.ofNat 32 (PGSIZE - 1)).toNat = x.toNat + 4095 := by
    rw [BitVec.toNat_add, BitVec.toNat_ofNat, PGSIZE]
    omega
  rw [roundUp, BitVec.toNat_mul, BitVec.toNat_udiv, hsum, toNat_pgsize, PGSIZE]
  omega

/-- A segment that `validate_segment` accepts ends below `PHYS_BASE`, and so do its parts. -/
theorem validateSegment_bounds (h : validateSegment phdr fileLength = true) :
    phdr.pFilesz.toNat ≤ phdr.pMemsz.toNat ∧
      phdr.pVaddr.toNat + phdr.pMemsz.toNat < PHYS_BASE.toNat := by
  simp only [validateSegment, Bool.and_eq_true, decide_eq_true_eq, isUserVaddr] at h
  obtain ⟨⟨⟨⟨⟨⟨⟨-, -⟩, hle⟩, -⟩, -⟩, huser⟩, hwrap⟩, -⟩ := h
  rw [BitVec.le_def] at hle hwrap
  rw [BitVec.lt_def] at huser
  rw [BitVec.toNat_add] at huser hwrap
  rw [toNat_physBase] at huser ⊢
  omega

theorem toNat_span (h : validateSegment phdr fileLength = true) :
    phdr.span.toNat =
      (phdr.pVaddr.toNat % PGSIZE + phdr.pMemsz.toNat + 4095) / PGSIZE * PGSIZE := by
  obtain ⟨-, hend⟩ := validateSegment_bounds h
  rw [toNat_physBase] at hend
  have hsum : (pgOfs phdr.pVaddr + phdr.pMemsz).toNat =
      phdr.pVaddr.toNat % PGSIZE + phdr.pMemsz.toNat := by
    rw [BitVec.toNat_add, toNat_pgOfs, PGSIZE]
    omega
  rw [Elf32Phdr.span, toNat_roundUp, hsum]
  rw [hsum, toNat_physBase, PGSIZE]
  omega

/-- The two counts that `load` hands to `load_segment` make up whole pages. -/
theorem readBytes_le_span (h : validateSegment phdr fileLength = true) :
    phdr.readBytes.toNat ≤ phdr.span.toNat := by
  obtain ⟨hle, hend⟩ := validateSegment_bounds h
  rw [toNat_physBase] at hend
  rw [toNat_span h, Elf32Phdr.readBytes]
  split
  · rw [BitVec.toNat_add, toNat_pgOfs, PGSIZE]
    omega
  · exact Nat.zero_le _

theorem span_pages (h : validateSegment phdr fileLength = true) :
    phdr.readBytes.toNat + (phdr.span - phdr.readBytes).toNat =
      phdr.span.toNat / PGSIZE * PGSIZE := by
  have hle := readBytes_le_span h
  have hspan := toNat_span h
  have hlt := phdr.span.isLt
  rw [BitVec.toNat_sub, PGSIZE] at *
  omega

end Phdr

/-! ## What `load` registers -/

section Image

variable {S : Services} {H : HashTable Ptr} {hashInt : Word → ℕ} {m : Machine S H}
  {c : Word → Option VmEntry} {file : FilePtr} {phdr : Elf32Phdr} {phdrs : List Elf32Phdr}

/-- The entries that `load` makes for a program header, in order. -/
def segmentEntries (file : FilePtr) (phdr : Elf32Phdr) : List VmEntry :=
  if phdr.pType = PT_LOAD then phdr.pages.map (binEntry file phdr.writable) else []

def imageEntries (file : FilePtr) (phdrs : List Elf32Phdr) : List VmEntry :=
  phdrs.flatMap (segmentEntries file)

/-- `load` goes on after this header. -/
def Elf32Phdr.Accepted (phdr : Elf32Phdr) (fileLength : Word) : Prop :=
  (phdr.pType ≠ PT_DYNAMIC ∧ phdr.pType ≠ PT_INTERP ∧ phdr.pType ≠ PT_SHLIB) ∧
    (phdr.pType = PT_LOAD → validateSegment phdr fileLength = true)

/-- From the offset on the file has these program headers, all of them accepted. -/
def HasPhdrs (S : Services) (file : FilePtr) : Word → List Elf32Phdr → Prop
  | _, [] => True
  | fileOfs, phdr :: phdrs =>
      (fileOfs.slt 0 = false ∧ (S.fileLength file).slt fileOfs = false) ∧
        (S.stored file fileOfs PHDR_SIZE).length = PHDR_SIZE ∧
        Elf32Phdr.ofBytes (S.stored file fileOfs PHDR_SIZE) = phdr ∧
        phdr.Accepted (S.fileLength file) ∧
        HasPhdrs S file (fileOfs + BitVec.ofNat 32 PHDR_SIZE) phdrs

/-- The file is an executable with these program headers. -/
structure Executable (S : Services) (file : FilePtr) (phdrs : List Elf32Phdr) : Prop where
  size : (S.stored file 0 EHDR_SIZE).length = EHDR_SIZE
  valid : (Elf32Ehdr.ofBytes (S.stored file 0 EHDR_SIZE)).valid = true
  phnum : (Elf32Ehdr.ofBytes (S.stored file 0 EHDR_SIZE)).ePhnum.toNat = phdrs.length
  phdrs : HasPhdrs S file (Elf32Ehdr.ofBytes (S.stored file 0 EHDR_SIZE)).ePhoff phdrs

theorem loadPhdr_registered (hvalid : validateSegment phdr (S.fileLength file) = true)
    (h : m.Stores hashInt c) (hroom : m.heap.card + phdr.pages.length ≤ S.heapSize) :
    ∃ m', loadPhdr hashInt file phdr m = .ok (m', true) ∧
      Registered hashInt c (phdr.pages.map (binEntry file phdr.writable)) m m' := by
  let m₀ : Machine S H := { m with space := m.space.fileSeek file (pgRoundDown phdr.pOffset) }
  have hseek : Registered hashInt c [] m m₀ := .of_space h rfl rfl
  obtain ⟨m', hreg, hpages⟩ := registerPages_registered file phdr.writable hseek.stores hroom
  refine ⟨m', ?_, hseek.trans hpages⟩
  have hsum := span_pages hvalid
  have hmod : (phdr.readBytes.toNat + (phdr.span - phdr.readBytes).toNat) % PGSIZE = 0 := by
    rw [hsum]
    exact Nat.mul_mod_left _ _
  have hle : phdr.span.toNat / PGSIZE ≤
      phdr.readBytes.toNat + (phdr.span - phdr.readBytes).toNat := by
    rw [hsum]
    exact Nat.le_mul_of_pos_right _ (by decide)
  have hseg : loadSegment hashInt file (pgRoundDown phdr.pOffset) (pgRoundDown phdr.pVaddr)
      phdr.readBytes.toNat (phdr.span - phdr.readBytes).toNat phdr.writable m = .ok (m', true) := by
    rw [loadSegment, if_pos ⟨hmod, pgOfs_pgRoundDown _, pgOfs_pgRoundDown _⟩,
      loadSegmentLoop_eq hsum hle]
    exact congrArg (Except.map fun m => (m, true)) hreg
  rw [loadPhdr, if_pos hvalid]
  exact hseg

theorem loadPhdrs_registered :
    ∀ {phdrs : List Elf32Phdr} {fileOfs : Word} {m : Machine S H} {c : Word → Option VmEntry},
    HasPhdrs S file fileOfs phdrs → m.Stores hashInt c →
    m.heap.card + (imageEntries file phdrs).length ≤ S.heapSize →
    ∃ m', loadPhdrs hashInt file phdrs.length fileOfs m = .ok (m', true) ∧
      Registered hashInt c (imageEntries file phdrs) m m' := by
  intro phdrs
  induction phdrs with
  | nil =>
      intro fileOfs m c _ h _
      exact ⟨m, rfl, .of_space h rfl rfl⟩
  | cons phdr phdrs ih =>
      intro fileOfs m c hfile h hroom
      obtain ⟨⟨hneg, hbeyond⟩, hlen, hbytes, ⟨htype, hvalid⟩, hrest⟩ := hfile
      have happend : imageEntries file (phdr :: phdrs) =
          segmentEntries file phdr ++ imageEntries file phdrs := rfl
      rw [happend, List.length_append] at hroom
      have hread : ((m.space.fileSeek file fileOfs).fileReadLocal file PHDR_SIZE).2 =
          S.stored file fileOfs PHDR_SIZE := by
        simp only [Space.fileReadLocal, S.read_bytes, Space.fileSeek, S.seek_pos]
      let m₀ : Machine S H := { m with
        space := ((m.space.fileSeek file fileOfs).fileReadLocal file PHDR_SIZE).1 }
      have hmoved : Registered hashInt c [] m m₀ := .of_space h rfl rfl
      -- the header is registered, or skipped
      obtain ⟨m₁, hone, hreg⟩ : ∃ m₁,
          (if phdr.pType = PT_LOAD then loadPhdr hashInt file phdr m₀ else .ok (m₀, true)) =
            .ok (m₁, true) ∧ Registered hashInt c (segmentEntries file phdr) m m₁ := by
        by_cases hload : phdr.pType = PT_LOAD
        · have hentries : segmentEntries file phdr =
              phdr.pages.map (binEntry file phdr.writable) := if_pos hload
          rw [hentries, List.length_map] at hroom
          obtain ⟨m₁, hgo, hreg⟩ :=
            loadPhdr_registered (hvalid hload) hmoved.stores (by show m.heap.card + _ ≤ _; omega)
          exact ⟨m₁, by rw [if_pos hload, hgo], hentries ▸ hmoved.trans hreg⟩
        · have hentries : segmentEntries file phdr = [] := if_neg hload
          exact ⟨m₀, by rw [if_neg hload], hentries ▸ hmoved⟩
      obtain ⟨m', hgo, hreg'⟩ := ih hrest hreg.stores (by rw [hreg.heap]; omega)
      refine ⟨m', ?_, hreg.trans hreg'⟩
      have hskip : ¬ (phdr.pType = PT_DYNAMIC ∨ phdr.pType = PT_INTERP ∨ phdr.pType = PT_SHLIB) := by
        rintro (h | h | h)
        · exact htype.1 h
        · exact htype.2.1 h
        · exact htype.2.2 h
      simp only [List.length_cons, loadPhdrs, hneg, hbeyond, Bool.or_self, Bool.false_eq_true,
        if_false, hread, hlen, ne_eq, not_true_eq_false, hbytes, hskip]
      change Except.bind (if phdr.pType = PT_LOAD then loadPhdr hashInt file phdr m₀ else _) _ = _
      rw [hone]
      exact hgo

/-- The page of the initial stack. -/
def stackPage : Word := PHYS_BASE - BitVec.ofNat 32 PGSIZE

/-- `setup_stack` succeeds, whether or not the table takes the entry. -/
theorem setupStack_stores (h : m.Stores hashInt c) (hroom : m.heap.card < S.heapSize)
    (hpool : m.space.used.card < S.poolSize) (htable : ∀ dir u, S.pageTable dir u = true)
    (hfree : m.space.pagedir stackPage = none) :
    ∃ m' e, setupStack hashInt m = .ok (m', some PHYS_BASE) ∧ e.vaddr = stackPage ∧
      e.type = VM_ANON ∧ m'.Stores hashInt (enter VmEntry.vaddr c e) := by
  obtain ⟨k, hk⟩ := Option.ne_none_iff_exists'.1 (S.palloc_some hpool)
  obtain ⟨p, hp⟩ := Option.ne_none_iff_exists'.1 (S.malloc_some hroom)
  let sp : Space S := { m.space with used := insert k m.space.used }
  have halloc : m.space.pallocGetPage = some (k, sp) := pallocGetPage_of_some hk
  let e : VmEntry := { m.mem.entry (.heap p) with
    type := VM_ANON, vaddr := stackPage, writable := true, isLoaded := true }
  let sp' : Space S := { sp.memset k 0 PGSIZE with
    pagedir := update (sp.memset k 0 PGSIZE).pagedir stackPage (some (k, true)) }
  have hmapped : (sp.memset k 0 PGSIZE).installPage stackPage k true = (sp', true) :=
    installPage_of_none (htable _ _) hfree
  refine ⟨_, e, ?_, rfl, rfl, h.malloc hp sp' e⟩
  simp only [stackPage] at hmapped
  simp only [setupStack, halloc, hmapped, if_true, hp]
  rfl

/-- `load` succeeds, and the table holds on each page what came first. -/
theorem load_stores {name : List Byte} {files : S.Files} (hexe : Executable S file phdrs)
    (hopen : S.filesysOpen m.space.files name = (files, some file)) (hpos : S.pos files file = 0)
    (hdir : S.pagedirCreate = true) (htable : ∀ dir u, S.pageTable dir u = true)
    (hvm : m.vm = vmInit H) (hpool : m.space.used.card < S.poolSize)
    (hroom : m.heap.card + (imageEntries file phdrs).length < S.heapSize) :
    ∃ m' r e, load hashInt name m = .ok (m', some r) ∧ e.vaddr = stackPage ∧ e.type = VM_ANON ∧
      m'.Stores hashInt
        (enter VmEntry.vaddr (enterAll VmEntry.vaddr (fun _ => none) (imageEntries file phdrs)) e)
      := by
  let opened : Space S :=
    { m.space with pagedir := fun _ => none, files := files, log := m.space.log ++ [.opened file] }
  have hopened : ({ m.space with pagedir := fun _ => none } : Space S).filesysOpen name =
      (opened, some file) := by
    simp only [Space.filesysOpen, hopen, opened]
  have hheader : (opened.fileReadLocal file EHDR_SIZE).2 = S.stored file 0 EHDR_SIZE := by
    simp only [Space.fileReadLocal, S.read_bytes, opened, hpos]
  let m₀ : Machine S H := { m with space := (opened.fileReadLocal file EHDR_SIZE).1 }
  have hempty : m₀.Stores hashInt fun _ => none := Machine.Stores.of_vmInit hvm
  obtain ⟨m₁, hphdrs, hreg⟩ := loadPhdrs_registered hexe.phdrs hempty (by
    show m.heap.card + _ ≤ _
    exact hroom.le)
  obtain ⟨m₂, e, hstack, haddr, htype, hstores⟩ := setupStack_stores hreg.stores
    (by rw [hreg.heap]; exact hroom) (by rw [hreg.used]; exact hpool) htable (by rw [hreg.pagedir]; rfl)
  refine ⟨{ m₂ with space := m₂.space.fileClose (some file) },
    ((Elf32Ehdr.ofBytes (S.stored file 0 EHDR_SIZE)).eEntry, PHYS_BASE), e, ?_, haddr, htype,
    hstores.of_space _⟩
  have himage : loadImage hashInt file { m with space := opened } =
      .ok (m₂, some ((Elf32Ehdr.ofBytes (S.stored file 0 EHDR_SIZE)).eEntry, PHYS_BASE)) := by
    have hgood : ¬ ((S.stored file 0 EHDR_SIZE).length ≠ EHDR_SIZE ∨
        (Elf32Ehdr.ofBytes (S.stored file 0 EHDR_SIZE)).valid = false) := by
      rintro (hsize | hvalid)
      · exact hsize hexe.size
      · rw [hexe.valid] at hvalid
        cases hvalid
    simp only [loadImage, hheader, if_neg hgood, hexe.phnum]
    change Except.bind (loadPhdrs hashInt file phdrs.length _ m₀) _ = _
    rw [hphdrs]
    change Except.map _ (setupStack hashInt m₁) = _
    rw [hstack]
    rfl
  have hcreate : ¬ S.pagedirCreate = false := by simp [hdir]
  simp only [load, if_neg hcreate, hopened, himage]
  rfl

/-! ## The property -/

/-- The page has an entry with the segment's offset, sizes and writable flag. -/
def Machine.HasSegmentPage (m : Machine S H) (writable : Bool) (pg : SegmentPage) : Prop :=
  ∃ p, m.IsEntry pg.upage p ∧ (m.mem.entry (.heap p)).page = pg ∧
    (m.mem.entry (.heap p)).writable = writable

/-- Every page of every `PT_LOAD` segment is registered, and so is the stack. -/
structure AllRegistered (m : Machine S H) (phdrs : List Elf32Phdr) : Prop where
  segments : ∀ phdr ∈ phdrs, phdr.pType = PT_LOAD → ∀ pg ∈ phdr.pages,
    m.HasSegmentPage phdr.writable pg
  stack : ∃ p, m.IsEntry stackPage p ∧ (m.mem.entry (.heap p)).type = VM_ANON

/-- `load` returns, and it returns true just when everything is registered. -/
def LoadsAllOrFails (hashInt : Word → ℕ) (name : List Byte) (phdrs : List Elf32Phdr)
    (m : Machine S H) : Prop :=
  ∃ m' r, load hashInt name m = .ok (m', r) ∧ (r ≠ none ↔ AllRegistered m' phdrs)

/-- Segments that share a page agree on its part of the file and on its writable flag, and none
covers the page of the stack. -/
structure NoClash (phdrs : List Elf32Phdr) : Prop where
  shared : ∀ phdr ∈ phdrs, phdr.pType = PT_LOAD → ∀ phdr' ∈ phdrs, phdr'.pType = PT_LOAD →
    ∀ pg ∈ phdr.pages, ∀ pg' ∈ phdr'.pages, pg.upage = pg'.upage →
      pg = pg' ∧ phdr.writable = phdr'.writable
  stack : ∀ phdr ∈ phdrs, phdr.pType = PT_LOAD → ∀ pg ∈ phdr.pages, pg.upage ≠ stackPage

theorem mem_imageEntries {e : VmEntry} :
    e ∈ imageEntries file phdrs ↔ ∃ phdr ∈ phdrs, phdr.pType = PT_LOAD ∧
      ∃ pg ∈ phdr.pages, binEntry file phdr.writable pg = e := by
  rw [imageEntries, List.mem_flatMap]
  refine exists_congr fun phdr => and_congr_right fun _ => ?_
  unfold segmentEntries
  split
  · rename_i hload
    simp [hload]
  · rename_i hload
    simp [hload]

/-- Every page of the image is entered. -/
theorem NoClash.entered (h : NoClash phdrs) :
    ∀ e ∈ imageEntries file phdrs,
      enterAll VmEntry.vaddr (fun _ => none) (imageEntries file phdrs) e.vaddr = some e := by
  refine all_entered_iff.2 fun e he e' he' haddr => ?_
  obtain ⟨phdr, hphdr, hload, pg, hpg, rfl⟩ := mem_imageEntries.1 he
  obtain ⟨phdr', hphdr', hload', pg', hpg', rfl⟩ := mem_imageEntries.1 he'
  obtain ⟨rfl, hw⟩ := h.shared phdr hphdr hload phdr' hphdr' hload' pg hpg pg' hpg' haddr
  rw [hw]

/-- And the page of the stack is left. -/
theorem NoClash.stackPage_free (h : NoClash phdrs) :
    enterAll VmEntry.vaddr (fun _ => none) (imageEntries file phdrs) stackPage = none := by
  rw [enterAll_apply, Option.none_or, List.find?_eq_none]
  intro e he
  obtain ⟨phdr, hphdr, hload, pg, hpg, rfl⟩ := mem_imageEntries.1 he
  exact fun hat => h.stack phdr hphdr hload pg hpg (of_decide_eq_true hat)

theorem allRegistered_iff {e : VmEntry} (haddr : e.vaddr = stackPage) (htype : e.type = VM_ANON)
    (h : m.Stores hashInt
      (enter VmEntry.vaddr (enterAll VmEntry.vaddr (fun _ => none) (imageEntries file phdrs)) e)) :
    AllRegistered m phdrs ↔ NoClash phdrs := by
  constructor
  · intro hall
    refine ⟨fun phdr hphdr hload phdr' hphdr' hload' pg hpg pg' hpg' heq => ?_,
      fun phdr hphdr hload pg hpg heq => ?_⟩
    · -- the shared page has one entry only
      obtain ⟨p, hp, hpage, hw⟩ := hall.segments phdr hphdr hload pg hpg
      obtain ⟨p', hp', hpage', hw'⟩ := hall.segments phdr' hphdr' hload' pg' hpg'
      have he := h.eq_some_iff.2 ⟨p, hp, rfl⟩
      have he' := h.eq_some_iff.2 ⟨p', hp', rfl⟩
      rw [heq, he'] at he
      have hsame := Option.some.inj he
      exact ⟨by rw [← hpage, ← hpage', hsame], by rw [← hw, ← hw', hsame]⟩
    · -- the first segment there keeps the stack's entry out
      have hmem : binEntry file phdr.writable pg ∈ imageEntries file phdrs :=
        mem_imageEntries.2 ⟨phdr, hphdr, hload, pg, hpg, rfl⟩
      obtain ⟨e', he'⟩ : ∃ e',
          enterAll VmEntry.vaddr (fun _ => none) (imageEntries file phdrs) stackPage = some e' := by
        rw [enterAll_apply, Option.none_or, ← Option.isSome_iff_exists, List.find?_isSome]
        exact ⟨_, hmem, decide_eq_true heq⟩
      have hbin : e'.type = VM_BIN := by
        rw [enterAll_apply, Option.none_or] at he'
        obtain ⟨_, -, -, _, -, rfl⟩ := mem_imageEntries.1 (List.mem_of_find?_eq_some he')
        rfl
      obtain ⟨p, hp, hanon⟩ := hall.stack
      have hp' := h.eq_some_iff.2 ⟨p, hp, rfl⟩
      rw [enter_of_some he'] at hp'
      rw [← Option.some.inj hp', hbin] at hanon
      exact absurd hanon (by decide)
  · intro hclash
    refine ⟨fun phdr hphdr hload pg hpg => ?_, ?_⟩
    · have hmem : binEntry file phdr.writable pg ∈ imageEntries file phdrs :=
        mem_imageEntries.2 ⟨phdr, hphdr, hload, pg, hpg, rfl⟩
      obtain ⟨p, hp, hentry⟩ := h.eq_some_iff.1 (enter_of_some (hclash.entered _ hmem))
      exact ⟨p, hp, by rw [hentry]; rfl, by rw [hentry]; rfl⟩
    · have hin : enter VmEntry.vaddr
          (enterAll VmEntry.vaddr (fun _ => none) (imageEntries file phdrs)) e stackPage = some e := by
        rw [← haddr]
        exact enter_self (by rw [haddr]; exact hclash.stackPage_free)
      obtain ⟨p, hp, hentry⟩ := h.eq_some_iff.1 hin
      exact ⟨p, hp, by rw [hentry, htype]⟩

/-- With memory enough, `load` of an executable whose headers `validate_segment` accepts succeeds
only with everything registered if and only if the segments do not clash. -/
theorem load_registers_iff {name : List Byte} {files : S.Files} (hexe : Executable S file phdrs)
    (hopen : S.filesysOpen m.space.files name = (files, some file)) (hpos : S.pos files file = 0)
    (hdir : S.pagedirCreate = true) (htable : ∀ dir u, S.pageTable dir u = true)
    (hvm : m.vm = vmInit H) (hpool : m.space.used.card < S.poolSize)
    (hroom : m.heap.card + (imageEntries file phdrs).length < S.heapSize) :
    LoadsAllOrFails hashInt name phdrs m ↔ NoClash phdrs := by
  obtain ⟨m', r, e, hload, haddr, htype, hstores⟩ :=
    @load_stores S H hashInt m file phdrs name files hexe hopen hpos hdir htable hvm hpool hroom
  rw [← allRegistered_iff haddr htype hstores]
  constructor
  · rintro ⟨m'', r', hload', hiff⟩
    rw [hload] at hload'
    cases hload'
    exact hiff.1 (by simp)
  · intro hall
    exact ⟨m', some r, hload, iff_of_true (by simp) hall⟩

end Image

/-! ### Two segments, on two pages and on one -/

/-- The text at `0x08048000`. -/
def textPhdrBytes : List Byte :=
  [1, 0, 0, 0, 0, 0, 0, 0, 0, 0x80, 4, 8, 0, 0x80, 4, 8, 64, 0, 0, 0, 64, 0, 0, 0,
    5, 0, 0, 0, 0, 0x10, 0, 0]

/-- Writable data at `0x08048040`, on the same page. -/
def dataPhdrBytes : List Byte :=
  [1, 0, 0, 0, 64, 0, 0, 0, 64, 0x80, 4, 8, 64, 0x80, 4, 8, 4, 0, 0, 0, 4, 0, 0, 0,
    6, 0, 0, 0, 0, 0x10, 0, 0]

/-- The data at `0x08049040` instead. -/
def apartPhdrBytes : List Byte := dataPhdrBytes.set 9 0x90

def withSegments (phdrs : List Byte) : Services :=
  .ofContents (fun _ => ehdrBytes.set 44 2 ++ phdrs) (fun _ => some 0) 16 16

def twoSegments : Services := withSegments (textPhdrBytes ++ dataPhdrBytes)

def apartSegments : Services := withSegments (textPhdrBytes ++ apartPhdrBytes)

def textPhdr : Elf32Phdr := .ofBytes textPhdrBytes

def dataPhdr : Elf32Phdr := .ofBytes dataPhdrBytes

def apartPhdr : Elf32Phdr := .ofBytes apartPhdrBytes

theorem load_registers_apart :
    LoadsAllOrFails BitVec.toNat [0x61] [textPhdr, apartPhdr]
        (.start (.start fun _ => 0) (strayMemory 0) : Machine apartSegments (buckets Ptr 4)) ∧
      NoClash [textPhdr, apartPhdr] := by
  have hclash : NoClash [textPhdr, apartPhdr] := ⟨by decide +kernel, by decide +kernel⟩
  have hexe : Executable apartSegments 0 [textPhdr, apartPhdr] := by
    refine ⟨by decide +kernel, by decide +kernel, by decide +kernel, ?_⟩
    refine ⟨by decide +kernel, by decide +kernel, rfl, ⟨by decide +kernel, ?_⟩,
      by decide +kernel, by decide +kernel, rfl, ⟨by decide +kernel, ?_⟩, trivial⟩
    · intro _
      decide +kernel
    · intro _
      decide +kernel
  refine ⟨?_, hclash⟩
  exact (load_registers_iff hexe rfl rfl rfl (fun _ _ => rfl) rfl (by decide)
    (by decide +kernel)).2 hclash

/-- `load` succeeds, and the data is not writable. -/
theorem load_drops_segment :
    ¬ ∀ (S : Services) (H : HashTable Ptr) (hashInt : Word → ℕ) (name : List Byte)
        (file : FilePtr) (phdrs : List Elf32Phdr) (files : S.Files) (m : Machine S H),
        Executable S file phdrs → S.filesysOpen m.space.files name = (files, some file) →
        S.pos files file = 0 → S.pagedirCreate = true → (∀ dir u, S.pageTable dir u = true) →
        m.vm = vmInit H → m.space.used.card < S.poolSize →
        m.heap.card + (imageEntries file phdrs).length < S.heapSize →
        LoadsAllOrFails hashInt name phdrs m := by
  intro hall
  let m : Machine twoSegments (buckets Ptr 4) := .start (.start fun _ => 0) (strayMemory 0)
  have hexe : Executable twoSegments 0 [textPhdr, dataPhdr] := by
    refine ⟨by decide +kernel, by decide +kernel, by decide +kernel, ?_⟩
    refine ⟨by decide +kernel, by decide +kernel, rfl, ⟨by decide +kernel, ?_⟩,
      by decide +kernel, by decide +kernel, rfl, ⟨by decide +kernel, ?_⟩, trivial⟩
    · intro _
      decide +kernel
    · intro _
      decide +kernel
  have hroom : m.heap.card + (imageEntries 0 [textPhdr, dataPhdr]).length < twoSegments.heapSize := by
    decide +kernel
  have hload := hall twoSegments _ BitVec.toNat [0x61] 0 [textPhdr, dataPhdr] _ m hexe rfl
    rfl rfl (fun _ _ => rfl) rfl (by decide) hroom
  have hclash := (load_registers_iff hexe rfl rfl rfl (fun _ _ => rfl) rfl
    (by decide) hroom).1 hload
  -- the two pages are one page with different parts of the file
  have htext : (⟨0x08048000, 0, 64, 4032⟩ : SegmentPage) ∈ textPhdr.pages := by decide +kernel
  have hdata : (⟨0x08048000, 0, 68, 4028⟩ : SegmentPage) ∈ dataPhdr.pages := by decide +kernel
  have hsame := (hclash.shared textPhdr (by simp) rfl dataPhdr (by simp) rfl _ htext _ hdata rfl).1
  exact absurd hsame (by decide)

end Project4
end Pintos
