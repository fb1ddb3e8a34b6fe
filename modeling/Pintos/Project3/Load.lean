import Pintos.Project3.LoadSegment
import Pintos.Project4.UserMemory

/-!
# Load — loading an ELF executable eagerly (`project3/userprog/process.c`)

`load` reads every page before the process starts.  It has the ELF definitions and
`validate_segment` of project 4 word for word.  Whatever the file contains it takes no frame that it
does not map, and what it maps when it succeeds is the flat memory that project 4 shows page by
page.
-/

namespace Pintos
namespace Project3

open Lib Userprog Function
open Project4 (Elf32Ehdr Elf32Phdr EHDR_SIZE PHDR_SIZE PT_LOAD PT_DYNAMIC PT_INTERP PT_SHLIB PF_W
  validateSegment roundUp)

/-! ## The code -/

section Code

variable {S : Services}

def setupStack (m : Space S) : Space S × Option Word :=
  match m.pallocGetPage with
  | none => (m, none)
  | some (kpage, m) =>
      let installed := (m.memset kpage 0 PGSIZE).installPage (PHYS_BASE - BitVec.ofNat 32 PGSIZE)
        kpage true
      if installed.2 then (installed.1, some PHYS_BASE)
      else (installed.1.pallocFreePage kpage, none)

/-- The `PT_LOAD` case of the `switch`; `false` stands for `goto done`. -/
def loadPhdr (file : FilePtr) (phdr : Elf32Phdr) (m : Space S) : Except Fault (Space S × Bool) :=
  if validateSegment phdr (S.fileLength file) then
    let writable := decide (phdr.pFlags &&& PF_W ≠ 0)
    let filePage := phdr.pOffset &&& ~~~PGMASK
    let memPage := phdr.pVaddr &&& ~~~PGMASK
    let pageOffset := phdr.pVaddr &&& PGMASK
    let readBytes := if phdr.pFilesz > 0 then pageOffset + phdr.pFilesz else 0
    let zeroBytes := roundUp (pageOffset + phdr.pMemsz) - readBytes
    (loadSegment file filePage memPage readBytes.toNat zeroBytes.toNat writable m).map fun r =>
      (r.1, decide (r.2 = .success))
  else .ok (m, false)

/-- The loop over the program headers; its first argument is the number of headers left, and
`false` stands for `goto done`. -/
def loadPhdrs (file : FilePtr) : ℕ → Word → Space S → Except Fault (Space S × Bool)
  | 0, _, m => .ok (m, true)
  | n + 1, fileOfs, m =>
      if fileOfs.slt 0 || (S.fileLength file).slt fileOfs then .ok (m, false)
      else
        let read := (m.fileSeek file fileOfs).fileReadLocal file PHDR_SIZE
        if read.2.length ≠ PHDR_SIZE then .ok (read.1, false)
        else
          let phdr := Elf32Phdr.ofBytes read.2
          if phdr.pType = PT_DYNAMIC ∨ phdr.pType = PT_INTERP ∨ phdr.pType = PT_SHLIB then
            .ok (read.1, false)
          else
            (if phdr.pType = PT_LOAD then loadPhdr file phdr read.1 else .ok (read.1, true)).bind
              fun r => if r.2 then loadPhdrs file n (fileOfs + BitVec.ofNat 32 PHDR_SIZE) r.1
                else .ok (r.1, false)

/-- From the header to the start address; `none` stands for `goto done`, otherwise `*eip` and `*esp`
are returned. -/
def loadImage (file : FilePtr) (m : Space S) : Except Fault (Space S × Option (Word × Word)) :=
  let read := m.fileReadLocal file EHDR_SIZE
  let ehdr := Elf32Ehdr.ofBytes read.2
  if read.2.length ≠ EHDR_SIZE ∨ ehdr.valid = false then .ok (read.1, none)
  else
    (loadPhdrs file ehdr.ePhnum.toNat ehdr.ePhoff read.1).map fun r =>
      if r.2 then
        let stack := setupStack r.1
        (stack.1, stack.2.map fun esp => (ehdr.eEntry, esp))
      else (r.1, none)

def load (fileName : List Byte) (m : Space S) : Except Fault (Space S × Option (Word × Word)) :=
  if S.pagedirCreate = false then .ok (m.fileClose none, none)
  else
    let opened := ({ m with pagedir := fun _ => none } : Space S).filesysOpen fileName
    match opened.2 with
    | none => .ok (opened.1.fileClose none, none)
    | some file =>
        -- done: we arrive here whether the load is successful or not
        (loadImage file opened.1).map fun r => (r.1.fileClose (some file), r.2)

end Code

/-! ## Pages that have been mapped -/

section MapsAll

open Project4 (UserPage)

variable {S : Services} {file : FilePtr} {m m' m'' : Space S}

/-- At most file positions differ. -/
structure SameFrames (m m' : Space S) : Prop where
  used : m'.used = m.used
  bytes : m'.bytes = m.bytes
  pagedir : m'.pagedir = m.pagedir
  log : m'.log = m.log

/-- The pages have been mapped one after the other, with their flags. -/
inductive MapsAll (file : FilePtr) : List (SegmentPage × Bool) → Space S → Space S → Prop
  | nil {m m' : Space S} : SameFrames m m' → MapsAll file [] m m'
  | cons {pg : SegmentPage} {w : Bool} {rest : List (SegmentPage × Bool)} {m m₁ m' : Space S} :
      m.pagedir pg.upage = none → Maps file w pg m m₁ → m₁.log = m.log → MapsAll file rest m₁ m' →
        MapsAll file ((pg, w) :: rest) m m'

/-- The page cannot be mapped. -/
def Stops (file : FilePtr) (m : Space S) (pg : SegmentPage) : Prop :=
  S.palloc m.used = none ∨ ¬ S.Full file pg ∨
    ¬ (m.pagedir pg.upage = none ∧ S.pageTable m.pagedir pg.upage = true)

/-- Some pages of user memory have been mapped; what was taken besides has been given back. -/
def MapsSome (file : FilePtr) (m m' : Space S) : Prop :=
  ∃ done m₁, MapsAll file done m m₁ ∧ (∀ x ∈ done, UserPage x.1.upage) ∧ KeepsPages m₁ m' ∧
    m'.log = m₁.log

/-- The pages have been mapped up to one that cannot be. -/
def Stopped (file : FilePtr) (all : List (SegmentPage × Bool)) (m m' : Space S) : Prop :=
  ∃ done pg w rest m₁, all = done ++ (pg, w) :: rest ∧ MapsAll file done m m₁ ∧
    Stops file m₁ pg ∧ KeepsPages m₁ m' ∧ m'.log = m₁.log

variable {ps qs : List (SegmentPage × Bool)}

theorem SameFrames.trans (h : SameFrames m m') (h' : SameFrames m' m'') : SameFrames m m'' :=
  ⟨h'.used.trans h.used, h'.bytes.trans h.bytes, h'.pagedir.trans h.pagedir, h'.log.trans h.log⟩

theorem SameFrames.keepsPages (h : SameFrames m m') : KeepsPages m m' :=
  ⟨h.used, h.pagedir, fun k _ => congrFun h.bytes k⟩

/-- File positions do not matter before a page is mapped. -/
theorem SameFrames.maps {w : Bool} {pg : SegmentPage} (h : SameFrames m m')
    (h' : Maps file w pg m' m'') : Maps file w pg m m'' := by
  obtain ⟨k, hk, hused, hdir, hbytes, hother⟩ := h'
  exact ⟨k, h.used ▸ hk, by rw [hused, h.used], by rw [hdir, h.pagedir], hbytes,
    fun k' hk' => (hother k' hk').trans (congrFun h.bytes k')⟩

theorem MapsAll.of_same (h : SameFrames m m') (h' : MapsAll file ps m' m'') :
    MapsAll file ps m m'' := by
  cases h' with
  | nil hsame =>
      exact .nil (h.trans hsame)
  | cons hfree hmaps hlog hrest =>
      exact .cons (h.pagedir ▸ hfree) (h.maps hmaps) (hlog.trans h.log) hrest

theorem MapsAll.append (h : MapsAll file ps m m') (h' : MapsAll file qs m' m'') :
    MapsAll file (ps ++ qs) m m'' := by
  induction h with
  | nil hsame =>
      exact h'.of_same hsame
  | cons hfree hmaps hlog _ ih =>
      exact .cons hfree hmaps hlog (ih h')

theorem Stopped.prepend (h : MapsAll file ps m m') (h' : Stopped file qs m' m'') :
    Stopped file (ps ++ qs) m m'' := by
  obtain ⟨done, pg, w, rest, m₁, rfl, hdone, hstops, hkeeps, hlog⟩ := h'
  exact ⟨ps ++ done, pg, w, rest, m₁, (List.append_assoc ..).symm, h.append hdone, hstops, hkeeps, hlog⟩

theorem Stopped.append (h : Stopped file ps m m') : Stopped file (ps ++ qs) m m' := by
  obtain ⟨done, pg, w, rest, m₁, rfl, hdone, hstops, hkeeps, hlog⟩ := h
  exact ⟨done, pg, w, rest ++ qs, m₁, by simp, hdone, hstops, hkeeps, hlog⟩

theorem Stopped.mapsSome (h : Stopped file ps m m') (hps : ∀ x ∈ ps, UserPage x.1.upage) :
    MapsSome file m m' := by
  obtain ⟨done, pg, w, rest, m₁, rfl, hdone, -, hkeeps, hlog⟩ := h
  exact ⟨done, m₁, hdone, fun x hx => hps x (List.mem_append_left _ hx), hkeeps, hlog⟩

theorem MapsAll.mapsSome (h : MapsAll file ps m m') (hps : ∀ x ∈ ps, UserPage x.1.upage) :
    MapsSome file m m' :=
  ⟨ps, m', h, hps, ⟨rfl, rfl, fun _ _ => rfl⟩, rfl⟩

theorem MapsSome.prepend (h : MapsAll file ps m m') (hps : ∀ x ∈ ps, UserPage x.1.upage)
    (h' : MapsSome file m' m'') : MapsSome file m m'' := by
  obtain ⟨done, m₁, hdone, huser, hkeeps, hlog⟩ := h'
  refine ⟨ps ++ done, m₁, h.append hdone, fun x hx => ?_, hkeeps, hlog⟩
  exact (List.mem_append.1 hx).elim (hps x) (huser x)

/-! ### One page and one segment -/

/-- One round of the loop of `load_segment`, with any memory. -/
theorem loadPage_outcome {pg : SegmentPage} (writable : Bool) (hpos : S.pos m.files file = pg.ofs)
    (hsize : pg.readBytes + pg.zeroBytes = PGSIZE) :
    ∃ m' r, loadPage file writable pg.upage pg.readBytes pg.zeroBytes m = (m', r) ∧
      m'.log = m.log ∧
      (r = .success ∧ S.Full file pg ∧ m.pagedir pg.upage = none ∧ Maps file writable pg m m' ∧
          S.pos m'.files file = pg.ofs + BitVec.ofNat 32 pg.readBytes ∨
        r ≠ .success ∧ KeepsPages m m' ∧ Stops file m pg) := by
  cases hk : S.palloc m.used with
  | none =>
      refine ⟨m, .noPage, ?_, rfl, Or.inr ⟨by simp, ⟨rfl, rfl, fun _ _ => rfl⟩, Or.inl hk⟩⟩
      simp only [loadPage, pallocGetPage_of_none hk]
  | some k =>
      have hfresh : k ∉ m.used := S.palloc_fresh hk
      -- the memory with the new page, and after the read and the `memset`
      let m₁ : Space S := { m with used := insert k m.used }
      let m₂ : Space S := (m₁.fileRead file k pg.readBytes).1.memset k pg.readBytes pg.zeroBytes
      have halloc : m.pallocGetPage = some (k, m₁) := pallocGetPage_of_some hk
      have hread : (m₁.fileRead file k pg.readBytes).2 =
          (S.stored file pg.ofs pg.readBytes).length := by
        rw [fileRead_snd, ← hpos]
      have hkept : ∀ k' ∈ m.used, m₂.bytes k' = m.bytes k' := fun k' hk' =>
        fill_other fun heq => hfresh (heq ▸ hk')
      by_cases hfull : S.Full file pg
      · have hn : (m₁.fileRead file k pg.readBytes).2 = pg.readBytes := hread.trans hfull
        by_cases hfree : m.pagedir pg.upage = none ∧ S.pageTable m.pagedir pg.upage = true
        · have hinst : m₂.installPage pg.upage k writable =
              ({ m₂ with pagedir := update m.pagedir pg.upage (some (k, writable)) }, true) :=
            if_pos hfree
          have hmaps : Maps file writable pg m
              { m₂ with pagedir := update m.pagedir pg.upage (some (k, writable)) } :=
            ⟨k, hfresh, rfl, rfl, fun i hi => fill_bytes hpos hfull hsize hi,
              fun k' hk' => fill_other hk'⟩
          have hnext : S.pos m₂.files file = pg.ofs + BitVec.ofNat 32 pg.readBytes := by
            have hlen : (S.stored file (S.pos m₁.files file) pg.readBytes).length =
                pg.readBytes := by
              rw [← fileRead_snd m₁ file k, hn]
            have hmoved := fileRead_pos m₁ file k pg.readBytes
            rw [hlen] at hmoved
            exact hmoved.trans (congrArg (· + _) hpos)
          refine ⟨{ m₂ with pagedir := update m.pagedir pg.upage (some (k, writable)) }, .success, ?_,
            rfl, Or.inl ⟨rfl, hfull, hfree.1, hmaps, hnext⟩⟩
          simp only [loadPage, halloc, hn, ne_eq, not_true_eq_false, if_false]
          rw [hinst]
          rfl
        · -- `install_page` refuses
          have hinst : m₂.installPage pg.upage k writable = (m₂, false) := if_neg hfree
          refine ⟨m₂.pallocFreePage k, .notInstalled, ?_, rfl, Or.inr ⟨by simp,
            ⟨Finset.erase_insert hfresh, rfl, hkept⟩, Or.inr (Or.inr hfree)⟩⟩
          simp only [loadPage, halloc, hn, ne_eq, not_true_eq_false, if_false]
          rw [hinst]
          rfl
      · have hn : (m₁.fileRead file k pg.readBytes).2 ≠ pg.readBytes := fun heq =>
          hfull (hread.symm.trans heq)
        refine ⟨(m₁.fileRead file k pg.readBytes).1.pallocFreePage k, .shortRead, ?_, rfl,
          Or.inr ⟨by simp, ⟨Finset.erase_insert hfresh, rfl, fun k' hk' => ?_⟩, Or.inr (Or.inl hfull)⟩⟩
        · simp only [loadPage, halloc, ne_eq, hn, not_false_eq_true, if_true]
        · exact update_of_ne (fun heq : k' = k => hfresh (heq ▸ hk')) _ _

theorem loadPages_outcome (writable : Bool) {pages : List SegmentPage}
    (hsize : ∀ pg ∈ pages, pg.readBytes + pg.zeroBytes = PGSIZE) :
    ∀ {ofs : Word} {m : Space S}, S.pos m.files file = ofs → Chained ofs pages →
    ∃ m' r, loadPages file writable pages m = (m', r) ∧
      (r = .success ∧ (∀ pg ∈ pages, S.Full file pg) ∧
          MapsAll file (pages.map fun pg => (pg, writable)) m m' ∨
        r ≠ .success ∧ Stopped file (pages.map fun pg => (pg, writable)) m m') := by
  induction pages with
  | nil =>
      intro ofs m _ _
      exact ⟨m, .success, rfl, Or.inl ⟨rfl, by simp, .nil ⟨rfl, rfl, rfl, rfl⟩⟩⟩
  | cons pg pages ih =>
      intro ofs m hpos hchain
      obtain ⟨m₁, r₁, hload, hlog, ⟨rfl, hfull, hfree, hmaps, hnext⟩ | ⟨hr, hkeeps, hstops⟩⟩ :=
        loadPage_outcome writable (hpos.trans hchain.1.symm) (hsize pg List.mem_cons_self)
      · obtain ⟨m', r, hgo, hend⟩ := ih (fun pg' hpg' => hsize pg' (List.mem_cons_of_mem _ hpg'))
          hnext (hchain.1.symm ▸ hchain.2)
        have hone : MapsAll file [(pg, writable)] m m₁ :=
          .cons hfree hmaps hlog (.nil ⟨rfl, rfl, rfl, rfl⟩)
        refine ⟨m', r, by simp only [loadPages, hload, hgo], ?_⟩
        rcases hend with ⟨rfl, hall, hrest⟩ | ⟨hr, hstop⟩
        · exact Or.inl ⟨rfl, by simpa [hfull] using hall, hone.append hrest⟩
        · exact Or.inr ⟨hr, hstop.prepend hone⟩
      · refine ⟨m₁, r₁, ?_, Or.inr ⟨hr, [], pg, writable, _, m, rfl, .nil ⟨rfl, rfl, rfl, rfl⟩,
          hstops, hkeeps, hlog⟩⟩
        cases r₁ with
        | success =>
            exact absurd rfl hr
        | noPage | shortRead | notInstalled =>
            simp only [loadPages, hload]

end MapsAll

/-! ## The program headers -/

section Phdrs

open Project4 (HasPhdrs UserPage phdrsFrom span_pages userPage_of_mem)

variable {S : Services} {file : FilePtr} {m m' : Space S} {phdr : Elf32Phdr} {n : ℕ} {fileOfs : Word}

/-- The pages that `load` maps for a program header, with their flag. -/
def segmentPagesOf (phdr : Elf32Phdr) : List (SegmentPage × Bool) :=
  if phdr.pType = PT_LOAD then phdr.pages.map fun pg => (pg, phdr.writable) else []

def imagePages (phdrs : List Elf32Phdr) : List (SegmentPage × Bool) := phdrs.flatMap segmentPagesOf

/-- What has become of the pages `all`. -/
inductive Outcome (file : FilePtr) (all : List (SegmentPage × Bool)) (m : Space S) :
    Space S × Bool → Prop
  | mapped {m' : Space S} : (∀ x ∈ all, S.Full file x.1) → MapsAll file all m m' →
      Outcome file all m (m', true)
  | stopped {m' : Space S} : Stopped file all m m' → Outcome file all m (m', false)

theorem Outcome.prepend {ps qs : List (SegmentPage × Bool)} {r : Space S × Bool}
    (h : Outcome file qs m' r) (hfull : ∀ x ∈ ps, S.Full file x.1) (hmaps : MapsAll file ps m m') :
    Outcome file (ps ++ qs) m r := by
  cases h with
  | mapped hfull' hmaps' =>
      refine .mapped (fun x hx => ?_) (hmaps.append hmaps')
      exact (List.mem_append.1 hx).elim (hfull x) (hfull' x)
  | stopped hstop =>
      exact .stopped (hstop.prepend hmaps)

theorem loadPhdr_outcome (hvalid : validateSegment phdr (S.fileLength file) = true) :
    ∃ r, loadPhdr file phdr m = .ok r ∧
      Outcome file (phdr.pages.map fun pg => (pg, phdr.writable)) m r := by
  have hsum := span_pages hvalid
  have hmod : (phdr.readBytes.toNat + (phdr.span - phdr.readBytes).toNat) % PGSIZE = 0 := by
    rw [hsum]
    exact Nat.mul_mod_left _ _
  have hle : phdr.span.toNat / PGSIZE ≤
      phdr.readBytes.toNat + (phdr.span - phdr.readBytes).toNat := by
    rw [hsum]
    exact Nat.le_mul_of_pos_right _ (by decide)
  let m₀ : Space S := m.fileSeek file (pgRoundDown phdr.pOffset)
  have hseg : loadSegment file (pgRoundDown phdr.pOffset) (pgRoundDown phdr.pVaddr)
      phdr.readBytes.toNat (phdr.span - phdr.readBytes).toNat phdr.writable m =
        .ok (loadPages file phdr.writable phdr.pages m₀) := by
    rw [loadSegment, if_pos ⟨hmod, pgOfs_pgRoundDown _, pgOfs_pgRoundDown _⟩,
      loadSegmentLoop_eq hsum hle]
    rfl
  have hsize : ∀ pg ∈ phdr.pages, pg.readBytes + pg.zeroBytes = PGSIZE := by
    intro pg hpg
    obtain ⟨i, -, rfl⟩ := mem_segmentPages.1 hpg
    exact readBytes_add_zeroBytes
  have hseek : SameFrames m m₀ := ⟨rfl, rfl, rfl, rfl⟩
  obtain ⟨m', r, hgo, hend⟩ := loadPages_outcome (m := m₀) phdr.writable hsize (S.seek_pos _ _ _)
    chained_segmentPages
  refine ⟨(m', decide (r = .success)), ?_, ?_⟩
  · rw [loadPhdr, if_pos hvalid]
    change Except.map _ (loadSegment file (pgRoundDown phdr.pOffset) (pgRoundDown phdr.pVaddr)
      phdr.readBytes.toNat (phdr.span - phdr.readBytes).toNat phdr.writable m) = _
    rw [hseg, hgo]
    rfl
  · rcases hend with ⟨rfl, hall, hmaps⟩ | ⟨hr, hstop⟩
    · refine .mapped (fun x hx => ?_) (hmaps.of_same hseek)
      obtain ⟨pg, hpg, rfl⟩ := List.mem_map.1 hx
      exact hall pg hpg
    · rw [decide_eq_false hr]
      exact .stopped (hstop.prepend (.nil hseek))

/-- What the loop over `n` program headers from `fileOfs` on has done. -/
structure PhdrsDone (file : FilePtr) (n : ℕ) (fileOfs : Word) (m : Space S) (r : Space S × Bool) :
    Prop where
  pages : MapsSome file m r.1
  outcome : HasPhdrs S file fileOfs (phdrsFrom S file n fileOfs) →
    Outcome file (imagePages (phdrsFrom S file n fileOfs)) m r
  not : ¬ HasPhdrs S file fileOfs (phdrsFrom S file n fileOfs) → r.2 = false

theorem PhdrsDone.of_stop (h : SameFrames m m')
    (hnot : ¬ HasPhdrs S file fileOfs (phdrsFrom S file n fileOfs)) :
    PhdrsDone file n fileOfs m (m', false) :=
  ⟨(MapsAll.nil h).mapsSome (by simp), fun hhas => absurd hhas hnot, fun _ => rfl⟩

theorem imagePages_cons (phdr : Elf32Phdr) (phdrs : List Elf32Phdr) :
    imagePages (phdr :: phdrs) = segmentPagesOf phdr ++ imagePages phdrs := rfl

theorem hasPhdrs_succ (hofs : ¬ (fileOfs.slt 0 || (S.fileLength file).slt fileOfs) = true)
    (hlen : (S.stored file fileOfs PHDR_SIZE).length = PHDR_SIZE)
    (hphdr : Elf32Phdr.ofBytes (S.stored file fileOfs PHDR_SIZE) = phdr) :
    HasPhdrs S file fileOfs (phdrsFrom S file (n + 1) fileOfs) ↔
      phdr.Accepted (S.fileLength file) ∧ HasPhdrs S file (fileOfs + BitVec.ofNat 32 PHDR_SIZE)
        (phdrsFrom S file n (fileOfs + BitVec.ofNat 32 PHDR_SIZE)) := by
  rw [phdrsFrom, HasPhdrs, hphdr]
  simp only [Bool.or_eq_true, not_or, Bool.not_eq_true] at hofs
  exact ⟨fun h => h.2.2.2, fun h => ⟨hofs, hlen, rfl, h⟩⟩

/-- The pages of one header have been mapped, and the loop goes on. -/
theorem PhdrsDone.cons {m₁ : Space S} {r : Space S × Bool}
    (hphdr : Elf32Phdr.ofBytes (S.stored file fileOfs PHDR_SIZE) = phdr)
    (hiff : HasPhdrs S file fileOfs (phdrsFrom S file (n + 1) fileOfs) ↔
      HasPhdrs S file (fileOfs + BitVec.ofNat 32 PHDR_SIZE)
        (phdrsFrom S file n (fileOfs + BitVec.ofNat 32 PHDR_SIZE)))
    (hfull : ∀ x ∈ segmentPagesOf phdr, S.Full file x.1)
    (huser : ∀ x ∈ segmentPagesOf phdr, UserPage x.1.upage)
    (hmaps : MapsAll file (segmentPagesOf phdr) m m₁)
    (h : PhdrsDone file n (fileOfs + BitVec.ofNat 32 PHDR_SIZE) m₁ r) :
    PhdrsDone file (n + 1) fileOfs m r := by
  refine ⟨.prepend hmaps huser h.pages, fun hhas => ?_, fun hnot => h.not fun hhas => hnot (hiff.2 hhas)⟩
  rw [phdrsFrom, hphdr, imagePages_cons]
  exact (h.outcome (hiff.1 hhas)).prepend hfull hmaps

theorem loadPhdrs_done {n : ℕ} : ∀ {fileOfs : Word} {m : Space S},
    ∃ r, loadPhdrs file n fileOfs m = .ok r ∧ PhdrsDone file n fileOfs m r := by
  induction n with
  | zero =>
      intro fileOfs m
      have hnil : MapsAll file [] m m := .nil ⟨rfl, rfl, rfl, rfl⟩
      exact ⟨(m, true), rfl, hnil.mapsSome (by simp), fun _ => .mapped (by simp [imagePages, phdrsFrom]) hnil,
        fun hnot => absurd trivial hnot⟩
  | succ n ih =>
      intro fileOfs m
      -- the header is read where the offset says
      have hread : ((m.fileSeek file fileOfs).fileReadLocal file PHDR_SIZE).2 =
          S.stored file fileOfs PHDR_SIZE := by
        simp only [Space.fileReadLocal, S.read_bytes, Space.fileSeek, S.seek_pos]
      obtain ⟨phdr, hphdr⟩ : ∃ phdr, Elf32Phdr.ofBytes (S.stored file fileOfs PHDR_SIZE) = phdr :=
        ⟨_, rfl⟩
      let m₀ : Space S := ((m.fileSeek file fileOfs).fileReadLocal file PHDR_SIZE).1
      have hmoved : SameFrames m m₀ := ⟨rfl, rfl, rfl, rfl⟩
      by_cases hofs : (fileOfs.slt 0 || (S.fileLength file).slt fileOfs) = true
      · refine ⟨(m, false), if_pos hofs, .of_stop ⟨rfl, rfl, rfl, rfl⟩ fun hhas => ?_⟩
        rw [hhas.1.1, hhas.1.2] at hofs
        cases hofs
      rw [loadPhdrs, if_neg hofs]
      simp only [hread, hphdr]
      by_cases hlen : (S.stored file fileOfs PHDR_SIZE).length = PHDR_SIZE
      swap
      · exact ⟨(m₀, false), if_pos hlen, .of_stop hmoved fun hhas => hlen hhas.2.1⟩
      have hsucc := hasPhdrs_succ (n := n) hofs hlen hphdr
      rw [if_neg (not_not.2 hlen)]
      by_cases htype : phdr.pType = PT_DYNAMIC ∨ phdr.pType = PT_INTERP ∨ phdr.pType = PT_SHLIB
      · refine ⟨(m₀, false), if_pos htype, .of_stop hmoved fun hhas => ?_⟩
        obtain ⟨⟨hdynamic, hinterp, hshlib⟩, -⟩ := (hsucc.1 hhas).1
        rcases htype with ht | ht | ht
        · exact hdynamic ht
        · exact hinterp ht
        · exact hshlib ht
      rw [if_neg htype]
      simp only [not_or] at htype
      by_cases hload : phdr.pType = PT_LOAD
      · rw [if_pos hload]
        have hpages : segmentPagesOf phdr = phdr.pages.map fun pg => (pg, phdr.writable) :=
          if_pos hload
        by_cases hvalid : validateSegment phdr (S.fileLength file) = true
        · have hiff : HasPhdrs S file fileOfs (phdrsFrom S file (n + 1) fileOfs) ↔
              HasPhdrs S file (fileOfs + BitVec.ofNat 32 PHDR_SIZE)
                (phdrsFrom S file n (fileOfs + BitVec.ofNat 32 PHDR_SIZE)) :=
            hsucc.trans (and_iff_right ⟨htype, fun _ => hvalid⟩)
          have huser : ∀ x ∈ segmentPagesOf phdr, UserPage x.1.upage := by
            intro x hx
            rw [hpages] at hx
            obtain ⟨pg, hpg, rfl⟩ := List.mem_map.1 hx
            exact (userPage_of_mem hvalid hpg).1
          obtain ⟨r₁, hone, hend⟩ := loadPhdr_outcome (m := m₀) hvalid
          rw [← hpages] at hend
          change ∃ r, (loadPhdr file phdr m₀).bind _ = _ ∧ _
          rw [hone]
          cases hend with
          | mapped hfull hmaps =>
              rename_i m₁
              obtain ⟨r, hgo, hdone⟩ := @ih (fileOfs + BitVec.ofNat 32 PHDR_SIZE) m₁
              exact ⟨r, hgo, .cons hphdr hiff hfull huser (hmaps.of_same hmoved) hdone⟩
          | stopped hstop =>
              rename_i m₁
              have hstop' : Stopped file (segmentPagesOf phdr) m m₁ :=
                hstop.prepend (.nil hmoved)
              refine ⟨(m₁, false), rfl, hstop'.mapsSome huser, fun _ => ?_, fun _ => rfl⟩
              rw [phdrsFrom, hphdr, imagePages_cons]
              exact .stopped hstop'.append
        · have hgo : loadPhdr file phdr m₀ = .ok (m₀, false) := if_neg hvalid
          change ∃ r, (loadPhdr file phdr m₀).bind _ = _ ∧ _
          rw [hgo]
          exact ⟨(m₀, false), rfl, .of_stop hmoved fun hhas => hvalid ((hsucc.1 hhas).1.2 hload)⟩
      · rw [if_neg hload]
        have hpages : segmentPagesOf phdr = [] := if_neg hload
        have hiff : HasPhdrs S file fileOfs (phdrsFrom S file (n + 1) fileOfs) ↔
            HasPhdrs S file (fileOfs + BitVec.ofNat 32 PHDR_SIZE)
              (phdrsFrom S file n (fileOfs + BitVec.ofNat 32 PHDR_SIZE)) :=
          hsucc.trans (and_iff_right ⟨htype, fun h => absurd h hload⟩)
        obtain ⟨r, hgo, hdone⟩ := @ih (fileOfs + BitVec.ofNat 32 PHDR_SIZE) m₀
        refine ⟨r, hgo, .cons hphdr hiff (by simp [hpages]) (by simp [hpages]) ?_ hdone⟩
        rw [hpages]
        exact .nil hmoved

end Phdrs

/-! ## The image -/

section Image

open Project4 (Executable HasPhdrs UserPage fileEhdr filePhdrs fileEntries imageEntries binEntry
  segmentEntries stackPage stackPg userPage_of_mem userPage_stackPage pageByte_stackPg memset_page
  length_phdrsFrom fileEntries_page page_binEntry Flat.ofFile Flat.ofCommand
  VmEntry)

variable {S : Services} {file : FilePtr} {m m' : Space S} {ps : List (SegmentPage × Bool)}

/-! ### What the pages of a list look like once they are mapped -/

def tables (m : Space S) : PageTables Unit Word FramePtr Byte :=
  ⟨m.used, m.bytes, fun _ => m.pagedir⟩

theorem MapsAll.extends (h : MapsAll file ps m m') : (tables m).Extends () (tables m') := by
  induction h with
  | nil hsame =>
      exact .of_keeps hsame.used (fun _ => hsame.pagedir) fun k _ => congrFun hsame.bytes k
  | cons hfree hmaps _ _ ih =>
      obtain ⟨k, hk, hused, hdir, -, hother⟩ := hmaps
      exact .trans (.of_map hfree hk hused hdir (fun q hq => absurd rfl hq) hother) ih

theorem MapsSome.extends (h : MapsSome file m m') : (tables m).Extends () (tables m') := by
  obtain ⟨ps, m₁, hmaps, -, ⟨hused, hdir, hbytes⟩, -⟩ := h
  exact hmaps.extends.trans (.of_keeps hused (fun _ => hdir) hbytes)

theorem MapsAll.log (h : MapsAll file ps m m') : m'.log = m.log := by
  induction h with
  | nil hsame =>
      exact hsame.log
  | cons _ _ hlog _ ih =>
      exact ih.trans hlog

theorem MapsSome.log (h : MapsSome file m m') : m'.log = m.log := by
  obtain ⟨ps, m₁, hmaps, -, -, hlog⟩ := h
  exact hlog.trans hmaps.log

theorem MapsAll.card (h : MapsAll file ps m m') : m'.used.card = m.used.card + ps.length := by
  induction h with
  | nil hsame =>
      rw [hsame.used, List.length_nil, Nat.add_zero]
  | cons _ hmaps _ _ ih =>
      rw [ih, hmaps.card, List.length_cons]
      omega

/-- Nothing but the pages is mapped. -/
theorem MapsAll.pagedir_of_notMem (h : MapsAll file ps m m') {u : Word}
    (hu : ∀ x ∈ ps, x.1.upage ≠ u) : m'.pagedir u = m.pagedir u := by
  induction h with
  | nil hsame =>
      rw [hsame.pagedir]
  | cons _ hmaps _ _ ih =>
      rw [ih fun x hx => hu x (List.mem_cons_of_mem _ hx),
        hmaps.pagedir_of_ne (hu _ List.mem_cons_self).symm]

/-- The pages were free, and they differ. -/
theorem MapsAll.nodup (h : MapsAll file ps m m') :
    (ps.map fun x => x.1.upage).Nodup ∧ ∀ x ∈ ps, m.pagedir x.1.upage = none := by
  induction h with
  | nil _ =>
      exact ⟨List.nodup_nil, by simp⟩
  | @cons pg w rest m m₁ m' hfree hmaps _ _ ih =>
      obtain ⟨hnodup, hrest⟩ := ih
      have hne : ∀ x ∈ rest, x.1.upage ≠ pg.upage := fun x hx heq =>
        hmaps.pagedir_ne_none (heq ▸ hrest x hx)
      refine ⟨List.nodup_cons.2 ⟨fun hmem => ?_, hnodup⟩, fun x hx => ?_⟩
      · obtain ⟨x, hx, heq⟩ := List.mem_map.1 hmem
        exact hne x hx heq
      · rcases List.mem_cons.1 hx with rfl | hmem
        · exact hfree
        · rw [← hmaps.pagedir_of_ne (hne x hmem)]
          exact hrest x hmem

theorem MapsAll.keeps_holds {pg : SegmentPage} {w : Bool} (h : MapsAll file ps m m')
    (hpg : Holds file w pg m) : Holds file w pg m' := by
  obtain ⟨k, hk, hdir, hbytes⟩ := hpg
  refine ⟨k, h.extends.used hk, h.extends.kept hdir, fun i hi => ?_⟩
  rw [← hbytes i hi]
  exact congrFun (h.extends.bytes k hk) i

theorem MapsAll.holds (h : MapsAll file ps m m') {pg : SegmentPage} {w : Bool}
    (hpg : (pg, w) ∈ ps) : Holds file w pg m' := by
  induction h with
  | nil _ =>
      cases hpg
  | cons _ hmaps _ hrest ih =>
      rcases List.mem_cons.1 hpg with heq | hmem
      · cases heq
        exact hrest.keeps_holds hmaps.holds
      · exact ih hmem

/-- With memory enough, what stops the loader is a page of the list itself. -/
theorem Stopped.not_of_nodup (h : Stopped file ps m m') (htable : ∀ dir u, S.pageTable dir u = true)
    (hpool : m.used.card + ps.length ≤ S.poolSize) (hfull : ∀ x ∈ ps, S.Full file x.1)
    (hnodup : (ps.map fun x => x.1.upage).Nodup) (hdir : ∀ x ∈ ps, m.pagedir x.1.upage = none) :
    False := by
  obtain ⟨done, pg, w, rest, m₁, rfl, hdone, hstops, -⟩ := h
  rcases hstops with hpalloc | hshort | hinst
  · refine absurd hpalloc (S.palloc_some ?_)
    rw [hdone.card]
    simp only [List.length_append, List.length_cons] at hpool
    omega
  · exact hshort (hfull (pg, w) (by simp))
  · refine hinst ⟨?_, htable _ _⟩
    rw [hdone.pagedir_of_notMem fun x hx heq => ?_]
    · exact hdir (pg, w) (by simp)
    · simp only [List.map_append, List.map_cons, List.nodup_append] at hnodup
      exact hnodup.2.2 _ (List.mem_map_of_mem hx) _ List.mem_cons_self heq

/-! ### The stack -/

theorem full_stackPg : S.Full file stackPg := Nat.le_zero.1 (S.stored_length file 0 0)

theorem setupStack_outcome (file : FilePtr) (m : Space S) :
    (∃ m', setupStack m = (m', some PHYS_BASE) ∧ MapsAll file [(stackPg, true)] m m') ∨
      ∃ m', setupStack m = (m', none) ∧ Stopped file [(stackPg, true)] m m' := by
  cases hk : S.palloc m.used with
  | none =>
      refine Or.inr ⟨m, ?_, [], stackPg, true, [], m, rfl, .nil ⟨rfl, rfl, rfl, rfl⟩, Or.inl hk,
        ⟨rfl, rfl, fun _ _ => rfl⟩, rfl⟩
      simp only [setupStack, pallocGetPage_of_none hk]
  | some k =>
      have hfresh : k ∉ m.used := S.palloc_fresh hk
      let m₁ : Space S := { m with used := insert k m.used }
      have halloc : m.pallocGetPage = some (k, m₁) := pallocGetPage_of_some hk
      have hother : ∀ k' ≠ k, (m₁.memset k 0 PGSIZE).bytes k' = m.bytes k' := fun k' hk' =>
        update_of_ne hk' _ _
      by_cases hfree : m.pagedir stackPage = none ∧ S.pageTable m.pagedir stackPage = true
      · let m₂ : Space S := { m₁.memset k 0 PGSIZE with
          pagedir := update m.pagedir stackPage (some (k, true)) }
        have hinst : (m₁.memset k 0 PGSIZE).installPage (PHYS_BASE - BitVec.ofNat 32 PGSIZE) k true =
            (m₂, true) := if_pos hfree
        have hmaps : Maps file true stackPg m m₂ := by
          refine ⟨k, hfresh, rfl, rfl, fun i hi => ?_, hother⟩
          rw [pageByte_stackPg]
          exact memset_page hi
        refine Or.inl ⟨m₂, ?_, .cons hfree.1 hmaps rfl (.nil ⟨rfl, rfl, rfl, rfl⟩)⟩
        simp only [setupStack, halloc, hinst, if_true]
      · have hinst : (m₁.memset k 0 PGSIZE).installPage (PHYS_BASE - BitVec.ofNat 32 PGSIZE) k true =
            (m₁.memset k 0 PGSIZE, false) := if_neg hfree
        refine Or.inr ⟨(m₁.memset k 0 PGSIZE).pallocFreePage k, ?_, [], stackPg, true, [], m, rfl,
          .nil ⟨rfl, rfl, rfl, rfl⟩, Or.inr (Or.inr hfree),
          ⟨Finset.erase_insert hfresh, rfl, fun k' hk' => ?_⟩, rfl⟩
        · simp only [setupStack, halloc, hinst, Bool.false_eq_true, if_false]
        · exact hother k' fun heq => hfresh (heq ▸ hk')

/-! ### What `load` has mapped -/

/-- The pages that `load` maps, in order. -/
def filePages (S : Services) (file : FilePtr) : List (SegmentPage × Bool) :=
  imagePages (filePhdrs S file) ++ [(stackPg, true)]

/-- The memory is the one that the executable describes. -/
structure ShowsFile (file : FilePtr) (m : Space S) : Prop where
  mapped : ∀ u, (m.pagedir u).map Prod.snd = (Flat.ofFile S file).writable u
  bytes : ∀ u k w, m.pagedir u = some (k, w) →
    ∀ i < PGSIZE, m.bytes k i = (Flat.ofFile S file).byte u i

theorem fileEntries_eq : fileEntries S file =
    (imagePages (filePhdrs S file)).map fun x => binEntry file x.2 x.1 := by
  rw [fileEntries, imageEntries, imagePages, List.map_flatMap]
  refine congrArg (List.flatMap · _) (funext fun phdr => ?_)
  unfold segmentEntries segmentPagesOf
  split
  · rw [List.map_map]
    rfl
  · rfl

theorem mem_fileEntries {x : SegmentPage × Bool} (hx : x ∈ imagePages (filePhdrs S file)) :
    binEntry file x.2 x.1 ∈ fileEntries S file := by
  rw [fileEntries_eq]
  exact List.mem_map_of_mem hx

/-- All of them are pages of user memory. -/
theorem userPage_of_mem_filePages (hexe : Executable S file (filePhdrs S file))
    {x : SegmentPage × Bool} (hx : x ∈ filePages S file) : UserPage x.1.upage := by
  rcases List.mem_append.1 hx with himage | hstack
  · exact (fileEntries_page hexe (mem_fileEntries himage)).1
  · rw [List.mem_singleton.1 hstack]
    exact userPage_stackPage

theorem MapsAll.showsFile (h : MapsAll file (filePages S file) m m')
    (hm : m.pagedir = fun _ => none) : ShowsFile file m' := by
  have hpage : ∀ u, m'.pagedir u = none ∧ (Flat.ofFile S file).writable u = none ∨
      ∃ k w, m'.pagedir u = some (k, w) ∧ (Flat.ofFile S file).writable u = some w ∧
        ∀ i < PGSIZE, m'.bytes k i = (Flat.ofFile S file).byte u i := by
    intro u
    by_cases hu : u = stackPage
    · have hstack : Holds file true stackPg m' :=
        h.holds (List.mem_append_right _ List.mem_cons_self)
      obtain ⟨k, -, hk, hbytes⟩ := hstack
      refine Or.inr ⟨k, true, hu ▸ hk, if_pos hu, fun i hi => ?_⟩
      rw [hbytes i hi, pageByte_stackPg]
      exact (if_pos hu).symm
    · have hwritable : (Flat.ofFile S file).writable u =
          ((fileEntries S file).find? fun e => e.vaddr = u).map VmEntry.writable := if_neg hu
      cases hfind : (fileEntries S file).find? fun e => e.vaddr = u with
      | none =>
          refine Or.inl ⟨?_, by rw [hwritable, hfind, Option.map_none]⟩
          rw [h.pagedir_of_notMem fun x hx heq => ?_, hm]
          rcases List.mem_append.1 hx with himage | hstack
          · exact List.find?_eq_none.1 hfind _ (mem_fileEntries himage) (decide_eq_true heq)
          · rw [List.mem_singleton.1 hstack] at heq
            exact hu heq.symm
      | some e =>
          have hmem := List.mem_of_find?_eq_some hfind
          have haddr : e.vaddr = u := by simpa using List.find?_some hfind
          rw [fileEntries_eq] at hmem
          obtain ⟨⟨pg, w⟩, hx, rfl⟩ := List.mem_map.1 hmem
          obtain ⟨k, -, hk, hbytes⟩ := h.holds (List.mem_append_left _ hx)
          have haddr' : pg.upage = u := haddr
          rw [haddr'] at hk
          refine Or.inr ⟨k, w, hk, by rw [hwritable, hfind]; rfl, fun i hi => ?_⟩
          rw [hbytes i hi]
          simp only [Flat.ofFile, if_neg hu, hfind, page_binEntry]
  refine ⟨fun u => ?_, fun u k w hk i hi => ?_⟩
  · rcases hpage u with ⟨hnone, hflat⟩ | ⟨k, w, hk, hflat, -⟩
    · rw [hnone, hflat, Option.map_none]
    · rw [hk, hflat, Option.map_some]
  · rcases hpage u with ⟨hnone, -⟩ | ⟨k', w', hk', -, hbytes⟩
    · rw [hnone] at hk
      cases hk
    · rw [hk'] at hk
      cases hk
      exact hbytes i hi

/-- What has become of the image. -/
structure ImageDone (file : FilePtr) (m m' : Space S) (b : Option (Word × Word)) : Prop where
  pages : MapsSome file m m'
  executable : Executable S file (filePhdrs S file) →
    b = some ((fileEhdr S file).eEntry, PHYS_BASE) ∧ (∀ x ∈ filePages S file, S.Full file x.1) ∧
        MapsAll file (filePages S file) m m' ∨
      b = none ∧ Stopped file (filePages S file) m m'
  not : ¬ Executable S file (filePhdrs S file) → b = none

theorem executable_iff (hlen : (S.stored file 0 EHDR_SIZE).length = EHDR_SIZE)
    (hvalid : (fileEhdr S file).valid = true) :
    Executable S file (filePhdrs S file) ↔
      HasPhdrs S file (fileEhdr S file).ePhoff (filePhdrs S file) :=
  ⟨fun h => h.phdrs, fun h => ⟨hlen, hvalid, length_phdrsFrom.symm, h⟩⟩

theorem loadImage_done (hpos : S.pos m.files file = 0) :
    ∃ m' b, loadImage file m = .ok (m', b) ∧ ImageDone file m m' b := by
  have hheader : (m.fileReadLocal file EHDR_SIZE).2 = S.stored file 0 EHDR_SIZE := by
    simp only [Space.fileReadLocal, S.read_bytes, hpos]
  let m₀ : Space S := (m.fileReadLocal file EHDR_SIZE).1
  have hread : MapsAll file [] m m₀ := .nil ⟨rfl, rfl, rfl, rfl⟩
  by_cases hbad : (S.stored file 0 EHDR_SIZE).length ≠ EHDR_SIZE ∨ (fileEhdr S file).valid = false
  · have hgo : loadImage file m = .ok (m₀, none) := by
      unfold fileEhdr at hbad
      simp only [loadImage, hheader]
      exact if_pos hbad
    refine ⟨m₀, none, hgo, hread.mapsSome (by simp), fun hexe => ?_, fun _ => rfl⟩
    rcases hbad with hlen | hvalid
    · exact absurd hexe.size hlen
    · exact absurd (hvalid.symm.trans hexe.valid) (by simp)
  have hgo : loadImage file m =
      (loadPhdrs file (fileEhdr S file).ePhnum.toNat (fileEhdr S file).ePhoff m₀).map fun r =>
        if r.2 then
          ((setupStack r.1).1, (setupStack r.1).2.map fun esp => ((fileEhdr S file).eEntry, esp))
        else (r.1, none) := by
    unfold fileEhdr at hbad ⊢
    simp only [loadImage, hheader]
    exact if_neg hbad
  rw [not_or, not_not, Bool.not_eq_false] at hbad
  have hiff := executable_iff hbad.1 hbad.2
  obtain ⟨⟨m₁, b₁⟩, hphdrs, hdone⟩ := @loadPhdrs_done S file
    (fileEhdr S file).ePhnum.toNat (fileEhdr S file).ePhoff m₀
  rw [hgo, hphdrs]
  have hsome : MapsSome file m m₁ := .prepend hread (by simp) hdone.pages
  cases b₁ with
  | false =>
      refine ⟨m₁, none, rfl, hsome, fun hexe => Or.inr ⟨rfl, ?_⟩, fun _ => rfl⟩
      cases hdone.outcome (hiff.1 hexe) with
      | stopped hstop =>
          exact (hstop.prepend hread).append
  | true =>
      have hexe : Executable S file (filePhdrs S file) := by
        rw [hiff]
        by_contra hnot
        exact absurd (hdone.not hnot) (by simp)
      cases hdone.outcome (hiff.1 hexe) with
      | mapped hfull hmaps =>
          have himage : MapsAll file (imagePages (filePhdrs S file)) m m₁ :=
            hread.append hmaps
          have huser : ∀ x ∈ filePages S file, UserPage x.1.upage := fun _ =>
            userPage_of_mem_filePages hexe
          rcases setupStack_outcome file m₁ with ⟨m₂, hstack, hmaps'⟩ | ⟨m₂, hstack, hstop⟩
          · have hall : MapsAll file (filePages S file) m m₂ := himage.append hmaps'
            refine ⟨m₂, some ((fileEhdr S file).eEntry, PHYS_BASE), ?_, hall.mapsSome huser,
              fun _ => Or.inl ⟨rfl, fun x hx => ?_, hall⟩, fun hnot => absurd hexe hnot⟩
            · simp only [Except.map, if_true, hstack, Option.map_some]
            · rcases List.mem_append.1 hx with himg | hstk
              · exact hfull x himg
              · rw [List.mem_singleton.1 hstk]
                exact full_stackPg
          · have hstop' : Stopped file (filePages S file) m m₂ := hstop.prepend himage
            refine ⟨m₂, none, ?_, hstop'.mapsSome huser, fun _ => Or.inr ⟨rfl, hstop'⟩,
              fun _ => rfl⟩
            simp only [Except.map, if_true, hstack, Option.map_none]

/-- `load` of a file that can be opened. -/
structure LoadEnds (file : FilePtr) (m m' : Space S) (b : Option (Word × Word)) : Prop where
  closes : m'.log = m.log ++ [.opened file, .closed file]
  frames : (tables { m with pagedir := fun _ => none }).Extends () (tables m')
  userPages : ∀ u, m'.pagedir u ≠ none → UserPage u
  loaded : ∀ r, b = some r → Executable S file (filePhdrs S file) ∧
    r = ((fileEhdr S file).eEntry, PHYS_BASE) ∧ ShowsFile file m'

theorem MapsSome.userPages (h : MapsSome file m m') (hm : m.pagedir = fun _ => none) {u : Word}
    (hu : m'.pagedir u ≠ none) : UserPage u := by
  obtain ⟨ps, m₁, hmaps, huser, ⟨-, hdir, -⟩, -⟩ := h
  by_contra hnot
  have hother : ∀ x ∈ ps, x.1.upage ≠ u := by
    rintro x hx rfl
    exact hnot (huser x hx)
  rw [hdir, hmaps.pagedir_of_notMem hother, hm] at hu
  exact hu rfl

variable {name : List Byte} {files : S.Files}

/-- The image is loaded into an empty address space, between the opening and the closing. -/
theorem load_eq (hopen : S.filesysOpen m.files name = (files, some file))
    (hcreate : S.pagedirCreate = true) :
    load name m = (loadImage file { m with
      pagedir := fun _ => none, files := files, log := m.log ++ [.opened file] }).map
        fun r => (r.1.fileClose (some file), r.2) := by
  have hcreate' : ¬ S.pagedirCreate = false := by simp [hcreate]
  simp only [load, if_neg hcreate', Space.filesysOpen, hopen]

theorem load_ends (hopen : S.filesysOpen m.files name = (files, some file))
    (hpos : S.pos files file = 0) (hcreate : S.pagedirCreate = true) :
    ∃ m' b, load name m = .ok (m', b) ∧ LoadEnds file m m' b := by
  rw [load_eq hopen hcreate]
  obtain ⟨m₁, b, himage, hdone⟩ := loadImage_done (m := { m with
    pagedir := fun _ => none, files := files, log := m.log ++ [.opened file] }) hpos
  rw [himage]
  refine ⟨m₁.fileClose (some file), b, rfl, ?_, hdone.pages.extends,
    fun u => hdone.pages.userPages rfl, fun r hr => ?_⟩
  · show m₁.log ++ [FileEvent.closed file] = _
    rw [hdone.pages.log]
    exact List.append_assoc ..
  · have hexe : Executable S file (filePhdrs S file) := by
      by_contra hnot
      rw [hdone.not hnot] at hr
      cases hr
    rcases hdone.executable hexe with ⟨hb, -, hmaps⟩ | ⟨hb, -⟩
    · obtain ⟨hmapped, hbytes⟩ := hmaps.showsFile rfl
      exact ⟨hexe, (Option.some.inj (hb.symm.trans hr)).symm, hmapped, hbytes⟩
    · rw [hb] at hr
      cases hr

/-- The memory with which project 4 starts a process for the command line, but for the arguments on
the page of the stack. -/
structure ShowsCommand (file : FilePtr) (fileName : Project4.CString) (m : Space S) : Prop where
  mapped : ∀ u, (m.pagedir u).map Prod.snd = (Flat.ofCommand S file fileName).writable u
  bytes : ∀ u k w, m.pagedir u = some (k, w) → u ≠ stackPage →
    ∀ i < PGSIZE, m.bytes k i = (Flat.ofCommand S file fileName).byte u i

theorem ShowsFile.showsCommand (h : ShowsFile file m) (fileName : Project4.CString) :
    ShowsCommand file fileName m := by
  refine ⟨h.mapped, fun u k w hu hne i hi => (h.bytes u k w hu i hi).trans ?_⟩
  exact (congrFun (update_of_ne hne _ _) i).symm

/-- Whatever the file contains, `load` comes to an end and closes the file.  It maps pages of user
memory only, each to a frame of its own, and takes no other frame.  If it succeeds, the file is an
executable, and the memory is `Flat.ofFile`, which demand paging shows as well. -/
theorem eager_load_any_file (hopen : S.filesysOpen m.files name = (files, some file))
    (hpos : S.pos files file = 0) (hcreate : S.pagedirCreate = true) :
    ∃ m' b, load name m = .ok (m', b) ∧ LoadEnds file m m' b ∧
      ∀ r fileName, b = some r → ShowsCommand file fileName m' := by
  obtain ⟨m', b, hgo, hends⟩ := load_ends hopen hpos hcreate
  exact ⟨m', b, hgo, hends, fun r fileName hr => (hends.loaded r hr).2.2.showsCommand fileName⟩

/-- With memory enough, the files that are loaded are the executables with no two segments on one
page, none on the page of the stack, and all their bytes in the file.  Demand paging loads every
executable. -/
theorem eager_load_succeeds_iff (hopen : S.filesysOpen m.files name = (files, some file))
    (hpos : S.pos files file = 0) (hcreate : S.pagedirCreate = true)
    (htable : ∀ dir u, S.pageTable dir u = true)
    (hpool : m.used.card + (filePages S file).length ≤ S.poolSize) :
    (∃ m' r, load name m = .ok (m', some r)) ↔
      Executable S file (filePhdrs S file) ∧
        ((filePages S file).map fun x => x.1.upage).Nodup ∧
        ∀ x ∈ filePages S file, S.Full file x.1 := by
  rw [load_eq hopen hcreate]
  obtain ⟨m₁, b, himage, hdone⟩ := loadImage_done (m := { m with
    pagedir := fun _ => none, files := files, log := m.log ++ [.opened file] }) hpos
  rw [himage]
  constructor
  · rintro ⟨m', r, hgo⟩
    obtain ⟨-, rfl⟩ := Prod.mk.inj (Except.ok.inj hgo)
    have hexe : Executable S file (filePhdrs S file) := by
      by_contra hnot
      exact absurd (hdone.not hnot) (by simp)
    rcases hdone.executable hexe with ⟨-, hfull, hmaps⟩ | ⟨hb, -⟩
    · exact ⟨hexe, hmaps.nodup.1, hfull⟩
    · cases hb
  · rintro ⟨hexe, hnodup, hfull⟩
    rcases hdone.executable hexe with ⟨rfl, -⟩ | ⟨-, hstop⟩
    · exact ⟨_, _, rfl⟩
    · exact (hstop.not_of_nodup htable hpool hfull hnodup fun _ _ => rfl).elim

end Image

/-! ### The executable of one segment -/

open Project4 (oneSegment Executable filePhdrs)

def oneSpace : Space oneSegment := .start fun _ => 0

theorem eager_load_any_file_one :
    ∃ m' b, load [0x61] oneSpace = .ok (m', b) ∧ LoadEnds 0 oneSpace m' b ∧
      ∀ r fileName, b = some r → ShowsCommand 0 fileName m' :=
  eager_load_any_file (m := oneSpace) rfl rfl rfl

theorem length_filePages_one : (filePages oneSegment 0).length = 2 := by decide +kernel

theorem eager_load_succeeds_iff_one :
    (∃ m' r, load [0x61] oneSpace = .ok (m', some r)) ↔
      Executable oneSegment 0 (filePhdrs oneSegment 0) ∧
        ((filePages oneSegment 0).map fun x => x.1.upage).Nodup ∧
        ∀ x ∈ filePages oneSegment 0, oneSegment.Full 0 x.1 :=
  eager_load_succeeds_iff (m := oneSpace) rfl rfl rfl (fun _ _ => rfl) (by
    rw [length_filePages_one]
    decide)

end Project3
end Pintos
