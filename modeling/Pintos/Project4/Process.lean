import Pintos.Project4.PageTable
import Pintos.Userprog.Segment

/-!
# Process — registering a segment and demand loading (`userprog/process.c`)

`load_segment` only puts one entry for each page into the process's table; `handle_mm_fault` brings
the page in when it is touched.
-/

namespace Pintos
namespace Project4

open Lib Userprog Function

/-! ## The code -/

/-- The memory, with the running process's page directory and `vm`; `heap` are the entries that
`malloc` has handed out. -/
structure Machine (S : Services) (H : HashTable Ptr) where
  space : Space S
  heap : Finset VmePtr
  mem : Memory
  vm : H.Table

section Code

variable {S : Services} {H : HashTable Ptr}

/-- A process that has loaded nothing. -/
def Machine.start (space : Space S) (mem : Memory) : Machine S H := ⟨space, ∅, mem, vmInit H⟩

/-- The body of the loop of `load_segment`, down to the `Advance`. -/
def registerPage (hashInt : Word → ℕ) (file : FilePtr) (writable : Bool) (ofs upage : Word)
    (pageReadBytes pageZeroBytes : ℕ) (m : Machine S H) : Except Fault (Machine S H) :=
  match S.malloc m.heap with
  | none => .error .nullPointer
  | some vme =>
      let mem := m.mem.write (.heap vme)
        { type := VM_BIN, vaddr := upage, writable := writable, isLoaded := false, file := file,
          offset := ofs, readBytes := pageReadBytes, zeroBytes := pageZeroBytes }
      .ok { m with
        heap := insert vme m.heap, mem := mem, vm := (insertVme H hashInt mem m.vm vme).1 }

/-- The loop; its first argument bounds the number of bytes that are left. -/
def loadSegmentLoop (hashInt : Word → ℕ) (file : FilePtr) (writable : Bool) :
    ℕ → Word → Word → ℕ → ℕ → Machine S H → Except Fault (Machine S H)
  | 0, _, _, _, _, m => .ok m
  | fuel + 1, ofs, upage, readBytes, zeroBytes, m =>
      if readBytes > 0 ∨ zeroBytes > 0 then
        let pageReadBytes := if readBytes < PGSIZE then readBytes else PGSIZE
        let pageZeroBytes := PGSIZE - pageReadBytes
        (registerPage hashInt file writable ofs upage pageReadBytes pageZeroBytes m).bind
          (loadSegmentLoop hashInt file writable fuel (ofs + BitVec.ofNat 32 pageReadBytes)
            (upage + BitVec.ofNat 32 PGSIZE) (readBytes - pageReadBytes)
            (zeroBytes - pageZeroBytes))
      else .ok m

def loadSegment (hashInt : Word → ℕ) (file : FilePtr) (ofs upage : Word)
    (readBytes zeroBytes : ℕ) (writable : Bool) (m : Machine S H) :
    Except Fault (Machine S H × Bool) :=
  if (readBytes + zeroBytes) % PGSIZE = 0 ∧ pgOfs upage = 0 ∧ pgOfs ofs = 0 then
    (loadSegmentLoop hashInt file writable (readBytes + zeroBytes) ofs upage readBytes zeroBytes
      { m with space := m.space.fileSeek file ofs }).map fun m => (m, true)
  else .error .assertion

/-- Returns the stack pointer; the entry for the page of the stack may not fit into the table, but
that changes nothing. -/
def setupStack (hashInt : Word → ℕ) (m : Machine S H) :
    Except Fault (Machine S H × Option Word) :=
  let upage := PHYS_BASE - BitVec.ofNat 32 PGSIZE
  match m.space.pallocGetPage with
  | none => .ok (m, none)
  | some (kpage, sp) =>
      let installed := (sp.memset kpage 0 PGSIZE).installPage upage kpage true
      if installed.2 then
        match S.malloc m.heap with
        | none => .error .nullPointer
        | some vme =>
            let mem := m.mem.write (.heap vme)
              { m.mem.entry (.heap vme) with
                type := VM_ANON, vaddr := upage, writable := true, isLoaded := true }
            .ok ({ space := installed.1, heap := insert vme m.heap, mem := mem,
                   vm := (insertVme H hashInt mem m.vm vme).1 }, some PHYS_BASE)
      else .ok ({ m with space := installed.1.pallocFreePage kpage }, none)

/-- The `switch` of `handle_mm_fault`, where `VM_BIN` falls through to `VM_FILE`: the value of
`success` after it, or `none` where it returns. -/
def loadType (m : Space S) (kaddr : FramePtr) (vme : VmEntry) : Space S × Option Bool :=
  if vme.type = VM_BIN then
    let bin := loadFile m kaddr vme
    if bin.2 then
      let file := loadFile bin.1 kaddr vme
      if file.2 then (file.1, some true) else (file.1, none)
    else (bin.1, none)
  else if vme.type = VM_FILE then
    let file := loadFile m kaddr vme
    if file.2 then (file.1, some true) else (file.1, none)
  else (m, some false)

def handleMmFault (m : Machine S H) (vme : VmePtr) : Machine S H × Bool :=
  let e := m.mem.entry (.heap vme)
  match m.space.pallocGetPage with
  | none => (m, false)
  | some (kaddr, sp) =>
      match loadType sp kaddr e with
      | (sp, none) => ({ m with space := sp.pallocFreePage kaddr }, false)
      | (sp, some success) =>
          let installed := sp.installPage e.vaddr kaddr e.writable
          if installed.2 then
            ({ m with
                space := installed.1
                mem := m.mem.write (.heap vme) { e with isLoaded := true } }, success)
          else ({ m with space := installed.1.pallocFreePage kaddr }, false)

end Code

/-! ## `load_file` -/

/-- The page of the segment that the entry describes. -/
def VmEntry.page (e : VmEntry) : SegmentPage := ⟨e.vaddr, e.offset, e.readBytes, e.zeroBytes⟩

section LoadFile

variable {S : Services} {m : Space S} {kaddr : FramePtr} {e : VmEntry}

theorem loadFile_of_full (hfull : S.Full e.file e.page) :
    loadFile m kaddr e = (((m.fileSeek e.file e.offset).fileRead e.file kaddr e.readBytes).1.memset
      kaddr e.readBytes e.zeroBytes, true) := by
  have hn : ((m.fileSeek e.file e.offset).fileRead e.file kaddr e.readBytes).2 = e.readBytes := by
    rw [fileRead_snd, Space.fileSeek, S.seek_pos]
    exact hfull
  simp only [loadFile, hn, ne_eq, not_true_eq_false, if_false]

theorem loadFile_of_not_full (hfull : ¬ S.Full e.file e.page) :
    loadFile m kaddr e =
      (((m.fileSeek e.file e.offset).fileRead e.file kaddr e.readBytes).1, false) := by
  have hn : ((m.fileSeek e.file e.offset).fileRead e.file kaddr e.readBytes).2 ≠ e.readBytes := by
    rw [fileRead_snd, Space.fileSeek, S.seek_pos]
    exact hfull
  simp only [loadFile, ne_eq, hn, not_false_eq_true, if_true]

theorem loadFile_snd : (loadFile m kaddr e).2 = true ↔ S.Full e.file e.page := by
  by_cases hfull : S.Full e.file e.page
  · simp [loadFile_of_full hfull, hfull]
  · simp [loadFile_of_not_full hfull, hfull]

theorem loadFile_used : (loadFile m kaddr e).1.used = m.used := by
  by_cases hfull : S.Full e.file e.page
  · rw [loadFile_of_full hfull]
    rfl
  · rw [loadFile_of_not_full hfull]
    rfl

theorem loadFile_pagedir : (loadFile m kaddr e).1.pagedir = m.pagedir := by
  by_cases hfull : S.Full e.file e.page
  · rw [loadFile_of_full hfull]
    rfl
  · rw [loadFile_of_not_full hfull]
    rfl

theorem loadFile_other {k : FramePtr} (hk : k ≠ kaddr) :
    (loadFile m kaddr e).1.bytes k = m.bytes k := by
  by_cases hfull : S.Full e.file e.page
  · rw [loadFile_of_full hfull]
    exact fill_other hk
  · rw [loadFile_of_not_full hfull]
    simp [Space.fileRead, Space.fileSeek, hk]

/-- `load_file` fills the frame with the page. -/
theorem loadFile_bytes (hfull : S.Full e.file e.page) (hsize : e.readBytes + e.zeroBytes = PGSIZE)
    {i : ℕ} (hi : i < PGSIZE) :
    (loadFile m kaddr e).1.bytes kaddr i = S.pageByte e.file e.page i := by
  rw [loadFile_of_full hfull]
  have hpos : S.pos (m.fileSeek e.file e.offset).files e.file = e.page.ofs := S.seek_pos _ _ _
  exact fill_bytes hpos hfull hsize hi

/-- And writes nothing beyond it. -/
theorem loadFile_beyond (hsize : e.readBytes + e.zeroBytes = PGSIZE) {i : ℕ} (hi : PGSIZE ≤ i) :
    (loadFile m kaddr e).1.bytes kaddr i = m.bytes kaddr i := by
  by_cases hfull : S.Full e.file e.page
  · rw [loadFile_of_full hfull]
    have hpage : e.page.readBytes + e.page.zeroBytes = PGSIZE := hsize
    exact fill_beyond hpage hi
  · rw [loadFile_of_not_full hfull]
    have hlen := S.stored_length e.file (S.pos (m.fileSeek e.file e.offset).files e.file) e.readBytes
    simp only [Space.fileRead, update_self, S.read_bytes]
    rw [storeBytes_ge (by omega)]
    rfl

end LoadFile

/-! ## `handle_mm_fault` -/

section HandleMmFault

variable {S : Services} {H : HashTable Ptr} {m : Machine S H} {p : VmePtr}

/-- The fall through to `VM_FILE` reads the page a second time. -/
theorem loadType_bin {sp : Space S} {kaddr : FramePtr} {e : VmEntry} (hbin : e.type = VM_BIN) :
    loadType sp kaddr e =
      if S.Full e.file e.page then (((loadFile (loadFile sp kaddr e).1 kaddr e).1), some true)
      else ((loadFile sp kaddr e).1, none) := by
  by_cases hfull : S.Full e.file e.page
  · simp only [loadType, hbin, if_true, loadFile_snd.2 hfull, if_pos hfull]
  · have hfalse : ¬ (loadFile sp kaddr e).2 = true := fun h => hfull (loadFile_snd.1 h)
    simp only [loadType, hbin, if_true, if_neg hfalse, if_neg hfull]

/-- What `handle_mm_fault` does with an entry of `load_segment` when it gets its memory. -/
theorem handleMmFault_cases (hbin : (m.mem.entry (.heap p)).type = VM_BIN)
    (hsize : (m.mem.entry (.heap p)).readBytes + (m.mem.entry (.heap p)).zeroBytes = PGSIZE)
    (hused : m.space.used.card < S.poolSize) (htable : ∀ dir u, S.pageTable dir u = true)
    (hfree : m.space.pagedir (m.mem.entry (.heap p)).vaddr = none) :
    ∃ sp, (S.Full (m.mem.entry (.heap p)).file (m.mem.entry (.heap p)).page ∧
          Maps (m.mem.entry (.heap p)).file (m.mem.entry (.heap p)).writable
            (m.mem.entry (.heap p)).page m.space sp ∧
          handleMmFault m p =
            ({ m with
                space := sp
                mem := m.mem.write (.heap p) { m.mem.entry (.heap p) with isLoaded := true } },
              true)) ∨
        ¬ S.Full (m.mem.entry (.heap p)).file (m.mem.entry (.heap p)).page ∧
          KeepsPages m.space sp ∧ handleMmFault m p = ({ m with space := sp }, false) := by
  obtain ⟨k, hk⟩ := Option.ne_none_iff_exists'.1 (S.palloc_some hused)
  generalize he : m.mem.entry (.heap p) = e at *
  let sp₁ : Space S := { m.space with used := insert k m.space.used }
  have halloc : m.space.pallocGetPage = some (k, sp₁) := pallocGetPage_of_some hk
  have hfresh : k ∉ m.space.used := S.palloc_fresh hk
  by_cases hfull : S.Full e.file e.page
  · let sp₂ : Space S := (loadFile (loadFile sp₁ k e).1 k e).1
    have hload : loadType sp₁ k e = (sp₂, some true) := by
      rw [loadType_bin hbin, if_pos hfull]
    have hdir : sp₂.pagedir = m.space.pagedir := by
      simp only [sp₂, loadFile_pagedir, sp₁]
    have hinst : sp₂.installPage e.vaddr k e.writable =
        ({ sp₂ with pagedir := update sp₂.pagedir e.vaddr (some (k, e.writable)) }, true) :=
      installPage_of_none (htable _ _) (hdir ▸ hfree)
    have hmaps : Maps e.file e.writable e.page m.space
        { sp₂ with pagedir := update sp₂.pagedir e.vaddr (some (k, e.writable)) } := by
      refine ⟨k, hfresh, ?_, ?_, ?_, ?_⟩
      · simp only [sp₂, loadFile_used, sp₁]
      · rw [hdir]
        rfl
      · intro i hi
        exact loadFile_bytes hfull hsize hi
      · intro k' hk'
        simp only [sp₂, loadFile_other hk', sp₁]
    refine ⟨_, Or.inl ⟨hfull, hmaps, ?_⟩⟩
    simp only [handleMmFault, he, halloc, hload, hinst, if_true]
  · have hload : loadType sp₁ k e = ((loadFile sp₁ k e).1, none) := by
      rw [loadType_bin hbin, if_neg hfull]
    refine ⟨(loadFile sp₁ k e).1.pallocFreePage k, Or.inr ⟨hfull, ⟨?_, ?_, ?_⟩, ?_⟩⟩
    · simp only [Space.pallocFreePage, loadFile_used, sp₁]
      exact Finset.erase_insert hfresh
    · simp only [Space.pallocFreePage, loadFile_pagedir, sp₁]
    · intro k' hk'
      have hne : k' ≠ k := fun heq => hfresh (heq ▸ hk')
      simp only [Space.pallocFreePage, loadFile_other hne, sp₁]
    · simp only [handleMmFault, he, halloc, hload]

end HandleMmFault

end Project4
end Pintos
