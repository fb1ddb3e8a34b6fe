import Mathlib.Data.BitVec
import Mathlib.Data.Finset.Card
import Mathlib.Data.Finset.Range

/-!
# Memory — pages, files and page directories as the loaders see them

Projects 3 and 4 load programs through `threads/palloc.h`, `threads/malloc.h`, `filesys/file.h` and
`userprog/pagedir.h`, none of which is part of the repository.  `Services` collects what the loaders
rely on; `Space` is the state that they change.
-/

namespace Pintos
namespace Userprog

open Function

/-! ## Words and pages (`threads/vaddr.h`) -/

abbrev Word := BitVec 32

abbrev Byte := BitVec 8

instance instLinearOrderWord : LinearOrder Word where
  le_refl := BitVec.le_refl
  le_trans _ _ _ := BitVec.le_trans
  le_antisymm _ _ := BitVec.le_antisymm
  le_total := BitVec.le_total
  lt_iff_le_not_ge a b := by
    simp only [BitVec.le_def, BitVec.lt_def]
    omega
  toDecidableLE := inferInstance
  toDecidableLT := inferInstance

def PGSIZE : ℕ := 4096

def PGMASK : Word := 0xfff

def PHYS_BASE : Word := 0xc0000000

def pgOfs (va : Word) : Word := va &&& PGMASK

def pgRoundDown (va : Word) : Word := va &&& ~~~PGMASK

def isUserVaddr (va : Word) : Bool := decide (va < PHYS_BASE)

/-! ## What the loaders call -/

/-- An open file, a `struct file *`. -/
abbrev FilePtr := ℕ

/-- A page of the user pool, by its kernel address. -/
abbrev FramePtr := ℕ

/-- `stored f p n` are the bytes of the file from position `p` on, at most `n` of them and fewer
only at the end of the file. -/
structure Services where
  Files : Type
  pos : Files → FilePtr → Word
  stored : FilePtr → Word → ℕ → List Byte
  fileSeek : Files → FilePtr → Word → Files
  fileRead : Files → FilePtr → ℕ → Files × List Byte
  fileLength : FilePtr → Word
  filesysOpen : Files → List Byte → Files × Option FilePtr
  fileClose : Files → FilePtr → Files
  /-- The page that is taken from the pool when the given ones are in use. -/
  palloc : Finset FramePtr → Option FramePtr
  poolSize : ℕ
  /-- The block that is taken from the heap when the given ones are in use. -/
  malloc : Finset ℕ → Option ℕ
  heapSize : ℕ
  /-- Whether there is memory for a page directory. -/
  pagedirCreate : Bool
  /-- Whether there is memory for the page table of this page. -/
  pageTable : (Word → Option (FramePtr × Bool)) → Word → Bool
  stored_length : ∀ f p n, (stored f p n).length ≤ n
  seek_pos : ∀ s f p, pos (fileSeek s f p) f = p
  read_bytes : ∀ s f n, (fileRead s f n).2 = stored f (pos s f) n
  read_pos : ∀ s f n,
    pos (fileRead s f n).1 f = pos s f + BitVec.ofNat 32 (stored f (pos s f) n).length
  palloc_fresh : ∀ {used k}, palloc used = some k → k ∉ used
  palloc_some : ∀ {used}, used.card < poolSize → palloc used ≠ none
  malloc_fresh : ∀ {used p}, malloc used = some p → p ∉ used
  malloc_some : ∀ {used}, used.card < heapSize → malloc used ≠ none

/-- The first of the numbers below `n` that is not in use. -/
def firstFree (n : ℕ) (used : Finset ℕ) : Option ℕ :=
  (List.range n).find? fun k => k ∉ used

theorem firstFree_fresh {n : ℕ} {used : Finset ℕ} {k : ℕ} (h : firstFree n used = some k) :
    k ∉ used := by
  simpa using List.find?_some h

theorem firstFree_ne_none {n : ℕ} {used : Finset ℕ} (h : used.card < n) :
    firstFree n used ≠ none := by
  intro hnone
  have hcard : used.card < (Finset.range n).card := by rwa [Finset.card_range]
  obtain ⟨k, hk, hfree⟩ := Finset.exists_mem_notMem_of_card_lt_card hcard
  have hall := List.find?_eq_none.1 hnone k (List.mem_range.2 (Finset.mem_range.1 hk))
  simp [hfree] at hall

/-- Files with the given contents under the given names, and pools of which the first free block is
taken. -/
def Services.ofContents (content : FilePtr → List Byte) (name : List Byte → Option FilePtr)
    (poolSize heapSize : ℕ) : Services where
  Files := FilePtr → Word
  pos s f := s f
  stored f p n := ((content f).drop p.toNat).take n
  fileSeek s f p := update s f p
  fileRead s f n :=
    let bs := ((content f).drop (s f).toNat).take n
    (update s f (s f + BitVec.ofNat 32 bs.length), bs)
  fileLength f := BitVec.ofNat 32 (content f).length
  filesysOpen s n :=
    match name n with
    | none => (s, none)
    | some f => (update s f 0, some f)
  fileClose s _ := s
  palloc := firstFree poolSize
  poolSize := poolSize
  malloc := firstFree heapSize
  heapSize := heapSize
  pagedirCreate := true
  pageTable := fun _ _ => true
  stored_length _ _ n := List.length_take_le n _
  seek_pos s f p := update_self f p s
  read_bytes _ _ _ := rfl
  read_pos s f _ := update_self f _ s
  palloc_fresh := firstFree_fresh
  palloc_some := firstFree_ne_none
  malloc_fresh := firstFree_fresh
  malloc_some := firstFree_ne_none

/-- `filesys_open` has returned the file, or the file has been passed to `file_close`. -/
inductive FileEvent
  | opened (f : FilePtr)
  | closed (f : FilePtr)
  deriving DecidableEq

/-- The open files with what has happened to them so far, the pages in use with their bytes, and the
page directory of the running process. -/
structure Space (S : Services) where
  files : S.Files
  log : List FileEvent
  used : Finset FramePtr
  bytes : FramePtr → ℕ → Byte
  pagedir : Word → Option (FramePtr × Bool)

/-- An assertion of the kernel fails, or the kernel reads through a null pointer. -/
inductive Fault
  | assertion
  | nullPointer
  deriving DecidableEq

/-- Overwrite the bytes from `ofs` on. -/
def storeBytes (page : ℕ → Byte) (ofs : ℕ) (bs : List Byte) : ℕ → Byte :=
  fun i => if ofs ≤ i then bs[i - ofs]?.getD (page i) else page i

namespace Space

variable {S : Services}

/-- No page is in use or mapped. -/
def start (files : S.Files) : Space S := ⟨files, [], ∅, fun _ _ => 0, fun _ => none⟩

def pallocGetPage (m : Space S) : Option (FramePtr × Space S) :=
  (S.palloc m.used).map fun k => (k, { m with used := insert k m.used })

def pallocFreePage (m : Space S) (kpage : FramePtr) : Space S :=
  { m with used := m.used.erase kpage }

def fileSeek (m : Space S) (file : FilePtr) (ofs : Word) : Space S :=
  { m with files := S.fileSeek m.files file ofs }

def filesysOpen (m : Space S) (name : List Byte) : Space S × Option FilePtr :=
  match S.filesysOpen m.files name with
  | (files', none) => ({ m with files := files' }, none)
  | (files', some f) => ({ m with files := files', log := m.log ++ [.opened f] }, some f)

/-- Closing a null pointer does nothing. -/
def fileClose (m : Space S) (file : Option FilePtr) : Space S :=
  match file with
  | none => m
  | some f => { m with files := S.fileClose m.files f, log := m.log ++ [.closed f] }

/-- Read into a local variable of the kernel. -/
def fileReadLocal (m : Space S) (file : FilePtr) (size : ℕ) : Space S × List Byte :=
  let r := S.fileRead m.files file size
  ({ m with files := r.1 }, r.2)

/-- The number of bytes read. -/
def fileRead (m : Space S) (file : FilePtr) (kpage : FramePtr) (size : ℕ) : Space S × ℕ :=
  let r := S.fileRead m.files file size
  ({ m with files := r.1, bytes := update m.bytes kpage (storeBytes (m.bytes kpage) 0 r.2) },
    r.2.length)

/-- `memset (kpage + ofs, 0, size)` -/
def memset (m : Space S) (kpage : FramePtr) (ofs size : ℕ) : Space S :=
  { m with
    bytes := update m.bytes kpage
      (storeBytes (m.bytes kpage) ofs (List.replicate size 0)) }

def installPage (m : Space S) (upage : Word) (kpage : FramePtr) (writable : Bool) :
    Space S × Bool :=
  if m.pagedir upage = none ∧ S.pageTable m.pagedir upage = true then
    ({ m with pagedir := update m.pagedir upage (some (kpage, writable)) }, true)
  else (m, false)

end Space

/-! ## Frames and the page directory -/

theorem pallocGetPage_of_none {S : Services} {m : Space S} (h : S.palloc m.used = none) :
    m.pallocGetPage = none := by
  rw [Space.pallocGetPage, h]
  rfl

theorem pallocGetPage_of_some {S : Services} {m : Space S} {k : FramePtr}
    (h : S.palloc m.used = some k) :
    m.pallocGetPage = some (k, { m with used := insert k m.used }) := by
  rw [Space.pallocGetPage, h]
  rfl

section InstallPage

variable {S : Services} {m : Space S} {upage : Word} {kpage : FramePtr} {writable : Bool}

theorem installPage_of_none (htable : S.pageTable m.pagedir upage = true)
    (hdir : m.pagedir upage = none) :
    m.installPage upage kpage writable =
      ({ m with pagedir := update m.pagedir upage (some (kpage, writable)) }, true) :=
  if_pos ⟨hdir, htable⟩

theorem installPage_of_ne_none (hdir : m.pagedir upage ≠ none) :
    m.installPage upage kpage writable = (m, false) :=
  if_neg fun h => hdir h.1

end InstallPage

/-! ## Bytes -/

section Bytes

variable {page : ℕ → Byte} {bs : List Byte} {ofs i : ℕ}

theorem storeBytes_lt (h : i < ofs) : storeBytes page ofs bs i = page i := by
  simp [storeBytes, Nat.not_le.2 h]

theorem storeBytes_ge (h : ofs + bs.length ≤ i) : storeBytes page ofs bs i = page i := by
  have hlen : bs.length ≤ i - ofs := by omega
  simp [storeBytes, List.getElem?_eq_none hlen]

theorem storeBytes_mem (h : ofs ≤ i) (hi : i < ofs + bs.length) :
    storeBytes page ofs bs i = bs[i - ofs]?.getD 0 := by
  have hlen : i - ofs < bs.length := by omega
  simp [storeBytes, h, hlen]

end Bytes

end Userprog
end Pintos
