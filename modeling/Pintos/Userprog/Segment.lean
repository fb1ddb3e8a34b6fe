import Pintos.Userprog.Memory
import Mathlib.Data.List.Range

/-!
# Segment — a segment of an executable as a list of pages

`load_segment` walks over the pages of a segment: page `i` lies at `upage + i * PGSIZE`, its first
bytes come from the file and the others are zero.  `Maps` says that a step has mapped one such page;
it is all that the two loaders have in common.
-/

namespace Pintos
namespace Userprog

open Function

/-! ## The pages of a segment -/

structure SegmentPage where
  upage : Word
  ofs : Word
  readBytes : ℕ
  zeroBytes : ℕ
  deriving DecidableEq

/-- The address of page `i` of a segment at `upage`. -/
def pageAddr (upage : Word) (i : ℕ) : Word := upage + BitVec.ofNat 32 (i * PGSIZE)

/-- Page `i` of the segment with `readBytes` bytes in the file. -/
def segmentPage (ofs upage : Word) (readBytes i : ℕ) : SegmentPage where
  upage := pageAddr upage i
  ofs := ofs + BitVec.ofNat 32 (min readBytes (i * PGSIZE))
  readBytes := min PGSIZE (readBytes - i * PGSIZE)
  zeroBytes := PGSIZE - min PGSIZE (readBytes - i * PGSIZE)

def segmentPages (ofs upage : Word) (readBytes n : ℕ) : List SegmentPage :=
  (List.range n).map (segmentPage ofs upage readBytes)

section Pages

variable {ofs upage : Word} {readBytes n i : ℕ}

@[simp] theorem segmentPages_zero : segmentPages ofs upage readBytes 0 = [] := rfl

@[simp] theorem length_segmentPages : (segmentPages ofs upage readBytes n).length = n := by
  simp [segmentPages]

theorem mem_segmentPages {pg : SegmentPage} :
    pg ∈ segmentPages ofs upage readBytes n ↔ ∃ i < n, segmentPage ofs upage readBytes i = pg := by
  simp [segmentPages]

theorem readBytes_add_zeroBytes :
    (segmentPage ofs upage readBytes i).readBytes + (segmentPage ofs upage readBytes i).zeroBytes =
      PGSIZE := by
  have hle : min PGSIZE (readBytes - i * PGSIZE) ≤ PGSIZE := Nat.min_le_left _ _
  exact Nat.add_sub_cancel' hle

/-- The pages after the first are those of the rest of the segment. -/
theorem segmentPage_succ :
    segmentPage ofs upage readBytes (i + 1) =
      segmentPage (ofs + BitVec.ofNat 32 (min PGSIZE readBytes)) (upage + BitVec.ofNat 32 PGSIZE)
        (readBytes - min PGSIZE readBytes) i := by
  have hpage : (i + 1) * PGSIZE = PGSIZE + i * PGSIZE := by
    rw [Nat.add_mul, Nat.one_mul, Nat.add_comm]
  have hrest : readBytes - (PGSIZE + i * PGSIZE) =
      readBytes - min PGSIZE readBytes - i * PGSIZE := by
    omega
  have hofs : min readBytes (PGSIZE + i * PGSIZE) =
      min PGSIZE readBytes + min (readBytes - min PGSIZE readBytes) (i * PGSIZE) := by
    omega
  simp only [segmentPage, pageAddr, hpage, hrest, hofs, BitVec.ofNat_add, BitVec.add_assoc]

theorem segmentPages_succ :
    segmentPages ofs upage readBytes (n + 1) =
      segmentPage ofs upage readBytes 0 ::
        segmentPages (ofs + BitVec.ofNat 32 (min PGSIZE readBytes))
          (upage + BitVec.ofNat 32 PGSIZE) (readBytes - min PGSIZE readBytes) n := by
  simp only [segmentPages, List.range_succ_eq_map, List.map_cons, List.map_map]
  refine congrArg _ (List.map_congr_left fun i _ => ?_)
  exact segmentPage_succ

theorem segmentPage_zero : segmentPage ofs upage readBytes 0 =
    ⟨upage, ofs, min PGSIZE readBytes, PGSIZE - min PGSIZE readBytes⟩ := by
  simp [segmentPage, pageAddr]

/-- A round of the loop of `load_segment` with pages to go. -/
theorem segment_round {zeroBytes : ℕ} (hsum : readBytes + zeroBytes = (n + 1) * PGSIZE) :
    (readBytes > 0 ∨ zeroBytes > 0) ∧
      (if readBytes < PGSIZE then readBytes else PGSIZE) = min PGSIZE readBytes ∧
      readBytes - min PGSIZE readBytes + (zeroBytes - (PGSIZE - min PGSIZE readBytes)) =
        n * PGSIZE := by
  rw [Nat.add_mul] at hsum
  refine ⟨?_, ?_, ?_⟩
  · simp only [PGSIZE] at hsum
    omega
  · split <;> omega
  · omega

theorem segmentPages_add (a b : ℕ) :
    segmentPages ofs upage readBytes (a + b) = segmentPages ofs upage readBytes a ++
      (List.range b).map fun i => segmentPage ofs upage readBytes (a + i) := by
  simp [segmentPages, List.range_add, Function.comp_def]

/-! ### A segment longer than the address space -/

/-- The number of pages of the address space. -/
def PAGES : ℕ := 2 ^ 20

/-- The addresses repeat after `PAGES` pages. -/
theorem upage_add_pages (ofs upage : Word) (readBytes i : ℕ) :
    (segmentPage ofs upage readBytes (PAGES + i)).upage =
      (segmentPage ofs upage readBytes i).upage := by
  have hwrap : (PAGES + i) * PGSIZE = 2 ^ 32 + i * PGSIZE := by
    rw [Nat.add_mul]
    rfl
  have hzero : BitVec.ofNat 32 (2 ^ 32) = 0#32 := by decide
  simp only [segmentPage, pageAddr, hwrap, BitVec.ofNat_add, hzero, BitVec.zero_add]

theorem upage_injective {i j : ℕ} (hi : i < PAGES) (hj : j < PAGES)
    (h : (segmentPage ofs upage readBytes i).upage = (segmentPage ofs upage readBytes j).upage) :
    i = j := by
  have hnat : i * PGSIZE % 2 ^ 32 = j * PGSIZE % 2 ^ 32 := by
    simpa [segmentPage, pageAddr] using congrArg BitVec.toNat ((BitVec.add_right_inj _).1 h)
  simp only [PAGES, PGSIZE] at *
  omega

theorem nodup_upages (h : n ≤ PAGES) :
    ((segmentPages ofs upage readBytes n).map SegmentPage.upage).Nodup := by
  rw [segmentPages, List.map_map]
  refine List.Nodup.map_on ?_ List.nodup_range
  intro i hi j hj hij
  exact upage_injective ((List.mem_range.1 hi).trans_le h) ((List.mem_range.1 hj).trans_le h) hij

/-- Such a segment has no more bytes of the file to read there. -/
theorem readBytes_pages (ofs upage : Word) (h : readBytes < 2 ^ 32) :
    (segmentPage ofs upage readBytes PAGES).readBytes = 0 := by
  have hrest : readBytes - PAGES * PGSIZE = 0 := Nat.sub_eq_zero_of_le h.le
  simp [segmentPage, hrest]

end Pages

/-! ## Mapping a page -/

section Maps

variable {S : Services}

/-- Byte `i` of the page. -/
def Services.pageByte (S : Services) (file : FilePtr) (pg : SegmentPage) (i : ℕ) : Byte :=
  ((S.stored file pg.ofs pg.readBytes)[i]?).getD 0

/-- The file has all the bytes that the page takes from it. -/
def Services.Full (S : Services) (file : FilePtr) (pg : SegmentPage) : Prop :=
  (S.stored file pg.ofs pg.readBytes).length = pg.readBytes

instance instDecidableFull (file : FilePtr) (pg : SegmentPage) : Decidable (S.Full file pg) :=
  inferInstanceAs (Decidable (_ = _))

/-- The page is now mapped to a fresh frame with its bytes, and nothing else has changed. -/
def Maps (file : FilePtr) (writable : Bool) (pg : SegmentPage) (m m' : Space S) : Prop :=
  ∃ k, k ∉ m.used ∧ m'.used = insert k m.used ∧
    m'.pagedir = update m.pagedir pg.upage (some (k, writable)) ∧
    (∀ i < PGSIZE, m'.bytes k i = S.pageByte file pg i) ∧
    ∀ k' ≠ k, m'.bytes k' = m.bytes k'

/-- No page has been mapped. -/
def KeepsPages (m m' : Space S) : Prop :=
  m'.used = m.used ∧ m'.pagedir = m.pagedir ∧ ∀ k ∈ m.used, m'.bytes k = m.bytes k

/-- The page is mapped to a frame with its bytes. -/
def Holds (file : FilePtr) (writable : Bool) (pg : SegmentPage) (m : Space S) : Prop :=
  ∃ k ∈ m.used, m.pagedir pg.upage = some (k, writable) ∧
    ∀ i < PGSIZE, m.bytes k i = S.pageByte file pg i

/-- Both spaces map the page with the same flag and to frames with the same bytes. -/
def SameMapping (u : Word) (m m' : Space S) : Prop :=
  ∃ k k' w, m.pagedir u = some (k, w) ∧ m'.pagedir u = some (k', w) ∧
    ∀ i < PGSIZE, m.bytes k i = m'.bytes k' i

variable {file : FilePtr} {writable : Bool} {pg pg' : SegmentPage} {m m' : Space S}

theorem Maps.holds (h : Maps file writable pg m m') : Holds file writable pg m' := by
  rcases h with ⟨k, -, hused, hdir, hbytes, -⟩
  refine ⟨k, ?_, ?_, hbytes⟩
  · rw [hused]
    exact Finset.mem_insert_self k m.used
  · rw [hdir, update_self]

theorem Maps.card (h : Maps file writable pg m m') : m'.used.card = m.used.card + 1 := by
  rcases h with ⟨k, hk, hused, -⟩
  rw [hused, Finset.card_insert_of_notMem hk]

theorem Maps.pagedir_of_ne (h : Maps file writable pg m m') {u : Word} (hu : u ≠ pg.upage) :
    m'.pagedir u = m.pagedir u := by
  rcases h with ⟨k, -, -, hdir, -⟩
  rw [hdir, update_of_ne hu]

theorem Maps.pagedir_ne_none (h : Maps file writable pg m m') : m'.pagedir pg.upage ≠ none := by
  rcases h with ⟨k, -, -, hdir, -⟩
  simp [hdir]

/-- Mapping another page does not disturb the page. -/
theorem Holds.maps (hh : Holds file writable pg m) (h : Maps file writable pg' m m')
    (hne : pg.upage ≠ pg'.upage) : Holds file writable pg m' := by
  rcases hh with ⟨k, hk, hdir, hbytes⟩
  have hdir' : m'.pagedir pg.upage = some (k, writable) := by rw [h.pagedir_of_ne hne, hdir]
  rcases h with ⟨k', hk', hused, -, -, hother⟩
  have hkk' : k ≠ k' := fun heq => hk' (heq ▸ hk)
  refine ⟨k, ?_, hdir', ?_⟩
  · rw [hused]
    exact Finset.mem_insert_of_mem hk
  · intro i hi
    rw [hother k hkk']
    exact hbytes i hi

theorem Holds.keeps (hh : Holds file writable pg m) (h : KeepsPages m m') :
    Holds file writable pg m' := by
  rcases hh with ⟨k, hk, hdir, hbytes⟩
  rcases h with ⟨hused, hdir', hkept⟩
  refine ⟨k, ?_, ?_, ?_⟩
  · rw [hused]
    exact hk
  · rw [hdir', hdir]
  · intro i hi
    rw [hkept k hk]
    exact hbytes i hi

theorem Holds.sameMapping (h : Holds file writable pg m) (h' : Holds file writable pg m') :
    SameMapping pg.upage m m' := by
  rcases h with ⟨k, -, hdir, hbytes⟩
  rcases h' with ⟨k', -, hdir', hbytes'⟩
  refine ⟨k, k', writable, hdir, hdir', ?_⟩
  intro i hi
  rw [hbytes i hi, hbytes' i hi]

end Maps

/-! ## Filling a frame -/

section Fill

variable {S : Services} {m : Space S} {file : FilePtr} {k : FramePtr} {pg : SegmentPage}

theorem fileRead_snd (m : Space S) (file : FilePtr) (k : FramePtr) (n : ℕ) :
    (m.fileRead file k n).2 = (S.stored file (S.pos m.files file) n).length := by
  simp only [Space.fileRead, S.read_bytes]

theorem fileRead_pos (m : Space S) (file : FilePtr) (k : FramePtr) (n : ℕ) :
    S.pos (m.fileRead file k n).1.files file =
      S.pos m.files file + BitVec.ofNat 32 (S.stored file (S.pos m.files file) n).length :=
  S.read_pos m.files file n

/-- Reading from the position of the page and zeroing the rest fills the frame with the page. -/
theorem fill_bytes (hpos : S.pos m.files file = pg.ofs) (hfull : S.Full file pg)
    (hsize : pg.readBytes + pg.zeroBytes = PGSIZE) {i : ℕ} (hi : i < PGSIZE) :
    ((m.fileRead file k pg.readBytes).1.memset k pg.readBytes pg.zeroBytes).bytes k i =
      S.pageByte file pg i := by
  have hstored : (S.fileRead m.files file pg.readBytes).2 = S.stored file pg.ofs pg.readBytes := by
    rw [S.read_bytes, hpos]
  have hlen : (S.stored file pg.ofs pg.readBytes).length = pg.readBytes := hfull
  simp only [Space.memset, Space.fileRead, update_self, hstored]
  by_cases hread : i < pg.readBytes
  · rw [storeBytes_lt hread, storeBytes_mem (Nat.zero_le i) (by omega)]
    rfl
  · -- past the bytes of the file both sides are zero
    have hpast : (S.stored file pg.ofs pg.readBytes)[i]? = none :=
      List.getElem?_eq_none (by omega)
    rw [storeBytes_mem (by omega) (by simpa using by omega), Services.pageByte, hpast]
    simp only [List.getElem?_replicate, Option.getD_none]
    split <;> rfl

/-- Nothing is written beyond the page. -/
theorem fill_beyond (hsize : pg.readBytes + pg.zeroBytes = PGSIZE) {i : ℕ} (hi : PGSIZE ≤ i) :
    ((m.fileRead file k pg.readBytes).1.memset k pg.readBytes pg.zeroBytes).bytes k i =
      m.bytes k i := by
  have hlen : (S.fileRead m.files file pg.readBytes).2.length ≤ pg.readBytes := by
    rw [S.read_bytes]
    exact S.stored_length _ _ _
  simp only [Space.memset, Space.fileRead, update_self]
  rw [storeBytes_ge (by simpa using by omega), storeBytes_ge (by omega)]

/-- Nor into another frame. -/
theorem fill_other {n r z : ℕ} {k' : FramePtr} (hk : k' ≠ k) :
    ((m.fileRead file k n).1.memset k r z).bytes k' = m.bytes k' := by
  simp [Space.memset, Space.fileRead, hk]

end Fill

end Userprog
end Pintos
