import Pintos.Project3.LoadSegment
import Pintos.Project4.Process

/-!
# DemandLoading — does lazy loading agree with eager loading?

`load_segment` of project 4 registers the pages that `load_segment` of project 3 reads.  Bringing
them in later, in any order, maps the same bytes, because every entry carries the offset that the
eager loader has reached at its page.
-/

namespace Pintos
namespace Project4

open Lib Userprog Function

/-! ## Registering the pages -/

section Register

variable {S : Services} {H : HashTable Ptr} {hashInt : Word → ℕ}

/-- The entry of a page of the segment. -/
def binEntry (file : FilePtr) (writable : Bool) (pg : SegmentPage) : VmEntry :=
  { type := VM_BIN, vaddr := pg.upage, writable := writable, isLoaded := false, file := file,
    offset := pg.ofs, readBytes := pg.readBytes, zeroBytes := pg.zeroBytes }

@[simp] theorem page_binEntry (file : FilePtr) (writable : Bool) (pg : SegmentPage) :
    (binEntry file writable pg).page = pg := rfl

/-- The loop as a walk over the list of pages. -/
def registerPages (hashInt : Word → ℕ) (file : FilePtr) (writable : Bool) :
    List SegmentPage → Machine S H → Except Fault (Machine S H)
  | [], m => .ok m
  | pg :: rest, m =>
      (registerPage hashInt file writable pg.ofs pg.upage pg.readBytes pg.zeroBytes m).bind
        (registerPages hashInt file writable rest)

theorem loadSegmentLoop_eq {file : FilePtr} {writable : Bool} {n : ℕ} :
    ∀ {fuel readBytes zeroBytes : ℕ} {ofs upage : Word} {m : Machine S H},
    readBytes + zeroBytes = n * PGSIZE → n ≤ fuel →
    loadSegmentLoop hashInt file writable fuel ofs upage readBytes zeroBytes m =
      registerPages hashInt file writable (segmentPages ofs upage readBytes n) m := by
  induction n with
  | zero =>
      intro fuel readBytes zeroBytes ofs upage m hsum hfuel
      have hread : ¬ (readBytes > 0 ∨ zeroBytes > 0) := by omega
      cases fuel with
      | zero =>
          rfl
      | succ fuel =>
          simp only [loadSegmentLoop, if_neg hread]
          rfl
  | succ n ih =>
      intro fuel readBytes zeroBytes ofs upage m hsum hfuel
      obtain ⟨fuel, rfl⟩ : ∃ fuel', fuel = fuel' + 1 := ⟨fuel - 1, by omega⟩
      obtain ⟨hmore, hmin, hrest⟩ := segment_round hsum
      simp only [loadSegmentLoop, if_pos hmore, hmin, segmentPages_succ, registerPages,
        segmentPage_zero]
      -- both go on from the machine that the first page leaves
      refine congrArg _ (funext fun m' => ?_)
      exact ih hrest (by omega)

/-- The table stands for the map `f`, and its entries come from `malloc`. -/
structure Machine.Registers (hashInt : Word → ℕ) (m : Machine S H) (f : PageMap) : Prop where
  represents : Represents hashInt ⟨m.mem, m.vm⟩ f
  heap : ∀ u p, f u = some p → p ∈ m.heap

/-- One round registers the page unless its address already has an entry. -/
theorem registerPage_spec {m : Machine S H} {f : PageMap} (h : m.Registers hashInt f)
    (hroom : m.heap.card < S.heapSize) (file : FilePtr) (writable : Bool) (pg : SegmentPage) :
    ∃ m' p, registerPage hashInt file writable pg.ofs pg.upage pg.readBytes pg.zeroBytes m =
        .ok m' ∧
      p ∉ m.heap ∧ m'.heap = insert p m.heap ∧ m'.space = m.space ∧
      m'.Registers hashInt (f.insert pg.upage p) ∧
      m'.mem.entry (.heap p) = binEntry file writable pg ∧
      ∀ q ≠ p, m'.mem.entry (.heap q) = m.mem.entry (.heap q) := by
  obtain ⟨p, hp⟩ := Option.ne_none_iff_exists'.1 (S.malloc_some hroom)
  have hfresh : p ∉ m.heap := S.malloc_fresh hp
  let mem' := m.mem.write (.heap p) (binEntry file writable pg)
  -- `malloc` hands out no block that is in the table
  have hnew : elemOf p ∉ H.elems m.vm := fun hmem =>
    hfresh (h.heap _ p ((h.represents.entry _ p).2 ⟨hmem, rfl⟩))
  have hwrite : Represents hashInt ⟨mem', m.vm⟩ f :=
    h.represents.write (e := binEntry file writable pg) fun hmem => absurd hmem hnew
  have hself : mem'.entry (.heap p) = binEntry file writable pg := write_entry_self _ _
  have hins : Represents hashInt ⟨mem', (insertVme H hashInt mem' m.vm p).1⟩
      (f.insert pg.upage p) := by
    have hins := hwrite.insert p
    rwa [show ((⟨mem', m.vm⟩ : VmState H).mem.entry (.heap p)).vaddr = pg.upage from
      congrArg VmEntry.vaddr hself] at hins
  refine ⟨⟨m.space, insert p m.heap, mem', (insertVme H hashInt mem' m.vm p).1⟩, p, ?_, hfresh,
    rfl, rfl, ⟨hins, ?_⟩, hself, ?_⟩
  · simp only [registerPage, hp]
    rfl
  · intro u q hq
    -- `insert_vme` does nothing when the address has an entry
    by_cases hold : f pg.upage = none
    · simp only [PageMap.insert, hold, if_true] at hq
      by_cases hu : u = pg.upage
      · rw [hu, update_self, Option.some.injEq] at hq
        exact hq ▸ Finset.mem_insert_self p m.heap
      · rw [update_of_ne hu] at hq
        exact Finset.mem_insert_of_mem (h.heap u q hq)
    · simp only [PageMap.insert, hold, if_false] at hq
      exact Finset.mem_insert_of_mem (h.heap u q hq)
  · intro q hq
    exact write_entry_of_ne (by simpa using hq) _

/-- The loop keeps the entries that there are, and registers the first page of every address. -/
theorem registerPages_spec (file : FilePtr) (writable : Bool) {ps : List SegmentPage} :
    ∀ {m : Machine S H} {f : PageMap}, m.Registers hashInt f →
    m.heap.card + ps.length ≤ S.heapSize →
    ∃ m' f', registerPages hashInt file writable ps m = .ok m' ∧ m'.Registers hashInt f' ∧
      m'.space = m.space ∧
      (∀ u p, f u = some p →
        f' u = some p ∧ m'.mem.entry (.heap p) = m.mem.entry (.heap p)) ∧
      ∀ u pg, f u = none → ps.find? (fun pg => pg.upage = u) = some pg →
        ∃ p, f' u = some p ∧ m'.mem.entry (.heap p) = binEntry file writable pg := by
  induction ps with
  | nil =>
      intro m f h hroom
      refine ⟨m, f, rfl, h, rfl, fun u p hp => ⟨hp, rfl⟩, ?_⟩
      intro u pg _ hfind
      cases hfind
  | cons pg ps ih =>
      intro m f h hroom
      rw [List.length_cons] at hroom
      obtain ⟨m₁, p, hreg, hfresh, hheap, hspace, h₁, hself, hother⟩ :=
        registerPage_spec h (by omega) file writable pg
      have hroom₁ : m₁.heap.card + ps.length ≤ S.heapSize := by
        rw [hheap, Finset.card_insert_of_notMem hfresh]
        omega
      obtain ⟨m', f', hgo, h', hspace', hkept, hfirst⟩ := ih h₁ hroom₁
      -- registering a page keeps every entry that there is
      have hinsert : ∀ u q, f u = some q → f.insert pg.upage p u = some q := by
        intro u q hq
        unfold PageMap.insert
        split
        · next hnone =>
            rw [update_of_ne, hq]
            rintro rfl
            rw [hq] at hnone
            cases hnone
        · exact hq
      refine ⟨m', f', ?_, h', hspace'.trans hspace, ?_, ?_⟩
      · simp only [registerPages, hreg, Except.bind, hgo]
      · intro u q hq
        obtain ⟨hq', hentry⟩ := hkept u q (hinsert u q hq)
        have hne : q ≠ p := fun heq => hfresh (heq ▸ h.heap u q hq)
        exact ⟨hq', hentry.trans (hother q hne)⟩
      · intro u pg' hnone hfind
        by_cases hu : pg.upage = u
        · -- the page itself comes first
          have hpg : pg' = pg := by simpa [hu, eq_comm] using hfind
          have hin : f.insert pg.upage p u = some p := by
            simp [PageMap.insert, hu, hnone]
          obtain ⟨hq, hentry⟩ := hkept u p hin
          exact ⟨p, hq, by rw [hentry, hself, hpg]⟩
        · -- the address is still without an entry
          have hnone' : f.insert pg.upage p u = none := by
            unfold PageMap.insert
            split
            · rw [update_of_ne (Ne.symm hu), hnone]
            · exact hnone
          have hrest : ps.find? (fun pg => pg.upage = u) = some pg' := by simpa [hu] using hfind
          exact hfirst u pg' hnone' hrest

end Register

/-! ## Touching the pages -/

section Faults

variable {S : Services} {H : HashTable Ptr}

/-- Call `handle_mm_fault` on the entries one after the other. -/
def faultAll : List VmePtr → Machine S H → Machine S H × List Bool
  | [], m => (m, [])
  | p :: ps, m =>
      let r := handleMmFault m p
      let rs := faultAll ps r.1
      (rs.1, r.2 :: rs.2)

/-- `handle_mm_fault` has brought in the page `pg`, the entry of which is `p`, if the file has it in
full, and has left the other pages and entries alone. -/
structure Touched (file : FilePtr) (writable : Bool) (p : VmePtr) (pg : SegmentPage)
    (m : Machine S H) (r : Machine S H × Bool) : Prop where
  result : r.2 = decide (S.Full file pg)
  holds : S.Full file pg → Holds file writable pg r.1.space
  kept : ∀ pg', pg'.upage ≠ pg.upage → Holds file writable pg' m.space →
    Holds file writable pg' r.1.space
  entry : ∀ q, q ≠ p → r.1.mem.entry (.heap q) = m.mem.entry (.heap q)
  room : r.1.space.used.card ≤ m.space.used.card + 1
  pagedir : ∀ u, u ≠ pg.upage → r.1.space.pagedir u = m.space.pagedir u

theorem handleMmFault_touched {file : FilePtr} {writable : Bool} {m : Machine S H} {p : VmePtr}
    {pg : SegmentPage} (hp : m.mem.entry (.heap p) = binEntry file writable pg)
    (hsize : pg.readBytes + pg.zeroBytes = PGSIZE) (hused : m.space.used.card < S.poolSize)
    (htable : ∀ dir u, S.pageTable dir u = true) (hfree : m.space.pagedir pg.upage = none) :
    Touched file writable p pg m (handleMmFault m p) := by
  obtain ⟨sp, hcases⟩ := handleMmFault_cases (m := m) (p := p) (by rw [hp]; rfl)
    (by rw [hp]; exact hsize) hused htable (by rw [hp]; exact hfree)
  rw [hp] at hcases
  rcases hcases with ⟨hfull, hmaps, hres⟩ | ⟨hfull, hkeeps, hres⟩
  · -- the page has been mapped
    have hfull : S.Full file pg := hfull
    have hmaps : Maps file writable pg m.space sp := hmaps
    rw [hres]
    refine ⟨(decide_eq_true hfull).symm, fun _ => hmaps.holds, ?_, ?_, hmaps.card.le, ?_⟩
    · exact fun pg' hne hold => hold.maps hmaps hne
    · exact fun q hq => write_entry_of_ne (by simpa using hq) _
    · exact fun u hu => hmaps.pagedir_of_ne hu
  · -- `load_file` has failed, and only the file position has moved
    have hfull : ¬ S.Full file pg := hfull
    rw [hres]
    refine ⟨(decide_eq_false hfull).symm, fun h => absurd h hfull, ?_, fun _ _ => rfl, ?_, ?_⟩
    · exact fun pg' _ hold => hold.keeps hkeeps
    · exact (congrArg Finset.card hkeeps.1).le.trans (Nat.le_succ _)
    · exact fun u _ => congrFun hkeeps.2.1 u

/-- Each entry of `load_segment` is brought in exactly when the file has its bytes, whatever the
order. -/
theorem faultAll_spec {file : FilePtr} {writable : Bool} (htable : ∀ dir u, S.pageTable dir u = true)
    {ps : List VmePtr} : ∀ {m : Machine S H} {page : VmePtr → SegmentPage},
    (∀ p ∈ ps, m.mem.entry (.heap p) = binEntry file writable (page p)) →
    (∀ p ∈ ps, (page p).readBytes + (page p).zeroBytes = PGSIZE) →
    (ps.map fun p => (page p).upage).Nodup → m.space.used.card + ps.length ≤ S.poolSize →
    (∀ p ∈ ps, m.space.pagedir (page p).upage = none) →
    (faultAll ps m).2 = ps.map (fun p => decide (S.Full file (page p))) ∧
      (∀ p ∈ ps, S.Full file (page p) →
        Holds file writable (page p) (faultAll ps m).1.space) ∧
      ∀ pg, pg.upage ∉ ps.map (fun p => (page p).upage) → Holds file writable pg m.space →
        Holds file writable pg (faultAll ps m).1.space := by
  induction ps with
  | nil =>
      intro m page _ _ _ _ _
      simp [faultAll]
  | cons p ps ih =>
      intro m page hentry hsize hnodup hroom hfree
      obtain ⟨hnotmem, hnodup'⟩ := List.nodup_cons.1 hnodup
      rw [List.length_cons] at hroom
      have hne : ∀ q ∈ ps, q ≠ p := by
        intro q hq heq
        exact hnotmem (heq ▸ List.mem_map_of_mem hq)
      have huq : ∀ q ∈ ps, (page q).upage ≠ (page p).upage := by
        intro q hq heq
        have hmem : (page q).upage ∈ ps.map fun p => (page p).upage := List.mem_map_of_mem hq
        rw [heq] at hmem
        exact hnotmem hmem
      have htouched := handleMmFault_touched (hentry p List.mem_cons_self)
        (hsize p List.mem_cons_self) (by omega) htable (hfree p List.mem_cons_self)
      -- the rest of the list finds its entries as they were, and its pages not mapped
      have hentry' : ∀ q ∈ ps, (handleMmFault m p).1.mem.entry (.heap q) =
          binEntry file writable (page q) := by
        intro q hq
        rw [htouched.entry q (hne q hq)]
        exact hentry q (List.mem_cons_of_mem p hq)
      have hfree' : ∀ q ∈ ps, (handleMmFault m p).1.space.pagedir (page q).upage = none := by
        intro q hq
        rw [htouched.pagedir _ (huq q hq)]
        exact hfree q (List.mem_cons_of_mem p hq)
      have hroom' : (handleMmFault m p).1.space.used.card + ps.length ≤ S.poolSize := by
        have hcard := htouched.room
        omega
      obtain ⟨hrs, hholds, hkept⟩ := ih hentry'
        (fun q hq => hsize q (List.mem_cons_of_mem p hq)) hnodup' hroom' hfree'
      refine ⟨?_, ?_, ?_⟩
      · simp only [faultAll, hrs, htouched.result, List.map_cons]
      · intro q hq hfull
        rcases List.mem_cons.1 hq with rfl | hq
        · exact hkept (page q) hnotmem (htouched.holds hfull)
        · exact hholds q hq hfull
      · intro pg hpg hold
        simp only [List.map_cons, List.mem_cons, not_or] at hpg
        exact hkept pg hpg.2 (htouched.kept pg hpg.1 hold)

end Faults

/-! ## The two loaders -/

section Agreement

variable {S : Services} {H : HashTable Ptr} {hashInt : Word → ℕ}

def Machine.WellFormed (hashInt : Word → ℕ) (m : Machine S H) : Prop :=
  ∃ f, m.Registers hashInt f

/-- `p` is the entry of the page `u` in the process's table. -/
def Machine.IsEntry (m : Machine S H) (u : Word) (p : VmePtr) : Prop :=
  elemOf p ∈ H.elems m.vm ∧ (m.mem.entry (.heap p)).vaddr = u

/-- `load_file` on the entry writes all the bytes of one page when it succeeds, and no byte outside
that page in any case. -/
def LoadsOnePage (S : Services) (e : VmEntry) : Prop :=
  e.readBytes + e.zeroBytes = PGSIZE ∧ ∀ (sp : Space S) (kaddr : FramePtr),
    ((loadFile sp kaddr e).2 = true →
      ∀ i < PGSIZE, (loadFile sp kaddr e).1.bytes kaddr i = S.pageByte e.file e.page i) ∧
    (∀ i, PGSIZE ≤ i → (loadFile sp kaddr e).1.bytes kaddr i = sp.bytes kaddr i) ∧
    ∀ k ≠ kaddr, (loadFile sp kaddr e).1.bytes k = sp.bytes k

theorem loadsOnePage {e : VmEntry} (hsize : e.readBytes + e.zeroBytes = PGSIZE) :
    LoadsOnePage S e := by
  refine ⟨hsize, fun sp kaddr => ⟨?_, ?_, ?_⟩⟩
  · intro htrue i hi
    exact loadFile_bytes (loadFile_snd.1 htrue) hsize hi
  · intro i hi
    exact loadFile_beyond hsize hi
  · intro k hk
    exact loadFile_other hk

/-- The lazy loader on `m`, followed by `handle_mm_fault` on the entries of the `n` pages in any
order, agrees with the eager loader on `sp`. -/
def AgreesWithEager (hashInt : Word → ℕ) (file : FilePtr) (ofs upage : Word)
    (readBytes zeroBytes : ℕ) (writable : Bool) (n : ℕ) (m : Machine S H) (sp : Space S) : Prop :=
  ∃ m' sp' r, loadSegment hashInt file ofs upage readBytes zeroBytes writable m = .ok (m', true) ∧
    Project3.loadSegment file ofs upage readBytes zeroBytes writable sp = .ok (sp', r) ∧
    (∀ i < n, ∃ p, m'.IsEntry (pageAddr upage i) p ∧
      LoadsOnePage S (m'.mem.entry (.heap p))) ∧
    ∀ ps : List VmePtr, ps.Nodup →
      (∀ p, p ∈ ps ↔ ∃ i < n, m'.IsEntry (pageAddr upage i) p) →
      (r = .success → (∀ b ∈ (faultAll ps m').2, b = true) ∧
        ∀ i < n, SameMapping (pageAddr upage i) (faultAll ps m').1.space sp') ∧
      (r = .shortRead ↔ false ∈ (faultAll ps m').2)

/-- The entry of a page is that of the first page of the segment with its address. -/
theorem find_segmentPages {ofs upage : Word} {readBytes n i : ℕ} (hi : i < min n PAGES) :
    (segmentPages ofs upage readBytes n).find? (fun pg => pg.upage = pageAddr upage i) =
      some (segmentPage ofs upage readBytes i) := by
  rw [segmentPages, List.find?_map, Option.map_eq_some_iff]
  refine ⟨i, ?_, rfl⟩
  rw [List.find?_range_eq_some]
  refine ⟨by simp [segmentPage], List.mem_range.2 (by omega), ?_⟩
  intro j hj
  simp only [Function.comp, Bool.not_eq_true']
  exact decide_eq_false fun heq => absurd (upage_injective (by omega) (by omega) heq) (by omega)

/-- Every page of the segment has the address of one of its first `PAGES` pages. -/
theorem exists_pageAddr (upage : Word) {n i : ℕ} (hn : n < 2 * PAGES) (hi : i < n) :
    ∃ j < min n PAGES, pageAddr upage j = pageAddr upage i := by
  by_cases hlt : i < PAGES
  · exact ⟨i, by omega, rfl⟩
  · obtain ⟨j, rfl⟩ : ∃ j, i = PAGES + j := ⟨i - PAGES, by omega⟩
    exact ⟨j, by omega, (upage_add_pages 0 upage 0 j).symm⟩

/-- The entries of the first `PAGES` pages of the segment are in the table. -/
def Machine.HasPages (m : Machine S H) (f : PageMap) (file : FilePtr) (writable : Bool)
    (ofs upage : Word) (readBytes n : ℕ) : Prop :=
  ∀ i < min n PAGES, ∃ p, f (pageAddr upage i) = some p ∧
    m.mem.entry (.heap p) = binEntry file writable (segmentPage ofs upage readBytes i)

/-- The lazy loader registers the first page of every address. -/
theorem loadSegment_registers (file : FilePtr) (writable : Bool) {ofs upage : Word}
    {readBytes zeroBytes n : ℕ} {m : Machine S H} {f : PageMap}
    (hsum : readBytes + zeroBytes = n * PGSIZE) (hupage : pgOfs upage = 0) (hofs : pgOfs ofs = 0)
    (hf : m.Registers hashInt f) (hentry : ∀ i < n, f (pageAddr upage i) = none)
    (hheap : m.heap.card + n ≤ S.heapSize) :
    ∃ m' f', loadSegment hashInt file ofs upage readBytes zeroBytes writable m = .ok (m', true) ∧
      m'.Registers hashInt f' ∧ m'.space = m.space.fileSeek file ofs ∧
      m'.HasPages f' file writable ofs upage readBytes n := by
  let m₀ : Machine S H := { m with space := m.space.fileSeek file ofs }
  have hf₀ : m₀.Registers hashInt f := ⟨hf.represents, hf.heap⟩
  have hroom : m₀.heap.card + (segmentPages ofs upage readBytes n).length ≤ S.heapSize := by
    rw [length_segmentPages]
    exact hheap
  obtain ⟨m', f', hreg, hf', hspace, -, hfirst⟩ := registerPages_spec file writable hf₀ hroom
  refine ⟨m', f', ?_, hf', hspace, ?_⟩
  · have hmod : (readBytes + zeroBytes) % PGSIZE = 0 := by
      rw [hsum]
      exact Nat.mul_mod_left n PGSIZE
    have hle : n ≤ readBytes + zeroBytes := by
      rw [hsum]
      exact Nat.le_mul_of_pos_right n (by decide)
    rw [loadSegment, if_pos ⟨hmod, hupage, hofs⟩, loadSegmentLoop_eq hsum hle, hreg]
    rfl
  · intro i hi
    exact hfirst _ _ (hentry i (by omega)) (find_segmentPages hi)

/-- The addresses of the pages of a list of entries, each of them in the table once. -/
theorem length_le_of_distinct {upage : Word} {n : ℕ} {ps : List VmePtr} {addr : VmePtr → Word}
    (hdistinct : (ps.map addr).Nodup) (haddr : ∀ p ∈ ps, ∃ i < n, addr p = pageAddr upage i) :
    ps.length ≤ n := by
  have hsub : ps.map addr ⊆ (List.range n).map (pageAddr upage) := by
    intro u hu
    obtain ⟨p, hp, rfl⟩ := List.mem_map.1 hu
    obtain ⟨i, hi, hpi⟩ := haddr p hp
    exact List.mem_map.2 ⟨i, List.mem_range.2 hi, hpi.symm⟩
  simpa using (hdistinct.subperm hsub).length_le

/-- `handle_mm_fault` on the entries of the segment, in any order, brings in exactly the pages that
the file has in full. -/
theorem faultAll_registered {file : FilePtr} {writable : Bool} {ofs upage : Word}
    {readBytes n : ℕ} {m : Machine S H} {f : PageMap} {ps : List VmePtr} (hn : n < 2 * PAGES)
    (hf : m.Registers hashInt f) (hpage : m.HasPages f file writable ofs upage readBytes n)
    (hfree : ∀ i < n, m.space.pagedir (pageAddr upage i) = none)
    (hpool : m.space.used.card + n ≤ S.poolSize) (htable : ∀ dir u, S.pageTable dir u = true)
    (hnodup : ps.Nodup) (hmem : ∀ p, p ∈ ps ↔ ∃ i < n, m.IsEntry (pageAddr upage i) p) :
    ((∃ i < min n PAGES, ¬ S.Full file (segmentPage ofs upage readBytes i)) ↔
        false ∈ (faultAll ps m).2) ∧
      ∀ i < min n PAGES, S.Full file (segmentPage ofs upage readBytes i) →
        Holds file writable (segmentPage ofs upage readBytes i) (faultAll ps m).1.space := by
  -- every entry in the list is that of one of the first pages
  have hindex : ∀ p ∈ ps, ∃ i < min n PAGES, f (pageAddr upage i) = some p ∧
      m.mem.entry (.heap p) = binEntry file writable (segmentPage ofs upage readBytes i) := by
    intro p hp
    obtain ⟨i, hi, hip⟩ := (hmem p).1 hp
    obtain ⟨j, hj, haddr⟩ := exists_pageAddr upage hn hi
    obtain ⟨q, hq, hentryq⟩ := hpage j hj
    have hfp : f (pageAddr upage j) = some p :=
      (hf.represents.entry _ p).2 ⟨hip.1, hip.2.trans haddr.symm⟩
    have hqp : q = p := Option.some_injective _ (hq.symm.trans hfp)
    exact ⟨j, hj, hfp, hqp ▸ hentryq⟩
  -- the page that an entry describes
  let page : VmePtr → SegmentPage := fun p => (m.mem.entry (.heap p)).page
  have hbin : ∀ p ∈ ps, m.mem.entry (.heap p) = binEntry file writable (page p) := by
    intro p hp
    obtain ⟨i, -, -, hentryp⟩ := hindex p hp
    simp only [page, hentryp, page_binEntry]
  have hfp : ∀ p ∈ ps, f (page p).upage = some p := by
    intro p hp
    obtain ⟨i, -, hfi, hentryp⟩ := hindex p hp
    simp only [page, hentryp, page_binEntry]
    exact hfi
  have hsize : ∀ p ∈ ps, (page p).readBytes + (page p).zeroBytes = PGSIZE := by
    intro p hp
    obtain ⟨i, -, -, hentryp⟩ := hindex p hp
    simp only [page, hentryp, page_binEntry]
    exact readBytes_add_zeroBytes
  have hdistinct : (ps.map fun p => (page p).upage).Nodup := by
    -- two entries of one address would be one entry
    refine hnodup.map_on fun p hp q hq hpq => ?_
    have hq' := hfp q hq
    rw [← hpq, hfp p hp] at hq'
    exact Option.some_injective _ hq'
  have haddr : ∀ p ∈ ps, ∃ i < n, (page p).upage = pageAddr upage i := by
    intro p hp
    obtain ⟨i, hi, -, hentryp⟩ := hindex p hp
    refine ⟨i, by omega, ?_⟩
    simp only [page, hentryp, page_binEntry]
    rfl
  have hunmapped : ∀ p ∈ ps, m.space.pagedir (page p).upage = none := by
    intro p hp
    obtain ⟨i, hi, hpi⟩ := haddr p hp
    rw [hpi]
    exact hfree i hi
  have hroom : m.space.used.card + ps.length ≤ S.poolSize :=
    (Nat.add_le_add_left (length_le_of_distinct hdistinct haddr) _).trans hpool
  obtain ⟨hrs, hholds, -⟩ := faultAll_spec htable hbin hsize hdistinct hroom hunmapped
  -- the pages touched are the first pages of the segment
  have hpages : ∀ pg, (∃ p ∈ ps, page p = pg) ↔
      ∃ i < min n PAGES, segmentPage ofs upage readBytes i = pg := by
    intro pg
    constructor
    · rintro ⟨p, hp, rfl⟩
      obtain ⟨i, hi, -, hentryp⟩ := hindex p hp
      exact ⟨i, hi, by simp only [page, hentryp, page_binEntry]⟩
    · rintro ⟨i, hi, rfl⟩
      obtain ⟨p, hp, hentryp⟩ := hpage i hi
      refine ⟨p, (hmem p).2 ⟨i, by omega, (hf.represents.entry _ p).1 hp⟩, ?_⟩
      simp only [page, hentryp, page_binEntry]
  refine ⟨?_, ?_⟩
  · rw [hrs]
    constructor
    · rintro ⟨i, hi, hnot⟩
      obtain ⟨p, hp, hpg⟩ := (hpages _).2 ⟨i, hi, rfl⟩
      exact List.mem_map.2 ⟨p, hp, decide_eq_false (hpg ▸ hnot)⟩
    · intro hfalse
      obtain ⟨p, hp, hdec⟩ := List.mem_map.1 hfalse
      obtain ⟨i, hi, hpg⟩ := (hpages _).1 ⟨p, hp, rfl⟩
      exact ⟨i, hi, hpg ▸ of_decide_eq_false hdec⟩
  · intro i hi hfull
    obtain ⟨p, hp, hpg⟩ := (hpages _).2 ⟨i, hi, rfl⟩
    have hpage := hholds p hp (hpg ▸ hfull)
    rwa [hpg] at hpage

/-- Lazy loading agrees with eager loading: `n` is the number of pages of the segment, the pages
have neither an entry nor a mapping yet, and there is room for `n` frames and `n` entries. -/
theorem lazy_agrees_with_eager {file : FilePtr} {ofs upage : Word} {readBytes zeroBytes : ℕ}
    {writable : Bool} {n : ℕ} {m : Machine S H} {sp : Space S}
    (hsum : readBytes + zeroBytes = n * PGSIZE) (hread : readBytes < 2 ^ 32)
    (hzero : zeroBytes < 2 ^ 32) (hupage : pgOfs upage = 0) (hofs : pgOfs ofs = 0)
    (hm : m.WellFormed hashInt) (hentry : ∀ i < n, ∀ p, ¬ m.IsEntry (pageAddr upage i) p)
    (hlazy : ∀ i < n, m.space.pagedir (pageAddr upage i) = none)
    (heager : ∀ i < n, sp.pagedir (pageAddr upage i) = none)
    (hheap : m.heap.card + n ≤ S.heapSize) (hpool : m.space.used.card + n ≤ S.poolSize)
    (hpool' : sp.used.card + n ≤ S.poolSize) (htable : ∀ dir u, S.pageTable dir u = true) :
    AgreesWithEager hashInt file ofs upage readBytes zeroBytes writable n m sp := by
  obtain ⟨f, hf⟩ := hm
  -- each of the two counts is below the size of the address space
  have hn : n < 2 * PAGES := by
    simp only [PAGES, PGSIZE] at hsum ⊢
    omega
  have hnone : ∀ i < n, f (pageAddr upage i) = none := by
    intro i hi
    rw [Option.eq_none_iff_forall_ne_some]
    intro p hp
    exact hentry i hi p ((hf.represents.entry _ p).1 hp)
  obtain ⟨sp', r, hsp', hshort, hsucc⟩ := Project3.loadSegment_spec file writable hsum
    hread hupage hofs hpool' htable heager
  obtain ⟨m', f', hm', hf', hspace, hpages⟩ := loadSegment_registers file writable hsum hupage
    hofs hf hnone hheap
  refine ⟨m', sp', r, hm', hsp', ?_, ?_⟩
  · intro i hi
    obtain ⟨j, hj, haddr⟩ := exists_pageAddr upage hn hi
    obtain ⟨p, hp, hentryp⟩ := hpages j hj
    refine ⟨p, haddr ▸ (hf'.represents.entry _ p).1 hp, ?_⟩
    rw [hentryp]
    exact loadsOnePage (@readBytes_add_zeroBytes ofs upage readBytes j)
  · intro ps hnodup hmem
    obtain ⟨hfalse, hholds⟩ := faultAll_registered hn hf' hpages (hspace ▸ hlazy)
      (hspace ▸ hpool) htable hnodup hmem
    refine ⟨?_, hshort.trans hfalse⟩
    intro hr
    obtain ⟨hnP, hall⟩ := hsucc hr
    -- the eager loader has met no short read, so no fault fails
    have hnotfalse : false ∉ (faultAll ps m').2 := by
      rw [← hfalse, ← hshort, hr]
      decide
    refine ⟨?_, ?_⟩
    · intro b hb
      cases b with
      | false =>
          exact absurd hb hnotfalse
      | true =>
          rfl
    · intro i hi
      obtain ⟨hfull, heagerPage⟩ := hall i hi
      exact (hholds i (by omega) hfull).sameMapping heagerPage

/-- A process that has loaded nothing has no entries. -/
theorem start_wellFormed (sp : Space S) (mem : Memory) :
    (Machine.start sp mem : Machine S H).WellFormed hashInt := by
  refine ⟨fun _ => none, Represents.start mem, ?_⟩
  intro u p hp
  cases hp

theorem start_isEntry (sp : Space S) (mem : Memory) (u : Word) (p : VmePtr) :
    ¬ (Machine.start sp mem : Machine S H).IsEntry u p := by
  intro h
  have hempty : H.elems (Machine.start sp mem : Machine S H).vm = ∅ := H.elems_init
  have hmem := h.1
  rw [hempty] at hmem
  cases hmem

end Agreement

/-! ### Two pages, the second partly filled from the file -/

/-- All files have 5000 bytes. -/
def shortFiles : Services := .ofContents (fun _ => List.replicate 5000 0x90) (fun _ => none) 16 16

def emptySpace : Space shortFiles := .start fun _ => 0

theorem lazy_agrees_with_eager_text :
    AgreesWithEager BitVec.toNat 0 0 0x08048000 5000 3192 true 2
      (.start emptySpace (strayMemory 0) : Machine shortFiles (buckets Ptr 4)) emptySpace :=
  lazy_agrees_with_eager (by decide) (by decide) (by decide) (by decide) (by decide)
    (start_wellFormed _ _) (fun _ _ => start_isEntry _ _ _) (fun _ _ => rfl) (fun _ _ => rfl)
    (by decide) (by decide) (by decide) (fun _ _ => rfl)

end Project4
end Pintos
