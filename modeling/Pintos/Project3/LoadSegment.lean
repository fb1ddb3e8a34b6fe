import Pintos.Userprog.Segment

/-!
# LoadSegment — the eager loader (`project3/userprog/process.c`)

Every page of the segment is read as soon as the segment is loaded, from the running position of the
file.  `loadSegment_shortRead` and `loadSegment_holds` say when the loader stops at a short read and
what it has mapped when it succeeds.
-/

namespace Pintos
namespace Project3

open Userprog Function

/-! ## The code -/

/-- What `load_segment` returns: `true`, or `false` from one of its three `return false`. -/
inductive LoadResult
  | success
  | noPage
  | shortRead
  | notInstalled
  deriving DecidableEq

section Code

variable {S : Services}

/-- The body of the loop, down to the `Advance`. -/
def loadPage (file : FilePtr) (writable : Bool) (upage : Word) (pageReadBytes pageZeroBytes : ℕ)
    (m : Space S) : Space S × LoadResult :=
  match m.pallocGetPage with
  | none => (m, .noPage)
  | some (kpage, m) =>
      let read := m.fileRead file kpage pageReadBytes
      if read.2 ≠ pageReadBytes then (read.1.pallocFreePage kpage, .shortRead)
      else
        let installed := (read.1.memset kpage pageReadBytes pageZeroBytes).installPage upage kpage
          writable
        if installed.2 then (installed.1, .success)
        else (installed.1.pallocFreePage kpage, .notInstalled)

/-- The loop; its first argument bounds the number of bytes that are left. -/
def loadSegmentLoop (file : FilePtr) (writable : Bool) :
    ℕ → Word → ℕ → ℕ → Space S → Space S × LoadResult
  | 0, _, _, _, m => (m, .success)
  | fuel + 1, upage, readBytes, zeroBytes, m =>
      if readBytes > 0 ∨ zeroBytes > 0 then
        let pageReadBytes := if readBytes < PGSIZE then readBytes else PGSIZE
        let pageZeroBytes := PGSIZE - pageReadBytes
        match loadPage file writable upage pageReadBytes pageZeroBytes m with
        | (m, .success) =>
            loadSegmentLoop file writable fuel (upage + BitVec.ofNat 32 PGSIZE)
              (readBytes - pageReadBytes) (zeroBytes - pageZeroBytes) m
        | r => r
      else (m, .success)

def loadSegment (file : FilePtr) (ofs upage : Word) (readBytes zeroBytes : ℕ) (writable : Bool)
    (m : Space S) : Except Fault (Space S × LoadResult) :=
  if (readBytes + zeroBytes) % PGSIZE = 0 ∧ pgOfs upage = 0 ∧ pgOfs ofs = 0 then
    .ok (loadSegmentLoop file writable (readBytes + zeroBytes) upage readBytes zeroBytes
      (m.fileSeek file ofs))
  else .error .assertion

end Code

/-! ## One page -/

section Page

variable {S : Services} {file : FilePtr} {pg : SegmentPage} {m : Space S}

/-- What one round of the loop does with a page of the segment when it gets its memory. -/
theorem loadPage_cases (writable : Bool) (hused : m.used.card < S.poolSize)
    (htable : ∀ dir u, S.pageTable dir u = true) (hpos : S.pos m.files file = pg.ofs)
    (hsize : pg.readBytes + pg.zeroBytes = PGSIZE) :
    ∃ m' r, loadPage file writable pg.upage pg.readBytes pg.zeroBytes m = (m', r) ∧
      (r = .success ∧ S.Full file pg ∧ m.pagedir pg.upage = none ∧
          Maps file writable pg m m' ∧
          S.pos m'.files file = pg.ofs + BitVec.ofNat 32 pg.readBytes ∨
        r = .shortRead ∧ ¬ S.Full file pg ∨
        r = .notInstalled ∧ S.Full file pg ∧ m.pagedir pg.upage ≠ none) := by
  obtain ⟨k, hk⟩ := Option.ne_none_iff_exists'.1 (S.palloc_some hused)
  -- the memory with the new page, and after the read and the `memset`
  let m₁ : Space S := { m with used := insert k m.used }
  let m₂ : Space S := (m₁.fileRead file k pg.readBytes).1.memset k pg.readBytes pg.zeroBytes
  have halloc : m.pallocGetPage = some (k, m₁) := pallocGetPage_of_some hk
  have hread : (m₁.fileRead file k pg.readBytes).2 =
      (S.stored file pg.ofs pg.readBytes).length := by
    rw [fileRead_snd, ← hpos]
  by_cases hfull : S.Full file pg
  · -- the file has all the bytes, and only `install_page` can fail
    have hn : (m₁.fileRead file k pg.readBytes).2 = pg.readBytes := hread.trans hfull
    by_cases hdir : m.pagedir pg.upage = none
    · have hinst : m₂.installPage pg.upage k writable =
          ({ m₂ with pagedir := update m₂.pagedir pg.upage (some (k, writable)) }, true) :=
        installPage_of_none (htable _ _) hdir
      have hmaps : Maps file writable pg m
          { m₂ with pagedir := update m₂.pagedir pg.upage (some (k, writable)) } :=
        ⟨k, S.palloc_fresh hk, rfl, rfl, fun i hi => fill_bytes hpos hfull hsize hi,
          fun k' hk' => fill_other hk'⟩
      have hnext : S.pos m₂.files file = pg.ofs + BitVec.ofNat 32 pg.readBytes := by
        have hlen : (S.stored file (S.pos m₁.files file) pg.readBytes).length = pg.readBytes := by
          rw [← fileRead_snd m₁ file k, hn]
        have hmoved := fileRead_pos m₁ file k pg.readBytes
        rw [hlen] at hmoved
        exact hmoved.trans (congrArg (· + _) hpos)
      refine ⟨{ m₂ with pagedir := update m₂.pagedir pg.upage (some (k, writable)) }, .success,
        ?_, Or.inl ⟨rfl, hfull, hdir, hmaps, hnext⟩⟩
      simp only [loadPage, halloc, hn, ne_eq, not_true_eq_false, if_false]
      rw [hinst]
      rfl
    · -- the address is mapped already
      have hinst : m₂.installPage pg.upage k writable = (m₂, false) :=
        installPage_of_ne_none hdir
      refine ⟨m₂.pallocFreePage k, .notInstalled, ?_, Or.inr (Or.inr ⟨rfl, hfull, hdir⟩)⟩
      simp only [loadPage, halloc, hn, ne_eq, not_true_eq_false, if_false]
      rw [hinst]
      rfl
  · -- the file ends in the page
    have hn : (m₁.fileRead file k pg.readBytes).2 ≠ pg.readBytes := fun heq =>
      hfull (hread.symm.trans heq)
    refine ⟨(m₁.fileRead file k pg.readBytes).1.pallocFreePage k, .shortRead, ?_,
      Or.inr (Or.inl ⟨rfl, hfull⟩)⟩
    simp only [loadPage, halloc, ne_eq, hn, not_false_eq_true, if_true]

end Page

/-! ## The whole segment -/

section Segment

variable {S : Services} {file : FilePtr} {writable : Bool}

/-- The loop as a walk over the list of pages. -/
def loadPages (file : FilePtr) (writable : Bool) :
    List SegmentPage → Space S → Space S × LoadResult
  | [], m => (m, .success)
  | pg :: rest, m =>
      match loadPage file writable pg.upage pg.readBytes pg.zeroBytes m with
      | (m, .success) => loadPages file writable rest m
      | r => r

theorem loadSegmentLoop_eq {n : ℕ} : ∀ {fuel readBytes zeroBytes : ℕ} {ofs upage : Word}
    {m : Space S}, readBytes + zeroBytes = n * PGSIZE → n ≤ fuel →
    loadSegmentLoop file writable fuel upage readBytes zeroBytes m =
      loadPages file writable (segmentPages ofs upage readBytes n) m := by
  induction n with
  | zero =>
      intro fuel readBytes zeroBytes ofs upage m hsum hfuel
      have hread : ¬ (readBytes > 0 ∨ zeroBytes > 0) := by omega
      cases fuel with
      | zero =>
          rfl
      | succ fuel =>
          simp only [loadSegmentLoop, if_neg hread]
          rfl
  | succ n ih =>
      intro fuel readBytes zeroBytes ofs upage m hsum hfuel
      obtain ⟨fuel, rfl⟩ : ∃ fuel', fuel = fuel' + 1 := ⟨fuel - 1, by omega⟩
      obtain ⟨hmore, hmin, hrest⟩ := segment_round hsum
      simp only [loadSegmentLoop, if_pos hmore, hmin, segmentPages_succ, loadPages,
        segmentPage_zero]
      rcases loadPage file writable upage (min PGSIZE readBytes)
        (PGSIZE - min PGSIZE readBytes) m with ⟨m', r⟩
      cases r with
      | success =>
          -- the round has taken one page off both counts
          exact ih hrest (by omega)
      | noPage | shortRead | notInstalled =>
          rfl

/-- The offset at which the walk over the pages goes on. -/
def Chained : Word → List SegmentPage → Prop
  | _, [] => True
  | ofs, pg :: rest => pg.ofs = ofs ∧ Chained (ofs + BitVec.ofNat 32 pg.readBytes) rest

theorem chained_segmentPages {n : ℕ} : ∀ {readBytes : ℕ} {ofs upage : Word},
    Chained ofs (segmentPages ofs upage readBytes n) := by
  induction n with
  | zero =>
      intro readBytes ofs upage
      trivial
  | succ n ih =>
      intro readBytes ofs upage
      rw [segmentPages_succ]
      refine ⟨by simp [segmentPage], ?_⟩
      have hread : (segmentPage ofs upage readBytes 0).readBytes = min PGSIZE readBytes := by
        simp [segmentPage]
      rw [hread]
      exact ih

/-- What the walk does with the pages `ps` of distinct addresses, followed by pages `rest` whose
first address is already mapped. -/
theorem loadPages_cases (file : FilePtr) (writable : Bool) {ps rest : List SegmentPage}
    (htable : ∀ dir u, S.pageTable dir u = true)
    (hsize : ∀ pg ∈ ps ++ rest, pg.readBytes + pg.zeroBytes = PGSIZE) :
    ∀ {ofs : Word} {m : Space S}, S.pos m.files file = ofs → Chained ofs (ps ++ rest) →
    m.used.card + (ps ++ rest).length ≤ S.poolSize → (ps.map SegmentPage.upage).Nodup →
    (∀ pg ∈ ps, m.pagedir pg.upage = none) →
    (∀ pg ∈ rest.head?, S.Full file pg ∧
      (m.pagedir pg.upage ≠ none ∨ pg.upage ∈ ps.map SegmentPage.upage)) →
    ((loadPages file writable (ps ++ rest) m).2 = .shortRead ↔ ∃ pg ∈ ps, ¬ S.Full file pg) ∧
      ((loadPages file writable (ps ++ rest) m).2 = .success →
        rest = [] ∧ (∀ pg ∈ ps, S.Full file pg) ∧
          (∀ pg ∈ ps, Holds file writable pg (loadPages file writable (ps ++ rest) m).1) ∧
          ∀ pg, Holds file writable pg m → pg.upage ∉ ps.map SegmentPage.upage →
            Holds file writable pg (loadPages file writable (ps ++ rest) m).1) := by
  induction ps with
  | nil =>
      intro ofs m hpos hchain hused hnodup hfree hrest
      cases rest with
      | nil =>
          simp [loadPages]
      | cons pg rest =>
          -- the walk stops at the first page that is already mapped
          obtain ⟨hfull, hdir | hmem⟩ := hrest pg rfl
          · have hlt : m.used.card < S.poolSize := by
              simp only [List.nil_append, List.length_cons] at hused
              omega
            obtain ⟨m', r, hload, hr⟩ := loadPage_cases writable hlt htable
              (hpos.trans hchain.1.symm) (hsize pg (by simp))
            rcases hr with ⟨-, -, hnone, -⟩ | ⟨-, hnot⟩ | ⟨rfl, -⟩
            · exact absurd hnone hdir
            · exact absurd hfull hnot
            · simp [loadPages, hload]
          · cases hmem
  | cons pg ps ih =>
      intro ofs m hpos hchain hused hnodup hfree hrest
      have hlt : m.used.card < S.poolSize := by
        simp only [List.cons_append, List.length_cons] at hused
        omega
      obtain ⟨hnotmem, hnodup'⟩ := List.nodup_cons.1 hnodup
      obtain ⟨m', r, hload, hr⟩ := loadPage_cases writable hlt htable
        (hpos.trans hchain.1.symm) (hsize pg (by simp))
      have hfirst : m.pagedir pg.upage = none := hfree pg List.mem_cons_self
      rcases hr with ⟨rfl, hfull, -, hmaps, hpos'⟩ | ⟨rfl, hnot⟩ | ⟨rfl, -, hdir⟩
      · -- the page is mapped, and the rest is the same walk from there
        have hgo : loadPages file writable (pg :: ps ++ rest) m =
            loadPages file writable (ps ++ rest) m' := by
          simp only [List.cons_append, loadPages, hload]
        have hkept : ∀ u, u ≠ pg.upage → m'.pagedir u = m.pagedir u := fun u hu =>
          hmaps.pagedir_of_ne hu
        have hchain' : Chained (ofs + BitVec.ofNat 32 pg.readBytes) (ps ++ rest) := hchain.2
        have hcard' : m'.used.card + (ps ++ rest).length ≤ S.poolSize := by
          rw [hmaps.card]
          simp only [List.cons_append, List.length_cons] at hused
          omega
        have hfree' : ∀ pg' ∈ ps, m'.pagedir pg'.upage = none := by
          intro pg' hpg'
          have hne : pg'.upage ≠ pg.upage := fun heq =>
            hnotmem (heq ▸ List.mem_map_of_mem hpg')
          rw [hkept _ hne]
          exact hfree pg' (List.mem_cons_of_mem _ hpg')
        have hrest' : ∀ pg' ∈ rest.head?, S.Full file pg' ∧
            (m'.pagedir pg'.upage ≠ none ∨ pg'.upage ∈ ps.map SegmentPage.upage) := by
          intro pg' hpg'
          obtain ⟨hfull', hdir | hmem⟩ := hrest pg' hpg'
          · refine ⟨hfull', Or.inl ?_⟩
            -- what was mapped before stays mapped
            by_cases heq : pg'.upage = pg.upage
            · rw [heq]
              exact hmaps.pagedir_ne_none
            · rwa [hkept _ heq]
          · rcases List.mem_cons.1 hmem with heq | hmem
            · exact ⟨hfull', Or.inl (heq ▸ hmaps.pagedir_ne_none)⟩
            · exact ⟨hfull', Or.inr hmem⟩
        obtain ⟨hshort, hsucc⟩ := ih (fun pg' hpg' => hsize pg' (by simp [hpg']))
          (hpos'.trans (by rw [hchain.1])) hchain' hcard' hnodup' hfree' hrest'
        rw [hgo]
        refine ⟨?_, ?_⟩
        · rw [hshort]
          simp [hfull]
        · intro hs
          obtain ⟨hnil, hall, hholds, hother⟩ := hsucc hs
          -- no later page has this address, so the page keeps its bytes
          have hpg : Holds file writable pg (loadPages file writable (ps ++ rest) m').1 :=
            hother pg hmaps.holds hnotmem
          refine ⟨hnil, ?_, ?_, ?_⟩
          · simpa [hfull] using hall
          · simpa [hpg] using hholds
          · intro pg' hpg' hne
            simp only [List.map_cons, List.mem_cons, not_or] at hne
            exact hother pg' (hpg'.maps hmaps hne.1) hne.2
      · -- a page that the file does not fill ends the walk
        have hgo : loadPages file writable (pg :: ps ++ rest) m = (m', .shortRead) := by
          simp only [List.cons_append, loadPages, hload]
        rw [hgo]
        simp [hnot]
      · exact absurd hfirst hdir

/-- The eager loader on a segment of `n` pages none of which is mapped. -/
theorem loadSegment_spec (file : FilePtr) (writable : Bool) {ofs upage : Word}
    {readBytes zeroBytes n : ℕ} {m : Space S}
    (hsum : readBytes + zeroBytes = n * PGSIZE) (hread : readBytes < 2 ^ 32)
    (hupage : pgOfs upage = 0) (hofs : pgOfs ofs = 0) (hused : m.used.card + n ≤ S.poolSize)
    (htable : ∀ dir u, S.pageTable dir u = true)
    (hfree : ∀ i < n, m.pagedir (segmentPage ofs upage readBytes i).upage = none) :
    ∃ m' r, loadSegment file ofs upage readBytes zeroBytes writable m = .ok (m', r) ∧
      (r = .shortRead ↔ ∃ i < min n PAGES, ¬ S.Full file (segmentPage ofs upage readBytes i)) ∧
      (r = .success → n ≤ PAGES ∧ ∀ i < n, S.Full file (segmentPage ofs upage readBytes i) ∧
        Holds file writable (segmentPage ofs upage readBytes i) m') := by
  -- the first `PAGES` pages have distinct addresses; beyond, they come again
  obtain ⟨a, b, hn, ha⟩ : ∃ a b, n = a + b ∧ a = min n PAGES :=
    ⟨min n PAGES, n - min n PAGES, by omega, rfl⟩
  have hok : loadSegment file ofs upage readBytes zeroBytes writable m =
      .ok (loadPages file writable (segmentPages ofs upage readBytes n) (m.fileSeek file ofs)) := by
    have hmod : (readBytes + zeroBytes) % PGSIZE = 0 := by
      rw [hsum]
      exact Nat.mul_mod_left n PGSIZE
    have hle : n ≤ readBytes + zeroBytes := by
      rw [hsum]
      exact Nat.le_mul_of_pos_right n (by decide)
    rw [loadSegment, if_pos ⟨hmod, hupage, hofs⟩, loadSegmentLoop_eq hsum hle]
  have hsplit : segmentPages ofs upage readBytes n = segmentPages ofs upage readBytes a ++
      (List.range b).map fun i => segmentPage ofs upage readBytes (a + i) := by
    rw [hn, segmentPages_add]
  have hsize : ∀ pg ∈ segmentPages ofs upage readBytes n, pg.readBytes + pg.zeroBytes = PGSIZE := by
    intro pg hpg
    obtain ⟨i, -, rfl⟩ := mem_segmentPages.1 hpg
    exact readBytes_add_zeroBytes
  have hfirst : ∀ pg ∈ segmentPages ofs upage readBytes a,
      (m.fileSeek file ofs).pagedir pg.upage = none := by
    intro pg hpg
    obtain ⟨i, hi, rfl⟩ := mem_segmentPages.1 hpg
    exact hfree i (by omega)
  -- only a segment longer than the address space has a page that is left over
  have hrest : ∀ pg ∈ ((List.range b).map fun i =>
      segmentPage ofs upage readBytes (a + i)).head?, S.Full file pg ∧
        ((m.fileSeek file ofs).pagedir pg.upage ≠ none ∨
          pg.upage ∈ (segmentPages ofs upage readBytes a).map SegmentPage.upage) := by
    intro pg hpg
    cases b with
    | zero =>
        simp at hpg
    | succ b =>
        have haP : a = PAGES := by omega
        have hhead : pg = segmentPage ofs upage readBytes PAGES := by
          simpa [List.range_succ_eq_map, haP, eq_comm] using hpg
        refine ⟨?_, Or.inr ?_⟩
        · -- nothing of the file is left for it
          have hzero := readBytes_pages ofs upage hread
          have hlen := S.stored_length file pg.ofs pg.readBytes
          rw [hhead, hzero] at hlen
          rw [hhead, Services.Full, hzero]
          exact Nat.le_zero.1 hlen
        · -- its address is that of the first page
          have hfirst := upage_add_pages ofs upage readBytes 0
          rw [Nat.add_zero] at hfirst
          rw [hhead, hfirst]
          exact List.mem_map_of_mem (mem_segmentPages.2 ⟨0, by simp [haP, PAGES], rfl⟩)
  have hchain : Chained ofs (segmentPages ofs upage readBytes n) := chained_segmentPages
  have hroom : (m.fileSeek file ofs).used.card + (segmentPages ofs upage readBytes n).length ≤
      S.poolSize := by
    rw [length_segmentPages]
    exact hused
  rw [hsplit] at hsize hchain hroom hok
  obtain ⟨hshort, hsucc⟩ := loadPages_cases file writable htable hsize (S.seek_pos _ _ _) hchain
    hroom (nodup_upages (by omega)) hfirst hrest
  refine ⟨_, _, hok, ?_, ?_⟩
  · rw [hshort, ha]
    simp [segmentPages]
  · intro hs
    obtain ⟨hnil, hfull, hholds, -⟩ := hsucc hs
    have hb : b = 0 := by simpa using hnil
    refine ⟨by omega, fun i hi => ?_⟩
    have hmem : segmentPage ofs upage readBytes i ∈ segmentPages ofs upage readBytes a :=
      mem_segmentPages.2 ⟨i, by omega, rfl⟩
    exact ⟨hfull _ hmem, hholds _ hmem⟩

end Segment

end Project3
end Pintos
