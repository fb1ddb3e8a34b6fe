import Pintos.Project4.UserMemory

/-!
# Isolation — does every process keep its memory?

The page tables of all processes are `PageTables` over one pool of frames.  A page that is not
mapped yet has an entry that backs it, and a fault of any kind either maps such a page on a free
frame or leaves the mapped pages alone.
-/

namespace Pintos
namespace Project4

open Lib Userprog Function

/-! ## Entries that are marked as loaded -/

section Entries

variable {H : HashTable Ptr} {hashInt : Word → ℕ} {mem mem' : Memory} {vm : H.Table} {g : PageMap}

/-- At most `is_loaded` differs. -/
def SameEntry (e e' : VmEntry) : Prop := e' = { e with isLoaded := e'.isLoaded }

theorem SameEntry.refl (e : VmEntry) : SameEntry e e := rfl

section Fields

variable {e e' : VmEntry}

theorem SameEntry.page (h : SameEntry e e') : e'.page = e.page := by
  unfold SameEntry at h
  rw [h]
  rfl

theorem SameEntry.vaddr (h : SameEntry e e') : e'.vaddr = e.vaddr :=
  congrArg SegmentPage.upage h.page

end Fields

theorem Represents.of_sameEntry (h : Represents hashInt ⟨mem, vm⟩ g)
    (hsame : ∀ r, elemOf r ∈ H.elems vm → SameEntry (mem.entry (.heap r)) (mem'.entry (.heap r))) :
    Represents hashInt ⟨mem', vm⟩ g := by
  have hvaddr : ∀ r, elemOf r ∈ H.elems vm →
      (mem'.entry (.heap r)).vaddr = (mem.entry (.heap r)).vaddr := fun r hr =>
    (hsame r hr).vaddr
  refine ⟨h.keyed.congr fun e he => ?_, h.elem, fun u r => ?_⟩
  · obtain ⟨r, rfl⟩ := h.elem e he
    rw [key_elemOf, key_elemOf]
    exact (hvaddr r he).symm
  · rw [h.entry u r]
    exact and_congr_right fun hr => by rw [hvaddr r hr]

end Entries

/-! ## `handle_mm_fault` without any assumption on the memory -/

section Handle

variable {S : Services} {H : HashTable Ptr} {m : Machine S H} {p : VmePtr}

/-- When an entry whose page is not mapped is one of the executable, `handle_mm_fault` maps it and
succeeds, or leaves the mapped pages alone and fails. -/
theorem handleMmFault_maps (hback : m.space.pagedir (m.mem.entry (.heap p)).vaddr = none →
      (m.mem.entry (.heap p)).type = VM_BIN ∧
        (m.mem.entry (.heap p)).readBytes + (m.mem.entry (.heap p)).zeroBytes = PGSIZE) :
    ∃ sp, (m.space.pagedir (m.mem.entry (.heap p)).vaddr = none ∧
          Maps (m.mem.entry (.heap p)).file (m.mem.entry (.heap p)).writable
            (m.mem.entry (.heap p)).page m.space sp ∧
          handleMmFault m p =
            ({ m with
                space := sp
                mem := m.mem.write (.heap p) { m.mem.entry (.heap p) with isLoaded := true } },
              true)) ∨
        KeepsPages m.space sp ∧ handleMmFault m p = ({ m with space := sp }, false) := by
  generalize he : m.mem.entry (.heap p) = e at *
  cases hk : S.palloc m.space.used with
  | none =>
      refine ⟨m.space, Or.inr ⟨⟨rfl, rfl, fun _ _ => rfl⟩, ?_⟩⟩
      simp only [handleMmFault, pallocGetPage_of_none hk]
  | some k =>
      have hfresh : k ∉ m.space.used := S.palloc_fresh hk
      let sp₁ : Space S := { m.space with used := insert k m.space.used }
      have halloc : m.space.pallocGetPage = some (k, sp₁) := pallocGetPage_of_some hk
      have hsw := loadType_switched sp₁ k e
      rcases hload : loadType sp₁ k e with ⟨sp₂, result⟩
      rw [hload] at hsw
      have hother : ∀ k' ∈ m.space.used, sp₂.bytes k' = m.space.bytes k' := fun k' hk' =>
        hsw.other k' fun heq => hfresh (heq ▸ hk')
      have hfreed : KeepsPages m.space (sp₂.pallocFreePage k) := by
        refine ⟨?_, hsw.pagedir, hother⟩
        show sp₂.used.erase k = m.space.used
        rw [hsw.used]
        exact Finset.erase_insert hfresh
      cases result with
      | none =>
          refine ⟨sp₂.pallocFreePage k, Or.inr ⟨hfreed, ?_⟩⟩
          simp only [handleMmFault, he, halloc, hload]
      | some success =>
          by_cases hinst : sp₂.pagedir e.vaddr = none ∧ S.pageTable sp₂.pagedir e.vaddr = true
          · have hfree : m.space.pagedir e.vaddr = none := by
              rw [← hinst.1]
              exact (congrFun hsw.pagedir _).symm
            obtain ⟨hbin, hsize⟩ := hback hfree
            have hfull : S.Full e.file e.page := by
              by_contra hnot
              exact absurd (hsw.gives_up.2 fun hloadable => hnot (hloadable (Or.inl hbin)))
                (by simp)
            have hsuccess : some success = some true := hsw.success.2 ⟨Or.inl hbin, hfull⟩
            have hcontents := hsw.contents hsuccess
            refine ⟨{ sp₂ with pagedir := update sp₂.pagedir e.vaddr (some (k, e.writable)) },
              Or.inl ⟨hfree, ⟨k, hfresh, hsw.used, ?_, fun i hi => ?_, hsw.other⟩, ?_⟩⟩
            · show update sp₂.pagedir e.vaddr _ = _
              rw [hsw.pagedir]
              rfl
            · exact hcontents i (by rwa [hsize])
            · have hgo : sp₂.installPage e.vaddr k e.writable =
                  ({ sp₂ with pagedir := update sp₂.pagedir e.vaddr (some (k, e.writable)) },
                    true) := if_pos hinst
              rw [Option.some.injEq] at hsuccess
              simp only [handleMmFault, he, halloc, hload, hgo, if_true, hsuccess]
          · have hgo : sp₂.installPage e.vaddr k e.writable = (sp₂, false) := if_neg hinst
            refine ⟨sp₂.pallocFreePage k, Or.inr ⟨hfreed, ?_⟩⟩
            simp only [handleMmFault, he, halloc, hload, hgo, Bool.false_eq_true, if_false]

end Handle

namespace UserMemory

/-! ## One process -/

section Process

variable {S : Services} {H : HashTable Ptr} {hashInt : Word → ℕ} {m m' : Machine S H} {f : Flat}

/-- The entry is one of the executable, and has the page as the process is to see it. -/
structure Backs (S : Services) (e : VmEntry) (f : Flat) : Prop where
  type : e.type = VM_BIN
  size : e.readBytes + e.zeroBytes = PGSIZE
  page : UserPage e.vaddr
  writable : f.writable e.vaddr = some e.writable
  bytes : ∀ i < PGSIZE, f.byte e.vaddr i = S.pageByte e.file e.page i

/-- While the process runs on the machine, every page that is not mapped is backed, and the pages
of the process are those of `f`. -/
structure Process (hashInt : Word → ℕ) (m : Machine S H) (f : Flat) : Prop where
  table : ∃ g, Represents hashInt ⟨m.mem, m.vm⟩ g
  heap : ∀ r, elemOf r ∈ H.elems m.vm → r ∈ m.heap
  absent : ∀ r, elemOf r ∈ H.elems m.vm →
    m.space.pagedir (m.mem.entry (.heap r)).vaddr = none → Backs S (m.mem.entry (.heap r)) f
  flags : ∀ {u k w}, m.space.pagedir u = some (k, w) → UserPage u ∧ f.writable u = some w
  present : ∀ u, f.writable u ≠ none → m.space.pagedir u ≠ none ∨
    ∃ r, elemOf r ∈ H.elems m.vm ∧ (m.mem.entry (.heap r)).vaddr = u

theorem Backs.of_sameEntry {e e' : VmEntry} (h : Backs S e f) (hsame : SameEntry e e') :
    Backs S e' f := by
  unfold SameEntry at hsame
  rw [hsame]
  exact ⟨h.type, h.size, h.page, h.writable, h.bytes⟩

/-- Nothing has happened to the table of the process. -/
structure SameTable (m m' : Machine S H) : Prop where
  vm : m'.vm = m.vm
  heap : ∀ r, elemOf r ∈ H.elems m.vm → r ∈ m.heap → r ∈ m'.heap
  entry : ∀ r, elemOf r ∈ H.elems m.vm →
    SameEntry (m.mem.entry (.heap r)) (m'.mem.entry (.heap r))

/-- The process has more pages, as it is to see them, or the same. -/
theorem Process.grows (h : Process hashInt m f) (hsame : SameTable m m')
    (hkept : ∀ u, m.space.pagedir u ≠ none → m'.space.pagedir u = m.space.pagedir u)
    (hnew : ∀ {u k w}, m.space.pagedir u = none → m'.space.pagedir u = some (k, w) →
      UserPage u ∧ f.writable u = some w) : Process hashInt m' f := by
  have hdir : ∀ u, m'.space.pagedir u = none → m.space.pagedir u = none := by
    intro u hu
    by_contra hne
    exact hne ((hkept u hne).symm.trans hu)
  obtain ⟨g, hg⟩ := h.table
  refine ⟨⟨g, ?_⟩, fun r hr => ?_, fun r hr hnone => ?_, fun {u k w} hu => ?_, fun u hu => ?_⟩
  · rw [hsame.vm]
    exact hg.of_sameEntry hsame.entry
  · rw [hsame.vm] at hr
    exact hsame.heap r hr (h.heap r hr)
  · rw [hsame.vm] at hr
    rw [(hsame.entry r hr).vaddr] at hnone
    exact (h.absent r hr (hdir _ hnone)).of_sameEntry (hsame.entry r hr)
  · by_cases hold : m.space.pagedir u = none
    · exact hnew hold hu
    · exact h.flags ((hkept u hold).symm.trans hu)
  · rcases h.present u hu with hold | ⟨r, hr, haddr⟩
    · exact Or.inl ((hkept u hold).symm ▸ hold)
    · exact Or.inr ⟨r, hsame.vm ▸ hr, (hsame.entry r hr).vaddr.trans haddr⟩

/-! ## A fault -/

/-- What `page_fault` does for the process. -/
structure FaultDone (m : Machine S H) (f : Flat) (r : Machine S H × FaultEnd) : Prop where
  vm : r.1.vm = m.vm
  heap : r.1.heap = m.heap
  entry : ∀ q, SameEntry (m.mem.entry (.heap q)) (r.1.mem.entry (.heap q))
  resumed : r.2 = .resumed → ∃ e, Backs S e f ∧ m.space.pagedir e.vaddr = none ∧
    Maps e.file e.writable e.page m.space r.1.space
  exited : ∀ status, r.2 = .exited status → KeepsPages m.space r.1.space

theorem FaultDone.of_exit (status : ℤ) : FaultDone m f (m, .exited status) :=
  ⟨rfl, rfl, fun _ => .refl _, fun h => absurd h (by simp), fun _ _ => ⟨rfl, rfl, fun _ _ => rfl⟩⟩

theorem sameEntry_write (mem : Memory) (r q : VmePtr) :
    SameEntry (mem.entry (.heap q))
      ((mem.write (.heap r) { mem.entry (.heap r) with isLoaded := true }).entry (.heap q)) := by
  by_cases hq : q = r
  · subst hq
    rw [write_entry_self]
    rfl
  · rw [write_entry_of_ne (by simpa using hq)]
    rfl

theorem Process.pageFault (h : Process hashInt m f) (a errorCode : Word) :
    FaultDone m f (pageFault hashInt a errorCode m) := by
  obtain ⟨g, hg⟩ := h.table
  by_cases hpresent : errorCode &&& PF_P = 0
  · have hfind : findVme H hashInt m.mem m.vm a =
        (g m.mem.probeWord).map fun p => ⟨.heap p, 0⟩ := hg.findVme_eq a
    simp only [Project4.pageFault, hpresent, decide_true, if_true, hfind]
    cases hp : g m.mem.probeWord with
    | none =>
        simp only [Option.map_none]
        cases hk : S.palloc m.space.used with
        | none =>
            simp only [pallocGetPage_of_none hk]
            exact .of_exit (-1)
        | some k =>
            simp only [pallocGetPage_of_some hk]
            exact ⟨rfl, rfl, fun _ => .refl _, fun h => absurd h (by simp),
              fun _ h => absurd h (by simp)⟩
    | some r =>
        simp only [Option.map_some]
        obtain ⟨hr, -⟩ := (hg.entry _ r).1 hp
        obtain ⟨sp, ⟨hfree, hmaps, hgo⟩ | ⟨hkeeps, hgo⟩⟩ := handleMmFault_maps (m := m) (p := r)
          fun hnone => ⟨(h.absent r hr hnone).type, (h.absent r hr hnone).size⟩
        · simp only [hgo, if_true]
          exact ⟨rfl, rfl, sameEntry_write m.mem r, fun _ => ⟨_, h.absent r hr hfree, hfree, hmaps⟩,
            fun _ h => absurd h (by simp)⟩
        · simp only [hgo, Bool.false_eq_true, if_false]
          exact ⟨rfl, rfl, fun _ => .refl _, fun h => absurd h (by simp), fun _ _ => hkeeps⟩
  · simp only [Project4.pageFault, hpresent, decide_false, Bool.false_eq_true, if_false]
    exact .of_exit (-1)

/-- When `find_vme` looks at an entry of the executable that can be brought in, it is. -/
theorem pageFault_resumes {g : PageMap} (hg : Represents hashInt ⟨m.mem, m.vm⟩ g) {r : VmePtr}
    (hprobe : g m.mem.probeWord = some r) (hbin : (m.mem.entry (.heap r)).type = VM_BIN)
    (hfree : m.space.pagedir (m.mem.entry (.heap r)).vaddr = none)
    (hpool : S.palloc m.space.used ≠ none) (htable : ∀ dir u, S.pageTable dir u = true)
    (hfull : S.Full (m.mem.entry (.heap r)).file (m.mem.entry (.heap r)).page) {a : Word} :
    ∃ m', pageFault hashInt a 0 m = (m', .resumed) ∧ ∃ k,
      m'.space.pagedir = update m.space.pagedir (m.mem.entry (.heap r)).vaddr
        (some (k, (m.mem.entry (.heap r)).writable)) := by
  have hfind : findVme H hashInt m.mem m.vm a = some ⟨.heap r, 0⟩ := by
    rw [hg.findVme_eq a, hprobe]
    rfl
  have hcase := handleMmFaultLogged_case m r
  have hfst := handleMmFaultLogged_fst m r
  generalize handleMmFaultLogged m r = result at hcase hfst
  cases hcase with
  | noFrame hnone =>
      exact absurd hnone hpool
  | givenBack _ hnot _ _ =>
      exact absurd ⟨fun _ => hfull, hfree, htable _ _⟩ hnot
  | @mapped k sp success _ _ _ _ hdir hsuccess _ =>
      obtain rfl : success = true := hsuccess.2 (Or.inl hbin)
      refine ⟨{ m with
        space := sp
        mem := m.mem.write (.heap r) { m.mem.entry (.heap r) with isLoaded := true } }, ?_, k, hdir⟩
      have habsent : decide ((0 : Word) &&& PF_P = 0) = true := by decide
      simp only [Project4.pageFault, habsent, if_true, hfind, ← hfst]

end Process

/-! ## The page tables of all processes -/

section Tables

variable {S : Services} {H : HashTable Ptr} {σ : System S H} {p : Pid} {m : Machine S H}
  {vmDestroyFunc : H.Table → Finset VmePtr}

def System.tables (σ : System S H) : PageTables Pid Word FramePtr Byte :=
  ⟨σ.core.space.used, σ.core.space.bytes, σ.pagedir⟩

theorem put_extends {file : FilePtr} {w : Bool} {pg : SegmentPage}
    (hfree : σ.pagedir p pg.upage = none) (h : Maps file w pg (σ.view p).space m.space) :
    PageTables.Extends p σ.tables (σ.put p m).tables := by
  obtain ⟨k, hk, hused, hdir, -, hother⟩ := h
  exact .of_map hfree hk hused ((update_self ..).trans hdir) (fun q hq => update_of_ne hq _ _) hother

theorem put_keeps (h : KeepsPages (σ.view p).space m.space) :
    PageTables.Extends p σ.tables (σ.put p m).tables := by
  obtain ⟨hused, hdir, hbytes⟩ := h
  refine .of_keeps hused (fun q => ?_) hbytes
  by_cases hq : q = p
  · subst hq
    exact (update_self ..).trans hdir
  · exact update_of_ne hq _ _

theorem mem_userPages {u : Word} (h : UserPage u) : u ∈ userPages := by
  have hlt := h.user
  have haligned := pgOfs_eq_zero.1 h.aligned
  rw [BitVec.lt_def] at hlt
  rw [toNat_physBase] at hlt
  refine List.mem_map.2 ⟨u.toNat / PGSIZE, List.mem_range.2 ?_, ?_⟩
  · rw [toNat_physBase, PGSIZE]
    omega
  · rw [Nat.div_mul_cancel (Nat.dvd_of_mod_eq_zero haligned), BitVec.ofNat_toNat, BitVec.setWidth_eq]

theorem mem_pagedirDestroy {sp : Space S} (hpages : ∀ u, sp.pagedir u ≠ none → UserPage u)
    {k : FramePtr} : k ∈ (pagedirDestroy sp).used ↔
      k ∈ sp.used ∧ ∀ u w, sp.pagedir u ≠ some (k, w) := by
  rw [pagedirDestroy, Finset.mem_filter, List.all_eq_true]
  refine and_congr_right fun _ => ⟨fun hall u w hu => ?_, fun hnot u _ => ?_⟩
  · have hmem := mem_userPages (hpages u (by simp [hu]))
    simpa [hu] using hall u hmem
  · simp only [ne_eq, decide_eq_true_eq, Option.map_eq_some_iff, not_exists, not_and]
    rintro ⟨k', w⟩ hu rfl
    exact hnot u w hu

/-- The frames of a process go back to the pool when it exits. -/
theorem processExit_drops (hpages : ∀ u, σ.pagedir p u ≠ none → UserPage u) :
    PageTables.Drops p σ.tables (processExit vmDestroyFunc p σ).tables := by
  have hspace : ∀ u, (σ.view p).space.pagedir u ≠ none → UserPage u := hpages
  refine ⟨fun k => mem_pagedirDestroy hspace, fun _ _ => rfl, fun q hq => update_of_ne hq _ _,
    fun u => ?_⟩
  show update σ.pagedir p (fun _ => none) p u = none
  rw [update_self]

end Tables

/-! ## All processes -/

section Valid

variable {S : Services} {H : HashTable Ptr} {hashInt : Word → ℕ} {σ σ' : System S H} {φ φ' : FlatState}
  {vmDestroyFunc : H.Table → Finset VmePtr} {p q : Pid} {m : Machine S H} {f : Flat}

/-- The frames show the flat memories, every frame belongs to one page of one process, and every
entry to one process. -/
structure Valid (hashInt : Word → ℕ) (σ : System S H) (φ : FlatState) : Prop where
  disjoint : σ.tables.Disjoint
  tight : σ.tables.Tight
  shows : σ.tables.Shows PGSIZE (contents φ)
  dead : ∀ p, σ.alive p = false → φ p = none ∧ ∀ u, σ.pagedir p u = none
  process : ∀ p, σ.alive p = true → ∃ f, φ p = some f ∧ Process hashInt (σ.view p) f
  own : ∀ {p q r}, σ.alive p = true → σ.alive q = true → elemOf r ∈ H.elems (σ.vm p) →
    elemOf r ∈ H.elems (σ.vm q) → p = q

theorem Valid.start (files : S.Files) (mem : Memory) :
    Valid hashInt (System.start H files mem) fun _ => none := by
  refine ⟨⟨fun hu => ?_, fun hu => ?_⟩, fun k hk => ?_, fun p u k w hu => ?_, fun p _ => ⟨rfl, fun u => rfl⟩,
    fun p hp => ?_, fun hp => ?_⟩
  · cases hu
  · cases hu
  · cases hk
  · cases hu
  · cases hp
  · cases hp

theorem Valid.userPage (h : Valid hashInt σ φ) {u : Word} (hu : σ.pagedir p u ≠ none) :
    UserPage u := by
  obtain ⟨⟨k, w⟩, hu⟩ := Option.ne_none_iff_exists'.1 hu
  cases hp : σ.alive p with
  | false =>
      rw [(h.dead p hp).2 u] at hu
      cases hu
  | true =>
      obtain ⟨f, -, hf⟩ := h.process p hp
      exact (hf.flags hu).1

/-- `σ'` has the processes of `σ` other than `p` as they were. -/
structure Others (p : Pid) (σ σ' : System S H) : Prop where
  alive : ∀ q ≠ p, σ'.alive q = σ.alive q
  vm : ∀ q ≠ p, σ'.vm q = σ.vm q
  pagedir : ∀ q ≠ p, σ'.pagedir q = σ.pagedir q
  heap : ∀ q ≠ p, σ.alive q = true → ∀ r, elemOf r ∈ H.elems (σ.vm q) → r ∈ σ.core.heap →
    r ∈ σ'.core.heap
  entry : ∀ q ≠ p, σ.alive q = true → ∀ r, elemOf r ∈ H.elems (σ.vm q) →
    SameEntry (σ.core.mem.entry (.heap r)) (σ'.core.mem.entry (.heap r))

theorem Others.process (ho : Others p σ σ') (hq : q ≠ p) (halive : σ.alive q = true)
    (h : Process hashInt (σ.view q) f) : Process hashInt (σ'.view q) f := by
  refine h.grows ⟨ho.vm q hq, ho.heap q hq halive, ho.entry q hq halive⟩ (fun u _ => ?_)
    fun {u k w} hnone hsome => ?_
  · exact congrFun (ho.pagedir q hq) u
  · exact absurd (((congrFun (ho.pagedir q hq) u).symm.trans hsome).symm.trans hnone) (by simp)

/-! ### A process ends -/

/-- The process `p` has lost everything. -/
theorem Valid.ends (h : Valid hashInt σ φ) (ho : Others p σ σ') (hp : σ'.alive p = false)
    (hdrops : PageTables.Drops p σ.tables σ'.tables) (hφ : φ' = update φ p none) :
    Valid hashInt σ' φ' := by
  subst hφ
  refine ⟨h.disjoint.drops hdrops, h.tight.drops hdrops,
    h.shows.drops h.disjoint hdrops fun q hq => contents_update_ne hq, fun q hq => ?_, fun q hq => ?_,
    fun {q q' r} hq hq' hr hr' => ?_⟩
  · by_cases hqp : q = p
    · subst hqp
      exact ⟨update_self .., hdrops.gone⟩
    · obtain ⟨hnone, hdir⟩ := h.dead q ((ho.alive q hqp).symm.trans hq)
      exact ⟨(update_of_ne hqp ..).trans hnone, fun u => (congrFun (ho.pagedir q hqp) u).trans (hdir u)⟩
  · have hqp : q ≠ p := by
      rintro rfl
      rw [hp] at hq
      cases hq
    have halive := (ho.alive q hqp).symm.trans hq
    obtain ⟨f, hf, hproc⟩ := h.process q halive
    exact ⟨f, (update_of_ne hqp ..).trans hf, ho.process hqp halive hproc⟩
  · have hne : ∀ {q}, σ'.alive q = true → q ≠ p := by
      rintro q hq rfl
      rw [hp] at hq
      cases hq
    rw [ho.vm q (hne hq)] at hr
    rw [ho.vm q' (hne hq')] at hr'
    exact h.own ((ho.alive q (hne hq)).symm.trans hq) ((ho.alive q' (hne hq')).symm.trans hq') hr hr'

/-! ### A process goes on -/

/-- The process `p`, which runs or has just been loaded, has got pages. -/
theorem Valid.goes_on (h : Valid hashInt σ φ) (ho : Others p σ σ') (hp : σ'.alive p = true)
    (hext : PageTables.Extends p σ.tables σ'.tables) (hproc : Process hashInt (σ'.view p) f)
    (hold : ∀ u, σ.pagedir p u ≠ none → ∀ i < PGSIZE, f.byte u i = contents φ p u i)
    (hnew : ∀ {u k w}, σ.pagedir p u = none → σ'.pagedir p u = some (k, w) →
      ∀ i < PGSIZE, σ'.core.space.bytes k i = f.byte u i)
    (hown : ∀ q r, q ≠ p → σ.alive q = true → elemOf r ∈ H.elems (σ.vm q) →
      elemOf r ∉ H.elems (σ'.vm p)) : Valid hashInt σ' (update φ p (some f)) := by
  have hcontents : contents (update φ p (some f)) p = f.byte := contents_of_some (update_self ..)
  refine ⟨h.disjoint.extends hext, h.tight.extends hext,
    h.shows.extends h.disjoint hext (fun q v hv i hi => ?_) fun hnone hsome i hi => ?_,
    fun q hq => ?_, fun q hq => ?_, fun {q q' r} hq hq' hr hr' => ?_⟩
  · by_cases hqp : q = p
    · subst hqp
      rw [hcontents]
      exact hold v hv i hi
    · rw [contents_update_ne hqp]
  · rw [hcontents]
    exact hnew hnone hsome i hi
  · have hqp : q ≠ p := by
      rintro rfl
      rw [hp] at hq
      cases hq
    obtain ⟨hnone, hdir⟩ := h.dead q ((ho.alive q hqp).symm.trans hq)
    exact ⟨(update_of_ne hqp ..).trans hnone, fun u => (congrFun (ho.pagedir q hqp) u).trans (hdir u)⟩
  · by_cases hqp : q = p
    · subst hqp
      exact ⟨f, update_self .., hproc⟩
    · have halive := (ho.alive q hqp).symm.trans hq
      obtain ⟨f', hf', hproc'⟩ := h.process q halive
      exact ⟨f', (update_of_ne hqp ..).trans hf', ho.process hqp halive hproc'⟩
  · by_cases hqp : q = p
    · by_cases hqp' : q' = p
      · rw [hqp, hqp']
      · rw [ho.vm q' hqp'] at hr'
        rw [hqp] at hr
        exact absurd hr (hown q' r hqp' ((ho.alive q' hqp').symm.trans hq') hr')
    · rw [ho.vm q hqp] at hr
      have halive := (ho.alive q hqp).symm.trans hq
      by_cases hqp' : q' = p
      · rw [hqp'] at hr'
        exact absurd hr' (hown q r hqp halive hr)
      · rw [ho.vm q' hqp'] at hr'
        exact h.own halive ((ho.alive q' hqp').symm.trans hq') hr hr'

end Valid

/-! ## The steps -/

section Steps

variable {S : Services} {H : HashTable Ptr} {hashInt : Word → ℕ} {σ σ' : System S H} {φ : FlatState}
  {vmDestroyFunc : H.Table → Finset VmePtr} {kernelPresent : Word → Bool} {p : Pid} {m : Machine S H}
  {f : Flat} {e : Option MemEvent}

/-- `vm_destroy_func` is called for the elements of the table. -/
def FreesOwn (vmDestroyFunc : H.Table → Finset VmePtr) : Prop :=
  ∀ vm, ∀ r ∈ vmDestroyFunc vm, elemOf r ∈ H.elems vm

theorem Others.trans {σ'' : System S H} (h : Others p σ σ') (h' : Others p σ' σ'') :
    Others p σ σ'' := by
  refine ⟨fun q hq => (h'.alive q hq).trans (h.alive q hq), fun q hq => (h'.vm q hq).trans (h.vm q hq),
    fun q hq => (h'.pagedir q hq).trans (h.pagedir q hq), fun q hq ha r hr hmem => ?_,
    fun q hq ha r hr => ?_⟩
  · have ha' := (h.alive q hq).trans ha
    have hr' : elemOf r ∈ H.elems (σ'.vm q) := (h.vm q hq).symm ▸ hr
    exact h'.heap q hq ha' r hr' (h.heap q hq ha r hr hmem)
  · have ha' := (h.alive q hq).trans ha
    have hr' : elemOf r ∈ H.elems (σ'.vm q) := (h.vm q hq).symm ▸ hr
    have hfirst := h.entry q hq ha r hr
    have hsecond := h'.entry q hq ha' r hr'
    unfold SameEntry at hfirst hsecond ⊢
    rw [hsecond, hfirst]

theorem put_others (hheap : ∀ q ≠ p, σ.alive q = true → ∀ r, elemOf r ∈ H.elems (σ.vm q) →
      r ∈ σ.core.heap → r ∈ m.heap)
    (hentry : ∀ q ≠ p, σ.alive q = true → ∀ r, elemOf r ∈ H.elems (σ.vm q) →
      SameEntry (σ.core.mem.entry (.heap r)) (m.mem.entry (.heap r))) : Others p σ (σ.put p m) :=
  ⟨fun _ _ => rfl, fun _ hq => update_of_ne hq _ _, fun _ hq => update_of_ne hq _ _, hheap, hentry⟩

theorem processExit_others (hfrees : FreesOwn vmDestroyFunc)
    (hown : ∀ q r, q ≠ p → σ.alive q = true → elemOf r ∈ H.elems (σ.vm q) →
      elemOf r ∉ H.elems (σ.vm p)) : Others p σ (processExit vmDestroyFunc p σ) := by
  refine ⟨fun q hq => update_of_ne hq _ _, fun _ _ => rfl, fun q hq => update_of_ne hq _ _,
    fun q hq ha r hr hmem => ?_, fun _ _ _ _ _ => .refl _⟩
  refine Finset.mem_sdiff.2 ⟨hmem, fun hfreed => ?_⟩
  exact hown q r hq ha hr (hfrees _ r hfreed)

theorem pagedir_put (σ : System S H) (p : Pid) (m : Machine S H) :
    (σ.put p m).pagedir p = m.space.pagedir := update_self ..

theorem vm_put (σ : System S H) (p : Pid) (m : Machine S H) : (σ.put p m).vm p = m.vm :=
  update_self ..

@[simp] theorem view_put (σ : System S H) (p : Pid) (m : Machine S H) : (σ.put p m).view p = m := by
  simp [System.view, System.put]

theorem Valid.exit (h : Valid hashInt σ φ) (hfrees : FreesOwn vmDestroyFunc)
    (hp : σ.alive p = true) : Valid hashInt (processExit vmDestroyFunc p σ) (update φ p none) := by
  refine h.ends (processExit_others hfrees fun q r hq ha hr hr' => hq (h.own ha hp hr hr'))
    (update_self ..) (processExit_drops fun u hu => h.userPage hu) rfl

/-- A process that exits is one that runs. -/
theorem Valid.follows_stop (h : Valid hashInt σ φ) (hp : σ.alive p = true) :
    Follows flatStep φ (some (.stop p)) (update φ p none) := by
  obtain ⟨f, hf, -⟩ := h.process p hp
  show flatStep (.stop p) φ = _
  simp [flatStep, hf]

/-- A page that a fault has brought in is one that the process is to see. -/
theorem Backs.new_page {m' : Machine S H} {e : VmEntry} (hback : Backs S e f)
    (hmaps : Maps e.file e.writable e.page m.space m'.space) {u : Word} {k : FramePtr} {w : Bool}
    (hnone : m.space.pagedir u = none) (hsome : m'.space.pagedir u = some (k, w)) :
    UserPage u ∧ f.writable u = some w ∧ ∀ i < PGSIZE, m'.space.bytes k i = f.byte u i := by
  obtain ⟨k', -, -, hdir, hbytes, -⟩ := hmaps
  rw [hdir] at hsome
  by_cases hu : u = e.page.upage
  · rw [hu, update_self] at hsome
    cases hsome
    subst hu
    exact ⟨hback.page, hback.writable, fun i hi => (hbytes i hi).trans (hback.bytes i hi).symm⟩
  · rw [update_of_ne hu] at hsome
    exact absurd (hnone.symm.trans hsome) (by simp)

theorem FaultDone.others {r : Machine S H × FaultEnd} (h : FaultDone m f r)
    (hheap : m.heap = σ.core.heap) (hentry : m.mem.entry = σ.core.mem.entry) :
    Others p σ (σ.put p r.1) := by
  refine put_others (fun _ _ _ r _ hmem => ?_) fun _ _ _ r _ => ?_
  · rw [h.heap, hheap]
    exact hmem
  · rw [← hentry]
    exact h.entry r

theorem Valid.fault (h : Valid hashInt σ φ) (hfrees : FreesOwn vmDestroyFunc)
    (hp : σ.alive p = true) {a stray : Word} {present : Bool}
    (hgo : fault hashInt vmDestroyFunc p a present stray σ = some (σ', e)) :
    ∃ φ', Follows flatStep φ e φ' ∧ Valid hashInt σ' φ' := by
  obtain ⟨f, hf, hproc⟩ := h.process p hp
  let m : Machine S H := { σ.view p with mem := (σ.view p).mem.withStray stray }
  have hm : Process hashInt m f := hproc.grows ⟨rfl, fun _ _ => id, fun _ _ => .refl _⟩
    (fun _ _ => rfl) fun hnone hsome => absurd (hnone.symm.trans hsome) (by simp)
  have hdone := hm.pageFault a (if present then PF_P else 0)
  change afterFault vmDestroyFunc p (pageFault hashInt a (if present then PF_P else 0) m) σ = _ at hgo
  generalize pageFault hashInt a (if present then PF_P else 0) m = r at hdone hgo
  obtain ⟨m', ending⟩ := r
  have hother : Others p σ (σ.put p m') := hdone.others rfl rfl
  have hvm : (σ.put p m').vm p = σ.vm p := (update_self ..).trans hdone.vm
  cases ending with
  | resumed =>
      cases hgo
      obtain ⟨e, hback, hfree, hmaps⟩ := hdone.resumed rfl
      have hfree' : σ.pagedir p e.page.upage = none := hfree
      refine ⟨φ, rfl, ?_⟩
      have hsame : update φ p (some f) = φ := by rw [← hf, update_eq_self]
      rw [← hsame]
      refine h.goes_on hother hp (put_extends hfree' hmaps) ?_ (fun u _ i _ => ?_)
        (fun hnone hsome => ?_) fun q r hq ha hr hr' => ?_
      · rw [view_put]
        refine hm.grows ⟨hdone.vm, fun r _ hmem => by rw [hdone.heap]; exact hmem,
          fun r _ => hdone.entry r⟩ (fun u hu => ?_) fun hnone hsome => ?_
        · refine hmaps.pagedir_of_ne ?_
          rintro rfl
          exact hu hfree
        · obtain ⟨hpage, hw, -⟩ := hback.new_page hmaps hnone hsome
          exact ⟨hpage, hw⟩
      · rw [contents_of_some hf]
      · rw [pagedir_put] at hsome
        exact (hback.new_page hmaps hnone hsome).2.2
      · rw [hvm] at hr'
        exact hq (h.own ha hp hr hr')
  | exited status =>
      cases hgo
      have hkeeps : KeepsPages (σ.view p).space m'.space := hdone.exited status rfl
      have hpages : ∀ u, (σ.put p m').pagedir p u ≠ none → UserPage u := by
        refine fun u hu => h.userPage (p := p) fun hnone => hu ?_
        rw [pagedir_put]
        exact (congrFun hkeeps.2.1 u).trans hnone
      refine ⟨update φ p none, h.follows_stop hp, h.ends (hother.trans (processExit_others hfrees
        fun q r hq ha hr hr' => ?_)) (update_self ..)
        ((put_keeps hkeeps).drops (processExit_drops hpages)) rfl⟩
      rw [hvm] at hr'
      rw [hother.vm q hq] at hr
      exact hq (h.own ha hp hr hr')
  | nullDereference | wildDereference =>
      cases hgo

/-! ### Accesses that go through -/

/-- Only a page that is mapped is written. -/
theorem Process.write (h : Process hashInt m f) {sp : Space S} {u : Word} (i : ℕ) (b : Byte)
    (hu : m.space.pagedir u ≠ none) (hdir : sp.pagedir = m.space.pagedir) :
    Process hashInt { m with space := sp } (f.write u i b) := by
  obtain ⟨htable, hheap, habsent, hflags, hpresent⟩ := h
  refine ⟨htable, hheap, fun r hr hnone => ?_, fun {v k w} hv => ?_, fun v hv => ?_⟩
  · have hnone' : m.space.pagedir (m.mem.entry (.heap r)).vaddr = none := hdir ▸ hnone
    obtain ⟨htype, hsize, hpage, hw, hbytes⟩ := habsent r hr hnone'
    refine ⟨htype, hsize, hpage, hw, fun j hj => ?_⟩
    have hne : (m.mem.entry (.heap r)).vaddr ≠ u := fun heq => hu (heq ▸ hnone')
    simp only [Flat.write, update_of_ne hne]
    exact hbytes j hj
  · exact hflags (show m.space.pagedir v = some (k, w) from hdir ▸ hv)
  · have hsame : ({ m with space := sp } : Machine S H).space.pagedir = m.space.pagedir := hdir
    rw [hsame]
    exact hpresent v hv

theorem Valid.store (h : Valid hashInt σ φ) (hf : φ p = some f) {u : Word} {k : FramePtr} {w : Bool}
    (hu : σ.pagedir p u = some (k, w)) (i : ℕ) (b : Byte) :
    Valid hashInt (store k i b σ) (update φ p (some (f.write u i b))) := by
  have halive : σ.alive p = true := by
    by_contra hdead
    rw [(h.dead p (by simpa using hdead)).1] at hf
    cases hf
  refine ⟨h.disjoint.write k i b, h.tight.write k i b, ?_, fun q hq => ?_, fun q hq => ?_, h.own⟩
  · rw [contents_write hf]
    exact h.shows.write h.disjoint hu i b
  · have hne : q ≠ p := by
      rintro rfl
      exact absurd (halive.symm.trans hq) (by simp)
    obtain ⟨hnone, hdir⟩ := h.dead q hq
    exact ⟨(update_of_ne hne ..).trans hnone, hdir⟩
  · obtain ⟨f', hf', hproc⟩ := h.process q hq
    by_cases hqp : q = p
    · subst hqp
      rw [hf, Option.some.injEq] at hf'
      subst hf'
      exact ⟨_, update_self .., hproc.write i b
        (show (σ.view q).space.pagedir u ≠ none from fun hnone => by
          rw [show (σ.view q).space.pagedir u = σ.pagedir q u from rfl, hu] at hnone
          cases hnone) rfl⟩
    · exact ⟨f', (update_of_ne hqp ..).trans hf', hproc.grows ⟨rfl, fun _ _ => id, fun _ _ => .refl _⟩
        (fun _ _ => rfl) fun hnone hsome => absurd (hnone.symm.trans hsome) (by simp)⟩

theorem Valid.access (h : Valid hashInt σ φ) (hfrees : FreesOwn vmDestroyFunc)
    (hp : σ.alive p = true) {acc : AccessKind} {a stray : Word}
    (hgo : access hashInt vmDestroyFunc kernelPresent p acc a stray σ = some (σ', e)) :
    ∃ φ', Follows flatStep φ e φ' ∧ Valid hashInt σ' φ' := by
  unfold UserMemory.access at hgo
  split at hgo
  · split at hgo
    · exact h.fault hfrees hp hgo
    · next k w hu =>
        obtain ⟨f, hf, hproc⟩ := h.process p hp
        obtain ⟨-, hw⟩ := hproc.flags hu
        have hofs : (pgOfs a).toNat < PGSIZE := by
          rw [toNat_pgOfs]
          exact Nat.mod_lt _ (by decide)
        cases acc with
        | read =>
            cases hgo
            have hbyte := h.shows p (pgRoundDown a) k w hu _ hofs
            rw [contents_of_some hf] at hbyte
            refine ⟨φ, ?_, h⟩
            show flatStep (.read p a _) φ = some φ
            simp only [flatStep, hf, hw, Option.isSome_some]
            exact if_pos ⟨trivial, hbyte.symm⟩
        | write b =>
            dsimp only at hgo
            split at hgo
            · next hwritable =>
                cases hgo
                refine ⟨_, ?_, h.store hf hu _ b⟩
                show flatStep (.write p a b) φ = _
                rw [hwritable] at hw
                simp only [flatStep, hf, hw, if_true]
            · exact h.fault hfrees hp hgo
  · exact h.fault hfrees hp hgo

/-! ### Loading -/

/-- What the table holds for a page other than that of the stack. -/
theorem find_append_stack {es : List VmEntry} {e : VmEntry} (haddr : e.vaddr = stackPage) {u : Word}
    (hu : u ≠ stackPage) :
    enterAll VmEntry.vaddr (fun _ => none) (es ++ [e]) u = es.find? fun e => e.vaddr = u := by
  have hlast : [e].find? (fun e => e.vaddr = u) = none := by
    have hne : ¬ e.vaddr = u := fun heq => hu (heq.symm.trans haddr)
    simp [hne]
  rw [enterAll_apply, Option.none_or, List.find?_append, hlast, Option.or_none]

/-- An address in a page. -/
theorem page_of_offset {u : Word} (h : UserPage u) {i : ℕ} (hi : i < PGSIZE) :
    pgRoundDown (u + BitVec.ofNat 32 i) = u ∧ (pgOfs (u + BitVec.ofNat 32 i)).toNat = i := by
  have hlt := h.user
  have haligned := pgOfs_eq_zero.1 h.aligned
  rw [BitVec.lt_def, toNat_physBase] at hlt
  simp only [PGSIZE] at hi haligned
  have hsum : (u + BitVec.ofNat 32 i).toNat = u.toNat + i := toNat_offset (by omega)
  refine ⟨BitVec.eq_of_toNat_eq ?_, ?_⟩
  · rw [toNat_pgRoundDown, hsum, PGSIZE]
    omega
  · rw [toNat_pgOfs, hsum, PGSIZE]
    omega

theorem writable_stackPage {file : FilePtr} {fileName : CString} :
    (Flat.ofCommand S file fileName).writable stackPage = some true := by
  simp only [Flat.ofCommand, Flat.ofFile, if_true]

theorem writable_ofCommand {file : FilePtr} {fileName : CString} {u : Word} (hu : u ≠ stackPage) :
    (Flat.ofCommand S file fileName).writable u =
      ((fileEntries S file).find? fun e => e.vaddr = u).map VmEntry.writable := if_neg hu

/-- Only the stack has been mapped, with the arguments. -/
theorem started_mapped {file : FilePtr} {fileName : CString} {m m' : Machine S H} {r : Word × Word}
    (h : Started hashInt file fileName m m' r) {u : Word} {k : FramePtr} {w : Bool}
    (hu : m'.space.pagedir u = some (k, w)) : u = stackPage ∧ w = true ∧
      ∀ i < PGSIZE, m'.space.bytes k i = (Flat.ofCommand S file fileName).byte u i := by
  obtain ⟨k', -, -, hdir, -⟩ := h.frame
  obtain ⟨rfl, heq⟩ := eq_of_update_stackPage (hdir ▸ hu)
  cases heq
  refine ⟨rfl, rfl, fun i hi => ?_⟩
  simp only [Flat.ofCommand, update_self]
  obtain ⟨hpage, hofs⟩ := page_of_offset userPage_stackPage hi
  rw [← h.memory]
  simp only [userByte, hpage, hu, hofs]

theorem started_process {file : FilePtr} {fileName : CString} {m m' : Machine S H} {r : Word × Word}
    (h : Started hashInt file fileName m m' r) :
    Process hashInt m' (Flat.ofCommand S file fileName) := by
  have hmapped : ∀ {u k w}, m'.space.pagedir u = some (k, w) → u = stackPage ∧ w = true ∧ _ :=
    fun hu => started_mapped h hu
  obtain ⟨hexe, ⟨e, haddr, htype, henters⟩, ⟨k, -, -, hframe, -⟩, -, -⟩ := h
  obtain ⟨g, ⟨hrep, hheap⟩, hc⟩ := henters.stores
  have hdir : m'.space.pagedir stackPage ≠ none := by
    rw [hframe, update_self]
    exact Option.some_ne_none _
  have hpage : ∀ r, elemOf r ∈ H.elems m'.vm → g (m'.mem.entry (.heap r)).vaddr = some r :=
    fun r hr => (hrep.entry _ r).2 ⟨hr, rfl⟩
  refine ⟨⟨g, hrep⟩, fun r hr => hheap _ r (hpage r hr), fun r hr hnone => ?_,
    fun {u k w} hu => ?_, fun u hu => ?_⟩
  · have hne : (m'.mem.entry (.heap r)).vaddr ≠ stackPage := fun heq => hdir (heq ▸ hnone)
    have hin := hc (m'.mem.entry (.heap r)).vaddr
    rw [hpage r hr, Option.map_some, find_append_stack haddr hne] at hin
    obtain ⟨hpage, htype, hfile, hsize⟩ := fileEntries_page hexe (List.mem_of_find?_eq_some hin)
    refine ⟨htype, hsize, hpage, ?_, fun i _ => ?_⟩
    · rw [writable_ofCommand hne, hin, Option.map_some]
    · simp only [Flat.ofCommand, update_of_ne hne, Flat.ofFile, if_neg hne, hin, hfile]
  · obtain ⟨rfl, rfl, -⟩ := hmapped hu
    exact ⟨userPage_stackPage, writable_stackPage⟩
  · by_cases heq : u = stackPage
    · exact Or.inl (heq ▸ hdir)
    · right
      rw [writable_ofCommand heq, ne_eq, Option.map_eq_none_iff] at hu
      have hin := hc u
      rw [find_append_stack haddr heq] at hin
      rw [hin, Option.map_eq_none_iff] at hu
      obtain ⟨r, hr⟩ := Option.ne_none_iff_exists'.1 hu
      exact ⟨r, (hrep.entry u r).1 hr⟩

theorem started_extends {file : FilePtr} {fileName : CString} {r : Word × Word}
    (hfree : σ.pagedir p = fun _ => none) (h : Started hashInt file fileName (σ.view p) m r) :
    PageTables.Extends p σ.tables (σ.put p m).tables := by
  obtain ⟨k, hk, hused, hdir, hother⟩ := h.frame
  have hdir' : (σ.put p m).pagedir p = update (σ.pagedir p) stackPage (some (k, true)) := by
    rw [pagedir_put, hfree, hdir]
  exact .of_map (congrFun hfree stackPage) hk hused hdir' (fun q hq => update_of_ne hq _ _) hother

theorem Valid.exec (h : Valid hashInt σ φ) (hfrees : FreesOwn vmDestroyFunc)
    (hopen : ∀ s name s' f, S.filesysOpen s name = (s', some f) → S.pos s' f = 0)
    {fileName : CString} {bytes : ℕ → Byte} {block : Bool}
    (hgo : run hashInt vmDestroyFunc kernelPresent (.exec p fileName bytes block) σ =
      some (σ', e)) : ∃ φ', Follows flatStep φ e φ' ∧ Valid hashInt σ' φ' := by
  have hdead : σ.alive p = false := by
    by_contra halive
    rw [Bool.not_eq_false] at halive
    simp [run, halive] at hgo
  simp only [run, hdead, Bool.false_eq_true, if_false] at hgo
  obtain ⟨hφ, hnone⟩ := h.dead p hdead
  have hdir : σ.pagedir p = fun _ => none := funext hnone
  let m : Machine S H := { σ.view p with vm := vmInit H }
  have hempty : ∀ r, elemOf r ∉ H.elems m.vm := fun r hr => by
    rw [show H.elems m.vm = ∅ from H.elems_init] at hr
    cases hr
  -- the entries of others are not in the blocks that `load` gets
  have hold : ∀ q r, σ.alive q = true → elemOf r ∈ H.elems (σ.vm q) → r ∈ m.heap := by
    intro q r hq hr
    obtain ⟨f, -, hproc⟩ := h.process q hq
    exact hproc.heap r hr
  rcases hstart : startProcess hashInt bytes block fileName (σ.view p) with _ | ⟨m', b⟩
  · rw [hstart] at hgo
    cases hgo
  rw [hstart] at hgo
  cases b with
  | none =>
      cases hgo
      obtain ⟨hpages, -, hheap, hentry, helem, -⟩ :=
        load_failed hopen rfl hdir (load_of_startProcess_none hstart)
      have hother : Others p σ (σ.put p m') := put_others (fun _ _ _ r _ hmem => hheap hmem)
        fun q _ hq r hr => by
          rw [hentry r (hold q r hq hr)]
          exact .refl _
      have hkeeps : KeepsPages (σ.view p).space m'.space :=
        ⟨hpages.1, hpages.2.1.trans hdir.symm, hpages.2.2⟩
      have hgone : (σ.put p m').pagedir p = fun _ => none := (pagedir_put σ p m').trans hpages.2.1
      refine ⟨φ, rfl, h.ends (hother.trans (processExit_others hfrees fun q r hq ha hr hr' => ?_))
        (update_self ..) ((put_keeps hkeeps).drops (processExit_drops fun u hu => ?_)) ?_⟩
      · rw [hother.vm q hq] at hr
        have hr'' : elemOf r ∈ H.elems m'.vm := vm_put σ p m' ▸ hr'
        exact (helem r hr'').elim (hempty r) fun hnew => hnew (hold q r ha hr)
      · rw [hgone] at hu
        exact absurd rfl hu
      · rw [← hφ, update_eq_self]
  | some b =>
      obtain ⟨file, hfile, hstarted⟩ := startProcess_started hopen hstart
      rw [show (S.filesysOpen σ.core.space.files fileName.command).2 = some file from hfile] at hgo
      cases hgo
      obtain ⟨e, -, -, henters⟩ := hstarted.entry
      let σ' : System S H := { σ.put p m' with alive := update σ.alive p true }
      have hother : Others p σ σ' :=
        ⟨fun q hq => update_of_ne hq _ _, fun q hq => update_of_ne hq _ _,
          fun q hq => update_of_ne hq _ _, fun _ _ _ r _ hmem => henters.heap hmem,
          fun q _ hq r hr => by
            show SameEntry _ (m'.mem.entry (.heap r))
            rw [henters.entry r (hold q r hq hr)]
            exact .refl _⟩
      refine ⟨update φ p (some (Flat.ofCommand S file fileName)), ?_, h.goes_on hother
        (update_self ..) (started_extends hdir hstarted) ?_ (fun u hu => absurd (hnone u) hu)
        (fun {u k w} _ hsome i hi => ?_) fun q r hq ha hr hr' => ?_⟩
      · show flatStep (.start p _) φ = _
        simp [flatStep, hφ]
      · have hview : σ'.view p = m' := view_put σ p m'
        rw [hview]
        exact started_process hstarted
      · have hsome' : m'.space.pagedir u = some (k, w) := (pagedir_put σ p m') ▸ hsome
        exact (started_mapped hstarted hsome').2.2 i hi
      · have hr'' : elemOf r ∈ H.elems m'.vm := vm_put σ p m' ▸ hr'
        exact (henters.elem r hr'').elim (hempty r) fun hnew => hnew (hold q r ha hr)

/-! ### All of them -/

theorem simulates (hfrees : FreesOwn vmDestroyFunc)
    (hopen : ∀ s name s' f, S.filesysOpen s name = (s', some f) → S.pos s' f = 0) :
    Simulates (step hashInt vmDestroyFunc kernelPresent) (fun (_ : System S H) _ => True)
      (visible hashInt vmDestroyFunc kernelPresent) flatStep (Valid hashInt) := by
  intro σ a σ' φ h _ hs
  obtain ⟨⟨σ₁, e⟩, hgo, rfl⟩ := Option.map_eq_some_iff.1 hs
  have hvisible : visible hashInt vmDestroyFunc kernelPresent σ a = e := by
    rw [visible, hgo]
    rfl
  rw [hvisible]
  cases a with
  | exec p fileName bytes block =>
      exact h.exec hfrees hopen hgo
  | access p acc a stray =>
      simp only [run] at hgo
      split at hgo
      · next hp => exact h.access hfrees hp hgo
      · cases hgo
  | exit p =>
      simp only [run] at hgo
      split at hgo
      · next hp =>
          cases hgo
          exact ⟨update φ p none, h.follows_stop hp, h.exit hfrees hp⟩
      · cases hgo

theorem Valid.of_exec (hfrees : FreesOwn vmDestroyFunc)
    (hopen : ∀ s name s' f, S.filesysOpen s name = (s', some f) → S.pos s' f = 0)
    {files : S.Files} {mem : Memory} {tr : List (System S H × Act)}
    (hrun : Exec (step hashInt vmDestroyFunc kernelPresent) (System.start H files mem) tr σ) :
    ∃ φ, runAll flatStep (events (visible hashInt vmDestroyFunc kernelPresent) tr) (fun _ => none) =
      some φ ∧ Valid hashInt σ φ :=
  (simulates hfrees hopen).run (.start files mem) hrun fun _ _ => trivial

end Steps

/-! ## The properties -/

section Properties

variable {S : Services} {H : HashTable Ptr} {hashInt : Word → ℕ} {σ : System S H}
  {vmDestroyFunc : H.Table → Finset VmePtr} {kernelPresent : Word → Bool} {files : S.Files}
  {mem : Memory} {tr : List (System S H × Act)}

/-- Whatever the order in which processes are loaded, touch memory, fault and exit, what they see is
a run of processes that have flat memories of their own. -/
theorem user_memory_is_flat (hfrees : FreesOwn vmDestroyFunc)
    (hopen : ∀ s name s' f, S.filesysOpen s name = (s', some f) → S.pos s' f = 0)
    (hrun : Exec (step hashInt vmDestroyFunc kernelPresent) (System.start H files mem) tr σ) :
    ∃ φ, runAll flatStep (events (visible hashInt vmDestroyFunc kernelPresent) tr) (fun _ => none) =
      some φ ∧ ∀ p, φ p ≠ none ↔ σ.alive p = true := by
  obtain ⟨φ, hgo, h⟩ := Valid.of_exec hfrees hopen hrun
  refine ⟨φ, hgo, fun p => ⟨fun hne => ?_, fun hp => ?_⟩⟩
  · by_contra hdead
    exact hne (h.dead p (by simpa using hdead)).1
  · obtain ⟨f, hf, -⟩ := h.process p hp
    simp [hf]

/-- Every frame that is not free is mapped at exactly one page, a user page of a process that runs. -/
structure FramesAccounted (σ : System S H) : Prop where
  mapped : ∀ k, k ∈ σ.core.space.used ↔ ∃ p u w, σ.pagedir p u = some (k, w)
  once : ∀ p q u v k w w', σ.pagedir p u = some (k, w) → σ.pagedir q v = some (k, w') →
    p = q ∧ u = v
  user : ∀ p u, σ.pagedir p u ≠ none → σ.alive p = true ∧ UserPage u

/-- The machine when `p` faults. -/
def System.faulting (σ : System S H) (p : Pid) (stray : Word) : Machine S H :=
  { σ.view p with mem := (σ.view p).mem.withStray stray }

/-- `page_fault` leaves a frame in use that is mapped nowhere. -/
def LosesFrame (hashInt : Word → ℕ) (σ : System S H) (p : Pid) (a stray : Word) : Prop :=
  ∃ k, k ∈ (pageFault hashInt a 0 (σ.faulting p stray)).1.space.used ∧
    ∀ q u w, σ.pagedir q u ≠ some (k, w)

theorem Valid.fault_ends {φ : FlatState} {p : Pid} {a stray : Word} {present : Bool}
    (h : Valid hashInt σ φ) (hp : σ.alive p = true)
    (hend : UserMemory.fault hashInt vmDestroyFunc p a present stray σ = none) :
    LosesFrame hashInt σ p a stray := by
  obtain ⟨f, -, hproc⟩ := h.process p hp
  have hm : Process hashInt (σ.faulting p stray) f := hproc.grows
    ⟨rfl, fun _ _ => id, fun _ _ => .refl _⟩ (fun _ _ => rfl)
    fun hnone hsome => absurd (hnone.symm.trans hsome) (by simp)
  obtain ⟨g, hg⟩ := hm.table
  change afterFault vmDestroyFunc p
    (pageFault hashInt a (if present then PF_P else 0) (σ.faulting p stray)) σ = none at hend
  rcases pageFault_cases hg a (if present then PF_P else 0) with hr | hr | ⟨hcode, -, k, hk, hr⟩
  · rw [afterFault, hr] at hend
    cases hend
  · rw [afterFault, hr] at hend
    cases hend
  · have hzero : (if present then PF_P else 0) = (0 : Word) := by
      cases present with
      | false => rfl
      | true => exact absurd hcode (by decide)
    rw [hzero] at hr
    refine ⟨k, by rw [hr]; exact Finset.mem_insert_self k _, fun q u w hu => ?_⟩
    exact S.palloc_fresh hk (h.disjoint.used hu)

/-- An access that the model does not go on from is one at which a frame is lost. -/
theorem Valid.access_ends {φ : FlatState} {p : Pid} {acc : AccessKind} {a stray : Word}
    (h : Valid hashInt σ φ) (hp : σ.alive p = true)
    (hend : step hashInt vmDestroyFunc kernelPresent (.access p acc a stray) σ = none) :
    LosesFrame hashInt σ p a stray := by
  simp only [step, run, hp, if_true, Option.map_eq_none_iff, UserMemory.access] at hend
  split at hend
  · split at hend
    · exact h.fault_ends hp hend
    · split at hend
      · cases hend
      · split at hend
        · cases hend
        · exact h.fault_ends hp hend
  · exact h.fault_ends hp hend

/-- In every state all frames are accounted for.  The accesses from which the model does not go on
are those at which `page_fault` follows a null pointer, having taken a frame that is mapped
nowhere. -/
theorem frames_accounted (hfrees : FreesOwn vmDestroyFunc)
    (hopen : ∀ s name s' f, S.filesysOpen s name = (s', some f) → S.pos s' f = 0)
    (hrun : Exec (step hashInt vmDestroyFunc kernelPresent) (System.start H files mem) tr σ) :
    FramesAccounted σ ∧ ∀ p acc a stray, σ.alive p = true →
      step hashInt vmDestroyFunc kernelPresent (.access p acc a stray) σ = none →
        LosesFrame hashInt σ p a stray := by
  obtain ⟨φ, -, h⟩ := Valid.of_exec hfrees hopen hrun
  refine ⟨?_, fun p acc a stray hp hend => h.access_ends hp hend⟩
  refine ⟨fun k => ⟨h.tight k, ?_⟩, fun p q u v k w w' hu hv => h.disjoint.inj hu hv,
    fun p u hu => ⟨?_, h.userPage hu⟩⟩
  · rintro ⟨p, u, w, hu⟩
    exact h.disjoint.used hu
  · by_contra hdead
    exact hu ((h.dead p (by simpa using hdead)).2 u)

/-- The page of the address is mapped, and may be accessed so. -/
def GoesThrough (σ : System S H) (p : Pid) (acc : AccessKind) (a : Word) : Prop :=
  ∃ k w, σ.pagedir p (pgRoundDown a) = some (k, w) ∧ ∀ b, acc = .write b → w = true

/-- When `find_vme` looks at the right entry and there is memory, an access to a page of the process
goes through after at most one fault. -/
theorem access_goes_through (hfrees : FreesOwn vmDestroyFunc)
    (hopen : ∀ s name s' f, S.filesysOpen s name = (s', some f) → S.pos s' f = 0)
    (hrun : Exec (step hashInt vmDestroyFunc kernelPresent) (System.start H files mem) tr σ)
    {φ : FlatState} (hφ : runAll flatStep
      (events (visible hashInt vmDestroyFunc kernelPresent) tr) (fun _ => none) = some φ)
    {p : Pid} {f : Flat} (hf : φ p = some f) {acc : AccessKind} {a : Word} {w : Bool}
    (ha : isUserVaddr a = true) (hw : f.writable (pgRoundDown a) = some w)
    (hacc : ∀ b, acc = .write b → w = true) (hpool : S.palloc σ.core.space.used ≠ none)
    (htable : ∀ dir u, S.pageTable dir u = true)
    (hfull : ∀ r, elemOf r ∈ H.elems (σ.vm p) → (σ.core.mem.entry (.heap r)).type = VM_BIN →
      S.Full (σ.core.mem.entry (.heap r)).file (σ.core.mem.entry (.heap r)).page) :
    ∃ σ', step hashInt vmDestroyFunc kernelPresent (.access p acc a (pgRoundDown a)) σ = some σ' ∧
      GoesThrough σ' p acc a := by
  obtain ⟨φ', hgo, h⟩ := Valid.of_exec hfrees hopen hrun
  obtain rfl : φ' = φ := Option.some.inj (hgo.symm.trans hφ)
  have hp : σ.alive p = true := by
    by_contra hdead
    rw [(h.dead p (by simpa using hdead)).1] at hf
    cases hf
  obtain ⟨f', hf', hproc⟩ := h.process p hp
  obtain rfl : f' = f := Option.some.inj (hf'.symm.trans hf)
  simp only [step, run, hp, if_true, UserMemory.access, ha]
  cases hdir : σ.pagedir p (pgRoundDown a) with
  | some kw =>
      -- the page is there
      obtain ⟨k, w'⟩ := kw
      obtain rfl : w' = w := Option.some.inj ((hproc.flags hdir).2.symm.trans hw)
      cases acc with
      | read =>
          exact ⟨σ, rfl, k, w', hdir, hacc⟩
      | write b =>
          simp only [hacc b rfl, if_true]
          exact ⟨_, rfl, k, w', hdir, hacc⟩
  | none =>
      let m : Machine S H := { σ.view p with mem := (σ.view p).mem.withStray (pgRoundDown a) }
      have hm : Process hashInt m f' := hproc.grows ⟨rfl, fun _ _ => id, fun _ _ => .refl _⟩
        (fun _ _ => rfl) fun hnone hsome => absurd (hnone.symm.trans hsome) (by simp)
      obtain ⟨r, hr, haddr⟩ := (hm.present (pgRoundDown a) (by simp [hw])).resolve_left
        (not_not.2 hdir)
      have hback := hm.absent r hr (haddr ▸ hdir)
      obtain ⟨g, hg⟩ := hm.table
      have hprobe : g m.mem.probeWord = some r := by
        rw [show m.mem.probeWord = pgRoundDown a from by
          simp [m, Memory.withStray, Memory.probeWord]]
        exact (hg.entry _ r).2 ⟨hr, haddr⟩
      obtain ⟨m', hgo', hmaps⟩ := pageFault_resumes hg hprobe hback.type (haddr ▸ hdir) hpool htable
        (hfull r hr hback.type) (a := a)
      refine ⟨σ.put p m', ?_, ?_⟩
      · change Option.map Prod.fst (afterFault vmDestroyFunc p (pageFault hashInt a 0 m) σ) = _
        rw [hgo']
        rfl
      · obtain ⟨k, hdir'⟩ := hmaps
        refine ⟨k, w, ?_, hacc⟩
        have hw' : (m.mem.entry (.heap r)).writable = w := by
          have hback' := hback.writable
          rw [haddr] at hback'
          exact Option.some.inj (hback'.symm.trans hw)
        rw [pagedir_put, hdir', ← haddr, ← hw']
        exact update_self ..

end Properties

/-! ### One process -/

section OneProcess

def oneStart : System oneSegment (buckets Ptr 4) := .start _ (fun _ => 0) (strayMemory 0)

def oneExecAct : Act := .exec 1 oneCommand (fun _ => 0) true

/-- The process reads the second byte of its text, which faults once. -/
def oneActs : List Act :=
  [oneExecAct, .access 1 .read 0x08048001 0x08048000, .access 1 .read 0x08048001 0]

abbrev oneStep : Act → System oneSegment (buckets Ptr 4) →
    Option (System oneSegment (buckets Ptr 4)) :=
  step BitVec.toNat (fun _ => ∅) fun _ => true

def oneEnd : System oneSegment (buckets Ptr 4) :=
  (runAll oneStep oneActs oneStart).get (by decide +kernel)

theorem oneExec : Exec oneStep oneStart (trace oneStep oneActs oneStart) oneEnd :=
  Exec.of_runAll (Option.some_get _).symm

theorem freesOwn_empty : FreesOwn fun _ : (buckets Ptr 4).Table => (∅ : Finset VmePtr) := by
  intro vm r hr
  exact absurd hr (Finset.notMem_empty r)

theorem user_memory_is_flat_one :
    ∃ φ, runAll flatStep (events (visible BitVec.toNat (fun _ => ∅) fun _ => true)
      (trace oneStep oneActs oneStart)) (fun _ => none) = some φ ∧
        ∀ p, φ p ≠ none ↔ oneEnd.alive p = true :=
  user_memory_is_flat freesOwn_empty oneSegment_opens oneExec

/-- A fault for which `find_vme` has nothing. -/
theorem frames_accounted_one :
    FramesAccounted oneEnd ∧ LosesFrame BitVec.toNat oneEnd 1 0x08049000 0x08049000 := by
  obtain ⟨haccounted, hloses⟩ := frames_accounted freesOwn_empty oneSegment_opens oneExec
  exact ⟨haccounted, hloses 1 .read 0x08049000 0x08049000 (by decide +kernel) (by decide +kernel)⟩

/-- The process has been started. -/
def oneStarted : System oneSegment (buckets Ptr 4) :=
  (oneStep oneExecAct oneStart).get (by decide +kernel)

theorem visible_exec_one : visible BitVec.toNat (fun _ => ∅) (fun _ => true) oneStart oneExecAct =
    some (.start 1 (Flat.ofCommand oneSegment 0 oneCommand)) := by
  have hsome : (startProcess BitVec.toNat (fun _ => 0) true oneCommand
      (oneStart.view 1)).any (fun r => r.2.isSome) = true := by
    decide +kernel
  have hdead : oneStart.alive 1 = false := rfl
  simp only [visible, oneExecAct, run, hdead, Bool.false_eq_true, if_false]
  rcases hgo : startProcess BitVec.toNat (fun _ => 0) true oneCommand (oneStart.view 1) with
    _ | ⟨m, _ | r⟩
  · rw [hgo] at hsome
    cases hsome
  · rw [hgo] at hsome
    cases hsome
  · rfl

theorem access_goes_through_one :
    ∃ σ', oneStep (.access 1 .read 0x08048001 (pgRoundDown 0x08048001)) oneStarted = some σ' ∧
      GoesThrough σ' 1 .read 0x08048001 := by
  have hstep : oneStep oneExecAct oneStart = some oneStarted := (Option.some_get _).symm
  have hrun : Exec oneStep oneStart [(oneStart, oneExecAct)] oneStarted := Exec.snoc .nil hstep
  have hφ : runAll flatStep (events (visible BitVec.toNat (fun _ => ∅) fun _ => true)
      [(oneStart, oneExecAct)]) (fun _ => none) =
        some (update (fun _ => none) 1 (some (Flat.ofCommand oneSegment 0 oneCommand))) := by
    simp only [events, List.filterMap_cons, List.filterMap_nil, visible_exec_one]
    rfl
  obtain ⟨φ, -, h⟩ := Valid.of_exec freesOwn_empty oneSegment_opens hrun
  obtain ⟨f, -, hproc⟩ := h.process 1 (by decide +kernel)
  have hfull : ∀ r ∈ oneStarted.core.heap, (oneStarted.core.mem.entry (.heap r)).type = VM_BIN →
      oneSegment.Full (oneStarted.core.mem.entry (.heap r)).file
        (oneStarted.core.mem.entry (.heap r)).page := by
    decide +kernel
  exact access_goes_through freesOwn_empty oneSegment_opens hrun hφ
    (f := Flat.ofCommand oneSegment 0 oneCommand) (w := false) (update_self ..) (by decide)
    (by decide +kernel) (fun _ h => by cases h) (by decide +kernel) (fun _ _ => rfl)
    fun r hr => hfull r (hproc.heap r hr)

end OneProcess

end UserMemory

end Project4
end Pintos
