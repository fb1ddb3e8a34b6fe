import Pintos.Project4.DemandLoading

/-!
# PageFault — is a page fault handled or the process ended?

`handle_mm_fault` can fail at three places, and the `switch` over the types loads nothing for an
anonymous page.  `page_fault` hands it whatever `find_vme` has returned.
-/

namespace Pintos
namespace Project4

open Lib Userprog Function

/-! ## Frames taken and given back -/

inductive PoolEvent
  | got (k : FramePtr)
  | freed (k : FramePtr)
  deriving DecidableEq

section Handle

variable {S : Services} {H : HashTable Ptr} {m : Machine S H} {p : VmePtr}

/-- `handle_mm_fault` together with its calls of `palloc_get_page` and `palloc_free_page`. -/
def handleMmFaultLogged (m : Machine S H) (vme : VmePtr) :
    (Machine S H × Bool) × List PoolEvent :=
  let e := m.mem.entry (.heap vme)
  match m.space.pallocGetPage with
  | none => ((m, false), [])
  | some (kaddr, sp) =>
      match loadType sp kaddr e with
      | (sp, none) =>
          (({ m with space := sp.pallocFreePage kaddr }, false), [.got kaddr, .freed kaddr])
      | (sp, some success) =>
          let installed := sp.installPage e.vaddr kaddr e.writable
          if installed.2 then
            (({ m with
                space := installed.1
                mem := m.mem.write (.heap vme) { e with isLoaded := true } }, success),
              [.got kaddr])
          else
            (({ m with space := installed.1.pallocFreePage kaddr }, false),
              [.got kaddr, .freed kaddr])

theorem handleMmFaultLogged_fst (m : Machine S H) (p : VmePtr) :
    (handleMmFaultLogged m p).1 = handleMmFault m p := by
  unfold handleMmFaultLogged handleMmFault
  cases m.space.pallocGetPage with
  | none =>
      rfl
  | some got =>
      obtain ⟨kaddr, sp⟩ := got
      rcases hload : loadType sp kaddr (m.mem.entry (.heap p)) with ⟨sp', success⟩
      cases success with
      | none =>
          simp only [hload]
      | some success =>
          simp only [hload]
          split <;> rfl

/-! ## The cases of `handle_mm_fault` -/

/-- The types that the `switch` loads from a file. -/
def VmEntry.FromFile (e : VmEntry) : Prop := e.type = VM_BIN ∨ e.type = VM_FILE

/-- The `switch` does not give up on the entry. -/
def Loadable (S : Services) (e : VmEntry) : Prop := e.FromFile → S.Full e.file e.page

/-- The page is not mapped and there is memory for its page table. -/
def Installable (sp : Space S) (u : Word) : Prop :=
  sp.pagedir u = none ∧ S.pageTable sp.pagedir u = true

/-- The frame has the bytes of the entry: its part of the file, and zeros after that. -/
def HasContents (sp : Space S) (k : FramePtr) (e : VmEntry) : Prop :=
  ∀ i < e.readBytes + e.zeroBytes, sp.bytes k i = S.pageByte e.file e.page i

theorem loadFile_contents {sp : Space S} {k : FramePtr} {e : VmEntry}
    (hfull : S.Full e.file e.page) : HasContents (loadFile sp k e).1 k e := by
  intro i hi
  have hstored : (S.fileRead (sp.fileSeek e.file e.offset).files e.file e.readBytes).2 =
      S.stored e.file e.offset e.readBytes := by
    rw [S.read_bytes, Space.fileSeek, S.seek_pos]
  have hlen : (S.stored e.file e.offset e.readBytes).length = e.readBytes := hfull
  rw [loadFile_of_full hfull]
  simp only [Space.memset, Space.fileRead, update_self, hstored]
  by_cases hread : i < e.readBytes
  · rw [storeBytes_lt hread, storeBytes_mem (Nat.zero_le i) (by omega)]
    rfl
  · -- past the bytes of the file both sides are zero
    have hpast : (S.stored e.file e.offset e.readBytes)[i]? = none :=
      List.getElem?_eq_none (by omega)
    rw [storeBytes_mem (by omega) (by simpa using by omega), Services.pageByte]
    simp only [VmEntry.page, hpast, List.getElem?_replicate, Option.getD_none]
    split <;> rfl

/-- What the `switch` leaves: nothing but the new frame has been written. -/
structure Switched (sp : Space S) (k : FramePtr) (e : VmEntry) (r : Space S × Option Bool) :
    Prop where
  used : r.1.used = sp.used
  pagedir : r.1.pagedir = sp.pagedir
  other : ∀ k' ≠ k, r.1.bytes k' = sp.bytes k'
  gives_up : r.2 = none ↔ ¬ Loadable S e
  success : r.2 = some true ↔ e.FromFile ∧ S.Full e.file e.page
  contents : r.2 = some true → HasContents r.1 k e

/-- `load_file`, for the types that come from a file. -/
theorem loadFile_switched (sp : Space S) (k : FramePtr) {e : VmEntry} (hfile : e.FromFile) :
    Switched sp k e ((loadFile sp k e).1, if S.Full e.file e.page then some true else none) := by
  refine ⟨loadFile_used, loadFile_pagedir, fun k' hk' => loadFile_other hk', ?_, ?_, ?_⟩
  · by_cases hfull : S.Full e.file e.page <;> simp [Loadable, hfile, hfull]
  · by_cases hfull : S.Full e.file e.page <;> simp [hfile, hfull]
  · intro hsome
    by_cases hfull : S.Full e.file e.page
    · exact loadFile_contents hfull
    · simp [hfull] at hsome

theorem loadType_switched (sp : Space S) (k : FramePtr) (e : VmEntry) :
    Switched sp k e (loadType sp k e) := by
  by_cases hbin : e.type = VM_BIN
  · rw [loadType_bin hbin]
    have hfirst := loadFile_switched sp k (Or.inl hbin : e.FromFile)
    by_cases hfull : S.Full e.file e.page
    · -- the page is read twice
      have hsecond := loadFile_switched (loadFile sp k e).1 k (Or.inl hbin : e.FromFile)
      rw [if_pos hfull] at hfirst hsecond ⊢
      refine ⟨hsecond.used.trans hfirst.used, hsecond.pagedir.trans hfirst.pagedir, ?_,
        hsecond.gives_up, hsecond.success, hsecond.contents⟩
      intro k' hk'
      exact (hsecond.other k' hk').trans (hfirst.other k' hk')
    · rw [if_neg hfull] at hfirst ⊢
      exact hfirst
  · by_cases hmmap : e.type = VM_FILE
    · have hload := loadFile_switched sp k (Or.inr hmmap : e.FromFile)
      have heq : loadType sp k e =
          ((loadFile sp k e).1, if S.Full e.file e.page then some true else none) := by
        unfold loadType
        rw [if_neg hbin, if_pos hmmap]
        by_cases hfull : S.Full e.file e.page
        · simp [loadFile_snd.2 hfull, hfull]
        · have hfalse : (loadFile sp k e).2 = false := by
            rw [← Bool.not_eq_true, loadFile_snd]
            exact hfull
          simp [hfalse, hfull]
      rw [heq]
      exact hload
    · -- an anonymous page is left as the frame was
      have hnot : ¬ e.FromFile := fun h => h.elim hbin hmmap
      have heq : loadType sp k e = (sp, some false) := by
        unfold loadType
        rw [if_neg hbin, if_neg hmmap]
      rw [heq]
      exact ⟨rfl, rfl, fun _ _ => rfl, by simp [Loadable, hnot], by simp [hnot], nofun⟩

/-- What `handle_mm_fault` can do with the entry `e`. -/
inductive FaultCase (m : Machine S H) (p : VmePtr) (e : VmEntry) :
    (Machine S H × Bool) × List PoolEvent → Prop
  | noFrame : S.palloc m.space.used = none → FaultCase m p e ((m, false), [])
  | givenBack {k : FramePtr} {sp : Space S} : S.palloc m.space.used = some k →
      ¬ (Loadable S e ∧ Installable m.space e.vaddr) → sp.used = m.space.used →
      sp.pagedir = m.space.pagedir →
      FaultCase m p e (({ m with space := sp }, false), [.got k, .freed k])
  | mapped {k : FramePtr} {sp : Space S} {success : Bool} : S.palloc m.space.used = some k →
      Loadable S e → Installable m.space e.vaddr → sp.used = insert k m.space.used →
      sp.pagedir = update m.space.pagedir e.vaddr (some (k, e.writable)) →
      (success = true ↔ e.FromFile) → (success = true → HasContents sp k e) →
      FaultCase m p e
        (({ m with space := sp, mem := m.mem.write (.heap p) { e with isLoaded := true } },
          success), [.got k])

theorem handleMmFaultLogged_case (m : Machine S H) (p : VmePtr) :
    FaultCase m p (m.mem.entry (.heap p)) (handleMmFaultLogged m p) := by
  generalize he : m.mem.entry (.heap p) = e
  cases hk : S.palloc m.space.used with
  | none =>
      have hnone : m.space.pallocGetPage = none := pallocGetPage_of_none hk
      simp only [handleMmFaultLogged, hnone]
      exact .noFrame hk
  | some k =>
      let sp : Space S := { m.space with used := insert k m.space.used }
      have halloc : m.space.pallocGetPage = some (k, sp) := pallocGetPage_of_some hk
      have hback : ∀ sp' : Space S, sp'.used = sp.used →
          (sp'.pallocFreePage k).used = m.space.used := by
        intro sp' hused
        simp only [Space.pallocFreePage, hused, sp]
        exact Finset.erase_insert (S.palloc_fresh hk)
      have hsw := loadType_switched sp k e
      rcases hload : loadType sp k e with ⟨sp₁, outcome⟩
      rw [hload] at hsw
      cases outcome with
      | none =>
          simp only [handleMmFaultLogged, he, halloc, hload]
          refine .givenBack hk (fun h => hsw.gives_up.1 rfl h.1) (hback sp₁ hsw.used) ?_
          exact hsw.pagedir
      | some success =>
          have hloadable : Loadable S e := by
            by_contra hnot
            exact absurd (hsw.gives_up.2 hnot) (by simp)
          have hsuccess : success = true ↔ e.FromFile := by
            have hiff := hsw.success
            rw [Option.some.injEq] at hiff
            exact hiff.trans ⟨fun h => h.1, fun h => ⟨h, hloadable h⟩⟩
          by_cases hinst : Installable m.space e.vaddr
          · have hmapped : sp₁.installPage e.vaddr k e.writable =
                ({ sp₁ with pagedir := update sp₁.pagedir e.vaddr (some (k, e.writable)) }, true) :=
              installPage_of_none (hsw.pagedir ▸ hinst.2) (hsw.pagedir ▸ hinst.1)
            simp only [handleMmFaultLogged, he, halloc, hload, hmapped, if_true]
            refine .mapped hk hloadable hinst hsw.used ?_ hsuccess fun h => ?_
            · exact congrArg (fun dir => update dir e.vaddr (some (k, e.writable))) hsw.pagedir
            · exact hsw.contents (congrArg some h)
          · have hrefused : sp₁.installPage e.vaddr k e.writable = (sp₁, false) := by
              refine if_neg fun h => hinst ?_
              have hdir : sp₁.pagedir = m.space.pagedir := hsw.pagedir
              rw [hdir] at h
              exact h
            simp only [handleMmFaultLogged, he, halloc, hload, hrefused, Bool.false_eq_true,
              if_false]
            exact .givenBack hk (fun h => hinst h.2) (hback sp₁ hsw.used) hsw.pagedir

/-! ## All or nothing -/

/-- The call has mapped the page of the entry to a frame with the contents of the entry, and has
marked the entry. -/
structure MappedHere (m m' : Machine S H) (p : VmePtr) : Prop where
  before : m.space.pagedir (m.mem.entry (.heap p)).vaddr = none
  after : ∃ k, m'.space.pagedir (m.mem.entry (.heap p)).vaddr =
      some (k, (m.mem.entry (.heap p)).writable) ∧
    HasContents m'.space k (m.mem.entry (.heap p))
  loaded : (m'.mem.entry (.heap p)).isLoaded = true

/-- The result is true just when the page has been mapped; a failed call leaves the page directory
and the entry as they were and has given back the frame that it took. -/
structure AllOrNothing (m : Machine S H) (p : VmePtr) : Prop where
  result : (handleMmFault m p).2 = true ↔ MappedHere m (handleMmFault m p).1 p
  pagedir : (handleMmFault m p).2 = false →
    (handleMmFault m p).1.space.pagedir = m.space.pagedir
  isLoaded : (handleMmFault m p).2 = false →
    ((handleMmFault m p).1.mem.entry (.heap p)).isLoaded = (m.mem.entry (.heap p)).isLoaded
  freed : (handleMmFault m p).2 = false → ∀ k, .got k ∈ (handleMmFaultLogged m p).2 →
    (handleMmFaultLogged m p).2.count (.freed k) = 1 ∧ k ∉ (handleMmFault m p).1.space.used

theorem MappedHere.pagedir_ne {m' : Machine S H} (h : MappedHere m m' p) :
    m'.space.pagedir ≠ m.space.pagedir := by
  intro heq
  obtain ⟨k, hk, -⟩ := h.after
  rw [heq, h.before] at hk
  cases hk

/-- A call that fails and keeps the page directory and the entry is as it should be. -/
theorem AllOrNothing.of_failed {m' : Machine S H} {log : List PoolEvent}
    (hlog : handleMmFaultLogged m p = ((m', false), log))
    (hdir : m'.space.pagedir = m.space.pagedir)
    (hentry : (m'.mem.entry (.heap p)).isLoaded = (m.mem.entry (.heap p)).isLoaded)
    (hfreed : ∀ k, .got k ∈ log → log.count (.freed k) = 1 ∧ k ∉ m'.space.used) :
    AllOrNothing m p := by
  have hres : handleMmFault m p = (m', false) := by
    rw [← handleMmFaultLogged_fst, hlog]
  refine ⟨?_, fun _ => by rw [hres, hdir], fun _ => by rw [hres, hentry], fun _ k hk => ?_⟩
  · rw [hres]
    exact iff_of_false (by simp) fun h => h.pagedir_ne hdir
  · rw [hres]
    rw [hlog] at hk ⊢
    exact hfreed k hk

theorem AllOrNothing.of_mapped {m' : Machine S H} {log : List PoolEvent}
    (hlog : handleMmFaultLogged m p = ((m', true), log)) (hmapped : MappedHere m m' p) :
    AllOrNothing m p := by
  have hres : handleMmFault m p = (m', true) := by
    rw [← handleMmFaultLogged_fst, hlog]
  refine ⟨?_, fun h => ?_, fun h => ?_, fun h => ?_⟩
  · rw [hres]
    exact iff_of_true rfl hmapped
  all_goals
    rw [hres] at h
    cases h

/-- `handle_mm_fault` is all or nothing just when the entry is for a page of a file, or the call
gets no frame, or `install_page` would refuse the page. -/
theorem handle_mm_fault_all_or_nothing_iff (m : Machine S H) (p : VmePtr) :
    AllOrNothing m p ↔ (m.mem.entry (.heap p)).FromFile ∨ S.palloc m.space.used = none ∨
      ¬ Installable m.space (m.mem.entry (.heap p)).vaddr := by
  have hcase := handleMmFaultLogged_case m p
  generalize hlog : handleMmFaultLogged m p = r at hcase
  cases hcase with
  | noFrame hnone =>
      refine iff_of_true (.of_failed hlog rfl rfl ?_) (Or.inr (Or.inl hnone))
      exact fun k hk => absurd hk List.not_mem_nil
  | @givenBack k sp hk hnot hused hdir =>
      refine iff_of_true (.of_failed hlog hdir rfl ?_) ?_
      · intro k' hk'
        have hkk : k' = k := by simpa using hk'
        subst hkk
        exact ⟨by simp, by show k' ∉ sp.used; rw [hused]; exact S.palloc_fresh hk⟩
      · by_cases hfile : (m.mem.entry (.heap p)).FromFile
        · exact Or.inl hfile
        · -- nothing is loaded, so `install_page` has refused
          exact Or.inr (Or.inr fun hinst => hnot ⟨fun h => absurd h hfile, hinst⟩)
  | @mapped k sp success hk hload hinst hused hdir hsuccess hcontents =>
      have hself : sp.pagedir (m.mem.entry (.heap p)).vaddr =
          some (k, (m.mem.entry (.heap p)).writable) := by
        rw [hdir, update_self]
      cases success with
      | true =>
          refine iff_of_true (.of_mapped hlog ⟨hinst.1, ⟨k, hself, hcontents rfl⟩, ?_⟩)
            (Or.inl (hsuccess.1 rfl))
          exact congrArg VmEntry.isLoaded (write_entry_self _ _)
      | false =>
          refine iff_of_false (fun h => ?_) ?_
          · -- the result is false, and the page is mapped
            have hkept := h.pagedir
            rw [← handleMmFaultLogged_fst, hlog] at hkept
            have hnone := congrFun (hkept rfl) (m.mem.entry (.heap p)).vaddr
            rw [hinst.1] at hnone
            exact absurd (hself.symm.trans hnone) (by simp)
          · rintro (hfile | hnone | hrefused)
            · exact absurd (hsuccess.2 hfile) (by simp)
            · rw [hk] at hnone
              cases hnone
            · exact hrefused hinst

end Handle

/-! ### An anonymous page that is not mapped -/

def anonEntry : VmEntry := { textEntry with type := VM_ANON, writable := true }

def anonMachine : Machine shortFiles (buckets Ptr 4) :=
  { Machine.start emptySpace (strayMemory 0) with
    mem := (strayMemory 0).write (.heap 0) anonEntry }

/-- The page is mapped and the result is false. -/
theorem handle_mm_fault_not_all_or_nothing :
    ¬ ∀ (S : Services) (H : HashTable Ptr) (m : Machine S H) (p : VmePtr), AllOrNothing m p := by
  intro hall
  have hentry : anonMachine.mem.entry (.heap 0) = anonEntry := write_entry_self _ _
  have hcond := (handle_mm_fault_all_or_nothing_iff anonMachine 0).1 (hall _ _ anonMachine 0)
  rw [hentry] at hcond
  rcases hcond with (hbin | hmmap) | hnone | hrefused
  · exact absurd hbin (by decide)
  · exact absurd hmmap (by decide)
  · exact absurd hnone (by decide +kernel)
  · exact hrefused ⟨rfl, rfl⟩

/-! ## `page_fault` -/

section PageFault

variable {S : Services} {H : HashTable Ptr} {hashInt : Word → ℕ} {m : Machine S H} {f : PageMap}
  {a : Word}

/-- 0 in the error code: the page is not present. -/
def PF_P : Word := 0x1

/-- How the handler ends: the access is repeated, the process exits, a null pointer is followed, or
a pointer to something that is not an entry. -/
inductive FaultEnd
  | resumed
  | exited (status : ℤ)
  | nullDereference
  | wildDereference
  deriving DecidableEq

/-- `page_fault` with the fault address from `cr2`.  With `NULL` for the entry `handle_mm_fault`
takes a frame and then reads `vme->type`. -/
def pageFault (hashInt : Word → ℕ) (faultAddr errorCode : Word) (m : Machine S H) :
    Machine S H × FaultEnd :=
  let notPresent := decide (errorCode &&& PF_P = 0)
  if notPresent then
    match findVme H hashInt m.mem m.vm faultAddr with
    | none =>
        match m.space.pallocGetPage with
        | none => (m, .exited (-1))
        | some (_, sp) => ({ m with space := sp }, .nullDereference)
    | some vme =>
        match vme.object with
        | .probe => (m, .wildDereference)
        | .heap p =>
            let r := handleMmFault m p
            if r.2 then (r.1, .resumed) else (r.1, .exited (-1))
  else (m, .exited (-1))

/-- The handler ends, unless `find_vme` has no entry and a frame is free: that one is taken before
the null pointer is followed. -/
theorem pageFault_cases (h : Represents hashInt ⟨m.mem, m.vm⟩ f) (a errorCode : Word) :
    (pageFault hashInt a errorCode m).2 = .resumed ∨
      (pageFault hashInt a errorCode m).2 = .exited (-1) ∨
      (errorCode &&& PF_P = 0 ∧ f m.mem.probeWord = none ∧ ∃ k, S.palloc m.space.used = some k ∧
        pageFault hashInt a errorCode m =
          ({ m with space := { m.space with used := insert k m.space.used } },
            .nullDereference)) := by
  by_cases hpresent : errorCode &&& PF_P = 0
  · have hfind : findVme H hashInt m.mem m.vm a =
        (f m.mem.probeWord).map fun p => ⟨.heap p, 0⟩ := h.findVme_eq a
    simp only [pageFault, hpresent, decide_true, if_true, hfind]
    cases hp : f m.mem.probeWord with
    | none =>
        cases hk : S.palloc m.space.used with
        | none =>
            simp [pallocGetPage_of_none hk]
        | some k =>
            simp [pallocGetPage_of_some hk]
    | some p =>
        simp only [Option.map_some]
        cases (handleMmFault m p).2 <;> simp
  · simp only [pageFault, hpresent, decide_false, Bool.false_eq_true, if_false]
    exact Or.inr (Or.inl trivial)

/-- The page of the entry that contains the address has been mapped, or the process exits with -1;
and when the address has no entry, no null pointer is followed and no frame stays allocated. -/
structure MapsOrExits (f : PageMap) (a : Word) (m : Machine S H) (r : Machine S H × FaultEnd) :
    Prop where
  ends : (r.2 = .resumed ∧ ∃ p, f (pgRoundDown a) = some p ∧ MappedHere m r.1 p) ∨
    r.2 = .exited (-1)
  unknown : f (pgRoundDown a) = none →
    r.2 ≠ .nullDereference ∧ r.1.space.used = m.space.used

/-- `handle_mm_fault` gets a frame and comes to `install_page`, which takes it. -/
def CanMap (m : Machine S H) (p : VmePtr) : Prop :=
  S.palloc m.space.used ≠ none ∧ Loadable S (m.mem.entry (.heap p)) ∧
    Installable m.space (m.mem.entry (.heap p)).vaddr

/-- The fault is one on a present page; or `find_vme` looks at no entry, and no frame is free; or it
looks at the entry of the page of the address, or at another entry that cannot be brought in. -/
def FaultCovered (f : PageMap) (a errorCode : Word) (m : Machine S H) : Prop :=
  errorCode &&& PF_P ≠ 0 ∨
    (f m.mem.probeWord = none ∧ S.palloc m.space.used = none) ∨
    ∃ p, f m.mem.probeWord = some p ∧ (m.mem.probeWord = pgRoundDown a ∨
      ¬ (CanMap m p ∧ ((m.mem.entry (.heap p)).FromFile ∨ f (pgRoundDown a) = none)))

theorem MapsOrExits.of_exit {m' : Machine S H} (hused : m'.space.used = m.space.used) :
    MapsOrExits f a m (m', .exited (-1)) :=
  ⟨Or.inr rfl, fun _ => ⟨nofun, hused⟩⟩

/-- `handle_mm_fault` on the entry `p` of the page that `find_vme` has looked at. -/
theorem mapsOrExits_handled (h : Represents hashInt ⟨m.mem, m.vm⟩ f) {u : Word} {p : VmePtr}
    (hp : f u = some p) :
    MapsOrExits f a m
        (let r := handleMmFault m p; if r.2 then (r.1, .resumed) else (r.1, .exited (-1))) ↔
      u = pgRoundDown a ∨
        ¬ (CanMap m p ∧ ((m.mem.entry (.heap p)).FromFile ∨ f (pgRoundDown a) = none)) := by
  have hvaddr : ∀ {v q}, f v = some q → (m.mem.entry (.heap q)).vaddr = v :=
    fun hq => ((h.entry _ _).1 hq).2
  rw [← handleMmFaultLogged_fst]
  have hcase := handleMmFaultLogged_case m p
  generalize handleMmFaultLogged m p = r at hcase
  cases hcase with
  | noFrame hnone =>
      exact iff_of_true (.of_exit rfl) (Or.inr fun hcan => hcan.1.1 hnone)
  | givenBack hk hnot hused hdir =>
      exact iff_of_true (.of_exit hused) (Or.inr fun hcan => hnot hcan.1.2)
  | @mapped k sp success hk hload hinst hused hdir hsuccess hcontents =>
      have hcan : CanMap m p := ⟨by rw [hk]; simp, hload, hinst⟩
      have hself : sp.pagedir (m.mem.entry (.heap p)).vaddr =
          some (k, (m.mem.entry (.heap p)).writable) := by
        rw [hdir, update_self]
      cases success with
      | true =>
          have hfile := hsuccess.1 rfl
          by_cases hu : u = pgRoundDown a
          · refine iff_of_true ⟨Or.inl ⟨rfl, p, hu ▸ hp, hinst.1, ⟨k, hself, hcontents rfl⟩, ?_⟩,
              fun hnone => ?_⟩ (Or.inl hu)
            · exact congrArg VmEntry.isLoaded (write_entry_self _ _)
            · rw [← hu, hp] at hnone
              cases hnone
          · refine iff_of_false (fun hmaps => ?_) ?_
            · -- the page that has been mapped is not that of the address
              rcases hmaps.ends with ⟨-, q, hq, hmapped⟩ | hexit
              · obtain ⟨k', hk', -⟩ := hmapped.after
                have hbefore := hmapped.before
                rw [hvaddr hq] at hk' hbefore
                have hother : sp.pagedir (pgRoundDown a) = m.space.pagedir (pgRoundDown a) := by
                  rw [hdir, hvaddr hp, update_of_ne (Ne.symm hu)]
                exact absurd (hk'.symm.trans (hother.trans hbefore)) (by simp)
              · cases hexit
            · rintro (heq | hnot)
              · exact hu heq
              · exact hnot ⟨hcan, Or.inl hfile⟩
      | false =>
          have hanon : ¬ (m.mem.entry (.heap p)).FromFile := fun hfile => by
            simpa using hsuccess.2 hfile
          by_cases hnone : f (pgRoundDown a) = none
          · refine iff_of_false (fun hmaps => ?_) ?_
            · -- the frame of the anonymous page stays
              have hkept : sp.used = m.space.used := (hmaps.unknown hnone).2
              have hmem : k ∈ sp.used := by
                rw [hused]
                exact Finset.mem_insert_self k _
              exact S.palloc_fresh hk (hkept ▸ hmem)
            · rintro (heq | hnot)
              · rw [← heq, hp] at hnone
                cases hnone
              · exact hnot ⟨hcan, Or.inr hnone⟩
          · exact iff_of_true ⟨Or.inr rfl, fun hno => absurd hno hnone⟩
              (Or.inr fun hboth => hboth.2.elim hanon hnone)

/-- `page_fault` maps the page of the address or ends the process, without a null pointer or a lost
frame for an unknown address, exactly in the covered cases. -/
theorem page_fault_maps_or_exits_iff (h : Represents hashInt ⟨m.mem, m.vm⟩ f) (a errorCode : Word) :
    MapsOrExits f a m (pageFault hashInt a errorCode m) ↔ FaultCovered f a errorCode m := by
  unfold FaultCovered
  by_cases hpresent : errorCode &&& PF_P = 0
  · have hfind : findVme H hashInt m.mem m.vm a =
        (f m.mem.probeWord).map fun p => ⟨.heap p, 0⟩ := h.findVme_eq a
    simp only [pageFault, hpresent, decide_true, if_true, hfind, ne_eq, not_true_eq_false, false_or]
    cases hp : f m.mem.probeWord with
    | none =>
        cases hk : S.palloc m.space.used with
        | none =>
            simp only [Option.map_none, pallocGetPage_of_none hk]
            exact iff_of_true (.of_exit rfl) (Or.inl ⟨trivial, trivial⟩)
        | some k =>
            simp only [Option.map_none, pallocGetPage_of_some hk]
            refine iff_of_false (fun hmaps => ?_) (by simp)
            rcases hmaps.ends with ⟨hres, -⟩ | hexit
            · cases hres
            · cases hexit
    | some p =>
        simp only [Option.map_some, reduceCtorEq, false_and, false_or, Option.some.injEq]
        rw [mapsOrExits_handled h hp]
        simp
  · simp only [pageFault, hpresent, decide_false, Bool.false_eq_true, if_false]
    exact iff_of_true (.of_exit rfl) (Or.inl hpresent)

end PageFault

/-! ### The first page of the text, and a table without entries -/

def textMachine (w : Word) : Machine shortFiles (buckets Ptr 4) :=
  ⟨emptySpace, {0}, (textSystem w).mem, (textSystem w).vm⟩

/-- The stray word is the page, which is brought in. -/
theorem page_fault_maps_text :
    MapsOrExits (pageMapOf (trace (vmStep BitVec.toNat) textActs (textStart 0x08048000))) 0x08048123
      (textMachine 0x08048000) (pageFault BitVec.toNat 0x08048123 0 (textMachine 0x08048000)) := by
  refine (page_fault_maps_or_exits_iff ?_ 0x08048123 0).2 (Or.inr (Or.inr ⟨0, ?_, Or.inl ?_⟩))
  · exact Represents.of_exec (textExec 0x08048000) (text_keepsVaddr _)
  · decide +kernel
  · decide +kernel

/-- There is no entry, and `handle_mm_fault` follows the null pointer. -/
theorem page_fault_follows_null :
    ¬ ∀ (S : Services) (H : HashTable Ptr) (hashInt : Word → ℕ) (m : Machine S H) (f : PageMap),
        Represents hashInt ⟨m.mem, m.vm⟩ f → ∀ a errorCode : Word,
        MapsOrExits f a m (pageFault hashInt a errorCode m) := by
  intro hall
  let m : Machine shortFiles (buckets Ptr 4) := .start emptySpace (strayMemory 0)
  have hfault := hall _ _ BitVec.toNat m (fun _ => none) (Represents.start _) 0 0
  have hend : (pageFault BitVec.toNat 0 0 m).2 = .nullDereference := by decide +kernel
  exact (hfault.unknown rfl).1 hend

end Project4
end Pintos
