import Pintos.Project3.Load
import Pintos.Project4.Isolation

/-!
# UserMemory — processes that are loaded as a whole see a flat memory of their own

Processes are loaded, run and exit in any order, and share the frames and the files.  All pages are
there from the start, so that an access goes through if the flat memory allows it, and otherwise
`page_fault` kills the process.  Kernel code reads and writes user memory for its process, in system
calls; when it faults, the kernel panics.

`load` and `process_exit` are one action each, and no file is written.  The file descriptors that
`process_exit` closes are left to `FileTable`.
-/

namespace Pintos
namespace Project3
namespace UserMemory

open Lib Userprog Function
open Project4 (UserPage Executable filePhdrs oneSegment oneSegment_opens)
open Project4.UserMemory (pagedirDestroy mem_pagedirDestroy)

/-! ## The code -/

section Code

variable {S : Services}

/-- The machine, with the page directory of every process in place of that of the running one. -/
structure System (S : Services) where
  core : Space S
  pagedir : Pid → Word → Option (FramePtr × Bool)
  alive : Pid → Bool

namespace System

def start (files : S.Files) : System S := ⟨.start files, fun _ _ => none, fun _ => false⟩

/-- The machine while `p` is running. -/
def view (σ : System S) (p : Pid) : Space S := { σ.core with pagedir := σ.pagedir p }

def put (σ : System S) (p : Pid) (m : Space S) : System S :=
  ⟨m, update σ.pagedir p m.pagedir, σ.alive⟩

end System

/-- `SEL_UCSEG`, `SEL_KCSEG`, and any other value. -/
inductive CodeSegment
  | user
  | kernel
  | other

/-- `exec` is `start_process` of a new process; an access is made by code of the segment `cs`. -/
inductive Act
  | exec (p : Pid) (name : List Byte)
  | access (p : Pid) (cs : CodeSegment) (acc : AccessKind) (a : Word)
  | exit (p : Pid)

/-- `pagedir_destroy`. -/
def processExit (p : Pid) (σ : System S) : System S :=
  ⟨pagedirDestroy (σ.view p), update σ.pagedir p fun _ => none, update σ.alive p false⟩

def kill (p : Pid) (cs : CodeSegment) (σ : System S) : Option (System S × Option MemEvent) :=
  match cs with
  | .user => some (processExit p σ, some (.stop p))
  | .kernel => none -- PANIC
  | .other => some (processExit p σ, some (.stop p))

def pageFault (p : Pid) (cs : CodeSegment) (σ : System S) : Option (System S × Option MemEvent) :=
  kill p cs σ

/-- The access goes through to the frame. -/
def store (k : FramePtr) (i : ℕ) (b : Byte) (σ : System S) : System S :=
  { σ with core := { σ.core with
      bytes := update σ.core.bytes k (update (σ.core.bytes k) i b) } }

def access (p : Pid) (cs : CodeSegment) (acc : AccessKind) (a : Word) (σ : System S) :
    Option (System S × Option MemEvent) :=
  if isUserVaddr a then
    match σ.pagedir p (pgRoundDown a) with
    | none => pageFault p cs σ
    | some (k, writable) =>
        match acc with
        | .read => some (σ, some (.read p a (σ.core.bytes k (pgOfs a).toNat)))
        | .write b =>
            if writable then some (store k (pgOfs a).toNat b σ, some (.write p a b))
            else pageFault p cs σ
  else
    match cs with
    | .kernel => none -- the memory of the kernel is not part of the model
    | cs => pageFault p cs σ

/-- If `load` has failed, `start_process` calls `thread_exit`. -/
def afterLoad (p : Pid) (opened : Option FilePtr) (r : Except Fault (Space S × Option (Word × Word)))
    (σ : System S) : Option (System S × Option MemEvent) :=
  match r with
  | .error _ => none
  | .ok (m, none) => some (processExit p (σ.put p m), none)
  | .ok (m, some _) =>
      some ({ σ.put p m with alive := update σ.alive p true },
        opened.map fun file => .start p (Project4.Flat.ofFile S file))

/-- One action, with what is seen of it. -/
def run (a : Act) (σ : System S) : Option (System S × Option MemEvent) :=
  match a with
  | .exec p name =>
      if σ.alive p then none
      else afterLoad p (S.filesysOpen σ.core.files name).2 (load name (σ.view p)) σ
  | .access p cs acc a => if σ.alive p then access p cs acc a σ else none
  | .exit p => if σ.alive p then some (processExit p σ, some (.stop p)) else none

def step (a : Act) (σ : System S) : Option (System S) := (run a σ).map Prod.fst

def visible (σ : System S) (a : Act) : Option MemEvent := (run a σ).bind Prod.snd

end Code

/-! ## The page tables of all processes -/

section Tables

variable {S : Services} {σ : System S} {p : Pid} {m : Space S}

def System.tables (σ : System S) : PageTables Pid Word FramePtr Byte :=
  ⟨σ.core.used, σ.core.bytes, σ.pagedir⟩

theorem pagedir_put (σ : System S) (p : Pid) (m : Space S) : (σ.put p m).pagedir p = m.pagedir :=
  update_self ..

theorem put_extends (h : (Project3.tables (σ.view p)).Extends () (Project3.tables m)) :
    PageTables.Extends p σ.tables (σ.put p m).tables := by
  refine h.embed rfl ?_ fun q hq => update_of_ne hq _ _
  show Project3.tables m = ⟨m.used, m.bytes, fun _ => (σ.put p m).pagedir p⟩
  rw [pagedir_put]
  rfl

/-- The frames of a process go back to the pool when it exits. -/
theorem processExit_drops (hpages : ∀ u, σ.pagedir p u ≠ none → UserPage u) :
    PageTables.Drops p σ.tables (processExit p σ).tables := by
  have hspace : ∀ u, (σ.view p).pagedir u ≠ none → UserPage u := hpages
  refine ⟨fun k => mem_pagedirDestroy hspace, fun _ _ => rfl, fun q hq => update_of_ne hq _ _,
    fun u => ?_⟩
  show update σ.pagedir p (fun _ => none) p u = none
  rw [update_self]

/-- What `load` does for a new process. -/
structure Loads (p : Pid) (name : List Byte) (σ : System S) (m : Space S)
    (b : Option (Word × Word)) : Prop where
  frames : PageTables.Extends p σ.tables (σ.put p m).tables
  userPages : ∀ u, m.pagedir u ≠ none → UserPage u
  loaded : ∀ r, b = some r → ∃ file, (S.filesysOpen σ.core.files name).2 = some file ∧
    ShowsFile file m

theorem load_done (name : List Byte)
    (hopen : ∀ s name s' f, S.filesysOpen s name = (s', some f) → S.pos s' f = 0)
    (hdir : σ.pagedir p = fun _ => none) :
    ∃ m b, load name (σ.view p) = .ok (m, b) ∧ Loads p name σ m b := by
  have hview : ({ σ.view p with pagedir := fun _ => none } : Space S) = σ.view p := by
    rw [← hdir]
    rfl
  by_cases hcreate : S.pagedirCreate = false
  · refine ⟨σ.view p, none, ?_, put_extends (.refl _ _), fun u hu => ?_, fun r hr => ?_⟩
    · rw [load, if_pos hcreate]
      rfl
    · exact absurd (congrFun hdir u) hu
    · cases hr
  · rcases hfile : S.filesysOpen σ.core.files name with ⟨files, found⟩
    have hfile' : S.filesysOpen (σ.view p).files name = (files, found) := hfile
    cases found with
    | none =>
        refine ⟨{ σ.view p with files := files }, none, ?_,
          put_extends (.of_keeps rfl (fun _ => rfl) fun _ _ => rfl), fun u hu => ?_, fun r hr => ?_⟩
        · rw [load, if_neg hcreate, hview]
          simp only [Space.filesysOpen, hfile']
          rfl
        · exact absurd (congrFun hdir u) hu
        · cases hr
    | some file =>
        obtain ⟨m, b, hgo, hends⟩ := load_ends hfile' (hopen _ _ _ _ hfile)
          (by simpa using hcreate)
        have hframes := hends.frames
        rw [hview] at hframes
        exact ⟨m, b, hgo, put_extends hframes, hends.userPages, fun r hr =>
          ⟨file, by rw [hfile], (hends.loaded r hr).2.2⟩⟩

end Tables

/-! ## All processes -/

section Valid

variable {S : Services} {σ σ' : System S} {φ φ' : FlatState} {p q : Pid} {f : Flat}
  {e : Option MemEvent} {cs : CodeSegment} {acc : AccessKind} {a : Word}

/-- The frames show the flat memories, every frame belongs to one page of one process, and all pages
of a process are there. -/
structure Valid (σ : System S) (φ : FlatState) : Prop where
  disjoint : σ.tables.Disjoint
  tight : σ.tables.Tight
  shows : σ.tables.Shows PGSIZE (contents φ)
  dead : ∀ p, σ.alive p = false → φ p = none ∧ σ.pagedir p = fun _ => none
  process : ∀ p, σ.alive p = true →
    ∃ f, φ p = some f ∧ ∀ u, (σ.pagedir p u).map Prod.snd = f.writable u
  user : ∀ p u, σ.pagedir p u ≠ none → UserPage u

theorem Valid.start (files : S.Files) : Valid (System.start files) fun _ => none := by
  refine ⟨⟨fun hu => ?_, fun hu => ?_⟩, fun k hk => ?_, fun p u k w hu => ?_,
    fun p _ => ⟨rfl, rfl⟩, fun p hp => ?_, fun p u hu => absurd rfl hu⟩
  · cases hu
  · cases hu
  · cases hk
  · cases hu
  · cases hp

/-- The process `p` has lost everything. -/
theorem Valid.ends (h : Valid σ φ) (halive : ∀ q ≠ p, σ'.alive q = σ.alive q)
    (hp : σ'.alive p = false) (hdrops : PageTables.Drops p σ.tables σ'.tables)
    (hφ : φ' = update φ p none) : Valid σ' φ' := by
  subst hφ
  have hne : ∀ {q}, σ'.alive q = true → q ≠ p := by
    rintro _ hq rfl
    rw [hp] at hq
    cases hq
  have hother : ∀ q ≠ p, σ'.pagedir q = σ.pagedir q := hdrops.other
  refine ⟨h.disjoint.drops hdrops, h.tight.drops hdrops,
    h.shows.drops h.disjoint hdrops fun q hq => contents_update_ne hq, fun q hq => ?_,
    fun q hq => ?_, fun q u hu => ?_⟩
  · by_cases hqp : q = p
    · subst hqp
      exact ⟨update_self .., funext hdrops.gone⟩
    · obtain ⟨hnone, hdir⟩ := h.dead q ((halive q hqp).symm.trans hq)
      exact ⟨(update_of_ne hqp ..).trans hnone, (hother q hqp).trans hdir⟩
  · obtain ⟨f, hf, hw⟩ := h.process q ((halive q (hne hq)).symm.trans hq)
    exact ⟨f, (update_of_ne (hne hq) ..).trans hf, hother q (hne hq) ▸ hw⟩
  · by_cases hqp : q = p
    · subst hqp
      exact absurd (hdrops.gone u) hu
    · exact h.user q u (hother q hqp ▸ hu)

theorem Valid.exit (h : Valid σ φ) (p : Pid) : Valid (processExit p σ) (update φ p none) :=
  h.ends (fun _ hq => update_of_ne hq _ _) (update_self ..) (processExit_drops (h.user p)) rfl

/-- A process that exits is one that runs. -/
theorem Valid.follows_stop (h : Valid σ φ) (hp : σ.alive p = true) :
    Follows flatStep φ (some (.stop p)) (update φ p none) := by
  obtain ⟨f, hf, -⟩ := h.process p hp
  show flatStep (.stop p) φ = _
  simp [flatStep, hf]

theorem Valid.alive_of_some (h : Valid σ φ) (hf : φ p = some f) : σ.alive p = true := by
  by_contra hdead
  rw [(h.dead p (by simpa using hdead)).1] at hf
  cases hf

/-- The page of an access that the flat memory allows is there. -/
theorem Valid.allows_iff (h : Valid σ φ) (hf : φ p = some f) : f.Allows acc a ↔
    isUserVaddr a = true ∧ ∃ k w, σ.pagedir p (pgRoundDown a) = some (k, w) ∧
      ∀ b, acc = .write b → w = true := by
  obtain ⟨f', hf', hw⟩ := h.process p (h.alive_of_some hf)
  obtain rfl : f = f' := Option.some.inj (hf.symm.trans hf')
  refine and_congr_right fun _ => ⟨?_, ?_⟩
  · rintro ⟨w, hpage, hacc⟩
    obtain ⟨⟨k, w'⟩, hdir, rfl⟩ := Option.map_eq_some_iff.1 ((hw _).trans hpage)
    exact ⟨k, w', hdir, hacc⟩
  · rintro ⟨k, w, hdir, hacc⟩
    refine ⟨w, ?_, hacc⟩
    rw [← hw, hdir, Option.map_some]

theorem Valid.store (h : Valid σ φ) (hf : φ p = some f) {u : Word} {k : FramePtr} {w : Bool}
    (hu : σ.pagedir p u = some (k, w)) (i : ℕ) (b : Byte) :
    Valid (store k i b σ) (update φ p (some (f.write u i b))) := by
  have halive : σ.alive p = true := h.alive_of_some hf
  refine ⟨h.disjoint.write k i b, h.tight.write k i b, ?_, fun q hq => ?_, fun q hq => ?_, h.user⟩
  · rw [contents_write hf]
    exact h.shows.write h.disjoint hu i b
  · have hne : q ≠ p := by
      rintro rfl
      exact absurd (halive.symm.trans hq) (by simp)
    obtain ⟨hnone, hdir⟩ := h.dead q hq
    exact ⟨(update_of_ne hne ..).trans hnone, hdir⟩
  · obtain ⟨f', hf', hw⟩ := h.process q hq
    by_cases hqp : q = p
    · subst hqp
      obtain rfl : f = f' := Option.some.inj (hf.symm.trans hf')
      exact ⟨_, update_self .., hw⟩
    · exact ⟨f', (update_of_ne hqp ..).trans hf', hw⟩

/-- A new process has been loaded. -/
theorem Valid.starts {name : List Byte} {m : Space S} {r : Word × Word} {file : FilePtr}
    (h : Valid σ φ) (hp : σ.alive p = false) (hloads : Loads p name σ m (some r))
    (hshows : ShowsFile file m) :
    Valid { σ.put p m with alive := update σ.alive p true }
      (update φ p (some (Project4.Flat.ofFile S file))) := by
  let σ' : System S := { σ.put p m with alive := update σ.alive p true }
  have hext : PageTables.Extends p σ.tables σ'.tables := hloads.frames
  have hdir : σ'.pagedir p = m.pagedir := pagedir_put σ p m
  obtain ⟨-, hnone⟩ := h.dead p hp
  have hcontents : contents (update φ p (some (Project4.Flat.ofFile S file))) p =
      (Project4.Flat.ofFile S file).byte := contents_of_some (update_self ..)
  have hother : ∀ q ≠ p, σ'.pagedir q = σ.pagedir q := fun q hq => update_of_ne hq _ _
  have halive : ∀ q ≠ p, σ'.alive q = σ.alive q := fun q hq => update_of_ne hq _ _
  refine ⟨h.disjoint.extends hext, h.tight.extends hext, h.shows.extends h.disjoint hext
    (fun q v hv i _ => ?_) (fun {u k w} _ hsome i hi => ?_), fun q hq => ?_, fun q hq => ?_,
    fun q u hu => ?_⟩
  · have hqp : q ≠ p := by
      rintro rfl
      exact hv (congrFun hnone v)
    rw [contents_update_ne hqp]
  · rw [hcontents]
    have hsome' : m.pagedir u = some (k, w) := hdir ▸ hsome
    exact hshows.bytes u k w hsome' i hi
  · have hqp : q ≠ p := by
      rintro rfl
      rw [show σ'.alive q = true from update_self ..] at hq
      cases hq
    obtain ⟨hφ, hgone⟩ := h.dead q ((halive q hqp).symm.trans hq)
    exact ⟨(update_of_ne hqp ..).trans hφ, (hother q hqp).trans hgone⟩
  · by_cases hqp : q = p
    · subst hqp
      refine ⟨_, update_self .., fun u => ?_⟩
      rw [hdir]
      exact hshows.mapped u
    · obtain ⟨f, hf, hw⟩ := h.process q ((halive q hqp).symm.trans hq)
      exact ⟨f, (update_of_ne hqp ..).trans hf, hother q hqp ▸ hw⟩
  · by_cases hqp : q = p
    · subst hqp
      rw [hdir] at hu
      exact hloads.userPages u hu
    · exact h.user q u (hother q hqp ▸ hu)

end Valid

/-! ## The steps -/

section Steps

variable {S : Services} {σ σ' : System S} {φ : FlatState} {p : Pid} {f : Flat}
  {e : Option MemEvent} {cs : CodeSegment} {acc : AccessKind} {a : Word}

theorem Valid.fault (h : Valid σ φ) (hp : σ.alive p = true)
    (hgo : pageFault p cs σ = some (σ', e)) : ∃ φ', Follows flatStep φ e φ' ∧ Valid σ' φ' := by
  cases cs with
  | user | other =>
      cases hgo
      exact ⟨update φ p none, h.follows_stop hp, h.exit p⟩
  | kernel =>
      cases hgo

theorem Valid.access (h : Valid σ φ) (hp : σ.alive p = true)
    (hgo : access p cs acc a σ = some (σ', e)) : ∃ φ', Follows flatStep φ e φ' ∧ Valid σ' φ' := by
  unfold UserMemory.access at hgo
  split at hgo
  · split at hgo
    · exact h.fault hp hgo
    · next k w hu =>
        obtain ⟨f, hf, hpages⟩ := h.process p hp
        have hw : f.writable (pgRoundDown a) = some w := by
          rw [← hpages, hu, Option.map_some]
        have hofs : (pgOfs a).toNat < PGSIZE := by
          rw [toNat_pgOfs]
          exact Nat.mod_lt _ (by decide)
        cases acc with
        | read =>
            cases hgo
            have hbyte := h.shows p (pgRoundDown a) k w hu _ hofs
            rw [contents_of_some hf] at hbyte
            refine ⟨φ, ?_, h⟩
            show flatStep (.read p a _) φ = some φ
            simp only [flatStep, hf, hw, Option.isSome_some]
            exact if_pos ⟨trivial, hbyte.symm⟩
        | write b =>
            dsimp only at hgo
            split at hgo
            · next hwritable =>
                cases hgo
                refine ⟨_, ?_, h.store hf hu _ b⟩
                show flatStep (.write p a b) φ = _
                rw [hwritable] at hw
                simp only [flatStep, hf, hw, if_true]
            · exact h.fault hp hgo
  · split at hgo
    · cases hgo
    · exact h.fault hp hgo

theorem Valid.exec (h : Valid σ φ)
    (hopen : ∀ s name s' f, S.filesysOpen s name = (s', some f) → S.pos s' f = 0) {name : List Byte}
    (hp : σ.alive p = false)
    (hgo : afterLoad p (S.filesysOpen σ.core.files name).2 (load name (σ.view p)) σ =
      some (σ', e)) :
    ∃ φ', Follows flatStep φ e φ' ∧ Valid σ' φ' := by
  obtain ⟨hφ, hdir⟩ := h.dead p hp
  obtain ⟨m, b, hload, hloads⟩ := load_done name hopen hdir
  rw [hload] at hgo
  cases b with
  | none =>
      cases hgo
      have huser : ∀ u, (σ.put p m).pagedir p u ≠ none → UserPage u := by
        rw [pagedir_put]
        exact hloads.userPages
      refine ⟨φ, rfl, h.ends (fun q hq => update_of_ne hq _ _) (update_self ..)
        (hloads.frames.drops (processExit_drops huser)) ?_⟩
      rw [← hφ, update_eq_self]
  | some r =>
      obtain ⟨file, hfile, hshows⟩ := hloads.loaded r rfl
      rw [hfile] at hgo
      cases hgo
      refine ⟨_, ?_, h.starts hp hloads hshows⟩
      show flatStep (.start p _) φ = _
      simp [flatStep, hφ]

theorem simulates
    (hopen : ∀ s name s' f, S.filesysOpen s name = (s', some f) → S.pos s' f = 0) :
    Simulates step (fun (_ : System S) _ => True) visible flatStep Valid := by
  intro σ a σ' φ h _ hs
  obtain ⟨⟨σ₁, e⟩, hgo, rfl⟩ := Option.map_eq_some_iff.1 hs
  have hvisible : visible σ a = e := by
    rw [visible, hgo]
    rfl
  rw [hvisible]
  cases a with
  | exec p name =>
      simp only [run] at hgo
      split at hgo
      · cases hgo
      · next hp => exact h.exec hopen (by simpa using hp) hgo
  | access p cs acc a =>
      simp only [run] at hgo
      split at hgo
      · next hp => exact h.access hp hgo
      · cases hgo
  | exit p =>
      simp only [run] at hgo
      split at hgo
      · next hp =>
          cases hgo
          exact ⟨update φ p none, h.follows_stop hp, h.exit p⟩
      · cases hgo

theorem Valid.of_exec
    (hopen : ∀ s name s' f, S.filesysOpen s name = (s', some f) → S.pos s' f = 0)
    {files : S.Files} {tr : List (System S × Act)} (hrun : Exec step (System.start files) tr σ) :
    ∃ φ, runAll flatStep (events visible tr) (fun _ => none) = some φ ∧ Valid σ φ :=
  (simulates hopen).run (.start files) hrun fun _ _ => trivial

/-- An access that is allowed goes through. -/
theorem Valid.visible_of_allows (h : Valid σ φ) (hf : φ p = some f) (hacc : f.Allows acc a) :
    visible σ (.access p cs acc a) = some (f.respond p acc a) := by
  have hp := h.alive_of_some hf
  obtain ⟨ha, k, w, hu, hw⟩ := (h.allows_iff hf).1 hacc
  have hofs : (pgOfs a).toNat < PGSIZE := by
    rw [toNat_pgOfs]
    exact Nat.mod_lt _ (by decide)
  have hbyte := h.shows p (pgRoundDown a) k w hu _ hofs
  rw [contents_of_some hf] at hbyte
  simp only [visible, run, hp, if_true, UserMemory.access, ha, hu]
  cases acc with
  | read =>
      show some (MemEvent.read p a (σ.core.bytes k (pgOfs a).toNat)) = _
      rw [show σ.core.bytes k (pgOfs a).toNat = _ from hbyte]
      rfl
  | write b =>
      simp only [hw b rfl, if_true]
      rfl

/-- Any other access of user code ends the process. -/
theorem Valid.visible_of_not_allows (h : Valid σ φ) (hf : φ p = some f) (hacc : ¬ f.Allows acc a)
    (hcs : cs ≠ .kernel) : visible σ (.access p cs acc a) = some (.stop p) := by
  have hp := h.alive_of_some hf
  have hfault : pageFault p cs σ = some (processExit p σ, some (.stop p)) := by
    cases cs with
    | user | other =>
        rfl
    | kernel =>
        exact absurd rfl hcs
  rw [h.allows_iff hf] at hacc
  simp only [visible, run, hp, if_true, UserMemory.access]
  split
  · next ha =>
      split
      · rw [hfault]
        rfl
      · next k w hu =>
          cases acc with
          | read =>
              exact absurd ⟨ha, k, w, hu, fun b hb => by cases hb⟩ hacc
          | write b =>
              have hw : w ≠ true := fun hw => hacc ⟨ha, k, w, hu, fun _ _ => hw⟩
              simp only [hw, Bool.false_eq_true, if_false, hfault]
              rfl
  · rw [hfault]
    rfl

end Steps

/-! ## The properties -/

section Properties

variable {S : Services} {σ : System S} {files : S.Files} {tr : List (System S × Act)}

/-- Whatever the order in which processes are loaded, access memory and exit, what they see is a run
of processes with flat memories of their own.  Every access that these allow goes through, and every
other access of user code ends the process. -/
theorem eager_memory_is_flat
    (hopen : ∀ s name s' f, S.filesysOpen s name = (s', some f) → S.pos s' f = 0)
    (hrun : Exec step (System.start files) tr σ) :
    ∃ φ, runAll flatStep (events visible tr) (fun _ => none) = some φ ∧
      (∀ p, φ p ≠ none ↔ σ.alive p = true) ∧
      ∀ p f, φ p = some f → ∀ cs acc a,
        (f.Allows acc a → visible σ (.access p cs acc a) = some (f.respond p acc a)) ∧
        (¬ f.Allows acc a → cs ≠ .kernel → visible σ (.access p cs acc a) = some (.stop p)) := by
  obtain ⟨φ, hgo, h⟩ := Valid.of_exec hopen hrun
  refine ⟨φ, hgo, fun p => ⟨fun hne => ?_, fun hp => ?_⟩, fun p f hf cs acc a =>
    ⟨h.visible_of_allows hf, h.visible_of_not_allows hf⟩⟩
  · obtain ⟨f, hf⟩ := Option.ne_none_iff_exists'.1 hne
    exact h.alive_of_some hf
  · obtain ⟨f, hf, -⟩ := h.process p hp
    simp [hf]

/-- A frame is taken exactly if it is mapped, at one page of one process, and what is mapped are
pages of user memory of the processes that run. -/
theorem eager_frames_accounted
    (hopen : ∀ s name s' f, S.filesysOpen s name = (s', some f) → S.pos s' f = 0)
    (hrun : Exec step (System.start files) tr σ) :
    (∀ k, k ∈ σ.core.used ↔ ∃ p u w, σ.pagedir p u = some (k, w)) ∧
      (∀ p q u v k w w', σ.pagedir p u = some (k, w) → σ.pagedir q v = some (k, w') →
        p = q ∧ u = v) ∧
      ∀ p u, σ.pagedir p u ≠ none → σ.alive p = true ∧ UserPage u := by
  obtain ⟨φ, -, h⟩ := Valid.of_exec hopen hrun
  refine ⟨fun k => ⟨h.tight k, ?_⟩, fun p q u v k w w' hu hv => h.disjoint.inj hu hv,
    fun p u hu => ⟨?_, h.user p u hu⟩⟩
  · rintro ⟨p, u, w, hu⟩
    exact h.disjoint.used hu
  · by_contra hdead
    exact hu (congrFun (h.dead p (by simpa using hdead)).2 u)

end Properties

/-! ### Two processes of the same executable -/

section TwoProcesses

def twoStart : System oneSegment := .start fun _ => 0

/-- Both read the same byte; the second one is then killed for writing to its text. -/
def twoActs : List Act :=
  [.exec 1 [0x61], .exec 2 [0x61], .access 1 .user .read 0x08048001,
    .access 2 .user .read 0x08048001, .access 2 .user (.write 0) 0x08048001]

def twoEnd : System oneSegment := (runAll step twoActs twoStart).get (by decide +kernel)

theorem twoExec : Exec step twoStart (trace step twoActs twoStart) twoEnd :=
  Exec.of_runAll (Option.some_get _).symm

theorem eager_memory_is_flat_two :
    ∃ φ, runAll flatStep (events visible (trace step twoActs twoStart)) (fun _ => none) = some φ ∧
      (∀ p, φ p ≠ none ↔ twoEnd.alive p = true) ∧
      ∀ p f, φ p = some f → ∀ cs acc a,
        (f.Allows acc a → visible twoEnd (.access p cs acc a) = some (f.respond p acc a)) ∧
        (¬ f.Allows acc a → cs ≠ .kernel →
          visible twoEnd (.access p cs acc a) = some (.stop p)) :=
  eager_memory_is_flat oneSegment_opens twoExec

theorem eager_frames_accounted_two :
    (∀ k, k ∈ twoEnd.core.used ↔ ∃ p u w, twoEnd.pagedir p u = some (k, w)) ∧
      (∀ p q u v k w w', twoEnd.pagedir p u = some (k, w) → twoEnd.pagedir q v = some (k, w') →
        p = q ∧ u = v) ∧
      ∀ p u, twoEnd.pagedir p u ≠ none → twoEnd.alive p = true ∧ UserPage u :=
  eager_frames_accounted oneSegment_opens twoExec

end TwoProcesses

end UserMemory
end Project3
end Pintos
