import Mathlib.Algebra.Order.Group.Unbundled.Int
import Mathlib.Data.List.Perm.Basic
import Pintos.Lib.Execution
import Pintos.Userprog.Memory

/-!
# FileTable — the descriptors of a process (`fdt` and `fdt_can_use`)

`thread_create` fills the table of the new process, `open` and `close` change it, and `process_exit`
walks down from `fdt_can_use`.  A use of the table outside its 128 words stops the model.
-/

namespace Pintos
namespace Project3

open Userprog Function Lib

/-! ## The calls on the table -/

/-- Something outside `fdt` is used, or a loop has run out of fuel. -/
inductive FdFault
  | outside (i : ℤ)
  | endless
  deriving DecidableEq

/-- The table, and what `filesys_open` has returned and what `file_close` has been given so far.
`file_close` of a null pointer does nothing and is left out. -/
structure Process where
  fdt : Fin 128 → Option FilePtr
  fdtCanUse : ℤ
  opened : List FilePtr
  closed : List FilePtr

namespace Process

variable (p : Process)

/-- `fdt[i]` -/
def slot (i : ℤ) : Except FdFault (Option FilePtr) :=
  if h : 0 ≤ i ∧ i < 128 then .ok (p.fdt ⟨i.toNat, by omega⟩) else .error (.outside i)

/-- `fdt[i] = file` -/
def setSlot (i : ℤ) (file : Option FilePtr) : Except FdFault Process :=
  if h : 0 ≤ i ∧ i < 128 then .ok { p with fdt := update p.fdt ⟨i.toNat, by omega⟩ file }
  else .error (.outside i)

def fileClose (file : Option FilePtr) : Process := { p with closed := p.closed ++ file.toList }

end Process

/-- `thread_create`, after the `memset` of `init_thread`: `*(t->fdt)` is what `malloc` returns, and
the 2 goes to a local variable `fdt_can_use`. -/
def created (block : Option FilePtr) : Process where
  fdt := update (fun _ => none) 0 block
  fdtCanUse := 0
  opened := []
  closed := []

/-- `sizeof (thread_current()->fdt)` -/
def fdtSize : ℤ := 512

/-- The loop of `open`, with fuel. -/
def openLoop : ℕ → Process → FilePtr → Except FdFault (Process × ℤ)
  | 0, _, _ => .error .endless
  | n + 1, p, tmp =>
      if 2 < p.fdtCanUse ∧ p.fdtCanUse ≤ fdtSize then do
        let old ← p.slot p.fdtCanUse
        if old = none then do
          let p' ← p.setSlot p.fdtCanUse (some tmp)
          pure (p', p.fdtCanUse)
        else openLoop n { p with fdtCanUse := p.fdtCanUse + 1 } tmp
      else
        -- `return NULL`
        pure (p, 0)

/-- `file` is what `filesys_open` returns. -/
def openFile (file : Option FilePtr) (p : Process) : Except FdFault (Process × ℤ) :=
  match file with
  | none => pure (p, -1)
  | some tmp => openLoop 512 { p with opened := p.opened ++ [tmp] } tmp

def closeFd (fd : ℤ) (p : Process) : Except FdFault Process := do
  let tmp ← p.slot fd
  let p' ← (p.fileClose tmp).setSlot fd none
  pure { p' with fdtCanUse := p'.fdtCanUse - 1 }

/-- The loop of `process_exit`, with fuel. -/
def exitLoop : ℕ → Process → Except FdFault Process
  | 0, _ => .error .endless
  | n + 1, p =>
      if 2 ≤ p.fdtCanUse then do
        let file ← p.slot p.fdtCanUse
        exitLoop n { p.fileClose file with fdtCanUse := p.fdtCanUse - 1 }
      else pure p

def processExit (p : Process) : Except FdFault Process := exitLoop (p.fdtCanUse.toNat + 1) p

/-! ## Sessions -/

inductive FdCall
  | open (file : Option FilePtr)
  | close (fd : ℤ)
  deriving DecidableEq

/-- The call, with the value that it returns. -/
def FdCall.execute (p : Process) : FdCall → Except FdFault (Process × ℤ)
  | .open file => openFile file p
  | .close fd => do
      let p' ← closeFd fd p
      pure (p', 0)

/-- A process between two calls.  `given` are the descriptors that it has got from `open` and not
closed since, with their files. -/
structure Session where
  proc : Except FdFault Process
  given : ℤ → Option FilePtr

/-- What the process holds after the call has returned `v`. -/
def FdCall.grant (v : ℤ) (given : ℤ → Option FilePtr) : FdCall → ℤ → Option FilePtr
  | .open none => given
  | .open (some file) => if v = -1 then given else update given v (some file)
  | .close fd => update given fd none

/-- A process closes only descriptors that it was given. -/
def FdCall.Admitted (given : ℤ → Option FilePtr) : FdCall → Prop
  | .open _ => True
  | .close fd => given fd ≠ none

instance instDecidableAdmitted (given : ℤ → Option FilePtr) (c : FdCall) :
    Decidable (c.Admitted given) :=
  match c with
  | .open _ => inferInstanceAs (Decidable True)
  | .close fd => inferInstanceAs (Decidable (given fd ≠ none))

def sessionStep (c : FdCall) (s : Session) : Option Session :=
  match s.proc with
  | .error _ => none
  | .ok p =>
      if c.Admitted s.given then
        some <| match c.execute p with
          | .error e => ⟨.error e, s.given⟩
          | .ok (p', v) => ⟨.ok p', c.grant v s.given⟩
      else none

/-- The process as `thread_create` leaves it. -/
def newSession (block : Option FilePtr) : Session := ⟨.ok (created block), fun _ => none⟩

/-! ## The law of the descriptors -/

/-- `open` of an existing file finds a free slot from 2 on, or the table is full. -/
def OpensFree (p : Process) (file : FilePtr) : Prop :=
  ∃ p' v, openFile (some file) p = .ok (p', v) ∧
    ((∃ i : Fin 128, v = i ∧ 2 ≤ i.val ∧ p.fdt i = none ∧ p'.fdt = update p.fdt i (some file)) ∨
      (v = -1 ∧ p'.fdt = p.fdt ∧ ∀ i : Fin 128, 2 ≤ i.val → p.fdt i ≠ none))

/-- `process_exit` passes the files that are still open to `file_close`, each once. -/
def ExitCloses (p : Process) : Prop :=
  ∃ p' files, processExit p = .ok p' ∧ p'.closed = p.closed ++ files ∧
    files.Perm (p.opened.diff p.closed)

/-- What the calls of a session and the `exit` that ends it should do. -/
structure FdLaw (tr : List (Session × FdCall)) (s : Session) : Prop where
  opens : ∀ e ∈ tr, ∀ p file, e.1.proc = .ok p → e.2 = .open (some file) → OpensFree p file
  denotes : ∀ t, t = s ∨ t ∈ tr.map Prod.fst → ∀ p fd file, t.proc = .ok p →
    t.given fd = some file → p.slot fd = .ok (some file)
  exits : ∃ p, s.proc = .ok p ∧ ExitCloses p

/-! ## The cursor never gets above 2 -/

section Cursor

variable {p p' : Process} {s s' : Session} {c : FdCall} {file : FilePtr} {v : ℤ}
  {block : Option FilePtr} {tr : List (Session × FdCall)}

theorem openLoop_low (n : ℕ) (h : p.fdtCanUse ≤ 2) : openLoop (n + 1) p file = .ok (p, 0) :=
  if_neg fun hloop => absurd hloop.1 (not_lt.2 h)

theorem openFile_low (h : p.fdtCanUse ≤ 2) :
    openFile (some file) p = .ok ({ p with opened := p.opened ++ [file] }, 0) :=
  openLoop_low 511 h

/-- Below the loop's condition `open` returns `NULL` for an existing file, and loses it. -/
theorem not_opensFree (h : p.fdtCanUse ≤ 2) : ¬ OpensFree p file := by
  rintro ⟨p', v, hopen, hfree | hfull⟩
  · rw [openFile_low h] at hopen
    cases hopen
    -- the descriptor 0 is below the first slot
    obtain ⟨i, hi, htwo, -⟩ := hfree
    omega
  · rw [openFile_low h] at hopen
    cases hopen
    -- a full table would be answered by -1
    exact absurd hfull.1 (by decide)

/-- The only descriptor that a process ever gets is 0. -/
structure Session.Low (s : Session) (p : Process) : Prop where
  proc : s.proc = .ok p
  cursor : p.fdtCanUse ≤ 0
  given : ∀ fd, s.given fd ≠ none → fd = 0

theorem newSession_low : (newSession block).Low (created block) :=
  ⟨rfl, le_rfl, fun _ h => absurd rfl h⟩

theorem Session.Low.step (h : s.Low p) (hs : sessionStep c s = some s') : ∃ p', s'.Low p' := by
  obtain ⟨hproc, hcursor, hgiven⟩ := h
  simp only [sessionStep, hproc] at hs
  split at hs
  · rename_i hadm
    cases c with
    | «open» found =>
        cases found with
        | none =>
            cases hs
            exact ⟨p, rfl, hcursor, hgiven⟩
        | some file =>
            have htwo : p.fdtCanUse ≤ 2 := hcursor.trans (by decide)
            simp only [FdCall.execute, openFile_low htwo] at hs
            cases hs
            refine ⟨_, rfl, hcursor, ?_⟩
            intro fd hfd
            by_contra hne
            -- every descriptor but 0 is what it was
            have hold : update s.given 0 (some file) fd = s.given fd := update_of_ne hne _ _
            exact hne (hgiven fd fun hnone => hfd (hold.trans hnone))
    | close fd =>
        -- 0 is the one that can be closed, and the cursor goes down
        obtain rfl : fd = 0 := hgiven fd hadm
        cases hs
        refine ⟨_, rfl, ?_, ?_⟩
        · exact (Int.sub_le_self _ (by decide)).trans hcursor
        · intro fd hfd
          by_contra hne
          have hold : update s.given 0 none fd = s.given fd := update_of_ne hne _ _
          exact hne (hgiven fd fun hnone => hfd (hold.trans hnone))
  · cases hs

/-- Whatever the process opens and closes, its table is used at index 0 only, and `exit` closes
nothing. -/
theorem session_low (h : Exec sessionStep (newSession block) tr s) :
    (∀ e ∈ tr, ∃ p, e.1.Low p) ∧ ∃ p, s.Low p := by
  have hkeep : ∀ (s : Session) (c : FdCall) (s' : Session), (∃ p, s.Low p) → True →
      sessionStep c s = some s' → ∃ p, s'.Low p := by
    rintro s c s' ⟨p, hp⟩ - hs
    exact hp.step hs
  exact h.invariant (P := fun _ _ => True) ⟨_, newSession_low⟩ hkeep fun _ _ => trivial

end Cursor

/-! ## Which sessions obey the law -/

/-- `filesys_open` returns `NULL`. -/
def FindsNothing : FdCall → Prop
  | .open (some _) => False
  | .open none => True
  | .close _ => True

instance instDecidableFindsNothing : (c : FdCall) → Decidable (FindsNothing c)
  | .open (some _) => inferInstanceAs (Decidable False)
  | .open none => inferInstanceAs (Decidable True)
  | .close _ => inferInstanceAs (Decidable True)

section Law

variable {s s' : Session} {c : FdCall} {block : Option FilePtr} {tr : List (Session × FdCall)}

/-- A session without a file stays as it was. -/
theorem step_findsNothing (hc : FindsNothing c) (hs : sessionStep c (newSession block) = some s') :
    s' = newSession block := by
  cases c with
  | «open» found =>
      cases found with
      | none =>
          cases hs
          rfl
      | some file =>
          exact False.elim hc
  | close fd =>
      cases hs

theorem newSession_findsNothing (h : Exec sessionStep (newSession block) tr s)
    (hnone : ∀ e ∈ tr, FindsNothing e.2) :
    (∀ e ∈ tr, e.1 = newSession block) ∧ s = newSession block := by
  have hkeep : ∀ (s : Session) (c : FdCall) (s' : Session), s = newSession block →
      FindsNothing c → sessionStep c s = some s' → s' = newSession block := by
    rintro s c s' rfl hc hs
    exact step_findsNothing hc hs
  exact @Exec.invariant _ _ _ (fun _ c => FindsNothing c) _ _ (fun s => s = newSession block) rfl
    hkeep _ h hnone

theorem exitCloses_created : ExitCloses (created block) :=
  ⟨created block, [], rfl, rfl, List.Perm.refl _⟩

/-- The calls of a process on its descriptors do what they should exactly when no `open` finds its
file. -/
theorem fd_law_iff (block : Option FilePtr) (tr : List (Session × FdCall)) (s : Session)
    (h : Exec sessionStep (newSession block) tr s) :
    FdLaw tr s ↔ ∀ e ∈ tr, FindsNothing e.2 := by
  constructor
  · intro hlaw e he
    obtain ⟨p, hproc, hcursor, -⟩ := (session_low h).1 e he
    cases hc : e.2 with
    | «open» found =>
        cases found with
        | none =>
            trivial
        | some file =>
            -- an existing file is not given a free slot, whatever came before
            have htwo : p.fdtCanUse ≤ 2 := hcursor.trans (by decide)
            exact not_opensFree htwo (hlaw.opens e he p file hproc hc)
    | close fd =>
        trivial
  · intro hnone
    -- the process has never got a descriptor and is as it was created
    obtain ⟨hstates, rfl⟩ := newSession_findsNothing h hnone
    refine ⟨?_, ?_, created block, rfl, exitCloses_created⟩
    · intro e he p file _ hc
      have hfinds := hnone e he
      rw [hc] at hfinds
      exact False.elim hfinds
    · intro t ht p fd file _ hgiven
      have hnew : t = newSession block := by
        rcases ht with rfl | ht
        · rfl
        · obtain ⟨e, he, rfl⟩ := List.mem_map.1 ht
          exact hstates e he
      rw [hnew] at hgiven
      cases hgiven

/-- A process asks three times for files that do not exist. -/
def missingCalls : List FdCall := [.open none, .open none, .open none]

theorem fd_law_missing :
    FdLaw (trace sessionStep missingCalls (newSession (some 1)))
      ((runAll sessionStep missingCalls (newSession (some 1))).get rfl) :=
  (fd_law_iff (some 1) _ _ (Exec.of_runAll (Option.some_get _).symm)).2 (by decide)

/-- The first existing file gets the descriptor 0, which denotes the block from `malloc`. -/
theorem fd_law_first_file :
    ¬ FdLaw (trace sessionStep [.open (some 7)] (newSession (some 1)))
      ((runAll sessionStep [.open (some 7)] (newSession (some 1))).get rfl) := by
  intro hlaw
  exact not_opensFree (p := created (some 1)) (by decide)
    (hlaw.opens (newSession (some 1), .open (some 7)) (List.mem_cons_self ..) _ 7 rfl rfl)

end Law

end Project3
end Pintos
