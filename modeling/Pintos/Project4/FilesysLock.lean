import Pintos.Lib.Execution
import Pintos.Project4.Syscall

/-!
# FilesysLock — is `filesys_lock` released on every path?

`exit` does not return and releases nothing, so a call that takes it between `lock_acquire` and
`lock_release` keeps the lock for good.  `write` releases it first when the slot of its descriptor is
empty, `read` does not.
-/

namespace Pintos
namespace Project4

open Lib Userprog Function

/-! ## What the calls leave alone -/

section Frame

variable {cur : Tid} {σ : Files}

/-- Closing files only changes the table of the process and the list of closed files. -/
structure OnlyCloses (cur : Tid) (σ σ' : Files) : Prop where
  other : ∀ t ≠ cur, σ'.proc t = σ.proc t
  alive : (σ'.proc cur).alive = (σ.proc cur).alive
  pending : (σ'.proc cur).pending = (σ.proc cur).pending
  lock : σ'.filesysLock = σ.filesysLock
  opened : σ'.opened = σ.opened

theorem OnlyCloses.refl : OnlyCloses cur σ σ := ⟨fun _ _ => rfl, rfl, rfl, rfl, rfl⟩

theorem OnlyCloses.trans {σ₁ σ₂ : Files} (h : OnlyCloses cur σ σ₁) (h' : OnlyCloses cur σ₁ σ₂) :
    OnlyCloses cur σ σ₂ :=
  ⟨fun t ht => (h'.other t ht).trans (h.other t ht), h'.alive.trans h.alive,
    h'.pending.trans h.pending, h'.lock.trans h.lock, h'.opened.trans h.opened⟩

theorem modify_only {f : Process → Process} (halive : ∀ p, (f p).alive = p.alive)
    (hpending : ∀ p, (f p).pending = p.pending) : OnlyCloses cur σ (σ.modify cur f) :=
  ⟨fun t ht => σ.modify_of_ne cur t f ht, by simp [halive], by simp [hpending], rfl, rfl⟩

theorem closeSlot_only (i : ℤ) : OnlyCloses cur σ (closeSlot cur i σ) := by
  unfold closeSlot
  split
  · exact OnlyCloses.refl
  · next fp _ =>
      have hset : OnlyCloses cur σ (σ.setFd cur i none) :=
        modify_only (fun _ => rfl) fun _ => rfl
      exact ⟨hset.other, hset.alive, hset.pending, hset.lock, hset.opened⟩

theorem closeAll_only : ∀ {σ : Files}, OnlyCloses cur σ (closeAll cur σ) := by
  unfold closeAll
  induction fdRange with
  | nil =>
      intro σ
      exact OnlyCloses.refl
  | cons i is ih =>
      intro σ
      exact (closeSlot_only i).trans ih

/-- What `exit` has closed when it comes to `thread_exit`. -/
theorem exit_only (cur : Tid) (σ : Files) (s : ℤ) : ∃ σ', OnlyCloses cur σ σ' ∧
    exit cur s σ = σ'.modify cur fun p => { p with alive := false, pending := none } := by
  have hstatus : OnlyCloses cur σ (σ.modify cur fun p => { p with exitStatus := s }) :=
    modify_only (fun _ => rfl) fun _ => rfl
  exact ⟨_, hstatus.trans closeAll_only, rfl⟩

@[simp] theorem exit_lock (s : ℤ) : (exit cur s σ).filesysLock = σ.filesysLock := by
  obtain ⟨σ', honly, hexit⟩ := exit_only cur σ s
  rw [hexit, Files.modify_filesysLock, honly.lock]

@[simp] theorem exit_opened (s : ℤ) : (exit cur s σ).opened = σ.opened := by
  obtain ⟨σ', honly, hexit⟩ := exit_only cur σ s
  rw [hexit, Files.modify_opened, honly.opened]

theorem exit_other {t : Tid} (ht : t ≠ cur) (s : ℤ) : (exit cur s σ).proc t = σ.proc t := by
  obtain ⟨σ', honly, hexit⟩ := exit_only cur σ s
  rw [hexit, Files.modify_of_ne _ _ _ _ ht, honly.other t ht]

@[simp] theorem exit_alive (s : ℤ) : ((exit cur s σ).proc cur).alive = false := by
  simp [exit]

@[simp] theorem exit_pending (s : ℤ) : ((exit cur s σ).proc cur).pending = none := by
  simp [exit]

/-- The lock and the other processes are as before, and the process is where it was unless it has
ended. -/
structure LeavesLockAlone (cur : Tid) (σ σ' : Files) : Prop where
  lock : σ'.filesysLock = σ.filesysLock
  other : ∀ t ≠ cur, σ'.proc t = σ.proc t
  cur : (σ'.proc cur).pending = none ∨
    (σ'.proc cur).pending = (σ.proc cur).pending ∧ (σ'.proc cur).alive = (σ.proc cur).alive

theorem exit_alone (s : ℤ) : LeavesLockAlone cur σ (exit cur s σ) :=
  ⟨exit_lock s, fun _ ht => exit_other ht s, Or.inl (exit_pending s)⟩

theorem OnlyCloses.alone {σ' : Files} (h : OnlyCloses cur σ σ') : LeavesLockAlone cur σ σ' :=
  ⟨h.lock, h.other, Or.inr ⟨h.pending, h.alive⟩⟩

/-- A call that ends the process under a condition and otherwise only closes. -/
theorem ite_alone {c : Prop} [Decidable c] {r : Files × Outcome} (h : OnlyCloses cur σ r.1) :
    LeavesLockAlone cur σ (if c then exitCall cur σ else r).1 := by
  split
  · exact exit_alone (-1)
  · exact h.alone

/-- The calls that do not lock leave the lock and the other processes alone. -/
theorem run_alone (c : Call) (ans : Answers) : LeavesLockAlone cur σ (run cur c ans σ).1 := by
  cases c with
  | exit status =>
      exact exit_alone status
  | create file | remove file | filesize fd | seek fd | tell fd =>
      exact ite_alone OnlyCloses.refl
  | «open» file =>
      exact exit_alone (-1)
  | close fd =>
      exact ite_alone (closeSlot_only fd)
  | read fd buffer size | write fd size =>
      exact OnlyCloses.refl.alone

end Frame

/-! ## The property and its condition -/

/-- Whoever holds `filesys_lock` is alive and in the middle of a call that has acquired it. -/
def Files.LockKept (σ : Files) : Prop :=
  ∀ t, σ.filesysLock = some t → (σ.proc t).alive = true ∧ (σ.proc t).pending ≠ none

/-- `read` finds the slot of its descriptor empty. -/
def ReadsEmptySlot (σ : Files) (t : Tid) : Call → Prop
  | .read fd _ _ => fd > 2 ∧ σ.fd t fd = none
  | _ => False

instance instDecidableReadsEmptySlot (σ : Files) (t : Tid) (c : Call) :
    Decidable (ReadsEmptySlot σ t c) := by
  unfold ReadsEmptySlot
  split <;> infer_instance

/-- An access to user memory that the call makes with the lock held faults and ends the process. -/
def FaultsLocked (σ : Files) (t : Tid) (ans : Answers) : Call → Prop
  | .read fd _ _ => (fd = 0 ∨ fd > 2) ∧ ans.faults = true
  | .write fd _ => (fd = 1 ∨ fd > 2 ∧ σ.fd t fd ≠ none) ∧ ans.faults = true
  | .open _ => ans.faults = true ∨
      ans.file ≠ none ∧ freeSlot σ t ≠ none ∧ ans.nameFaults = true
  | _ => False

instance instDecidableFaultsLocked (σ : Files) (t : Tid) (ans : Answers) (c : Call) :
    Decidable (FaultsLocked σ t ans c) := by
  unfold FaultsLocked
  split <;> infer_instance

/-- The condition on a step. -/
def ReleasesLock (σ : Files) : FileAct → Prop
  | .leave t ans => ∀ c ∈ (σ.proc t).pending, ¬ ReadsEmptySlot σ t c ∧ ¬ FaultsLocked σ t ans c
  | _ => True

instance instDecidableReleasesLock (σ : Files) (a : FileAct) : Decidable (ReleasesLock σ a) := by
  unfold ReleasesLock
  split <;> infer_instance

/-- A process in the middle of a call holds the lock. -/
def Files.Holds (σ : Files) : Prop :=
  ∀ t c, (σ.proc t).pending = some c →
    σ.filesysLock = some t ∧ (σ.proc t).alive = true ∧ c.locks = true

section Leave

variable {t : Tid} {σ σ' : Files} {ans : Answers}

/-- Files may have been opened, and some may no longer be written. -/
def Marks (σ σ' : Files) : Prop :=
  ∃ fps deny, σ' = { σ with opened := σ.opened ++ fps, denyWrite := deny }

theorem Marks.refl : Marks σ σ := ⟨[], σ.denyWrite, by simp⟩

theorem Marks.opens (fp : FilePtr) : Marks σ { σ with opened := σ.opened ++ [fp] } :=
  ⟨[fp], σ.denyWrite, rfl⟩

theorem Marks.deny {c : Prop} [Decidable c] (h : Marks σ σ') (fp : FilePtr) :
    Marks σ (if c then { σ' with denyWrite := update σ'.denyWrite fp true } else σ') := by
  split
  · obtain ⟨fps, deny, rfl⟩ := h
    exact ⟨fps, _, rfl⟩
  · exact h

theorem Marks.proc (h : Marks σ σ') : σ'.proc = σ.proc := by
  obtain ⟨fps, deny, rfl⟩ := h
  rfl

theorem Marks.filesysLock (h : Marks σ σ') : σ'.filesysLock = σ.filesysLock := by
  obtain ⟨fps, deny, rfl⟩ := h
  rfl

/-- Neither of the two paths on which the call ends the process with the lock held. -/
def Unharmed (σ : Files) (t : Tid) (ans : Answers) (c : Call) : Prop :=
  ¬ ReadsEmptySlot σ t c ∧ ¬ FaultsLocked σ t ans c

/-- What the rest of a call can do. -/
inductive Finishes (t : Tid) (ans : Answers) (σ : Files) : Call → Files × Outcome → Prop where
  | harmed {σ' : Files} {c : Call} : Marks σ σ' → ¬ Unharmed σ t ans c →
      Finishes t ans σ c (exitCall t σ')
  | emptySlot (fd : ℤ) (size : ℕ) : Unharmed σ t ans (.write fd size) →
      Finishes t ans σ (.write fd size) (exitCall t (lockRelease t σ))
  | returned {σ' : Files} {c : Call} (v : ℤ) : Marks σ σ' → Unharmed σ t ans c →
      (∀ file, c = .open file → v = -1) →
      Finishes t ans σ c (lockRelease t σ', .returned v)
  | stored {σ' : Files} (file : List Byte) (fp : FilePtr) (i : ℤ) : Marks σ σ' →
      Unharmed σ t ans (.open (some file)) → ans.file = some fp → freeSlot σ t = some i →
      fp ∈ σ'.opened →
      Finishes t ans σ (.open (some file)) (lockRelease t (σ'.setFd t i (some fp)), .returned i)

theorem readLocked_finishes (fd : ℤ) (buffer : ℕ → Byte) (size : ℕ) :
    Finishes t ans σ (.read fd buffer size) (readLocked t fd buffer size ans σ) := by
  have hexit : ¬ Unharmed σ t ans (.read fd buffer size) →
      Finishes t ans σ (.read fd buffer size) (exitCall t σ) := Finishes.harmed Marks.refl
  have hreturn : ∀ v, Unharmed σ t ans (.read fd buffer size) →
      Finishes t ans σ (.read fd buffer size) (lockRelease t σ, .returned v) :=
    fun v h => Finishes.returned v Marks.refl h fun _ => by simp
  simp only [readLocked]
  simp only [Unharmed, ReadsEmptySlot, FaultsLocked] at hexit hreturn
  by_cases h0 : fd = 0
  · rw [if_pos h0]
    split
    · next hf =>
        exact hexit (by simp [h0, hf])
    · next hf =>
        exact hreturn _ (by simp [h0, hf])
  · rw [if_neg h0]
    split
    · next h2 =>
        split
        · next hnone =>
            exact hexit (by simp [h2, hnone])
        · next hsome =>
            split
            · next hf =>
                exact hexit (by simp [h2, hf])
            · next hf =>
                exact hreturn _ (by simp [hsome, hf])
    · next h2 =>
        exact hreturn _ (by simp [h0, h2])

theorem writeLocked_finishes (fd : ℤ) (size : ℕ) :
    Finishes t ans σ (.write fd size) (writeLocked t fd size ans σ) := by
  have hexit : ∀ {σ'}, Marks σ σ' → ¬ Unharmed σ t ans (.write fd size) →
      Finishes t ans σ (.write fd size) (exitCall t σ') := Finishes.harmed
  have hreturn : ∀ {σ'} v, Marks σ σ' → Unharmed σ t ans (.write fd size) →
      Finishes t ans σ (.write fd size) (lockRelease t σ', .returned v) :=
    fun v hmarks h => Finishes.returned v hmarks h fun _ => by simp
  have hempty : Unharmed σ t ans (.write fd size) →
      Finishes t ans σ (.write fd size) (exitCall t (lockRelease t σ)) := Finishes.emptySlot fd size
  simp only [writeLocked]
  simp only [Unharmed, ReadsEmptySlot, FaultsLocked] at hexit hreturn hempty
  by_cases h1 : fd = 1
  · rw [if_pos h1]
    split
    · next hf =>
        exact hexit Marks.refl (by simp [h1, hf])
    · next hf =>
        exact hreturn _ Marks.refl (by simp [h1, hf])
  · rw [if_neg h1]
    split
    · next h2 =>
        cases hfd : σ.fd t fd with
        | none =>
            exact hempty (by simp [h1, hfd])
        | some fp =>
            have hmarks := (Marks.refl (σ := σ)).deny (c := σ.denyWrite fp = true) fp
            dsimp only
            split
            · next hf =>
                exact hexit hmarks (by simp [h2, hf, hfd])
            · next hf =>
                exact hreturn _ hmarks (by simp [hf])
    · next h2 =>
        exact hreturn _ Marks.refl (by simp [h1, h2])

theorem openLocked_finishes (file : List Byte) :
    Finishes t ans σ (.open (some file)) (openLocked t file ans σ) := by
  have hexit : ∀ {σ'}, Marks σ σ' → ¬ Unharmed σ t ans (.open (some file)) →
      Finishes t ans σ (.open (some file)) (exitCall t σ') := Finishes.harmed
  have hfail : ∀ {σ'}, Marks σ σ' → Unharmed σ t ans (.open (some file)) →
      Finishes t ans σ (.open (some file)) (lockRelease t σ', .returned (-1)) :=
    fun hmarks h => Finishes.returned (-1) hmarks h fun _ _ => rfl
  simp only [openLocked]
  split
  · next hf =>
      exact hexit Marks.refl (by simp [Unharmed, FaultsLocked, hf])
  · next hf =>
      cases hfile : ans.file with
      | none =>
          exact hfail Marks.refl (by simp [Unharmed, ReadsEmptySlot, FaultsLocked, hf, hfile])
      | some fp =>
          have hslot : freeSlot { σ with opened := σ.opened ++ [fp] } t = freeSlot σ t := rfl
          dsimp only
          rw [hslot]
          cases hfree : freeSlot σ t with
          | none =>
              -- every slot is taken: `open` returns -1 and `fp` stays open
              exact hfail (Marks.opens fp)
                (by simp [Unharmed, ReadsEmptySlot, FaultsLocked, hf, hfree])
          | some i =>
              dsimp only
              split
              · next hn =>
                  exact hexit (Marks.opens fp)
                    (by simp [Unharmed, FaultsLocked, hfile, hfree, hn])
              · next hn =>
                  refine Finishes.stored file fp i ((Marks.opens fp).deny fp)
                    (by simp [Unharmed, ReadsEmptySlot, FaultsLocked, hf, hn]) hfile hfree ?_
                  split <;> simp

theorem finish_finishes {c : Call} (hc : c.locks = true) :
    Finishes t ans σ c (finish t c ans σ) := by
  cases c with
  | read fd buffer size =>
      exact readLocked_finishes fd buffer size
  | write fd size =>
      exact writeLocked_finishes fd size
  | «open» file =>
      cases file with
      | none =>
          cases hc
      | some file =>
          exact openLocked_finishes file
  | exit status | create file | remove file | filesize fd | seek fd | tell fd | close fd =>
      cases hc

/-- The rest of the call ends in `lock_release` or in `exit`. -/
structure Leaves (t : Tid) (σ σ' : Files) (released : Prop) : Prop where
  other : ∀ u ≠ t, σ'.proc u = σ.proc u
  pending : (σ'.proc t).pending = none
  lock : released → σ'.filesysLock = none
  kept : ¬ released → σ'.filesysLock = σ.filesysLock

theorem leaves_release {released : Prop} (hother : ∀ u ≠ t, σ'.proc u = σ.proc u)
    (h : released) : Leaves t σ (lockRelease t σ') released := by
  refine ⟨?_, by simp [lockRelease], fun _ => rfl, fun hr => absurd h hr⟩
  intro u hu
  rw [lockRelease, Files.modify_of_ne _ _ _ _ hu]
  exact hother u hu

theorem Finishes.leaves {c : Call} {r : Files × Outcome} (h : Finishes t ans σ c r) :
    Leaves t σ r.1 (Unharmed σ t ans c) := by
  cases h with
  | harmed hmarks hharmed =>
      exact ⟨fun u hu => (exit_other hu (-1)).trans (congrFun hmarks.proc u), exit_pending (-1),
        fun hun => absurd hun hharmed, fun _ => (exit_lock (-1)).trans hmarks.filesysLock⟩
  | emptySlot fd size hun =>
      -- this path releases the lock before it exits
      have hrelease : Leaves t σ (lockRelease t σ) True := leaves_release (fun _ _ => rfl) trivial
      exact ⟨fun u hu => (exit_other hu (-1)).trans (hrelease.other u hu), exit_pending (-1),
        fun _ => exit_lock (-1), fun hno => absurd hun hno⟩
  | returned v hmarks hun =>
      exact leaves_release (fun u _ => congrFun hmarks.proc u) hun
  | stored file fp i hmarks hun =>
      refine leaves_release (fun u hu => ?_) hun
      rw [Files.setFd, Files.modify_of_ne _ _ _ _ hu, hmarks.proc]

end Leave

/-! ## Runs -/

section Runs

variable {σ σ' : Files} {a : FileAct}

theorem Files.Holds.start : noFiles.Holds := by
  intro t c hc
  cases hc

theorem LeavesLockAlone.holds {t : Tid} (h : LeavesLockAlone t σ σ')
    (hnone : (σ.proc t).pending = none) (hholds : σ.Holds) : σ'.Holds := by
  have hcur : (σ'.proc t).pending = none := by
    rcases h.cur with hcur | ⟨hcur, -⟩
    · exact hcur
    · exact hcur.trans hnone
  intro u c hu
  have hut : u ≠ t := by
    rintro rfl
    rw [hcur] at hu
    cases hu
  rw [h.other u hut] at hu ⊢
  rw [h.lock]
  exact hholds u c hu

/-- A step outside the critical sections does not lose the lock. -/
theorem LeavesLockAlone.kept {t : Tid} (h : LeavesLockAlone t σ σ')
    (hnone : (σ.proc t).pending = none) (hkept : σ.LockKept) : σ'.LockKept := by
  intro u hu
  rw [h.lock] at hu
  have hut : u ≠ t := by
    rintro rfl
    exact (hkept u hu).2 hnone
  rw [h.other u hut]
  exact hkept u hu

theorem fileStep_leave_iff {t : Tid} {ans : Answers} :
    fileStep (.leave t ans) σ = some σ' ↔
      ∃ c, (σ.proc t).pending = some c ∧ (finish t c ans σ).1 = σ' := by
  simp only [fileStep, fileStep']
  cases (σ.proc t).pending with
  | none =>
      simp
  | some c =>
      simp

/-- A step keeps the lock exactly when it meets the condition. -/
theorem fileStep_releases_iff (hholds : σ.Holds) (hs : fileStep a σ = some σ') :
    σ'.Holds ∧ (σ.LockKept → (ReleasesLock σ a ↔ σ'.LockKept)) := by
  cases a with
  | start t name =>
      simp only [fileStep, fileStep'] at hs
      split at hs
      · cases hs
      · next hdead =>
          cases hs
          have hnone : (σ.proc t).pending = none := by
            rw [Option.eq_none_iff_forall_ne_some]
            intro c hc
            exact hdead (hholds t c hc).2.1
          have halone : LeavesLockAlone t σ (σ.modify t fun _ =>
              { name := name, fd := fun _ => none, exitStatus := 0, alive := true,
                pending := none }) :=
            ⟨rfl, fun u hu => σ.modify_of_ne t u _ hu, Or.inl (by simp)⟩
          exact ⟨halone.holds hnone hholds,
            fun hkept => iff_of_true trivial (halone.kept hnone hkept)⟩
  | call t c ans =>
      simp only [fileStep, fileStep'] at hs
      split at hs
      · next hcur =>
          have hnone : (σ.proc t).pending = none := Option.isNone_iff_eq_none.1 hcur.2
          split at hs
          · next hlocks =>
              split at hs
              · next hfree =>
                  cases hs
                  have hself : ((lockAcquire t c σ).proc t).pending = some c := by
                    simp [lockAcquire]
                  have halive : ((lockAcquire t c σ).proc t).alive = true := by
                    simpa [lockAcquire] using hcur.1
                  have hlock : (lockAcquire t c σ).filesysLock = some t := rfl
                  refine ⟨?_, fun _ => iff_of_true trivial ?_⟩
                  · intro u c' hu
                    by_cases hut : u = t
                    · subst hut
                      rw [hself] at hu
                      cases hu
                      exact ⟨hlock, halive, hlocks⟩
                    · -- nobody else was in a critical section
                      rw [lockAcquire, Files.modify_of_ne _ _ _ _ hut] at hu
                      have hother := (hholds u c' hu).1
                      rw [hfree] at hother
                      cases hother
                  · intro u hu
                    rw [hlock] at hu
                    cases hu
                    exact ⟨halive, by simp [hself]⟩
              · cases hs
          · cases hs
            have halone : LeavesLockAlone t σ (run t c ans σ).1 := run_alone c ans
            exact ⟨halone.holds hnone hholds,
              fun hkept => iff_of_true trivial (halone.kept hnone hkept)⟩
      · cases hs
  | leave t ans =>
      obtain ⟨c, hc, rfl⟩ := fileStep_leave_iff.1 hs
      obtain ⟨hlock, -, hlocks⟩ := hholds t c hc
      have hleaves : Leaves t σ (finish t c ans σ).1 (Unharmed σ t ans c) :=
        (finish_finishes hlocks).leaves
      have hcond : ReleasesLock σ (.leave t ans) ↔ Unharmed σ t ans c := by
        simp [ReleasesLock, Unharmed, hc]
      refine ⟨?_, fun _ => hcond.trans ?_⟩
      · intro u c' hu
        have hut : u ≠ t := by
          rintro rfl
          rw [hleaves.pending] at hu
          cases hu
        rw [hleaves.other u hut] at hu
        -- only `t` held the lock
        have hother := (hholds u c' hu).1
        rw [hlock] at hother
        exact absurd (Option.some_injective _ hother).symm hut
      · constructor
        · intro hrel u hu
          rw [hleaves.lock hrel] at hu
          cases hu
        · intro hk
          by_contra hnot
          exact (hk t ((hleaves.kept hnot).trans hlock)).2 hleaves.pending

/-- In every run of any number of processes, `filesys_lock` is never held by a process outside its
critical section exactly when every call that leaves its critical section meets the condition. -/
theorem filesys_lock_not_leaked_iff {tr : List (Files × FileAct)}
    (h : Exec fileStep noFiles tr σ) :
    (∀ e ∈ tr, ReleasesLock e.1 e.2) ↔ (∀ e ∈ tr, e.1.LockKept) ∧ σ.LockKept := by
  refine @Exec.forall_iff _ _ _ _ _ Files.Holds Files.LockKept (fun _ _ => True) ReleasesLock
    Files.Holds.start ?_ (fun _ _ _ hi _ hs => (fileStep_releases_iff hi hs).1)
    (fun _ _ _ hi hq _ hs => (fileStep_releases_iff hi hs).2 hq) _ h (fun _ _ => trivial)
  intro t ht
  cases ht

/-! ### Reading from a descriptor that is not open -/

def plainAnswers : Answers :=
  { file := some 7, result := 0, faults := false, nameFaults := false, unassigned := 0 }

/-- Process 1 opens a file and reads from it. -/
def readActs : List FileAct :=
  [.start 1 [], .call 1 (.open (some [0x61])) plainAnswers, .leave 1 plainAnswers,
    .call 1 (.read 3 (fun _ => 0) 10) plainAnswers, .leave 1 plainAnswers]

theorem filesys_lock_not_leaked_read :
    (∀ e ∈ trace fileStep readActs noFiles, ReleasesLock e.1 e.2) ∧
      ((runAll fileStep readActs noFiles).get (by decide +kernel)).LockKept := by
  have hrun : Exec fileStep noFiles (trace fileStep readActs noFiles)
      ((runAll fileStep readActs noFiles).get (by decide +kernel)) :=
    Exec.of_runAll (Option.some_get _).symm
  have hrel : ∀ e ∈ trace fileStep readActs noFiles, ReleasesLock e.1 e.2 := by decide +kernel
  exact ⟨hrel, ((filesys_lock_not_leaked_iff hrun).1 hrel).2⟩

/-- Process 1 reads from descriptor 3, which it has not opened. -/
def leakActs : List FileAct :=
  [.start 1 [], .call 1 (.read 3 (fun _ => 0) 10) plainAnswers, .leave 1 plainAnswers]

def leakedFiles : Files := (runAll fileStep leakActs noFiles).get (by decide +kernel)

/-- It has entered `exit` and still holds the lock. -/
theorem filesys_lock_leaked :
    ¬ ∀ σ, Reach fileStep (fun _ _ => True) noFiles σ → σ.LockKept := by
  intro hall
  have hrun : Reach fileStep (fun _ _ => True) noFiles leakedFiles :=
    Reach.get_runAll (by decide +kernel) fun _ _ _ => trivial
  have hkept := hall leakedFiles hrun 1 (by decide +kernel)
  exact absurd hkept.1 (by decide +kernel)

end Runs

end Project4
end Pintos
