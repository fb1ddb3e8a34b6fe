import Mathlib.Data.Multiset.AddSub
import Pintos.Project4.FileTable

/-!
# Descriptors — which slots do the system calls touch, and is every file kept?

A descriptor is whatever number the program passes.  `read` and `write` look at its range before
they index `fd[200]`, the other calls only at what they find in the slot.  `open` looks for an empty
slot when it already has its file.
-/

namespace Pintos
namespace Project4

open Lib Userprog Function

/-! ## The calls on a descriptor, with the indices they use -/

inductive DescriptorCall
  | filesize (fd : ℤ)
  | read (fd : ℤ) (buffer : ℕ → Byte) (size : ℕ)
  | write (fd : ℤ) (size : ℕ)
  | seek (fd : ℤ)
  | tell (fd : ℤ)
  | close (fd : ℤ)

namespace DescriptorCall

def fd : DescriptorCall → ℤ
  | .filesize fd | .read fd _ _ | .write fd _ | .seek fd | .tell fd | .close fd => fd

def toCall : DescriptorCall → Call
  | .filesize fd => .filesize fd
  | .read fd buffer size => .read fd buffer size
  | .write fd size => .write fd size
  | .seek fd => .seek fd
  | .tell fd => .tell fd
  | .close fd => .close fd

/-- The descriptors of the console, which `read` and `write` serve without the table. -/
def Console : DescriptorCall → Prop
  | .read fd _ _ => fd = 0
  | .write fd _ => fd = 1
  | _ => False

end DescriptorCall

section Logged

variable (cur : Tid)

/-- `read` and `write` once they have the lock, the other calls as a whole. -/
def perform (c : DescriptorCall) (ans : Answers) (σ : Files) : Files × Outcome :=
  if c.toCall.locks then finish cur c.toCall ans σ else run cur c.toCall ans σ

/-- The loop of `exit` looks at every slot, and `close` uses the index three times. -/
def exitIndices (σ : Files) : List ℤ :=
  fdRange.flatMap fun i => if σ.fd cur i = none then [i] else [i, i, i, i]

/-- A call that only looks whether the slot is empty, and uses the index again for the rest. -/
def slotCallLogged (fd : ℤ) (rest : Files × Outcome) (more : List ℤ) (σ : Files) :
    (Files × Outcome) × List ℤ :=
  if σ.fd cur fd = none then (exitCall cur σ, fd :: exitIndices cur σ) else (rest, fd :: more)

def readLogged (fd : ℤ) (buffer : ℕ → Byte) (size : ℕ) (ans : Answers) (σ : Files) :
    (Files × Outcome) × List ℤ :=
  if fd = 0 then
    if ans.faults then (exitCall cur σ, exitIndices cur σ)
    else ((lockRelease cur σ, .returned (scan buffer size)), [])
  else if fd > 2 then
    if σ.fd cur fd = none then (exitCall cur σ, fd :: exitIndices cur σ)
    else if ans.faults then (exitCall cur σ, fd :: fd :: exitIndices cur σ)
    else ((lockRelease cur σ, .returned ans.result), [fd, fd])
  else ((lockRelease cur σ, .returned ans.unassigned), [])

def writeLogged (fd : ℤ) (size : ℕ) (ans : Answers) (σ : Files) : (Files × Outcome) × List ℤ :=
  if fd = 1 then
    if ans.faults then (exitCall cur σ, exitIndices cur σ)
    else ((lockRelease cur σ, .returned size), [])
  else if fd > 2 then
    match σ.fd cur fd with
    | none => (exitCall cur (lockRelease cur σ), fd :: exitIndices cur σ)
    | some fp =>
        let denied := if σ.denyWrite fp then [fd] else []
        let σ := if σ.denyWrite fp then { σ with denyWrite := update σ.denyWrite fp true } else σ
        if ans.faults then (exitCall cur σ, fd :: fd :: denied ++ fd :: exitIndices cur σ)
        else ((lockRelease cur σ, .returned ans.result), fd :: fd :: denied ++ [fd])
  else ((lockRelease cur σ, .returned (-1)), [])

/-- What a call does, and the indices of `thread_current ()->fd` that it uses on the way. -/
def performLogged (c : DescriptorCall) (ans : Answers) (σ : Files) :
    (Files × Outcome) × List ℤ :=
  match c with
  | .filesize fd => slotCallLogged cur fd (σ, .returned ans.result) [fd] σ
  | .read fd buffer size => readLogged cur fd buffer size ans σ
  | .write fd size => writeLogged cur fd size ans σ
  | .seek fd => slotCallLogged cur fd (σ, .returned 0) [fd] σ
  | .tell fd => slotCallLogged cur fd (σ, .returned ans.result) [fd] σ
  | .close fd => slotCallLogged cur fd (closeSlot cur fd σ, .returned 0) [fd, fd] σ

end Logged

section Indices

variable {σ : Files} {t : Tid} {ans : Answers} {c : DescriptorCall} {fd : ℤ}

theorem slotCallLogged_fst (fd : ℤ) (rest : Files × Outcome) (more : List ℤ) :
    (slotCallLogged t fd rest more σ).1 = if σ.fd t fd = none then exitCall t σ else rest := by
  unfold slotCallLogged
  split <;> rfl

/-- Without the indices it is the call itself. -/
theorem performLogged_fst (c : DescriptorCall) :
    (performLogged t c ans σ).1 = perform t c ans σ := by
  cases c with
  | filesize fd | seek fd | tell fd | close fd =>
      exact slotCallLogged_fst _ _ _
  | read fd buffer size =>
      change _ = readLocked t fd buffer size ans σ
      simp only [performLogged, readLogged, readLocked]
      split_ifs <;> rfl
  | write fd size =>
      change _ = writeLocked t fd size ans σ
      simp only [performLogged, writeLogged, writeLocked]
      cases σ.fd t fd <;> split_ifs <;> rfl

theorem exitIndices_inTable {i : ℤ} (hi : i ∈ exitIndices t σ) : InTable i := by
  obtain ⟨k, hk, hik⟩ := List.mem_flatMap.1 hi
  have heq : i = k := by
    split at hik <;> simpa using hik
  rw [heq]
  exact (mem_fdRange.1 hk).inTable

/-! ## Inside the table -/

/-- `open` has returned the descriptor, and it has not been closed. -/
def IsOpen (σ : Files) (t : Tid) (fd : ℤ) : Prop := IsDescriptor fd ∧ σ.fd t fd ≠ none

/-- Whatever the file system answers, the call uses indices of the table only, and on a descriptor
that is neither open nor one of the console it ends the process or returns -1. -/
structure StaysInTable (σ : Files) (t : Tid) (c : DescriptorCall) : Prop where
  index : ∀ ans, ∀ i ∈ (performLogged t c ans σ).2, InTable i
  error : ¬ c.Console → ¬ IsOpen σ t c.fd → ∀ ans,
    (perform t c ans σ).2 = .exited ∨ (perform t c ans σ).2 = .returned (-1)

/-- The slot lies in the table, and it is empty unless it is one that `open` fills. -/
def SlotKept (σ : Files) (t : Tid) (fd : ℤ) : Prop :=
  InTable fd ∧ (IsDescriptor fd ∨ σ.fd t fd = none)

/-- Where only `open` has filled slots, this is the range of the index. -/
theorem slotKept_iff (hσ : σ.Sound) : SlotKept σ t fd ↔ InTable fd := by
  refine ⟨fun h => h.1, fun hin => ⟨hin, ?_⟩⟩
  by_cases hfd : IsDescriptor fd
  · exact Or.inl hfd
  · exact Or.inr (hσ.slot t fd hin hfd)

/-- The condition of each call. -/
def DescriptorCall.Keeps (σ : Files) (t : Tid) : DescriptorCall → Prop
  | .read fd _ _ => fd = 0 ∨ fd > 2 ∧ SlotKept σ t fd
  | .write fd _ => fd ≤ 2 ∨ SlotKept σ t fd
  | .filesize fd | .seek fd | .tell fd | .close fd => SlotKept σ t fd

theorem SlotKept.empty (h : SlotKept σ t fd) (hopen : ¬ IsOpen σ t fd) : σ.fd t fd = none := by
  rcases h.2 with hfd | hnone
  · by_contra hne
    exact hopen ⟨hfd, hne⟩
  · exact hnone

/-- A call that succeeds on a slot that is not empty keeps to the table on kept slots only. -/
theorem slotKept_of_stays (h : StaysInTable σ t c) (hconsole : ¬ c.Console)
    (huses : c.fd ∈ (performLogged t c (answersWith 0) σ).2)
    (hsucc : σ.fd t c.fd ≠ none → (perform t c (answersWith 0) σ).2 = .returned 0) :
    SlotKept σ t c.fd := by
  refine ⟨h.index (answersWith 0) _ huses, ?_⟩
  by_cases hfd : IsDescriptor c.fd
  · exact Or.inl hfd
  · refine Or.inr ?_
    by_contra hne
    -- the call returns 0 for a descriptor that is not open
    have herror := h.error hconsole (fun hopen => hfd hopen.1) (answersWith 0)
    rw [hsucc hne] at herror
    rcases herror with hexit | hminus
    · cases hexit
    · cases hminus

/-- The calls that only look whether the slot is empty. -/
theorem slotCall_stays_iff {rest : Answers → Files × Outcome} {more : List ℤ}
    (hlog : ∀ ans, performLogged t c ans σ = slotCallLogged t c.fd (rest ans) more σ)
    (hmore : ∀ i ∈ more, i = c.fd) (hrest : (rest (answersWith 0)).2 = .returned 0)
    (hconsole : ¬ c.Console) : StaysInTable σ t c ↔ SlotKept σ t c.fd := by
  have hperform : ∀ ans,
      perform t c ans σ = if σ.fd t c.fd = none then exitCall t σ else rest ans := by
    intro ans
    rw [← performLogged_fst, hlog, slotCallLogged_fst]
  constructor
  · intro h
    refine slotKept_of_stays h hconsole ?_ fun hne => ?_
    · rw [hlog, slotCallLogged]
      split <;> exact List.mem_cons_self
    · rw [hperform, if_neg hne, hrest]
  · intro h
    refine ⟨fun ans i hi => ?_, fun _ hopen ans => ?_⟩
    · rw [hlog, slotCallLogged] at hi
      split at hi
      · rcases List.mem_cons.1 hi with rfl | hi
        · exact h.1
        · exact exitIndices_inTable hi
      · rcases List.mem_cons.1 hi with rfl | hi
        · exact h.1
        · rw [hmore i hi]
          exact h.1
    · rw [hperform, if_pos (h.empty hopen)]
      exact Or.inl rfl

/-- Apart from the indices of `exit`, `read` uses its own above 2 only. -/
theorem mem_readLogged {buffer : ℕ → Byte} {size : ℕ} {i : ℤ}
    (hi : i ∈ (readLogged t fd buffer size ans σ).2) : fd > 2 ∧ i = fd ∨ InTable i := by
  unfold readLogged at hi
  by_cases h0 : fd = 0
  · rw [if_pos h0] at hi
    split at hi
    · exact Or.inr (exitIndices_inTable hi)
    · cases hi
  · rw [if_neg h0] at hi
    by_cases h2 : fd > 2
    · have hcases : i = fd ∨ i ∈ exitIndices t σ := by
        rw [if_pos h2] at hi
        split_ifs at hi <;> simp only [List.mem_cons, List.not_mem_nil, or_false] at hi <;> tauto
      exact hcases.imp (fun h => ⟨h2, h⟩) exitIndices_inTable
    · rw [if_neg h2] at hi
      cases hi

/-- So does `write`, also where it calls `file_deny_write`. -/
theorem mem_writeLogged {size : ℕ} {i : ℤ} (hi : i ∈ (writeLogged t fd size ans σ).2) :
    fd > 2 ∧ i = fd ∨ InTable i := by
  unfold writeLogged at hi
  by_cases h1 : fd = 1
  · rw [if_pos h1] at hi
    split at hi
    · exact Or.inr (exitIndices_inTable hi)
    · cases hi
  · rw [if_neg h1] at hi
    by_cases h2 : fd > 2
    · rw [if_pos h2] at hi
      cases hfd : σ.fd t fd with
      | none =>
          rw [hfd] at hi
          rcases List.mem_cons.1 hi with hi | hi
          · exact Or.inl ⟨h2, hi⟩
          · exact Or.inr (exitIndices_inTable hi)
      | some fp =>
          rw [hfd] at hi
          have hdenied : ∀ j ∈ (if σ.denyWrite fp = true then [fd] else []), j = fd := by
            intro j hj
            split at hj
            · exact List.mem_singleton.1 hj
            · cases hj
          by_cases hfaults : ans.faults = true
          · simp only [if_pos hfaults, List.mem_append, List.mem_cons] at hi
            rcases hi with (hi | hi | hi) | hi | hi
            · exact Or.inl ⟨h2, hi⟩
            · exact Or.inl ⟨h2, hi⟩
            · exact Or.inl ⟨h2, hdenied i hi⟩
            · exact Or.inl ⟨h2, hi⟩
            · exact Or.inr (exitIndices_inTable hi)
          · simp only [if_neg hfaults, List.mem_append, List.mem_cons, List.not_mem_nil,
              or_false] at hi
            rcases hi with (hi | hi | hi) | hi
            · exact Or.inl ⟨h2, hi⟩
            · exact Or.inl ⟨h2, hi⟩
            · exact Or.inl ⟨h2, hdenied i hi⟩
            · exact Or.inl ⟨h2, hi⟩
    · rw [if_neg h2] at hi
      cases hi

theorem read_stays_iff (buffer : ℕ → Byte) (size : ℕ) :
    StaysInTable σ t (.read fd buffer size) ↔ fd = 0 ∨ fd > 2 ∧ SlotKept σ t fd := by
  have hperform : ∀ ans, perform t (.read fd buffer size) ans σ =
      readLocked t fd buffer size ans σ := fun _ => rfl
  constructor
  · intro h
    by_cases h0 : fd = 0
    · exact Or.inl h0
    · by_cases h2 : fd > 2
      · refine Or.inr ⟨h2, slotKept_of_stays h h0 ?_ fun hne => ?_⟩
        · simp only [performLogged, readLogged, if_neg h0, if_pos h2, DescriptorCall.fd]
          split_ifs <;> exact List.mem_cons_self
        · change σ.fd t fd ≠ none at hne
          rw [hperform, readLocked, if_neg h0, if_pos h2, if_neg hne]
          rfl
      · -- the result is a variable that has not been set
        have herror := h.error h0 (fun hopen => h2 (show (3 : ℤ) ≤ fd from hopen.1.1))
          (answersWith 0)
        rw [hperform, readLocked, if_neg h0, if_neg h2] at herror
        rcases herror with hexit | hminus
        · cases hexit
        · cases hminus
  · intro h
    refine ⟨fun ans i hi => ?_, fun hconsole hopen ans => ?_⟩
    · rcases mem_readLogged hi with ⟨h2, rfl⟩ | hin
      · exact h.elim (fun h0 => by omega) fun h => h.2.1
      · exact hin
    · have h0 : ¬ fd = 0 := hconsole
      obtain ⟨h2, hkept⟩ := h.resolve_left h0
      rw [hperform, readLocked, if_neg h0, if_pos h2, if_pos (hkept.empty hopen)]
      exact Or.inl rfl

theorem write_stays_iff (size : ℕ) :
    StaysInTable σ t (.write fd size) ↔ fd ≤ 2 ∨ SlotKept σ t fd := by
  have hperform : ∀ ans, perform t (.write fd size) ans σ = writeLocked t fd size ans σ :=
    fun _ => rfl
  constructor
  · intro h
    by_cases h2 : fd > 2
    · have h1 : ¬ fd = 1 := by omega
      refine Or.inr (slotKept_of_stays h h1 ?_ fun hne => ?_)
      · simp only [performLogged, writeLogged, if_neg h1, if_pos h2, DescriptorCall.fd]
        cases σ.fd t fd with
        | none =>
            exact List.mem_cons_self
        | some fp =>
            exact List.mem_cons_self
      · obtain ⟨fp, hfp⟩ := Option.ne_none_iff_exists'.1 hne
        change σ.fd t fd = some fp at hfp
        rw [hperform, writeLocked, if_neg h1, if_pos h2, hfp]
        rfl
    · exact Or.inl (not_lt.1 h2)
  · intro h
    refine ⟨fun ans i hi => ?_, fun hconsole hopen ans => ?_⟩
    · rcases mem_writeLogged hi with ⟨h2, rfl⟩ | hin
      · exact h.elim (fun hle => by omega) fun h => h.1
      · exact hin
    · have h1 : ¬ fd = 1 := hconsole
      by_cases h2 : fd > 2
      · have hkept := h.resolve_left (by omega)
        rw [hperform, writeLocked, if_neg h1, if_pos h2, hkept.empty hopen]
        exact Or.inl rfl
      · rw [hperform, writeLocked, if_neg h1, if_neg h2]
        exact Or.inr rfl

/-- A call on a descriptor stays in the table exactly when its number is one that its tests catch
or an index of the table. -/
theorem descriptor_stays_in_table_iff (σ : Files) (t : Tid) (c : DescriptorCall) :
    StaysInTable σ t c ↔ c.Keeps σ t := by
  cases c with
  | filesize fd | seek fd | tell fd =>
      refine slotCall_stays_iff (fun _ => rfl) (fun i hi => ?_) rfl id
      exact List.mem_singleton.1 hi
  | close fd =>
      refine slotCall_stays_iff (fun _ => rfl) (fun i hi => ?_) rfl id
      simpa [DescriptorCall.fd] using hi
  | read fd buffer size =>
      exact read_stays_iff buffer size
  | write fd size =>
      exact write_stays_iff size

/-- The first index behind the table. -/
theorem descriptor_leaves_table :
    ¬ ∀ (σ : Files) (t : Tid) (c : DescriptorCall), StaysInTable σ t c := by
  intro hall
  have hkept := (descriptor_stays_in_table_iff noFiles 1 (.filesize 200)).1 (hall _ _ _)
  exact absurd hkept.1 (by decide)

end Indices

/-! ## `open` keeps its file -/

/-- The file objects that have been opened and not been closed yet, as often as they have been. -/
def Files.openFiles (σ : Files) : Multiset FilePtr := (σ.opened : Multiset FilePtr) - σ.closed

section Open

variable {σ : Files} {t : Tid} {ans : Answers} {name : List Byte}

/-- When `open` returns, the file that `filesys_open` has returned is in the slot of the result and
in no other, or `open` has closed it; and with -1 the tables and the open files are as before. -/
structure KeepsFile (t : Tid) (file : Option FilePtr) (σ : Files) (r : Files × Outcome) :
    Prop where
  placed : ∀ v fp, r.2 = .returned v → file = some fp →
    (InTable v ∧ r.1.fd t v = some fp ∧ ∀ i, InTable i → r.1.fd t i = some fp → i = v) ∨
      ∃ rest, r.1.closed = σ.closed ++ rest ∧ fp ∈ rest
  failed : r.2 = .returned (-1) → (∀ u, r.1.fd u = σ.fd u) ∧ r.1.openFiles = σ.openFiles

/-- A file that is stored in the first empty slot. -/
theorem keepsFile_stored {i : ℤ} {fp : FilePtr} {σ' : Files} (hi : freeSlot σ t = some i)
    (hfd : ∀ j, σ'.fd t j = if j = i then some fp else σ.fd t j)
    (hfresh : ∀ j, InTable j → σ.fd t j ≠ some fp) :
    KeepsFile t (some fp) σ (σ', .returned i) := by
  have hslot : IsDescriptor i := (freeSlot_eq_some.1 hi).1
  refine ⟨fun v fp' hv hfp => ?_, fun hfail => ?_⟩
  · cases hv
    cases hfp
    refine Or.inl ⟨hslot.inTable, by rw [hfd, if_pos rfl], fun j hj hstored => ?_⟩
    -- the file was in no slot before
    by_contra hne
    rw [hfd, if_neg hne] at hstored
    exact hfresh j hj hstored
  · have h3 : 3 ≤ i := hslot.1
    cases hfail
    omega

/-- `open` keeps its file exactly when the process dies on the name, or `filesys_open` fails, or a
slot is empty. -/
theorem open_keeps_file_iff (hfresh : ∀ fp ∈ ans.file, ∀ i, InTable i → σ.fd t i ≠ some fp) :
    KeepsFile t ans.file σ (openLocked t name ans σ) ↔
      ans.faults = true ∨ ans.file = none ∨ ∃ i, IsDescriptor i ∧ σ.fd t i = none := by
  unfold openLocked
  by_cases hfaults : ans.faults = true
  · rw [if_pos hfaults]
    exact iff_of_true ⟨nofun, nofun⟩ (Or.inl hfaults)
  · rw [if_neg hfaults]
    cases hfile : ans.file with
    | none =>
        refine iff_of_true ⟨nofun, fun _ => ⟨fun u => fd_lockRelease, rfl⟩⟩ (Or.inr (Or.inl rfl))
    | some fp =>
        have hslots : freeSlot { σ with opened := σ.opened ++ [fp] } t = freeSlot σ t := rfl
        simp only [hslots]
        cases hfree : freeSlot σ t with
        | none =>
            -- the file is neither stored nor closed
            refine iff_of_false (fun h => ?_) ?_
            · rcases h.placed (-1) fp rfl rfl with ⟨hin, -⟩ | ⟨rest, hclosed, hmem⟩
              · exact absurd hin (by decide)
              · have hnil : rest = [] := List.self_eq_append_right.1 hclosed
                rw [hnil] at hmem
                cases hmem
            · rintro (hf | hnone | ⟨i, hi, hempty⟩)
              · exact hfaults hf
              · cases hnone
              · have hfull := List.find?_eq_none.1 hfree i (mem_fdRange.2 hi)
                exact hfull (decide_eq_true hempty)
        | some i =>
            obtain ⟨hi, hempty, -⟩ := freeSlot_eq_some.1 hfree
            refine iff_of_true ?_ (Or.inr (Or.inr ⟨i, hi, hempty⟩))
            dsimp only
            by_cases hname : ans.nameFaults = true
            · rw [if_pos hname]
              exact ⟨nofun, nofun⟩
            · rw [if_neg hname]
              refine keepsFile_stored hfree (fun j => ?_) fun j hj => hfresh fp hfile j hj
              rw [fd_lockRelease, fd_setFd]
              -- `file_deny_write` changes no slot
              by_cases hown : (σ.proc t).name = name
              · rw [if_pos hown]
                simp only [true_and]
                rfl
              · rw [if_neg hown]
                simp only [true_and]
                rfl

/-- Process 1 opens a file in an empty table. -/
theorem open_keeps_file_first :
    KeepsFile 1 (some 7) noFiles (openLocked 1 [0x61] (answersWith 7) noFiles) := by
  have hfresh : ∀ fp ∈ (answersWith 7).file, ∀ i, InTable i → noFiles.fd 1 i ≠ some fp := by
    intro fp _ i _ hstored
    cases hstored
  exact (open_keeps_file_iff hfresh).2 (Or.inr (Or.inr ⟨3, ⟨by decide, by decide⟩, rfl⟩))

/-- Process 1 has opened 125 files, which fill the slots from 3 on. -/
def fullTable : Files :=
  { noFiles.modify 1 fun p =>
      { p with fd := fun i => if 3 ≤ i ∧ i < 128 then some i.toNat else none } with
    opened := fdRange.map Int.toNat }

theorem open_loses_file :
    ¬ ∀ (σ : Files) (t : Tid) (name : List Byte) (ans : Answers),
        (∀ fp ∈ ans.file, ∀ i, InTable i → σ.fd t i ≠ some fp) →
        KeepsFile t ans.file σ (openLocked t name ans σ) := by
  intro hall
  have hslot : ∀ i, fullTable.fd 1 i = if 3 ≤ i ∧ i < 128 then some i.toNat else none :=
    fun _ => rfl
  have hfresh : ∀ fp ∈ (answersWith 200).file, ∀ i, InTable i → fullTable.fd 1 i ≠ some fp := by
    intro fp hfp i hi hstored
    cases hfp
    rw [hslot] at hstored
    split at hstored
    · next hrange =>
        have h200 : i.toNat = 200 := Option.some_injective _ hstored
        omega
    · cases hstored
  have hkeeps := hall fullTable 1 [0x61] (answersWith 200) hfresh
  rcases (open_keeps_file_iff hfresh).1 hkeeps with hfaults | hnone | ⟨i, hi, hempty⟩
  · cases hfaults
  · cases hnone
  · have hrange : 3 ≤ i ∧ i < 128 := hi
    rw [hslot, if_pos hrange] at hempty
    cases hempty

end Open

end Project4
end Pintos
