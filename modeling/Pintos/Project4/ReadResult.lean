import Pintos.Project4.FileTable

/-!
# ReadResult — does `read` report what it has stored?

From an open file `read` returns the number of bytes that `file_read` has put into the buffer.  From
the console it looks for a zero byte in the buffer that it has been given, and for the other
descriptors it returns a variable that has not been set.
-/

namespace Pintos
namespace Project4

open Lib Userprog Function

/-! ## `read` with its buffer -/

/-- What a call of `read` leaves: the file system, the buffer, the bytes that the call has stored at
the start of the buffer, and how the call ends. -/
structure ReadEffect (S : Services) where
  files : S.Files
  buffer : ℕ → Byte
  stored : List Byte
  outcome : Outcome

/-- The size as an `off_t`, which is signed; `file_read` reads nothing when it is negative. -/
def offT (size : Word) : ℕ := size.toInt.toNat

section Code

variable {S : Services}

/-- `read` after `lock_acquire`.  `unassigned` is the value of `ret` before it is set, and `stray` is
what `file_read` returns for a word behind the table. -/
def readCall (cur : Tid) (fd : ℤ) (size : Word) (faults : Bool) (unassigned stray : ℤ) (σ : Files)
    (files : S.Files) (buffer : ℕ → Byte) : ReadEffect S :=
  if fd = 0 then
    if faults then ⟨files, buffer, [], .exited⟩
    else ⟨files, buffer, [], .returned (scan buffer size.toNat)⟩
  else if fd > 2 then
    match σ.fd cur fd with
    | none => ⟨files, buffer, [], .exited⟩
    | some fp =>
        if faults then ⟨files, buffer, [], .exited⟩
        else if InTable fd then
          let r := S.fileRead files fp (offT size)
          ⟨r.1, storeBytes buffer 0 r.2, r.2, .returned r.2.length⟩
        else ⟨files, buffer, [], .returned stray⟩
  else ⟨files, buffer, [], .returned unassigned⟩

/-- The answers that the call gets in a state of the file system. -/
def readAnswers (cur : Tid) (fd : ℤ) (size : Word) (faults : Bool) (unassigned stray : ℤ)
    (σ : Files) (files : S.Files) : Answers where
  file := none
  result :=
    match σ.fd cur fd with
    | none => 0
    | some fp => if InTable fd then (S.fileRead files fp (offT size)).2.length else stray
  faults := faults
  nameFaults := false
  unassigned := unassigned

end Code

section Result

variable {S : Services} {σ : Files} {t : Tid} {fd : ℤ} {size : Word} {faults : Bool}
  {unassigned stray : ℤ} {files : S.Files} {buffer : ℕ → Byte}

/-- The call ends like the one that takes its answers from the file system. -/
theorem readCall_outcome :
    (readCall t fd size faults unassigned stray σ files buffer).outcome =
      (readLocked t fd buffer size.toNat
        (readAnswers t fd size faults unassigned stray σ files) σ).2 := by
  unfold readCall readLocked
  by_cases h0 : fd = 0
  · rw [if_pos h0, if_pos h0]
    cases faults <;> rfl
  · rw [if_neg h0, if_neg h0]
    by_cases h2 : fd > 2
    · rw [if_pos h2, if_pos h2]
      cases hfd : σ.fd t fd with
      | none =>
          rfl
      | some fp =>
          cases faults with
          | true =>
              rfl
          | false =>
              simp only [readAnswers, hfd]
              by_cases hin : InTable fd
              · simp [hin]
              · simp [hin]
    · rw [if_neg h2, if_neg h2]
      rfl

/-! ## The property -/

/-- Where the bytes come from: the keyboard, or the file from its current position on. -/
def TakenFrom (keyboard : List Byte) (t : Tid) (fd : ℤ) (σ : Files) (files : S.Files)
    (bytes : List Byte) : Prop :=
  if fd = 0 then bytes <+: keyboard
  else ∃ fp n, σ.fd t fd = some fp ∧ bytes = S.stored fp (S.pos files fp) n

/-- Whatever the buffer and the variables hold before, `read` returns -1 or the number of bytes that
it has stored at the start of the buffer, and its result does not depend on either of them. -/
structure Reports (t : Tid) (fd : ℤ) (size : Word) (σ : Files) (files : S.Files) : Prop where
  truthful : ∀ faults unassigned stray buffer keyboard v,
    let r := readCall t fd size faults unassigned stray σ files buffer
    r.outcome = .returned v → v = -1 ∨ v = r.stored.length ∧
      r.buffer = storeBytes buffer 0 r.stored ∧ TakenFrom keyboard t fd σ files r.stored
  independent : ∀ faults unassigned unassigned' stray stray' buffer buffer',
    (readCall t fd size faults unassigned stray σ files buffer).outcome =
      (readCall t fd size faults unassigned' stray' σ files buffer').outcome

theorem scan_zero (n : ℕ) : scan (fun _ => 0) (n + 1) = 0 := by
  unfold scan
  rw [List.range_succ_eq_map]
  rfl

theorem scan_ones (n : ℕ) : scan (fun _ => 1) n = n := by
  unfold scan
  have hnone : (List.range n).find? (fun _ => decide ((1 : Byte) = 0)) = none := by
    rw [List.find?_eq_none]
    intro i _
    decide
  rw [hnone]
  rfl

theorem storeBytes_nil : storeBytes buffer 0 [] = buffer := by
  funext i
  simp [storeBytes]

/-- A call that returns a variable of the caller's choice reports nothing. -/
theorem not_reports {f : ℤ → ReadEffect S} (hstored : ∀ x, (f x).stored = [])
    (houtcome : ∀ x, (f x).outcome = .returned x) :
    ¬ ∀ x v, (f x).outcome = .returned v → v = -1 ∨ v = ((f x).stored.length : ℤ) := by
  intro hall
  rcases hall 1 1 (houtcome 1) with h | h
  · omega
  · rw [hstored] at h
    simp at h

/-- From the console. -/
theorem console_reports_iff (h0 : fd = 0) : Reports t fd size σ files ↔ size = 0 := by
  have hcall : ∀ faults unassigned stray buffer,
      readCall t fd size faults unassigned stray σ files buffer =
        if faults then ⟨files, buffer, [], .exited⟩
        else ⟨files, buffer, [], .returned (scan buffer size.toNat)⟩ := by
    intro faults unassigned stray buffer
    rw [readCall, if_pos h0]
  constructor
  · intro h
    by_contra hsize
    -- a buffer of zeros and one of ones
    have heq := h.independent false 0 0 0 0 (fun _ => 0) fun _ => 1
    obtain ⟨n, hn⟩ := Nat.exists_eq_succ_of_ne_zero
      (show size.toNat ≠ 0 from fun hz => hsize (BitVec.eq_of_toNat_eq hz))
    rw [hcall, hcall, hn] at heq
    simp only [Bool.false_eq_true, if_false, Outcome.returned.injEq, Nat.cast_inj] at heq
    rw [scan_zero, scan_ones] at heq
    omega
  · intro hsize
    refine ⟨fun faults unassigned stray buffer keyboard v => ?_, ?_⟩
    · rw [hcall]
      cases faults with
      | true =>
          exact nofun
      | false =>
          intro r hv
          refine Or.inr ⟨?_, storeBytes_nil.symm, ?_⟩
          · cases hv
            rw [hsize]
            rfl
          · rw [TakenFrom, if_pos h0]
            exact List.nil_prefix
    · intro faults unassigned unassigned' stray stray' buffer buffer'
      rw [hcall, hcall, hsize]
      cases faults <;> rfl

/-- An empty slot ends the process. -/
theorem empty_reports (h0 : ¬ fd = 0) (h2 : fd > 2) (hfd : σ.fd t fd = none) :
    Reports t fd size σ files := by
  have hcall : ∀ faults unassigned stray buffer,
      readCall t fd size faults unassigned stray σ files buffer = ⟨files, buffer, [], .exited⟩ := by
    intro faults unassigned stray buffer
    rw [readCall, if_neg h0, if_pos h2, hfd]
  refine ⟨fun faults unassigned stray buffer keyboard v => ?_, ?_⟩
  · rw [hcall]
    exact nofun
  · intro faults unassigned unassigned' stray stray' buffer buffer'
    rw [hcall, hcall]

/-- `file_read` returns the number of bytes that it has read. -/
theorem file_reports {fp : FilePtr} (h0 : ¬ fd = 0) (h2 : fd > 2) (hin : InTable fd)
    (hfd : σ.fd t fd = some fp) : Reports t fd size σ files := by
  have hcall : ∀ faults unassigned stray buffer,
      readCall t fd size faults unassigned stray σ files buffer =
        if faults then ⟨files, buffer, [], .exited⟩
        else
          ⟨(S.fileRead files fp (offT size)).1,
            storeBytes buffer 0 (S.fileRead files fp (offT size)).2,
            (S.fileRead files fp (offT size)).2,
            .returned (S.fileRead files fp (offT size)).2.length⟩ := by
    intro faults unassigned stray buffer
    rw [readCall, if_neg h0, if_pos h2, hfd]
    simp only [if_pos hin]
  refine ⟨fun faults unassigned stray buffer keyboard v => ?_, ?_⟩
  · rw [hcall]
    cases faults with
    | true =>
        exact nofun
    | false =>
        intro r hv
        cases hv
        refine Or.inr ⟨rfl, rfl, ?_⟩
        rw [TakenFrom, if_neg h0]
        exact ⟨fp, offT size, hfd, S.read_bytes files fp (offT size)⟩
  · intro faults unassigned unassigned' stray stray' buffer buffer'
    rw [hcall, hcall]
    cases faults <;> rfl

/-- The call ends like the one that takes its answers from the file system.  It reports what it has
stored exactly when it is asked for nothing from the console, or its descriptor is above 2 and in
the table or leads to an empty word. -/
theorem read_reports_iff (t : Tid) (fd : ℤ) (size : Word) (σ : Files) (files : S.Files) :
    (∀ faults unassigned stray buffer,
        (readCall t fd size faults unassigned stray σ files buffer).outcome =
          (readLocked t fd buffer size.toNat
            (readAnswers t fd size faults unassigned stray σ files) σ).2) ∧
      (Reports t fd size σ files ↔
        fd = 0 ∧ size = 0 ∨ fd > 2 ∧ (InTable fd ∨ σ.fd t fd = none)) := by
  refine ⟨fun _ _ _ _ => readCall_outcome, ?_⟩
  by_cases h0 : fd = 0
  · have h2 : ¬ fd > 2 := by omega
    rw [console_reports_iff h0]
    tauto
  · by_cases h2 : fd > 2
    · cases hfd : σ.fd t fd with
      | none =>
          exact iff_of_true (empty_reports h0 h2 hfd) (Or.inr ⟨h2, Or.inr rfl⟩)
      | some fp =>
          by_cases hin : InTable fd
          · exact iff_of_true (file_reports h0 h2 hin hfd) (Or.inr ⟨h2, Or.inl hin⟩)
          · refine iff_of_false (fun h => ?_) (by simp [h0, hin])
            -- the word behind the table is not a file
            refine @not_reports S (fun x => readCall t fd size false 0 x σ files fun _ => 0)
              (fun x => ?_) (fun x => ?_) fun x v hv => ?_
            · simp [readCall, h0, h2, hfd, hin]
            · simp [readCall, h0, h2, hfd, hin]
            · exact (h.truthful false 0 x (fun _ => 0) [] v hv).imp_right fun h => h.1
    · refine iff_of_false (fun h => ?_) (by tauto)
      -- the variable has not been set
      refine @not_reports S (fun x => readCall t fd size false x 0 σ files fun _ => 0)
        (fun x => ?_) (fun x => ?_) fun x v hv => ?_
      · simp [readCall, h0, h2]
      · simp [readCall, h0, h2]
      · exact (h.truthful false x 0 (fun _ => 0) [] v hv).imp_right fun h => h.1

end Result

/-- One byte from the console into a buffer that holds a one. -/
theorem read_reports_old_byte :
    ¬ ∀ (S : Services) (t : Tid) (fd : ℤ) (size : Word) (σ : Files) (files : S.Files),
        Reports t fd size σ files := by
  intro hall
  let S := Services.ofContents (fun _ => []) (fun _ => none) 0 0
  have hcond := (read_reports_iff 1 0 1 noFiles (fun _ => 0 : S.Files)).2.1 (hall S 1 0 1 noFiles _)
  rcases hcond with ⟨-, hsize⟩ | ⟨h2, -⟩
  · exact absurd hsize (by decide)
  · exact absurd h2 (by decide)

end Project4
end Pintos
