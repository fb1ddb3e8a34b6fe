import Pintos.Project4.FilesysLock

/-!
# FileTable — the descriptors of a process

`open` stores its file in the first empty slot from 3 on, `close` and `exit` empty the slots again.
In every run the table is the map from the descriptors that `open` has returned and that have not
been closed since to their files, and every stored file is passed to `file_close` once.
-/

namespace Pintos
namespace Project4

open Lib Userprog Function

/-! ## Slots -/

/-- The indices of `fd[200]`. -/
def InTable (i : ℤ) : Prop := 0 ≤ i ∧ i < 200

instance instDecidableInTable (i : ℤ) : Decidable (InTable i) :=
  inferInstanceAs (Decidable (0 ≤ i ∧ i < 200))

/-- The indices that `open` and `exit` go through. -/
def IsDescriptor (i : ℤ) : Prop := 3 ≤ i ∧ i < 128

theorem mem_fdRange {i : ℤ} : i ∈ fdRange ↔ IsDescriptor i := by
  simp only [fdRange, List.mem_map, List.mem_range, IsDescriptor]
  constructor
  · rintro ⟨k, hk, rfl⟩
    omega
  · rintro ⟨h3, h128⟩
    exact ⟨(i - 3).toNat, by omega, by omega⟩

theorem IsDescriptor.inTable {i : ℤ} (h : IsDescriptor i) : InTable i :=
  ⟨by have := h.1; omega, by have := h.2; omega⟩

/-- The first empty slot, if there is one. -/
theorem freeSlot_eq_some {σ : Files} {t : Tid} {i : ℤ} :
    freeSlot σ t = some i ↔
      IsDescriptor i ∧ σ.fd t i = none ∧ ∀ j, IsDescriptor j → j < i → σ.fd t j ≠ none := by
  unfold freeSlot fdRange
  rw [List.find?_map, Option.map_eq_some_iff]
  constructor
  · rintro ⟨k, hk, rfl⟩
    obtain ⟨hnone, hmem, hbefore⟩ := List.find?_range_eq_some.1 hk
    have hk125 : k < 125 := List.mem_range.1 hmem
    refine ⟨⟨by omega, by omega⟩, of_decide_eq_true hnone, ?_⟩
    intro j hj hlt
    have h3 : 3 ≤ j := hj.1
    have hj' := hbefore (j - 3).toNat (by omega)
    have hback : (((j - 3).toNat : ℕ) : ℤ) + 3 = j := by omega
    rw [Function.comp_apply, hback] at hj'
    simpa using hj'
  · rintro ⟨⟨h3, h128⟩, hnone, hbefore⟩
    have hback : (((i - 3).toNat : ℕ) : ℤ) + 3 = i := by omega
    refine ⟨(i - 3).toNat, ?_, hback⟩
    rw [List.find?_range_eq_some, Function.comp_apply, hback]
    refine ⟨decide_eq_true hnone, List.mem_range.2 (by omega), ?_⟩
    intro j hj
    have hfull := hbefore (j + 3) ⟨by omega, by omega⟩ (by omega)
    simpa using hfull

/-! ## What a step does to the tables -/

section Tables

variable {σ σ' : Files} {t u : Tid} {i j : ℤ} {fp : FilePtr}

@[simp] theorem fd_setFd_self : (σ.setFd t i (some fp)).fd t i = some fp := by
  simp [Files.fd, Files.setFd]

theorem fd_setFd (o : Option FilePtr) :
    (σ.setFd t i o).fd u j = if u = t ∧ j = i then o else σ.fd u j := by
  by_cases hu : u = t
  · subst hu
    by_cases hj : j = i
    · simp [Files.fd, Files.setFd, hj]
    · simp [Files.fd, Files.setFd, hj]
  · simp [Files.fd, Files.setFd, Files.modify_of_ne _ _ _ _ hu, hu]

/-- Changing a process without touching its table. -/
theorem fd_modify {f : Process → Process} (hf : ∀ p, (f p).fd = p.fd) :
    (σ.modify t f).fd u = σ.fd u := by
  by_cases hu : u = t
  · subst hu
    simp [Files.fd, hf]
  · simp [Files.fd, Files.modify_of_ne _ _ _ _ hu]

theorem fd_lockRelease : (lockRelease t σ).fd u = σ.fd u := fd_modify fun _ => rfl

theorem fd_closeSlot :
    (closeSlot t i σ).fd u j = if u = t ∧ j = i then none else σ.fd u j := by
  unfold closeSlot
  cases h : σ.fd t i with
  | none =>
      dsimp only
      split
      · next heq =>
          rw [heq.1, heq.2, h]
      · rfl
  | some fp =>
      exact fd_setFd none

theorem alive_setFd (o : Option FilePtr) :
    ((σ.setFd t i o).proc u).alive = (σ.proc u).alive := by
  by_cases hu : u = t
  · subst hu
    simp [Files.setFd]
  · rw [Files.setFd, Files.modify_of_ne _ _ _ _ hu]

theorem alive_closeSlot : ((closeSlot t i σ).proc u).alive = (σ.proc u).alive := by
  by_cases hu : u = t
  · subst hu
    exact (closeSlot_only i).alive
  · rw [(closeSlot_only i).other u hu]

theorem closed_closeSlot :
    (closeSlot t i σ).closed = σ.closed ++ (σ.fd t i).toList := by
  unfold closeSlot
  cases h : σ.fd t i with
  | none =>
      simp
  | some fp =>
      rfl

end Tables

/-! ## The invariant -/

/-- Files are in the slots of descriptors only, a file that is in a slot is open and in no other
slot, and no file has been closed twice. -/
structure Files.Sound (σ : Files) : Prop where
  slot : ∀ t i, InTable i → ¬ IsDescriptor i → σ.fd t i = none
  opened : ∀ t i fp, InTable i → σ.fd t i = some fp → fp ∈ σ.opened
  notClosed : ∀ t i fp, InTable i → σ.fd t i = some fp → fp ∉ σ.closed
  unique : ∀ t t' i i' fp, InTable i → InTable i' → σ.fd t i = some fp → σ.fd t' i' = some fp →
    t = t' ∧ i = i'
  nodup : σ.closed.Nodup
  subset : ∀ fp ∈ σ.closed, fp ∈ σ.opened

namespace Files.Sound

variable {σ σ' : Files} {t : Tid} {i : ℤ} {fp : FilePtr}

/-- Slots may be emptied and files opened. -/
theorem sub (h : σ.Sound) (hfd : ∀ u j fp, σ'.fd u j = some fp → σ.fd u j = some fp)
    (hopened : ∀ fp ∈ σ.opened, fp ∈ σ'.opened) (hclosed : σ'.closed = σ.closed) : σ'.Sound := by
  refine ⟨?_, ?_, ?_, ?_, ?_, ?_⟩
  · intro u j hj hd
    rw [Option.eq_none_iff_forall_ne_some]
    intro fp hfp
    have hslot := h.slot u j hj hd
    rw [hfd u j fp hfp] at hslot
    cases hslot
  · intro u j fp hj hfp
    exact hopened fp (h.opened u j fp hj (hfd u j fp hfp))
  · intro u j fp hj hfp
    rw [hclosed]
    exact h.notClosed u j fp hj (hfd u j fp hfp)
  · intro u u' j j' fp hj hj' hfp hfp'
    exact h.unique u u' j j' fp hj hj' (hfd u j fp hfp) (hfd u' j' fp hfp')
  · rw [hclosed]
    exact h.nodup
  · intro fp hfp
    rw [hclosed] at hfp
    exact hopened fp (h.subset fp hfp)

/-- A file that is in no slot and not closed is stored. -/
theorem store (h : σ.Sound) (hi : IsDescriptor i) (hopen : fp ∈ σ.opened) (hclosed : fp ∉ σ.closed)
    (hfree : ∀ t i, InTable i → σ.fd t i ≠ some fp) : (σ.setFd t i (some fp)).Sound := by
  refine ⟨?_, ?_, ?_, ?_, h.nodup, h.subset⟩
  · intro u j hj hd
    rw [fd_setFd, if_neg]
    · exact h.slot u j hj hd
    · rintro ⟨-, rfl⟩
      exact hd hi
  · intro u j fq hj hfq
    rw [fd_setFd] at hfq
    split at hfq
    · cases hfq
      exact hopen
    · exact h.opened u j fq hj hfq
  · intro u j fq hj hfq
    rw [fd_setFd] at hfq
    split at hfq
    · cases hfq
      exact hclosed
    · exact h.notClosed u j fq hj hfq
  · intro u u' j j' fq hj hj' hfq hfq'
    rw [fd_setFd] at hfq hfq'
    split at hfq
    · next heq =>
        cases hfq
        split at hfq'
        · next heq' =>
            exact ⟨heq.1.trans heq'.1.symm, heq.2.trans heq'.2.symm⟩
        · exact absurd hfq' (hfree u' j' hj')
    · split at hfq'
      · cases hfq'
        exact absurd hfq (hfree u j hj)
      · exact h.unique u u' j j' fq hj hj' hfq hfq'

theorem closeSlot (h : σ.Sound) (hi : InTable i) : (closeSlot t i σ).Sound := by
  have hkept : ∀ {u j fq}, (Project4.closeSlot t i σ).fd u j = some fq →
      σ.fd u j = some fq ∧ ¬ (u = t ∧ j = i) := by
    intro u j fq hfq
    rw [fd_closeSlot] at hfq
    split at hfq
    · cases hfq
    · next hne =>
        exact ⟨hfq, hne⟩
  have hopened : (Project4.closeSlot t i σ).opened = σ.opened := (closeSlot_only i).opened
  refine ⟨?_, ?_, ?_, ?_, ?_, ?_⟩
  · intro u j hj hd
    rw [fd_closeSlot]
    split
    · rfl
    · exact h.slot u j hj hd
  · intro u j fq hj hfq
    rw [hopened]
    exact h.opened u j fq hj (hkept hfq).1
  · intro u j fq hj hfq
    obtain ⟨hold, hne⟩ := hkept hfq
    rw [closed_closeSlot, List.mem_append, not_or]
    refine ⟨h.notClosed u j fq hj hold, ?_⟩
    intro hmem
    have hslot : σ.fd t i = some fq := by simpa using hmem
    exact hne (h.unique u t j i fq hj hi hold hslot)
  · intro u u' j j' fq hj hj' hfq hfq'
    exact h.unique u u' j j' fq hj hj' (hkept hfq).1 (hkept hfq').1
  · rw [closed_closeSlot]
    refine List.nodup_append.2 ⟨h.nodup, ?_, ?_⟩
    · cases σ.fd t i <;> simp
    · intro a ha b hb hab
      have hslot : σ.fd t i = some a := by simpa [hab] using hb
      exact h.notClosed t i a hi hslot ha
  · intro fq hfq
    rw [closed_closeSlot, List.mem_append] at hfq
    rw [hopened]
    rcases hfq with hfq | hfq
    · exact h.subset fq hfq
    · exact h.opened t i fq hi (by simpa using hfq)

end Files.Sound

/-! ## `exit` -/

section Exit

variable {σ : Files} {t : Tid}

/-- The loop of `exit` over some of the slots. -/
theorem closeSlots_spec (is : List ℤ) (his : ∀ i ∈ is, InTable i) : ∀ {σ : Files}, σ.Sound →
    (is.foldl (fun σ i => closeSlot t i σ) σ).Sound ∧
      (∀ u j, (is.foldl (fun σ i => closeSlot t i σ) σ).fd u j =
        if u = t ∧ j ∈ is then none else σ.fd u j) ∧
      ∀ fp, fp ∈ (is.foldl (fun σ i => closeSlot t i σ) σ).closed ↔
        fp ∈ σ.closed ∨ ∃ i ∈ is, σ.fd t i = some fp := by
  induction is with
  | nil =>
      intro σ h
      exact ⟨h, by simp, by simp⟩
  | cons i is ih =>
      intro σ h
      have hi : InTable i := his i List.mem_cons_self
      obtain ⟨hsound, hfd, hclosed⟩ :=
        ih (fun j hj => his j (List.mem_cons_of_mem i hj)) (h.closeSlot (t := t) hi)
      refine ⟨hsound, ?_, ?_⟩
      · intro u j
        rw [List.foldl_cons, hfd, fd_closeSlot]
        by_cases hu : u = t
        · by_cases hj : j = i
          · simp [hu, hj]
          · simp [hu, hj]
        · simp [hu]
      · intro fp
        rw [List.foldl_cons, hclosed, closed_closeSlot, List.mem_append]
        simp only [fd_closeSlot, List.mem_cons, exists_eq_or_imp]
        constructor
        · rintro ((hfp | hfp) | ⟨j, hj, hfp⟩)
          · exact Or.inl hfp
          · exact Or.inr (Or.inl (by simpa using hfp))
          · split at hfp
            · cases hfp
            · exact Or.inr (Or.inr ⟨j, hj, hfp⟩)
        · rintro (hfp | hfp | ⟨j, hj, hfp⟩)
          · exact Or.inl (Or.inl hfp)
          · exact Or.inl (Or.inr (by simpa using hfp))
          · by_cases hji : j = i
            · exact Or.inl (Or.inr (by simpa [hji] using hfp))
            · exact Or.inr ⟨j, hj, by simpa [hji] using hfp⟩

/-- `exit` empties the table and closes what was in it. -/
theorem exit_spec (h : σ.Sound) (s : ℤ) :
    (exit t s σ).Sound ∧ (∀ i, InTable i → (exit t s σ).fd t i = none) ∧
      (∀ u ≠ t, (exit t s σ).fd u = σ.fd u) ∧
      ∀ fp, fp ∈ (exit t s σ).closed ↔
        fp ∈ σ.closed ∨ ∃ i, IsDescriptor i ∧ σ.fd t i = some fp := by
  have hset : ∀ u, (σ.modify t fun p => { p with exitStatus := s }).fd u = σ.fd u := fun _ =>
    fd_modify fun _ => rfl
  have hstatus : (σ.modify t fun p => { p with exitStatus := s }).Sound :=
    h.sub (fun u j fp hfp => hset u ▸ hfp) (fun _ hfp => hfp) rfl
  obtain ⟨hsound, hfd, hclosed⟩ :=
    closeSlots_spec (t := t) fdRange (fun i hi => (mem_fdRange.1 hi).inTable) hstatus
  have hend : ∀ u, (exit t s σ).fd u =
      (closeAll t (σ.modify t fun p => { p with exitStatus := s })).fd u := fun u =>
    fd_modify fun _ => rfl
  have hclose : (exit t s σ).closed =
      (closeAll t (σ.modify t fun p => { p with exitStatus := s })).closed := by
    rw [exit, Files.modify_closed]
  refine ⟨hsound.sub (fun u j fp hfp => hend u ▸ hfp) ?_ hclose, ?_, ?_, ?_⟩
  · intro fp hfp
    rw [exit, Files.modify_opened]
    exact hfp
  · intro i hi
    rw [hend, closeAll, hfd]
    split
    · rfl
    · next hnot =>
        have hd : ¬ IsDescriptor i := fun hd => hnot ⟨rfl, mem_fdRange.2 hd⟩
        exact hstatus.slot t i hi hd
  · intro u hu
    funext j
    rw [hend, closeAll, hfd, if_neg (fun hmem => hu hmem.1), hset]
  · intro fp
    rw [hclose, closeAll, hclosed]
    simp only [Files.modify_closed, mem_fdRange, hset]

end Exit

/-! ## The history of a run

It is told from what the calls return, not from the table. -/

inductive FdEvent
  | started (t : Tid)
  | opened (t : Tid) (i : ℤ) (fp : FilePtr)
  | closed (t : Tid) (i : ℤ)
  | exited (t : Tid)

/-- What a step that ends with `o` in the state `σ` means for the descriptors. -/
def fdEvent (σ : Files) : FileAct → Option Outcome → Option FdEvent
  | .start t _, _ => some (.started t)
  | .call t _ _, some .exited => some (.exited t)
  | .leave t _, some .exited => some (.exited t)
  | .call t (.close i) _, some (.returned _) => some (.closed t i)
  | .leave t ans, some (.returned i) =>
      match (σ.proc t).pending, ans.file with
      | some (.open _), some fp => if i = -1 then none else some (.opened t i fp)
      | _, _ => none
  | _, _ => none

def eventOf (e : Files × FileAct) : Option FdEvent :=
  (fileStep' e.2 e.1).bind fun r => fdEvent e.1 e.2 r.2

/-- The descriptors of `t`, with their files, after an event. -/
def FdEvent.apply (t : Tid) (m : ℤ → Option FilePtr) : FdEvent → ℤ → Option FilePtr
  | .started u | .exited u => if u = t then fun _ => none else m
  | .opened u i fp => if u = t then update m i (some fp) else m
  | .closed u i => if u = t then update m i none else m

/-- The file that an event stores for `t`. -/
def FdEvent.stored (t : Tid) : FdEvent → Option FilePtr
  | .opened u _ fp => if u = t then some fp else none
  | _ => none

/-- The descriptors that `open` has returned to `t` and that are not closed yet. -/
def descOf (t : Tid) (tr : List (Files × FileAct)) : ℤ → Option FilePtr :=
  (tr.filterMap eventOf).foldl (FdEvent.apply t) fun _ => none

/-- The files of the calls of `open` in which `t` has got a descriptor. -/
def storedOf (t : Tid) (tr : List (Files × FileAct)) : List FilePtr :=
  (tr.filterMap eventOf).filterMap (FdEvent.stored t)

/-! ## What the claims about descriptors range over -/

/-- The descriptor of the call is an index of the table. -/
def Call.InTable : Call → Prop
  | .filesize fd | .read fd _ _ | .write fd _ | .seek fd | .tell fd | .close fd =>
      Project4.InTable fd
  | _ => True

/-- Descriptors are in `0..199` and `filesys_open` returns a fresh file. -/
def Admitted (σ : Files) : FileAct → Prop
  | .start _ _ => True
  | .call _ c _ => c.InTable
  | .leave _ ans => ∀ fp ∈ ans.file, fp ∉ σ.opened

instance instDecidableCallInTable : (c : Call) → Decidable c.InTable
  | .filesize fd | .read fd _ _ | .write fd _ | .seek fd | .tell fd | .close fd =>
      inferInstanceAs (Decidable (Project4.InTable fd))
  | .exit _ | .create _ | .remove _ | .open _ => instDecidableTrue

instance instDecidableAdmitted (σ : Files) : (a : FileAct) → Decidable (Admitted σ a)
  | .start _ _ => instDecidableTrue
  | .call _ c _ => inferInstanceAs (Decidable c.InTable)
  | .leave _ ans => inferInstanceAs (Decidable (∀ fp ∈ ans.file, fp ∉ σ.opened))

/-! ## One step -/

/-- The tables, the closed files and who is alive are the same. -/
structure SameTables (σ σ' : Files) : Prop where
  fd : ∀ u, σ'.fd u = σ.fd u
  closed : σ'.closed = σ.closed
  alive : ∀ u, (σ'.proc u).alive = (σ.proc u).alive
  opened : ∀ fp ∈ σ.opened, fp ∈ σ'.opened

/-- What an event does to the tables. -/
def Effect (σ σ' : Files) : Option FdEvent → Prop
  | none => SameTables σ σ'
  | some (.started t) =>
      (σ.proc t).alive = false ∧ (∀ i, σ'.fd t i = none) ∧ (∀ u ≠ t, σ'.proc u = σ.proc u) ∧
        σ'.closed = σ.closed ∧ σ'.opened = σ.opened
  | some (.opened t i fp) =>
      (σ.proc t).alive = true ∧ freeSlot σ t = some i ∧ fp ∉ σ.opened ∧
        ∃ σ₁, SameTables σ σ₁ ∧ fp ∈ σ₁.opened ∧ SameTables (σ₁.setFd t i (some fp)) σ'
  | some (.closed t i) =>
      (σ.proc t).alive = true ∧ InTable i ∧ σ.fd t i ≠ none ∧ σ' = closeSlot t i σ
  | some (.exited t) => ∃ σ₁ s, SameTables σ σ₁ ∧ σ' = exit t s σ₁

section Effects

variable {σ σ' σ'' : Files} {t : Tid} {ans : Answers} {a : FileAct} {o : Option Outcome}

theorem SameTables.refl : SameTables σ σ :=
  ⟨fun _ => rfl, rfl, fun _ => rfl, fun _ hfp => hfp⟩

theorem SameTables.trans (h : SameTables σ σ') (h' : SameTables σ' σ'') : SameTables σ σ'' :=
  ⟨fun u => (h'.fd u).trans (h.fd u), h'.closed.trans h.closed,
    fun u => (h'.alive u).trans (h.alive u), fun fp hfp => h'.opened fp (h.opened fp hfp)⟩

theorem sameTables_modify {f : Process → Process} (hfd : ∀ p, (f p).fd = p.fd)
    (halive : ∀ p, (f p).alive = p.alive) : SameTables σ (σ.modify t f) := by
  refine ⟨fun u => fd_modify hfd, rfl, fun u => ?_, fun _ hfp => hfp⟩
  by_cases hu : u = t
  · subst hu
    simp [halive]
  · rw [Files.modify_of_ne _ _ _ _ hu]

theorem sameTables_lock (l : Option Tid) (f : Process → Process) (hfd : ∀ p, (f p).fd = p.fd)
    (halive : ∀ p, (f p).alive = p.alive) :
    SameTables σ (({ σ with filesysLock := l } : Files).modify t f) := by
  have hlock : SameTables σ { σ with filesysLock := l } :=
    ⟨fun _ => rfl, rfl, fun _ => rfl, fun _ hfp => hfp⟩
  exact hlock.trans (sameTables_modify hfd halive)

theorem sameTables_release : SameTables σ (lockRelease t σ) :=
  sameTables_lock none _ (fun _ => rfl) fun _ => rfl

/-- A call that ends the process under a condition and otherwise leaves everything alone. -/
theorem effect_guard {c : Prop} [Decidable c] {k : Call} {v : ℤ} (hk : ∀ i, k ≠ .close i) :
    Effect σ (if c then exitCall t σ else (σ, .returned v)).1
      (fdEvent σ (.call t k ans)
        (some (if c then exitCall t σ else (σ, .returned v)).2)) := by
  split
  · exact ⟨σ, -1, SameTables.refl, rfl⟩
  · cases k with
    | close i =>
        exact absurd rfl (hk i)
    | exit status | create file | remove file | «open» file | read fd buffer size
    | write fd size | filesize fd | seek fd | tell fd =>
        exact SameTables.refl

theorem run_effect {k : Call} (halive : (σ.proc t).alive = true) (hk : k.InTable) :
    Effect σ (run t k ans σ).1 (fdEvent σ (.call t k ans) (some (run t k ans σ).2)) := by
  cases k with
  | exit status =>
      exact ⟨σ, status, SameTables.refl, rfl⟩
  | «open» file =>
      exact ⟨σ, -1, SameTables.refl, rfl⟩
  | create file | remove file | filesize fd | seek fd | tell fd =>
      exact effect_guard fun i => by simp
  | read fd buffer size | write fd size =>
      exact SameTables.refl
  | close fd =>
      simp only [run, close]
      split
      · exact ⟨σ, -1, SameTables.refl, rfl⟩
      · next hopen =>
          exact ⟨halive, hk, hopen, rfl⟩

theorem Marks.sameTables (h : Marks σ σ') : SameTables σ σ' := by
  obtain ⟨fps, deny, rfl⟩ := h
  exact ⟨fun _ => rfl, rfl, fun _ => rfl, fun fp hfp => List.mem_append_left fps hfp⟩

theorem Finishes.effect {k : Call} {r : Files × Outcome} (h : Finishes t ans σ k r)
    (hpending : (σ.proc t).pending = some k) (halive : (σ.proc t).alive = true)
    (hfresh : ∀ fp ∈ ans.file, fp ∉ σ.opened) :
    Effect σ r.1 (fdEvent σ (.leave t ans) (some r.2)) := by
  cases h with
  | harmed hmarks _ =>
      exact ⟨_, -1, hmarks.sameTables, rfl⟩
  | emptySlot fd size _ =>
      exact ⟨_, -1, sameTables_release, rfl⟩
  | returned v hmarks _ hopen =>
      -- only `open` stores a file, and when it ends here it has returned -1
      have hnone : fdEvent σ (.leave t ans) (some (.returned v)) = none := by
        cases k with
        | «open» file =>
            have hv : v = -1 := hopen file rfl
            cases hfile : ans.file with
            | none =>
                simp [fdEvent, hpending, hfile]
            | some fp =>
                simp [fdEvent, hpending, hfile, hv]
        | exit status | create file | remove file | close fd | read fd buffer size
        | write fd size | filesize fd | seek fd | tell fd =>
            simp [fdEvent, hpending]
      rw [hnone]
      exact hmarks.sameTables.trans sameTables_release
  | stored file fp i hmarks _ hfile hfree hmem =>
      have hi : i ≠ -1 := by
        have := (freeSlot_eq_some.1 hfree).1.1
        omega
      have hevent : fdEvent σ (.leave t ans) (some (.returned i)) = some (.opened t i fp) := by
        simp [fdEvent, hpending, hfile, hi]
      rw [hevent]
      exact ⟨halive, hfree, hfresh fp hfile, _, hmarks.sameTables, hmem, sameTables_release⟩

/-- What a step does, in terms of what the call has returned. -/
theorem step_effect (hholds : σ.Holds) (ha : Admitted σ a) (hs : fileStep' a σ = some (σ', o)) :
    Effect σ σ' (fdEvent σ a o) := by
  cases a with
  | start t name =>
      simp only [fileStep'] at hs
      split at hs
      · cases hs
      · next hdead =>
          cases hs
          refine ⟨by simpa using hdead, fun i => by simp [Files.fd], ?_, rfl, rfl⟩
          exact fun u hu => σ.modify_of_ne t u _ hu
  | call t c ans =>
      simp only [fileStep'] at hs
      split at hs
      · next hcur =>
          split at hs
          · split at hs
            · cases hs
              have hnone : fdEvent σ (.call t c ans) none = none := by
                cases c <;> rfl
              rw [hnone]
              exact sameTables_lock (some t) _ (fun _ => rfl) fun _ => rfl
            · cases hs
          · cases hs
            exact run_effect hcur.1 ha
      · cases hs
  | leave t ans =>
      simp only [fileStep'] at hs
      split at hs
      · cases hs
      · next c hpending =>
          cases hs
          obtain ⟨-, halive, hlocks⟩ := hholds t c hpending
          exact (finish_finishes hlocks).effect hpending halive ha

end Effects

/-! ## Runs -/

section Runs

variable {σ σ' : Files} {t : Tid} {a : FileAct} {o : Option Outcome}
  {tr : List (Files × FileAct)}

theorem SameTables.sound (h : SameTables σ σ') (hsound : σ.Sound) : σ'.Sound :=
  hsound.sub (fun u _ _ hfp => h.fd u ▸ hfp) h.opened h.closed

/-- A step keeps the tables sound. -/
theorem Files.Sound.step {e : Option FdEvent} (hsound : σ.Sound) (h : Effect σ σ' e) :
    σ'.Sound := by
  cases e with
  | none =>
      exact SameTables.sound h hsound
  | some e =>
      cases e with
      | started t =>
          obtain ⟨-, hempty, hother, hclosed, hopened⟩ := h
          refine hsound.sub ?_ (fun fp hfp => hopened ▸ hfp) hclosed
          intro u i fp hfp
          by_cases hu : u = t
          · subst hu
            rw [hempty] at hfp
            cases hfp
          · simpa [Files.fd, hother u hu] using hfp
      | opened t i fp =>
          obtain ⟨-, hfree, hfresh, σ₁, hsame, hmem, hend⟩ := h
          have hsound₁ : σ₁.Sound := hsame.sound hsound
          have hclosed : fp ∉ σ₁.closed := by
            rw [hsame.closed]
            exact fun hfp => hfresh (hsound.subset fp hfp)
          have hnone : ∀ u j, InTable j → σ₁.fd u j ≠ some fp := by
            intro u j hj hfp
            rw [hsame.fd] at hfp
            exact hfresh (hsound.opened u j fp hj hfp)
          exact hend.sound (hsound₁.store (freeSlot_eq_some.1 hfree).1 hmem hclosed hnone)
      | closed t i =>
          obtain ⟨-, hi, -, rfl⟩ := h
          exact hsound.closeSlot hi
      | exited t =>
          obtain ⟨σ₁, s, hsame, rfl⟩ := h
          exact (exit_spec (hsame.sound hsound) s).1

/-- What links a run to its history. -/
structure FdHistory (tr : List (Files × FileAct)) (σ : Files) : Prop where
  denotes : ∀ t i, InTable i → σ.fd t i = descOf t tr i
  dead : ∀ t, (σ.proc t).alive = false → ∀ i, InTable i → σ.fd t i = none
  kept : ∀ t, ∀ fp ∈ storedOf t tr, fp ∈ σ.closed ∨ ∃ i, IsDescriptor i ∧ σ.fd t i = some fp

theorem descOf_snoc {e : Files × FileAct} : descOf t (tr ++ [e]) =
    ((eventOf e).elim (descOf t tr) fun v => v.apply t (descOf t tr)) := by
  unfold descOf
  rw [List.filterMap_append, List.foldl_append]
  cases h : eventOf e <;> simp [h]

theorem storedOf_snoc {e : Files × FileAct} : storedOf t (tr ++ [e]) =
    storedOf t tr ++ ((eventOf e).bind (FdEvent.stored t)).toList := by
  unfold storedOf
  rw [List.filterMap_append, List.filterMap_append]
  cases h : eventOf e with
  | none =>
      simp [h]
  | some v =>
      cases hv : v.stored t <;> simp [h, hv]

theorem FdHistory.start : FdHistory [] noFiles :=
  ⟨fun _ _ _ => rfl, fun _ _ _ _ => rfl, fun t fp hfp => by cases hfp⟩

theorem FdHistory.started {e : Files × FileAct} {u : Tid} (h : FdHistory tr e.1)
    (hv : eventOf e = some (.started u)) (heffect : Effect e.1 σ' (some (.started u))) :
    FdHistory (tr ++ [e]) σ' := by
  obtain ⟨hdenotes, hdead, hkept⟩ := h
  obtain ⟨hdeadu, hempty, hother, hclosed, -⟩ := heffect
  refine ⟨?_, ?_, ?_⟩
  · intro t i hi
    rw [descOf_snoc, hv]
    by_cases ht : t = u
    · simp [FdEvent.apply, ht, hempty]
    · simpa [FdEvent.apply, ht, Ne.symm ht, Files.fd, hother t ht] using hdenotes t i hi
  · intro t hd i hi
    by_cases ht : t = u
    · rw [ht, hempty]
    · rw [Files.fd, hother t ht]
      exact hdead t (by rwa [hother t ht] at hd) i hi
  · intro t fp hfp
    rw [storedOf_snoc, hv] at hfp
    rw [hclosed]
    rcases hkept t fp (by simpa [FdEvent.stored] using hfp) with hfp | ⟨i, hi, hfp⟩
    · exact Or.inl hfp
    · -- a dead process has nothing in its table
      by_cases ht : t = u
      · rw [ht, hdead u hdeadu i hi.inTable] at hfp
        cases hfp
      · exact Or.inr ⟨i, hi, by rwa [Files.fd, hother t ht]⟩

theorem FdHistory.opened {e : Files × FileAct} {u : Tid} {i : ℤ} {fp : FilePtr}
    (h : FdHistory tr e.1) (hv : eventOf e = some (.opened u i fp))
    (heffect : Effect e.1 σ' (some (.opened u i fp))) :
    FdHistory (tr ++ [e]) σ' := by
  obtain ⟨hdenotes, hdead, hkept⟩ := h
  obtain ⟨halive, hfree, -, σ₁, hsame, -, hend⟩ := heffect
  have hfd : ∀ t j, σ'.fd t j = if t = u ∧ j = i then some fp else e.1.fd t j := by
    intro t j
    rw [hend.fd, fd_setFd, hsame.fd]
  refine ⟨?_, ?_, ?_⟩
  · intro t j hj
    rw [descOf_snoc, hv, hfd]
    by_cases ht : t = u
    · subst ht
      by_cases hji : j = i
      · simp [FdEvent.apply, hji]
      · simpa [FdEvent.apply, hji] using hdenotes t j hj
    · simpa [FdEvent.apply, ht, Ne.symm ht] using hdenotes t j hj
  · intro t hd j hj
    have hd' : (e.1.proc t).alive = false := by
      rwa [hend.alive, alive_setFd, hsame.alive] at hd
    rw [hfd, if_neg]
    · exact hdead t hd' j hj
    · rintro ⟨rfl, -⟩
      rw [halive] at hd'
      cases hd'
  · intro t fq hfq
    have hclosed : σ'.closed = e.1.closed := hend.closed.trans hsame.closed
    obtain ⟨hi, hempty, -⟩ := freeSlot_eq_some.1 hfree
    rw [storedOf_snoc, hv, List.mem_append] at hfq
    rw [hclosed]
    rcases hfq with hfq | hfq
    · rcases hkept t fq hfq with hfq | ⟨j, hj, hfq⟩
      · exact Or.inl hfq
      · -- the slot that `open` has filled was empty
        have hne : ¬ (t = u ∧ j = i) := by
          rintro ⟨rfl, rfl⟩
          rw [hempty] at hfq
          cases hfq
        exact Or.inr ⟨j, hj, by rwa [hfd, if_neg hne]⟩
    · by_cases ht : u = t
      · subst ht
        have hfp : fq = fp := by simpa [FdEvent.stored] using hfq
        exact Or.inr ⟨i, hi, by rw [hfd, if_pos ⟨rfl, rfl⟩, hfp]⟩
      · simp [FdEvent.stored, ht] at hfq

theorem FdHistory.closed {e : Files × FileAct} {u : Tid} {i : ℤ} (h : FdHistory tr e.1)
    (hv : eventOf e = some (.closed u i)) (heffect : Effect e.1 σ' (some (.closed u i))) :
    FdHistory (tr ++ [e]) σ' := by
  obtain ⟨hdenotes, hdead, hkept⟩ := h
  obtain ⟨halive, hi, -, rfl⟩ := heffect
  refine ⟨?_, ?_, ?_⟩
  · intro t j hj
    rw [descOf_snoc, hv, fd_closeSlot]
    by_cases ht : t = u
    · subst ht
      by_cases hji : j = i
      · simp [FdEvent.apply, hji]
      · simpa [FdEvent.apply, hji] using hdenotes t j hj
    · simpa [FdEvent.apply, ht, Ne.symm ht] using hdenotes t j hj
  · intro t hd j hj
    rw [fd_closeSlot]
    split
    · rfl
    · exact hdead t (by rwa [alive_closeSlot] at hd) j hj
  · intro t fq hfq
    rw [storedOf_snoc, hv] at hfq
    rw [closed_closeSlot, List.mem_append]
    rcases hkept t fq (by simpa [FdEvent.stored] using hfq) with hfq | ⟨j, hj, hslot⟩
    · exact Or.inl (Or.inl hfq)
    · by_cases heq : t = u ∧ j = i
      · obtain ⟨rfl, rfl⟩ := heq
        exact Or.inl (Or.inr (by simp [hslot]))
      · exact Or.inr ⟨j, hj, by rwa [fd_closeSlot, if_neg heq]⟩

theorem FdHistory.exited {e : Files × FileAct} {u : Tid} (hsound : e.1.Sound)
    (h : FdHistory tr e.1) (hv : eventOf e = some (.exited u))
    (heffect : Effect e.1 σ' (some (.exited u))) :
    FdHistory (tr ++ [e]) σ' := by
  obtain ⟨hdenotes, hdead, hkept⟩ := h
  obtain ⟨σ₁, s, hsame, rfl⟩ := heffect
  obtain ⟨-, hempty, hother, hclosed⟩ := exit_spec (t := u) (hsame.sound hsound) s
  refine ⟨?_, ?_, ?_⟩
  · intro t i hi
    rw [descOf_snoc, hv]
    by_cases ht : t = u
    · subst ht
      simp [FdEvent.apply, hempty i hi]
    · rw [hother t ht, hsame.fd]
      simpa [FdEvent.apply, Ne.symm ht] using hdenotes t i hi
  · intro t hd i hi
    by_cases ht : t = u
    · subst ht
      exact hempty i hi
    · rw [exit_other ht, hsame.alive] at hd
      rw [hother t ht, hsame.fd]
      exact hdead t hd i hi
  · intro t fq hfq
    rw [storedOf_snoc, hv] at hfq
    rw [hclosed, hsame.closed]
    rcases hkept t fq (by simpa [FdEvent.stored] using hfq) with hfq | ⟨i, hi, hfq⟩
    · exact Or.inl (Or.inl hfq)
    · -- what the process itself had open is closed now
      by_cases ht : t = u
      · subst ht
        exact Or.inl (Or.inr ⟨i, hi, by rwa [hsame.fd]⟩)
      · exact Or.inr ⟨i, hi, by rwa [hother t ht, hsame.fd]⟩

/-- The history follows a step. -/
theorem FdHistory.step {e : Files × FileAct} (hsound : e.1.Sound) (h : FdHistory tr e.1)
    (heffect : Effect e.1 σ' (eventOf e)) : FdHistory (tr ++ [e]) σ' := by
  cases hv : eventOf e with
  | none =>
      rw [hv] at heffect
      obtain ⟨hdenotes, hdead, hkept⟩ := h
      refine ⟨?_, ?_, ?_⟩
      · intro t i hi
        rw [descOf_snoc, hv, heffect.fd]
        exact hdenotes t i hi
      · intro t hd i hi
        rw [heffect.alive] at hd
        rw [heffect.fd]
        exact hdead t hd i hi
      · intro t fp hfp
        rw [storedOf_snoc, hv] at hfp
        rw [heffect.closed, heffect.fd]
        exact hkept t fp (by simpa using hfp)
  | some v =>
      rw [hv] at heffect
      cases v with
      | started u => exact h.started hv heffect
      | opened u i fp => exact h.opened hv heffect
      | closed u i => exact h.closed hv heffect
      | exited u => exact h.exited hsound hv heffect

/-- The invariant of a run with its history. -/
theorem fd_history (h : Exec fileStep noFiles tr σ) (ha : ∀ e ∈ tr, Admitted e.1 e.2) :
    σ.Holds ∧ σ.Sound ∧ FdHistory tr σ := by
  refine h.history (I := fun tr σ => σ.Holds ∧ σ.Sound ∧ FdHistory tr σ) ?_ ?_ ha
  · refine ⟨Files.Holds.start, ?_, FdHistory.start⟩
    refine ⟨fun _ _ _ _ => rfl, ?_, ?_, ?_, List.nodup_nil, fun _ hfp => by cases hfp⟩
    · intro t i fp _ hfp
      cases hfp
    · intro t i fp _ hfp
      cases hfp
    · intro t t' i i' fp _ _ hfp
      cases hfp
  · rintro tr s a s' ⟨hholds, hsound, hhist⟩ hadm hs
    obtain ⟨⟨s₁, o⟩, hs', rfl⟩ := Option.map_eq_some_iff.1 hs
    have heffect : Effect s s₁ (eventOf (s, a)) := by
      have hevent : eventOf (s, a) = fdEvent s a o := by simp [eventOf, hs']
      rw [hevent]
      exact step_effect hholds hadm hs'
    exact ⟨(fileStep_releases_iff hholds hs).1, hsound.step heffect, hhist.step hsound heffect⟩

/-- `open` returns -1 and leaves the tables alone, or it stores its file in the first empty slot
and returns that. -/
def OpensFirst (σ : Files) (t : Tid) : Prop :=
  ∀ file ans σ' v, (σ.proc t).pending = some (.open file) → Admitted σ (.leave t ans) →
    fileStep' (.leave t ans) σ = some (σ', some (.returned v)) →
    (v = -1 ∧ ∀ u, σ'.fd u = σ.fd u) ∨
      (IsDescriptor v ∧ σ.fd t v = none ∧ (∀ j, IsDescriptor j → j < v → σ.fd t j ≠ none) ∧
        ∃ fp, ans.file = some fp ∧
          ∀ u j, σ'.fd u j = if u = t ∧ j = v then some fp else σ.fd u j)

/-- `close` of an empty slot ends the process, any other `close` passes the file to `file_close`,
which has not had it before. -/
def ClosesOnce (σ : Files) (t : Tid) : Prop :=
  ∀ i ans σ' o, InTable i → fileStep' (.call t (.close i) ans) σ = some (σ', o) →
    (σ.fd t i = none ∧ o = some .exited ∧ (σ'.proc t).alive = false) ∨
      ∃ fp, σ.fd t i = some fp ∧ o = some (.returned 0) ∧ σ'.closed = σ.closed ++ [fp] ∧
        fp ∉ σ.closed

/-- The law of the descriptors of `t` at the end of a run. -/
structure FdLaw (tr : List (Files × FileAct)) (σ : Files) (t : Tid) : Prop where
  opens : OpensFirst σ t
  closes : ClosesOnce σ t
  denotes : ∀ i, InTable i → σ.fd t i = descOf t tr i
  distinct : ∀ i t' i' fp, InTable i → InTable i' → descOf t tr i = some fp →
    descOf t' tr i' = some fp → t = t' ∧ i = i'
  outside : ∀ i, InTable i → ¬ IsDescriptor i → σ.fd t i = none
  exited : (σ.proc t).alive = false → ∀ fp ∈ storedOf t tr, σ.closed.count fp = 1

theorem opensFirst (hholds : σ.Holds) : OpensFirst σ t := by
  intro file ans σ' v hpending ha hs
  have heffect := step_effect hholds ha hs
  cases hfile : ans.file with
  | none =>
      have hevent : fdEvent σ (.leave t ans) (some (.returned v)) = none := by
        simp [fdEvent, hpending, hfile]
      rw [hevent] at heffect
      refine Or.inl ⟨?_, heffect.fd⟩
      obtain ⟨-, -, hlocks⟩ := hholds t _ hpending
      simp only [fileStep', hpending, Option.some.injEq, Prod.mk.injEq] at hs
      cases file with
      | none =>
          cases hlocks
      | some file =>
          have hret := hs.2
          simp only [finish, openLocked, hfile] at hret
          split at hret
          · cases hret
          · cases hret
            rfl
  | some fp =>
      by_cases hv : v = -1
      · have hevent : fdEvent σ (.leave t ans) (some (.returned v)) = none := by
          simp [fdEvent, hpending, hfile, hv]
        rw [hevent] at heffect
        exact Or.inl ⟨hv, heffect.fd⟩
      · have hevent : fdEvent σ (.leave t ans) (some (.returned v)) = some (.opened t v fp) := by
          simp [fdEvent, hpending, hfile, hv]
        rw [hevent] at heffect
        obtain ⟨-, hfree, -, σ₁, hsame, -, hend⟩ := heffect
        obtain ⟨hv, hnone, hbefore⟩ := freeSlot_eq_some.1 hfree
        refine Or.inr ⟨hv, hnone, hbefore, fp, rfl, ?_⟩
        intro u j
        rw [hend.fd, fd_setFd, hsame.fd]

theorem closesOnce (hsound : σ.Sound) : ClosesOnce σ t := by
  intro i ans σ' o hi hs
  simp only [fileStep'] at hs
  split at hs
  · simp only [Call.locks, Bool.false_eq_true, if_false, run, close, Option.some.injEq,
      Prod.mk.injEq] at hs
    obtain ⟨rfl, rfl⟩ := hs
    cases hslot : σ.fd t i with
    | none =>
        exact Or.inl ⟨rfl, by simp [exitCall], by simp [exitCall]⟩
    | some fp =>
        refine Or.inr ⟨fp, rfl, by simp, ?_, hsound.notClosed t i fp hi hslot⟩
        simp [closed_closeSlot, hslot]
  · cases hs

/-- In every run of any number of processes, with descriptors in `0..199` and a fresh file from
every `filesys_open`, the table of a process obeys the law. -/
theorem fd_table_law (h : Exec fileStep noFiles tr σ) (ha : ∀ e ∈ tr, Admitted e.1 e.2)
    (t : Tid) : FdLaw tr σ t := by
  obtain ⟨hholds, hsound, hhist⟩ := fd_history h ha
  refine ⟨opensFirst hholds, closesOnce hsound, hhist.denotes t, ?_, hsound.slot t, ?_⟩
  · intro i t' i' fp hi hi' hfp hfp'
    rw [← hhist.denotes t i hi] at hfp
    rw [← hhist.denotes t' i' hi'] at hfp'
    exact hsound.unique t t' i i' fp hi hi' hfp hfp'
  · intro hdead fp hfp
    rw [List.count_eq_one_of_mem hsound.nodup]
    rcases hhist.kept t fp hfp with hclosed | ⟨i, hi, hslot⟩
    · exact hclosed
    · rw [hhist.dead t hdead i hi.inTable] at hslot
      cases hslot

/-- What `open` gets when `filesys_open` returns `fp`. -/
def answersWith (fp : FilePtr) : Answers :=
  { file := some fp, result := 0, faults := false, nameFaults := false, unassigned := 0 }

/-- Process 1 opens two files, closes the first, opens a third in its slot and exits. -/
def reuseActs : List FileAct :=
  [.start 1 [], .call 1 (.open (some [0x61])) (answersWith 7), .leave 1 (answersWith 7),
    .call 1 (.open (some [0x62])) (answersWith 8), .leave 1 (answersWith 8),
    .call 1 (.close 3) (answersWith 0), .call 1 (.open (some [0x63])) (answersWith 9),
    .leave 1 (answersWith 9), .call 1 (.exit 0) (answersWith 0)]

theorem fd_table_law_reuse :
    FdLaw (trace fileStep reuseActs noFiles)
      ((runAll fileStep reuseActs noFiles).get (by decide +kernel)) 1 :=
  fd_table_law (Exec.of_runAll (Option.some_get _).symm) (by decide +kernel) 1

example : storedOf 1 (trace fileStep reuseActs noFiles) = [7, 8, 9] := by decide +kernel

end Runs

end Project4
end Pintos
