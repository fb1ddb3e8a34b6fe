import Pintos.Project4.ExecHandshake

/-!
# ExecResult — what `process_execute` returns

After the hand-shake over `load_lock`, `process_execute` looks for an `exit_status` of -1 in its
whole child list and takes it for the failure of the program it has started.
-/

namespace Pintos
namespace Project4

open Function Lib

/-! ## The property and its condition -/

/-- What a log says about the calls of `process_execute`: it has returned the `tid` of a child whose
`load` succeeded, without waiting for it, and -1 for a child whose `load` failed. -/
def ReportsIn (l : List ProcEvent) : Prop :=
  ∀ p t : Tid, (.loaded t true ∈ l → .execWaits p t ∉ l ∧ ∀ v : ℤ, .execReturned p t v ∈ l → v = t) ∧
    (.loaded t false ∈ l → ∀ v : ℤ, .execReturned p t v ∈ l → v = -1)

/-- `process_execute` reports the result of the `load` of its own child. -/
def Procs.Reports (s : Procs) : Prop := ReportsIn s.log

/-- The condition on a step.  Every status that the scan of `process_execute` meets after a `load`
that succeeded is different from -1, and after one that failed the last one, if it gets there,
is -1. -/
def ScansRight (s : Procs) : ProcAct → Prop
  | .run p =>
      match s.pc p with
      | .execScan t (c :: todo) =>
          (.loaded t true ∈ s.log → s.exitStatus c ≠ -1) ∧
            (.loaded t false ∈ s.log → todo = [] → s.exitStatus c = -1)
      | _ => True
  | _ => True

instance instDecidableScansRight (s : Procs) (a : ProcAct) : Decidable (ScansRight s a) := by
  unfold ScansRight
  split
  · split <;> infer_instance
  · infer_instance

section Reports

variable {v₀ : ℤ} {s s' : Procs} {p t : Tid} {a : ProcAct} {v : ℤ} {l es : List ProcEvent}

theorem not_mem_of_execs {e : ProcEvent} (hes : es.filterMap ProcEvent.execs = [])
    (he : e.execs = some t) : e ∉ es := by
  intro hmem
  have hmem' : t ∈ es.filterMap ProcEvent.execs := List.mem_filterMap.2 ⟨e, hmem, he⟩
  rw [hes] at hmem'
  cases hmem'

/-- Events that are not about `exec`. -/
theorem reportsIn_append (hes : es.filterMap ProcEvent.execs = []) :
    ReportsIn (l ++ es) ↔ ReportsIn l := by
  have hiff : ∀ {e : ProcEvent} {t : Tid}, e.execs = some t → (e ∈ l ++ es ↔ e ∈ l) := by
    intro e t he
    rw [List.mem_append, or_iff_left (not_mem_of_execs hes he)]
  unfold ReportsIn
  refine forall₂_congr fun p t => ?_
  rw [hiff (t := t) rfl, hiff (t := t) rfl, hiff (t := t) rfl]
  simp only [fun v => hiff (e := .execReturned p t v) (t := t) rfl]

/-- `process_execute` returns. -/
theorem reportsIn_returned (h : ReportsIn l) :
    ReportsIn (l ++ [.execReturned p t v]) ↔
      (.loaded t true ∈ l → v = t) ∧ (.loaded t false ∈ l → v = -1) := by
  constructor
  · intro hnew
    obtain ⟨htrue, hfalse⟩ := hnew p t
    have hmem : .execReturned p t v ∈ l ++ [.execReturned p t v] :=
      List.mem_append_right _ List.mem_cons_self
    exact ⟨fun hl => (htrue (List.mem_append_left _ hl)).2 v hmem,
      fun hl => hfalse (List.mem_append_left _ hl) v hmem⟩
  · rintro ⟨htrue, hfalse⟩ q u
    obtain ⟨hold, hold'⟩ := h q u
    simp only [List.mem_append, List.mem_singleton, reduceCtorEq, or_false,
      ProcEvent.execReturned.injEq]
    refine ⟨fun hl => ⟨(hold hl).1, ?_⟩, fun hl => ?_⟩
    · rintro w (hw | ⟨rfl, rfl, rfl⟩)
      · exact (hold hl).2 w hw
      · exact htrue hl
    · rintro w (hw | ⟨rfl, rfl, rfl⟩)
      · exact hold' hl w hw
      · exact hfalse hl

/-- `process_execute` calls `process_wait`. -/
theorem reportsIn_waits (h : ReportsIn l) :
    ReportsIn (l ++ [.execWaits p t]) ↔ .loaded t true ∉ l := by
  constructor
  · intro hnew hl
    exact ((hnew p t).1 (List.mem_append_left _ hl)).1
      (List.mem_append_right _ List.mem_cons_self)
  · intro hnot q u
    obtain ⟨hold, hold'⟩ := h q u
    simp only [List.mem_append, List.mem_singleton, reduceCtorEq, or_false,
      ProcEvent.execWaits.injEq]
    refine ⟨fun hl => ⟨?_, (hold hl).2⟩, hold'⟩
    rintro (hw | ⟨-, rfl⟩)
    · exact (hold hl).1 hw
    · exact hnot hl

/-- The `load` of a child returns for which nothing has been reported. -/
theorem reportsIn_loaded {b : Bool} (h : ReportsIn l) (ht : t ∉ l.filterMap ProcEvent.execs) :
    ReportsIn (l ++ [.loaded t b]) := by
  intro q u
  obtain ⟨hold, hold'⟩ := h q u
  simp only [List.mem_append, List.mem_singleton, reduceCtorEq, or_false, ProcEvent.loaded.injEq]
  have hnot : ∀ {e : ProcEvent}, e.execs = some t → e ∉ l := fun he hmem =>
    ht (List.mem_filterMap.2 ⟨_, hmem, he⟩)
  refine ⟨?_, ?_⟩
  · rintro (hl | ⟨rfl, -⟩)
    · exact hold hl
    · exact ⟨hnot rfl, fun w hw => absurd hw (hnot rfl)⟩
  · rintro (hl | ⟨rfl, -⟩)
    · exact hold' hl
    · exact fun w hw => absurd hw (hnot rfl)

/-! ## Steps and runs -/

/-- The invariant under which a scan is judged. -/
structure Procs.ExecInv (s : Procs) : Prop where
  staged : s.Staged
  locks : s.LoadLocks
  loads : ∀ t, s.Loads t
  executing : ∀ p, s.Executing p (s.pc p)

theorem Procs.ExecInv.start : noProcs.ExecInv := by
  have hpc : ∀ p, noProcs.pc p = .user ∨ noProcs.pc p = .absent := by
    intro p
    by_cases hp : p = root
    · exact Or.inl (if_pos hp)
    · exact Or.inr (if_neg hp)
  refine ⟨Procs.Staged.start, ⟨?_, fun _ _ => rfl, ?_⟩, ?_, ?_⟩
  · intro p t hp
    rcases hpc p with hpc | hpc <;> rw [hpc] at hp <;> cases hp
  · exact fun t ht => absurd ht not_created_noProcs
  · intro t
    have hnil : ∀ b, .loaded t b ∉ noProcs.log := fun b => List.not_mem_nil
    exact ⟨fun _ => List.not_mem_nil, fun ht => absurd ht not_created_noProcs,
      fun h => hnil true h.1, fun h => absurd h (hnil false)⟩
  · intro p
    rcases hpc p with hpc | hpc <;> rw [hpc] <;> trivial

theorem Procs.ExecInv.step (h : s.ExecInv) (hs : Trans v₀ s a s') : s'.ExecInv :=
  ⟨h.staged.step hs, h.locks.step h.staged.tree hs,
    fun t => (h.loads t).step h.staged.tree h.executing hs,
    fun q => executing_step h.executing h.staged.tree h.locks h.loads hs q⟩

/-- When `process_wait` returns to `process_execute` for a child whose `load` failed, the status is
-1. -/
theorem Procs.ExecInv.status (h : s.ExecInv) {c : Caller} (hp : s.pc p = .waitUp c t v)
    (hfailed : .loaded t false ∈ s.log) : v = -1 := by
  have hfits := h.staged.tree.fits p
  rw [hp] at hfits
  obtain ⟨hparent, hcreated⟩ := hfits
  obtain ⟨g, hg⟩ := h.staged.child t hcreated
  obtain ⟨rfl, rfl⟩ := hg.of_unlinked (v := v) (by simp [hparent, hp, Pc.claimOn])
  have hlife : (s.pc t).life = .exitDown := congrArg Config.life hg.config
  rcases (h.loads t).failed hfailed with hpc | hpc | ⟨-, hstatus⟩
  · rw [hpc] at hlife
    cases hlife
  · rw [hpc] at hlife
    cases hlife
  · exact hstatus

/-- `process_wait` returns `v` to `process_execute`, which has called it although it had to. -/
theorem reports_returned {c : Caller} {e : ProcEvent} (h : s.Reports) (he : e.execs = none)
    (hc : ∀ u, c = .exec u → s.Waits p u ∧ (.loaded u false ∈ s.log → v = -1)) :
    ReportsIn (s.log ++ e :: c.returned p v) := by
  have hfirst : ReportsIn (s.log ++ [e]) := (reportsIn_append (by simp [he])).2 h
  cases c with
  | wait =>
      exact hfirst
  | exec u =>
      obtain ⟨⟨⟨b, hb⟩, hwaits⟩, hvalue⟩ := hc u rfl
      -- the call of `process_wait` was right, so the `load` has failed
      have hfalse : .loaded u false ∈ s.log := by
        cases b with
        | false =>
            exact hb
        | true =>
            exact absurd hwaits ((h p u).1 hb).1
      have hnot : .loaded u true ∉ s.log := fun hl => ((h p u).1 hl).1 hwaits
      have hlast : ReportsIn ((s.log ++ [e]) ++ [.execReturned p u v]) := by
        rw [reportsIn_returned hfirst]
        refine ⟨fun hl => ?_, fun _ => hvalue hfalse⟩
        rcases List.mem_append.1 hl with hl | hl
        · exact absurd hl hnot
        · rw [← List.mem_singleton.1 hl] at he
          cases he
      rwa [List.append_assoc] at hlast

/-- A step keeps the reports right exactly when it meets the condition. -/
theorem reports_step (h : s.ExecInv) (hr : s.Reports) (hs : Trans v₀ s a s') :
    ScansRight s a ↔ s'.Reports := by
  cases hs with
  | exec hp hu hpos | wait hp =>
      exact iff_of_true trivial hr
  | exit hp hroot | kill hp hroot =>
      exact iff_of_true trivial ((reportsIn_append rfl).2 hr)
  | @load t b hp =>
      exact iff_of_true trivial (reportsIn_loaded hr ((h.loads t).none (Or.inr hp)))
  | raise hp | lower hp hlock | found hp htid | pass hp htid | down hp hlock | exitUp hp
  | exitDown hp hlock =>
      exact iff_of_true (by simp [ScansRight, hp]) hr
  | fail hp | read hp | unlink hp =>
      exact iff_of_true (by simp [ScansRight, hp]) ((reportsIn_append rfl).2 hr)
  | @scanNone p t hp =>
      have ht := h.executing p
      rw [hp] at ht
      exact absurd rfl ht.2
  | @scanHit p t c todo hp hc =>
      have hcond : ScansRight s (.run p) ↔ .loaded t true ∉ s.log := by
        simp [ScansRight, hp, hc]
      rw [hcond]
      exact (reportsIn_waits hr).symm
  | @scanLast p t c hp hc =>
      have hcond : ScansRight s (.run p) ↔ .loaded t false ∉ s.log := by
        simp [ScansRight, hp, hc]
      have hneg : (t : ℤ) ≠ -1 := by omega
      rw [hcond]
      refine Iff.trans ?_ (reportsIn_returned hr).symm
      simp [hneg]
  | @scanNext p t c todo hp hc htodo =>
      exact iff_of_true (by simp [ScansRight, hp, hc, htodo]) hr
  | @refuse p c tid hp =>
      have ht := h.executing p
      rw [hp] at ht
      refine iff_of_true (by simp [ScansRight, hp]) (reports_returned hr rfl ?_)
      rintro u rfl
      exact ⟨ht.2, fun _ => rfl⟩
  | @up p t c v hp =>
      have ht := h.executing p
      rw [hp] at ht
      refine iff_of_true (by simp [ScansRight, hp]) (reports_returned hr rfl ?_)
      rintro u rfl
      obtain ⟨rfl, hwaits⟩ := ht
      exact ⟨hwaits, h.status hp⟩

theorem execInv_of_reach {P : Procs → ProcAct → Prop} (h : Reach (procStep v₀) P noProcs s) :
    s.ExecInv :=
  h.invariant Procs.ExecInv.start fun _ _ _ hi _ hs => hi.step (trans_of_procStep hs)

/-- In every run of processes that `exec`, `wait` and `exit` in any order, `process_execute` always
reports the result of the `load` of its own child exactly when every step meets the condition. -/
theorem exec_reports_load_iff {v₀ : ℤ} {tr : List (Procs × ProcAct)} {s : Procs}
    (h : Exec (procStep v₀) noProcs tr s) :
    (∀ e ∈ tr, ScansRight e.1 e.2) ↔ (∀ e ∈ tr, e.1.Reports) ∧ s.Reports := by
  refine @Exec.forall_iff _ _ _ _ _ Procs.ExecInv Procs.Reports (fun _ _ => True) ScansRight
    Procs.ExecInv.start ?_ (fun _ _ _ hi _ hs => hi.step (trans_of_procStep hs))
    (fun _ _ _ hi hq _ hs => reports_step hi hq (trans_of_procStep hs)) _ h fun _ _ => trivial
  intro p t
  exact ⟨fun hl => absurd hl List.not_mem_nil, fun hl => absurd hl List.not_mem_nil⟩

/-- The initial thread starts process 1, which exits, and waits for it; process 2 cannot be
loaded. -/
def loadActs : List ProcAct :=
  [.exec 0 1 0, .load 1 true, .run 1, .run 0, .run 0, .exit 1 7, .run 1, .wait 0 1, .run 0, .run 0,
    .run 0, .run 0, .run 0, .exec 0 2 0, .load 2 false, .run 2, .run 2, .run 0, .run 0, .run 0]

theorem exec_reports_load_two :
    (∀ e ∈ trace (procStep 0) loadActs noProcs, ScansRight e.1 e.2) ∧
      ((runAll (procStep 0) loadActs noProcs).get (by decide +kernel)).Reports := by
  have hrun : Exec (procStep 0) noProcs (trace (procStep 0) loadActs noProcs)
      ((runAll (procStep 0) loadActs noProcs).get (by decide +kernel)) :=
    Exec.of_runAll (Option.some_get _).symm
  have hscan : ∀ e ∈ trace (procStep 0) loadActs noProcs, ScansRight e.1 e.2 := by decide +kernel
  exact ⟨hscan, ((exec_reports_load_iff hrun).1 hscan).2⟩

/-- Process 1 has raised `load_lock` after a `load` that failed and has not called `exit` yet. -/
def raceActs : List ProcAct := [.exec 0 1 0, .load 1 false, .run 1, .run 0, .run 0]

def racedProcs : Procs := (runAll (procStep 0) raceActs noProcs).get (by decide +kernel)

/-- `process_execute` returns the `tid` of a child that could not be loaded. -/
theorem exec_reports_failed_load :
    .execReturned 0 1 1 ∈ racedProcs.log ∧
      ¬ ∀ s, Reach (procStep 0) (fun _ _ => True) noProcs s → s.Reports := by
  have hlog : .loaded 1 false ∈ racedProcs.log ∧ .execReturned 0 1 1 ∈ racedProcs.log := by
    decide +kernel
  refine ⟨hlog.2, fun hall => ?_⟩
  have hrun : Reach (procStep 0) (fun _ _ => True) noProcs racedProcs :=
    Reach.get_runAll (by decide +kernel) fun _ _ _ => trivial
  have hvalue : (1 : ℤ) = -1 := (hall racedProcs hrun 0 1).2 hlog.1 1 hlog.2
  omega

end Reports

end Project4
end Pintos
