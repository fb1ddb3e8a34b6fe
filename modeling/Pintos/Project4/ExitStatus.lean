import Pintos.Project4.ExecResult

/-!
# ExitStatus — one field for three messages

`exit_status` is the result of a process, the mark of a `load` that failed, and what is left in a
process that `kill` has ended.  No initial value serves them all: -1 makes `process_execute` wait for
every child, and any other value is returned for a child that was killed.
-/

namespace Pintos
namespace Project4

open Function Lib

/-- `process_wait` returns -1 for a child that was killed. -/
def KilledReported (v₀ : ℤ) : Prop :=
  ∀ s, Reach (procStep v₀) (fun _ _ => True) noProcs s → ∀ p t v,
    .waitReturned p t v ∈ s.log → .killed t ∈ s.log → v = -1

/-- `process_execute` returns the `tid` of a child that is loaded and running at once, when the
caller has no other child. -/
def RunningReported (v₀ : ℤ) : Prop :=
  ∀ s, Reach (procStep v₀) (fun _ _ => True) noProcs s → ∀ p t todo,
    s.pc p = .execScan t todo → s.children p = [t] → .loaded t true ∈ s.log →
    (s.pc t).over = false →
    ∃ s', procStep v₀ (.run p) s = some s' ∧ s'.log = s.log ++ [.execReturned p t t]

/-- The initial value `v₀` serves both. -/
def Consistent (v₀ : ℤ) : Prop := KilledReported v₀ ∧ RunningReported v₀

section ExitStatus

variable {v₀ : ℤ} {s : Procs}

/-- A killed process keeps the initial value. -/
theorem killed_status {p t : Tid} {v : ℤ} (h : Reach (procStep v₀) (fun _ _ => True) noProcs s)
    (hv : .waitReturned p t v ∈ s.log) (hkill : .killed t ∈ s.log) : v = v₀ := by
  have hstaged := staged_of_reach h
  obtain ⟨g, hg⟩ := hstaged.child t (hstaged.handed_created hv)
  have hover := (hg.not_running (hg.of_handed hv)).1
  obtain ⟨-, rfl⟩ := hg.value p v hv
  rcases (ending_of_reach h t).after hover with ⟨hnot, -⟩ | ⟨-, hstatus, -⟩
  · exact absurd hkill hnot
  · exact hstatus

/-- A process that has not ended has it as well. -/
theorem running_reported (hv : v₀ ≠ -1) : RunningReported v₀ := by
  intro s h p t todo hp hchildren hloaded hlive
  have hinv := execInv_of_reach h
  have hexec := hinv.executing p
  have hfits := hinv.staged.tree.fits p
  rw [hp] at hexec hfits
  rw [Fits, hchildren] at hfits
  -- the scan is at the only child
  have htodo : todo = [t] := by
    rcases List.suffix_cons_iff.1 hfits with htodo | htodo
    · exact htodo
    · exact absurd (List.suffix_nil.1 htodo) hexec.2
  have hmem : t ∈ s.children p := by simp [hchildren]
  have hstatus : s.exitStatus t = v₀ :=
    (ending_of_reach h t).initial (hinv.staged.tree.listed p t hmem).2 hlive
  refine ⟨(s.goto p .user).record (.execReturned p t t), ?_, rfl⟩
  simp only [procStep, runStep, hp, htodo, hstatus, if_neg hv, if_true]

/-- The initial thread has started process 1, which runs, and is about to look at it. -/
def startActs : List ProcAct := [.exec 0 1 0, .load 1 true, .run 1, .run 0]

def startedProcs (v₀ : ℤ) : Procs := (runAll (procStep v₀) startActs noProcs).get rfl

theorem startedProcs_reach (v₀ : ℤ) :
    Reach (procStep v₀) (fun _ _ => True) noProcs (startedProcs v₀) :=
  Reach.get_runAll rfl fun _ _ _ => trivial

theorem startedProcs_pc (v₀ : ℤ) : (startedProcs v₀).pc 0 = .execScan 1 [1] := rfl

theorem startedProcs_status (v₀ : ℤ) : (startedProcs v₀).exitStatus 1 = v₀ := rfl

theorem startedProcs_log (v₀ : ℤ) : (startedProcs v₀).log = [.loaded 1 true] := rfl

/-- With -1 it waits for process 1. -/
theorem not_runningReported : ¬ RunningReported (-1) := by
  intro hall
  obtain ⟨s', hs', hlog⟩ := hall _ (startedProcs_reach (-1)) 0 1 [1] (startedProcs_pc (-1)) rfl
    (by rw [startedProcs_log]; exact List.mem_cons_self) rfl
  have hwaits : s'.log = [.loaded 1 true, .execWaits 0 1] := by
    have hstep : procStep (-1) (.run 0) (startedProcs (-1)) =
        some (((startedProcs (-1)).goto 0 (.waitScan (.exec 1) 1 [1])).record (.execWaits 0 1)) :=
      rfl
    rw [hstep] at hs'
    cases hs'
    rfl
  rw [hwaits, startedProcs_log] at hlog
  cases hlog

/-- Process 1 has been killed and the initial thread waits for it. -/
def killActs : List ProcAct :=
  [.kill 1, .run 1, .wait 0 1, .run 0, .run 0, .run 0, .run 0, .run 0]

def returnedProcs (v₀ : ℤ) : Procs := ((startedProcs v₀).goto 0 .user).record (.execReturned 0 1 1)

def killedProcs (v₀ : ℤ) : Procs := (runAll (procStep v₀) killActs (returnedProcs v₀)).get rfl

theorem killedProcs_log (v₀ : ℤ) : (killedProcs v₀).log =
    [.loaded 1 true, .execReturned 0 1 1, .killed 1, .statusRead 0 1 v₀, .unlinked 0 1,
      .waitReturned 0 1 v₀] :=
  rfl

theorem killedProcs_reach (hv : v₀ ≠ -1) :
    Reach (procStep v₀) (fun _ _ => True) noProcs (killedProcs v₀) := by
  have hstep : procStep v₀ (.run 0) (startedProcs v₀) = some (returnedProcs v₀) := by
    simp only [procStep, runStep, startedProcs_pc, startedProcs_status, if_neg hv, if_true]
    rfl
  have hreturned : Reach (procStep v₀) (fun _ _ => True) noProcs (returnedProcs v₀) :=
    (startedProcs_reach v₀).next trivial hstep
  exact hreturned.trans (Reach.get_runAll rfl fun _ _ _ => trivial)

theorem killed_reported_iff : KilledReported v₀ ↔ v₀ = -1 := by
  constructor
  · intro hall
    by_contra hv
    exact hv (hall _ (killedProcs_reach hv) 0 1 v₀ (by simp [killedProcs_log])
      (by simp [killedProcs_log]))
  · rintro rfl s h p t v hv hkill
    exact killed_status h hv hkill

theorem running_reported_iff : RunningReported v₀ ↔ v₀ ≠ -1 := by
  constructor
  · rintro hall rfl
    exact not_runningReported hall
  · exact running_reported

/-- Each half has its own initial values, and no value is one of both. -/
theorem exit_status_not_consistent (v₀ : ℤ) :
    (KilledReported v₀ ↔ v₀ = -1) ∧ (RunningReported v₀ ↔ v₀ ≠ -1) ∧ ¬ Consistent v₀ := by
  refine ⟨killed_reported_iff, running_reported_iff, ?_⟩
  rintro ⟨hkilled, hrunning⟩
  exact running_reported_iff.1 hrunning (killed_reported_iff.1 hkilled)

/-- No initial value is consistent. -/
theorem no_consistent_exit_status : ¬ ∃ v₀, Consistent v₀ := by
  rintro ⟨v₀, hkilled, hrunning⟩
  exact running_reported_iff.1 hrunning (killed_reported_iff.1 hkilled)

end ExitStatus

end Project4
end Pintos
