import Pintos.Project4.WaitExit

/-!
# Stranded — children whose parent has gone

`process_exit` looks after the semaphores of its own process only.  A child waits for its `mem_lock`
until its parent has waited for it, so it stays for good when the parent ends without that.
-/

namespace Pintos
namespace Project4

open Function Lib

/-! ## The property and its condition -/

/-- A process that is blocked on its `mem_lock` has a parent that has not entered `process_exit`. -/
def Procs.NoStranded (s : Procs) : Prop :=
  ∀ t, s.Created t → s.pc t = .exitDown → s.memLock t = 0 → (s.pc (s.parent t)).over = false

/-- The condition on a step: a process enters `process_exit` with an empty child list. -/
def LeavesNoChild (s : Procs) : ProcAct → Prop
  | .exit p _ | .kill p => s.children p = []
  | _ => True

instance instDecidableLeavesNoChild (s : Procs) (a : ProcAct) : Decidable (LeavesNoChild s a) := by
  unfold LeavesNoChild
  split <;> infer_instance

/-- A process that has not come to its program or has left it has no child. -/
def Procs.Childless (s : Procs) : Prop := ∀ p, (s.pc p).active = false → s.children p = []

section Stranded

variable {v₀ : ℤ} {s s' : Procs} {p t : Tid} {a : ProcAct} {k : Pc} {es : List ProcEvent}

theorem Procs.Childless.move (h : s.Childless) (hpc : s'.pc = update s.pc p k)
    (hchildren : ∀ q ≠ p, s'.children q = s.children q)
    (hk : k.active = false → s'.children p = []) : s'.Childless := by
  intro q hq
  rw [hpc] at hq
  by_cases hqp : q = p
  · subst hqp
    rw [update_self] at hq
    exact hk hq
  · rw [update_of_ne hqp] at hq
    rw [hchildren q hqp]
    exact h q hq

theorem Procs.Childless.step (h : s.Childless) (ha : LeavesNoChild s a) (hs : Trans v₀ s a s') :
    s'.Childless := by
  cases hs with
  | @exec p t pos hp ht hpos =>
      intro q hq
      by_cases hqp : q = p
      · simp [threadCreate, hqp, Pc.active] at hq
      · by_cases hqt : q = t
        · subst hqt
          simp [threadCreate, hqp]
        · have hold : (s.pc q).active = false := by
            simpa [threadCreate, hqp, hqt] using hq
          simpa [threadCreate, hqp, hqt] using h q hold
  | exit hp hroot | kill hp hroot =>
      exact h.move rfl (fun _ _ => rfl) fun _ => ha
  | @load p b hp =>
      exact h.move rfl (fun _ _ => rfl) fun _ => h p (by rw [hp]; rfl)
  | @raise p b hp =>
      exact h.move rfl (fun _ _ => rfl) fun _ => h p (by rw [hp]; rfl)
  | @fail p hp | @exitUp p hp | @exitDown p hp hlock =>
      exact h.move rfl (fun _ _ => rfl) fun _ => h p (by rw [hp]; rfl)
  | unlink hp =>
      exact h.move rfl (fun _ hq => update_of_ne hq _ _) fun hk => by cases hk
  | wait hp | lower hp hlock | scanNone hp | scanHit hp hc | scanLast hp hc | scanNext hp hc htodo
  | refuse hp | found hp htid | pass hp htid | down hp hlock | read hp | up hp =>
      exact h.move rfl (fun _ _ => rfl) fun hk => by cases hk

theorem claimOn_unlinked {v : ℤ} (h : k.claimOn t = .unlinked v) : ∃ c v, k = .waitUp c t v := by
  cases k with
  | waitUp c u w =>
      by_cases hut : u = t
      · exact ⟨c, w, by rw [hut]⟩
      · simp [Pc.claimOn, hut] at h
  | waitRead c u | waitUnlink c u w =>
      by_cases hut : u = t <;> simp [Pc.claimOn, hut] at h
  | absent | loading | loaded b | failed | user | execDown u | execScan u todo
  | waitScan c tid todo | waitDown c u | exiting | exitDown | gone =>
      cases h

/-- A child that waits for its `mem_lock` is in the list of its parent, or its parent is about to
raise it. -/
theorem Procs.Child.blocked {g : Stage} (h : s.Child t g) (hpc : s.pc t = .exitDown)
    (hlock : s.memLock t = 0) : t ∈ s.children (s.parent t) ∨
      ∃ c v, s.pc (s.parent t) = .waitUp c t v := by
  have hc := h.config
  simp only [Procs.config, hpc, hlock] at hc
  have hlinked := congrArg Config.linked hc
  have hclaim := congrArg Config.claim hc
  cases g with
  | exited | reading | read =>
      exact Or.inl (of_decide_eq_true hlinked)
  | unlinked =>
      exact Or.inr (claimOn_unlinked hclaim)
  | running | released | gone =>
      simp [Stage.config, Pc.life] at hc

/-- A listed child has not been released. -/
theorem Procs.Child.memLock_linked {g : Stage} (h : s.Child t g)
    (hmem : t ∈ s.children (s.parent t)) : s.memLock t = 0 := by
  have hc := h.config
  simp only [Procs.config, hmem, decide_true] at hc
  have hlock := congrArg Config.memLock hc
  cases g with
  | running | exited | reading | read | gone =>
      exact hlock
  | unlinked | released =>
      simp [Stage.config] at hc

theorem Procs.Childless.noStranded (h : s.Childless) (hstaged : s.Staged) : s.NoStranded := by
  intro t hcreated hpc hlock
  obtain ⟨g, hg⟩ := hstaged.child t hcreated
  rcases hg.blocked hpc hlock with hmem | ⟨c, v, hup⟩
  · cases hactive : (s.pc (s.parent t)).active with
    | true =>
        exact Pc.over_of_active hactive
    | false =>
        rw [h _ hactive] at hmem
        cases hmem
  · rw [hup]
    rfl

/-- In every run in which every process enters `process_exit` with an empty child list, nobody is
stranded. -/
theorem no_stranded_child {v₀ : ℤ} {tr : List (Procs × ProcAct)} {s : Procs}
    (h : Exec (procStep v₀) noProcs tr s) (hleaves : ∀ e ∈ tr, LeavesNoChild e.1 e.2) :
    s.NoStranded := by
  have hreach : Reach (procStep v₀) LeavesNoChild noProcs s := h.reach hleaves
  have hchildless : s.Childless :=
    hreach.invariant (fun _ _ => rfl) fun _ _ _ hi ha hs => hi.step ha (trans_of_procStep hs)
  exact hchildless.noStranded (staged_of_reach hreach)

theorem waitActs_possible : (runAll (procStep 0) waitActs noProcs).isSome = true := by
  decide +kernel

/-- The initial thread starts process 1 and waits for it. -/
theorem no_stranded_child_wait :
    ((runAll (procStep 0) waitActs noProcs).get waitActs_possible).NoStranded :=
  no_stranded_child (Exec.of_runAll (Option.some_get _).symm) (by decide +kernel)

/-! ## The condition is needed -/

/-- A process that has entered `process_exit` does not leave it, and its child list stays. -/
theorem over_step (hover : (s.pc p).over = true) (hs : Trans v₀ s a s') :
    (s'.pc p).over = true ∧ s'.children p = s.children p := by
  have hne : ∀ {q}, (s.pc q).over = false → p ≠ q := by
    rintro q hq rfl
    rw [hover] at hq
    cases hq
  -- a step of another process that leaves the child list of `p` alone
  have hother : ∀ {q k} {s' : Procs}, (s.pc q).over = false → s'.pc = update s.pc q k →
      s'.children p = s.children p → (s'.pc p).over = true ∧ s'.children p = s.children p := by
    intro q k s' hq hpc hchildren
    refine ⟨?_, hchildren⟩
    rw [hpc, update_of_ne (hne hq)]
    exact hover
  cases hs with
  | @exec q t pos hq ht hpos =>
      have hpq : p ≠ q := hne (by rw [hq]; rfl)
      have hpt : p ≠ t := hne (by rw [ht]; rfl)
      simpa [threadCreate, hpq, hpt] using hover
  | @exitUp q hq | @exitDown q hq hlock =>
      refine ⟨?_, rfl⟩
      by_cases hpq : p = q
      · subst hpq
        simp [Procs.goto, Pc.over]
      · simpa [Procs.goto, hpq] using hover
  | @unlink q t c v hq =>
      have hover' : (s.pc q).over = false := by
        rw [hq]
        rfl
      exact hother hover' rfl (update_of_ne (hne hover') _ _)
  | wait hq | exit hq hroot | kill hq hroot | load hq | raise hq | fail hq | lower hq hlock
  | scanNone hq | scanHit hq hc | scanLast hq hc | scanNext hq hc htodo | refuse hq
  | found hq htid | pass hq htid | down hq hlock | read hq | up hq =>
      exact hother (by rw [hq]; rfl) rfl rfl

/-- A child that its parent has left behind is never released: whenever it comes to its `mem_lock`,
it is stranded. -/
theorem left_child_stranded {P : Procs → ProcAct → Prop} (hs : s.Staged)
    (hover : (s.pc p).over = true) (ht : t ∈ s.children p) (h : Reach (procStep v₀) P s s') :
    s'.pc t ≠ .gone ∧ (s'.pc t = .exitDown → ¬ s'.NoStranded) := by
  have hkept : s'.Staged ∧ (s'.pc p).over = true ∧ t ∈ s'.children p := by
    refine @Reach.invariant _ _ _ _ _ _
      (fun s => s.Staged ∧ (s.pc p).over = true ∧ t ∈ s.children p) ⟨hs, hover, ht⟩ ?_ h
    rintro s₁ a s₂ ⟨hstaged, hover, ht⟩ _ hstep
    have htrans := trans_of_procStep hstep
    obtain ⟨hover', hchildren⟩ := over_step hover htrans
    exact ⟨hstaged.step htrans, hover', hchildren ▸ ht⟩
  obtain ⟨hstaged, hover', ht'⟩ := hkept
  obtain ⟨hparent, hcreated⟩ := hstaged.tree.listed p t ht'
  obtain ⟨g, hg⟩ := hstaged.child t hcreated
  refine ⟨(hstaged.listed ht').2, fun hpc hno => ?_⟩
  have hlock : s'.memLock t = 0 := hg.memLock_linked (hparent.symm ▸ ht')
  have hlive := hno t hcreated hpc hlock
  rw [hparent, hover'] at hlive
  cases hlive

/-- Process 1 starts process 2 and exits without waiting for it, and process 2 exits. -/
def strandActs : List ProcAct :=
  [.exec 0 1 0, .load 1 true, .run 1, .run 0, .run 0, .exec 1 2 0, .load 2 true, .run 2, .run 1,
    .run 1, .exit 1 0, .exit 2 0, .run 2]

def strandedProcs : Procs := (runAll (procStep 0) strandActs noProcs).get (by decide +kernel)

theorem stranded_child :
    ¬ ∀ s, Reach (procStep 0) (fun _ _ => True) noProcs s → s.NoStranded := by
  intro hall
  have hrun : Reach (procStep 0) (fun _ _ => True) noProcs strandedProcs :=
    Reach.get_runAll (by decide +kernel) fun _ _ _ => trivial
  have hlive := hall strandedProcs hrun 2 ⟨by decide +kernel, by decide +kernel⟩
    (by decide +kernel) (by decide +kernel)
  exact absurd hlive (by decide +kernel)

end Stranded

end Project4
end Pintos
