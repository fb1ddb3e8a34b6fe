import Pintos.Project4.Handshake

/-!
# WaitExit — what `process_wait` returns, and when a child may go

A status reaches the parent after `exit` has been called with it and at most once, a wait that finds
no child returns -1 at once, and a child stays until its parent has done with it.
-/

namespace Pintos
namespace Project4

open Function Lib

/-! ## How processes end -/

/-- The process has called `exit` or has been killed. -/
def Pc.over : Pc → Bool
  | .exiting | .exitDown | .gone => true
  | _ => false

/-- The process that an event ends. -/
def ProcEvent.ends : ProcEvent → Option Tid
  | .exitCalled t _ | .killed t => some t
  | _ => none

/-- The end of a process, as its `exit_status` and the log tell it. -/
structure Procs.Ending (v₀ : ℤ) (s : Procs) (t : Tid) : Prop where
  before : (s.pc t).over = false → t ∉ s.log.filterMap ProcEvent.ends
  initial : s.Created t → (s.pc t).over = false → s.exitStatus t = v₀
  after : (s.pc t).over = true →
    (.killed t ∉ s.log ∧ .exitCalled t (s.exitStatus t) ∈ s.log ∧
        ∀ v, .exitCalled t v ∈ s.log → v = s.exitStatus t) ∨
      .killed t ∈ s.log ∧ s.exitStatus t = v₀ ∧ ∀ v, .exitCalled t v ∉ s.log

section Ending

variable {v₀ : ℤ} {s s' : Procs} {p t : Tid} {a : ProcAct} {k : Pc} {l : List ProcEvent}

theorem Pc.over_of_active (h : k.active = true) : k.over = false := by
  cases k <;> simp_all [Pc.active, Pc.over]

theorem mem_ends {l : List ProcEvent} :
    t ∈ l.filterMap ProcEvent.ends ↔ (∃ v, .exitCalled t v ∈ l) ∨ .killed t ∈ l := by
  rw [List.mem_filterMap]
  constructor
  · rintro ⟨e, he, heq⟩
    cases e with
    | exitCalled u v =>
        cases heq
        exact Or.inl ⟨v, he⟩
    | killed u =>
        cases heq
        exact Or.inr he
    | loaded u b | execWaits q u | execReturned q u v | statusRead q u v | unlinked q u
    | waitReturned q u v | waitRefused q u =>
        cases heq
  · rintro (⟨v, he⟩ | he)
    · exact ⟨_, he, rfl⟩
    · exact ⟨_, he, rfl⟩

/-- Nothing that concerns the end of the process has changed. -/
theorem Procs.Ending.congr (h : s.Ending v₀ t) (hover : (s'.pc t).over = (s.pc t).over)
    (hstatus : s'.exitStatus t = s.exitStatus t) (hcreated : s'.Created t → s.Created t)
    (hlog : s'.log = s.log ++ l) (hes : t ∉ l.filterMap ProcEvent.ends) : s'.Ending v₀ t := by
  rw [mem_ends, not_or, not_exists] at hes
  have hexit : ∀ v, .exitCalled t v ∈ s'.log ↔ .exitCalled t v ∈ s.log := by
    intro v
    rw [hlog, List.mem_append, or_iff_left (hes.1 v)]
  have hkill : .killed t ∈ s'.log ↔ .killed t ∈ s.log := by
    rw [hlog, List.mem_append, or_iff_left hes.2]
  refine ⟨?_, ?_, ?_⟩
  · intro hlive
    rw [hover] at hlive
    have hnone := h.before hlive
    rw [mem_ends] at hnone ⊢
    simpa only [hexit, hkill] using hnone
  · intro hc hlive
    rw [hover] at hlive
    rw [hstatus]
    exact h.initial (hcreated hc) hlive
  · intro hend
    rw [hover] at hend
    simpa only [hexit, hkill, hstatus] using h.after hend

/-- A step of a process that does not end it. -/
theorem Procs.Ending.move (h : s.Ending v₀ t) (hmoves : Moves s s' p k l)
    (hover : k.over = (s.pc p).over) (hstatus : s'.exitStatus = s.exitStatus)
    (hes : l.filterMap ProcEvent.ends = []) : s'.Ending v₀ t := by
  refine h.congr ?_ (congrFun hstatus t) hmoves.created.1 hmoves.log (by simp [hes])
  rw [hmoves.pc]
  by_cases ht : t = p
  · rw [ht, update_self, hover]
  · rw [update_of_ne ht]

/-- `exit` or `kill` ends a process. -/
theorem Procs.Ending.finish {e : ProcEvent} (h : s.Ending v₀ t) (hmoves : Moves s s' p .exiting [e])
    (hp : (s.pc p).over = false) (hother : ∀ u ≠ p, s'.exitStatus u = s.exitStatus u)
    (he : (∃ v, e = .exitCalled p v ∧ s'.exitStatus p = v) ∨
      e = .killed p ∧ s'.exitStatus p = v₀) : s'.Ending v₀ t := by
  have hends : e.ends = some p := by
    rcases he with ⟨v, rfl, -⟩ | ⟨rfl, -⟩
    · rfl
    · rfl
  by_cases ht : t = p
  · subst ht
    have hover : (s'.pc t).over = true := by
      rw [hmoves.pc, update_self]
      rfl
    have hnone := h.before hp
    rw [mem_ends, not_or, not_exists] at hnone
    refine ⟨fun hlive => ?_, fun _ hlive => ?_, fun _ => ?_⟩
    · rw [hover] at hlive
      cases hlive
    · rw [hover] at hlive
      cases hlive
    · rw [hmoves.log]
      simp only [List.mem_append, List.mem_singleton]
      rcases he with ⟨v, rfl, hv⟩ | ⟨rfl, hv⟩
      · refine Or.inl ⟨?_, ?_, ?_⟩
        · simp [hnone.2]
        · simp [hv]
        · intro w hw
          rcases hw with hw | hw
          · exact absurd hw (hnone.1 w)
          · cases hw
            exact hv.symm
      · refine Or.inr ⟨Or.inr rfl, hv, ?_⟩
        intro w hw
        rcases hw with hw | hw
        · exact hnone.1 w hw
        · cases hw
  · refine h.congr ?_ (hother t ht) hmoves.created.1 hmoves.log ?_
    · rw [hmoves.pc, update_of_ne ht]
    · simp [hends, ht]

theorem Procs.Ending.start : noProcs.Ending v₀ t := by
  refine ⟨?_, fun ht => absurd ht not_created_noProcs, ?_⟩
  · intro _ hmem
    cases hmem
  · intro hover
    by_cases ht : t = root
    · simp [noProcs, ht, Pc.over] at hover
    · simp [noProcs, ht, Pc.over] at hover

theorem Procs.Ending.threadCreate {u : Tid} {pos : ℕ} (h : s.Ending v₀ t) (hp : s.pc p = .user)
    (hu : s.pc u = .absent) : (threadCreate v₀ p u pos s).Ending v₀ t := by
  have hpu : p ≠ u := by
    rintro rfl
    rw [hp] at hu
    cases hu
  by_cases htu : t = u
  · subst htu
    have hpc : (Project4.threadCreate v₀ p t pos s).pc t = .loading := by
      simp [Project4.threadCreate, hpu.symm]
    refine ⟨fun _ => h.before (by rw [hu]; rfl), fun _ _ => ?_, fun hover => ?_⟩
    · simp [Project4.threadCreate]
    · rw [hpc] at hover
      cases hover
  · have hcreated : (Project4.threadCreate v₀ p u pos s).Created t → s.Created t := by
      intro ht
      refine ⟨ht.1, ?_⟩
      by_cases htp : t = p
      · simp [htp, hp]
      · simpa [Project4.threadCreate, htu, htp] using ht.2
    refine h.congr (l := []) ?_ ?_ hcreated (List.append_nil _).symm (by simp)
    · by_cases htp : t = p
      · simp [Project4.threadCreate, htp, hp, Pc.over]
      · simp [Project4.threadCreate, htu, htp]
    · simp [Project4.threadCreate, htu]

/-- Every step keeps what is known about the end of a process. -/
theorem Procs.Ending.step (h : ∀ t, s.Ending v₀ t) (hs : Trans v₀ s a s') (t : Tid) :
    s'.Ending v₀ t := by
  cases hs with
  | exec hp hu hpos =>
      exact (h t).threadCreate hp hu
  | @exit q status hp hroot =>
      exact (h t).finish ⟨rfl, rfl, rfl, by simp [hp], by simp⟩ (by rw [hp]; rfl)
        (fun u hu => update_of_ne hu _ _) (Or.inl ⟨status, rfl, update_self _ _ _⟩)
  | @fail q hp =>
      exact (h t).finish ⟨rfl, rfl, rfl, by simp [hp], by simp⟩ (by rw [hp]; rfl)
        (fun u hu => update_of_ne hu _ _) (Or.inl ⟨-1, rfl, update_self _ _ _⟩)
  | @kill q hp hroot =>
      have hv : s.exitStatus q = v₀ := (h q).initial ⟨hroot, by simp [hp]⟩ (by rw [hp]; rfl)
      exact (h t).finish ⟨rfl, rfl, rfl, by simp [hp], by simp⟩ (by rw [hp]; rfl) (fun _ _ => rfl)
        (Or.inr ⟨rfl, hv⟩)
  | wait hp | lower hp hlock | scanNext hp hc htodo | found hp htid | pass hp htid
  | down hp hlock | exitUp hp | exitDown hp hlock =>
      exact (h t).move (l := []) ⟨rfl, rfl, (List.append_nil _).symm, by simp [hp], by simp⟩
        (by rw [hp]; rfl) rfl rfl
  | @raise q success hp =>
      refine (h t).move (l := []) ⟨rfl, rfl, (List.append_nil _).symm, by simp [hp], ?_⟩ ?_ rfl rfl
      · cases success <;> simp
      · rw [hp]
        cases success <;> rfl
  | load hp | scanNone hp | scanHit hp hc | scanLast hp hc | read hp | unlink hp =>
      exact (h t).move ⟨rfl, rfl, rfl, by simp [hp], by simp⟩ (by rw [hp]; rfl) rfl rfl
  | @refuse q c tid hp =>
      refine (h t).move ⟨rfl, rfl, rfl, by simp [hp], by simp⟩ (by rw [hp]; rfl) rfl ?_
      cases c <;> rfl
  | @up q u c v hp =>
      refine (h t).move ⟨rfl, rfl, rfl, by simp [hp], by simp⟩ (by rw [hp]; rfl) rfl ?_
      cases c <;> rfl

end Ending

/-! ## The law of the handshake -/

/-- The children whose fields the next step of a process uses. -/
def Pc.accesses : Pc → List Tid
  | .execScan _ (c :: _) => [c]
  | .waitScan _ _ (t :: _) => [t]
  | .waitDown _ t | .waitRead _ t | .waitUnlink _ t _ | .waitUp _ t _ => [t]
  | _ => []

/-- What holds of `process_wait` and `process_exit` in a state. -/
structure HandshakeLaw (v₀ : ℤ) (s : Procs) : Prop where
  /-- what `process_wait` has returned for a child was passed to `exit` by it -/
  status : ∀ p t v, .waitReturned p t v ∈ s.log → .killed t ∉ s.log →
    .exitCalled t v ∈ s.log ∧ ∀ w, .exitCalled t w ∈ s.log → w = v
  /-- and it has been returned once -/
  once : ∀ t, (s.log.filterMap ProcEvent.hands).count t ≤ 1
  again : ∀ p t v, .waitReturned p t v ∈ s.log → ∀ q, t ∉ s.children q
  /-- the loop of `process_wait` does not miss a child that is listed -/
  found : ∀ p c tid, s.pc p = .waitScan c tid [] → ∀ t ∈ s.children p, tid ≠ t
  /-- and for a `tid` that is not listed it comes to its end without blocking and returns -1 -/
  refused : ∀ p c tid todo, s.pc p = .waitScan c tid todo → (∀ t ∈ s.children p, tid ≠ t) →
    ∃ s', procStep v₀ (.run p) s = some s' ∧
      ((∃ t rest, todo = t :: rest ∧ s'.pc p = .waitScan c tid rest) ∨
        todo = [] ∧ s' = waitReturn p c (-1) (.waitRefused p tid) s)
  /-- a child is gone only after its parent has fetched its status and unlinked it -/
  freed : ∀ t, s.Created t → s.pc t = .gone →
    .statusRead (s.parent t) t (s.exitStatus t) ∈ s.log ∧ .unlinked (s.parent t) t ∈ s.log
  /-- so no process uses a child that is gone -/
  used : ∀ p, ∀ t ∈ (s.pc p).accesses, s.Created t ∧ s.pc t ≠ .gone

section Law

variable {v₀ : ℤ} {s s' : Procs} {p t : Tid} {g : Stage}

theorem Procs.Child.of_gone (h : s.Child t g) (ht : s.pc t = .gone) : g = .gone := by
  have hc : (s.config t).life = (g.config (s.exitStatus t)).life := congrArg Config.life h.config
  rw [Procs.config, ht] at hc
  cases g <;> first | rfl | cases hc

theorem Procs.Child.not_gone (h : s.Child t g) (hlinked : t ∈ s.children (s.parent t)) :
    s.pc t ≠ .gone := by
  intro ht
  obtain rfl := h.of_gone ht
  have hc : (s.config t).linked = false := congrArg Config.linked h.config
  simp [Procs.config, hlinked] at hc

theorem Procs.Child.of_handed {q : Tid} {v : ℤ} (h : s.Child t g)
    (hv : .waitReturned q t v ∈ s.log) : g = .released ∨ g = .gone := by
  have hnot : ¬ g.rank < 5 := fun hg => h.not_handed hg q v hv
  cases g with
  | released =>
      exact Or.inl rfl
  | gone =>
      exact Or.inr rfl
  | running | exited | reading | read | unlinked =>
      exact absurd (by decide) hnot

theorem Procs.Child.not_running (h : s.Child t g) (hg : g = .released ∨ g = .gone) :
    (s.pc t).over = true ∧ t ∉ s.children (s.parent t) := by
  have hlife : (s.pc t).life = (g.config (s.exitStatus t)).life := congrArg Config.life h.config
  have hlinked : decide (t ∈ s.children (s.parent t)) = (g.config (s.exitStatus t)).linked :=
    congrArg Config.linked h.config
  rcases hg with rfl | rfl
  · refine ⟨?_, of_decide_eq_false hlinked⟩
    cases hpc : s.pc t <;> rw [hpc] at hlife <;> first | rfl | cases hlife
  · refine ⟨?_, of_decide_eq_false hlinked⟩
    cases hpc : s.pc t <;> rw [hpc] at hlife <;> first | rfl | cases hlife

/-- A process for which a status has been returned was created. -/
theorem Procs.Staged.handed_created (h : s.Staged) {q : Tid} {v : ℤ}
    (hv : .waitReturned q t v ∈ s.log) : s.Created t := by
  by_contra hnot
  exact h.fresh t hnot (List.mem_filterMap.2 ⟨_, hv, rfl⟩)

/-- A listed child is not gone. -/
theorem Procs.Staged.listed (h : s.Staged) (ht : t ∈ s.children p) :
    s.Created t ∧ s.pc t ≠ .gone := by
  obtain ⟨hparent, hcreated⟩ := h.tree.listed p t ht
  obtain ⟨g, hg⟩ := h.child t hcreated
  exact ⟨hcreated, hg.not_gone (hparent ▸ ht)⟩

theorem Procs.Staged.used (h : s.Staged) (ht : t ∈ (s.pc p).accesses) :
    s.Created t ∧ s.pc t ≠ .gone := by
  have hfits := h.tree.fits p
  cases hpc : s.pc p with
  | execScan u todo =>
      rw [hpc] at ht hfits
      cases todo with
      | nil =>
          cases ht
      | cons c rest =>
          obtain rfl := List.mem_singleton.1 ht
          exact h.listed (hfits.subset List.mem_cons_self)
  | waitScan c tid todo =>
      rw [hpc] at ht hfits
      cases todo with
      | nil =>
          cases ht
      | cons u rest =>
          obtain rfl := List.mem_singleton.1 ht
          exact h.listed (hfits.1 t List.mem_cons_self)
  | waitDown c u | waitRead c u | waitUnlink c u v =>
      rw [hpc] at ht hfits
      obtain rfl := List.mem_singleton.1 ht
      exact h.listed hfits
  | waitUp c u v =>
      -- the child is off the list and still waits for `mem_lock`
      rw [hpc] at ht hfits
      obtain rfl := List.mem_singleton.1 ht
      obtain ⟨hparent, hcreated⟩ := hfits
      obtain ⟨g, hg⟩ := h.child t hcreated
      obtain ⟨rfl, -⟩ := hg.of_unlinked (v := v) (by simp [hparent, hpc, Pc.claimOn])
      refine ⟨hcreated, fun hgone => ?_⟩
      cases hg.of_gone hgone
  | absent | loading | loaded b | failed | user | execDown u | exiting | exitDown | gone =>
      rw [hpc] at ht
      cases ht

theorem Procs.Staged.refused {c : Caller} {tid : ℤ} {todo : List Tid}
    (hp : s.pc p = .waitScan c tid todo) (hnot : ∀ t ∈ todo, tid ≠ t) :
    ∃ s', procStep v₀ (.run p) s = some s' ∧
      ((∃ t rest, todo = t :: rest ∧ s'.pc p = .waitScan c tid rest) ∨
        todo = [] ∧ s' = waitReturn p c (-1) (.waitRefused p tid) s) := by
  cases todo with
  | nil =>
      refine ⟨_, ?_, Or.inr ⟨rfl, rfl⟩⟩
      simp only [procStep, runStep, hp]
  | cons t rest =>
      have ht : tid ≠ t := hnot t List.mem_cons_self
      refine ⟨s.goto p (.waitScan c tid rest), ?_, Or.inl ⟨t, rest, rfl, ?_⟩⟩
      · simp only [procStep, runStep, hp, if_neg ht]
      · simp [Procs.goto]

/-- The law follows from the invariants. -/
theorem Procs.Staged.law (h : s.Staged) (hend : ∀ t, s.Ending v₀ t) : HandshakeLaw v₀ s where
  status p t v hv hkill := by
    obtain ⟨g, hg⟩ := h.child t (h.handed_created hv)
    have hover := (hg.not_running (hg.of_handed hv)).1
    obtain ⟨-, rfl⟩ := hg.value p v hv
    rcases (hend t).after hover with ⟨-, hexit, honly⟩ | ⟨hkilled, -⟩
    · exact ⟨hexit, honly⟩
    · exact absurd hkilled hkill
  once t := by
    by_cases ht : s.Created t
    · obtain ⟨g, hg⟩ := h.child t ht
      rw [hg.handed]
      split <;> omega
    · rw [List.count_eq_zero.2 (h.fresh t ht)]
      omega
  again p t v hv q hq := by
    obtain ⟨g, hg⟩ := h.child t (h.handed_created hv)
    have hnot := (hg.not_running (hg.of_handed hv)).2
    rw [(h.tree.listed q t hq).1] at hnot
    exact hnot hq
  found p c tid hp t ht heq := by
    have hfits := h.tree.fits p
    rw [hp] at hfits
    cases hfits.2 t ht heq
  refused p c tid todo hp hnot := by
    have hfits := h.tree.fits p
    rw [hp] at hfits
    exact Procs.Staged.refused hp fun t ht => hnot t (hfits.1 t ht)
  freed t ht hgone := by
    obtain ⟨g, hg⟩ := h.child t ht
    obtain rfl := hg.of_gone hgone
    exact ⟨hg.statusRead (by decide), hg.unlinked (by decide)⟩
  used p t ht := h.used ht

theorem ending_of_reach {P : Procs → ProcAct → Prop} (h : Reach (procStep v₀) P noProcs s) :
    ∀ t, s.Ending v₀ t := by
  refine @Reach.invariant _ _ _ _ _ _ (fun s => ∀ t, s.Ending v₀ t) ?_ ?_ h
  · exact fun _ => Procs.Ending.start
  · intro s a s' hi _ hs
    exact Procs.Ending.step hi (trans_of_procStep hs)

/-- In every state that processes reach with `exec`, `wait` and `exit` in any order, the law
holds. -/
theorem wait_exit_handshake {v₀ : ℤ} {s : Procs}
    (h : Reach (procStep v₀) (fun _ _ => True) noProcs s) : HandshakeLaw v₀ s :=
  (staged_of_reach h).law (ending_of_reach h)

/-- The initial thread starts process 1 and waits for it, which exits with 7. -/
def waitActs : List ProcAct :=
  [.exec 0 1 0, .load 1 true, .run 1, .run 0, .run 0, .wait 0 1, .run 0, .exit 1 7, .run 1, .run 0,
    .run 0, .run 0, .run 0, .run 1]

theorem wait_exit_handshake_wait :
    HandshakeLaw 0 ((runAll (procStep 0) waitActs noProcs).get (by decide +kernel)) :=
  wait_exit_handshake (Reach.get_runAll _ fun _ _ _ => trivial)

example : ((runAll (procStep 0) waitActs noProcs).map Procs.log) =
    some [.loaded 1 true, .execReturned 0 1 1, .exitCalled 1 7, .statusRead 0 1 7, .unlinked 0 1,
      .waitReturned 0 1 7] := by
  decide +kernel

end Law

end Project4
end Pintos
