import Pintos.Project4.Processes

/-!
# Handshake — a child and its parent, from `thread_create` to the end of the child

Between a parent and each of its children the protocol has seven stages.  `Procs.config` reads off
the state what the two have agreed on so far, and every step of the system moves a child at most to
its next stage.
-/

namespace Pintos
namespace Project4

open Function Lib

/-! ## The cases of a step -/

/-- What a step can do. -/
inductive Trans (v₀ : ℤ) (s : Procs) : ProcAct → Procs → Prop
  | exec {p t : Tid} {pos : ℕ} (hp : s.pc p = .user) (ht : s.pc t = .absent)
      (hpos : pos ≤ (s.children p).length) : Trans v₀ s (.exec p t pos) (threadCreate v₀ p t pos s)
  | wait {p : Tid} {tid : ℤ} (hp : s.pc p = .user) :
      Trans v₀ s (.wait p tid) (s.goto p (.waitScan .wait tid (s.children p)))
  | exit {p : Tid} {status : ℤ} (hp : s.pc p = .user) (hroot : p ≠ root) :
      Trans v₀ s (.exit p status) (exitWith p status s)
  | kill {p : Tid} (hp : s.pc p = .user) (hroot : p ≠ root) :
      Trans v₀ s (.kill p) ((s.goto p .exiting).record (.killed p))
  | load {t : Tid} {success : Bool} (ht : s.pc t = .loading) :
      Trans v₀ s (.load t success) ((s.goto t (.loaded success)).record (.loaded t success))
  | raise {p : Tid} {success : Bool} (hp : s.pc p = .loaded success) :
      Trans v₀ s (.run p)
        (({ s with
            loadLock := update s.loadLock (s.parent p) (s.loadLock (s.parent p) + 1) } : Procs).goto
          p (if success then .user else .failed))
  | fail {p : Tid} (hp : s.pc p = .failed) : Trans v₀ s (.run p) (exitWith p (-1) s)
  | lower {p t : Tid} (hp : s.pc p = .execDown t) (hlock : s.loadLock p ≠ 0) :
      Trans v₀ s (.run p)
        (({ s with loadLock := update s.loadLock p (s.loadLock p - 1) } : Procs).goto p
          (.execScan t (s.children p)))
  | scanNone {p t : Tid} (hp : s.pc p = .execScan t []) :
      Trans v₀ s (.run p) ((s.goto p .user).record (.execReturned p t t))
  | scanHit {p t c : Tid} {todo : List Tid} (hp : s.pc p = .execScan t (c :: todo))
      (hc : s.exitStatus c = -1) :
      Trans v₀ s (.run p)
        ((s.goto p (.waitScan (.exec t) t (s.children p))).record (.execWaits p t))
  | scanLast {p t c : Tid} (hp : s.pc p = .execScan t [c]) (hc : s.exitStatus c ≠ -1) :
      Trans v₀ s (.run p) ((s.goto p .user).record (.execReturned p t t))
  | scanNext {p t c : Tid} {todo : List Tid} (hp : s.pc p = .execScan t (c :: todo))
      (hc : s.exitStatus c ≠ -1) (htodo : todo ≠ []) :
      Trans v₀ s (.run p) (s.goto p (.execScan t todo))
  | refuse {p : Tid} {c : Caller} {tid : ℤ} (hp : s.pc p = .waitScan c tid []) :
      Trans v₀ s (.run p) (waitReturn p c (-1) (.waitRefused p tid) s)
  | found {p t : Tid} {c : Caller} {tid : ℤ} {todo : List Tid}
      (hp : s.pc p = .waitScan c tid (t :: todo)) (ht : tid = t) :
      Trans v₀ s (.run p) (s.goto p (.waitDown c t))
  | pass {p t : Tid} {c : Caller} {tid : ℤ} {todo : List Tid}
      (hp : s.pc p = .waitScan c tid (t :: todo)) (ht : tid ≠ t) :
      Trans v₀ s (.run p) (s.goto p (.waitScan c tid todo))
  | down {p t : Tid} {c : Caller} (hp : s.pc p = .waitDown c t) (hlock : s.childLock t ≠ 0) :
      Trans v₀ s (.run p)
        (({ s with childLock := update s.childLock t (s.childLock t - 1) } : Procs).goto p
          (.waitRead c t))
  | read {p t : Tid} {c : Caller} (hp : s.pc p = .waitRead c t) :
      Trans v₀ s (.run p)
        ((s.goto p (.waitUnlink c t (s.exitStatus t))).record (.statusRead p t (s.exitStatus t)))
  | unlink {p t : Tid} {c : Caller} {v : ℤ} (hp : s.pc p = .waitUnlink c t v) :
      Trans v₀ s (.run p)
        ((({ s with children := update s.children p ((s.children p).erase t) } : Procs).goto p
          (.waitUp c t v)).record (.unlinked p t))
  | up {p t : Tid} {c : Caller} {v : ℤ} (hp : s.pc p = .waitUp c t v) :
      Trans v₀ s (.run p)
        (waitReturn p c v (.waitReturned p t v)
          { s with memLock := update s.memLock t (s.memLock t + 1) })
  | exitUp {p : Tid} (hp : s.pc p = .exiting) :
      Trans v₀ s (.run p)
        (({ s with childLock := update s.childLock p (s.childLock p + 1) } : Procs).goto p .exitDown)
  | exitDown {p : Tid} (hp : s.pc p = .exitDown) (hlock : s.memLock p ≠ 0) :
      Trans v₀ s (.run p)
        (({ s with memLock := update s.memLock p (s.memLock p - 1) } : Procs).goto p .gone)

theorem trans_of_runStep {v₀ : ℤ} {s s' : Procs} {p : Tid} (h : runStep p s = some s') :
    Trans v₀ s (.run p) s' := by
  unfold runStep at h
  split at h
  · next hp =>
      cases h
      exact .raise hp
  · next hp =>
      cases h
      exact .fail hp
  · next hp =>
      split at h
      · cases h
      · next hlock =>
          cases h
          exact .lower hp hlock
  · next hp =>
      cases h
      exact .scanNone hp
  · next hp =>
      split at h
      · next hc =>
          cases h
          exact .scanHit hp hc
      · next hc =>
          split at h
          · next htodo =>
              subst htodo
              cases h
              exact .scanLast hp hc
          · next htodo =>
              cases h
              exact .scanNext hp hc htodo
  · next hp =>
      cases h
      exact .refuse hp
  · next hp =>
      split at h
      · next ht =>
          cases h
          exact .found hp ht
      · next ht =>
          cases h
          exact .pass hp ht
  · next hp =>
      split at h
      · cases h
      · next hlock =>
          cases h
          exact .down hp hlock
  · next hp =>
      cases h
      exact .read hp
  · next hp =>
      cases h
      exact .unlink hp
  · next hp =>
      cases h
      exact .up hp
  · next hp =>
      cases h
      exact .exitUp hp
  · next hp =>
      split at h
      · cases h
      · next hlock =>
          cases h
          exact .exitDown hp hlock
  · cases h
  · cases h
  · cases h
  · cases h

theorem trans_of_procStep {v₀ : ℤ} {s s' : Procs} {a : ProcAct} (h : procStep v₀ a s = some s') :
    Trans v₀ s a s' := by
  cases a with
  | exec p t pos =>
      obtain ⟨⟨hp, ht, hpos⟩, ⟨⟩⟩ := Option.ite_none_right_eq_some.1 h
      exact .exec hp ht hpos
  | wait p tid =>
      obtain ⟨hp, ⟨⟩⟩ := Option.ite_none_right_eq_some.1 h
      exact .wait hp
  | exit p status =>
      obtain ⟨⟨hp, hroot⟩, ⟨⟩⟩ := Option.ite_none_right_eq_some.1 h
      exact .exit hp hroot
  | kill p =>
      obtain ⟨⟨hp, hroot⟩, ⟨⟩⟩ := Option.ite_none_right_eq_some.1 h
      exact .kill hp hroot
  | load t success =>
      obtain ⟨ht, ⟨⟩⟩ := Option.ite_none_right_eq_some.1 h
      exact .load ht
  | run p =>
      exact trans_of_runStep h

/-! ## The stages -/

/-- How far a child and its parent are. -/
inductive Stage
  | running
  /-- the child has raised `child_lock` -/
  | exited
  /-- the parent has lowered it -/
  | reading
  | read
  /-- the parent has unlinked the child -/
  | unlinked
  /-- and raised `mem_lock` -/
  | released
  | gone
  deriving DecidableEq

/-- What `process_wait` has of a child after the `sema_down`. -/
inductive Claim
  | none
  | reading
  | read (status : ℤ)
  | unlinked (status : ℤ)
  deriving DecidableEq

inductive Life
  | running
  | exitDown
  | gone
  deriving DecidableEq

def Pc.claimOn (t : Tid) : Pc → Claim
  | .waitRead _ u => if u = t then .reading else .none
  | .waitUnlink _ u v => if u = t then .read v else .none
  | .waitUp _ u v => if u = t then .unlinked v else .none
  | _ => .none

def Pc.life : Pc → Life
  | .exitDown => .exitDown
  | .gone => .gone
  | _ => .running

/-- What can be seen of a child and its parent. -/
structure Config where
  linked : Bool
  claim : Claim
  childLock : ℕ
  memLock : ℕ
  life : Life

def Stage.config (v : ℤ) : Stage → Config
  | .running => ⟨true, .none, 0, 0, .running⟩
  | .exited => ⟨true, .none, 1, 0, .exitDown⟩
  | .reading => ⟨true, .reading, 0, 0, .exitDown⟩
  | .read => ⟨true, .read v, 0, 0, .exitDown⟩
  | .unlinked => ⟨false, .unlinked v, 0, 0, .exitDown⟩
  | .released => ⟨false, .none, 0, 1, .exitDown⟩
  | .gone => ⟨false, .none, 0, 0, .gone⟩

def Procs.config (s : Procs) (t : Tid) : Config where
  linked := decide (t ∈ s.children (s.parent t))
  claim := (s.pc (s.parent t)).claimOn t
  childLock := s.childLock t
  memLock := s.memLock t
  life := (s.pc t).life

/-! ## The tree -/

/-- The processes that have been created by others. -/
def Procs.Created (s : Procs) (t : Tid) : Prop := t ≠ root ∧ s.pc t ≠ .absent

/-- The process runs its program or a call that it has made. -/
def Pc.active : Pc → Bool
  | .absent | .loading | .loaded _ | .failed | .exiting | .exitDown | .gone => false
  | _ => true

/-- The children that the calls of `p` refer to are its own. -/
def Fits (s : Procs) (p : Tid) : Pc → Prop
  | .execScan _ todo => todo <:+ s.children p
  | .waitScan _ tid todo =>
      (∀ t ∈ todo, t ∈ s.children p) ∧ ∀ t ∈ s.children p, tid = t → t ∈ todo
  | .waitDown _ t | .waitRead _ t | .waitUnlink _ t _ => t ∈ s.children p
  | .waitUp _ t _ => s.parent t = p ∧ s.Created t
  | _ => True

structure Procs.Tree (s : Procs) : Prop where
  nodup : ∀ p, (s.children p).Nodup
  listed : ∀ p t, t ∈ s.children p → s.parent t = p ∧ s.Created t
  parent : ∀ t, s.Created t → s.parent t ≠ t ∧ s.pc (s.parent t) ≠ .absent
  root : (s.pc root).active = true
  fits : ∀ p, Fits s p (s.pc p)

section Tree

variable {v₀ : ℤ} {s s' : Procs} {p t : Tid} {a : ProcAct} {k : Pc}

theorem Pc.active_ne_absent (h : k.active = true) : k ≠ .absent := by
  rintro rfl
  cases h

theorem created_goto (hpc : s'.pc = update s.pc p k) (hp : s.pc p ≠ .absent)
    (hk : k ≠ .absent) : s'.Created t ↔ s.Created t := by
  unfold Procs.Created
  rw [hpc]
  by_cases ht : t = p
  · subst ht
    simp [hp, hk]
  · rw [update_of_ne ht]

theorem Fits.congr (h : Fits s p k) (hchildren : s'.children p = s.children p)
    (hcreated : ∀ t, s.Created t → s'.parent t = s.parent t ∧ s'.Created t) : Fits s' p k := by
  cases k with
  | execScan t todo =>
      exact (congrArg (todo <:+ ·) hchildren).mpr h
  | waitScan c tid todo =>
      exact ⟨fun u hu => hchildren ▸ h.1 u hu, fun u hu => h.2 u (hchildren ▸ hu)⟩
  | waitDown c t | waitRead c t | waitUnlink c t v =>
      exact (congrArg (t ∈ ·) hchildren).mpr h
  | waitUp c t v =>
      obtain ⟨hparent, hnew⟩ := hcreated t h.2
      exact ⟨hparent.trans h.1, hnew⟩
  | absent | loading | loaded success | failed | user | execDown t | exiting | exitDown | gone =>
      trivial

/-- A process goes on to a place that fits. -/
theorem Procs.Tree.goto (h : s.Tree) (hpc : s'.pc = update s.pc p k)
    (hparent : s'.parent = s.parent) (hchildren : s'.children = s.children)
    (hp : s.pc p ≠ .absent) (hk : k ≠ .absent) (hroot : p = Project4.root → k.active = true)
    (hfits : Fits s p k) : s'.Tree := by
  have hcreated : ∀ t, s'.Created t ↔ s.Created t := fun t => created_goto hpc hp hk
  have hkept : ∀ {q k}, Fits s q k → Fits s' q k := fun hq =>
    hq.congr (congrFun hchildren _) fun t ht => ⟨congrFun hparent t, (hcreated t).2 ht⟩
  refine ⟨?_, ?_, ?_, ?_, ?_⟩
  · intro q
    rw [hchildren]
    exact h.nodup q
  · intro q t ht
    rw [hchildren] at ht
    rw [hparent, hcreated]
    exact h.listed q t ht
  · intro t ht
    obtain ⟨hne, hlive⟩ := h.parent t ((hcreated t).1 ht)
    rw [hparent]
    refine ⟨hne, ?_⟩
    rw [hpc]
    by_cases hq : s.parent t = p
    · rwa [hq, update_self]
    · rwa [update_of_ne hq]
  · rw [hpc]
    by_cases hq : Project4.root = p
    · rw [hq, update_self]
      exact hroot hq.symm
    · rw [update_of_ne hq]
      exact h.root
  · intro q
    rw [hpc]
    by_cases hq : q = p
    · rw [hq, update_self]
      exact hkept hfits
    · rw [update_of_ne hq]
      exact hkept (h.fits q)

theorem Procs.Tree.threadCreate {pos : ℕ} (h : s.Tree) (hp : s.pc p = .user)
    (ht : s.pc t = .absent) (hpos : pos ≤ (s.children p).length) :
    (threadCreate v₀ p t pos s).Tree := by
  have hpt : p ≠ t := by
    rintro rfl
    rw [hp] at ht
    cases ht
  have htroot : t ≠ Project4.root := by
    rintro rfl
    exact Pc.active_ne_absent h.root ht
  -- `t` is new: it was created by nobody and is on no list
  have hfresh : ¬ s.Created t := fun hc => hc.2 ht
  have hnot : ∀ q, t ∉ s.children q := fun q hq => hfresh (h.listed q t hq).2
  have hmem : ∀ u, u ∈ (s.children p).insertIdx pos t ↔ u = t ∨ u ∈ s.children p := fun u =>
    List.mem_insertIdx hpos
  have hcreated : ∀ u, (Project4.threadCreate v₀ p t pos s).Created u ↔ u = t ∨ s.Created u := by
    intro u
    simp only [Procs.Created, Project4.threadCreate, update_apply]
    by_cases hut : u = t
    · simp [hut, hpt.symm, htroot]
    · by_cases hup : u = p
      · simp [hup, hpt, hp]
      · simp [hut, hup]
  refine ⟨?_, ?_, ?_, ?_, ?_⟩
  · intro q
    by_cases hq : q = p
    · subst hq
      -- the list of the creator is the old one with `t` somewhere in it
      have hperm := List.perm_insertIdx t (s.children q) hpos
      simpa [Project4.threadCreate, hperm.nodup_iff] using ⟨hnot q, h.nodup q⟩
    · by_cases hqt : q = t
      · simp [Project4.threadCreate, hqt, hpt.symm]
      · simpa [Project4.threadCreate, hq, hqt] using h.nodup q
  · intro q u hu
    rw [hcreated]
    by_cases hq : q = p
    · subst hq
      have hu' : u = t ∨ u ∈ s.children q := by
        simpa [Project4.threadCreate, hmem] using hu
      rcases hu' with rfl | hu'
      · exact ⟨by simp [Project4.threadCreate], Or.inl rfl⟩
      · obtain ⟨hparent, hold⟩ := h.listed q u hu'
        have hut : u ≠ t := fun heq => hfresh (heq ▸ hold)
        exact ⟨by simpa [Project4.threadCreate, hut] using hparent, Or.inr hold⟩
    · by_cases hqt : q = t
      · -- the new process has no children
        simp [Project4.threadCreate, hqt, hpt.symm] at hu
      · have hu' : u ∈ s.children q := by
          simpa [Project4.threadCreate, hq, hqt] using hu
        obtain ⟨hparent, hold⟩ := h.listed q u hu'
        have hut : u ≠ t := fun heq => hfresh (heq ▸ hold)
        exact ⟨by simpa [Project4.threadCreate, hut] using hparent, Or.inr hold⟩
  · intro u hu
    rcases (hcreated u).1 hu with rfl | hold
    · simp [Project4.threadCreate, hpt]
    · have hut : u ≠ t := fun heq => hfresh (heq ▸ hold)
      obtain ⟨hne, hlive⟩ := h.parent u hold
      -- a parent is older than its child, so it is not `t`
      have hpu : s.parent u ≠ t := fun heq => hlive (heq ▸ ht)
      refine ⟨by simpa [Project4.threadCreate, hut] using hne, ?_⟩
      by_cases hup : s.parent u = p
      · simp [Project4.threadCreate, hut, hup]
      · simpa [Project4.threadCreate, hut, hup, hpu] using hlive
  · by_cases hroot : Project4.root = p
    · simp [Project4.threadCreate, ← hroot, Pc.active]
    · simpa [Project4.threadCreate, hroot, Ne.symm htroot] using h.root
  · intro q
    by_cases hq : q = p
    · subst hq
      simp [Project4.threadCreate, Fits]
    · by_cases hqt : q = t
      · simp [Project4.threadCreate, hqt, hpt.symm, Fits]
      · -- any other process: its list and its calls are as before
        have hfits := h.fits q
        have hpc : (Project4.threadCreate v₀ p t pos s).pc q = s.pc q := by
          simp [Project4.threadCreate, hq, hqt]
        rw [hpc]
        refine hfits.congr (by simp [Project4.threadCreate, hq, hqt]) ?_
        intro u hu
        have hut : u ≠ t := fun heq => hfresh (heq ▸ hu)
        exact ⟨by simp [Project4.threadCreate, hut], (hcreated u).2 (Or.inr hu)⟩

theorem Procs.Tree.unlink {c : Caller} {v : ℤ} (h : s.Tree) (hp : s.pc p = .waitUnlink c t v)
    (hpc : s'.pc = update s.pc p (.waitUp c t v)) (hparent : s'.parent = s.parent)
    (hchildren : s'.children = update s.children p ((s.children p).erase t)) : s'.Tree := by
  have ht : t ∈ s.children p := by simpa [Fits, hp] using h.fits p
  have hlive : s.pc p ≠ .absent := by simp [hp]
  have hcreated : ∀ u, s'.Created u ↔ s.Created u := fun u => created_goto hpc hlive (by simp)
  -- lists only get shorter
  have hsub : ∀ q u, u ∈ s'.children q → u ∈ s.children q := by
    intro q u hu
    rw [hchildren] at hu
    by_cases hq : q = p
    · subst hq
      rw [update_self] at hu
      exact List.mem_of_mem_erase hu
    · rwa [update_of_ne hq] at hu
  refine ⟨?_, ?_, ?_, ?_, ?_⟩
  · intro q
    rw [hchildren]
    by_cases hq : q = p
    · subst hq
      rw [update_self]
      exact (h.nodup q).erase t
    · rw [update_of_ne hq]
      exact h.nodup q
  · intro q u hu
    rw [hparent, hcreated]
    exact h.listed q u (hsub q u hu)
  · intro u hu
    obtain ⟨hne, hplive⟩ := h.parent u ((hcreated u).1 hu)
    rw [hparent, hpc]
    refine ⟨hne, ?_⟩
    by_cases hq : s.parent u = p
    · simp [hq]
    · rwa [update_of_ne hq]
  · rw [hpc]
    by_cases hq : Project4.root = p
    · rw [hq, update_self]
      rfl
    · rw [update_of_ne hq]
      exact h.root
  · intro q
    rw [hpc]
    by_cases hq : q = p
    · subst hq
      rw [update_self]
      -- behind `list_remove` the caller still refers to its own child
      obtain ⟨hpt, hold⟩ := h.listed q t ht
      exact ⟨by rw [hparent, hpt], (hcreated t).2 hold⟩
    · rw [update_of_ne hq]
      refine (h.fits q).congr (by rw [hchildren, update_of_ne hq]) ?_
      exact fun u hu => ⟨congrFun hparent u, (hcreated u).2 hu⟩

theorem Procs.Tree.ne_root (h : s.Tree) (hp : (s.pc p).active = false) : p ≠ Project4.root := by
  rintro rfl
  rw [h.root] at hp
  cases hp

/-- Every step keeps the tree. -/
theorem Procs.Tree.step (h : s.Tree) (hs : Trans v₀ s a s') : s'.Tree := by
  cases hs with
  | exec hp ht hpos =>
      exact h.threadCreate hp ht hpos
  | unlink hp =>
      exact h.unlink hp rfl rfl rfl
  | wait hp | scanHit hp hc =>
      -- a scan starts with the whole list
      exact h.goto rfl rfl rfl (by simp [hp]) (by simp) (fun _ => rfl)
        ⟨fun _ hu => hu, fun _ hu _ => hu⟩
  | exit hp hroot | kill hp hroot =>
      exact h.goto rfl rfl rfl (by simp [hp]) (by simp) (fun heq => absurd heq hroot) trivial
  | load hp | fail hp | exitUp hp | exitDown hp hlock =>
      -- only a process that is not the root gets here
      have hroot := h.ne_root (by rw [hp]; rfl)
      exact h.goto rfl rfl rfl (by simp [hp]) (by simp) (fun heq => absurd heq hroot) trivial
  | @raise p success hp =>
      have hroot := h.ne_root (by rw [hp]; rfl)
      refine h.goto rfl rfl rfl (by simp [hp]) ?_ (fun heq => absurd heq hroot) ?_
      · cases success <;> simp
      · cases success <;> trivial
  | lower hp hlock =>
      exact h.goto rfl rfl rfl (by simp [hp]) (by simp) (fun _ => rfl) List.suffix_rfl
  | scanNone hp | scanLast hp hc | refuse hp | up hp =>
      exact h.goto rfl rfl rfl (by simp [hp]) (by simp) (fun _ => rfl) trivial
  | @scanNext p t c todo hp hc htodo =>
      have hfits := h.fits p
      rw [hp] at hfits
      exact h.goto rfl rfl rfl (by simp [hp]) (by simp) (fun _ => rfl)
        ((List.suffix_cons c todo).trans hfits)
  | @found p t c tid todo hp ht =>
      have hfits := h.fits p
      rw [hp] at hfits
      exact h.goto rfl rfl rfl (by simp [hp]) (by simp) (fun _ => rfl)
        (hfits.1 t List.mem_cons_self)
  | @pass p t c tid todo hp ht =>
      have hfits := h.fits p
      rw [hp] at hfits
      refine h.goto rfl rfl rfl (by simp [hp]) (by simp) (fun _ => rfl) ⟨?_, ?_⟩
      · intro u hu
        exact hfits.1 u (List.mem_cons_of_mem t hu)
      · intro u hu hut
        -- the child passed by was not the one asked for, so that one is still to come
        rcases List.mem_cons.1 (hfits.2 u hu hut) with rfl | hrest
        · exact absurd hut ht
        · exact hrest
  | @down p t c hp hlock | @read p t c hp =>
      have hfits := h.fits p
      rw [hp] at hfits
      exact h.goto rfl rfl rfl (by simp [hp]) (by simp) (fun _ => rfl) hfits

end Tree

/-! ## One child -/

/-- The child whose status `process_wait` has returned. -/
def ProcEvent.hands : ProcEvent → Option Tid
  | .waitReturned _ t _ => some t
  | _ => none

def Stage.rank : Stage → ℕ
  | .running => 0
  | .exited => 1
  | .reading => 2
  | .read => 3
  | .unlinked => 4
  | .released => 5
  | .gone => 6

/-- A child at a stage, with what has happened before. -/
structure Procs.Child (s : Procs) (t : Tid) (g : Stage) : Prop where
  config : s.config t = g.config (s.exitStatus t)
  statusRead : 3 ≤ g.rank → .statusRead (s.parent t) t (s.exitStatus t) ∈ s.log
  unlinked : 4 ≤ g.rank → .unlinked (s.parent t) t ∈ s.log
  handed : (s.log.filterMap ProcEvent.hands).count t = if 5 ≤ g.rank then 1 else 0
  value : ∀ p v, .waitReturned p t v ∈ s.log → p = s.parent t ∧ v = s.exitStatus t

section Child

variable {v₀ : ℤ} {s s' : Procs} {p t : Tid} {a : ProcAct} {k : Pc} {g : Stage}
  {l : List ProcEvent}

theorem config_goto (hpc : s'.pc = update s.pc p k)
    (hparent : s'.parent t = s.parent t)
    (hlinked : t ∈ s'.children (s.parent t) ↔ t ∈ s.children (s.parent t))
    (hchild : s'.childLock t = s.childLock t) (hmem : s'.memLock t = s.memLock t)
    (hclaim : s.parent t = p → k.claimOn t = (s.pc p).claimOn t)
    (hlife : t = p → k.life = (s.pc p).life) : s'.config t = s.config t := by
  have hclaim' : (s'.pc (s.parent t)).claimOn t = (s.pc (s.parent t)).claimOn t := by
    rw [hpc]
    by_cases hq : s.parent t = p
    · rw [hq, update_self, hclaim hq]
    · rw [update_of_ne hq]
  have hlife' : (s'.pc t).life = (s.pc t).life := by
    rw [hpc]
    by_cases ht : t = p
    · rw [ht, update_self, hlife ht]
    · rw [update_of_ne ht]
  simp only [Procs.config, hparent, hlinked, hchild, hmem, hclaim', hlife']

/-- Nothing has been handed over for a child before it is released. -/
theorem Procs.Child.not_handed (h : s.Child t g) (hg : g.rank < 5) (q : Tid) (v : ℤ) :
    .waitReturned q t v ∉ s.log := by
  intro hmem
  have hcount := h.handed
  rw [if_neg (by omega), List.count_eq_zero] at hcount
  exact hcount (List.mem_filterMap.2 ⟨_, hmem, rfl⟩)

/-- A step that is not about the child. -/
theorem Procs.Child.keep (h : s.Child t g) (hconfig : s'.config t = s.config t)
    (hparent : s'.parent t = s.parent t)
    (hstatus : s'.exitStatus t = s.exitStatus t ∨ g = .running) (hlog : s'.log = s.log ++ l)
    (hes : t ∉ l.filterMap ProcEvent.hands) : s'.Child t g := by
  have hhands : (s'.log.filterMap ProcEvent.hands).count t =
      (s.log.filterMap ProcEvent.hands).count t := by
    rw [hlog, List.filterMap_append, List.count_append, List.count_eq_zero.2 hes, Nat.add_zero]
  have hold : ∀ q v, .waitReturned q t v ∈ s'.log → .waitReturned q t v ∈ s.log := by
    intro q v hv
    rw [hlog, List.mem_append] at hv
    rcases hv with hv | hv
    · exact hv
    · exact (hes (List.mem_filterMap.2 ⟨_, hv, rfl⟩)).elim
  -- the status of a running child may change, for nobody has read it
  rcases hstatus with hstatus | rfl
  · refine ⟨?_, ?_, ?_, ?_, ?_⟩
    · rw [hconfig, h.config, hstatus]
    · intro hg
      rw [hparent, hstatus, hlog]
      exact List.mem_append_left _ (h.statusRead hg)
    · intro hg
      rw [hparent, hlog]
      exact List.mem_append_left _ (h.unlinked hg)
    · rw [hhands, h.handed]
    · intro q v hv
      rw [hparent, hstatus]
      exact h.value q v (hold q v hv)
  · refine ⟨?_, ?_, ?_, ?_, ?_⟩
    · rw [hconfig, h.config]
      rfl
    · intro hg
      cases hg
    · intro hg
      cases hg
    · rw [hhands, h.handed]
    · intro q v hv
      exact absurd (hold q v hv) (h.not_handed (by decide) q v)

/-! ### The stage of a child -/

theorem Procs.Child.of_running (h : s.Child t g) (hlife : (s.pc t).life = .running) :
    g = .running := by
  have hc : (s.config t).life = (g.config (s.exitStatus t)).life := congrArg Config.life h.config
  rw [Procs.config, hlife] at hc
  cases g <;> first | rfl | cases hc

theorem Procs.Child.of_childLock (h : s.Child t g) (hlock : s.childLock t ≠ 0) : g = .exited := by
  have hc : s.childLock t = (g.config (s.exitStatus t)).childLock :=
    congrArg Config.childLock h.config
  rw [hc] at hlock
  cases g <;> first | rfl | exact absurd rfl hlock

theorem Procs.Child.of_memLock (h : s.Child t g) (hlock : s.memLock t ≠ 0) : g = .released := by
  have hc : s.memLock t = (g.config (s.exitStatus t)).memLock := congrArg Config.memLock h.config
  rw [hc] at hlock
  cases g <;> first | rfl | exact absurd rfl hlock

theorem Procs.Child.of_reading (h : s.Child t g)
    (hclaim : (s.pc (s.parent t)).claimOn t = .reading) : g = .reading := by
  have hc : (s.config t).claim = (g.config (s.exitStatus t)).claim := congrArg Config.claim h.config
  rw [Procs.config, hclaim] at hc
  cases g <;> first | rfl | cases hc

theorem Procs.Child.of_read {v : ℤ} (h : s.Child t g)
    (hclaim : (s.pc (s.parent t)).claimOn t = .read v) : g = .read ∧ v = s.exitStatus t := by
  have hc : (s.config t).claim = (g.config (s.exitStatus t)).claim := congrArg Config.claim h.config
  rw [Procs.config, hclaim] at hc
  cases g with
  | read =>
      exact ⟨rfl, Claim.read.inj hc⟩
  | running | exited | reading | unlinked | released | gone =>
      cases hc

theorem Procs.Child.of_unlinked {v : ℤ} (h : s.Child t g)
    (hclaim : (s.pc (s.parent t)).claimOn t = .unlinked v) :
    g = .unlinked ∧ v = s.exitStatus t := by
  have hc : (s.config t).claim = (g.config (s.exitStatus t)).claim := congrArg Config.claim h.config
  rw [Procs.config, hclaim] at hc
  cases g with
  | unlinked =>
      exact ⟨rfl, Claim.unlinked.inj hc⟩
  | running | exited | reading | read | released | gone =>
      cases hc

/-! ### The moves -/

/-- A place in which a process has nothing of a child and has not raised its `child_lock`. -/
structure Pc.Quiet (k : Pc) : Prop where
  life : k.life = .running
  claim : ∀ t, k.claimOn t = .none

/-- A step from one quiet place to another. -/
theorem Procs.Child.quiet (h : s.Child t g) (hpc : s'.pc = update s.pc p k)
    (hparent : s'.parent = s.parent) (hchildren : s'.children = s.children)
    (hstatus : t ≠ p → s'.exitStatus t = s.exitStatus t) (hchild : s'.childLock = s.childLock)
    (hmem : s'.memLock = s.memLock) (hlog : s'.log = s.log ++ l)
    (hes : l.filterMap ProcEvent.hands = []) (hp : (s.pc p).Quiet) (hk : k.Quiet) :
    ∃ g, s'.Child t g := by
  refine ⟨g, h.keep ?_ (congrFun hparent t) ?_ hlog (by simp [hes])⟩
  · refine config_goto hpc (congrFun hparent t) (by rw [hchildren]) (congrFun hchild t)
      (congrFun hmem t) ?_ ?_
    · intro _
      rw [hk.claim, hp.claim]
    · intro _
      rw [hk.life, hp.life]
  · by_cases ht : t = p
    · exact Or.inr (h.of_running (ht ▸ hp.life))
    · exact Or.inl (hstatus ht)

/-- `process_wait` gets past `sema_down (&t->child_lock)`. -/
theorem Procs.Child.down {u : Tid} {c : Caller} (h : s.Child t g) (hne : s.parent t ≠ t)
    (hu : s.parent u = p) (hp : s.pc p = .waitDown c u) (hlock : s.childLock u ≠ 0) :
    ∃ g, (({ s with childLock := update s.childLock u (s.childLock u - 1) } : Procs).goto p
      (.waitRead c u)).Child t g := by
  by_cases htu : t = u
  · subst htu
    obtain rfl := h.of_childLock hlock
    -- a process is not its own parent, so the child itself stands still
    have htp : t ≠ p := fun heq => hne (hu.trans heq.symm)
    have hc := h.config
    simp only [Procs.config, Stage.config, Config.mk.injEq] at hc
    obtain ⟨hlinked, -, hchild, hmem, hlife⟩ := hc
    refine ⟨.reading, ?_, ?_, ?_, h.handed, h.value⟩
    · simp [Procs.config, Procs.goto, Stage.config, hu, Pc.claimOn, hchild, hmem, htp, hlife,
        ← hlinked]
    · exact fun hg => absurd hg (by decide)
    · exact fun hg => absurd hg (by decide)
  · -- the step is about another child of `p`
    refine ⟨g, h.keep (l := []) ?_ rfl (Or.inl rfl) (List.append_nil _).symm (by simp)⟩
    refine config_goto rfl rfl Iff.rfl ?_ rfl ?_ ?_
    · exact update_of_ne htu _ _
    · intro _
      simp [hp, Pc.claimOn, Ne.symm htu]
    · intro _
      simp [hp, Pc.life]

/-- It fetches the status. -/
theorem Procs.Child.read {u : Tid} {c : Caller} (h : s.Child t g) (hne : s.parent t ≠ t)
    (hu : s.parent u = p) (hp : s.pc p = .waitRead c u) :
    ∃ g, ((s.goto p (.waitUnlink c u (s.exitStatus u))).record
      (.statusRead p u (s.exitStatus u))).Child t g := by
  by_cases htu : t = u
  · subst htu
    obtain rfl := h.of_reading (by simp [hu, hp, Pc.claimOn])
    have htp : t ≠ p := fun heq => hne (hu.trans heq.symm)
    have hc := h.config
    simp only [Procs.config, Stage.config, Config.mk.injEq] at hc
    obtain ⟨hlinked, -, hchild, hmem, hlife⟩ := hc
    refine ⟨.read, ?_, ?_, ?_, ?_, ?_⟩
    · simp [Procs.config, Procs.goto, Procs.record, Stage.config, hu, Pc.claimOn, hchild, hmem,
        htp, hlife, ← hlinked]
    · intro _
      simp [Procs.goto, Procs.record, hu]
    · exact fun hg => absurd hg (by decide)
    · simpa [Procs.record, Procs.goto, ProcEvent.hands, List.filterMap_cons, Stage.rank] using h.handed
    · intro q v hv
      exact h.value q v (by simpa [Procs.record, Procs.goto] using hv)
  · refine ⟨g, h.keep ?_ rfl (Or.inl rfl) rfl (by simp [ProcEvent.hands])⟩
    refine config_goto rfl rfl Iff.rfl rfl rfl ?_ ?_
    · intro _
      simp [hp, Pc.claimOn, Ne.symm htu]
    · intro _
      simp [hp, Pc.life]

/-- It takes the child off the list. -/
theorem Procs.Child.unlink {u : Tid} {c : Caller} {v : ℤ} (h : s.Child t g)
    (hne : s.parent t ≠ t) (hnodup : (s.children p).Nodup) (hu : s.parent u = p)
    (hp : s.pc p = .waitUnlink c u v) :
    ∃ g, ((({ s with children := update s.children p ((s.children p).erase u) } : Procs).goto p
      (.waitUp c u v)).record (.unlinked p u)).Child t g := by
  by_cases htu : t = u
  · subst htu
    obtain ⟨rfl, rfl⟩ := h.of_read (v := v) (by simp [hu, hp, Pc.claimOn])
    have htp : t ≠ p := fun heq => hne (hu.trans heq.symm)
    have hc := h.config
    simp only [Procs.config, Stage.config, Config.mk.injEq] at hc
    obtain ⟨-, -, hchild, hmem, hlife⟩ := hc
    refine ⟨.unlinked, ?_, ?_, ?_, ?_, ?_⟩
    · simp [Procs.config, Procs.goto, Procs.record, Stage.config, hu, Pc.claimOn, hchild, hmem,
        htp, hlife, hnodup.not_mem_erase]
    · intro _
      exact List.mem_append_left _ (h.statusRead (by decide))
    · intro _
      simp [Procs.goto, Procs.record, hu]
    · simpa [Procs.record, Procs.goto, ProcEvent.hands, List.filterMap_cons, Stage.rank] using h.handed
    · intro q v hv
      exact h.value q v (by simpa [Procs.record, Procs.goto] using hv)
  · refine ⟨g, h.keep ?_ rfl (Or.inl rfl) rfl (by simp [ProcEvent.hands])⟩
    refine config_goto rfl rfl ?_ rfl rfl ?_ ?_
    · -- erasing `u` leaves `t` where it is
      by_cases hq : s.parent t = p
      · simp [Procs.record, Procs.goto, hq, List.mem_erase_of_ne htu]
      · simp [Procs.record, Procs.goto, hq]
    · intro _
      simp [hp, Pc.claimOn, Ne.symm htu]
    · intro _
      simp [hp, Pc.life]

/-- It raises `mem_lock` and returns. -/
theorem Procs.Child.up {u : Tid} {c : Caller} {v : ℤ} (h : s.Child t g) (hne : s.parent t ≠ t)
    (hu : s.parent u = p) (hp : s.pc p = .waitUp c u v) :
    ∃ g, (waitReturn p c v (.waitReturned p u v)
      { s with memLock := update s.memLock u (s.memLock u + 1) }).Child t g := by
  have hreturned : (c.returned p v).filterMap ProcEvent.hands = [] := by
    cases c <;> rfl
  by_cases htu : t = u
  · subst htu
    obtain ⟨rfl, rfl⟩ := h.of_unlinked (v := v) (by simp [hu, hp, Pc.claimOn])
    have htp : t ≠ p := fun heq => hne (hu.trans heq.symm)
    have hc := h.config
    simp only [Procs.config, Stage.config, Config.mk.injEq] at hc
    obtain ⟨hlinked, -, hchild, hmem, hlife⟩ := hc
    refine ⟨.released, ?_, ?_, ?_, ?_, ?_⟩
    · simp [Procs.config, waitReturn, Procs.goto, Stage.config, hu, Pc.claimOn, hchild, hmem,
        htp, hlife, ← hlinked]
    · intro _
      exact List.mem_append_left _ (h.statusRead (by decide))
    · intro _
      exact List.mem_append_left _ (h.unlinked (by decide))
    · have hcount := h.handed
      simp [waitReturn, hreturned, ProcEvent.hands, hcount, Stage.rank]
    · intro q w hw
      simp only [waitReturn, List.mem_append, List.mem_cons] at hw
      -- the status returned is the one that `process_wait` has fetched
      rcases hw with hw | hw | hw
      · exact absurd hw (h.not_handed (by decide) q w)
      · cases hw
        exact ⟨hu.symm, rfl⟩
      · cases c <;> simp [Caller.returned] at hw
  · refine ⟨g, h.keep ?_ rfl (Or.inl rfl) rfl ?_⟩
    · refine config_goto rfl rfl Iff.rfl rfl ?_ ?_ ?_
      · exact update_of_ne htu _ _
      · intro _
        simp [hp, Pc.claimOn, Ne.symm htu]
      · intro _
        simp [hp, Pc.life]
    · simp [hreturned, ProcEvent.hands, htu]

/-- The child raises its `child_lock`. -/
theorem Procs.Child.exitUp (h : s.Child t g) (hne : s.parent t ≠ t) (hp : s.pc p = .exiting) :
    ∃ g, (({ s with childLock := update s.childLock p (s.childLock p + 1) } : Procs).goto p
      .exitDown).Child t g := by
  by_cases htp : t = p
  · subst htp
    obtain rfl := h.of_running (by rw [hp]; rfl)
    have hc := h.config
    simp only [Procs.config, Stage.config, Config.mk.injEq] at hc
    -- nobody has a claim on a running child, and both semaphores are down
    obtain ⟨hlinked, hclaim, hchild, hmem, -⟩ := hc
    refine ⟨.exited, ?_, ?_, ?_, h.handed, h.value⟩
    · simp [Procs.config, Procs.goto, Stage.config, hclaim, hchild, hmem, hne, Pc.life, ← hlinked]
    · exact fun hg => absurd hg (by decide)
    · exact fun hg => absurd hg (by decide)
  · refine ⟨g, h.keep (l := []) ?_ rfl (Or.inl rfl) (List.append_nil _).symm (by simp)⟩
    refine config_goto rfl rfl Iff.rfl ?_ rfl ?_ ?_
    · exact update_of_ne htp _ _
    · intro _
      simp [hp, Pc.claimOn]
    · exact fun heq => absurd heq htp

/-- The child gets past `sema_down (&mem_lock)`. -/
theorem Procs.Child.exitDown (h : s.Child t g) (hne : s.parent t ≠ t) (hp : s.pc p = .exitDown)
    (hlock : s.memLock p ≠ 0) :
    ∃ g, (({ s with memLock := update s.memLock p (s.memLock p - 1) } : Procs).goto p .gone).Child
      t g := by
  by_cases htp : t = p
  · subst htp
    obtain rfl := h.of_memLock hlock
    have hc := h.config
    simp only [Procs.config, Stage.config, Config.mk.injEq] at hc
    obtain ⟨hlinked, hclaim, hchild, hmem, -⟩ := hc
    refine ⟨.gone, ?_, ?_, ?_, h.handed, h.value⟩
    · simp [Procs.config, Procs.goto, Stage.config, hclaim, hchild, hmem, hne, Pc.life, ← hlinked]
    · exact fun _ => h.statusRead (by decide)
    · exact fun _ => h.unlinked (by decide)
  · refine ⟨g, h.keep (l := []) ?_ rfl (Or.inl rfl) (List.append_nil _).symm (by simp)⟩
    refine config_goto rfl rfl Iff.rfl rfl ?_ ?_ ?_
    · exact update_of_ne htp _ _
    · intro _
      simp [hp, Pc.claimOn]
    · exact fun heq => absurd heq htp

/-- The child has just been created. -/
theorem child_new {pos : ℕ} (hp : s.pc p = .user)
    (ht : s.pc t = .absent) (hpos : pos ≤ (s.children p).length)
    (hfresh : t ∉ s.log.filterMap ProcEvent.hands) :
    (threadCreate v₀ p t pos s).Child t .running := by
  have hpt : p ≠ t := by
    rintro rfl
    rw [hp] at ht
    cases ht
  refine ⟨?_, ?_, ?_, ?_, ?_⟩
  · have hmem : t ∈ (s.children p).insertIdx pos t := (List.mem_insertIdx hpos).2 (Or.inl rfl)
    simp [Procs.config, threadCreate, Stage.config, Pc.claimOn, Pc.life, hpt.symm, hmem]
  · exact fun hg => absurd hg (by decide)
  · exact fun hg => absurd hg (by decide)
  · simpa [threadCreate, Stage.rank] using List.count_eq_zero.2 hfresh
  · intro q v hv
    -- nothing was handed over for a process that did not exist
    exact (hfresh (List.mem_filterMap.2 ⟨_, hv, rfl⟩)).elim

/-- The creation of another process. -/
theorem Procs.Child.threadCreate {u : Tid} {pos : ℕ} (h : s.Child t g) (htree : s.Tree)
    (hp : s.pc p = .user) (hu : s.pc u = .absent) (hpos : pos ≤ (s.children p).length)
    (ht : s.Created t) : (threadCreate v₀ p u pos s).Child t g := by
  have htu : t ≠ u := fun heq => ht.2 (heq ▸ hu)
  have hqu : s.parent t ≠ u := fun heq => (htree.parent t ht).2 (heq ▸ hu)
  have hmem : t ∈ (s.children p).insertIdx pos u ↔ t ∈ s.children p := by
    rw [List.mem_insertIdx hpos]
    simp [htu]
  refine h.keep (l := []) ?_ ?_ (Or.inl ?_) (List.append_nil _).symm (by simp)
  · -- the parent may have been the creator, the child too
    by_cases hq : s.parent t = p
    · by_cases htp : t = p
      · exact absurd (hq.trans htp.symm) (htree.parent t ht).1
      · simp [Procs.config, Project4.threadCreate, htu, hq, htp, hmem, hp, Pc.claimOn]
    · by_cases htp : t = p
      · subst htp
        simp [Procs.config, Project4.threadCreate, htu, hq, hqu, hp, Pc.life]
      · simp [Procs.config, Project4.threadCreate, htu, hq, hqu, htp]
  · simp [Project4.threadCreate, htu]
  · simp [Project4.threadCreate, htu]

theorem quiet_user : Pc.user.Quiet := ⟨rfl, fun _ => rfl⟩

/-- Every step takes a child to its next stage or leaves it. -/
theorem Procs.Child.step (h : s.Child t g) (htree : s.Tree) (ht : s.Created t)
    (hs : Trans v₀ s a s') : ∃ g, s'.Child t g := by
  have hne := (htree.parent t ht).1
  cases hs with
  | exec hp hu hpos =>
      exact ⟨g, h.threadCreate htree hp hu hpos ht⟩
  | wait hp =>
      exact h.quiet (l := []) rfl rfl rfl (fun _ => rfl) rfl rfl (List.append_nil _).symm rfl
        (hp ▸ quiet_user) ⟨rfl, fun _ => rfl⟩
  | exit hp hroot =>
      exact h.quiet rfl rfl rfl (fun htp => update_of_ne htp _ _) rfl rfl rfl rfl
        (hp ▸ quiet_user) ⟨rfl, fun _ => rfl⟩
  | kill hp hroot =>
      exact h.quiet rfl rfl rfl (fun _ => rfl) rfl rfl rfl rfl
        (hp ▸ quiet_user) ⟨rfl, fun _ => rfl⟩
  | load hp =>
      exact h.quiet rfl rfl rfl (fun _ => rfl) rfl rfl rfl rfl
        (hp ▸ ⟨rfl, fun _ => rfl⟩) ⟨rfl, fun _ => rfl⟩
  | @raise p success hp =>
      refine h.quiet (l := []) rfl rfl rfl (fun _ => rfl) rfl rfl (List.append_nil _).symm rfl
        (hp ▸ ⟨rfl, fun _ => rfl⟩) ?_
      cases success <;> exact ⟨rfl, fun _ => rfl⟩
  | fail hp =>
      exact h.quiet rfl rfl rfl (fun htp => update_of_ne htp _ _) rfl rfl rfl rfl
        (hp ▸ ⟨rfl, fun _ => rfl⟩) ⟨rfl, fun _ => rfl⟩
  | lower hp hlock | scanNext hp hc htodo | found hp htid | pass hp htid =>
      exact h.quiet (l := []) rfl rfl rfl (fun _ => rfl) rfl rfl (List.append_nil _).symm rfl
        (hp ▸ ⟨rfl, fun _ => rfl⟩) ⟨rfl, fun _ => rfl⟩
  | scanNone hp | scanHit hp hc | scanLast hp hc =>
      exact h.quiet rfl rfl rfl (fun _ => rfl) rfl rfl rfl rfl
        (hp ▸ ⟨rfl, fun _ => rfl⟩) ⟨rfl, fun _ => rfl⟩
  | @refuse p c tid hp =>
      refine h.quiet rfl rfl rfl (fun _ => rfl) rfl rfl rfl ?_ (hp ▸ ⟨rfl, fun _ => rfl⟩) quiet_user
      cases c <;> rfl
  | @down p u c hp hlock =>
      have hfits := htree.fits p
      rw [hp] at hfits
      exact h.down hne (htree.listed p u hfits).1 hp hlock
  | @read p u c hp =>
      have hfits := htree.fits p
      rw [hp] at hfits
      exact h.read hne (htree.listed p u hfits).1 hp
  | @unlink p u c v hp =>
      have hfits := htree.fits p
      rw [hp] at hfits
      exact h.unlink hne (htree.nodup p) (htree.listed p u hfits).1 hp
  | @up p u c v hp =>
      have hfits := htree.fits p
      rw [hp] at hfits
      exact h.up hne hfits.1 hp
  | exitUp hp =>
      exact h.exitUp hne hp
  | exitDown hp hlock =>
      exact h.exitDown hne hp hlock

end Child

/-! ## Every child -/

/-- The invariant of the handshakes. -/
structure Procs.Staged (s : Procs) : Prop where
  tree : s.Tree
  child : ∀ t, s.Created t → ∃ g, s.Child t g
  fresh : ∀ t, ¬ s.Created t → t ∉ s.log.filterMap ProcEvent.hands

section Staged

variable {v₀ : ℤ} {s s' : Procs} {p t : Tid} {a : ProcAct} {k : Pc} {l : List ProcEvent}

theorem not_created_noProcs : ¬ noProcs.Created t := by
  rintro ⟨hroot, hlive⟩
  simp [noProcs, hroot] at hlive

theorem Procs.Staged.start : noProcs.Staged := by
  refine ⟨⟨fun _ => List.nodup_nil, ?_, ?_, rfl, ?_⟩, ?_, ?_⟩
  · intro p t ht
    cases ht
  · exact fun t ht => absurd ht not_created_noProcs
  · intro p
    by_cases hp : p = root
    · simp [noProcs, hp, Fits]
    · simp [noProcs, hp, Fits]
  · exact fun t ht => absurd ht not_created_noProcs
  · intro t _ ht
    cases ht

/-- One process goes on to `k` and logs `l`. -/
structure Moves (s s' : Procs) (p : Tid) (k : Pc) (l : List ProcEvent) : Prop where
  pc : s'.pc = update s.pc p k
  parent : s'.parent = s.parent
  log : s'.log = s.log ++ l
  before : s.pc p ≠ .absent
  after : k ≠ .absent

theorem Moves.created (h : Moves s s' p k l) : s'.Created t ↔ s.Created t :=
  created_goto h.pc h.before h.after

/-- Every step but `thread_create` moves one process. -/
theorem Trans.moves (hs : Trans v₀ s a s') :
    (∃ p t pos, a = .exec p t pos ∧ s.pc p = .user ∧ s.pc t = .absent ∧
        pos ≤ (s.children p).length ∧ s' = threadCreate v₀ p t pos s) ∨
      ∃ p k l, Moves s s' p k l ∧
        ∀ u ∈ l.filterMap ProcEvent.hands, ∃ c v, s.pc p = .waitUp c u v := by
  cases hs with
  | exec hp ht hpos =>
      exact Or.inl ⟨_, _, _, rfl, hp, ht, hpos, rfl⟩
  | wait hp | lower hp hlock | scanNext hp hc htodo | found hp htid | pass hp htid
  | down hp hlock | exitUp hp | exitDown hp hlock =>
      exact Or.inr ⟨_, _, [], ⟨rfl, rfl, (List.append_nil _).symm, by simp [hp], by simp⟩, by simp⟩
  | @raise p success hp =>
      refine Or.inr ⟨_, _, [], ⟨rfl, rfl, (List.append_nil _).symm, by simp [hp], ?_⟩, by simp⟩
      cases success <;> simp
  | exit hp hroot | kill hp hroot | load hp | fail hp | scanNone hp | scanHit hp hc
  | scanLast hp hc | read hp | unlink hp =>
      exact Or.inr ⟨_, _, _, ⟨rfl, rfl, rfl, by simp [hp], by simp⟩, by simp [ProcEvent.hands]⟩
  | @refuse p c tid hp =>
      refine Or.inr ⟨_, _, _, ⟨rfl, rfl, rfl, by simp [hp], by simp⟩, ?_⟩
      cases c <;> simp [ProcEvent.hands, Caller.returned]
  | @up p u c v hp =>
      refine Or.inr ⟨_, _, _, ⟨rfl, rfl, rfl, by simp [hp], by simp⟩, ?_⟩
      -- only the end of `process_wait` hands a status over, that of its own child
      intro w hw
      have hwu : w = u := by
        cases c <;> simpa [ProcEvent.hands, Caller.returned] using hw
      exact ⟨c, v, hwu ▸ hp⟩

/-- Every step keeps the invariant. -/
theorem Procs.Staged.step (h : s.Staged) (hs : Trans v₀ s a s') : s'.Staged := by
  refine ⟨h.tree.step hs, ?_, ?_⟩
  · intro t ht
    by_cases hold : s.Created t
    · obtain ⟨g, hg⟩ := h.child t hold
      exact hg.step h.tree hold hs
    · rcases hs.moves with ⟨p, u, pos, -, hp, hu, hpos, rfl⟩ | ⟨p, k, l, hmoves, -⟩
      · -- who is created now and was not before is the new process
        have htu : t = u := by
          by_contra hne
          have hcreated : s.Created t := by
            refine ⟨ht.1, ?_⟩
            by_cases htp : t = p
            · simp [htp, hp]
            · simpa [threadCreate, hne, htp] using ht.2
          exact hold hcreated
        subst htu
        exact ⟨.running, child_new hp hu hpos (h.fresh t hold)⟩
      · exact absurd (hmoves.created.1 ht) hold
  · intro t ht
    rcases hs.moves with ⟨p, u, pos, -, hp, hu, hpos, rfl⟩ | ⟨p, k, l, hmoves, hhands⟩
    · refine h.fresh t fun hold => ht ⟨hold.1, ?_⟩
      have htu : t ≠ u := fun heq => hold.2 (heq ▸ hu)
      by_cases htp : t = p
      · simp [threadCreate, htp]
      · simpa [threadCreate, htp, htu] using hold.2
    · rw [hmoves.created] at ht
      rw [hmoves.log, List.filterMap_append, List.mem_append, not_or]
      refine ⟨h.fresh t ht, ?_⟩
      intro hmem
      obtain ⟨c, v, hp⟩ := hhands t hmem
      have hfits := h.tree.fits p
      rw [hp] at hfits
      -- the child of a `process_wait` has been created
      exact ht hfits.2

/-- Every reachable state is staged. -/
theorem staged_of_reach {P : Procs → ProcAct → Prop} (h : Reach (procStep v₀) P noProcs s) :
    s.Staged :=
  h.invariant Procs.Staged.start fun _ _ _ hi _ hs => hi.step (trans_of_procStep hs)

end Staged

end Project4
end Pintos
