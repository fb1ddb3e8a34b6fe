import Pintos.Project4.WaitExit

/-!
# ExecHandshake — a process and the child that it starts

The parent stays in `process_execute` until the child has raised its `load_lock`, so when it looks at
its children the `load` of the new one has returned.
-/

namespace Pintos
namespace Project4

open Function Lib

/-! ## The hand-shake over `load_lock` -/

/-- The child has not raised the `load_lock` of its parent. -/
def Pc.starting : Pc → Bool
  | .loading | .loaded _ => true
  | _ => false

structure Procs.LoadLocks (s : Procs) : Prop where
  down : ∀ p t, s.pc p = .execDown t →
    t ∈ s.children p ∧ s.loadLock p = if (s.pc t).starting then 0 else 1
  free : ∀ p, (∀ t, s.pc p ≠ .execDown t) → s.loadLock p = 0
  parent : ∀ t, s.Created t → (s.pc t).starting = true → s.pc (s.parent t) = .execDown t

section LoadLocks

variable {v₀ : ℤ} {s s' : Procs} {p t : Tid} {a : ProcAct} {k : Pc} {l : List ProcEvent}

/-- A step of a process that neither starts nor is in the hand-shake. -/
theorem Procs.LoadLocks.move (h : s.LoadLocks) (hmoves : Moves s s' p k l)
    (hlock : s'.loadLock = s.loadLock) (hchildren : ∀ q ≠ p, s'.children q = s.children q)
    (hp : ∀ t, s.pc p ≠ .execDown t) (hk : ∀ t, k ≠ .execDown t)
    (hstarting : k.starting = (s.pc p).starting) : s'.LoadLocks := by
  have hstart : ∀ t, (s'.pc t).starting = (s.pc t).starting := by
    intro t
    rw [hmoves.pc]
    by_cases ht : t = p
    · rw [ht, update_self, hstarting]
    · rw [update_of_ne ht]
  have hother : ∀ q t, s'.pc q = .execDown t → q ≠ p ∧ s.pc q = .execDown t := by
    intro q t hq
    rw [hmoves.pc] at hq
    by_cases hqp : q = p
    · rw [hqp, update_self] at hq
      exact absurd hq (hk t)
    · rw [update_of_ne hqp] at hq
      exact ⟨hqp, hq⟩
  refine ⟨?_, ?_, ?_⟩
  · intro q t hq
    obtain ⟨hqp, hold⟩ := hother q t hq
    rw [hchildren q hqp, hlock, hstart]
    exact h.down q t hold
  · intro q hq
    rw [hlock]
    refine h.free q fun t ht => ?_
    by_cases hqp : q = p
    · exact hp t (hqp ▸ ht)
    · refine hq t ?_
      rw [hmoves.pc, update_of_ne hqp, ht]
  · intro t ht hs
    rw [hstart] at hs
    have hold := h.parent t (hmoves.created.1 ht) hs
    have hne : s.parent t ≠ p := fun heq => hp t (heq ▸ hold)
    rw [hmoves.parent, hmoves.pc, update_of_ne hne, hold]

theorem Procs.LoadLocks.threadCreate {pos : ℕ} (h : s.LoadLocks) (htree : s.Tree)
    (hp : s.pc p = .user) (ht : s.pc t = .absent) (hpos : pos ≤ (s.children p).length) :
    (threadCreate v₀ p t pos s).LoadLocks := by
  have hpt : p ≠ t := by
    rintro rfl
    rw [hp] at ht
    cases ht
  refine ⟨?_, ?_, ?_⟩
  · intro q u hq
    by_cases hqp : q = p
    · subst hqp
      have hu : t = u := by simpa [Project4.threadCreate] using hq
      subst hu
      have hlock : s.loadLock q = 0 := h.free q fun u hu => by simp [hp] at hu
      have hmem : t ∈ (s.children q).insertIdx pos t := (List.mem_insertIdx hpos).2 (Or.inl rfl)
      simp [Project4.threadCreate, hpt, hpt.symm, hmem, hlock, Pc.starting]
    · by_cases hqt : q = t
      · simp [Project4.threadCreate, hqt, hpt.symm] at hq
      · have hold : s.pc q = .execDown u := by
          simpa [Project4.threadCreate, hqp, hqt] using hq
        obtain ⟨hmem, hlock⟩ := h.down q u hold
        have hut : u ≠ t := fun heq => (htree.listed q u hmem).2.2 (heq ▸ ht)
        by_cases hup : u = p
        · subst hup
          simpa [Project4.threadCreate, hqp, hqt, hmem, Pc.starting, hp] using hlock
        · simpa [Project4.threadCreate, hqp, hqt, hmem, hut, hup] using hlock
  · intro q hq
    by_cases hqp : q = p
    · subst hqp
      exact absurd (by simp [Project4.threadCreate]) (hq t)
    · by_cases hqt : q = t
      · simp [Project4.threadCreate, hqt]
      · have hold : s.loadLock q = 0 := by
          refine h.free q fun u hu => hq u ?_
          simpa [Project4.threadCreate, hqp, hqt] using hu
        simpa [Project4.threadCreate, hqt] using hold
  · intro u hu hstart
    by_cases hut : u = t
    · simp [Project4.threadCreate, hut]
    · by_cases hup : u = p
      · simp [Project4.threadCreate, hup, Pc.starting] at hstart
      · have hstart' : (s.pc u).starting = true := by
          simpa [Project4.threadCreate, hut, hup] using hstart
        have hcreated : s.Created u := ⟨hu.1, fun heq => by simp [heq, Pc.starting] at hstart'⟩
        have hold := h.parent u hcreated hstart'
        have hqp : s.parent u ≠ p := fun heq => by simp [heq, hp] at hold
        have hqt : s.parent u ≠ t := fun heq => by simp [heq, ht] at hold
        simpa [Project4.threadCreate, hut, hqp, hqt] using hold

/-- The child raises the `load_lock` of its parent. -/
theorem Procs.LoadLocks.raise {success : Bool} (h : s.LoadLocks) (htree : s.Tree)
    (hp : s.pc p = .loaded success) :
    (({ s with
        loadLock := update s.loadLock (s.parent p) (s.loadLock (s.parent p) + 1) } : Procs).goto p
      (if success then .user else .failed)).LoadLocks := by
  have hcreated : s.Created p := ⟨htree.ne_root (by rw [hp]; rfl), by simp [hp]⟩
  have hdown : s.pc (s.parent p) = .execDown p := h.parent p hcreated (by rw [hp]; rfl)
  have hqp : s.parent p ≠ p := (htree.parent p hcreated).1
  obtain ⟨hmem, hlock⟩ := h.down (s.parent p) p hdown
  have hzero : s.loadLock (s.parent p) = 0 := by
    rw [hlock, hp]
    rfl
  have hk : ∀ u, (if success then Pc.user else Pc.failed) ≠ .execDown u := by
    intro u
    cases success <;> simp
  have hstart : (if success then Pc.user else Pc.failed).starting = false := by
    cases success <;> rfl
  refine ⟨?_, ?_, ?_⟩
  · intro r u hr
    by_cases hrp : r = p
    · subst hrp
      exact absurd (by simpa [Procs.goto] using hr) (hk u)
    · have hold : s.pc r = .execDown u := by simpa [Procs.goto, hrp] using hr
      by_cases hrq : r = s.parent p
      · subst hrq
        have hup : p = u := Pc.execDown.inj (hdown.symm.trans hold)
        subst hup
        simp [Procs.goto, hmem, hstart, hzero]
      · obtain ⟨hmem', hlock'⟩ := h.down r u hold
        have hup : u ≠ p := fun heq => hrq ((heq ▸ (htree.listed r u hmem').1).symm)
        simpa [Procs.goto, hmem', hup, hrq] using hlock'
  · intro r hr
    by_cases hrq : r = s.parent p
    · subst hrq
      exact absurd (by simpa [Procs.goto, hqp] using hdown) (hr p)
    · have hold : s.loadLock r = 0 := by
        refine h.free r fun u hu => hr u ?_
        have hrp : r ≠ p := fun heq => by simp [heq, hp] at hu
        simpa [Procs.goto, hrp] using hu
      simpa [Procs.goto, hrq] using hold
  · intro u hu hs
    by_cases hup : u = p
    · subst hup
      simp [Procs.goto, hstart] at hs
    · have hs' : (s.pc u).starting = true := by simpa [Procs.goto, hup] using hs
      have hold := h.parent u ⟨hu.1, fun heq => by simp [heq, Pc.starting] at hs'⟩ hs'
      have hne : s.parent u ≠ p := fun heq => by simp [heq, hp] at hold
      simpa [Procs.goto, hne] using hold

/-- The parent lowers it. -/
theorem Procs.LoadLocks.lower (h : s.LoadLocks) (hp : s.pc p = .execDown t)
    (hlock : s.loadLock p ≠ 0) :
    (({ s with loadLock := update s.loadLock p (s.loadLock p - 1) } : Procs).goto p
      (.execScan t (s.children p))).LoadLocks := by
  have hraised : (s.pc t).starting = false ∧ s.loadLock p = 1 := by
    have hvalue := (h.down p t hp).2
    cases hstart : (s.pc t).starting with
    | true =>
        rw [hstart] at hvalue
        exact absurd hvalue hlock
    | false =>
        rw [hstart] at hvalue
        exact ⟨rfl, hvalue⟩
  refine ⟨?_, ?_, ?_⟩
  · intro r u hr
    by_cases hrp : r = p
    · simp [Procs.goto, hrp] at hr
    · have hold : s.pc r = .execDown u := by simpa [Procs.goto, hrp] using hr
      obtain ⟨hmem, hvalue⟩ := h.down r u hold
      by_cases hup : u = p
      · subst hup
        simpa [Procs.goto, hrp, hmem, hp, Pc.starting] using hvalue
      · simpa [Procs.goto, hrp, hmem, hup] using hvalue
  · intro r hr
    by_cases hrp : r = p
    · simp [Procs.goto, hrp, hraised.2]
    · have hold : s.loadLock r = 0 := by
        refine h.free r fun u hu => hr u ?_
        simpa [Procs.goto, hrp] using hu
      simpa [Procs.goto, hrp] using hold
  · intro u hu hs
    have hup : u ≠ p := fun heq => by simp [Procs.goto, heq, Pc.starting] at hs
    have hs' : (s.pc u).starting = true := by simpa [Procs.goto, hup] using hs
    have hold := h.parent u ⟨hu.1, fun heq => by simp [heq, Pc.starting] at hs'⟩ hs'
    -- the child for which `p` has come down is not starting any more
    have hne : s.parent u ≠ p := by
      intro heq
      rw [heq, hp] at hold
      cases hold
      rw [hraised.1] at hs'
      cases hs'
    simpa [Procs.goto, hne] using hold

theorem Procs.LoadLocks.step (h : s.LoadLocks) (htree : s.Tree) (hs : Trans v₀ s a s') :
    s'.LoadLocks := by
  cases hs with
  | exec hp ht hpos =>
      exact h.threadCreate htree hp ht hpos
  | raise hp =>
      exact h.raise htree hp
  | lower hp hlock =>
      exact h.lower hp hlock
  | wait hp | scanNext hp hc htodo | found hp htid | pass hp htid | down hp hlock | exitUp hp
  | exitDown hp hlock =>
      exact h.move (l := []) ⟨rfl, rfl, (List.append_nil _).symm, by simp [hp], by simp⟩ rfl
        (fun _ _ => rfl) (by simp [hp]) (by simp) (by rw [hp]; rfl)
  | exit hp hroot | kill hp hroot | load hp | fail hp | scanNone hp | scanHit hp hc
  | scanLast hp hc | read hp | refuse hp | up hp =>
      exact h.move ⟨rfl, rfl, rfl, by simp [hp], by simp⟩ rfl
        (fun _ _ => rfl) (by simp [hp]) (by simp) (by rw [hp]; rfl)
  | unlink hp =>
      exact h.move ⟨rfl, rfl, rfl, by simp [hp], by simp⟩ rfl
        (fun _ hq => update_of_ne hq _ _) (by simp [hp]) (by simp) (by rw [hp]; rfl)

end LoadLocks

/-! ## What the log tells of `load` and `exec` -/

/-- The child that an event of `load` or of `process_execute` is about. -/
def ProcEvent.execs : ProcEvent → Option Tid
  | .loaded t _ | .execWaits _ t | .execReturned _ t _ => some t
  | _ => none

/-- The `load` of a process has returned. -/
def Procs.HasLoaded (s : Procs) (t : Tid) : Prop := ∃ b, .loaded t b ∈ s.log

/-- Its program could not be loaded, and it is on its way out. -/
def Procs.Doomed (s : Procs) (t : Tid) : Prop :=
  s.pc t = .loaded false ∨ s.pc t = .failed ∨ (s.pc t).over = true ∧ s.exitStatus t = -1

structure Procs.Loads (s : Procs) (t : Tid) : Prop where
  none : ¬ s.Created t ∨ s.pc t = .loading → t ∉ s.log.filterMap ProcEvent.execs
  some : s.Created t → s.pc t ≠ .loading → s.HasLoaded t
  one : ¬ (.loaded t true ∈ s.log ∧ .loaded t false ∈ s.log)
  failed : .loaded t false ∈ s.log → s.Doomed t

/-- `process_execute` waits for its child, whose `load` has returned. -/
def Procs.Waits (s : Procs) (p t : Tid) : Prop := s.HasLoaded t ∧ .execWaits p t ∈ s.log

/-- What `process_execute` relies on in the place where it is. -/
def Procs.Executing (s : Procs) (p : Tid) : Pc → Prop
  | .execScan t todo => s.HasLoaded t ∧ todo ≠ []
  | .waitScan (.exec t) tid _ => tid = t ∧ s.Waits p t
  | .waitDown (.exec t) u | .waitRead (.exec t) u | .waitUnlink (.exec t) u _
  | .waitUp (.exec t) u _ => u = t ∧ s.Waits p t
  | _ => True

section Loads

variable {v₀ : ℤ} {s s' : Procs} {p t : Tid} {a : ProcAct} {k : Pc} {l : List ProcEvent}

theorem Procs.HasLoaded.mono (h : s.HasLoaded t) (hlog : s'.log = s.log ++ l) :
    s'.HasLoaded t := by
  obtain ⟨b, hb⟩ := h
  exact ⟨b, hlog ▸ List.mem_append_left _ hb⟩

theorem Procs.Executing.mono (h : s.Executing p k) (hlog : s'.log = s.log ++ l) :
    s'.Executing p k := by
  have hwaits : ∀ {t}, s.Waits p t → s'.Waits p t := fun hw =>
    ⟨hw.1.mono hlog, hlog ▸ List.mem_append_left _ hw.2⟩
  cases k with
  | execScan t todo =>
      exact ⟨h.1.mono hlog, h.2⟩
  | waitScan c tid todo =>
      cases c with
      | wait =>
          trivial
      | exec t =>
          exact ⟨h.1, hwaits h.2⟩
  | waitDown c u | waitRead c u | waitUnlink c u v | waitUp c u v =>
      cases c with
      | wait =>
          trivial
      | exec t =>
          exact ⟨h.1, hwaits h.2⟩
  | absent | loading | loaded b | failed | user | execDown u | exiting | exitDown | gone =>
      trivial

/-- A process whose `load` has returned has been created and is past it. -/
theorem Procs.Loads.past (h : s.Loads t) (hl : s.HasLoaded t) :
    s.Created t ∧ s.pc t ≠ .loading := by
  obtain ⟨b, hb⟩ := hl
  have hmem : t ∈ s.log.filterMap ProcEvent.execs := List.mem_filterMap.2 ⟨_, hb, rfl⟩
  by_contra hnot
  rw [not_and_or, not_not] at hnot
  exact h.none hnot hmem

/-- A step of a process other than the return of its `load`. -/
theorem Procs.Loads.move (h : s.Loads t) (hmoves : Moves s s' p k l)
    (hes : ∀ b, .loaded t b ∉ l) (hexec : t ∈ l.filterMap ProcEvent.execs → s.HasLoaded t)
    (hp : t = p → s.pc p ≠ .loading ∧ k ≠ .loading)
    (hstatus : t ≠ p → s'.exitStatus t = s.exitStatus t)
    (hdoomed : t = p → s.Doomed p → s'.Doomed p) : s'.Loads t := by
  have hloading : s'.pc t = .loading ↔ s.pc t = .loading := by
    rw [hmoves.pc]
    by_cases ht : t = p
    · subst ht
      rw [update_self]
      exact iff_of_false (hp rfl).2 (hp rfl).1
    · rw [update_of_ne ht]
  have hloaded : ∀ b, .loaded t b ∈ s'.log ↔ .loaded t b ∈ s.log := by
    intro b
    rw [hmoves.log, List.mem_append, or_iff_left (hes b)]
  refine ⟨?_, ?_, ?_, ?_⟩
  · intro hnone
    rw [hmoves.created, hloading] at hnone
    rw [hmoves.log, List.filterMap_append, List.mem_append, not_or]
    refine ⟨h.none hnone, fun hmem => ?_⟩
    obtain ⟨hcreated, hpast⟩ := h.past (hexec hmem)
    rcases hnone with hnone | hnone
    · exact hnone hcreated
    · exact hpast hnone
  · intro hcreated hpast
    rw [hmoves.created] at hcreated
    rw [Ne, hloading] at hpast
    exact (h.some hcreated hpast).mono hmoves.log
  · rw [hloaded, hloaded]
    exact h.one
  · intro hfalse
    have hold := h.failed ((hloaded false).1 hfalse)
    by_cases ht : t = p
    · subst ht
      exact hdoomed rfl hold
    · unfold Procs.Doomed
      rw [hmoves.pc, update_of_ne ht, hstatus ht]
      exact hold

theorem Procs.Loads.load {success : Bool} (h : s.Loads t) (hp : s.pc p = .loading)
    (hcreated : s.Created p) :
    ((s.goto p (.loaded success)).record (.loaded p success)).Loads t := by
  have hmoves : Moves s ((s.goto p (.loaded success)).record (.loaded p success)) p
      (.loaded success) [.loaded p success] := ⟨rfl, rfl, rfl, by simp [hp], by simp⟩
  by_cases ht : t = p
  · subst ht
    have hnone := h.none (Or.inr hp)
    have hnot : ∀ b, .loaded t b ∉ s.log := fun b hb =>
      hnone (List.mem_filterMap.2 ⟨_, hb, rfl⟩)
    have hlog : ∀ b, .loaded t b ∈ ((s.goto t (.loaded success)).record (.loaded t success)).log ↔
        b = success := by
      intro b
      simp [Procs.record, Procs.goto, hnot b]
    refine ⟨?_, ?_, ?_, ?_⟩
    · rintro (hc | hpc)
      · exact absurd (hmoves.created.2 hcreated) hc
      · rw [hmoves.pc, update_self] at hpc
        cases hpc
    · exact fun _ _ => ⟨success, (hlog success).2 rfl⟩
    · rw [hlog, hlog]
      rintro ⟨rfl, hb⟩
      cases hb
    · intro hb
      have hsuccess := (hlog false).1 hb
      subst hsuccess
      exact Or.inl (update_self _ _ _)
  · refine h.move hmoves ?_ ?_ (fun heq => absurd heq ht) (fun _ => rfl) (fun heq => absurd heq ht)
    · simp [ht]
    · simp [ProcEvent.execs, ht]

theorem Procs.Loads.threadCreate {u : Tid} {pos : ℕ} (h : s.Loads t) (hp : s.pc p = .user)
    (hu : s.pc u = .absent) : (threadCreate v₀ p u pos s).Loads t := by
  have hpu : p ≠ u := by
    rintro rfl
    rw [hp] at hu
    cases hu
  by_cases htu : t = u
  · subst htu
    have hnone := h.none (Or.inl fun hc => hc.2 hu)
    have hnot : ∀ b, .loaded t b ∉ s.log := fun b hb =>
      hnone (List.mem_filterMap.2 ⟨_, hb, rfl⟩)
    refine ⟨fun _ => hnone, ?_, fun hb => hnot true hb.1, fun hb => absurd hb (hnot false)⟩
    intro _ hpast
    simp [Project4.threadCreate, hpu.symm] at hpast
  · by_cases htp : t = p
    · subst htp
      have hpc : (Project4.threadCreate v₀ t u pos s).pc t = .execDown u := by
        simp [Project4.threadCreate]
      have hlive : s.pc t ≠ .absent := by simp [hp]
      refine ⟨?_, ?_, h.one, ?_⟩
      · rintro (hc | hc)
        · exact h.none (Or.inl fun hold => hc ⟨hold.1, by simp [hpc]⟩)
        · rw [hpc] at hc
          cases hc
      · exact fun hc _ => h.some ⟨hc.1, hlive⟩ (by simp [hp])
      · intro hb
        rcases h.failed hb with hd | hd | ⟨hd, -⟩
        · simp [hp] at hd
        · simp [hp] at hd
        · simp [hp, Pc.over] at hd
    · have hpc : (Project4.threadCreate v₀ p u pos s).pc t = s.pc t := by
        simp [Project4.threadCreate, htu, htp]
      have hstatus : (Project4.threadCreate v₀ p u pos s).exitStatus t = s.exitStatus t := by
        simp [Project4.threadCreate, htu]
      refine ⟨?_, ?_, h.one, ?_⟩
      · rw [Procs.Created, hpc]
        exact h.none
      · rw [Procs.Created, hpc]
        exact h.some
      · rw [Procs.Doomed, hpc, hstatus]
        exact h.failed

theorem not_doomed (hp : (s.pc p).active = true) : ¬ s.Doomed p := by
  rintro (hd | hd | ⟨hd, -⟩)
  · rw [hd] at hp
    cases hp
  · rw [hd] at hp
    cases hp
  · rw [Pc.over_of_active hp] at hd
    cases hd

/-- A step of a process that runs its program or a call. -/
theorem Procs.Loads.active (h : s.Loads t) (hmoves : Moves s s' p k l)
    (hp : (s.pc p).active = true) (hk : k ≠ .loading) (hes : ∀ b, .loaded t b ∉ l)
    (hexec : t ∈ l.filterMap ProcEvent.execs → s.HasLoaded t)
    (hstatus : t ≠ p → s'.exitStatus t = s.exitStatus t) : s'.Loads t := by
  refine h.move hmoves hes hexec ?_ hstatus ?_
  · intro _
    refine ⟨?_, hk⟩
    intro heq
    rw [heq] at hp
    cases hp
  · exact fun _ hd => absurd hd (not_doomed hp)

/-- `process_wait` returns to its caller. -/
theorem mem_returned {c : Caller} {v : ℤ} (hc : ∀ u, c = .exec u → s.HasLoaded u)
    (hmem : t ∈ (c.returned p v).filterMap ProcEvent.execs) : s.HasLoaded t := by
  cases c with
  | wait =>
      cases hmem
  | exec u =>
      obtain rfl : t = u := by simpa [Caller.returned, ProcEvent.execs] using hmem
      exact hc t rfl

theorem Procs.Loads.step (h : s.Loads t) (htree : s.Tree)
    (hexec : ∀ p, s.Executing p (s.pc p)) (hs : Trans v₀ s a s') : s'.Loads t := by
  cases hs with
  | exec hp hu hpos =>
      exact h.threadCreate hp hu
  | load hp =>
      exact h.load hp ⟨htree.ne_root (by rw [hp]; rfl), by simp [hp]⟩
  | wait hp | lower hp hlock | scanNext hp hc htodo | found hp htid | pass hp htid
  | down hp hlock =>
      exact h.active (l := []) ⟨rfl, rfl, (List.append_nil _).symm, by simp [hp], by simp⟩
        (by rw [hp]; rfl) (by simp) (by simp) (by simp) fun _ => rfl
  | exit hp hroot =>
      exact h.active ⟨rfl, rfl, rfl, by simp [hp], by simp⟩ (by rw [hp]; rfl) (by simp) (by simp)
        (by simp [ProcEvent.execs]) fun ht => update_of_ne ht _ _
  | kill hp hroot | read hp | unlink hp =>
      exact h.active ⟨rfl, rfl, rfl, by simp [hp], by simp⟩ (by rw [hp]; rfl) (by simp) (by simp)
        (by simp [ProcEvent.execs]) fun _ => rfl
  | @scanNone p u hp =>
      have hu := hexec p
      rw [hp] at hu
      exact absurd rfl hu.2
  | @scanHit p u c todo hp hc =>
      have hu := hexec p
      rw [hp] at hu
      refine h.active ⟨rfl, rfl, rfl, by simp [hp], by simp⟩ (by rw [hp]; rfl) (by simp) (by simp)
        ?_ fun _ => rfl
      intro hmem
      obtain rfl : t = u := by simpa [ProcEvent.execs] using hmem
      exact hu.1
  | @scanLast p u c hp hc =>
      have hu := hexec p
      rw [hp] at hu
      refine h.active ⟨rfl, rfl, rfl, by simp [hp], by simp⟩ (by rw [hp]; rfl) (by simp) (by simp)
        ?_ fun _ => rfl
      intro hmem
      obtain rfl : t = u := by simpa [ProcEvent.execs] using hmem
      exact hu.1
  | @refuse p c tid hp =>
      have hu := hexec p
      rw [hp] at hu
      refine h.active ⟨rfl, rfl, rfl, by simp [hp], by simp⟩ (by rw [hp]; rfl) (by simp) ?_ ?_
        fun _ => rfl
      · cases c <;> simp [Caller.returned]
      · intro hmem
        refine @mem_returned s p t c (-1) ?_ (by simpa [ProcEvent.execs] using hmem)
        rintro u rfl
        exact hu.2.1
  | @up p u c v hp =>
      have hu := hexec p
      rw [hp] at hu
      refine h.active ⟨rfl, rfl, rfl, by simp [hp], by simp⟩ (by rw [hp]; rfl) (by simp) ?_ ?_
        fun _ => rfl
      · cases c <;> simp [Caller.returned]
      · intro hmem
        refine @mem_returned s p t c v ?_ (by simpa [ProcEvent.execs] using hmem)
        rintro w rfl
        exact hu.2.1
  | @raise p success hp =>
      refine h.move (l := []) ⟨rfl, rfl, (List.append_nil _).symm, by simp [hp], ?_⟩ (by simp)
        (by simp) ?_ (fun _ => rfl) ?_
      · cases success <;> simp
      · intro _
        cases success <;> simp [hp]
      · -- only a `load` that has failed dooms the process
        rintro rfl hd
        cases success with
        | false =>
            exact Or.inr (Or.inl (update_self _ _ _))
        | true =>
            rcases hd with hd | hd | ⟨hd, -⟩
            · simp [hp] at hd
            · simp [hp] at hd
            · simp [hp, Pc.over] at hd
  | @fail p hp =>
      refine h.move ⟨rfl, rfl, rfl, by simp [hp], by simp⟩ (by simp) (by simp [ProcEvent.execs])
        (fun _ => by simp [hp]) (fun ht => update_of_ne ht _ _) ?_
      intro _ _
      refine Or.inr (Or.inr ⟨?_, update_self _ _ _⟩)
      simp [exitWith, Procs.goto, Procs.record, Pc.over]
  | @exitUp p hp | @exitDown p hp hlock =>
      refine h.move (l := []) ⟨rfl, rfl, (List.append_nil _).symm, by simp [hp], by simp⟩ (by simp)
        (by simp) (fun _ => by simp [hp]) (fun _ => rfl) ?_
      rintro rfl (hd | hd | ⟨-, hstatus⟩)
      · simp [hp] at hd
      · simp [hp] at hd
      · exact Or.inr (Or.inr ⟨by simp [Procs.goto, Pc.over], hstatus⟩)

/-- One process goes on to a place where it has what it relies on. -/
theorem executing_move {q : Tid} (h : ∀ q, s.Executing q (s.pc q)) (hmoves : Moves s s' p k l)
    (hk : s'.Executing p k) : s'.Executing q (s'.pc q) := by
  rw [hmoves.pc]
  by_cases hq : q = p
  · rw [hq, update_self]
    exact hk
  · rw [update_of_ne hq]
    exact (h q).mono hmoves.log

theorem executing_step (h : ∀ q, s.Executing q (s.pc q)) (htree : s.Tree) (hlocks : s.LoadLocks)
    (hloads : ∀ t, s.Loads t) (hs : Trans v₀ s a s') (q : Tid) : s'.Executing q (s'.pc q) := by
  cases hs with
  | @exec p u pos hp hu hpos =>
      by_cases hqp : q = p
      · simp [threadCreate, hqp, Procs.Executing]
      · by_cases hqu : q = u
        · subst hqu
          simp [threadCreate, hqp, Procs.Executing]
        · have hpc : (threadCreate v₀ p u pos s).pc q = s.pc q := by
            simp [threadCreate, hqp, hqu]
          rw [hpc]
          exact (h q).mono (l := []) (List.append_nil _).symm
  | @lower p u hp hlock =>
      refine executing_move h (l := []) ⟨rfl, rfl, (List.append_nil _).symm, by simp [hp], by simp⟩
        ?_
      obtain ⟨hmem, hvalue⟩ := hlocks.down p u hp
      have hnot : s.pc u ≠ .loading := by
        intro heq
        rw [heq] at hvalue
        exact hlock hvalue
      have hl : s.HasLoaded u := (hloads u).some (htree.listed p u hmem).2 hnot
      exact ⟨hl.mono (List.append_nil _).symm, List.ne_nil_of_mem hmem⟩
  | @scanHit p u c todo hp hc =>
      have hu := h p
      rw [hp] at hu
      refine executing_move h ⟨rfl, rfl, rfl, by simp [hp], by simp⟩ ?_
      exact ⟨rfl, hu.1.mono rfl, by simp [Procs.record]⟩
  | @scanNext p u c todo hp hc htodo =>
      have hu := h p
      rw [hp] at hu
      refine executing_move h (l := []) ⟨rfl, rfl, (List.append_nil _).symm, by simp [hp], by simp⟩
        ?_
      exact ⟨hu.1.mono (List.append_nil _).symm, htodo⟩
  | @found p u c tid todo hp htid =>
      have hu := h p
      rw [hp] at hu
      refine executing_move h (l := []) ⟨rfl, rfl, (List.append_nil _).symm, by simp [hp], by simp⟩
        ?_
      cases c with
      | wait =>
          trivial
      | exec w =>
          obtain ⟨htid', hwaits⟩ := hu
          have huw : u = w := by
            have := htid.symm.trans htid'
            exact_mod_cast this
          have hnext : s.Executing p (.waitDown (.exec w) u) := ⟨huw, hwaits⟩
          exact hnext.mono (List.append_nil _).symm
  | @pass p u c tid todo hp htid =>
      have hu := h p
      rw [hp] at hu
      have hnext : s.Executing p (.waitScan c tid todo) := by
        cases c <;> exact hu
      exact executing_move h (l := [])
        ⟨rfl, rfl, (List.append_nil _).symm, by simp [hp], by simp⟩
        (hnext.mono (List.append_nil _).symm)
  | @down p u c hp hlock =>
      have hu := h p
      rw [hp] at hu
      have hnext : s.Executing p (.waitRead c u) := by
        cases c <;> exact hu
      exact executing_move h (l := [])
        ⟨rfl, rfl, (List.append_nil _).symm, by simp [hp], by simp⟩
        (hnext.mono (List.append_nil _).symm)
  | @read p u c hp =>
      have hu := h p
      rw [hp] at hu
      have hnext : s.Executing p (.waitUnlink c u (s.exitStatus u)) := by
        cases c <;> exact hu
      exact executing_move h ⟨rfl, rfl, rfl, by simp [hp], by simp⟩ (hnext.mono rfl)
  | @unlink p u c v hp =>
      have hu := h p
      rw [hp] at hu
      have hnext : s.Executing p (.waitUp c u v) := by
        cases c <;> exact hu
      exact executing_move h ⟨rfl, rfl, rfl, by simp [hp], by simp⟩ (hnext.mono rfl)
  | wait hp | exitUp hp | exitDown hp hlock =>
      exact executing_move h (l := [])
        ⟨rfl, rfl, (List.append_nil _).symm, by simp [hp], by simp⟩ trivial
  | @raise p success hp =>
      refine executing_move h (l := [])
        ⟨rfl, rfl, (List.append_nil _).symm, by simp [hp], ?_⟩ ?_
      · cases success <;> simp
      · cases success <;> trivial
  | exit hp hroot | kill hp hroot | load hp | fail hp | scanNone hp | scanLast hp hc | refuse hp
  | up hp =>
      exact executing_move h ⟨rfl, rfl, rfl, by simp [hp], by simp⟩ trivial

end Loads

end Project4
end Pintos
