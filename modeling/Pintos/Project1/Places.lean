import Pintos.Project1.System

/-!
# Places — where a thread is linked in project 1

`Places` ties a thread's status and the lists it is linked in to the place of its program.  The
kernel functions keep it, and so does every step.
-/

namespace Pintos
namespace Project1

open Lib Function
open Project2 (ThreadPtr ThreadStatus Fault bind_eq_ok initialThread TIME_SLICE)

/-! ## The invariant -/

structure Places (k : Kernel) (pc : ThreadPtr → Pc) (pending : ThreadPtr → Option Return) :
    Prop where
  alive : ∀ t, t ∈ k.allList ↔ k.status t ≠ .dying
  all_nodup : k.allList.Nodup
  dead : ∀ t, k.status t = .dying → pc t = .own ∧ pending t = none
  ready : ∀ t ∈ k.readyList, k.status t = .ready
  ready_nodup : k.readyList.Nodup
  sleep : ∀ t ∈ k.sleepingList, k.status t = .blocked ∧ pc t = .asleep
  sleep_nodup : k.sleepingList.Nodup
  embryo : ∀ u t, pc u = .creating t →
    k.status t = .blocked ∧ (pc t = .own ∨ pc t = .setIdle) ∧ pending t = none
  embryo_unique : ∀ u v t, pc u = .creating t → pc v = .creating t → u = v
  idle : ∀ i, k.idleThread = some i → pc i = .idleUp ∨ pc i = .idleLoop
  returns : ∀ t, pending t = some .blocked → pc t = .own ∨ ∃ u, pc t = .creating u

/-- What holds between two steps. -/
structure Settled (σ : System) : Prop where
  places : Places σ.kernel σ.pc σ.pending
  running : σ.kernel.status σ.kernel.running = .running
  interrupts : σ.kernel.intrContext = false

namespace Places

variable {k k' : Kernel} {pc : ThreadPtr → Pc} {pending : ThreadPtr → Option Return}
  {t : ThreadPtr} {rest : List ThreadPtr} {p : Pc}

theorem not_sleep (h : Places k pc pending) (ht : k.status t ≠ .blocked) :
    t ∉ k.sleepingList :=
  fun hm => ht (h.sleep t hm).1

theorem not_ready (h : Places k pc pending) (ht : k.status t ≠ .ready) : t ∉ k.readyList :=
  fun hm => ht (h.ready t hm)

theorem not_embryo (h : Places k pc pending) (ht : k.status t ≠ .blocked) (u : ThreadPtr) :
    pc u ≠ .creating t :=
  fun hu => ht (h.embryo u t hu).1

theorem idle_alive (h : Places k pc pending) (hi : k.idleThread = some t) :
    k.status t ≠ .dying := by
  intro hd
  have hown := (h.dead t hd).1
  rcases h.idle t hi with hp | hp <;> rw [hown] at hp <;> cases hp

/-! ## The kernel functions -/

/-- The next thread is dispatched. -/
theorem dispatch (h : Places k pc pending) (hn : Next k t rest) :
    Places (k.dispatch t rest) pc pending := by
  -- the chosen thread was ready, or it is the idle thread
  have hpick : (k.status t = .ready ∨ k.idleThread = some t) ∧ rest.Nodup ∧ t ∉ rest ∧
      ∀ u ∈ rest, u ∈ k.readyList := by
    rcases hn with ⟨h0, rfl, hi⟩ | hr
    · exact ⟨Or.inr hi, List.nodup_nil, by simp, by simp⟩
    · obtain ⟨hnot, hnd⟩ := List.nodup_cons.1 (hr ▸ h.ready_nodup)
      exact ⟨Or.inl (h.ready t (by simp [hr])), hnd, hnot, fun u hu => by simp [hr, hu]⟩
  obtain ⟨hst, hnd, hnot, hsub⟩ := hpick
  have hdy : k.status t ≠ .dying := by
    rcases hst with hst | hi
    · simp [hst]
    · exact h.idle_alive hi
  have hidle : k.status t ≠ .ready → pc t = .idleUp ∨ pc t = .idleLoop :=
    fun hne => h.idle t (hst.resolve_left hne)
  have hother : ∀ u, u ≠ t → (k.dispatch t rest).status u = k.status u :=
    fun u hu => update_of_ne hu _ _
  have hself : (k.dispatch t rest).status t = .running := update_self _ _ _
  refine ⟨fun u => ?_, h.all_nodup, fun u hu => ?_, fun u hu => ?_, hnd, fun u hu => ?_,
    h.sleep_nodup, fun u v hv => ?_, h.embryo_unique, h.idle, h.returns⟩
  · by_cases hut : u = t
    · subst hut
      exact iff_of_true ((h.alive u).2 hdy) (by simp [hself])
    · rw [hother u hut]
      exact h.alive u
  · by_cases hut : u = t
    · subst hut
      rw [hself] at hu
      cases hu
    · exact h.dead u (hother u hut ▸ hu)
  · have hut : u ≠ t := fun e => hnot (e ▸ hu)
    rw [hother u hut]
    exact h.ready u (hsub u hu)
  · obtain ⟨hb, hp⟩ := h.sleep u hu
    have hut : u ≠ t := by
      rintro rfl
      rcases hidle (by simp [hb]) with hp' | hp' <;> rw [hp] at hp' <;> cases hp'
    rw [hother u hut]
    exact ⟨hb, hp⟩
  · obtain ⟨hb, hp, hpend⟩ := h.embryo u v hv
    have hvt : v ≠ t := by
      rintro rfl
      rcases hidle (by simp [hb]) with hp' | hp' <;> rw [hp'] at hp <;> simp at hp
    rw [hother v hvt]
    exact ⟨hb, hp, hpend⟩

/-- The running thread gets another place and other things pending. -/
theorem goto (h : Places k pc pending) (hrun : k.status k.running = .running)
    {x : Option Return} (hp : ∀ u, p = .creating u → pc k.running = .creating u)
    (hi : k.idleThread = some k.running → p = .idleUp ∨ p = .idleLoop)
    (hx : x = some .blocked → p = .own ∨ ∃ u, p = .creating u) :
    Places k (update pc k.running p) (update pending k.running x) := by
  have hother : ∀ u, u ≠ k.running → update pc k.running p u = pc u :=
    fun u hu => update_of_ne hu _ _
  -- whoever creates a thread did so before
  have hcreating : ∀ u v, update pc k.running p u = .creating v → pc u = .creating v := by
    intro u v hv
    by_cases hu : u = k.running
    · subst hu
      rw [update_self] at hv
      exact hp v hv
    · rwa [hother u hu] at hv
  refine ⟨h.alive, h.all_nodup, fun u hu => ?_, h.ready, h.ready_nodup, fun u hu => ?_,
    h.sleep_nodup, fun u v hv => ?_, fun u v w hu hv => ?_, fun i hii => ?_, fun u hu => ?_⟩
  · have hne : u ≠ k.running := by
      rintro rfl
      rw [hrun] at hu
      cases hu
    simpa [hne] using h.dead u hu
  · have hne : u ≠ k.running := fun e => h.not_sleep (by simp [hrun]) (e ▸ hu)
    rw [hother u hne]
    exact h.sleep u hu
  · have hv' := hcreating u v hv
    have hne : v ≠ k.running := by
      rintro rfl
      exact h.not_embryo (by simp [hrun]) u hv'
    simpa [hne] using h.embryo u v hv'
  · exact h.embryo_unique u v w (hcreating u w hu) (hcreating v w hv)
  · by_cases hne : i = k.running
    · subst hne
      simpa using hi hii
    · simpa [hne] using h.idle i hii
  · by_cases hne : u = k.running
    · subst hne
      simpa using hx (by simpa using hu)
    · simpa [hne] using h.returns u (by simpa [hne] using hu)

/-- Only the status of the running thread, which is in no list, has changed. -/
theorem mark (h : Places k pc pending) {s : ThreadStatus} (hrun : k.status k.running = .running)
    (hs : s = .blocked ∨ s = .ready) :
    Places { k with status := update k.status k.running s } pc pending := by
  have hother : ∀ u, k.status u ≠ .running → update k.status k.running s u = k.status u :=
    fun u hu => update_of_ne (ne_of_apply_ne k.status (hrun.symm ▸ hu)) _ _
  refine ⟨fun u => ?_, h.all_nodup, fun u hu => ?_, fun u hu => ?_, h.ready_nodup, fun u hu => ?_,
    h.sleep_nodup, fun u v hv => ?_, h.embryo_unique, h.idle, h.returns⟩
  · by_cases hu : u = k.running
    · subst hu
      refine iff_of_true ((h.alive _).2 (by simp [hrun])) ?_
      rcases hs with rfl | rfl <;> simp
    · simpa [hu] using h.alive u
  · by_cases hne : u = k.running
    · subst hne
      rcases hs with rfl | rfl <;> simp at hu
    · exact h.dead u (by simpa [hne] using hu)
  · have hst := h.ready u hu
    show update k.status k.running s u = _
    rw [hother u (by simp [hst]), hst]
  · obtain ⟨hb, hp⟩ := h.sleep u hu
    refine ⟨?_, hp⟩
    show update k.status k.running s u = _
    rw [hother u (by simp [hb]), hb]
  · obtain ⟨hb, hp⟩ := h.embryo u v hv
    refine ⟨?_, hp⟩
    show update k.status k.running s v = _
    rw [hother v (by simp [hb]), hb]

theorem threadBlock (h : Places k pc pending) (hrun : k.status k.running = .running)
    (hb : threadBlock k = .ok k') : Places k' pc pending := by
  rcases threadBlock_eq_ok.1 hb with ⟨-, t, rest, hn, rfl⟩
  have hblocked : Places k.blocked pc pending := h.mark hrun (Or.inl rfl)
  exact hblocked.dispatch hn

theorem threadYield (h : Places k pc pending) (hrun : k.status k.running = .running)
    (hy : threadYield k = .ok k') : Places k' pc pending := by
  rcases threadYield_eq_ok.1 hy with ⟨-, t, rest, hn, rfl⟩
  have hmark := h.mark hrun (Or.inr rfl)
  have hmem : ∀ u ∈ k.yielding.readyList, u = k.running ∨ u ∈ k.readyList := by
    intro u hu
    by_cases hi : k.idleThread = some k.running
    · simpa [Kernel.yielding, hi] using Or.inr hu
    · simpa [Kernel.yielding, hi, or_comm] using hu
  have hyield : Places k.yielding pc pending := by
    refine ⟨hmark.alive, hmark.all_nodup, hmark.dead, fun u hu => ?_, ?_, hmark.sleep,
      hmark.sleep_nodup, hmark.embryo, hmark.embryo_unique, hmark.idle, hmark.returns⟩
    · rcases hmem u hu with rfl | hu
      · exact update_self _ _ _
      · exact hmark.ready u hu
    · have hout : k.running ∉ k.readyList := h.not_ready (by simp [hrun])
      by_cases hi : k.idleThread = some k.running
      · simpa [Kernel.yielding, hi] using h.ready_nodup
      · simp only [Kernel.yielding, hi, if_false]
        exact List.nodup_append_comm.1 (List.nodup_cons.2 ⟨hout, h.ready_nodup⟩)
  exact hyield.dispatch hn

/-- The running thread, in its own code, ends. -/
theorem threadExit (h : Places k pc pending) (hrun : k.status k.running = .running)
    (hp : pc k.running = .own) (hpend : pending k.running = none)
    (hx : threadExit k = .ok k') : Places k' pc pending := by
  rcases threadExit_eq_ok.1 hx with ⟨-, t, rest, hn, rfl⟩
  have hother : ∀ u, k.status u ≠ .running → k.exiting.status u = k.status u :=
    fun u hu => update_of_ne (ne_of_apply_ne k.status (hrun.symm ▸ hu)) _ _
  have hexit : Places k.exiting pc pending := by
    refine ⟨fun u => ?_, h.all_nodup.erase _, fun u hu => ?_, fun u hu => ?_, h.ready_nodup,
      fun u hu => ?_, h.sleep_nodup, fun u v hv => ?_, h.embryo_unique, h.idle, h.returns⟩
    · by_cases hu : u = k.running
      · subst hu
        simp [Kernel.exiting, h.all_nodup.mem_erase_iff]
      · simpa [Kernel.exiting, h.all_nodup.mem_erase_iff, hu] using h.alive u
    · by_cases hne : u = k.running
      · subst hne
        exact ⟨hp, hpend⟩
      · exact h.dead u (by simpa [Kernel.exiting, hne] using hu)
    · rw [hother u (by simp [h.ready u hu])]
      exact h.ready u hu
    · rw [hother u (by simp [(h.sleep u hu).1])]
      exact h.sleep u hu
    · rw [hother v (by simp [(h.embryo u v hv).1])]
      exact h.embryo u v hv
  exact hexit.dispatch hn

/-- A blocked thread that is neither asleep nor in creation becomes ready. -/
theorem madeReady (h : Places k pc pending) (hb : k.status t = .blocked)
    (hp : pc t ≠ .asleep) (hnew : ∀ u, pc u ≠ .creating t) : Places (k.madeReady t) pc pending := by
  have hother : ∀ u, u ≠ t → (k.madeReady t).status u = k.status u :=
    fun u hu => update_of_ne hu _ _
  have hself : (k.madeReady t).status t = .ready := update_self _ _ _
  refine ⟨fun u => ?_, h.all_nodup, fun u hu => ?_, fun u hu => ?_, ?_, fun u hu => ?_,
    h.sleep_nodup, fun u v hv => ?_, h.embryo_unique, h.idle, h.returns⟩
  · by_cases hu : u = t
    · subst hu
      exact iff_of_true ((h.alive u).2 (by simp [hb])) (by simp [hself])
    · rw [hother u hu]
      exact h.alive u
  · by_cases hut : u = t
    · subst hut
      rw [hself] at hu
      cases hu
    · exact h.dead u (hother u hut ▸ hu)
  · rcases List.mem_append.1 hu with hold | hnew'
    · have hut : u ≠ t := by
        rintro rfl
        exact h.not_ready (by simp [hb]) hold
      rw [hother u hut]
      exact h.ready u hold
    · rw [List.mem_singleton.1 hnew']
      exact hself
  · have hout : t ∉ k.readyList := h.not_ready (by simp [hb])
    exact List.nodup_append_comm.1 (List.nodup_cons.2 ⟨hout, h.ready_nodup⟩)
  · have hut : u ≠ t := by
      rintro rfl
      exact hp (h.sleep u hu).2
    rw [hother u hut]
    exact h.sleep u hu
  · have hvt : v ≠ t := by
      rintro rfl
      exact hnew u hv
    rw [hother v hvt]
    exact h.embryo u v hv

/-- A page that no thread uses gets a new thread, which its creator will unblock. -/
theorem create {q : Pc} {priority : Int} (h : Places k pc pending)
    (hrun : k.status k.running = .running) (ht : t ∉ k.allList)
    (hq : q = .own ∨ q = .setIdle) (hi : k.idleThread ≠ some k.running) :
    Places (initThread k t priority) (update (update pc t q) k.running (.creating t)) pending := by
  have hdead : k.status t = .dying := by
    by_contra hne
    exact ht ((h.alive t).2 hne)
  obtain ⟨hown, hpend⟩ := h.dead t hdead
  have hne : t ≠ k.running := by
    rintro rfl
    rw [hrun] at hdead
    cases hdead
  have hother : ∀ u, u ≠ t → (initThread k t priority).status u = k.status u :=
    fun u hu => update_of_ne hu _ _
  have hself : (initThread k t priority).status t = .blocked := update_self _ _ _
  have hpc : ∀ u, u ≠ t → u ≠ k.running →
      update (update pc t q) k.running (.creating t) u = pc u := by
    intro u hu hu'
    simp [hu, hu']
  have hpct : update (update pc t q) k.running (.creating t) t = q := by simp [hne]
  have hcreating : ∀ u v, update (update pc t q) k.running (.creating t) u = .creating v →
      (u = k.running ∧ v = t) ∨ (u ≠ k.running ∧ pc u = .creating v) := by
    intro u v hv
    by_cases hu : u = k.running
    · subst hu
      rw [update_self] at hv
      cases hv
      exact Or.inl ⟨rfl, rfl⟩
    · by_cases hut : u = t
      · subst hut
        rw [hpct] at hv
        rcases hq with rfl | rfl <;> cases hv
      · rw [hpc u hut hu] at hv
        exact Or.inr ⟨hu, hv⟩
  refine ⟨fun u => ?_, ?_, fun u hu => ?_, fun u hu => ?_, h.ready_nodup, fun u hu => ?_,
    h.sleep_nodup, fun u v hv => ?_, fun u v w hu hv => ?_, fun i hii => ?_, fun u hu => ?_⟩
  · by_cases hu : u = t
    · subst hu
      exact iff_of_true (List.mem_append_right _ (by simp)) (by simp [hself])
    · rw [hother u hu]
      simpa [initThread, hu] using h.alive u
  · exact List.nodup_append_comm.1 (List.nodup_cons.2 ⟨ht, h.all_nodup⟩)
  · have hut : u ≠ t := by
      rintro rfl
      rw [hself] at hu
      cases hu
    rw [hother u hut] at hu
    have hur : u ≠ k.running := by
      rintro rfl
      rw [hrun] at hu
      cases hu
    rw [hpc u hut hur]
    exact h.dead u hu
  · have hut : u ≠ t := by
      rintro rfl
      exact h.not_ready (by simp [hdead]) hu
    rw [hother u hut]
    exact h.ready u hu
  · have hut : u ≠ t := by
      rintro rfl
      exact h.not_sleep (by simp [hdead]) hu
    have hur : u ≠ k.running := by
      rintro rfl
      exact h.not_sleep (by simp [hrun]) hu
    rw [hother u hut, hpc u hut hur]
    exact h.sleep u hu
  · rcases hcreating u v hv with ⟨-, rfl⟩ | ⟨-, hold⟩
    · exact ⟨hself, by rwa [hpct], hpend⟩
    · have hvt : v ≠ t := by
        rintro rfl
        exact h.not_embryo (by simp [hdead]) u hold
      have hvr : v ≠ k.running := by
        rintro rfl
        exact h.not_embryo (by simp [hrun]) u hold
      rw [hother v hvt, hpc v hvt hvr]
      exact h.embryo u v hold
  · rcases hcreating u w hu with ⟨rfl, hw⟩ | ⟨-, hu⟩
    · rcases hcreating v w hv with ⟨rfl, -⟩ | ⟨-, hv⟩
      · rfl
      · exact absurd (hw ▸ hv) (h.not_embryo (by simp [hdead]) v)
    · rcases hcreating v w hv with ⟨-, hw⟩ | ⟨-, hv⟩
      · exact absurd (hw ▸ hu) (h.not_embryo (by simp [hdead]) u)
      · exact h.embryo_unique u v w hu hv
  · have hit : i ≠ t := fun e => h.idle_alive (e ▸ hii) hdead
    have hir : i ≠ k.running := fun e => hi (e ▸ hii)
    rw [hpc i hit hir]
    exact h.idle i hii
  · by_cases hur : u = k.running
    · subst hur
      exact Or.inr ⟨t, update_self _ _ _⟩
    · have hut : u ≠ t := by
        rintro rfl
        rw [hpend] at hu
        cases hu
      rw [hpc u hut hur]
      exact h.returns u hu

/-- The running thread goes to sleep. -/
theorem sleepUntil {ticks : Int} (h : Places k pc pending)
    (hrun : k.status k.running = .running) (hi : k.idleThread ≠ some k.running)
    (hpend : pending k.running = none) (hs : sleepUntil k ticks = .ok k') :
    Places k' (update pc k.running .asleep) pending := by
  rcases threadBlock_eq_ok.1 hs with ⟨-, t, rest, hn, rfl⟩
  have hgo : Places k (update pc k.running .asleep) pending := by
    have hgo := @goto k pc pending .asleep h hrun none (fun _ hu => by cases hu)
      (fun hii => absurd hii hi) (fun hx => by cases hx)
    rwa [← hpend, update_eq_self] at hgo
  have hmark := hgo.mark hrun (Or.inl rfl)
  have hout : k.running ∉ k.sleepingList := h.not_sleep (by simp [hrun])
  have hsleep : Places (threadToSleep k ticks).blocked (update pc k.running .asleep) pending := by
    refine ⟨hmark.alive, hmark.all_nodup, hmark.dead, hmark.ready, hmark.ready_nodup,
      fun u hu => ?_, ?_, hmark.embryo, hmark.embryo_unique, hmark.idle, hmark.returns⟩
    · rcases List.mem_append.1 hu with hu | hu
      · exact hmark.sleep u hu
      · rw [List.mem_singleton.1 hu]
        exact ⟨update_self _ _ _, update_self _ _ _⟩
    · exact List.nodup_append_comm.1 (List.nodup_cons.2 ⟨hout, h.sleep_nodup⟩)
  exact hsleep.dispatch hn

theorem mem_due : t ∈ k.due k.now ↔ t ∈ k.sleepingList ∧ k.sleepingTicks t ≤ k.now := by
  simp [Kernel.due]

/-- The timer interrupt wakes the sleepers whose time has come. -/
theorem rung (h : Places k pc pending) : Places k.rung pc pending := by
  have hdue : ∀ t ∈ k.due k.now, k.rung.status t = .ready := fun t ht => if_pos ht
  have hother : ∀ t, t ∉ k.due k.now → k.rung.status t = k.status t := fun t ht => if_neg ht
  have hblocked : ∀ t ∈ k.due k.now, k.status t = .blocked ∧ pc t = .asleep :=
    fun t ht => h.sleep t (mem_due.1 ht).1
  refine ⟨fun t => ?_, h.all_nodup, fun t ht => ?_, fun t ht => ?_, ?_, fun t ht => ?_,
    h.sleep_nodup.filter _, fun u t hu => ?_, h.embryo_unique, h.idle, h.returns⟩
  · by_cases hd : t ∈ k.due k.now
    · exact iff_of_true ((h.alive t).2 (by simp [(hblocked t hd).1])) (by simp [hdue t hd])
    · rw [hother t hd]
      exact h.alive t
  · by_cases hd : t ∈ k.due k.now
    · rw [hdue t hd] at ht
      cases ht
    · exact h.dead t (hother t hd ▸ ht)
  · rcases List.mem_append.1 ht with hr | hd
    · have hd : t ∉ k.due k.now := fun hd => by
        have hst := h.ready t hr
        rw [(hblocked t hd).1] at hst
        cases hst
      rw [hother t hd]
      exact h.ready t hr
    · exact hdue t hd
  · refine h.ready_nodup.append (h.sleep_nodup.filter _) fun t hr hd => ?_
    exact h.not_ready (by simp [(hblocked t hd).1]) hr
  · obtain ⟨hs, hlt⟩ := List.mem_filter.1 ht
    have hd : t ∉ k.due k.now := fun hd => not_lt.2 (mem_due.1 hd).2 (by simpa using hlt)
    rw [hother t hd]
    exact h.sleep t hs
  · obtain ⟨hb, hp, hpend⟩ := h.embryo u t hu
    have hd : t ∉ k.due k.now := fun hd => by
      rw [(hblocked t hd).2] at hp
      simp at hp
    rw [hother t hd]
    exact ⟨hb, hp, hpend⟩

end Places

/-! ## The steps -/

/-- The synchronization primitives unblock threads that they have blocked. -/
def UnblockOk (σ : System) (a : Act) : Prop :=
  ∀ t, a = .threadUnblock t → σ.pending t = some .blocked

/-- A thread runs, with interrupts outside their handlers. -/
def Kernel.Runs (k : Kernel) : Prop :=
  k.status k.running = .running ∧ k.intrContext = false

section Steps

variable {k k' : Kernel} {σ σ' : System} {a : Act} {t : ThreadPtr} {ticks : Int}

theorem threadBlock_runs (hb : threadBlock k = .ok k') : k'.Runs := by
  rcases threadBlock_eq_ok.1 hb with ⟨hi, t, rest, -, rfl⟩
  exact ⟨update_self _ _ _, hi⟩

theorem threadYield_runs (hy : threadYield k = .ok k') : k'.Runs := by
  rcases threadYield_eq_ok.1 hy with ⟨hi, t, rest, -, rfl⟩
  exact ⟨update_self _ _ _, hi⟩

theorem threadExit_runs (hx : threadExit k = .ok k') : k'.Runs := by
  rcases threadExit_eq_ok.1 hx with ⟨hi, t, rest, -, rfl⟩
  exact ⟨update_self _ _ _, hi⟩

theorem Settled.runs (h : Settled σ) : σ.kernel.Runs := ⟨h.running, h.interrupts⟩

theorem Settled.of_runs (hp : Places σ.kernel σ.pc σ.pending) (hr : σ.kernel.Runs) : Settled σ :=
  ⟨hp, hr.1, hr.2⟩

theorem Kernel.Runs.madeReady (h : k.Runs) (hb : k.status t = .blocked) :
    (k.madeReady t).Runs := by
  refine ⟨?_, h.2⟩
  have hne : k.running ≠ t := by
    rintro rfl
    rw [h.1] at hb
    cases hb
  exact (update_of_ne hne _ _).trans h.1

theorem Kernel.Runs.initThread {p : Int} (h : k.Runs) (ht : k.status t = .dying) :
    (initThread k t p).Runs := by
  refine ⟨?_, h.2⟩
  have hne : k.running ≠ t := by
    rintro rfl
    rw [h.1] at ht
    cases ht
  exact (update_of_ne hne _ _).trans h.1

theorem Settled.idle_ne (h : Settled σ) (hu : σ.pc σ.kernel.running ≠ .idleUp)
    (hl : σ.pc σ.kernel.running ≠ .idleLoop) :
    σ.kernel.idleThread ≠ some σ.kernel.running := by
  intro hi
  rcases h.places.idle _ hi with hp | hp
  · exact hu hp
  · exact hl hp

theorem Settled.dying (h : Settled σ) (ht : t ∉ σ.kernel.allList) :
    σ.kernel.status t = .dying := by
  by_contra hne
  exact ht ((h.places.alive t).2 hne)

/-- The running thread goes on at `p`. -/
theorem Settled.goto (h : Settled σ) {p : Pc} (hpend : σ.pending σ.kernel.running = none)
    (hp : ∀ u, p ≠ .creating u) (hi : σ.kernel.idleThread = some σ.kernel.running →
      p = .idleUp ∨ p = .idleLoop) : Settled (σ.goto p) := by
  refine .of_runs ?_ h.runs
  have hgo := @Places.goto _ _ _ p h.places h.running none (fun u hu => absurd hu (hp u)) hi
    (fun hx => by cases hx)
  rwa [← hpend, update_eq_self] at hgo

/-- Only what is pending for the running thread changes. -/
theorem Settled.pend (h : Settled σ) {x : Option Return}
    (hx : x = some .blocked → σ.pc σ.kernel.running = .own ∨
      ∃ u, σ.pc σ.kernel.running = .creating u) :
    Settled { σ with pending := update σ.pending σ.kernel.running x } := by
  refine .of_runs ?_ h.runs
  have hgo := @Places.goto _ _ _ (σ.pc σ.kernel.running) h.places h.running x (fun _ hu => hu)
    (fun hi => h.places.idle _ hi) hx
  rwa [update_eq_self] at hgo

theorem Settled.resume {r : Return} (h : Settled σ) (hs : σ.resume r = .ok σ') : Settled σ' := by
  have hpend := @Settled.pend _ h none (fun hx => by cases hx)
  cases r with
  | blocked =>
      cases hs
      exact hpend
  | interrupted =>
      rcases bind_eq_ok.1 hs with ⟨k, hy, hs⟩
      cases hs
      exact .of_runs (hpend.places.threadYield h.running hy) (threadYield_runs hy)

theorem Settled.exec (h : Settled σ) (hpend : σ.pending σ.kernel.running = none)
    (hs : σ.exec = .ok σ') : Settled σ' := by
  unfold System.exec at hs
  split at hs
  · cases hs
    exact h
  · -- `thread_start` creates the idle thread
    rename_i i hpc
    rcases bind_eq_ok.1 hs with ⟨k, hc, hs⟩
    cases hs
    rcases threadCreate_eq_ok.1 hc with ⟨⟨hi, -⟩, -, rfl⟩
    have hidle := h.idle_ne (by simp [hpc]) (by simp [hpc])
    exact .of_runs (h.places.create h.running hi (Or.inr rfl) hidle)
      (h.runs.initThread (h.dying hi))
  · -- `thread_create` unblocks the new thread
    rename_i t hpc
    rcases bind_eq_ok.1 hs with ⟨k, hu, hs⟩
    cases hs
    rcases threadUnblock_eq_ok.1 hu with ⟨hb, rfl⟩
    obtain ⟨-, hpt, -⟩ := h.places.embryo _ t hpc
    have hidle := h.idle_ne (by simp [hpc]) (by simp [hpc])
    have hgo := @Settled.goto _ h .own hpend (fun _ => Pc.noConfusion) (fun hi => absurd hi hidle)
    have hne : t ≠ σ.kernel.running := by
      rintro rfl
      rw [h.running] at hb
      cases hb
    refine .of_runs (hgo.places.madeReady hb ?_ fun u hu => ?_) (h.runs.madeReady hb)
    · show update σ.pc σ.kernel.running .own t ≠ .asleep
      rw [update_of_ne hne]
      rcases hpt with hpt | hpt <;> simp [hpt]
    · by_cases hur : u = σ.kernel.running
      · subst hur
        simp [System.goto] at hu
      · exact hur (h.places.embryo_unique u _ t (by simpa [System.goto, hur] using hu) hpc)
  · rename_i d hpc
    rcases bind_eq_ok.1 hs with ⟨k, hsl, hs⟩
    cases hs
    have hidle := h.idle_ne (by simp [hpc]) (by simp [hpc])
    exact .of_runs (h.places.sleepUntil h.running hidle hpend hsl) (threadBlock_runs hsl)
  · rename_i hpc
    cases hs
    have hidle := h.idle_ne (by simp [hpc]) (by simp [hpc])
    exact h.goto hpend (fun _ => Pc.noConfusion) (fun hi => absurd hi hidle)
  · -- `idle` makes itself known
    rename_i hpc
    cases hs
    have hgo := @Settled.goto _ h .idleUp hpend (fun _ => Pc.noConfusion) (fun _ => Or.inl rfl)
    refine .of_runs { hgo.places with idle := fun i hi => ?_ } h.runs
    cases hi
    exact Or.inl (update_self _ _ _)
  · cases hs
    exact h.goto hpend (fun _ => Pc.noConfusion) (fun _ => Or.inr rfl)
  · rcases bind_eq_ok.1 hs with ⟨k, hb, hs⟩
    cases hs
    exact .of_runs (h.places.threadBlock h.running hb) (threadBlock_runs hb)

theorem Settled.timerInterrupt (h : Settled σ) :
    timerInterrupt σ.kernel =
      .ok (σ.kernel.rung, decide (TIME_SLICE ≤ σ.kernel.threadTicks + 1)) :=
  timerInterrupt_eq h.places.sleep_nodup fun t ht => (h.places.sleep t ht).1

/-- The system behind the handler. -/
def System.ticked (σ : System) : System where
  kernel := σ.kernel.rung
  pc := σ.pc
  pending :=
    if TIME_SLICE ≤ σ.kernel.threadTicks + 1 then
      update σ.pending σ.kernel.running (some .interrupted)
    else σ.pending

theorem Settled.run_tick (h : Settled σ) : σ.run .tick = .ok σ.ticked := by
  simp only [System.run, h.timerInterrupt, System.ticked]
  by_cases hy : TIME_SLICE ≤ σ.kernel.threadTicks + 1
  · simp only [hy, decide_true, if_true]
    rfl
  · simp only [hy, decide_false, if_false]
    rfl

theorem Settled.rung (h : Settled σ) : Settled { σ with kernel := σ.kernel.rung } := by
  refine .of_runs h.places.rung ⟨?_, rfl⟩
  have hout : σ.kernel.running ∉ σ.kernel.due σ.kernel.now := fun hd =>
    h.places.not_sleep (by simp [h.running]) (Places.mem_due.1 hd).1
  exact (if_neg hout).trans h.running

theorem Settled.step (h : Settled σ) (hu : UnblockOk σ a) (hs : Project1.step a σ = some σ') :
    Settled σ' := by
  rcases step_iff.1 hs with ⟨r, -, -, hr⟩ | ⟨hpend, hen, hr⟩
  · exact h.resume hr
  cases a with
  | timerSleep n =>
      cases hr
      have hpc : σ.pc σ.kernel.running = .own := by
        cases hpc : σ.pc σ.kernel.running <;> simp [hpc, Act.enabled] at hen
        rfl
      have hidle := h.idle_ne (by simp [hpc]) (by simp [hpc])
      exact h.goto hpend (fun _ => Pc.noConfusion) (fun hi => absurd hi hidle)
  | threadYield =>
      rcases bind_eq_ok.1 hr with ⟨k, hy, hr⟩
      cases hr
      exact .of_runs (h.places.threadYield h.running hy) (threadYield_runs hy)
  | threadBlock =>
      rcases bind_eq_ok.1 hr with ⟨k, hb, hr⟩
      cases hr
      have hpc : σ.pc σ.kernel.running = .own ∨ ∃ u, σ.pc σ.kernel.running = .creating u := by
        cases hpc : σ.pc σ.kernel.running <;> simp [hpc, Act.enabled] at hen ⊢
      have hp := @Settled.pend _ h (some .blocked) fun _ => hpc
      exact .of_runs (hp.places.threadBlock h.running hb) (threadBlock_runs hb)
  | threadUnblock t =>
      rcases bind_eq_ok.1 hr with ⟨k, hub, hr⟩
      cases hr
      rcases threadUnblock_eq_ok.1 hub with ⟨hb, rfl⟩
      have hpt := hu t rfl
      refine .of_runs (h.places.madeReady hb ?_ fun u hc => ?_) (h.runs.madeReady hb)
      · rcases h.places.returns t hpt with hp | ⟨v, hp⟩ <;> simp [hp]
      · have hnone := (h.places.embryo u t hc).2.2
        rw [hpt] at hnone
        cases hnone
  | threadCreate t p =>
      rcases bind_eq_ok.1 hr with ⟨k, hc, hr⟩
      cases hr
      rcases threadCreate_eq_ok.1 hc with ⟨⟨ht, -⟩, -, rfl⟩
      have hpc : σ.pc σ.kernel.running = .own := by
        cases hpc : σ.pc σ.kernel.running <;> simp [hpc, Act.enabled] at hen
        rfl
      have hidle := h.idle_ne (by simp [hpc]) (by simp [hpc])
      have hown := (h.places.dead t (h.dying ht)).1
      have hplace := @Places.create _ _ _ t .own p h.places h.running ht (Or.inl rfl) hidle
      rw [← hown, update_eq_self] at hplace
      exact .of_runs hplace (h.runs.initThread (h.dying ht))
  | threadExit =>
      rcases bind_eq_ok.1 hr with ⟨k, hx, hr⟩
      cases hr
      have hpc : σ.pc σ.kernel.running = .own := by
        cases hpc : σ.pc σ.kernel.running <;> simp [hpc, Act.enabled] at hen
        rfl
      exact .of_runs (h.places.threadExit h.running hpc hpend hx) (threadExit_runs hx)
  | exec => exact h.exec hpend hr
  | tick =>
      rw [h.run_tick] at hr
      cases hr
      have hrung := h.rung
      unfold System.ticked
      split
      · have hp : Settled { σ with
            kernel := σ.kernel.rung
            pending := update σ.pending σ.kernel.running (some .interrupted) } :=
          hrung.pend fun hx => by cases hx
        exact hp
      · exact hrung

theorem boot_settled (idle : ThreadPtr) : Settled (boot idle) := by
  have hpc : ∀ t, (boot idle).pc t = if t = initialThread then .threadStart idle else .own :=
    fun _ => rfl
  have hnot : ∀ t u, (boot idle).pc t ≠ .creating u := by
    intro t u
    rw [hpc]
    split <;> simp
  have hown : ∀ t, t ≠ initialThread → (boot idle).pc t = .own := fun t ht => if_neg ht
  refine .of_runs ?_ ⟨rfl, rfl⟩
  constructor
  · intro t
    by_cases ht : t = initialThread <;> simp [boot, bootKernel, ht]
  · exact List.nodup_singleton _
  · intro t ht
    refine ⟨hown t ?_, rfl⟩
    rintro rfl
    cases ht
  · intro t ht
    cases ht
  · exact List.nodup_nil
  · intro t ht
    cases ht
  · exact List.nodup_nil
  · exact fun u t hu => absurd hu (hnot u t)
  · exact fun u v t hu => absurd hu (hnot u t)
  · intro i hi
    cases hi
  · intro t ht
    cases ht

end Steps

end Project1
end Pintos
