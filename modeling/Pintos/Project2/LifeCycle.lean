import Pintos.Project2.Shape
import Pintos.Project2.Faults

/-!
# LifeCycle — every thread is in one place, in every run

Every step of the system keeps `Live` and `Shape`, under any preemption.  What follows for a
thread in a reachable state is its situation: running, ready, blocked, in creation or dying, with
its `elem` linked in the one list that belongs to it.
-/

namespace Pintos
namespace Project2

open Lib Function

/-! ## The invariant of the system -/

/-- What holds of the threads between two steps. -/
structure Settled (σ : System) : Prop where
  live : Live σ.kernel σ.code
  shape : Shape σ.kernel.idleThread σ.code
  interrupts : σ.kernel.intrContext = false

/-- A bare `thread_unblock` is called for a thread that is in a bare `thread_block`. -/
def UnblockOk (σ : System) (a : Act) : Prop :=
  a = .exec → ∀ t, (σ.code σ.kernel.running).head? = some (.threadUnblock t) →
    (σ.code t).head? = some .blockReturn

variable {cfg : Config} {σ σ' : System}

/-- The thread that a bare `thread_unblock` is called for. -/
def Frame.unblocks : Frame → Option ThreadPtr
  | .threadUnblock t => some t
  | _ => none

theorem unblockOk_iff {a : Act} :
    UnblockOk σ a ↔ (a = .exec → ∀ f ∈ (σ.code σ.kernel.running).head?, ∀ t ∈ f.unblocks,
      (σ.code t).head? = some .blockReturn) := by
  refine forall_congr' fun _ => ⟨fun h f hf t ht => ?_, fun h t ht => h _ ht t rfl⟩
  cases f with
  | threadUnblock u =>
      cases ht
      exact h _ hf
  | _ => cases ht

instance instDecidableUnblockOk (σ : System) (a : Act) : Decidable (UnblockOk σ a) :=
  decidable_of_iff (a = .exec → ∀ f ∈ (σ.code σ.kernel.running).head?, ∀ t ∈ f.unblocks,
    (σ.code t).head? = some .blockReturn) unblockOk_iff.symm

/-- The frames of an operation are ordinary ones; `thread_exit` comes alone. -/
theorem opFrames_shape (g : Grain) (cur : ThreadPtr) (o : Op) :
    embryos (o.frames g cur) = [] ∧ (∀ f ∈ o.frames g cur, f.isReturn = false) ∧
      (∀ f ∈ o.frames g cur, f.isIdle = false) ∧ (∀ f ∈ o.frames g cur, f.OwnedBy cur) ∧
      (∀ f ∈ o.frames g cur, f.isAlone = true → o.frames g cur = [f]) := by
  cases o <;> cases g <;> simp [Op.frames, acquireFrame, tryFrame, releaseFrame, embryos_cons,
    Frame.embryo, Frame.isReturn, Frame.isIdle, Frame.OwnedBy, Frame.isAlone]

theorem Settled.call {o : Op} (h : Settled σ) (hs : step cfg (.call o) σ = some σ') :
    Settled σ' := by
  rcases step_call_iff.1 hs with ⟨hc, rfl⟩
  obtain ⟨hemb, hret, hidle, hown, halone⟩ := opFrames_shape cfg.grain σ.kernel.running o
  have hni : σ.kernel.idleThread ≠ some σ.kernel.running := by
    intro hi
    rcases h.shape.idle_code _ hi with he | he <;> simp [hc] at he
  have hcode : ∀ u, ∀ f ∈ update σ.code σ.kernel.running (o.frames cfg.grain σ.kernel.running) u,
      (u = σ.kernel.running ∧ f ∈ o.frames cfg.grain σ.kernel.running) ∨
        (u ≠ σ.kernel.running ∧ f ∈ σ.code u) := by
    intro u f hf
    by_cases hu : u = σ.kernel.running
    · subst hu
      simpa using hf
    · simpa [hu] using hf
  refine ⟨h.live.recode ?_ (by simp [hemb]) (fun hi => absurd hi hni), ?_, h.interrupts⟩
  · simp [hc, hemb]
  · show Shape σ.kernel.idleThread
      (update σ.code σ.kernel.running (o.frames cfg.grain σ.kernel.running))
    constructor
    · intro u f hf
      rcases hcode u f hf with ⟨hu, hf'⟩ | ⟨-, hf'⟩
      · exact hu ▸ hown f hf'
      · exact h.shape.owned u f hf'
    · intro u f hf
      by_cases hu : u = σ.kernel.running
      · subst hu
        rw [update_self] at hf
        exact hret f (List.mem_of_mem_tail hf)
      · rw [update_of_ne hu] at hf
        exact h.shape.returns u f hf
    · intro u f hf ha
      by_cases hu : u = σ.kernel.running
      · subst hu
        rw [update_self] at hf ⊢
        exact halone f hf ha
      · rw [update_of_ne hu] at hf ⊢
        exact h.shape.alone u f hf ha
    · intro u v f g hf hg ha ha'
      rcases hcode u f hf with ⟨-, hf⟩ | ⟨-, hf⟩
      · simp [hidle f hf] at ha
      · rcases hcode v g hg with ⟨-, hg⟩ | ⟨-, hg⟩
        · simp [hidle g hg] at ha'
        · exact h.shape.idle_unique u v f g hf hg ha ha'
    · intro i hi
      have hne : i ≠ σ.kernel.running := fun e => hni (e ▸ hi)
      simpa [hne] using h.shape.idle_code i hi
    · intro i f hf hf'
      rcases hcode i f hf with ⟨-, hf⟩ | ⟨-, hf⟩
      · have ha := hidle f hf
        rcases hf' with rfl | rfl <;> cases ha
      · exact h.shape.idle_known i f hf hf'

theorem Settled.exec (h : Settled σ) (hu : UnblockOk σ .exec) (hs : step cfg .exec σ = some σ') :
    Settled σ' := by
  rcases step_exec_iff.1 hs with ⟨f, rest, o, hc, hr, rfl⟩
  refine ⟨h.live.exec h.shape hc hr ?_, Shape.exec h.live h.shape hc hr, ?_⟩
  · rintro t rfl
    exact hu rfl t (by simp [hc])
  · exact (runFrame_unwritten hr).intrContext.trans h.interrupts

theorem Settled.tick (h : Settled σ) (hs : step cfg .tick σ = some σ') : Settled σ' := by
  rcases step_tick_iff.1 hs with ⟨-, k, ht, rfl⟩
  have hi : k.idleThread = σ.kernel.idleThread ∧ k.intrContext = false := by
    rcases timerInterrupt_footprint ht with ⟨_, _, _, _, _, _, _, _, rfl⟩
    exact ⟨rfl, rfl⟩
  refine ⟨h.live.timerInterrupt ht, ?_, hi.2⟩
  show Shape k.idleThread σ.code
  rw [hi.1]
  exact h.shape

theorem Settled.preempt {t : ThreadPtr} (h : Settled σ)
    (hs : step cfg (.preempt t) σ = some σ') : Settled σ' := by
  rcases step_preempt_iff.1 hs with ⟨⟨-, ht⟩, rfl⟩
  exact ⟨h.live.switchTo ht, h.shape, h.interrupts⟩

theorem Settled.step {a : Act} (h : Settled σ) (hu : UnblockOk σ a)
    (hs : step cfg a σ = some σ') : Settled σ' := by
  cases a with
  | call o => exact h.call hs
  | exec => exact h.exec hu hs
  | tick => exact h.tick hs
  | preempt t => exact h.preempt hs

theorem boot_settled (init : Nat → Fin unsignedSize) (idle : ThreadPtr) :
    Settled (boot init idle) := by
  have hcode : ∀ u, (boot init idle).code u =
      if u = initialThread then [.threadStart idle] else [] := fun _ => rfl
  have hemb : ∀ u, embryos ((boot init idle).code u) = [] := by
    intro u
    rw [hcode]
    split <;> rfl
  have hmem : ∀ u f, f ∈ (boot init idle).code u → u = initialThread ∧ f = .threadStart idle := by
    intro u f hf
    rw [hcode] at hf
    split at hf
    · exact ⟨by assumption, List.mem_singleton.1 hf⟩
    · cases hf
  refine ⟨⟨fun u => ?_, List.nodup_singleton _, List.nodup_nil, List.nodup_nil,
    fun _ => List.nodup_nil, ?_, ?_⟩, ?_, rfl⟩
  · by_cases hu : u = initialThread
    · refine Placed.of_awake (Or.inl ⟨?_, ?_⟩) ?_ ?_ ?_ ?_ ?_ ?_ <;>
        simp [boot, bootKernel, hu]
      · intro v
        split <;> simp [embryos_cons, Frame.embryo]
    · constructor <;> simp [boot, bootKernel, hu]
      · exact Ne.symm hu
      · intro v
        split <;> simp [embryos_cons, Frame.embryo]
  · intro u v t hu
    simp [hemb] at hu
  · simp [hemb]
  · constructor
    · intro u f hf
      rw [(hmem u f hf).2]
      trivial
    · intro u f hf
      rw [(hmem u f (List.mem_of_mem_tail hf)).2]
      rfl
    · intro u f hf _
      obtain ⟨hu, hf⟩ := hmem u f hf
      simp [hcode, hu, hf]
    · intro u v f g hf hg _ _
      exact (hmem u f hf).1.trans (hmem v g hg).1.symm
    · intro i hi
      cases hi
    · intro i f hf hf'
      rw [(hmem i f hf).2] at hf'
      simp at hf'

theorem settled_of_reach {init : Nat → Fin unsignedSize} {idle : ThreadPtr}
    (h : Reach (step cfg) UnblockOk (boot init idle) σ) : Settled σ :=
  h.invariant (boot_settled init idle) fun _ _ _ hi hP hs => hi.step hP hs

/-! ## The situation of a thread -/

/-- The thread runs, or it is ready and linked into the ready list once. -/
def Kernel.Awake (k : Kernel) (t : ThreadPtr) : Prop :=
  (k.running = t ∧ k.status t = .running) ∨ (k.status t = .ready ∧ k.readyList.count t = 1)

/-- A living thread other than the idle thread is awake when it is not blocked. -/
theorem Places.awake {k : Kernel} {code : ThreadPtr → List Frame} {t : ThreadPtr}
    (h : Live k code) (hb : k.status t ≠ .blocked) (hd : k.status t ≠ .dying)
    (hi : k.idleThread ≠ some t) : k.Awake t := by
  cases hst : k.status t with
  | running => exact Or.inl ⟨Option.some.inj ((h.placed t).runs.1 hst), hst⟩
  | ready =>
      have hmem : t ∈ k.readyList := (h.placed t).ready.2 ⟨hst, hi⟩
      exact Or.inr ⟨hst, List.count_eq_one_of_mem h.ready_nodup hmem⟩
  | blocked => exact absurd hst hb
  | dying => exact absurd hst hd

/-- Where a thread is in its life. -/
inductive Situation
  | running
  | ready
  /-- in the sleeping list, or in the waiters of one semaphore -/
  | queued
  /-- allocated by a `thread_create` that has not reached its `thread_unblock` -/
  | creation
  | dying
  deriving DecidableEq, Repr

namespace System

/-- The thread's `elem` is linked in none of the lists, `lists` left out. -/
structure Unlinked (σ : System) (t : ThreadPtr) : Prop where
  ready : t ∉ σ.kernel.readyList
  sleeping : t ∉ σ.kernel.sleepingList
  waiting : ∀ s, t ∉ σ.kernel.waiters s

/-- The thread `t` is in the situation. -/
def In (σ : System) (t : ThreadPtr) : Situation → Prop
  | .running =>
      σ.kernel.running = t ∧ (∀ u, σ.kernel.status u = .running ↔ u = t) ∧ σ.Unlinked t
  | .ready =>
      σ.kernel.status t = .ready ∧ σ.kernel.readyList.count t = 1 ∧
        t ∉ σ.kernel.sleepingList ∧ ∀ s, t ∉ σ.kernel.waiters s
  | .queued =>
      σ.kernel.status t = .blocked ∧ t ∉ σ.kernel.readyList ∧
        ((σ.kernel.sleepingList.count t = 1 ∧ ∀ s, t ∉ σ.kernel.waiters s) ∨
          (t ∉ σ.kernel.sleepingList ∧ ∃ s, (σ.kernel.waiters s).count t = 1 ∧
            ∀ s', s' ≠ s → t ∉ σ.kernel.waiters s'))
  | .creation =>
      σ.kernel.status t = .blocked ∧ σ.Unlinked t ∧ ∃ u, u ≠ t ∧ t ∈ embryos (σ.code u)
  | .dying => σ.kernel.status t = .dying ∧ σ.Unlinked t

end System

/-! ## Runs without the bare operations -/

/-- The operations that the others are built on, called from a thread's own code. -/
def Op.isBare : Op → Bool
  | .threadBlock | .threadUnblock _ => true
  | _ => false

def Act.isBareCall : Act → Bool
  | .call o => o.isBare
  | _ => false

/-- The step does not call a bare operation. -/
def NoBareCall (_ : System) (a : Act) : Prop :=
  a.isBareCall = false

/-- No thread is in a bare operation. -/
def NoBare (σ : System) : Prop :=
  ∀ t, ∀ f ∈ σ.code t, f.isBare = false

theorem opFrames_bare (g : Grain) (cur : ThreadPtr) {o : Op} (ho : o.isBare = false) :
    ∀ f ∈ o.frames g cur, f.isBare = false := by
  cases o with
  | threadBlock | threadUnblock t => cases ho
  | _ => cases g <;> simp [Op.frames, acquireFrame, tryFrame, releaseFrame, Frame.isBare]

theorem NoBare.unblockOk (h : NoBare σ) (a : Act) : UnblockOk σ a := by
  rintro - t ht
  have hbare := h _ _ (List.mem_of_head? ht)
  cases hbare

theorem NoBare.step {a : Act} (h : NoBare σ) (hset : Settled σ) (ha : NoBareCall σ a)
    (hs : step cfg a σ = some σ') : NoBare σ' := by
  cases a with
  | call o =>
      rcases step_call_iff.1 hs with ⟨-, rfl⟩
      intro u f hf
      by_cases hu : u = σ.kernel.running
      · subst hu
        exact opFrames_bare _ _ ha f (by simpa using hf)
      · exact h u f (by simpa [hu] using hf)
  | exec =>
      rcases step_exec_iff.1 hs with ⟨f, rest, o, hc, hr, rfl⟩
      have hp := runFrame_pushed hr (hset.shape.owned _ f (by simp [hc]))
      intro u g hg
      change g ∈ update (spawnCode f σ.code) σ.kernel.running (o.push ++ rest) u at hg
      rcases code_after hset.live rest hr u with ⟨-, he⟩ | ⟨-, prog, -, -, he, hprog⟩ | ⟨-, he⟩
      · rw [he] at hg
        rcases List.mem_append.1 hg with hg | hg
        · exact hp.bare (h σ.kernel.running f (by simp [hc])) g hg
        · exact h σ.kernel.running g (by simp [hc, hg])
      · rw [he] at hg
        rcases hprog with rfl | ⟨rfl, -⟩
        · cases hg
        · rw [List.mem_singleton.1 hg]
          rfl
      · exact h u g (he ▸ hg)
  | tick =>
      rcases step_tick_iff.1 hs with ⟨-, k, -, rfl⟩
      exact h
  | preempt t =>
      rcases step_preempt_iff.1 hs with ⟨-, rfl⟩
      exact h

theorem boot_noBare (init : Nat → Fin unsignedSize) (idle : ThreadPtr) :
    NoBare (boot init idle) := by
  intro u f hf
  have hcode : f ∈ if u = initialThread then [Frame.threadStart idle] else [] := hf
  split at hcode
  · rw [List.mem_singleton.1 hcode]
    rfl
  · cases hcode

/-- The invariant of the runs whose threads call no bare operation. -/
theorem settled_of_noBare {init : Nat → Fin unsignedSize} {idle : ThreadPtr}
    (h : Reach (step cfg) NoBareCall (boot init idle) σ) : Settled σ ∧ NoBare σ := by
  refine @Reach.invariant _ _ _ _ _ _ (fun σ => Settled σ ∧ NoBare σ)
    ⟨boot_settled init idle, boot_noBare init idle⟩ ?_ h
  rintro σ a σ' ⟨hset, hb⟩ ha hs
  exact ⟨hset.step (hb.unblockOk a) hs, hb.step hset ha hs⟩

theorem Settled.unlinked (h : Settled σ) {t : ThreadPtr} (hr : σ.kernel.status t ≠ .ready)
    (hb : σ.kernel.status t ≠ .blocked) : σ.Unlinked t :=
  ⟨h.live.not_ready_of_status hr, h.live.not_sleep_of_status hb, h.live.not_wait_of_status hb⟩

/-- A blocked thread that no bare `thread_block` holds is queued or in creation. -/
theorem Settled.blocked_situation (h : Settled σ) (hbare : NoBare σ) {t : ThreadPtr}
    (ht : σ.kernel.idleThread ≠ some t) (hb : σ.kernel.status t = .blocked) :
    σ.In t .queued ∨ σ.In t .creation := by
  have hready : t ∉ σ.kernel.readyList := h.live.not_ready_of_status (by simp [hb])
  cases (h.live.placed t).blocked hb with
  | waiting s a hf hw =>
      have hsleep : t ∉ σ.kernel.sleepingList := fun hs => h.live.not_wait_of_sleep hs s hw
      refine Or.inl ⟨hb, hready, Or.inr ⟨hsleep, s, ?_, ?_⟩⟩
      · exact List.count_eq_one_of_mem (h.live.wait_nodup s) hw
      · exact fun s' hs' hw' => hs' (h.live.wait_unique hw' hw)
  | sleeping hf hs =>
      refine Or.inl ⟨hb, hready, Or.inl ⟨?_, h.live.not_wait_of_sleep hs⟩⟩
      exact List.count_eq_one_of_mem h.live.sleep_nodup hs
  | bare hf =>
      have hf' := hbare t _ (List.mem_of_head? hf)
      cases hf'
  | idle hi =>
      exact absurd hi ht
  | embryo u hu =>
      refine Or.inr ⟨hb, ⟨hready, ?_, ?_⟩, u, ?_, hu⟩
      · exact fun hs => h.live.not_embryo_of_sleep hs u hu
      · exact fun s hw => h.live.not_embryo_of_wait hw u hu
      · rintro rfl
        have hcode := ((h.live.placed u).embryo u hu).2
        rcases hcode with hc | hc <;> simp [hc, embryos_cons, Frame.embryo] at hu

theorem Settled.situation (h : Settled σ) (hbare : NoBare σ) {t : ThreadPtr}
    (ht : σ.kernel.idleThread ≠ some t) : ∃ s, σ.In t s := by
  cases hst : σ.kernel.status t with
  | running =>
      have hrun := (h.live.placed t).runs.1 hst
      refine ⟨.running, by simpa using hrun, fun u => ?_, h.unlinked (by simp [hst]) (by simp [hst])⟩
      rw [(h.live.placed u).runs, hrun]
      simp [eq_comm]
  | ready =>
      have hmem : t ∈ σ.kernel.readyList := (h.live.placed t).ready.2 ⟨hst, ht⟩
      refine ⟨.ready, hst, List.count_eq_one_of_mem h.live.ready_nodup hmem, ?_, ?_⟩
      · exact h.live.not_sleep_of_status (by simp [hst])
      · exact h.live.not_wait_of_status (by simp [hst])
  | blocked =>
      rcases h.blocked_situation hbare ht hst with hs | hs
      · exact ⟨_, hs⟩
      · exact ⟨_, hs⟩
  | dying =>
      exact ⟨.dying, hst, h.unlinked (by simp [hst]) (by simp [hst])⟩

/-- The situations exclude each other. -/
theorem System.In.unique {t : ThreadPtr} {s s' : Situation} (h : σ.In t s) (h' : σ.In t s') :
    s = s' := by
  have hstatus : ∀ {s}, σ.In t s → σ.kernel.status t =
      match s with
      | .running => .running
      | .ready => .ready
      | .queued | .creation => .blocked
      | .dying => .dying := by
    intro s hs
    cases s with
    | running => exact (hs.2.1 t).2 rfl
    | ready => exact hs.1
    | queued => exact hs.1
    | creation => exact hs.1
    | dying => exact hs.1
  have hlinked : ∀ {x : Prop}, σ.In t .queued → σ.In t .creation → x := by
    rintro x ⟨-, -, ⟨hc, -⟩ | ⟨-, s, hc, -⟩⟩ ⟨-, hu, -⟩
    · exact absurd (List.count_pos_iff.1 (by omega)) hu.sleeping
    · exact absurd (List.count_pos_iff.1 (by omega)) (hu.waiting s)
  have hst := hstatus h
  rw [hstatus h'] at hst
  cases s <;> cases s' <;> first | rfl | exact hlinked h h' | exact hlinked h' h | cases hst

/-! ## The assertion of `thread_unblock` -/

section Faults

variable {k : Kernel} {code : ThreadPtr → List Frame} {r : Option ThreadPtr}

/-- Whoever waits for a semaphore is blocked. -/
theorem semaUp_notBlocked (h : Places r k code) {s : SemaPtr} :
    semaUp k s ≠ .error .notBlocked := by
  intro hu
  rcases semaUp_fault hu with ⟨-, t, ht, hst⟩ | he
  · exact hst (h.wait ht).1
  · cases he

theorem condSignal_notBlocked (h : Places r k code)
    {order : Kernel → ThreadPtr → ThreadPtr → Bool} {c : CondPtr} {l : LockPtr} :
    condSignal order k c l ≠ .error .notBlocked := by
  intro hs
  rcases condSignal_fault hs with ⟨-, w, t, ht, hst⟩ | he | he
  · exact hst (h.wait ht).1
  · cases he
  · cases he

/-- Every sleeper that `thread_awake` still has to visit is blocked. -/
theorem awakeLoop_notBlocked {now : Int} {ts : List ThreadPtr} (hnd : ts.Nodup)
    (hts : ∀ t ∈ ts, k.status t = .blocked) : awakeLoop now ts k ≠ .error .notBlocked := by
  induction ts generalizing k with
  | nil =>
      simp [awakeLoop]
  | cons t ts ih =>
      obtain ⟨ht, hnd⟩ := List.nodup_cons.1 hnd
      intro h
      unfold awakeLoop at h
      split at h
      · rcases bind_eq_error.1 h with h | ⟨k₁, hu, h⟩
        · exact (threadUnblock_fault h).2 (hts t List.mem_cons_self)
        · rcases threadUnblock_eq_ok.1 hu with ⟨-, rfl⟩
          refine ih hnd ?_ h
          intro u hu'
          have hne : u ≠ t := fun e => ht (e ▸ hu')
          simpa [Kernel.madeReady, hne] using hts u (List.mem_cons_of_mem _ hu')
      · exact ih hnd (fun u hu => hts u (List.mem_cons_of_mem _ hu)) h

theorem timerInterrupt_notBlocked (h : Places r k code) :
    timerInterrupt k ≠ .error .notBlocked := by
  intro ht
  simp only [timerInterrupt, threadTick_eq] at ht
  rcases bind_eq_error.1 ht with ha | ⟨k₁, -, hy⟩
  · exact @awakeLoop_notBlocked k.ticked _ _ h.sleep_nodup (fun t ht => (h.sleep ht).1) ha
  · split at hy
    · cases threadYield_fault hy
    · cases hy

end Faults

/-- No frame of an operation unblocks a thread that is not blocked. -/
theorem Settled.runFrame_notBlocked (h : Settled σ) (hbare : NoBare σ) {f : Frame}
    (hf : f ∈ σ.code σ.kernel.running) :
    runFrame cfg σ.kernel f ≠ .error .notBlocked := by
  intro hr
  have hb := hbare _ f hf
  cases f with
  | threadBlock | blockReturn | threadUnblock t => cases hb
  | down s after =>
      rcases bind_eq_error.1 hr with hr | ⟨_, -, hr⟩
      · cases semaDown_fault hr
      · cases hr
  | downLoop s after =>
      rcases bind_eq_error.1 hr with hr | ⟨_, -, hr⟩
      · cases semaDownTurn_fault hr
      · cases hr
  | semaUp s | idleUp =>
      rcases bind_eq_error.1 hr with hr | ⟨_, -, hr⟩
      · exact semaUp_notBlocked h.live hr
      · cases hr
  | lockAcquire l =>
      rcases bind_eq_error.1 hr with hr | ⟨⟨k₁, got⟩, -, hr⟩
      · rcases lockAcquire_fault hr with he | ⟨he, -⟩ | hd
        · cases he
        · cases he
        · rcases lockDonate_fault hd with he | he <;> cases he
      · cases got <;> cases hr
  | lockTryAcquire l =>
      rcases bind_eq_error.1 hr with hr | ⟨_, -, hr⟩
      · rcases bind_eq_error.1 hr with hr | ⟨_, -, hr⟩
        · simp [assert_eq_error] at hr
        · by_cases hv : 0 < σ.kernel.value (.ofLock l) <;> simp [semaTryDown, hv] at hr
      · cases hr
  | lockRelease l =>
      rcases bind_eq_error.1 hr with hr | ⟨_, -, hr⟩
      · rcases bind_eq_error.1 hr with hr | ⟨_, -, hr⟩
        · simp [assert_eq_error] at hr
        · rcases released_footprint σ.kernel l with ⟨p, w, d, hrel⟩
          rw [hrel] at hr
          have hplaces : Places (some σ.kernel.running)
              { σ.kernel with
                priority := p, waitingLock := w, donations := d,
                holder := update σ.kernel.holder l none } σ.code :=
            h.live.of_donationOnly ⟨_, _, _, _, rfl⟩
          exact semaUp_notBlocked hplaces hr
      · cases hr
  | acquireEntry l =>
      rcases bind_eq_error.1 hr with hr | ⟨_, -, hr⟩
      · simp [assert_eq_error] at hr
      · rcases bind_eq_error.1 hr with hr | ⟨_, -, hr⟩
        · simp [assert_eq_error] at hr
        · cases hr
  | tryEntry l | releaseEntry l =>
      rcases bind_eq_error.1 hr with hr | ⟨_, -, hr⟩
      · simp [assert_eq_error] at hr
      · cases hr
  | stmt st =>
      rcases bind_eq_error.1 hr with hr | ⟨_, -, hr⟩
      · cases stmt_fault hr
      · cases hr
  | condEnqueue c l =>
      rcases bind_eq_error.1 hr with hr | ⟨_, -, hr⟩
      · rcases bind_eq_error.1 hr with hr | ⟨_, -, hr⟩
        · simp [assert_eq_error] at hr
        · rcases bind_eq_error.1 hr with hr | ⟨_, -, hr⟩
          · simp [assert_eq_error] at hr
          · cases hr
      · cases hr
  | condSignal c l =>
      rcases bind_eq_error.1 hr with hr | ⟨_, -, hr⟩
      · exact condSignal_notBlocked h.live hr
      · cases hr
  | condBroadcast c l =>
      simp only [runFrame] at hr
      split at hr
      · cases hr
      · rcases bind_eq_error.1 hr with hr | ⟨_, -, hr⟩
        · exact condSignal_notBlocked h.live hr
        · cases hr
  | threadCreate t p | threadStart t =>
      rcases bind_eq_error.1 hr with hr | ⟨_, -, hr⟩
      · rcases bind_eq_error.1 hr with hr | ⟨_, -, hr⟩
        · simp [assert_eq_error] at hr
        · rcases bind_eq_error.1 hr with hr | ⟨_, -, hr⟩
          · simp [assert_eq_error] at hr
          · cases hr
      · cases hr
  | startNew t p tid =>
      -- the new thread is still in creation
      have hmem : t ∈ embryos (σ.code σ.kernel.running) :=
        List.mem_filterMap.2 ⟨_, hf, rfl⟩
      have hblocked := ((h.live.placed t).embryo _ hmem).1
      rcases bind_eq_error.1 hr with hr | ⟨_, -, hr⟩
      · rcases bind_eq_error.1 hr with hr | ⟨_, -, hr⟩
        · exact (threadUnblock_fault hr).2 hblocked
        · split at hr
          · cases threadYield_fault hr
          · cases hr
      · cases hr
  | threadYield =>
      rcases bind_eq_error.1 hr with hr | ⟨_, -, hr⟩
      · cases threadYield_fault hr
      · cases hr
  | threadExit =>
      rcases bind_eq_error.1 hr with hr | ⟨_, -, hr⟩
      · cases threadExit_fault hr
      · cases hr
  | threadSetPriority p =>
      rcases bind_eq_error.1 hr with hr | ⟨_, -, hr⟩
      · cases stealRunningByPriority_fault hr
      · cases hr
  | sleepUntil d | idleLoop =>
      rcases bind_eq_error.1 hr with hr | ⟨_, -, hr⟩
      · cases threadBlock_fault hr
      · cases hr
  | _ => cases hr

/-! ## The life cycle -/

/-- In every run every thread but the idle thread is in exactly one situation, the idle thread is
never in the ready list, and no unblock finds a thread that is not blocked. -/
theorem one_situation {init : Nat → Fin unsignedSize} {idle : ThreadPtr}
    (h : Reach (step cfg) NoBareCall (boot init idle) σ) :
    (∀ t, σ.kernel.idleThread ≠ some t → ∃! s, σ.In t s) ∧
      (∀ i, σ.kernel.idleThread = some i → i ∉ σ.kernel.readyList) ∧
      (∀ f ∈ (σ.code σ.kernel.running).head?, runFrame cfg σ.kernel f ≠ .error .notBlocked) ∧
      timerInterrupt σ.kernel ≠ .error .notBlocked := by
  obtain ⟨hset, hbare⟩ := settled_of_noBare h
  refine ⟨fun t ht => ?_, fun i hi hmem => ?_, fun f hf => ?_, timerInterrupt_notBlocked hset.live⟩
  · obtain ⟨s, hs⟩ := hset.situation hbare ht
    exact ⟨s, hs, fun s' hs' => hs'.unique hs⟩
  · exact ((hset.live.placed i).ready.1 hmem).2 hi
  · exact hset.runFrame_notBlocked hbare (List.mem_of_head? hf)

/-- Thread 2 has been created, has run and has gone to sleep. -/
def sleeperActs : List Act :=
  bootActs ++ createActs 2 40 ++ [.call (.timerSleep 5), .exec, .exec]

def sleeperSystem : System :=
  (runAll (step .calls) sleeperActs (boot allZero 1)).get (by decide +kernel)

theorem one_situation_sleeper : ∃! s, sleeperSystem.In 2 s := by
  have hrun : Reach (step .calls) NoBareCall (boot allZero 1) sleeperSystem := by
    have hacts : ∀ a ∈ sleeperActs, a.isBareCall = false := by decide
    exact Reach.get_runAll _ fun a ha _ => hacts a ha
  exact (one_situation hrun).1 2 (by decide +kernel)

end Project2
end Pintos
