import Pintos.Project2.Places
import Pintos.Project2.Frames

/-!
# Shape — the code of the threads between two steps

A thread in the middle of an operation has the frames of that operation in its code.  `Shape` says
what such code looks like; with `Places` it is kept by every frame, at either granularity of the
locks.
-/

namespace Pintos
namespace Project2

open Lib Function

/-! ## Changing the code of the running thread -/

namespace Places

variable {k k' : Kernel} {code : ThreadPtr → List Frame} {fs prog : List Frame}
  {t : ThreadPtr}

/-- The running thread goes on in its operation. -/
theorem recode (h : Live k code) (hmem : ∀ u, u ∈ embryos fs ↔ u ∈ embryos (code k.running))
    (hnd : (embryos fs).Nodup)
    (hidle : k.idleThread = some k.running → fs = [.idleUp] ∨ fs = [.idleLoop]) :
    Live k (update code k.running fs) := by
  have hrun := h.status_running
  have hemb : ∀ v u, u ∈ embryos (update code k.running fs v) ↔ u ∈ embryos (code v) := by
    intro v u
    by_cases hv : v = k.running
    · subst hv
      simpa using hmem u
    · simp [hv]
  refine ⟨fun u => ?_, h.all_nodup, h.ready_nodup, h.sleep_nodup, h.wait_nodup, ?_, ?_⟩
  · by_cases hu : u = k.running
    · subst hu
      refine Placed.of_awake (Or.inl ⟨hrun, rfl⟩) h.running_mem (h.placed _).ready
        (h.not_sleep_of_status (by simp [hrun])) (h.not_wait_of_status (by simp [hrun])) ?_ ?_
      · exact fun v hv => h.not_embryo_of_status (by simp [hrun]) v ((hemb v _).1 hv)
      · simpa using hidle
    · exact (h.placed u).congr (.refl k u) Iff.rfl
        ⟨by simp [hu], exists_congr fun v => hemb v u⟩
  · exact fun u v t hu hv => h.embryo_unique u v t ((hemb u t).1 hu) ((hemb v t).1 hv)
  · intro u
    by_cases hu : u = k.running
    · subst hu
      simpa using hnd
    · simpa [hu] using h.embryo_nodup u

/-- `palloc_get_page` and `init_thread`: a new blocked thread that its creator will unblock. -/
theorem create {p : Int} (h : Live k code) (ht : t ∉ k.allList)
    (hprog : prog = [] ∨ prog = [.setIdle])
    (hmem : ∀ u, u ∈ embryos fs ↔ u = t ∨ u ∈ embryos (code k.running))
    (hnd : (embryos fs).Nodup)
    (hidle : k.idleThread = some k.running → fs = [.idleUp] ∨ fs = [.idleLoop]) :
    Live (initThread k t p) (update (update code t prog) k.running fs) := by
  have hrun := h.status_running
  have hdead : k.status t = .dying := (h.placed t).dead.1 ht
  have hne : t ≠ k.running := fun e => ht (e ▸ h.running_mem)
  have hold : ∀ v, t ∉ embryos (code v) := h.not_embryo_of_status (by simp [hdead])
  have hprog' : embryos prog = [] := by rcases hprog with rfl | rfl <;> rfl
  have hcode : code t = [] := (h.placed t).dead_code hdead
  have hemb : ∀ v u, u ∈ embryos (update (update code t prog) k.running fs v) ↔
      u ∈ embryos (code v) ∨ (u = t ∧ v = k.running) := by
    intro v u
    by_cases hv : v = k.running
    · subst hv
      simp [hmem, or_comm]
    · by_cases hvt : v = t
      · subst hvt
        simp [hv, hprog', hcode]
      · simp [hv, hvt]
  refine ⟨fun u => ?_, ?_, h.ready_nodup, h.sleep_nodup, h.wait_nodup, ?_, ?_⟩
  · by_cases hu : u = k.running
    · subst hu
      refine Placed.of_awake (Or.inl ⟨by simp [initThread, hne.symm, hrun], rfl⟩)
        (List.mem_append_left _ h.running_mem) ?_ (h.not_sleep_of_status (by simp [hrun]))
        (h.not_wait_of_status (by simp [hrun])) ?_ ?_
      · simpa [initThread, hne.symm] using (h.placed k.running).ready
      · intro v hv
        rcases (hemb v _).1 hv with hv | ⟨e, -⟩
        · exact h.not_embryo_of_status (by simp [hrun]) v hv
        · exact hne e.symm
      · simpa [initThread] using hidle
    · by_cases hut : u = t
      · subst hut
        have hst : (initThread k u p).status u = .blocked := by simp [initThread]
        constructor
        · simp [initThread]
        · simp [hst]
        · simp [initThread, Ne.symm hu]
        · have hr : u ∉ k.readyList := h.not_ready_of_status (by simp [hdead])
          simp [initThread, hr]
        · exact fun hs => absurd hs (h.not_sleep_of_status (by simp [hdead]))
        · exact fun s hw => absurd hw (h.not_wait_of_status (by simp [hdead]) s)
        · exact fun _ => .embryo k.running ((hemb _ _).2 (Or.inr ⟨rfl, rfl⟩))
        · intro v _
          refine ⟨hst, ?_⟩
          simpa [hu] using hprog
        · exact fun hi => absurd hdead ((h.placed u).idle hi).1
      · refine (h.placed u).congr
          ⟨by simp [initThread, hut], by simp [initThread, hut], Iff.rfl, Iff.rfl,
            fun s => Iff.rfl, rfl⟩ Iff.rfl ⟨by simp [hu, hut], exists_congr fun v => ?_⟩
        simp [hemb, hut]
  · exact h.all_nodup.append (List.nodup_singleton _) (by simpa using ht)
  · intro u v w hu hv
    rcases (hemb u w).1 hu with hu | ⟨hw, hu⟩
    · rcases (hemb v w).1 hv with hv | ⟨hw, -⟩
      · exact h.embryo_unique u v w hu hv
      · exact absurd (hw ▸ hu) (hold u)
    · rcases (hemb v w).1 hv with hv | ⟨-, hv⟩
      · exact absurd (hw ▸ hv) (hold v)
      · exact hu.trans hv.symm
  · intro u
    by_cases hu : u = k.running
    · subst hu
      simpa using hnd
    · by_cases hut : u = t
      · subst hut
        simp [hu, hprog']
      · simpa [hu, hut] using h.embryo_nodup u

/-- The creator unblocks the thread it has created. -/
theorem start (h : Live k code) (ht : t ∈ embryos (code k.running))
    (hmem : ∀ u, u ∈ embryos fs ↔ u ∈ embryos (code k.running) ∧ u ≠ t)
    (hnd : (embryos fs).Nodup)
    (hidle : k.idleThread = some k.running → fs = [.idleUp] ∨ fs = [.idleLoop]) :
    Live (k.madeReady t) (update code k.running fs) := by
  have hrun := h.status_running
  obtain ⟨hb, hcode⟩ := (h.placed t).embryo _ ht
  have hne : t ≠ k.running := fun e => by simp [e, hrun] at hb
  have hnr : t ∉ k.readyList := h.not_ready_of_status (by simp [hb])
  have hni : k.idleThread ≠ some t := by
    intro hi
    exact h.idle_not_embryo hi _ ht
  have hemb : ∀ v u, u ∈ embryos (update code k.running fs v) ↔ u ∈ embryos (code v) ∧ u ≠ t := by
    intro v u
    by_cases hv : v = k.running
    · subst hv
      simpa using hmem u
    · simp only [update_of_ne hv, iff_self_and]
      exact fun hu e => hv (h.embryo_unique v _ t (e ▸ hu) ht)
  refine ⟨fun u => ?_, h.all_nodup, ?_, h.sleep_nodup, h.wait_nodup, ?_, ?_⟩
  · by_cases hu : u = k.running
    · subst hu
      refine Placed.of_awake (Or.inl ⟨by simp [Kernel.madeReady, hne.symm, hrun], rfl⟩)
        h.running_mem ?_ (h.not_sleep_of_status (by simp [hrun]))
        (h.not_wait_of_status (by simp [hrun])) ?_ ?_
      · simpa [Kernel.madeReady, hne.symm] using (h.placed k.running).ready
      · exact fun v hv => h.not_embryo_of_status (by simp [hrun]) v ((hemb v _).1 hv).1
      · simpa [Kernel.madeReady] using hidle
    · by_cases hut : u = t
      · subst hut
        refine Placed.of_awake (Or.inr ⟨by simp [Kernel.madeReady], by
          simpa [Kernel.madeReady] using Ne.symm hu⟩) (h.mem_allList (by simp [hb])) ?_ ?_ ?_ ?_ ?_
        · simp [Kernel.madeReady, hni]
        · exact fun hs => h.not_embryo_of_sleep hs _ ht
        · exact fun s hw => h.not_embryo_of_wait hw _ ht
        · exact fun v hv => ((hemb v _).1 hv).2 rfl
        · exact fun hi => absurd hi hni
      · refine (h.placed u).congr
          ⟨by simp [Kernel.madeReady, hut], Iff.rfl, by simp [Kernel.madeReady, hut], Iff.rfl,
            fun s => Iff.rfl, rfl⟩ Iff.rfl ⟨by simp [hu], exists_congr fun v => ?_⟩
        simp [hemb, hut]
  · exact insertOrdered_nodup.2 ⟨hnr, h.ready_nodup⟩
  · exact fun u v w hu hv => h.embryo_unique u v w ((hemb u w).1 hu).1 ((hemb v w).1 hv).1
  · intro u
    by_cases hu : u = k.running
    · subst hu
      simpa using hnd
    · simpa [hu] using h.embryo_nodup u

/-- The running thread ends. -/
theorem threadExit (h : Live k code) (hc : code k.running = []) (hx : threadExit k = .ok k') :
    Live k' code := by
  rcases threadExit_eq_ok.1 hx with ⟨-, t, rest, hn, rfl⟩
  have hrun := h.status_running
  have herase : ∀ u, u ∈ k.allList.erase k.running ↔ u ∈ k.allList ∧ u ≠ k.running := by
    intro u
    rw [h.all_nodup.mem_erase_iff, and_comm]
  have hdead : Places none k.exiting code := by
    refine h.move k.running ?_ ?_ (h.all_nodup.erase _) h.ready_nodup h.sleep_nodup h.wait_nodup
    · intro u hu
      refine ⟨⟨by simp [Kernel.exiting, hu], ?_, Iff.rfl, Iff.rfl, fun s => Iff.rfl, rfl⟩,
        by simp [Ne.symm hu]⟩
      exact List.mem_erase_of_ne hu
    · have hst : k.exiting.status k.running = .dying := by simp [Kernel.exiting]
      constructor
      · have hm : k.running ∉ k.exiting.allList := fun hm => ((herase _).1 hm).2 rfl
        simp [hst, hm]
      · exact fun _ => hc
      · simp [hst]
      · have hr := h.running_not_ready
        simp [Kernel.exiting, hr]
      · exact fun hs => absurd hs (h.not_sleep_of_status (by simp [hrun]))
      · exact fun s hw => absurd hw (h.not_wait_of_status (by simp [hrun]) s)
      · simp [hst]
      · exact fun v hv => absurd hv (h.not_embryo_of_status (by simp [hrun]) v)
      · intro hi
        have hcode := ((h.placed _).idle hi).2
        simp [hc] at hcode
  exact hdead.dispatch hn

end Places

/-! ## The code between two steps -/

/-- What holds of the code of all threads between two steps. -/
structure Shape (idleThread : Option ThreadPtr) (code : ThreadPtr → List Frame) : Prop where
  owned : ∀ t, ∀ f ∈ code t, f.OwnedBy t
  returns : ∀ t, ∀ f ∈ (code t).tail, f.isReturn = false
  alone : ∀ t, ∀ f ∈ code t, f.isAlone = true → code t = [f]
  idle_unique : ∀ t u f g, f ∈ code t → g ∈ code u → f.isIdle = true → g.isIdle = true → t = u
  idle_code : ∀ i, idleThread = some i → code i = [.idleUp] ∨ code i = [.idleLoop]
  idle_known : ∀ i f, f ∈ code i → (f = .idleUp ∨ f = .idleLoop) → idleThread = some i

/-- The threads in creation that a frame hands on to the frames it pushes. -/
def Frame.carries : Frame → List ThreadPtr
  | .threadCreate t _ | .threadStart t | .takeTid t _ => [t]
  | _ => []

/-- How the idle thread goes on. -/
def Frame.idleNext : Frame → List Frame
  | .setIdle => [.idleUp]
  | .idleUp | .idleLoop => [.idleLoop]
  | _ => []

/-- Frames of the bare `thread_block` and `thread_unblock`, called from a thread's own code. -/
def Frame.isBare : Frame → Bool
  | .threadBlock | .blockReturn | .threadUnblock _ => true
  | _ => false

/-- A frame that leaves the idle thread, threads in creation and others' semaphores alone. -/
structure Frame.Plain (f : Frame) : Prop where
  bare : f.isBare = false
  returns : f.isReturn = false
  alone : f.isAlone = false
  embryo : f.embryo = none
  owned : ∀ t, f.OwnedBy t

/-- The frames that the thread `t` gets in place of the frame `f`, which does `op` to the
semaphores. -/
structure Pushed (t : ThreadPtr) (f : Frame) (op : SemaOp) (push : List Frame) : Prop where
  owned : ∀ g ∈ push, g.OwnedBy t
  returns : ∀ g ∈ push.tail, g.isReturn = false
  alone : ∀ g ∈ push, g.isAlone = true → push = f.idleNext
  idle_next : f.idleNext ≠ [] → push = f.idleNext
  carried : embryos push = f.carries
  bare : f.isBare = false → ∀ g ∈ push, g.isBare = false
  queues : ∀ s a, Frame.downLoop s a ∈ push → op = .queued s

section RunFrame

variable {cfg : Config} {k : Kernel} {f : Frame} {o : Outcome} {op : SemaOp}

theorem Pushed.nil (t : ThreadPtr) (hf : f.idleNext = []) (hc : f.carries = []) :
    Pushed t f op [] := by
  constructor <;> simp [hf, hc]

theorem Pushed.of_plain {t : ThreadPtr} {push : List Frame} (hp : ∀ g ∈ push, g.Plain)
    (hf : f.idleNext = []) (hc : f.carries = []) : Pushed t f op push where
  owned := fun g hg => (hp g hg).owned t
  returns := fun g hg => (hp g (List.mem_of_mem_tail hg)).returns
  alone := fun g hg ha => by simp [(hp g hg).alone] at ha
  idle_next := fun hn => absurd hf hn
  carried := by
    rw [hc, embryos, List.filterMap_eq_nil_iff]
    exact fun g hg => (hp g hg).embryo
  bare := fun _ g hg => (hp g hg).bare
  queues := fun s a hg => by
    have hret := (hp _ hg).returns
    cases hret

theorem semaUp_plain (s : SemaPtr) : (Frame.semaUp s).Plain :=
  ⟨rfl, rfl, rfl, rfl, fun _ => trivial⟩

theorem down_plain (l : LockPtr) (after : AfterDown) : (Frame.down (.ofLock l) after).Plain :=
  ⟨rfl, rfl, rfl, rfl, fun _ => trivial⟩

theorem tryDown_plain (l : LockPtr) : (Frame.tryDown l).Plain :=
  ⟨rfl, rfl, rfl, rfl, fun _ => trivial⟩

theorem condBroadcast_plain (c : CondPtr) (l : LockPtr) : (Frame.condBroadcast c l).Plain :=
  ⟨rfl, rfl, rfl, rfl, fun _ => trivial⟩

theorem stmt_plain (st : LockStmt) : (Frame.stmt st).Plain :=
  ⟨rfl, rfl, rfl, rfl, fun _ => trivial⟩

/-- The caller of `sema_down` gets its frames, or the thread stays in the loop. -/
theorem Pushed.down {t : ThreadPtr} {s : SemaPtr} {after : AfterDown} {got : Bool}
    (hf : f.idleNext = []) (hc : f.carries = [])
    (ho : (Frame.downLoop s after).OwnedBy t) (hop : got = false → op = .queued s) :
    Pushed t f op (downOutcome s after k got).push := by
  cases got with
  | false =>
      constructor <;> simp [downOutcome, Kernel.andThen, hf, hc, Frame.isAlone, Frame.isIdle,
        Frame.isBare, embryos, Frame.embryo, ho, hop]
  | true =>
      cases after <;> constructor <;> simp [downOutcome, AfterDown.finish, Kernel.andThen,
        Kernel.done, hf, hc, Frame.isAlone, Frame.isIdle, Frame.isReturn, Frame.isBare, embryos,
        Frame.embryo, Frame.OwnedBy]

/-- `sema_down` has not got the semaphore: the thread is queued. -/
theorem semaDownTurn_queued {k' : Kernel} {s : SemaPtr} {got : Bool}
    (h : semaDownTurn k s = .ok (k', got)) (hg : got = false) :
    SemaOp.down k s = .queued s := by
  rcases semaDownTurn_eq_ok.1 h with ⟨h0, -, -⟩ | ⟨-, ht, -⟩
  · exact if_pos h0
  · simp [hg] at ht

theorem runFrame_pushed (h : runFrame cfg k f = .ok o) (ho : f.OwnedBy k.running) :
    Pushed k.running f (f.semaOp cfg k) o.push := by
  have hnil : ∀ {f' : Frame} {op : SemaOp}, f'.idleNext = [] → f'.carries = [] →
      Pushed k.running f' op [] := fun hf hc => Pushed.nil _ hf hc
  cases f with
  | down s after =>
      rcases bind_eq_ok.1 h with ⟨⟨k₁, got⟩, hd, h⟩
      cases h
      refine Pushed.down rfl rfl ?_ (semaDownTurn_queued (semaDown_eq_ok.1 hd).2)
      cases s <;> exact ho
  | downLoop s after =>
      rcases bind_eq_ok.1 h with ⟨⟨k₁, got⟩, hd, h⟩
      cases h
      exact Pushed.down rfl rfl ho (semaDownTurn_queued hd)
  | lockAcquire l =>
      rcases bind_eq_ok.1 h with ⟨⟨k₁, got⟩, hd, h⟩
      have hq : got = false → (Frame.lockAcquire l).semaOp cfg k = .queued (.ofLock l) := by
        rcases lockAcquire_eq_ok.1 hd with ⟨-, -, k₂, k₃, hdon, hdown, -⟩
        rcases lockDonate_footprint hdon with ⟨_, _, _, rfl⟩
        have hq := semaDownTurn_queued (semaDown_eq_ok.1 hdown).2
        exact hq
      cases got with
      | true =>
          cases h
          exact hnil rfl rfl
      | false =>
          cases h
          constructor <;> simp [Kernel.andThen, Frame.isAlone, Frame.isIdle, embryos, Frame.embryo,
            Frame.OwnedBy, Frame.idleNext, Frame.carries, Frame.isBare, hq]
  | lockTryAcquire l | lockRelease l | condEnqueue c l | condSignal c l | startNew t p tid
  | threadYield | threadExit | threadSetPriority p | threadUnblock t | semaUp s =>
      rcases bind_eq_ok.1 h with ⟨_, -, h⟩
      cases h
      exact hnil rfl rfl
  | semaTryDown s | condReturn c l | blockReturn | sleepReturn =>
      cases h
      exact hnil rfl rfl
  | acquireEntry l =>
      simp only [runFrame, assert_bind_eq_ok] at h
      cases h.2.2
      refine Pushed.of_plain ?_ rfl rfl
      simp [Kernel.andThen, stmt_plain, down_plain]
  | tryEntry l =>
      simp only [runFrame, assert_bind_eq_ok] at h
      cases h.2
      refine Pushed.of_plain ?_ rfl rfl
      simp [Kernel.andThen, tryDown_plain]
  | releaseEntry l =>
      simp only [runFrame, assert_bind_eq_ok] at h
      cases h.2
      refine Pushed.of_plain ?_ rfl rfl
      simp [stmt_plain, semaUp_plain]
  | tryDown l =>
      cases h
      refine Pushed.of_plain ?_ rfl rfl
      intro g hg
      simp only [Kernel.andThen] at hg
      split at hg
      · rw [List.mem_singleton.1 hg]
        exact stmt_plain _
      · cases hg
  | stmt st =>
      rcases bind_eq_ok.1 h with ⟨⟨k₁, next⟩, -, h⟩
      cases h
      refine Pushed.of_plain ?_ rfl rfl
      intro g hg
      rcases List.mem_map.1 hg with ⟨st', -, rfl⟩
      exact stmt_plain st'
  | condBroadcast c l =>
      simp only [runFrame] at h
      split at h
      · cases h
        exact hnil rfl rfl
      · rcases bind_eq_ok.1 h with ⟨_, -, h⟩
        cases h
        refine Pushed.of_plain ?_ rfl rfl
        simp [Kernel.andThen, condBroadcast_plain]
  | threadCreate t p | threadStart t =>
      rcases bind_eq_ok.1 h with ⟨_, -, h⟩
      cases h
      cases hg : cfg.grain <;> constructor <;> simp [Kernel.andThen, acquireFrame,
        Frame.isReturn, Frame.isAlone, Frame.isIdle, embryos_cons, Frame.embryo, Frame.OwnedBy,
        Frame.idleNext, Frame.carries, Frame.isBare]
  | takeTid t p =>
      cases h
      cases hg : cfg.grain <;> constructor <;> simp [Kernel.andThen, releaseFrame,
        Frame.isReturn, Frame.isAlone, Frame.isIdle, embryos_cons, Frame.embryo, Frame.OwnedBy,
        Frame.idleNext, Frame.carries, Frame.isBare]
  | timerSleep n | setIdle =>
      cases h
      constructor <;> simp [Kernel.andThen, Frame.isAlone, Frame.isIdle, embryos, Frame.embryo,
        Frame.OwnedBy, Frame.idleNext, Frame.carries, Frame.isBare]
  | threadBlock | sleepUntil d | idleUp | idleLoop =>
      rcases bind_eq_ok.1 h with ⟨_, -, h⟩
      cases h
      constructor <;> simp [Kernel.andThen, Frame.isAlone, Frame.isIdle, embryos, Frame.embryo,
        Frame.OwnedBy, Frame.idleNext, Frame.carries, Frame.isBare]

/-- A created thread has a fresh page. -/
theorem runFrame_spawns (h : runFrame cfg k f = .ok o) {t : ThreadPtr} {prog : List Frame}
    (hs : f.spawns = some (t, prog)) :
    t ∉ k.allList ∧ (prog = [] ∨ prog = [.setIdle] ∧ f = .threadStart t) := by
  cases f with
  | threadCreate t' p | threadStart t' =>
      cases hs
      rcases bind_eq_ok.1 h with ⟨k₁, hd, -⟩
      exact ⟨(threadCreate_eq_ok.1 hd).1.1, by simp⟩
  | _ => cases hs

end RunFrame

/-! ## A step keeps every thread in its place -/

section Step

variable {cfg : Config} {k k' : Kernel} {code : ThreadPtr → List Frame} {f : Frame}
  {rest : List Frame} {o : Outcome}

theorem Places.live_of_donationOnly (h : Live k code) (hk : DonationOnly k k') : Live k' code := by
  rcases hk with ⟨_, _, _, _, rfl⟩
  exact h.congr rfl rfl rfl rfl rfl rfl

theorem Places.semaTryDown (h : Live k code) (s : SemaPtr) : Live (semaTryDown k s).1 code := by
  unfold Project2.semaTryDown
  split
  · exact h.congr rfl rfl rfl rfl rfl rfl
  · exact h

theorem Places.lockAcquire {l : LockPtr} {got : Bool} (h : Live k code)
    (hd : lockAcquire k l = .ok (k', got))
    (hc : got = false → ∃ a, (code k.running).head? = some (.downLoop (.ofLock l) a)) :
    Live k' code := by
  rcases lockAcquire_eq_ok.1 hd with ⟨-, -, k₂, k₃, hdon, hdown, rfl⟩
  rcases lockDonate_footprint hdon with ⟨p, w, d, rfl⟩
  have h₂ : Live _ code := h.live_of_donationOnly ⟨p, w, d, k.holder, rfl⟩
  have h₃ : Live k₃ code := h₂.semaDownTurn (semaDown_eq_ok.1 hdown).2 hc
  cases got with
  | true => exact h₃.live_of_donationOnly ⟨_, _, _, _, rfl⟩
  | false => exact h₃

theorem Places.lockRelease {l : LockPtr} (h : Live k code) (hd : lockRelease k l = .ok k') :
    Live k' code := by
  simp only [Project2.lockRelease, assert_bind_eq_ok] at hd
  rcases released_footprint k l with ⟨p, w, d, hrel⟩
  refine Places.semaUp ?_ hd.2
  rw [hrel]
  exact h.live_of_donationOnly ⟨_, _, _, _, rfl⟩

theorem Places.threadSetPriority {p : Int} (h : Live k code)
    (hd : threadSetPriority k p = .ok k') : Live k' code := by
  refine Places.stealRunningByPriority ?_ hd
  rcases resetPriority_footprint
    { k with
      priority := update k.priority k.running p
      initPriority := update k.initPriority k.running p } with ⟨p', d, he⟩
  rw [he]
  exact h.congr rfl rfl rfl rfl rfl rfl

theorem Places.condSignal {order : Kernel → ThreadPtr → ThreadPtr → Bool} {c : CondPtr}
    {l : LockPtr} (h : Live k code) (hr : condSignal order k c l = .ok k') : Live k' code := by
  simp only [Project2.condSignal, assert_bind_eq_ok] at hr
  rcases hr with ⟨-, -, hr⟩
  split at hr
  · cases hr
    exact h
  · refine Places.semaUp ?_ hr
    exact h.congr rfl rfl rfl rfl rfl rfl

/-- A thread stopped in a bare `thread_block` is unblocked. -/
theorem Places.threadUnblock {r : Option ThreadPtr} {t : ThreadPtr} (h : Places r k code)
    (hc : (code t).head? = some .blockReturn) (hr : threadUnblock k t = .ok k') :
    Places r k' code := by
  rcases threadUnblock_eq_ok.1 hr with ⟨hb, rfl⟩
  have hni : k.idleThread ≠ some t := by
    intro hi
    rcases h.idle_head hi with he | he <;> simp [he] at hc
  have hsleep : t ∉ k.sleepingList := by
    intro hs
    simp [(h.sleep hs).2] at hc
  have hwait : ∀ s, t ∉ k.waiters s := by
    intro s hw
    rcases (h.wait hw).2 with ⟨a, ha⟩
    simp [ha] at hc
  refine h.unpark hb hni (h.not_embryo_of_head hc (by simp)) rfl rfl rfl
    (insertOrdered_perm _ _) ⟨h.sleep_nodup, fun u => ?_⟩ fun s => ⟨h.wait_nodup s, fun u => ?_⟩
  · exact ⟨fun hu => ⟨hu, fun e => hsleep (e ▸ hu)⟩, fun hu => hu.1⟩
  · exact ⟨fun hu => ⟨hu, fun e => hwait s (e ▸ hu)⟩, fun hu => hu.1⟩

/-- `cond_wait` initializes a semaphore on which nobody waits. -/
theorem Places.waiter_empty (h : Live k code) (ho : ∀ t, ∀ f ∈ code t, f.OwnedBy t) :
    k.waiters (.waiter k.running) = [] := by
  refine List.eq_nil_iff_forall_not_mem.2 fun t ht => ?_
  rcases (h.wait ht).2 with ⟨a, ha⟩
  have hown : (Frame.downLoop (.waiter k.running) a).OwnedBy t := ho t _ (List.mem_of_head? ha)
  have hb := (h.wait ht).1
  rw [← show k.running = t from hown, h.status_running] at hb
  cases hb

/-- The idle thread makes itself known. -/
theorem Places.setIdle (h : Live k code) (hi : k.idleThread = none)
    (hc : code k.running = [.setIdle]) :
    Live { k with idleThread := some k.running } (update code k.running [.idleUp]) := by
  have hrun := h.status_running
  have hnr := h.running_not_ready
  have h₁ : Live k (update code k.running [.idleUp]) := by
    refine h.recode ?_ (by simp [embryos_cons, Frame.embryo]) (by simp [hi])
    simp [hc, embryos_cons, Frame.embryo]
  refine ⟨fun u => ?_, h₁.all_nodup, h₁.ready_nodup, h₁.sleep_nodup, h₁.wait_nodup,
    h₁.embryo_unique, h₁.embryo_nodup⟩
  have hu := h₁.placed u
  constructor
  · exact hu.dead
  · exact hu.dead_code
  · exact hu.runs
  · by_cases he : u = k.running
    · subst he
      simp [hnr]
    · simpa [Ne.symm he, hi] using hu.ready
  · exact hu.sleep
  · exact hu.wait
  · intro hb
    cases hu.blocked hb with
    | waiting s a hf hw => exact .waiting s a hf hw
    | sleeping hf hs => exact .sleeping hf hs
    | bare hf => exact .bare hf
    | idle hi' => simp [hi] at hi'
    | embryo v hv => exact .embryo v hv
  · exact hu.embryo
  · intro he
    cases he
    simp [hrun]

/-- The thread that declares itself idle is the first one to do so. -/
theorem Shape.before_setIdle (hs : Shape k.idleThread code)
    (hc : code k.running = .setIdle :: rest) : rest = [] ∧ k.idleThread = none := by
  refine ⟨?_, ?_⟩
  · simpa [hc] using hs.alone k.running .setIdle (by simp [hc]) rfl
  · cases hi : k.idleThread with
    | none =>
        rfl
    | some i =>
        -- two idle threads
        rcases hs.idle_code i hi with he | he
        all_goals
          have hi' : i = k.running :=
            hs.idle_unique i k.running _ .setIdle (by rw [he]; exact List.mem_cons_self)
              (by simp [hc]) rfl rfl
          rw [hi', hc] at he
          cases he

/-- After a frame the threads are placed according to the code they then have. -/
theorem Places.exec (h : Live k code) (hs : Shape k.idleThread code)
    (hc : code k.running = f :: rest) (hr : runFrame cfg k f = .ok o)
    (hu : ∀ t, f = .threadUnblock t → (code t).head? = some .blockReturn) :
    Live o.kernel (update (spawnCode f code) k.running (o.push ++ rest)) := by
  have hp := runFrame_pushed hr (hs.owned k.running f (by simp [hc]))
  have hidle : k.idleThread = some k.running →
      o.push ++ rest = [.idleUp] ∨ o.push ++ rest = [.idleLoop] := by
    intro hi
    rcases hs.idle_code _ hi with he | he
    all_goals
      rw [hc] at he
      cases he
      right
      rw [hp.idle_next (by simp [Frame.idleNext])]
      rfl
  have hnd : (f.embryo.toList ++ embryos rest).Nodup := by
    have hnd := h.embryo_nodup k.running
    rwa [hc, embryos_cons] at hnd
  have hkeep : f.embryo = none → f.carries = [] → Live k (update code k.running (o.push ++ rest)) := by
    intro he hca
    refine h.recode ?_ ?_ hidle
    · simp [hc, embryos_cons, hp.carried, he, hca]
    · simpa [hp.carried, he, hca] using hnd
  cases f with
  | down s after =>
      rcases bind_eq_ok.1 hr with ⟨⟨k₁, got⟩, hd, hr⟩
      cases hr
      have h₁ : Live k₁ _ := (hkeep rfl rfl).semaDownTurn (semaDown_eq_ok.1 hd).2 fun hg =>
        ⟨after, by simp [hg, downOutcome, Kernel.andThen]⟩
      exact h₁.live_of_donationOnly (downOutcome_footprint s after got)
  | downLoop s after =>
      rcases bind_eq_ok.1 hr with ⟨⟨k₁, got⟩, hd, hr⟩
      cases hr
      have h₁ : Live k₁ _ := (hkeep rfl rfl).semaDownTurn hd fun hg =>
        ⟨after, by simp [hg, downOutcome, Kernel.andThen]⟩
      exact h₁.live_of_donationOnly (downOutcome_footprint s after got)
  | semaTryDown s =>
      cases hr
      exact (hkeep rfl rfl).semaTryDown s
  | semaUp s =>
      rcases bind_eq_ok.1 hr with ⟨k₁, hd, hr⟩
      cases hr
      exact (hkeep rfl rfl).semaUp hd
  | lockAcquire l =>
      rcases bind_eq_ok.1 hr with ⟨⟨k₁, got⟩, hd, hr⟩
      have h₁ := (hkeep rfl rfl).lockAcquire hd
      cases got with
      | true =>
          cases hr
          exact h₁ fun hgot => absurd hgot (by simp)
      | false =>
          cases hr
          exact h₁ fun _ => ⟨.acquired l, by simp [Kernel.andThen]⟩
  | lockTryAcquire l =>
      rcases bind_eq_ok.1 hr with ⟨⟨k₁, got⟩, hd, hr⟩
      cases hr
      exact ((hkeep rfl rfl).semaTryDown (.ofLock l)).live_of_donationOnly (tryDown_footprint hd).2
  | lockRelease l =>
      rcases bind_eq_ok.1 hr with ⟨k₁, hd, hr⟩
      cases hr
      exact (hkeep rfl rfl).lockRelease hd
  | acquireEntry l =>
      have hk := hkeep rfl rfl
      simp only [runFrame, assert_bind_eq_ok] at hr
      cases hr.2.2
      exact hk
  | tryEntry l | releaseEntry l =>
      have hk := hkeep rfl rfl
      simp only [runFrame, assert_bind_eq_ok] at hr
      cases hr.2
      exact hk
  | tryDown l =>
      cases hr
      exact (hkeep rfl rfl).semaTryDown (.ofLock l)
  | stmt st =>
      rcases bind_eq_ok.1 hr with ⟨⟨k₁, next⟩, hd, hr⟩
      cases hr
      exact (hkeep rfl rfl).live_of_donationOnly (LockStmt.run_footprint hd)
  | condEnqueue c l =>
      rcases bind_eq_ok.1 hr with ⟨k₁, hd, hr⟩
      cases hr
      rcases condEnqueue_eq_ok.1 hd with ⟨-, -, rfl⟩
      refine (hkeep rfl rfl).congr rfl rfl rfl rfl rfl ?_
      simp [Kernel.enqueued, semaInit, Kernel.done, ← h.waiter_empty hs.owned]
  | condSignal c l =>
      rcases bind_eq_ok.1 hr with ⟨k₁, hd, hr⟩
      cases hr
      exact (hkeep rfl rfl).condSignal hd
  | condBroadcast c l =>
      have hk := hkeep rfl rfl
      simp only [runFrame] at hr
      split at hr
      · cases hr
        exact hk
      · rcases bind_eq_ok.1 hr with ⟨k₁, hd, hr⟩
        cases hr
        exact hk.condSignal hd
  | condReturn c l | blockReturn | sleepReturn | timerSleep n =>
      cases hr
      exact hkeep rfl rfl
  | threadCreate t p | threadStart t =>
      rcases bind_eq_ok.1 hr with ⟨k₁, hd, hr⟩
      cases hr
      rcases threadCreate_eq_ok.1 hd with ⟨⟨ht, -⟩, -, rfl⟩
      have hdead : k.status t = .dying := (h.placed t).dead.1 ht
      have hnew : t ∉ embryos rest := by
        have hc' := h.not_embryo_of_status (t := t) (by simp [hdead]) k.running
        simpa [hc, embryos_cons, Frame.embryo] using hc'
      refine h.create ht (by simp) ?_ ?_ hidle
      · simp [hc, embryos_cons, hp.carried, Frame.carries, Frame.embryo]
      · simpa [hp.carried, Frame.carries, Frame.embryo, hnew] using hnd
  | takeTid t p =>
      cases hr
      have h₁ := @recode _ _ (_ ++ rest) h ?_ ?_ hidle
      · exact h₁.congr rfl rfl rfl rfl rfl rfl
      · simp [hc, embryos_cons, hp.carried, Frame.carries, Frame.embryo]
      · simpa [hp.carried, Frame.carries, Frame.embryo] using hnd
  | startNew t p tid =>
      rcases bind_eq_ok.1 hr with ⟨k₁, hd, hr⟩
      cases hr
      have hne : t ∉ embryos rest := fun hm =>
        (List.nodup_append.1 hnd).2.2 t (by simp [Frame.embryo]) t hm rfl
      have h₁ : Live (k.madeReady t) (update code k.running rest) := by
        refine h.start (by simp [hc, embryos_cons, Frame.embryo]) ?_ ?_ hidle
        · intro u
          have hmem : u ∈ embryos rest → u ≠ t := fun hu he => hne (he ▸ hu)
          simp only [hc, embryos_cons, Frame.embryo, Option.toList_some, List.singleton_append,
            List.mem_cons]
          tauto
        · exact (List.nodup_append.1 hnd).2.1
      have h₂ : Live (k.started t tid) (update code k.running rest) :=
        h₁.congr rfl rfl rfl rfl rfl rfl
      rcases (threadStartNew_eq_ok.1 hd).2 with ⟨-, hy⟩ | ⟨-, rfl⟩
      · exact h₂.threadYield hy
      · exact h₂
  | threadYield =>
      rcases bind_eq_ok.1 hr with ⟨k₁, hd, hr⟩
      cases hr
      exact (hkeep rfl rfl).threadYield hd
  | threadExit =>
      rcases bind_eq_ok.1 hr with ⟨k₁, hd, hr⟩
      cases hr
      have halone := hs.alone k.running .threadExit (by simp [hc]) rfl
      have hrest : rest = [] := by simpa [hc] using halone
      exact (hkeep rfl rfl).threadExit (by simp [hrest, Kernel.done]) hd
  | threadSetPriority p =>
      rcases bind_eq_ok.1 hr with ⟨k₁, hd, hr⟩
      cases hr
      exact (hkeep rfl rfl).threadSetPriority hd
  | threadBlock =>
      rcases bind_eq_ok.1 hr with ⟨k₁, hd, hr⟩
      cases hr
      exact (hkeep rfl rfl).threadBlock hd (Or.inl (by simp [Kernel.andThen]))
  | threadUnblock t =>
      rcases bind_eq_ok.1 hr with ⟨k₁, hd, hr⟩
      cases hr
      have hb := (threadUnblock_eq_ok.1 hd).1
      have hne : t ≠ k.running := by
        rintro rfl
        simp [h.status_running] at hb
      have h₁ := Places.threadUnblock (hkeep rfl rfl) (by simpa [hne] using hu t rfl) hd
      rcases threadUnblock_eq_ok.1 hd with ⟨-, rfl⟩
      exact h₁
  | sleepUntil d =>
      rcases bind_eq_ok.1 hr with ⟨k₁, hd, hr⟩
      cases hr
      exact (hkeep rfl rfl).sleepUntil hd (by simp [Kernel.andThen])
  | setIdle =>
      cases hr
      obtain ⟨rfl, hni⟩ := hs.before_setIdle hc
      exact h.setIdle hni hc
  | idleUp =>
      rcases bind_eq_ok.1 hr with ⟨k₁, hd, hr⟩
      cases hr
      exact (hkeep rfl rfl).semaUp hd
  | idleLoop =>
      rcases bind_eq_ok.1 hr with ⟨k₁, hd, hr⟩
      cases hr
      exact (hkeep rfl rfl).threadBlock hd (Or.inr (hs.idle_known _ .idleLoop (by simp [hc]) (by simp)))

theorem isAlone_of_isIdle (hf : f.isIdle = true) : f.isAlone = true := by
  simp [Frame.isAlone, hf]

theorem eq_of_mem_idleNext {g : Frame} (hg : g ∈ f.idleNext) :
    f.isIdle = true ∧ f.idleNext = [g] := by
  cases f with
  | setIdle | idleUp | idleLoop =>
      rw [List.mem_singleton.1 hg]
      exact ⟨rfl, rfl⟩
  | _ => cases hg

/-- The code of a thread after a frame: pushed frames, a new thread's code, or as before. -/
theorem code_after (hlive : Live k code) (rest : List Frame)
    (hr : runFrame cfg k f = .ok o) (u : ThreadPtr) :
    let code' := update (spawnCode f code) k.running (o.push ++ rest)
    (u = k.running ∧ code' u = o.push ++ rest) ∨
      (u ≠ k.running ∧ ∃ prog, f.spawns = some (u, prog) ∧ code u = [] ∧ code' u = prog ∧
        (prog = [] ∨ prog = [.setIdle] ∧ f = .threadStart u)) ∨
      (u ≠ k.running ∧ code' u = code u) := by
  intro code'
  by_cases hu : u = k.running
  · subst hu
    simp [code']
  · cases hs : f.spawns with
    | none =>
        simp [code', hu, spawnCode, hs]
    | some p =>
        obtain ⟨t, prog⟩ := p
        obtain ⟨hnew, hprog⟩ := runFrame_spawns hr hs
        by_cases hut : u = t
        · subst hut
          have hdead := (hlive.placed u).dead_code ((hlive.placed u).dead.1 hnew)
          simp [code', hu, spawnCode, hs, hdead, hprog]
        · simp [code', hu, spawnCode, hs, hut]

/-- After a frame the code of all threads has its shape again. -/
theorem Shape.exec (h : Live k code) (hs : Shape k.idleThread code)
    (hc : code k.running = f :: rest) (hr : runFrame cfg k f = .ok o) :
    Shape o.kernel.idleThread (update (spawnCode f code) k.running (o.push ++ rest)) := by
  have hp := runFrame_pushed hr (hs.owned k.running f (by simp [hc]))
  have hafter := code_after h rest hr
  have hi' := runFrame_idleThread hr
  have hrest : ∀ g ∈ rest, g.isAlone = false := by
    intro g hg
    by_contra ha
    have halone := hs.alone k.running g (by simp [hc, hg]) (by simpa using ha)
    rw [hc] at halone
    cases halone
    cases hg
  -- an idle frame is pushed only by an idle frame, which is then the whole code
  have hpush : ∀ g ∈ o.push, g.isAlone = true → f.isIdle = true ∧ o.push ++ rest = [g] := by
    intro g hg ha
    have hn := hp.alone g hg ha
    obtain ⟨hf, hg⟩ := eq_of_mem_idleNext (hn ▸ hg)
    have hnil : rest = [] := by
      have halone := hs.alone k.running f (by simp [hc]) (isAlone_of_isIdle hf)
      simpa [hc] using halone
    exact ⟨hf, by rw [hnil, hn, hg, List.append_nil]⟩
  have hidle : ∀ u, ∀ g ∈ update (spawnCode f code) k.running (o.push ++ rest) u,
      g.isIdle = true → (u = k.running ∧ f.isIdle = true ∧ f.idleNext = [g]) ∨
        (u ≠ k.running ∧ g ∈ code u) ∨ (u ≠ k.running ∧ f = .threadStart u ∧ g = .setIdle) := by
    intro u g hg ha
    rcases hafter u with ⟨hu, he⟩ | ⟨hu, prog, -, -, he, hprog⟩ | ⟨hu, he⟩
    · rw [he] at hg
      rcases List.mem_append.1 hg with hg | hg
      · have hn := hp.alone g hg (isAlone_of_isIdle ha)
        exact Or.inl ⟨hu, eq_of_mem_idleNext (hn ▸ hg)⟩
      · exact absurd (isAlone_of_isIdle ha) (by simp [hrest g hg])
    · rw [he] at hg
      rcases hprog with rfl | ⟨rfl, hf⟩
      · cases hg
      · exact Or.inr (Or.inr ⟨hu, hf, List.mem_singleton.1 hg⟩)
    · exact Or.inr (Or.inl ⟨hu, he ▸ hg⟩)
  have hmem : f ∈ code k.running := by simp [hc]
  have hnext : f.idleNext ≠ [] → o.push ++ rest = f.idleNext := by
    intro hn
    obtain ⟨g, hg⟩ := List.exists_mem_of_ne_nil _ hn
    have hnil : rest = [] := by
      simpa [hc] using
        hs.alone k.running f hmem (isAlone_of_isIdle (eq_of_mem_idleNext hg).1)
    rw [hp.idle_next hn, hnil, List.append_nil]
  constructor
  · intro u g hg
    rcases hafter u with ⟨hu, he⟩ | ⟨hu, prog, -, -, he, hprog⟩ | ⟨hu, he⟩
    · rw [he] at hg
      rcases List.mem_append.1 hg with hg | hg
      · exact hu ▸ hp.owned g hg
      · exact hs.owned u g (by simp [hu, hc, hg])
    · rw [he] at hg
      rcases hprog with rfl | ⟨rfl, -⟩
      · cases hg
      · rw [List.mem_singleton.1 hg]
        trivial
    · exact hs.owned u g (he ▸ hg)
  · intro u g hg
    rcases hafter u with ⟨hu, he⟩ | ⟨hu, prog, -, -, he, hprog⟩ | ⟨hu, he⟩
    · have hret : ∀ g ∈ rest, g.isReturn = false := by
        intro g hg
        exact hs.returns u g (by simp [hu, hc, hg])
      rw [he] at hg
      cases hpush' : o.push with
      | nil =>
          rw [hpush'] at hg
          exact hret g (List.mem_of_mem_tail hg)
      | cons p ps =>
          rw [hpush'] at hg
          rcases List.mem_append.1 hg with hg | hg
          · exact hp.returns g (by rw [hpush']; exact hg)
          · exact hret g hg
    · rw [he] at hg
      rcases hprog with rfl | ⟨rfl, -⟩ <;> cases hg
    · exact hs.returns u g (he ▸ hg)
  · intro u g hg ha
    rcases hafter u with ⟨hu, he⟩ | ⟨hu, prog, -, -, he, hprog⟩ | ⟨hu, he⟩
    · rw [he] at hg ⊢
      rcases List.mem_append.1 hg with hg | hg
      · exact (hpush g hg ha).2
      · exact absurd ha (by simp [hrest g hg])
    · rw [he] at hg ⊢
      rcases hprog with rfl | ⟨rfl, -⟩
      · cases hg
      · rw [List.mem_singleton.1 hg]
    · rw [he] at hg ⊢
      exact hs.alone u g hg ha
  · intro u v g g' hg hg' ha ha'
    rcases hidle u g hg ha with ⟨hu, hf, hn⟩ | ⟨hu, hold⟩ | ⟨hu, hf, -⟩
    · rcases hidle v g' hg' ha' with ⟨hv, -⟩ | ⟨hv, hold'⟩ | ⟨hv, hf', -⟩
      · exact hu.trans hv.symm
      · exact absurd (hs.idle_unique v k.running g' f hold' hmem ha' hf) hv
      · subst hf'
        cases hn
    · rcases hidle v g' hg' ha' with ⟨hv, hf, -⟩ | ⟨hv, hold'⟩ | ⟨hv, hf', -⟩
      · exact absurd (hs.idle_unique u k.running g f hold hmem ha hf) hu
      · exact hs.idle_unique u v g g' hold hold' ha ha'
      · exact absurd (hs.idle_unique u k.running g f hold hmem ha (by rw [hf']; rfl)) hu
    · rcases hidle v g' hg' ha' with ⟨hv, -, hn⟩ | ⟨hv, hold'⟩ | ⟨hv, hf', -⟩
      · subst hf
        cases hn
      · exact absurd (hs.idle_unique v k.running g' f hold' hmem ha' (by rw [hf]; rfl)) hv
      · rw [hf] at hf'
        cases hf'
        rfl
  · intro i hi
    rw [hi'] at hi
    split at hi
    · rename_i hf
      cases hi
      subst hf
      left
      rw [update_self]
      exact hnext (by simp [Frame.idleNext])
    · have hcode := hs.idle_code i hi
      rcases hafter i with ⟨hu, he⟩ | ⟨hu, prog, -, hnil, -, -⟩ | ⟨hu, he⟩
      · right
        rw [he]
        rw [hu, hc] at hcode
        rcases hcode with he | he
        all_goals
          cases he
          exact hnext (by simp [Frame.idleNext])
      · simp [hnil] at hcode
      · rw [he]
        exact hcode
  · intro i g hg hg'
    have ha : g.isIdle = true := by rcases hg' with rfl | rfl <;> rfl
    rw [hi']
    rcases hidle i g hg ha with ⟨hu, hf, hn⟩ | ⟨hu, hold⟩ | ⟨-, -, rfl⟩
    · split
      · rw [hu]
      · refine hs.idle_known i f (hu ▸ hmem) ?_
        cases f with
        | idleUp | idleLoop => simp
        | setIdle => exact absurd rfl (by assumption)
        | _ => cases hn
    · have hf : f ≠ .setIdle := by
        rintro rfl
        exact hu (hs.idle_unique i k.running g _ hold hmem ha rfl)
      rw [if_neg hf]
      exact hs.idle_known i g hold hg'
    · simp at hg'

end Step

end Project2
end Pintos
