import Pintos.Project2.System
import Pintos.Project2.Footprint

/-!
# Places — where each thread is linked

The member `elem` of a thread links it into the ready list, the sleeping list or the waiters of a
semaphore.  `Places` relates a thread's status, the list it is in and the frame it is stopped at;
its parameter is the running thread, `none` in the middle of a switch.  Each kernel function moves
threads between places, and `Shape` says what the code of a thread looks like in between.
-/

namespace Pintos
namespace Project2

open Lib Function

/-! ## The code of a thread -/

/-- The thread that `thread_create` has allocated and not yet unblocked. -/
def Frame.embryo : Frame → Option ThreadPtr
  | .takeTid t _ | .startNew t _ _ => some t
  | _ => none

def embryos (fs : List Frame) : List ThreadPtr :=
  fs.filterMap Frame.embryo

/-- Frames of the thread that is, or creates, the idle thread. -/
def Frame.isIdle : Frame → Bool
  | .threadStart _ | .setIdle | .idleUp | .idleLoop => true
  | _ => false

/-- Frames that are always the whole of a thread's code. -/
def Frame.isAlone (f : Frame) : Bool :=
  f.isIdle || f == .threadExit

/-- Only the owner of a `semaphore_elem` lowers its semaphore. -/
def Frame.OwnedBy (t : ThreadPtr) : Frame → Prop
  | .down (.waiter u) _ | .downLoop (.waiter u) _ => u = t
  | _ => True

@[simp] theorem embryos_nil : embryos [] = [] := rfl

@[simp] theorem embryos_append (fs gs : List Frame) :
    embryos (fs ++ gs) = embryos fs ++ embryos gs :=
  List.filterMap_append

theorem embryos_cons (f : Frame) (fs : List Frame) :
    embryos (f :: fs) = f.embryo.toList ++ embryos fs := by
  cases hf : f.embryo <;> simp [embryos, hf]

/-! ## Places -/

/-- Why a blocked thread is blocked. -/
inductive Parked (k : Kernel) (code : ThreadPtr → List Frame) (t : ThreadPtr) : Prop
  | waiting (s : SemaPtr) (a : AfterDown) :
      (code t).head? = some (.downLoop s a) → t ∈ k.waiters s → Parked k code t
  | sleeping : (code t).head? = some .sleepReturn → t ∈ k.sleepingList → Parked k code t
  | bare : (code t).head? = some .blockReturn → Parked k code t
  | idle : k.idleThread = some t → Parked k code t
  | embryo (u : ThreadPtr) : t ∈ embryos (code u) → Parked k code t

/-- Status, list and code of the thread `t` agree; `r` is the running thread. -/
structure Placed (r : Option ThreadPtr) (k : Kernel) (code : ThreadPtr → List Frame)
    (t : ThreadPtr) : Prop where
  dead : t ∉ k.allList ↔ k.status t = .dying
  dead_code : k.status t = .dying → code t = []
  runs : k.status t = .running ↔ r = some t
  ready : t ∈ k.readyList ↔ k.status t = .ready ∧ k.idleThread ≠ some t
  sleep : t ∈ k.sleepingList → k.status t = .blocked ∧ (code t).head? = some .sleepReturn
  wait : ∀ s, t ∈ k.waiters s →
    k.status t = .blocked ∧ ∃ a, (code t).head? = some (.downLoop s a)
  blocked : k.status t = .blocked → Parked k code t
  embryo : ∀ u, t ∈ embryos (code u) →
    k.status t = .blocked ∧ (code t = [] ∨ code t = [.setIdle])
  idle : k.idleThread = some t →
    k.status t ≠ .dying ∧ (code t = [.idleUp] ∨ code t = [.idleLoop])

/-- Every thread is placed, and no list has a thread twice. -/
structure Places (r : Option ThreadPtr) (k : Kernel) (code : ThreadPtr → List Frame) : Prop where
  placed : ∀ t, Placed r k code t
  all_nodup : k.allList.Nodup
  ready_nodup : k.readyList.Nodup
  sleep_nodup : k.sleepingList.Nodup
  wait_nodup : ∀ s, (k.waiters s).Nodup
  embryo_unique : ∀ u v t, t ∈ embryos (code u) → t ∈ embryos (code v) → u = v
  embryo_nodup : ∀ u, (embryos (code u)).Nodup

/-- Between steps the running thread is the one whose stack the processor is on. -/
abbrev Live (k : Kernel) (code : ThreadPtr → List Frame) : Prop :=
  Places (some k.running) k code

/-- Nothing that concerns the place of the thread `u` differs. -/
structure SameAt (k k' : Kernel) (u : ThreadPtr) : Prop where
  status : k'.status u = k.status u
  all : u ∈ k'.allList ↔ u ∈ k.allList
  ready : u ∈ k'.readyList ↔ u ∈ k.readyList
  sleep : u ∈ k'.sleepingList ↔ u ∈ k.sleepingList
  wait : ∀ s, u ∈ k'.waiters s ↔ u ∈ k.waiters s
  idle : k'.idleThread = k.idleThread

/-- The code of `u` is the same, and it is in creation or not as before. -/
structure SameCode (code code' : ThreadPtr → List Frame) (u : ThreadPtr) : Prop where
  same : code' u = code u
  embryo : (∃ v, u ∈ embryos (code' v)) ↔ ∃ v, u ∈ embryos (code v)

section Placed

variable {r r' : Option ThreadPtr} {k k' : Kernel} {code code' : ThreadPtr → List Frame}
  {t u : ThreadPtr}

theorem Parked.congr (h : Parked k code u) (hk : SameAt k k' u) (hc : SameCode code code' u) :
    Parked k' code' u := by
  cases h with
  | waiting s a hf hw => exact .waiting s a (hc.same ▸ hf) ((hk.wait s).2 hw)
  | sleeping hf hs => exact .sleeping (hc.same ▸ hf) (hk.sleep.2 hs)
  | bare hf => exact .bare (hc.same ▸ hf)
  | idle hi => exact .idle (hk.idle.trans hi)
  | embryo v hv =>
      rcases hc.embryo.2 ⟨v, hv⟩ with ⟨w, hw⟩
      exact .embryo w hw

theorem Placed.congr (h : Placed r k code u) (hk : SameAt k k' u)
    (hr : r' = some u ↔ r = some u) (hc : SameCode code code' u) : Placed r' k' code' u where
  dead := by rw [hk.all, hk.status]; exact h.dead
  dead_code := by rw [hk.status, hc.same]; exact h.dead_code
  runs := by rw [hk.status, hr]; exact h.runs
  ready := by rw [hk.ready, hk.status, hk.idle]; exact h.ready
  sleep := by rw [hk.sleep, hk.status, hc.same]; exact h.sleep
  wait := fun s => by rw [hk.wait, hk.status, hc.same]; exact h.wait s
  blocked := fun hb => (h.blocked (hk.status ▸ hb)).congr hk hc
  embryo := by
    intro v hv
    rcases hc.embryo.1 ⟨v, hv⟩ with ⟨w, hw⟩
    rw [hk.status, hc.same]
    exact h.embryo w hw
  idle := by rw [hk.status, hk.idle, hc.same]; exact h.idle

theorem SameCode.refl (code : ThreadPtr → List Frame) (u : ThreadPtr) : SameCode code code u :=
  ⟨rfl, Iff.rfl⟩

theorem SameAt.refl (k : Kernel) (u : ThreadPtr) : SameAt k k u :=
  ⟨rfl, Iff.rfl, Iff.rfl, Iff.rfl, fun _ => Iff.rfl, rfl⟩

/-- What it takes to place a thread that is neither blocked nor dying. -/
theorem Placed.of_awake (hst : k.status t = .running ∧ r = some t ∨ k.status t = .ready ∧ r ≠ some t)
    (hall : t ∈ k.allList) (hready : t ∈ k.readyList ↔ k.status t = .ready ∧ k.idleThread ≠ some t)
    (hsleep : t ∉ k.sleepingList) (hwait : ∀ s, t ∉ k.waiters s)
    (hembryo : ∀ v, t ∉ embryos (code v))
    (hidle : k.idleThread = some t → code t = [.idleUp] ∨ code t = [.idleLoop]) :
    Placed r k code t := by
  have hne : k.status t ≠ .dying ∧ k.status t ≠ .blocked := by
    rcases hst with ⟨hs, -⟩ | ⟨hs, -⟩ <;> simp [hs]
  constructor
  · simp [hall, hne.1]
  · exact fun hd => absurd hd hne.1
  · rcases hst with ⟨hs, hr⟩ | ⟨hs, hr⟩ <;> simp [hs, hr]
  · exact hready
  · exact fun hs => absurd hs hsleep
  · exact fun s hw => absurd hw (hwait s)
  · exact fun hb => absurd hb hne.2
  · exact fun v hv => absurd hv (hembryo v)
  · exact fun hi => ⟨hne.1, hidle hi⟩

end Placed

namespace Places

variable {r r' : Option ThreadPtr} {k k' : Kernel} {code : ThreadPtr → List Frame}
  {t : ThreadPtr}

/-! ## Consequences -/

theorem wait (h : Places r k code) {s : SemaPtr} {t : ThreadPtr} (ht : t ∈ k.waiters s) :
    k.status t = .blocked ∧ ∃ a, (code t).head? = some (.downLoop s a) :=
  (h.placed t).wait s ht

theorem sleep (h : Places r k code) {t : ThreadPtr} (ht : t ∈ k.sleepingList) :
    k.status t = .blocked ∧ (code t).head? = some .sleepReturn :=
  (h.placed t).sleep ht

theorem status_of_ready (h : Places r k code) {t : ThreadPtr} (ht : t ∈ k.readyList) :
    k.status t = .ready :=
  ((h.placed t).ready.1 ht).1

theorem status_running (h : Live k code) : k.status k.running = .running :=
  (h.placed _).runs.2 rfl

theorem mem_allList (h : Places r k code) {t : ThreadPtr} (ht : k.status t ≠ .dying) :
    t ∈ k.allList := by
  by_contra hmem
  exact ht ((h.placed t).dead.1 hmem)

theorem running_mem (h : Live k code) : k.running ∈ k.allList :=
  h.mem_allList (by simp [h.status_running])

theorem idle_head (h : Places r k code) {i : ThreadPtr} (hi : k.idleThread = some i) :
    (code i).head? = some .idleUp ∨ (code i).head? = some .idleLoop := by
  rcases ((h.placed i).idle hi).2 with hc | hc <;> simp [hc]

theorem idle_ne_of_wait (h : Places r k code) {s : SemaPtr} {t : ThreadPtr}
    (ht : t ∈ k.waiters s) : k.idleThread ≠ some t := by
  intro hi
  rcases (h.wait ht).2 with ⟨a, ha⟩
  rcases h.idle_head hi with hc | hc <;> simp [hc] at ha

theorem idle_ne_of_sleep (h : Places r k code) {t : ThreadPtr} (ht : t ∈ k.sleepingList) :
    k.idleThread ≠ some t := by
  intro hi
  have hs := (h.sleep ht).2
  rcases h.idle_head hi with hc | hc <;> simp [hc] at hs

/-- A thread that is not blocked is not in creation. -/
theorem not_embryo_of_status (h : Places r k code) {t : ThreadPtr} (ht : k.status t ≠ .blocked)
    (u : ThreadPtr) : t ∉ embryos (code u) :=
  fun hu => ht ((h.placed t).embryo u hu).1

/-- A thread that stopped in the middle of an operation is not in creation. -/
theorem not_embryo_of_head (h : Places r k code) {t : ThreadPtr} {f : Frame}
    (hf : (code t).head? = some f) (hne : f ≠ .setIdle) (u : ThreadPtr) :
    t ∉ embryos (code u) := by
  intro hu
  rcases ((h.placed t).embryo u hu).2 with hc | hc <;> simp [hc] at hf
  exact hne hf.symm

theorem not_embryo_of_wait (h : Places r k code) {s : SemaPtr} {t : ThreadPtr}
    (ht : t ∈ k.waiters s) (u : ThreadPtr) : t ∉ embryos (code u) := by
  rcases (h.wait ht).2 with ⟨a, ha⟩
  exact h.not_embryo_of_head ha (by simp) u

theorem not_embryo_of_sleep (h : Places r k code) {t : ThreadPtr} (ht : t ∈ k.sleepingList)
    (u : ThreadPtr) : t ∉ embryos (code u) :=
  h.not_embryo_of_head (h.sleep ht).2 (by simp) u

theorem idle_not_embryo (h : Places r k code) {i : ThreadPtr} (hi : k.idleThread = some i)
    (u : ThreadPtr) : i ∉ embryos (code u) := by
  rcases h.idle_head hi with hc | hc
  · exact h.not_embryo_of_head hc (by simp) u
  · exact h.not_embryo_of_head hc (by simp) u

/-- A thread waits for one semaphore at a time. -/
theorem wait_unique (h : Places r k code) {s s' : SemaPtr} {t : ThreadPtr}
    (ht : t ∈ k.waiters s) (ht' : t ∈ k.waiters s') : s = s' := by
  rcases (h.wait ht).2 with ⟨a, ha⟩
  rcases (h.wait ht').2 with ⟨a', ha'⟩
  rw [ha] at ha'
  cases ha'
  rfl

theorem not_wait_of_sleep (h : Places r k code) {t : ThreadPtr} (ht : t ∈ k.sleepingList)
    (s : SemaPtr) : t ∉ k.waiters s := by
  intro hw
  rcases (h.wait hw).2 with ⟨a, ha⟩
  rw [(h.sleep ht).2] at ha
  cases ha

theorem not_wait_of_status (h : Places r k code) {t : ThreadPtr} (ht : k.status t ≠ .blocked)
    (s : SemaPtr) : t ∉ k.waiters s :=
  fun hw => ht (h.wait hw).1

theorem not_sleep_of_status (h : Places r k code) {t : ThreadPtr} (ht : k.status t ≠ .blocked) :
    t ∉ k.sleepingList :=
  fun hs => ht (h.sleep hs).1

theorem not_ready_of_status (h : Places r k code) {t : ThreadPtr} (ht : k.status t ≠ .ready) :
    t ∉ k.readyList :=
  fun hr => ht (h.status_of_ready hr)

/-- The running thread is not on the ready list. -/
theorem running_not_ready (h : Live k code) : k.running ∉ k.readyList :=
  h.not_ready_of_status (by simp [h.status_running])

/-! ## Moving one thread -/

/-- Only the place of `t` changes. -/
theorem move (h : Places r k code) (t : ThreadPtr)
    (hsame : ∀ u, u ≠ t → SameAt k k' u ∧ (r' = some u ↔ r = some u))
    (ht : Placed r' k' code t) (hall : k'.allList.Nodup) (hready : k'.readyList.Nodup)
    (hsleep : k'.sleepingList.Nodup) (hwait : ∀ s, (k'.waiters s).Nodup) :
    Places r' k' code where
  placed u := by
    by_cases hu : u = t
    · exact hu ▸ ht
    · exact (h.placed u).congr (hsame u hu).1 (hsame u hu).2 (.refl _ _)
  all_nodup := hall
  ready_nodup := hready
  sleep_nodup := hsleep
  wait_nodup := hwait
  embryo_unique := h.embryo_unique
  embryo_nodup := h.embryo_nodup

/-- `Places` reads no other members than these. -/
theorem congr (h : Places r k code) (hst : k'.status = k.status)
    (hready : k'.readyList = k.readyList) (hall : k'.allList = k.allList)
    (hsleep : k'.sleepingList = k.sleepingList) (hidle : k'.idleThread = k.idleThread)
    (hwait : k'.waiters = k.waiters) : Places r k' code := by
  have hsame : ∀ u, SameAt k k' u := fun u =>
    ⟨by rw [hst], by rw [hall], by rw [hready], by rw [hsleep], fun s => by rw [hwait], hidle⟩
  exact
    { placed := fun u => (h.placed u).congr (hsame u) Iff.rfl (.refl _ _)
      all_nodup := hall ▸ h.all_nodup
      ready_nodup := hready ▸ h.ready_nodup
      sleep_nodup := hsleep ▸ h.sleep_nodup
      wait_nodup := by rw [hwait]; exact h.wait_nodup
      embryo_unique := h.embryo_unique
      embryo_nodup := h.embryo_nodup }

theorem of_donationOnly (h : Places r k code) (hk : DonationOnly k k') : Places r k' code := by
  rcases hk with ⟨_, _, _, _, rfl⟩
  exact h.congr rfl rfl rfl rfl rfl rfl

/-- The thread chosen by `next_thread_to_run` starts to run. -/
theorem dispatch (h : Places none k code) {t : ThreadPtr} {rest : List ThreadPtr}
    (hn : Next k t rest) : Places (some t) (k.dispatch t rest) code := by
  -- the chosen thread was ready, or it is the idle thread and nothing was ready
  have hpick : k.idleThread = some t ∨ k.status t = .ready := by
    rcases hn with ⟨-, -, hi⟩ | hs
    · exact Or.inl hi
    · exact Or.inr (h.status_of_ready (mem_of_sort_eq_cons hs))
  have hrest : rest.Nodup ∧ ∀ u, u ∈ rest ↔ u ∈ k.readyList ∧ u ≠ t := by
    rcases hn with ⟨hr, rfl, -⟩ | hs
    · simp [hr]
    · exact ⟨nodup_tail_of_sort_eq_cons h.ready_nodup hs,
        mem_tail_iff_of_sort_eq_cons h.ready_nodup hs⟩
  have hall : t ∈ k.allList := by
    rcases hpick with hi | hs
    · exact h.mem_allList ((h.placed t).idle hi).1
    · exact h.mem_allList (by simp [hs])
  have hsleep : t ∉ k.sleepingList := by
    rcases hpick with hi | hs
    · exact fun hw => h.idle_ne_of_sleep hw hi
    · exact h.not_sleep_of_status (by simp [hs])
  have hwait : ∀ s, t ∉ k.waiters s := by
    rcases hpick with hi | hs
    · exact fun s hw => h.idle_ne_of_wait hw hi
    · exact h.not_wait_of_status (by simp [hs])
  have hembryo : ∀ u, t ∉ embryos (code u) := by
    rcases hpick with hi | hs
    · exact h.idle_not_embryo hi
    · exact h.not_embryo_of_status (by simp [hs])
  refine h.move t ?_ ?_ h.all_nodup hrest.1 h.sleep_nodup h.wait_nodup
  · intro u hu
    refine ⟨⟨by simp [Kernel.dispatch, hu], Iff.rfl, ?_, Iff.rfl, fun s => Iff.rfl, rfl⟩,
      by simp [Ne.symm hu]⟩
    show u ∈ rest ↔ _
    simpa [hu] using hrest.2 u
  · refine Placed.of_awake (Or.inl ⟨by simp [Kernel.dispatch], rfl⟩) hall ?_ hsleep hwait hembryo
      fun hi => ((h.placed t).idle hi).2
    simp [Kernel.dispatch, hrest.2]

/-- The running thread `t` becomes blocked; `k'` has it queued where its code says. -/
theorem park (h : Places (some t) k code) (hst : k'.status = update k.status t .blocked)
    (hready : k'.readyList = k.readyList) (hall : k'.allList = k.allList)
    (hidle : k'.idleThread = k.idleThread)
    (hsleep : k'.sleepingList.Nodup ∧ ∀ u, u ≠ t → (u ∈ k'.sleepingList ↔ u ∈ k.sleepingList))
    (hwait : ∀ s, (k'.waiters s).Nodup ∧ ∀ u, u ≠ t → (u ∈ k'.waiters s ↔ u ∈ k.waiters s))
    (hsleep' : t ∈ k'.sleepingList → (code t).head? = some .sleepReturn)
    (hwait' : ∀ s, t ∈ k'.waiters s → ∃ a, (code t).head? = some (.downLoop s a))
    (hpark : Parked k' code t) : Places none k' code := by
  have hrun : k.status t = .running := (h.placed t).runs.2 rfl
  have hst' : k'.status t = .blocked := by simp [hst]
  refine h.move t ?_ ?_ (hall ▸ h.all_nodup) (hready ▸ h.ready_nodup) hsleep.1
    fun s => (hwait s).1
  · intro u hu
    refine ⟨⟨by simp [hst, hu], by rw [hall], by rw [hready], hsleep.2 u hu,
      fun s => (hwait s).2 u hu, hidle⟩, by simp [Ne.symm hu]⟩
  · constructor
    · simpa [hst', hall] using h.mem_allList (by simp [hrun])
    · simp [hst']
    · simp [hst']
    · simpa [hst', hready] using h.not_ready_of_status (by simp [hrun])
    · exact fun hs => ⟨hst', hsleep' hs⟩
    · exact fun s hw => ⟨hst', hwait' s hw⟩
    · exact fun _ => hpark
    · exact fun v hv => absurd hv (h.not_embryo_of_status (by simp [hrun]) v)
    · exact fun hi => ⟨by simp [hst'], ((h.placed t).idle (hidle ▸ hi)).2⟩

/-- The blocked thread `t` becomes ready; `k'` has it taken off the list it was queued in. -/
theorem unpark (h : Places r k code) (hb : k.status t = .blocked)
    (hidle : k.idleThread ≠ some t) (hembryo : ∀ u, t ∉ embryos (code u))
    (hst : k'.status = update k.status t .ready) (hall : k'.allList = k.allList)
    (hid : k'.idleThread = k.idleThread)
    (hready : k'.readyList.Perm (t :: k.readyList))
    (hsleep : k'.sleepingList.Nodup ∧
      ∀ u, u ∈ k'.sleepingList ↔ u ∈ k.sleepingList ∧ u ≠ t)
    (hwait : ∀ s, (k'.waiters s).Nodup ∧ ∀ u, u ∈ k'.waiters s ↔ u ∈ k.waiters s ∧ u ≠ t) :
    Places r k' code := by
  have hst' : k'.status t = .ready := by simp [hst]
  have hmem : t ∉ k.readyList := h.not_ready_of_status (by simp [hb])
  refine h.move t ?_ ?_ (hall ▸ h.all_nodup) ?_ hsleep.1 fun s => (hwait s).1
  · intro u hu
    refine ⟨⟨by simp [hst, hu], by rw [hall], ?_, ?_, ?_, hid⟩, Iff.rfl⟩
    · simp [hready.mem_iff, hu]
    · simp [hsleep.2, hu]
    · exact fun s => by simp [(hwait s).2, hu]
  · refine Placed.of_awake (Or.inr ⟨hst', ?_⟩) (hall ▸ h.mem_allList (by simp [hb])) ?_
      (by simp [hsleep.2]) (fun s => by simp [(hwait s).2]) hembryo
      fun hi => absurd (hid ▸ hi) hidle
    · intro hr
      have hrun := (h.placed t).runs.2 hr
      rw [hb] at hrun
      cases hrun
    · simp [hready.mem_iff, hst', hid, hidle]
  · exact hready.nodup_iff.2 (List.nodup_cons.2 ⟨hmem, h.ready_nodup⟩)

/-! ## The kernel functions, with the code of the threads as it is afterwards -/

theorem yielding (h : Live k code) : Places none k.yielding code := by
  have hrun := h.status_running
  have hmem := h.running_not_ready
  have hready : ∀ u, u ∈ k.yielding.readyList ↔
      u ∈ k.readyList ∨ (u = k.running ∧ k.idleThread ≠ some k.running) := by
    intro u
    by_cases hi : k.idleThread = some k.running <;> simp [Kernel.yielding, hi, or_comm]
  refine h.move k.running ?_ ?_ h.all_nodup ?_ h.sleep_nodup h.wait_nodup
  · intro u hu
    refine ⟨⟨by simp [Kernel.yielding, hu], Iff.rfl, ?_, Iff.rfl, fun s => Iff.rfl, rfl⟩,
      by simp [Ne.symm hu]⟩
    simp [hready, hu]
  · refine Placed.of_awake (Or.inr ⟨by simp [Kernel.yielding], by simp⟩) h.running_mem ?_
      (h.not_sleep_of_status (by simp [hrun])) (h.not_wait_of_status (by simp [hrun]))
      (h.not_embryo_of_status (by simp [hrun])) fun hi => ((h.placed _).idle hi).2
    rw [hready]
    simp [Kernel.yielding, hmem]
  · by_cases hi : k.idleThread = some k.running
    · simpa [Kernel.yielding, hi] using h.ready_nodup
    · simpa [Kernel.yielding, hi, insertOrdered_nodup, hmem] using h.ready_nodup

theorem threadYield (h : Live k code) (hy : threadYield k = .ok k') : Live k' code := by
  rcases threadYield_eq_ok.1 hy with ⟨-, t, rest, hn, rfl⟩
  exact h.yielding.dispatch hn

theorem stealRunningByPriority (h : Live k code) (hs : stealRunningByPriority k = .ok k') :
    Live k' code := by
  rcases stealRunningByPriority_eq_ok.1 hs with ⟨-, hy⟩ | ⟨-, rfl⟩
  · exact h.threadYield hy
  · exact h

/-- The running thread blocks without being queued: in `idle`, or in a bare `thread_block`. -/
theorem threadBlock (h : Live k code) (hb : threadBlock k = .ok k')
    (hc : (code k.running).head? = some .blockReturn ∨ k.idleThread = some k.running) :
    Live k' code := by
  rcases threadBlock_eq_ok.1 hb with ⟨-, t, rest, hn, rfl⟩
  have hrun := h.status_running
  have hpark : Places none k.blocked code := by
    refine h.park rfl rfl rfl rfl ⟨h.sleep_nodup, fun _ _ => Iff.rfl⟩
      (fun s => ⟨h.wait_nodup s, fun _ _ => Iff.rfl⟩) ?_ ?_ ?_
    · exact fun hs => absurd hs (h.not_sleep_of_status (by simp [hrun]))
    · exact fun s hw => absurd hw (h.not_wait_of_status (by simp [hrun]) s)
    · rcases hc with hc | hi
      · exact .bare hc
      · exact .idle hi
  exact hpark.dispatch hn

/-- The running thread goes to sleep. -/
theorem sleepUntil {d : Int} (h : Live k code) (hb : sleepUntil k d = .ok k')
    (hc : (code k.running).head? = some .sleepReturn) : Live k' code := by
  rcases threadBlock_eq_ok.1 hb with ⟨-, t, rest, hn, rfl⟩
  have hrun := h.status_running
  have hmem : k.running ∉ k.sleepingList := h.not_sleep_of_status (by simp [hrun])
  have hpark : Places none (threadToSleep k d).blocked code := by
    refine h.park rfl rfl rfl rfl ⟨?_, ?_⟩ (fun s => ⟨h.wait_nodup s, fun _ _ => Iff.rfl⟩)
      (fun _ => hc) ?_ (.sleeping hc ?_)
    · exact h.sleep_nodup.append (List.nodup_singleton _) (by simpa using hmem)
    · intro u hu
      simp [threadToSleep, Kernel.blocked, hu]
    · exact fun s hw => absurd hw (h.not_wait_of_status (by simp [hrun]) s)
    · simp [threadToSleep, Kernel.blocked]
  exact hpark.dispatch hn

/-- One turn of the loop of `sema_down`: the running thread is queued, or the value goes down. -/
theorem semaDownTurn {s : SemaPtr} {got : Bool} (h : Live k code)
    (hd : semaDownTurn k s = .ok (k', got))
    (hc : got = false → ∃ a, (code k.running).head? = some (.downLoop s a)) : Live k' code := by
  rcases semaDownTurn_eq_ok.1 hd with ⟨-, hgot, hb⟩ | ⟨-, -, rfl⟩
  · rcases threadBlock_eq_ok.1 hb with ⟨-, t, rest, hn, rfl⟩
    have hrun := h.status_running
    have hmem : ∀ s', k.running ∉ k.waiters s' := h.not_wait_of_status (by simp [hrun])
    have hw : ∀ s' u, u ∈ (k.queued s).blocked.waiters s' ↔
        u ∈ k.waiters s' ∨ (s' = s ∧ u = k.running) := by
      intro s' u
      by_cases hs : s' = s
      · subst hs
        simp [Kernel.queued, Kernel.blocked, or_comm]
      · simp [Kernel.queued, Kernel.blocked, hs]
    rcases hc hgot with ⟨a, ha⟩
    have hpark : Places none (k.queued s).blocked code := by
      refine h.park rfl rfl rfl rfl ⟨h.sleep_nodup, fun _ _ => Iff.rfl⟩ ?_ ?_ ?_
        (.waiting s a ha ((hw s _).2 (Or.inr ⟨rfl, rfl⟩)))
      · intro s'
        refine ⟨?_, fun u hu => by simp [hw, hu]⟩
        by_cases hs : s' = s
        · subst hs
          simpa [Kernel.queued, Kernel.blocked, insertOrdered_nodup, hmem] using h.wait_nodup s'
        · simpa [Kernel.queued, Kernel.blocked, hs] using h.wait_nodup s'
      · exact fun hs => absurd hs (h.not_sleep_of_status (by simp [hrun]))
      · intro s' hs'
        rcases (hw s' _).1 hs' with hs' | ⟨rfl, -⟩
        · exact absurd hs' (hmem s')
        · exact ⟨a, ha⟩
    exact hpark.dispatch hn
  · exact h.congr rfl rfl rfl rfl rfl rfl

theorem semaWake {s : SemaPtr} (h : Places r k code) (hw : semaWake k s = .ok k') :
    Places r k' code := by
  rcases semaWake_eq_ok.1 hw with ⟨-, rfl⟩ | ⟨t, rest, hsort, hb, rfl⟩
  · exact h
  · have hmem : t ∈ k.waiters s := mem_of_sort_eq_cons hsort
    refine h.unpark hb (h.idle_ne_of_wait hmem) (h.not_embryo_of_wait hmem) rfl rfl rfl
      (insertOrdered_perm _ _) ⟨h.sleep_nodup, ?_⟩ ?_
    · intro u
      refine ⟨fun hu => ⟨hu, fun e => ?_⟩, fun hu => hu.1⟩
      exact h.not_wait_of_sleep (e ▸ hu) s hmem
    · intro s'
      by_cases hs : s' = s
      · subst hs
        simpa [Kernel.woken, Kernel.madeReady] using
          ⟨nodup_tail_of_sort_eq_cons (h.wait_nodup s') hsort,
            mem_tail_iff_of_sort_eq_cons (h.wait_nodup s') hsort⟩
      · refine ⟨by simpa [Kernel.woken, Kernel.madeReady, hs] using h.wait_nodup s', fun u => ?_⟩
        simp only [Kernel.woken, Kernel.madeReady, update_of_ne hs, iff_self_and]
        exact fun hu e => hs (h.wait_unique (e ▸ hu) hmem)

theorem semaUp {s : SemaPtr} (h : Live k code) (hu : semaUp k s = .ok k') : Live k' code := by
  rcases semaUp_eq_ok.1 hu with ⟨k₁, hw, hs⟩
  have hrun : k₁.running = k.running := by
    rcases semaWake_eq_ok.1 hw with ⟨-, rfl⟩ | ⟨_, _, -, -, rfl⟩ <;> rfl
  have h₁ : Live k₁ code := by
    rw [Live, hrun]
    exact h.semaWake hw
  have h₂ : Live (k₁.raised s) code := h₁.congr rfl rfl rfl rfl rfl rfl
  exact h₂.stealRunningByPriority hs

/-- The loop of `thread_awake` finds every sleeper it still has to visit in its place. -/
theorem awakeLoop {now : Int} {ts : List ThreadPtr} (h : Places r k code)
    (hts : ts.Nodup ∧ ∀ t ∈ ts, t ∈ k.sleepingList) (ha : awakeLoop now ts k = .ok k') :
    Places r k' code ∧ k'.running = k.running := by
  induction ts generalizing k with
  | nil =>
      cases ha
      exact ⟨h, rfl⟩
  | cons t ts ih =>
      obtain ⟨hnd, hmem⟩ := hts
      obtain ⟨ht, hnd⟩ := List.nodup_cons.1 hnd
      have htmem : t ∈ k.sleepingList := hmem t List.mem_cons_self
      unfold Project2.awakeLoop at ha
      split at ha
      · rcases bind_eq_ok.1 ha with ⟨k₁, hu, ha⟩
        rcases threadUnblock_eq_ok.1 hu with ⟨hb, rfl⟩
        have herase : ∀ u, u ∈ k.sleepingList.erase t ↔ u ∈ k.sleepingList ∧ u ≠ t := by
          intro u
          rw [h.sleep_nodup.mem_erase_iff, and_comm]
        have h₁ : Places r (k.awakened t) code := by
          refine h.unpark hb (h.idle_ne_of_sleep htmem) (h.not_embryo_of_sleep htmem) rfl rfl rfl
            (insertOrdered_perm _ _) ⟨h.sleep_nodup.erase t, herase⟩ fun s => ?_
          refine ⟨h.wait_nodup s, fun u => ⟨fun hw => ⟨hw, fun e => ?_⟩, fun hw => hw.1⟩⟩
          exact h.not_wait_of_sleep htmem s (e ▸ hw)
        refine @ih (k.awakened t) h₁ ⟨hnd, fun u hu => ?_⟩ ha
        exact (herase u).2 ⟨hmem u (List.mem_cons_of_mem _ hu), fun e => ht (e ▸ hu)⟩
      · exact ih h ⟨hnd, fun u hu => hmem u (List.mem_cons_of_mem _ hu)⟩ ha

theorem timerInterrupt (h : Live k code) (ht : timerInterrupt k = .ok k') : Live k' code := by
  rcases timerInterrupt_eq_ok.1 ht with ⟨k₁, ha, hy⟩
  have h₀ : Live k.ticked code := h.congr rfl rfl rfl rfl rfl rfl
  have h₁ := h₀.awakeLoop ⟨h.sleep_nodup, fun t ht => ht⟩ ha
  have h₂ : Live k₁.returned code := by
    have hrun : k₁.returned.running = k.ticked.running := h₁.2
    rw [Live, hrun]
    exact h₁.1.congr rfl rfl rfl rfl rfl rfl
  rcases hy with ⟨-, hy⟩ | ⟨-, rfl⟩
  · exact h₂.threadYield hy
  · exact h₂

/-- Any ready thread may be chosen. -/
theorem switchTo (h : Live k code) (ht : t ∈ k.readyList) : Live (k.switchTo t) code := by
  have hy := h.yielding
  have hne : t ≠ k.running := fun e => h.not_ready_of_status (by simp [h.status_running]) (e ▸ ht)
  have hst : k.yielding.status t = .ready := by
    simpa [Kernel.yielding, hne] using h.status_of_ready ht
  have hmem : t ∈ k.yielding.readyList := by
    refine ((hy.placed t).ready).2 ⟨hst, ?_⟩
    exact ((h.placed t).ready.1 ht).2
  have herase : ∀ u, u ∈ k.yielding.readyList.erase t ↔ u ∈ k.yielding.readyList ∧ u ≠ t := by
    intro u
    rw [hy.ready_nodup.mem_erase_iff, and_comm]
  refine hy.move t ?_ ?_ hy.all_nodup (hy.ready_nodup.erase t) hy.sleep_nodup hy.wait_nodup
  · intro u hu
    refine ⟨⟨by simp [Kernel.switchTo, Kernel.dispatch, hu], Iff.rfl, ?_, Iff.rfl,
      fun s => Iff.rfl, rfl⟩, by simp [Kernel.switchTo, Kernel.dispatch, Ne.symm hu]⟩
    exact List.mem_erase_of_ne hu
  · refine Placed.of_awake (Or.inl ⟨by simp [Kernel.switchTo, Kernel.dispatch], rfl⟩)
      (hy.mem_allList (by simp [hst])) ?_ (hy.not_sleep_of_status (by simp [hst]))
      (hy.not_wait_of_status (by simp [hst])) (hy.not_embryo_of_status (by simp [hst]))
      fun hi => ((hy.placed t).idle hi).2
    simp [Kernel.switchTo, Kernel.dispatch, herase]

end Places

end Project2
end Pintos
