import Pintos.Project2.Synch

/-!
# Footprint — which members of the kernel each function writes

Four footprints cover the functions that the operations are made of:

* `SchedOnly`: a switch of threads writes `status`, `readyList`, `running`, `threadTicks`;
* `SemaOnly`: a semaphore operation writes the semaphore's members besides these;
* `DonationOnly`: the bookkeeping of locks writes `priority`, `waitingLock`, `donations`, `holder`;
* `TickOnly`: the timer interrupt writes the scheduler's members, the clocks and `sleepingList`.
-/

namespace Pintos
namespace Project2

open Lib Function

/-! ## The footprints -/

def SchedOnly (k k' : Kernel) : Prop :=
  ∃ status readyList running threadTicks,
    k' = { k with
      status := status, readyList := readyList, running := running, threadTicks := threadTicks }

def SemaOnly (k k' : Kernel) : Prop :=
  ∃ status readyList running threadTicks value waiters,
    k' = { k with
      status := status, readyList := readyList, running := running, threadTicks := threadTicks,
      value := value, waiters := waiters }

def DonationOnly (k k' : Kernel) : Prop :=
  ∃ priority waitingLock donations holder,
    k' = { k with
      priority := priority, waitingLock := waitingLock, donations := donations, holder := holder }

/-- The timer interrupt always leaves interrupt context again. -/
def TickOnly (k k' : Kernel) : Prop :=
  ∃ status readyList sleepingList running idleTicks kernelTicks threadTicks ticks,
    k' = { k with
      status := status, readyList := readyList, sleepingList := sleepingList, running := running,
      idleTicks := idleTicks, kernelTicks := kernelTicks, threadTicks := threadTicks,
      ticks := ticks, intrContext := false }

variable {k k' k₁ k₂ k₃ : Kernel}

theorem SchedOnly.refl (k : Kernel) : SchedOnly k k := ⟨_, _, _, _, rfl⟩

theorem SemaOnly.refl (k : Kernel) : SemaOnly k k := ⟨_, _, _, _, _, _, rfl⟩

theorem DonationOnly.refl (k : Kernel) : DonationOnly k k := ⟨_, _, _, _, rfl⟩

theorem SchedOnly.trans (h₁ : SchedOnly k₁ k₂) (h₂ : SchedOnly k₂ k₃) : SchedOnly k₁ k₃ := by
  rcases h₁ with ⟨_, _, _, _, rfl⟩
  rcases h₂ with ⟨_, _, _, _, rfl⟩
  exact ⟨_, _, _, _, rfl⟩

theorem SemaOnly.trans (h₁ : SemaOnly k₁ k₂) (h₂ : SemaOnly k₂ k₃) : SemaOnly k₁ k₃ := by
  rcases h₁ with ⟨_, _, _, _, _, _, rfl⟩
  rcases h₂ with ⟨_, _, _, _, _, _, rfl⟩
  exact ⟨_, _, _, _, _, _, rfl⟩

theorem DonationOnly.trans (h₁ : DonationOnly k₁ k₂) (h₂ : DonationOnly k₂ k₃) :
    DonationOnly k₁ k₃ := by
  rcases h₁ with ⟨_, _, _, _, rfl⟩
  rcases h₂ with ⟨_, _, _, _, rfl⟩
  exact ⟨_, _, _, _, rfl⟩

theorem SchedOnly.semaOnly (h : SchedOnly k k') : SemaOnly k k' := by
  rcases h with ⟨_, _, _, _, rfl⟩
  exact ⟨_, _, _, _, _, _, rfl⟩

/-! ## Switching threads -/

theorem threadBlock_footprint (h : threadBlock k = .ok k') : SchedOnly k k' := by
  rcases threadBlock_eq_ok.1 h with ⟨-, t, rest, -, rfl⟩
  exact ⟨_, _, _, _, rfl⟩

theorem threadYield_footprint (h : threadYield k = .ok k') : SchedOnly k k' := by
  rcases threadYield_eq_ok.1 h with ⟨-, t, rest, -, rfl⟩
  exact ⟨_, _, _, _, rfl⟩

theorem stealRunningByPriority_footprint (h : stealRunningByPriority k = .ok k') :
    SchedOnly k k' := by
  rcases stealRunningByPriority_eq_ok.1 h with ⟨-, hy⟩ | ⟨-, rfl⟩
  · exact threadYield_footprint hy
  · exact .refl _

/-! ## The timer interrupt -/

theorem awakeLoop_footprint {now : Int} {ts : List ThreadPtr} (h : awakeLoop now ts k = .ok k') :
    ∃ status readyList sleepingList,
      k' = { k with status := status, readyList := readyList, sleepingList := sleepingList } := by
  induction ts generalizing k with
  | nil =>
      cases h
      exact ⟨_, _, _, rfl⟩
  | cons t ts ih =>
      unfold awakeLoop at h
      split at h
      · rcases bind_eq_ok.1 h with ⟨k₁, hu, h⟩
        rcases threadUnblock_eq_ok.1 hu with ⟨-, rfl⟩
        rcases ih h with ⟨_, _, _, rfl⟩
        exact ⟨_, _, _, rfl⟩
      · exact ih h

theorem timerInterrupt_footprint (h : timerInterrupt k = .ok k') : TickOnly k k' := by
  rcases timerInterrupt_eq_ok.1 h with ⟨k₁, ha, hy⟩
  rcases awakeLoop_footprint ha with ⟨_, _, _, rfl⟩
  rcases hy with ⟨-, hy⟩ | ⟨-, rfl⟩
  · rcases threadYield_footprint hy with ⟨_, _, _, _, rfl⟩
    exact ⟨_, _, _, _, _, _, _, _, rfl⟩
  · exact ⟨_, _, _, _, _, _, _, _, rfl⟩

/-! ## Semaphores -/

theorem semaDownTurn_footprint {s : SemaPtr} {got : Bool}
    (h : semaDownTurn k s = .ok (k', got)) : SemaOnly k k' := by
  rcases semaDownTurn_eq_ok.1 h with ⟨-, -, hb⟩ | ⟨-, -, rfl⟩
  · have hq : SemaOnly k (k.queued s) := ⟨_, _, _, _, _, _, rfl⟩
    exact hq.trans (threadBlock_footprint hb).semaOnly
  · exact ⟨_, _, _, _, _, _, rfl⟩

theorem semaDown_footprint {s : SemaPtr} {got : Bool} (h : semaDown k s = .ok (k', got)) :
    SemaOnly k k' :=
  semaDownTurn_footprint (semaDown_eq_ok.1 h).2

theorem semaTryDown_footprint (k : Kernel) (s : SemaPtr) : SemaOnly k (semaTryDown k s).1 := by
  unfold semaTryDown
  split
  · exact ⟨_, _, _, _, _, _, rfl⟩
  · exact .refl _

theorem semaWake_footprint {s : SemaPtr} (h : semaWake k s = .ok k') : SemaOnly k k' := by
  rcases semaWake_eq_ok.1 h with ⟨-, rfl⟩ | ⟨t, rest, -, -, rfl⟩
  · exact .refl _
  · exact ⟨_, _, _, _, _, _, rfl⟩

theorem semaUp_footprint {s : SemaPtr} (h : semaUp k s = .ok k') : SemaOnly k k' := by
  rcases semaUp_eq_ok.1 h with ⟨k₁, hw, hs⟩
  have hr : SemaOnly k₁ (k₁.raised s) := ⟨_, _, _, _, _, _, rfl⟩
  exact ((semaWake_footprint hw).trans hr).trans (stealRunningByPriority_footprint hs).semaOnly

/-! ## The bookkeeping of locks -/

theorem donateLoop_footprint {n : Nat} {h : ThreadPtr} (hd : donateLoop n k h = .ok k') :
    ∃ priority, k' = { k with priority := priority } := by
  induction n generalizing k h with
  | zero =>
      cases hd
  | succ n ih =>
      unfold donateLoop at hd
      split at hd
      · cases hd
        exact ⟨_, rfl⟩
      · split at hd
        · cases hd
        · rcases ih hd with ⟨p, rfl⟩
          exact ⟨_, rfl⟩

theorem donatePriority_footprint (hd : donatePriority k = .ok k') :
    ∃ priority, k' = { k with priority := priority } := by
  unfold donatePriority at hd
  split at hd
  · cases hd
  · split at hd
    · cases hd
    · rcases donateLoop_footprint hd with ⟨p, rfl⟩
      exact ⟨_, rfl⟩

theorem lockDonate_footprint {l : LockPtr} (hd : lockDonate k l = .ok k') :
    ∃ priority waitingLock donations,
      k' = { k with priority := priority, waitingLock := waitingLock, donations := donations } := by
  unfold lockDonate at hd
  split at hd
  · cases hd
    exact ⟨_, _, _, rfl⟩
  · rcases donatePriority_footprint hd with ⟨p, rfl⟩
    exact ⟨_, _, _, rfl⟩

theorem removeLoop_footprint (l : LockPtr) (ts : List ThreadPtr) (k : Kernel) :
    ∃ waitingLock donations,
      removeLoop l ts k = { k with waitingLock := waitingLock, donations := donations } := by
  induction ts generalizing k with
  | nil =>
      exact ⟨_, _, rfl⟩
  | cons t ts ih =>
      unfold removeLoop
      split
      · rcases ih { k with
            waitingLock := update k.waitingLock t none
            donations := update k.donations k.running ((k.donations k.running).erase t) } with
          ⟨w, d, hw⟩
        exact ⟨w, d, hw⟩
      · exact ih k

theorem resetPriority_footprint (k : Kernel) :
    ∃ priority donations,
      resetPriority k = { k with priority := priority, donations := donations } := by
  simp only [resetPriority]
  split
  · exact ⟨_, _, rfl⟩
  · split
    · exact ⟨_, _, rfl⟩
    · exact ⟨_, _, rfl⟩

/-- `reset_priority` writes the priority of its caller only. -/
theorem resetPriority_other {t : ThreadPtr} (ht : t ≠ k.running) :
    (resetPriority k).priority t = k.priority t := by
  simp only [resetPriority]
  split
  · exact update_of_ne ht _ _
  · split
    · exact (update_of_ne ht _ _).trans (update_of_ne ht _ _)
    · exact update_of_ne ht _ _

theorem released_footprint (k : Kernel) (l : LockPtr) :
    ∃ priority waitingLock donations,
      k.released l = { k with
        priority := priority, waitingLock := waitingLock, donations := donations,
        holder := update k.holder l none } := by
  rcases removeLoop_footprint l (k.donations k.running)
    { k with holder := update k.holder l none } with ⟨w, d, hrem⟩
  have hrem' : removeLock { k with holder := update k.holder l none } l =
      { k with holder := update k.holder l none, waitingLock := w, donations := d } := hrem
  unfold Kernel.released
  rw [hrem']
  rcases resetPriority_footprint
    { k with holder := update k.holder l none, waitingLock := w, donations := d } with ⟨p, d', hres⟩
  rw [hres]
  exact ⟨p, w, d', rfl⟩

/-- `lock_release` changes nobody else's priority before its `sema_up`. -/
theorem released_other {l : LockPtr} {t : ThreadPtr} (ht : t ≠ k.running) :
    (k.released l).priority t = k.priority t := by
  rcases removeLoop_footprint l (k.donations k.running)
    { k with holder := update k.holder l none } with ⟨w, d, hrem⟩
  have hrem' : removeLock { k with holder := update k.holder l none } l =
      { k with holder := update k.holder l none, waitingLock := w, donations := d } := hrem
  unfold Kernel.released
  rw [hrem']
  exact @resetPriority_other
    { k with holder := update k.holder l none, waitingLock := w, donations := d } t ht

/-- A statement of the locks' functions writes the members of one footprint only. -/
theorem LockStmt.run_footprint {st : LockStmt} {next : List LockStmt}
    (h : st.run k = .ok (k', next)) : DonationOnly k k' := by
  cases st with
  | acquireTest l =>
      simp only [LockStmt.run] at h
      split at h <;> cases h <;> exact .refl _
  | insertDonation l =>
      simp only [LockStmt.run] at h
      split at h <;> cases h
      exact ⟨_, _, _, _, rfl⟩
  | donateFirst =>
      simp only [LockStmt.run] at h
      split at h <;> cases h
      exact .refl _
  | donateSet e =>
      cases e with
      | none =>
          cases h
      | some t =>
          cases h
          exact ⟨_, _, _, _, rfl⟩
  | donateTest t =>
      simp only [LockStmt.run] at h
      split at h <;> cases h <;> exact .refl _
  | donateNext t =>
      simp only [LockStmt.run] at h
      split at h <;> cases h
      exact .refl _
  | removeTest l e =>
      cases e with
      | none =>
          cases h
          exact .refl _
      | some t =>
          simp only [LockStmt.run] at h
          split at h <;> cases h <;> exact .refl _
  | resetTest =>
      simp only [LockStmt.run] at h
      split at h <;> cases h <;> exact .refl _
  | resetRead =>
      simp only [LockStmt.run] at h
      split at h <;> cases h
      exact .refl _
  | resetRaise p =>
      simp only [LockStmt.run] at h
      split at h <;> cases h
      · exact ⟨_, _, _, _, rfl⟩
      · exact .refl _
  | _ =>
      cases h
      exact ⟨_, _, _, _, rfl⟩

/-- Only `setHolder` and `clearHolder` write `lock->holder`. -/
theorem LockStmt.run_holder {st : LockStmt} {next : List LockStmt}
    (h : st.run k = .ok (k', next)) (hset : ∀ l, st ≠ .setHolder l)
    (hclear : ∀ l, st ≠ .clearHolder l) : k'.holder = k.holder := by
  cases st with
  | setHolder l =>
      exact absurd rfl (hset l)
  | clearHolder l =>
      exact absurd rfl (hclear l)
  | donateSet e =>
      cases e <;> cases h
      rfl
  | removeTest l e =>
      cases e with
      | none =>
          cases h
          rfl
      | some t =>
          simp only [LockStmt.run] at h
          split at h <;> cases h <;> rfl
  | setWaiting | clearWaiting | removeBegin | removeClear | removeUnlink | removeNext
  | resetInit | resetSort =>
      cases h
      rfl
  | _ =>
      simp only [LockStmt.run] at h
      split at h <;> cases h <;> rfl

end Project2
end Pintos
