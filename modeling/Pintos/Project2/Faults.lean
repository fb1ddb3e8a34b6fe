import Pintos.Project2.Synch

/-!
# Faults — the ways each function can fail
-/

namespace Pintos
namespace Project2

open Lib

/-- The assertions of `schedule` and of the functions that call it. -/
def Fault.isSched : Fault → Bool
  | .stillRunning | .notThread | .intrContext => true
  | _ => false

variable {k : Kernel} {e : Fault} {s : SemaPtr} {l : LockPtr}

/-! ## Scheduling -/

theorem schedule_fault (h : schedule k = .error e) : e.isSched = true := by
  rcases bind_eq_error.1 h with h | ⟨_, -, h⟩
  · rw [← (assert_eq_error.1 h).2]
    rfl
  · split at h <;> cases h
    rfl

theorem threadBlock_fault (h : threadBlock k = .error e) : e.isSched = true := by
  rcases bind_eq_error.1 h with h | ⟨_, -, h⟩
  · rw [← (assert_eq_error.1 h).2]
    rfl
  · exact schedule_fault h

theorem threadYield_fault (h : threadYield k = .error e) : e.isSched = true := by
  rcases bind_eq_error.1 h with h | ⟨_, -, h⟩
  · rw [← (assert_eq_error.1 h).2]
    rfl
  · exact schedule_fault h

theorem threadExit_fault (h : threadExit k = .error e) : e.isSched = true := by
  rcases bind_eq_error.1 h with h | ⟨_, -, h⟩
  · rw [← (assert_eq_error.1 h).2]
    rfl
  · exact schedule_fault h

theorem stealRunningByPriority_fault (h : stealRunningByPriority k = .error e) :
    e.isSched = true := by
  unfold stealRunningByPriority at h
  split at h
  · cases h
  · split at h
    · exact threadYield_fault h
    · cases h

theorem threadUnblock_fault {t : ThreadPtr} (h : threadUnblock k t = .error e) :
    e = .notBlocked ∧ k.status t ≠ .blocked := by
  rcases bind_eq_error.1 h with h | ⟨_, -, h⟩
  · obtain ⟨hs, he⟩ := assert_eq_error.1 h
    exact ⟨he.symm, hs⟩
  · cases h

/-! ## Semaphores -/

theorem semaDownTurn_fault (h : semaDownTurn k s = .error e) : e.isSched = true := by
  unfold semaDownTurn at h
  split at h
  · rcases bind_eq_error.1 h with h | ⟨_, -, h⟩
    · exact threadBlock_fault h
    · cases h
  · cases h

theorem semaDown_fault (h : semaDown k s = .error e) : e.isSched = true := by
  rcases bind_eq_error.1 h with h | ⟨_, -, h⟩
  · rw [← (assert_eq_error.1 h).2]
    rfl
  · exact semaDownTurn_fault h

theorem semaUp_fault (h : semaUp k s = .error e) :
    (e = .notBlocked ∧ ∃ t ∈ k.waiters s, k.status t ≠ .blocked) ∨ e.isSched = true := by
  rcases bind_eq_error.1 h with hw | ⟨k₁, -, hs⟩
  · unfold semaWake at hw
    split at hw
    · cases hw
    · rename_i t rest hsort
      obtain ⟨he, hst⟩ := threadUnblock_fault hw
      exact Or.inl ⟨he, t, mem_of_sort_eq_cons hsort, hst⟩
  · exact Or.inr (stealRunningByPriority_fault hs)

theorem condSignal_fault {order : Kernel → ThreadPtr → ThreadPtr → Bool} {c : CondPtr}
    (h : condSignal order k c l = .error e) :
    (e = .notBlocked ∧ ∃ w, ∃ t ∈ k.waiters (.waiter w), k.status t ≠ .blocked) ∨
      e.isSched = true ∨ e = .lockNotHeld := by
  rcases bind_eq_error.1 h with h | ⟨_, -, h⟩
  · rw [← (assert_eq_error.1 h).2]
    exact Or.inr (Or.inl rfl)
  · rcases bind_eq_error.1 h with h | ⟨_, -, h⟩
    · exact Or.inr (Or.inr (assert_eq_error.1 h).2.symm)
    · split at h
      · cases h
      · rename_i w rest hsort
        rcases semaUp_fault h with ⟨he, t, ht, hst⟩ | he
        · exact Or.inl ⟨he, w, t, ht, hst⟩
        · exact Or.inr (Or.inl he)

/-! ## Locks -/

theorem donateLoop_fault {n : Nat} {h : ThreadPtr} (hd : donateLoop n k h = .error e) :
    e = .nullPointer ∨ e = .diverges := by
  induction n generalizing k h with
  | zero =>
      cases hd
      exact Or.inr rfl
  | succ n ih =>
      unfold donateLoop at hd
      split at hd
      · cases hd
      · split at hd
        · cases hd
          exact Or.inl rfl
        · exact ih hd

theorem lockDonate_fault (h : lockDonate k l = .error e) : e = .nullPointer ∨ e = .diverges := by
  unfold lockDonate donatePriority at h
  split at h
  · cases h
  · split at h
    · cases h
      exact Or.inl rfl
    · split at h
      · cases h
        exact Or.inl rfl
      · exact donateLoop_fault h

theorem lockAcquire_fault (h : lockAcquire k l = .error e) :
    e.isSched = true ∨ (e = .lockHeld ∧ k.holder l = some k.running) ∨
      lockDonate k l = .error e := by
  rcases bind_eq_error.1 h with h | ⟨_, -, h⟩
  · rw [← (assert_eq_error.1 h).2]
    exact Or.inl rfl
  · rcases bind_eq_error.1 h with h | ⟨_, -, h⟩
    · obtain ⟨hh, he⟩ := assert_eq_error.1 h
      exact Or.inr (Or.inl ⟨he.symm, not_not.1 hh⟩)
    · rcases bind_eq_error.1 h with h | ⟨k₁, -, h⟩
      · exact Or.inr (Or.inr h)
      · rcases bind_eq_error.1 h with h | ⟨⟨k₂, got⟩, -, h⟩
        · exact Or.inl (semaDown_fault h)
        · cases got <;> cases h

theorem stmt_fault {st : LockStmt} (h : st.run k = .error e) : e = .nullPointer := by
  cases st with
  | donateSet e' =>
      cases e' <;> cases h
      rfl
  | removeTest l e' =>
      cases e' with
      | none => cases h
      | some t =>
          simp only [LockStmt.run] at h
          split at h <;> cases h
  | setWaiting | clearWaiting | setHolder | clearHolder | removeBegin | removeClear
  | removeUnlink | removeNext | resetInit | resetSort => cases h
  | acquireTest | donateTest | resetTest | resetRaise =>
      simp only [LockStmt.run] at h
      split at h <;> cases h
  | _ =>
      simp only [LockStmt.run] at h
      split at h <;> cases h
      rfl

end Project2
end Pintos
