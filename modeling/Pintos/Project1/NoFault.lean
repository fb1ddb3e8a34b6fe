import Pintos.Project1.Alarm
import Pintos.Project1.Progress

/-!
# NoFault — no assertion of project 1's kernel fails

Once the idle thread is known there is always a thread to switch to, a thread that is unblocked is
blocked, and the walk of `thread_awake` ends.  So whatever the running thread may do goes through,
but for a page that is not free.
-/

namespace Pintos
namespace Project1

open Lib Function
open Project2 (ThreadPtr Fault initialThread PRI_MIN PRI_MAX)

section Kernel

variable {k k' : Kernel}

theorem exists_next (h : k.idleThread ≠ none) : ∃ t rest, Next k t rest := by
  cases hready : k.readyList with
  | cons t rest =>
      exact ⟨t, rest, Or.inr hready⟩
  | nil =>
      obtain ⟨i, hi⟩ := Option.ne_none_iff_exists'.1 h
      exact ⟨i, [], Or.inl ⟨hready, rfl, hi⟩⟩

theorem threadBlock_ok (hi : k.intrContext = false) (hidle : k.idleThread ≠ none) :
    ∃ k', threadBlock k = .ok k' := by
  have hidle' : k.blocked.idleThread ≠ none := hidle
  obtain ⟨t, rest, hn⟩ := exists_next hidle'
  exact ⟨_, threadBlock_eq_ok.2 ⟨hi, t, rest, hn, rfl⟩⟩

theorem threadExit_ok (hi : k.intrContext = false) (hidle : k.idleThread ≠ none) :
    ∃ k', threadExit k = .ok k' := by
  have hidle' : k.exiting.idleThread ≠ none := hidle
  obtain ⟨t, rest, hn⟩ := exists_next hidle'
  exact ⟨_, threadExit_eq_ok.2 ⟨hi, t, rest, hn, rfl⟩⟩

theorem threadUnblock_ok {t : ThreadPtr} (h : k.status t = .blocked) :
    ∃ k', threadUnblock k t = .ok k' := ⟨_, threadUnblock_eq_ok.2 ⟨h, rfl⟩⟩

/-- The page of the new thread is free, or it is not. -/
theorem threadCreate_cases {t : ThreadPtr} {p : Int} (hp : PRI_MIN ≤ p ∧ p ≤ PRI_MAX) :
    (∃ k', threadCreate k t p = .ok k') ∨ threadCreate k t p = .error .pageInUse := by
  by_cases ht : t ∉ k.allList ∧ t ≠ initialThread
  · exact Or.inl ⟨_, threadCreate_eq_ok.2 ⟨ht, hp, rfl⟩⟩
  · right
    rw [threadCreate, Project2.assert, if_neg ht]
    rfl

end Kernel

section Steps

variable {σ : System} {a : Act}

/-- The call comes back, or asks for a page that is in use. -/
def GoesThrough (x : Except Fault System) : Prop :=
  (∃ σ', x = .ok σ') ∨ x = .error .pageInUse

theorem GoesThrough.of_bind {x : Except Fault Kernel} {f : Kernel → System}
    (h : (∃ k, x = .ok k) ∨ x = .error .pageInUse) :
    GoesThrough (x.bind fun k => .ok (f k)) := by
  rcases h with ⟨k, rfl⟩ | rfl
  · exact Or.inl ⟨f k, rfl⟩
  · exact Or.inr rfl

/-- What the comments in `thread.c` ask of the callers: only a blocked thread is unblocked, and a
new thread has a priority. -/
def Act.Proper (a : Act) (σ : System) : Prop :=
  (∀ t, a = .threadUnblock t → σ.kernel.status t = .blocked) ∧
    ∀ t p, a = .threadCreate t p → PRI_MIN ≤ p ∧ p ≤ PRI_MAX

theorem Settled.exec_goesThrough (h : Settled σ) (hidle : σ.kernel.idleThread ≠ none) :
    GoesThrough σ.exec := by
  unfold System.exec
  cases hpc : σ.pc σ.kernel.running with
  | own | asleep | setIdle | idleUp =>
      exact Or.inl ⟨_, rfl⟩
  | threadStart i =>
      exact .of_bind (threadCreate_cases (by decide))
  | creating t =>
      -- nobody else has unblocked the new thread
      exact .of_bind (Or.inl (threadUnblock_ok (h.places.embryo _ t hpc).1))
  | sleepUntil d =>
      have hsleep : ∃ k', sleepUntil σ.kernel d = .ok k' := threadBlock_ok h.interrupts hidle
      exact .of_bind (Or.inl hsleep)
  | idleLoop =>
      exact .of_bind (Or.inl (threadBlock_ok h.interrupts hidle))

theorem Settled.run_goesThrough (h : Settled σ) (hidle : σ.kernel.idleThread ≠ none)
    (ha : a.Proper σ) : GoesThrough (σ.run a) := by
  cases a with
  | timerSleep n =>
      exact Or.inl ⟨_, rfl⟩
  | threadYield =>
      exact .of_bind (Or.inl (threadYield_ok h.interrupts))
  | threadBlock =>
      exact .of_bind (Or.inl (threadBlock_ok h.interrupts hidle))
  | threadUnblock t =>
      exact .of_bind (Or.inl (threadUnblock_ok (ha.1 t rfl)))
  | threadCreate t p =>
      exact .of_bind (threadCreate_cases (ha.2 t p rfl))
  | threadExit =>
      exact .of_bind (Or.inl (threadExit_ok h.interrupts hidle))
  | exec =>
      exact h.exec_goesThrough hidle
  | tick =>
      exact Or.inl ⟨_, h.run_tick⟩

theorem Settled.resume_goesThrough (h : Settled σ) (r : Return) : GoesThrough (σ.resume r) := by
  cases r with
  | blocked =>
      exact Or.inl ⟨_, rfl⟩
  | interrupted =>
      exact .of_bind (Or.inl (threadYield_ok h.interrupts))

theorem settled_of_exec {idle : ThreadPtr} {tr : List (System × Act)}
    (h : Exec step (boot idle) tr σ) (hu : ∀ e ∈ tr, UnblockOk e.1 e.2) : Settled σ :=
  (h.invariant (I := Settled) (boot_settled idle) (fun _ _ _ hI hP hs => hI.step hP hs) hu).2

/-- From the moment the idle thread is known, whatever the running thread does and the timer
interrupt go through, if the callers keep to the comments. -/
theorem calls_go_through {idle : ThreadPtr} {tr : List (System × Act)}
    (h : Exec step (boot idle) tr σ) (hu : ∀ e ∈ tr, UnblockOk e.1 e.2)
    (hidle : σ.kernel.idleThread ≠ none) :
    (∀ r, σ.pending σ.kernel.running = some r → GoesThrough (σ.resume r)) ∧
      ∀ a, a.Proper σ → GoesThrough (σ.run a) := by
  have hset := settled_of_exec h hu
  exact ⟨fun r _ => hset.resume_goesThrough r, fun a ha => hset.run_goesThrough hidle ha⟩

/-- While the initial thread sleeps the idle thread runs, and it blocks again. -/
theorem calls_go_through_nap : GoesThrough (napSystem.run .exec) := by
  have hrun : Exec step (boot 1) (trace step napActs (boot 1)) napSystem :=
    Exec.of_runAll (Option.some_get _).symm
  have huse : ∀ e ∈ trace step napActs (boot 1), AlarmUse e.1 e.2 := by decide +kernel
  refine (calls_go_through hrun (fun e he => (huse e he).1) (by decide +kernel)).2 .exec ⟨?_, ?_⟩
  · intro t ht
    cases ht
  · intro t p hp
    cases hp

end Steps

end Project1
end Pintos
