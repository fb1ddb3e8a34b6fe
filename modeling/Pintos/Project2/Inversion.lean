import Pintos.Project2.Donation
import Pintos.Project2.Preemption
import Mathlib.Logic.Relation

/-!
# Inversion — what priority donation is for

A thread of high priority that waits for a lock is held up by the holder, and by whoever holds up
the holder.  In the runs whose steps meet the conditions of `Donation` and of `Preemption` all of
them have its priority at least, so nobody of lower priority runs before one of them that is ready.
-/

namespace Pintos
namespace Project2

open Lib Relation

/-- `u` holds the lock on which `t` is blocked. -/
def System.HeldUpBy (σ : System) (t u : ThreadPtr) : Prop :=
  ∃ l, σ.BlockedIn l t ∧ σ.kernel.holder l = some u

/-- The step meets the conditions of both. -/
def InversionUse (order : Kernel → ThreadPtr → ThreadPtr → Bool) (σ : System) (a : Act) : Prop :=
  DonationUse σ a ∧ ScheduleUse σ a ∧ Preempts order σ a

instance instDecidableInversionUse (order : Kernel → ThreadPtr → ThreadPtr → Bool) (σ : System)
    (a : Act) : Decidable (InversionUse order σ a) :=
  inferInstanceAs (Decidable (_ ∧ _ ∧ _))

section Runs

variable {σ : System} {order : Kernel → ThreadPtr → ThreadPtr → Bool} {t u : ThreadPtr}

theorem Linked.priority_le (h : Linked σ) (hd : ∀ t, DonatedAt σ.kernel t) (hu : σ.HeldUpBy t u) :
    σ.kernel.priority t ≤ σ.kernel.priority u := by
  obtain ⟨l, hb, hl⟩ := hu
  exact (hd u).waits_le t ⟨l, hl, h.coarse.settled.blockedIn_iff.1 hb⟩

/-- Donation goes along the whole way. -/
theorem Linked.priority_le_of_way (h : Linked σ) (hd : ∀ t, DonatedAt σ.kernel t)
    (hu : ReflTransGen σ.HeldUpBy t u) : σ.kernel.priority t ≤ σ.kernel.priority u := by
  induction hu with
  | refl =>
      exact le_rfl
  | tail _ hstep ih =>
      exact ih.trans (h.priority_le hd hstep)

theorem topRuns_of_reach {init : Nat → Fin unsignedSize} {idle : ThreadPtr}
    (h : Reach (step ⟨.calls, order⟩) (InversionUse order) (boot init idle) σ) :
    Scheduled σ ∧ σ.kernel.TopRuns := by
  refine @Reach.invariant _ _ _ _ _ _ (fun σ => Scheduled σ ∧ σ.kernel.TopRuns)
    ⟨boot_scheduled init idle, fun t ht => ?_⟩ ?_ h
  · cases ht
  · rintro σ a σ' ⟨hi, htop⟩ ⟨-, ha, hp⟩ hs
    obtain ⟨hturn, hd⟩ := hi.turn ha hs
    exact ⟨hi.step ha hs, (hturn.topRuns_iff hd htop).1 hp⟩

/-- Whoever is ready or running on the way from a blocked thread along the holders, a thread of at
least the blocked thread's priority runs. -/
theorem no_priority_inversion {init : Nat → Fin unsignedSize} {idle : ThreadPtr}
    (h : Reach (step ⟨.calls, order⟩) (InversionUse order) (boot init idle) σ)
    (hu : ReflTransGen σ.HeldUpBy t u) (hr : u = σ.kernel.running ∨ u ∈ σ.kernel.readyList) :
    σ.kernel.priority t ≤ σ.kernel.priority σ.kernel.running := by
  obtain ⟨hl, hd⟩ := donated_of_reach (h.mono fun _ _ ha => ha.1)
  have hle := hl.priority_le_of_way hd hu
  rcases hr with rfl | hready
  · exact hle
  · exact hle.trans ((topRuns_of_reach h).2 u hready)

/-- In `chainSystem` thread 3 is held up by thread 2, and that one by the initial thread. -/
theorem no_priority_inversion_chain :
    chainSystem.kernel.priority 3 ≤ chainSystem.kernel.priority chainSystem.kernel.running := by
  have hrun : Exec (step .calls) (boot allZero 1) (trace (step .calls) chainActs (boot allZero 1))
      chainSystem := Exec.of_runAll (Option.some_get _).symm
  have hreach : Reach (step .calls) (InversionUse compareSema) (boot allZero 1) chainSystem :=
    hrun.reach (by decide +kernel)
  have hfirst : chainSystem.HeldUpBy 3 2 :=
    ⟨.lock 1, awaited_eq_some.1 (by decide +kernel), by decide +kernel⟩
  have hsecond : chainSystem.HeldUpBy 2 0 :=
    ⟨.lock 0, awaited_eq_some.1 (by decide +kernel), by decide +kernel⟩
  exact no_priority_inversion hreach (.tail (.single hfirst) hsecond) (Or.inl (by decide +kernel))

end Runs

end Project2
end Pintos
