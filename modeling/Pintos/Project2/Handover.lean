import Pintos.Project2.Links
import Pintos.Project2.Semaphores

/-!
# Handover — donation when a lock changes hands

`thread.h` says of `waiting_lock`: "Lock the thread is waiting for".  `remove_lock` clears it for
every thread that waits for the released lock, but `sema_up` wakes only one of them, and nothing
links the others to the next holder.  So donation survives exactly the runs in which no thread
takes a lock that others are queued on, and no woken waiter blocks again.
-/

namespace Pintos
namespace Project2

open Lib Function

/-! ## The property and its condition -/

/-- The thread is blocked inside `lock_acquire`. -/
def System.BlockedIn (σ : System) (l : LockPtr) (t : ThreadPtr) : Prop :=
  σ.kernel.status t = .blocked ∧ σ.InDown (.ofLock l) t

/-- Whoever is blocked on a lock that has a holder waits for it and is a donor of the holder. -/
def System.KeepsDonors (σ : System) : Prop :=
  ∀ l t u, σ.BlockedIn l t → σ.kernel.holder l = some u →
    σ.kernel.waitingLock t = some l ∧ t ∈ σ.kernel.donations u

/-- The operation leaves nobody queued behind a new holder. -/
def BookOp.HandsOver (k : Kernel) : BookOp → Prop
  | take l => k.lockWaiters l = []
  | requeue _ => False
  | keep | wait _ | release _ | create _ _ | setPriority _ => True

instance instDecidableHandsOver (k : Kernel) : (op : BookOp) → Decidable (op.HandsOver k)
  | .take l => inferInstanceAs (Decidable (k.lockWaiters l = []))
  | .requeue _ => .isFalse not_false
  | .keep | .wait _ | .release _ | .create _ _ | .setPriority _ => .isTrue trivial

/-- The step takes a lock only when nobody is queued on it, and is not the retry of a woken waiter
that finds the lock taken. -/
def HandsOver (σ : System) (a : Act) : Prop :=
  (σ.bookOp a).HandsOver σ.kernel

instance instDecidableHandsOverStep (σ : System) (a : Act) : Decidable (HandsOver σ a) :=
  instDecidableHandsOver σ.kernel (σ.bookOp a)

/-! ## What an operation does to it -/

/-- `KeepsDonors`, as a property of the kernel. -/
def Kernel.KeepsDonors (k : Kernel) : Prop :=
  ∀ l t u, t ∈ k.lockWaiters l → k.holder l = some u →
    k.waitingLock t = some l ∧ t ∈ k.donations u

variable {k k' : Kernel} {l : LockPtr} {σ σ' : System}
  {order : Kernel → ThreadPtr → ThreadPtr → Bool}

theorem Settled.blockedIn_iff (h : Settled σ) {t : ThreadPtr} :
    σ.BlockedIn l t ↔ t ∈ σ.kernel.lockWaiters l := by
  constructor
  · rintro ⟨hb, hd⟩
    exact (h.blocked_iff_wait hd).1 hb
  · intro hw
    have hd := h.inDown_of_wait hw
    exact ⟨(h.blocked_iff_wait hd).2 hw, hd⟩

theorem Settled.keepsDonors_iff (h : Settled σ) : σ.KeepsDonors ↔ σ.kernel.KeepsDonors := by
  unfold System.KeepsDonors Kernel.KeepsDonors
  simp only [h.blockedIn_iff]

/-- The links say who the donors are. -/
theorem Links.keepsDonors_iff (h : Links k) :
    k.KeepsDonors ↔
      ∀ l t u, t ∈ k.lockWaiters l → k.holder l = some u → k.waitingLock t = some l := by
  constructor
  · intro hq l t u ht hu
    exact (hq l t u ht hu).1
  · intro hq l t u ht hu
    have hw := hq l t u ht hu
    obtain ⟨v, hv, hm, -⟩ := h.linked t l hw
    rw [hu] at hv
    cases hv
    exact ⟨hw, hm⟩

/-- An operation keeps the donors exactly when it leaves nobody queued behind a new holder. -/
theorem Links.handsOver_iff {op : BookOp} (h : Links k) (hfree : k.waitingLock k.running = none)
    (hq : k.KeepsDonors) (hd : op.Does k k') : op.HandsOver k ↔ k'.KeepsDonors := by
  rw [(h.does hfree hd).keepsDonors_iff]
  have hold : ∀ l t u, t ∈ k.lockWaiters l → k.holder l = some u → k.waitingLock t = some l :=
    h.keepsDonors_iff.1 hq
  cases op with
  | keep =>
      rcases hd with ⟨hb, hw⟩
      refine iff_of_true trivial fun l t u ht hu => ?_
      rw [hw] at ht
      rw [hb.holder] at hu
      rw [hb.waitingLock]
      exact hold l t u ht hu
  | take l =>
      rcases hd with ⟨hl, hb, hw⟩
      have hwl : k'.waitingLock = k.waitingLock := by
        rw [hb.waitingLock]
        show update k.waitingLock k.running none = k.waitingLock
        rw [← hfree, update_eq_self]
      have hh : k'.holder = update k.holder l (some k.running) := hb.holder
      constructor
      · intro hempty m t u ht hu
        have hempty' : k.lockWaiters l = [] := hempty
        rw [hw] at ht
        have hne : m ≠ l := by
          rintro rfl
          rw [hempty'] at ht
          cases ht
        rw [hh, update_of_ne hne] at hu
        rw [hwl]
        exact hold m t u ht hu
      · intro hq'
        -- a queued thread would be linked to a lock that was free
        refine List.eq_nil_iff_forall_not_mem.2 fun t ht => ?_
        have hwait := hq' l t k.running (by rw [hw]; exact ht) (by rw [hh, update_self])
        rw [hwl] at hwait
        exact h.not_free hl t hwait
  | wait l =>
      rcases hd with ⟨⟨v, k₁, hl, hdon, hb⟩, ws, hp, hw⟩
      have hh : k'.holder = k.holder := by
        rcases donatePriority_footprint hdon with ⟨_, rfl⟩
        exact hb.holder
      have hwl : k'.waitingLock = update k.waitingLock k.running (some l) := by
        rcases donatePriority_footprint hdon with ⟨_, rfl⟩
        exact hb.waitingLock
      refine iff_of_true trivial fun m t u ht hu => ?_
      rw [hh] at hu
      rw [hw] at ht
      rw [hwl]
      have hbefore : t ∈ k.lockWaiters m →
          update k.waitingLock k.running (some l) t = some m := by
        intro hm
        have ht' := hold m t u hm hu
        have hne : t ≠ k.running := by
          rintro rfl
          rw [hfree] at ht'
          cases ht'
        rw [update_of_ne hne]
        exact ht'
      by_cases hm : m = l
      · subst hm
        rw [update_self] at ht
        rcases List.mem_cons.1 (hp.subset ht) with rfl | hm
        · exact update_self _ _ _
        · exact hbefore hm
      · rw [update_of_ne hm] at ht
        exact hbefore ht
  | requeue l =>
      rcases hd with ⟨⟨v, hl⟩, hb, ws, hp, hw⟩
      refine iff_of_false not_false fun hq' => ?_
      -- the thread that queues up again is not linked
      have hmem : k.running ∈ k'.lockWaiters l := by
        rw [hw, update_self]
        exact hp.symm.subset List.mem_cons_self
      have hwait := hq' l k.running v hmem (by rw [hb.holder]; exact hl)
      rw [hb.waitingLock, hfree] at hwait
      cases hwait
  | release l =>
      rcases hd with ⟨-, hb, ws, -, hw⟩
      refine iff_of_true trivial fun m t u ht hu => ?_
      rw [hb.holder, released_holder] at hu
      have hne : m ≠ l := by
        rintro rfl
        rw [update_self] at hu
        cases hu
      rw [hw, update_of_ne hne] at ht
      rw [update_of_ne hne] at hu
      have ht' := hold m t u ht hu
      rw [hb.waitingLock, released_waitingLock (h.nodup k.running), if_neg]
      · exact ht'
      · rintro ⟨-, he⟩
        rw [ht'] at he
        exact hne (by simpa using he)
  | create t p =>
      rcases hd with ⟨hnot, hb, hw⟩
      refine iff_of_true trivial fun m u v hu hv => ?_
      rw [hw] at hu
      rw [hb.holder] at hv
      have hne : u ≠ t := by
        rintro rfl
        exact (hnot m).2 hu
      rw [hb.waitingLock]
      show update k.waitingLock t none u = some m
      rw [update_of_ne hne]
      exact hold m u v hu hv
  | setPriority p =>
      rcases hd with ⟨hb, hw⟩
      refine iff_of_true trivial fun m t u ht hu => ?_
      have hres := resetPriority_footprint (k.prioritySet p)
      rw [hw] at ht
      rw [hb.holder] at hu
      rw [hb.waitingLock]
      rcases hres with ⟨_, _, he⟩
      rw [he] at hu ⊢
      exact hold m t u ht hu

/-! ## The property in runs -/

theorem boot_keepsDonors (init : Nat → Fin unsignedSize) (idle : ThreadPtr) :
    (boot init idle).KeepsDonors := by
  intro l t u _ hu
  cases hu

/-- A step keeps the property exactly when it meets the condition. -/
theorem Linked.handsOver_iff {a : Act} (h : Linked σ) (hq : σ.KeepsDonors) (hu : CallUse σ a)
    (hs : Project2.step ⟨.calls, order⟩ a σ = some σ') : HandsOver σ a ↔ σ'.KeepsDonors := by
  have hfree := h.links.running_free h.coarse.live
  have hdoes := h.coarse.step_bookOp hfree hs
  rw [(h.step hu hs).coarse.settled.keepsDonors_iff]
  exact h.links.handsOver_iff hfree (h.coarse.settled.keepsDonors_iff.1 hq) hdoes

/-- The donors of a lock's holder are the threads blocked on the lock throughout a run exactly
when every step of the run meets the condition. -/
theorem handover_iff {init : Nat → Fin unsignedSize} {idle : ThreadPtr}
    {tr : List (System × Act)} (h : Exec (step ⟨.calls, order⟩) (boot init idle) tr σ)
    (hu : ∀ e ∈ tr, CallUse e.1 e.2) :
    (∀ e ∈ tr, HandsOver e.1 e.2) ↔ (∀ e ∈ tr, e.1.KeepsDonors) ∧ σ.KeepsDonors :=
  Exec.forall_iff (boot_linked init idle) (boot_keepsDonors init idle)
    (fun _ _ _ hi ha hs => hi.step ha hs) (fun _ _ _ hi hq ha hs => hi.handsOver_iff hq ha hs) h hu

theorem handover_iff_donor :
    (∀ e ∈ trace (step .calls) donorActs (boot allZero 1), HandsOver e.1 e.2) ∧
      donorSystem.KeepsDonors := by
  have hrun : Exec (step .calls) (boot allZero 1) (trace (step .calls) donorActs (boot allZero 1))
      donorSystem := Exec.of_runAll (Option.some_get _).symm
  have hover : ∀ e ∈ trace (step .calls) donorActs (boot allZero 1), HandsOver e.1 e.2 := by
    decide +kernel
  exact ⟨hover, ((handover_iff hrun (by decide +kernel)).1 hover).2⟩

/-- Threads 2 and 3 block on lock 0.  Its holder releases it, thread 3 takes it over, and thread 2
goes on waiting. -/
def inheritActs : List Act :=
  bootActs ++ [.call (.lockAcquire 0), .exec] ++ createActs 2 40 ++ [.call (.lockAcquire 0), .exec]
    ++ createActs 3 41 ++ [.call (.lockAcquire 0), .exec, .call (.lockRelease 0), .exec, .exec]

def inheritSystem : System :=
  (runAll (step .calls) inheritActs (boot allZero 1)).get (by decide +kernel)

/-- The next holder does not inherit the donation of the thread that was not woken. -/
theorem handover_lost :
    ¬ ∀ σ, Reach (step .calls) CallUse (boot allZero 1) σ → σ.KeepsDonors := by
  intro hall
  have hrun : Exec (step .calls) (boot allZero 1)
      (trace (step .calls) inheritActs (boot allZero 1)) inheritSystem :=
    Exec.of_runAll (Option.some_get _).symm
  have hq := hall inheritSystem (hrun.reach (by decide +kernel))
  have hb : inheritSystem.BlockedIn (.lock 0) 2 := ⟨by decide +kernel, by decide +kernel⟩
  have hw := (hq (.lock 0) 2 3 hb (by decide +kernel)).1
  exact absurd hw (by decide +kernel)

end Project2
end Pintos
