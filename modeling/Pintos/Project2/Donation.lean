import Pintos.Project2.Handover
import Mathlib.Order.Bounds.Defs

/-!
# Donation — is `priority` the greatest priority on offer?

A thread is offered its initial priority and the priorities of the threads blocked on the locks it
holds.  The code keeps `priority` up to date piece by piece, and misses the maximum where

* `donate_priority` assigns its caller's priority, also to a holder with a higher one;
* `remove_lock` detaches threads that go on waiting, so that the next holder gets no donation;
* `reset_priority` sorts `donation_elem`s with `compare`, which reads another word.

`System.Offers` says of each operation when it stays clear of these.
-/

namespace Pintos
namespace Project2

open Lib Function

/-! ## What `donate_priority` and `reset_priority` write -/

section Bookkeeping

variable {k k' : Kernel} {n : Nat} {t u v : ThreadPtr} {l : LockPtr}

theorem Kernel.walk_congr (hw : k'.waitingLock = k.waitingLock) (hh : k'.holder = k.holder)
    (n : Nat) (t : ThreadPtr) : k'.walk n t = k.walk n t := by
  induction n generalizing t with
  | zero =>
      rfl
  | succ n ih =>
      have hd : k'.donee t = k.donee t := by simp only [Kernel.donee, hw, hh]
      unfold Kernel.walk
      rw [hd]
      cases k.donee t with
      | none => rfl
      | some u => simp only [ih]

theorem Kernel.walk_donatedTo (k : Kernel) (x : ThreadPtr) (n : Nat) (t : ThreadPtr) :
    (k.donatedTo x).walk n t = k.walk n t :=
  @Kernel.walk_congr k (k.donatedTo x) rfl rfl n t

@[simp] theorem Kernel.donatedTo_running (k : Kernel) (x : ThreadPtr) :
    (k.donatedTo x).priority k.running = k.priority k.running := by
  by_cases hr : k.running = x
  · simp [Kernel.donatedTo, hr]
  · simp [Kernel.donatedTo, hr]

/-- The loop gives everybody it comes to the priority of the running thread. -/
theorem donateLoop_walk (hd : donateLoop n k t = .ok k')
    (hp : k.priority t = k.priority k.running) (u : ThreadPtr) :
    k'.priority u = if u ∈ k.walk n t then k.priority k.running else k.priority u := by
  induction n generalizing k t with
  | zero =>
      cases hd
  | succ n ih =>
      unfold donateLoop at hd
      split at hd
      · rename_i hw
        have hdonee : k.donee t = none := by simp [Kernel.donee, hw]
        simp only [Kernel.walk, hdonee, List.mem_singleton]
        cases hd
        split
        · rename_i hu
          rw [hu, hp]
        · rfl
      · rename_i l hw
        split at hd
        · cases hd
        · rename_i x hx
          have hdonee : k.donee t = some x := Kernel.donee_eq_some.2 ⟨l, hw, hx⟩
          have hself : (k.donatedTo x).priority x = (k.donatedTo x).priority k.running := by
            rw [k.donatedTo_running]
            exact update_self _ _ _
          have hhead : x ∈ k.walk n x := by
            cases n with
            | zero => cases hd
            | succ n => exact List.mem_cons_self
          have hrest := ih hd hself
          rw [k.walk_donatedTo] at hrest
          rw [hrest]
          show (if u ∈ k.walk n x then (k.donatedTo x).priority k.running
            else (k.donatedTo x).priority u) = _
          rw [k.donatedTo_running]
          simp only [Kernel.walk, hdonee, List.mem_cons]
          by_cases hu : u ∈ k.walk n x
          · simp [hu]
          · have hne : u ≠ x := fun e => hu (e ▸ hhead)
            by_cases hut : u = t
            · subst hut
              simp [hu, hne, hp, Kernel.donatedTo]
            · simp [hu, hne, hut, Kernel.donatedTo]

/-- The walk of a loop that ends has the successors of its threads. -/
theorem donateLoop_closed (hd : donateLoop n k t = .ok k') (hu : u ∈ k.walk n t)
    (hv : k.donee u = some v) : v ∈ k.walk n t := by
  induction n generalizing k t with
  | zero =>
      cases hd
  | succ n ih =>
      unfold donateLoop at hd
      split at hd
      · rename_i hw
        have hdonee : k.donee t = none := by simp [Kernel.donee, hw]
        simp only [Kernel.walk, hdonee, List.mem_singleton] at hu
        rw [hu, hdonee] at hv
        cases hv
      · rename_i l hw
        split at hd
        · cases hd
        · rename_i x hx
          have hdonee : k.donee t = some x := Kernel.donee_eq_some.2 ⟨l, hw, hx⟩
          simp only [Kernel.walk, hdonee, List.mem_cons] at hu ⊢
          rcases hu with rfl | hu
          · rw [hdonee] at hv
            cases hv
            cases n with
            | zero => cases hd
            | succ n => exact Or.inr List.mem_cons_self
          · have hmem := ih hd (by rw [k.walk_donatedTo]; exact hu) hv
            rw [k.walk_donatedTo] at hmem
            exact Or.inr hmem

/-- The threads that `lock_acquire` donates to when the lock is held by `h`. -/
def Kernel.donees (k : Kernel) (l : LockPtr) (h : ThreadPtr) : List ThreadPtr :=
  (k.donating l h).walk (k.allList.length + 1) h

theorem donatePriority_donees {h : ThreadPtr} (hl : k.holder l = some h)
    (hd : donatePriority (k.donating l h) = .ok k') :
    (∀ u, k'.priority u =
        if u ∈ k.donees l h then k.priority k.running else k.priority u) ∧
      h ∈ k.donees l h ∧
      ∀ u v, u ∈ k.donees l h → (k.donating l h).donee u = some v → v ∈ k.donees l h := by
  have hwl : (k.donating l h).waitingLock (k.donating l h).running = some l := by
    simp [Kernel.donating]
  have hhl : (k.donating l h).holder l = some h := hl
  unfold donatePriority at hd
  simp only [hwl, hhl] at hd
  have hwalk : ((k.donating l h).donatedTo h).walk (k.allList.length + 1) h = k.donees l h :=
    Kernel.walk_donatedTo _ _ _ _
  refine ⟨fun u => ?_, List.mem_cons_self, fun u v hu hv => ?_⟩
  · have hself : ((k.donating l h).donatedTo h).priority h =
        ((k.donating l h).donatedTo h).priority k.running := by
      have hrun := (k.donating l h).donatedTo_running h
      exact (update_self _ _ _).trans hrun.symm
    have hrest := donateLoop_walk hd hself u
    have hrun : ((k.donating l h).donatedTo h).priority k.running = k.priority k.running :=
      (k.donating l h).donatedTo_running h
    rw [show ((k.donating l h).donatedTo h).running = k.running from rfl, hrun] at hrest
    rw [hrest]
    by_cases hu : u ∈ k.donees l h
    · have hu' : u ∈ ((k.donating l h).donatedTo h).walk (k.allList.length + 1) h := by
        rw [hwalk]
        exact hu
      exact (if_pos hu').trans (if_pos hu).symm
    · have hu' : u ∉ ((k.donating l h).donatedTo h).walk (k.allList.length + 1) h := by
        rw [hwalk]
        exact hu
      have hne : u ≠ h := by
        rintro rfl
        exact hu List.mem_cons_self
      refine (if_neg hu').trans (Eq.trans ?_ (if_neg hu).symm)
      exact update_of_ne hne _ _
  · have hmem := donateLoop_closed hd (hwalk ▸ hu) hv
    exact hwalk ▸ hmem

/-- No donor among `ds` has a greater word where `compare` looks for the priority. -/
def Kernel.SortsFirst (k : Kernel) (ds : List ThreadPtr) (d : ThreadPtr) : Prop :=
  ∀ e ∈ ds, donationWord k e ≤ donationWord k d

instance instDecidableSortsFirst (k : Kernel) (ds : List ThreadPtr) (d : ThreadPtr) :
    Decidable (k.SortsFirst ds d) :=
  inferInstanceAs (Decidable (∀ e ∈ ds, _))

/-- What `reset_priority` assigns, by the list that its sort leaves. -/
theorem resetPriority_sorted (hne : k.running ∉ k.donations k.running) :
    (k.donations k.running = [] ∧
        (resetPriority k).priority = update k.priority k.running (k.initPriority k.running)) ∨
      ∃ d ds, sort (compareDonation k) (k.donations k.running) = d :: ds ∧
        (resetPriority k).priority =
          update k.priority k.running (max (k.initPriority k.running) (k.priority d)) := by
  simp only [resetPriority]
  split
  · rename_i hs
    exact Or.inl ⟨sort_eq_nil.1 hs, rfl⟩
  · rename_i d ds hs
    -- `compare` does not read the priority that has just been reset
    have hsort : sort (compareDonation k) (k.donations k.running) = d :: ds := hs
    have hd : d ∈ k.donations k.running := mem_of_sort_eq_cons hsort
    have hdr : d ≠ k.running := fun e => hne (e ▸ hd)
    refine Or.inr ⟨d, ds, hsort, ?_⟩
    simp only [update_self, update_of_ne hdr]
    split
    · rename_i hlt
      rw [max_eq_right (le_of_lt hlt), update_idem]
    · rename_i hlt
      rw [max_eq_left (not_lt.1 hlt)]

theorem resetPriority_priority (hne : k.running ∉ k.donations k.running) :
    (k.donations k.running = [] ∧
        (resetPriority k).priority = update k.priority k.running (k.initPriority k.running)) ∨
      ∃ d ∈ k.donations k.running, k.SortsFirst (k.donations k.running) d ∧
        (resetPriority k).priority =
          update k.priority k.running (max (k.initPriority k.running) (k.priority d)) := by
  rcases resetPriority_sorted hne with h | ⟨d, ds, hs, hp⟩
  · exact Or.inl h
  · exact Or.inr ⟨d, mem_of_sort_eq_cons hs, fun e he => le_of_sort_eq_cons hs he, hp⟩

/-- The donors that the running thread keeps when it releases the lock. -/
def Kernel.donorsLeft (k : Kernel) (l : LockPtr) : List ThreadPtr :=
  (k.donations k.running).filter fun d => k.waitingLock d ≠ some l

/-- The priority that `lock_release` leaves its caller with. -/
theorem released_priority (hnd : (k.donations k.running).Nodup)
    (hne : k.running ∉ k.donations k.running) :
    (k.donorsLeft l = [] ∧
        (k.released l).priority = update k.priority k.running (k.initPriority k.running)) ∨
      ∃ d ∈ k.donorsLeft l, k.SortsFirst (k.donorsLeft l) d ∧
        (k.released l).priority =
          update k.priority k.running (max (k.initPriority k.running) (k.priority d)) := by
  have hrem := (@removeLock_links { k with holder := update k.holder l none } l hnd).2
  have hfoot : ∃ w, removeLock { k with holder := update k.holder l none } l =
      { k with
        holder := update k.holder l none
        waitingLock := w
        donations := update k.donations k.running (k.donorsLeft l) } := by
    rcases removeLoop_footprint l (k.donations k.running)
      { k with holder := update k.holder l none } with ⟨w, d, he⟩
    have he' : removeLock { k with holder := update k.holder l none } l =
        { k with holder := update k.holder l none, waitingLock := w, donations := d } := he
    rw [he'] at hrem
    refine ⟨w, ?_⟩
    rw [he', Kernel.donorsLeft, ← hrem]
  obtain ⟨w, hw⟩ := hfoot
  have hsub : ∀ u ∈ k.donorsLeft l, u ≠ k.running := by
    intro u hu he
    have hm := List.mem_of_mem_filter hu
    rw [he] at hm
    exact hne hm
  have hself : update k.donations k.running (k.donorsLeft l) k.running = k.donorsLeft l :=
    update_self _ _ _
  have hreset := @resetPriority_priority
    { k with
      holder := update k.holder l none
      waitingLock := w
      donations := update k.donations k.running (k.donorsLeft l) }
    (by
      show k.running ∉ update k.donations k.running (k.donorsLeft l) k.running
      rw [hself]
      exact fun hm => hsub _ hm rfl)
  unfold Kernel.released
  rw [hw]
  simp only [hself] at hreset
  rcases hreset with ⟨h0, hp⟩ | ⟨d, hd, hfirst, hp⟩
  · exact Or.inl ⟨h0, hp⟩
  · refine Or.inr ⟨d, hd, fun e he => ?_, hp⟩
    have hword := hfirst e he
    simpa only [donationWord, update_of_ne (hsub e he), update_of_ne (hsub d hd)] using hword

/-- The words of two threads differ: they hold addresses in the threads' own pages, or those of
their first donors. -/
theorem Links.donationWord_injective (h : Links k) (he : donationWord k t = donationWord k u) :
    t = u := by
  cases ht : k.donations t with
  | nil =>
      cases hu : k.donations u with
      | nil =>
          simp only [donationWord, ht, hu, pageAddr] at he
          exact Int.ofNat_inj.1 (by omega)
      | cons e es =>
          simp only [donationWord, ht, hu, pageAddr] at he
          omega
  | cons d ds =>
      cases hu : k.donations u with
      | nil =>
          simp only [donationWord, ht, hu, pageAddr] at he
          omega
      | cons e es =>
          simp only [donationWord, ht, hu, pageAddr] at he
          have hde : d = e := Int.ofNat_inj.1 (by omega)
          subst hde
          obtain ⟨l, hl, hdt⟩ := h.donor d t (by simp [ht])
          obtain ⟨m, hm, hdu⟩ := h.donor d u (by simp [hu])
          rw [hl] at hm
          cases hm
          rw [hdt] at hdu
          cases hdu
          rfl

end Bookkeeping

/-! ## The priorities on offer -/

/-- `u` is queued on a lock that `t` holds. -/
def Kernel.WaitsFor (k : Kernel) (u t : ThreadPtr) : Prop :=
  ∃ l, k.holder l = some t ∧ u ∈ k.lockWaiters l

/-- The priority of `t` is the greatest of those on offer. -/
structure DonatedAt (k : Kernel) (t : ThreadPtr) : Prop where
  init_le : k.initPriority t ≤ k.priority t
  waits_le : ∀ u, k.WaitsFor u t → k.priority u ≤ k.priority t
  attained : k.priority t = k.initPriority t ∨
    ∃ u, k.WaitsFor u t ∧ k.priority u = k.priority t

/-- `p` is at most `base` or the priority of the donor that is sorted first. -/
def Kernel.Offered (k : Kernel) (base : Int) (ds : List ThreadPtr) (p : Int) : Prop :=
  p ≤ base ∨ ∃ d ∈ ds, k.SortsFirst ds d ∧ p ≤ k.priority d

instance instDecidableOffered (k : Kernel) (base : Int) (ds : List ThreadPtr) (p : Int) :
    Decidable (k.Offered base ds p) :=
  inferInstanceAs (Decidable (_ ∨ ∃ d ∈ ds, _))

section Kernel

variable {k k' : Kernel} {t : ThreadPtr} {l : LockPtr}

theorem DonatedAt.congr (h : DonatedAt k t) (hi : k'.initPriority t = k.initPriority t)
    (hp : k'.priority t = k.priority t) (hw : ∀ u, k'.WaitsFor u t ↔ k.WaitsFor u t)
    (hu : ∀ u, k.WaitsFor u t → k'.priority u = k.priority u) : DonatedAt k' t := by
  refine ⟨?_, fun u hut => ?_, ?_⟩
  · rw [hi, hp]
    exact h.init_le
  · have hut' := (hw u).1 hut
    rw [hu u hut', hp]
    exact h.waits_le u hut'
  · rw [hi, hp]
    rcases h.attained with ha | ⟨u, hut, ha⟩
    · exact Or.inl ha
    · exact Or.inr ⟨u, (hw u).2 hut, (hu u hut).trans ha⟩

/-- One more thread waits, with a priority that is not above. -/
theorem DonatedAt.join (h : DonatedAt k t) {p : ThreadPtr → Prop}
    (hi : k'.initPriority = k.initPriority) (hp : k'.priority = k.priority)
    (hw : ∀ u, k'.WaitsFor u t ↔ k.WaitsFor u t ∨ p u)
    (hle : ∀ u, p u → k.priority u ≤ k.priority t) : DonatedAt k' t := by
  refine ⟨?_, fun u hut => ?_, ?_⟩
  · rw [hi, hp]
    exact h.init_le
  · rw [hp]
    rcases (hw u).1 hut with hut | hut
    · exact h.waits_le u hut
    · exact hle u hut
  · rw [hi, hp]
    rcases h.attained with ha | ⟨u, hut, ha⟩
    · exact Or.inl ha
    · exact Or.inr ⟨u, (hw u).2 (Or.inl hut), ha⟩

/-- `reset_priority` finds the maximum when everybody's priority is offered by the donor that is
sorted first. -/
theorem DonatedAt.of_reset (ds : List ThreadPtr) {base : Int} (hinj : ∀ d e,
      donationWord k d = donationWord k e → d = e)
    (hi : k'.initPriority t = base) (hpu : ∀ u, u ≠ t → k'.priority u = k.priority u)
    (hself : ¬ k'.WaitsFor t t)
    (hp : (ds = [] ∧ k'.priority t = base) ∨
      ∃ d ∈ ds, k.SortsFirst ds d ∧ k'.priority t = max base (k.priority d))
    (hds : ∀ d ∈ ds, k'.WaitsFor d t)
    (hoff : ∀ u, k'.WaitsFor u t → k.Offered base ds (k.priority u)) : DonatedAt k' t := by
  have hne : ∀ u, k'.WaitsFor u t → k'.priority u = k.priority u := by
    intro u hu
    refine hpu u fun e => hself ?_
    rw [e] at hu
    exact hu
  rcases hp with ⟨rfl, hp⟩ | ⟨d, hd, hfirst, hp⟩
  · refine ⟨by rw [hi, hp], fun u hu => ?_, Or.inl (by rw [hi, hp])⟩
    rw [hne u hu, hp]
    rcases hoff u hu with hle | ⟨e, he, -⟩
    · exact hle
    · cases he
  · refine ⟨?_, fun u hu => ?_, ?_⟩
    · rw [hi, hp]
      exact le_max_left _ _
    · rw [hne u hu, hp]
      rcases hoff u hu with hle | ⟨e, he, hfirst', hle⟩
      · exact hle.trans (le_max_left _ _)
      · have hde : e = d := hinj e d (le_antisymm (hfirst e he) (hfirst' d hd))
        subst hde
        exact hle.trans (le_max_right _ _)
    · rw [hi]
      rcases le_total (k.priority d) base with hle | hle
      · exact Or.inl (by rw [hp, max_eq_left hle])
      · exact Or.inr ⟨d, hds d hd, by rw [hne d (hds d hd), hp, max_eq_right hle]⟩

theorem waitsFor_congr (hh : k'.holder = k.holder) (hw : k'.lockWaiters = k.lockWaiters)
    (u v : ThreadPtr) : k'.WaitsFor u v ↔ k.WaitsFor u v := by
  unfold Kernel.WaitsFor
  rw [hh, hw]

/-- Who waits for whom after the running thread has taken a free lock. -/
theorem waitsFor_take (hl : k.holder l = none) (hh : k'.holder = update k.holder l (some k.running))
    (hw : k'.lockWaiters = k.lockWaiters) (u v : ThreadPtr) :
    k'.WaitsFor u v ↔ k.WaitsFor u v ∨ (v = k.running ∧ u ∈ k.lockWaiters l) := by
  unfold Kernel.WaitsFor
  rw [hh, hw]
  constructor
  · rintro ⟨m, hm, hu⟩
    by_cases he : m = l
    · subst he
      rw [update_self] at hm
      cases hm
      exact Or.inr ⟨rfl, hu⟩
    · rw [update_of_ne he] at hm
      exact Or.inl ⟨m, hm, hu⟩
  · rintro (⟨m, hm, hu⟩ | ⟨rfl, hu⟩)
    · have hne : m ≠ l := by
        rintro rfl
        rw [hl] at hm
        cases hm
      exact ⟨m, by rw [update_of_ne hne]; exact hm, hu⟩
    · exact ⟨l, by rw [update_self], hu⟩

/-- Who waits for whom after a lock was released and its first waiter woken. -/
theorem waitsFor_release {ws : List ThreadPtr} (hh : k'.holder = update k.holder l none)
    (hw : k'.lockWaiters = update k.lockWaiters l ws) (u v : ThreadPtr) :
    k'.WaitsFor u v ↔ ∃ m, m ≠ l ∧ k.holder m = some v ∧ u ∈ k.lockWaiters m := by
  unfold Kernel.WaitsFor
  rw [hh, hw]
  refine exists_congr fun m => ?_
  by_cases he : m = l
  · subst he
    simp
  · simp [he]

/-- Who waits for whom after the running thread has joined the queue of a lock. -/
theorem waitsFor_queuesUp {h : ThreadPtr} (hl : k.holder l = some h)
    (hh : k'.holder = k.holder) (hq : QueuesUp k k' l) (u v : ThreadPtr) :
    k'.WaitsFor u v ↔ k.WaitsFor u v ∨ (u = k.running ∧ v = h) := by
  rcases hq with ⟨ws, hp, hw⟩
  unfold Kernel.WaitsFor
  rw [hh, hw]
  constructor
  · rintro ⟨m, hm, hu⟩
    by_cases he : m = l
    · subst he
      rw [update_self] at hu
      rcases List.mem_cons.1 (hp.subset hu) with hr | hu
      · rw [hl] at hm
        cases hm
        exact Or.inr ⟨hr, rfl⟩
      · exact Or.inl ⟨m, hm, hu⟩
    · rw [update_of_ne he] at hu
      exact Or.inl ⟨m, hm, hu⟩
  · rintro (⟨m, hm, hu⟩ | ⟨rfl, rfl⟩)
    · refine ⟨m, hm, ?_⟩
      by_cases he : m = l
      · subst he
        rw [update_self]
        exact hp.symm.subset (List.mem_cons_of_mem _ hu)
      · rw [update_of_ne he]
        exact hu
    · refine ⟨l, hl, ?_⟩
      rw [update_self]
      exact hp.symm.subset List.mem_cons_self

end Kernel

/-! ## The condition on a step -/

/-- The lock on which the thread is blocked inside `lock_acquire`. -/
def System.awaited (σ : System) (t : ThreadPtr) : Option LockPtr :=
  if σ.kernel.status t = .blocked then
    match (σ.code t).head? with
    | some (.downLoop (.ofLock l) _) => some l
    | _ => none
  else none

/-- The operation offers nobody a priority that the code does not pass on, and assigns nobody a
priority below the one it has. -/
def System.Offers (σ : System) : BookOp → Prop
  | .keep | .create _ _ => True
  | .take l =>
      ∀ u ∈ σ.kernel.lockWaiters l, σ.kernel.priority u ≤ σ.kernel.priority σ.kernel.running
  | .wait l =>
      ∀ h ∈ σ.kernel.holder l, ∀ u ∈ σ.kernel.donees l h,
        σ.kernel.priority u ≤ σ.kernel.priority σ.kernel.running ∧
          -- a detached waiter at the end of the walk passes nothing on
          (σ.kernel.waitingLock u = none → ∀ m ∈ σ.awaited u, ∀ v ∈ σ.kernel.holder m,
            σ.kernel.priority σ.kernel.running ≤ σ.kernel.priority v ∨ v ∈ σ.kernel.donees l h)
  | .requeue l =>
      ∀ h ∈ σ.kernel.holder l, σ.kernel.priority σ.kernel.running ≤ σ.kernel.priority h
  | .release l =>
      ∀ m ∈ σ.held σ.kernel.running, m ≠ l → ∀ u ∈ σ.kernel.lockWaiters m,
        σ.kernel.Offered (σ.kernel.initPriority σ.kernel.running)
          (σ.kernel.donorsLeft l) (σ.kernel.priority u)
  | .setPriority p =>
      ∀ m ∈ σ.held σ.kernel.running, ∀ u ∈ σ.kernel.lockWaiters m,
        σ.kernel.Offered p (σ.kernel.donations σ.kernel.running) (σ.kernel.priority u)

instance instDecidableOffers (σ : System) : (op : BookOp) → Decidable (σ.Offers op)
  | .keep | .create _ _ => .isTrue trivial
  | .take l => inferInstanceAs (Decidable (∀ u ∈ σ.kernel.lockWaiters l, _))
  | .wait l => inferInstanceAs (Decidable (∀ h ∈ σ.kernel.holder l, ∀ u ∈ _, _ ∧ _))
  | .requeue l => inferInstanceAs (Decidable (∀ h ∈ σ.kernel.holder l, _))
  | .release l => inferInstanceAs (Decidable (∀ m ∈ σ.held σ.kernel.running, m ≠ l → ∀ u ∈ _, _))
  | .setPriority _ => inferInstanceAs (Decidable (∀ m ∈ σ.held σ.kernel.running, ∀ u ∈ _, _))

section Steps

variable {σ σ' : System} {k' : Kernel} {t u : ThreadPtr} {l : LockPtr}
  {order : Kernel → ThreadPtr → ThreadPtr → Bool}

theorem awaited_eq_some : σ.awaited t = some l ↔ σ.BlockedIn l t := by
  unfold System.awaited System.BlockedIn
  rw [inDown_iff]
  split
  · rename_i hb
    split
    · rename_i m a hf
      simp [hb, hf, eq_comm]
    · rename_i hf
      simp only [reduceCtorEq, hb, true_and, false_iff, not_exists]
      exact fun a ha => hf l a ha
  · rename_i hb
    simp [hb]

theorem Linked.awaited (h : Linked σ) : σ.awaited t = some l ↔ t ∈ σ.kernel.lockWaiters l :=
  awaited_eq_some.trans h.coarse.settled.blockedIn_iff

theorem Linked.running_not_queued (h : Linked σ) (l : LockPtr) :
    σ.kernel.running ∉ σ.kernel.lockWaiters l :=
  h.coarse.live.not_wait_of_status (by simp [h.coarse.live.status_running]) _

theorem Linked.running_not_donor (h : Linked σ) (t : ThreadPtr) :
    σ.kernel.running ∉ σ.kernel.donations t := by
  intro hm
  obtain ⟨l, hl, -⟩ := h.links.donor _ t hm
  obtain ⟨-, -, -, hw⟩ := h.links.linked _ l hl
  exact h.running_not_queued l hw

theorem Linked.donor_waitsFor (h : Linked σ) {d : ThreadPtr} (hd : d ∈ σ.kernel.donations t) :
    σ.kernel.WaitsFor d t := by
  obtain ⟨l, hl, ht⟩ := h.links.donor d t hd
  obtain ⟨-, -, -, hw⟩ := h.links.linked d l hl
  exact ⟨l, ht, hw⟩

/-- The contended `lock_acquire`: the walk raises everybody it comes to. -/
theorem Linked.donated_wait (h : Linked σ) (hq : ∀ t, DonatedAt σ.kernel t)
    (hc : σ.Offers (.wait l)) (hd : (BookOp.wait l).Does σ.kernel k') : DonatedAt k' t := by
  rcases hd with ⟨⟨x, k₁, hl, hdon, hb⟩, hqueue⟩
  obtain ⟨hpri, hx, hclosed⟩ := donatePriority_donees hl hdon
  have hc' := hc x hl
  have hh : k'.holder = σ.kernel.holder := by
    rcases donatePriority_footprint hdon with ⟨_, rfl⟩
    exact hb.holder
  have hi : k'.initPriority = σ.kernel.initPriority := by
    rcases donatePriority_footprint hdon with ⟨_, rfl⟩
    exact hb.initPriority
  have hp : ∀ u, k'.priority u = if u ∈ σ.kernel.donees l x
      then σ.kernel.priority σ.kernel.running else σ.kernel.priority u := by
    intro u
    rw [hb.priority]
    exact hpri u
  have hrun : k'.priority σ.kernel.running = σ.kernel.priority σ.kernel.running := by
    rw [hp]
    split <;> rfl
  have hwaits := waitsFor_queuesUp hl hh hqueue
  -- nobody's priority goes down, and nobody's above the caller's changes
  have hle : ∀ u, k'.priority u ≤ max (σ.kernel.priority σ.kernel.running)
      (σ.kernel.priority u) := by
    intro u
    rw [hp]
    split
    · exact le_max_left _ _
    · exact le_max_right _ _
  by_cases ht : t ∈ σ.kernel.donees l x
  · have hpt : k'.priority t = σ.kernel.priority σ.kernel.running := by rw [hp, if_pos ht]
    refine ⟨?_, fun u hu => ?_, Or.inr ?_⟩
    · rw [hi, hpt]
      exact (hq t).init_le.trans (hc' t ht).1
    · rw [hpt]
      rcases (hwaits u t).1 hu with hu | ⟨rfl, -⟩
      · refine (hle u).trans (max_le le_rfl ?_)
        exact ((hq t).waits_le u hu).trans (hc' t ht).1
      · rw [hrun]
    · -- the caller itself, or the one before on the walk
      rw [hpt]
      rcases Kernel.walk_pred ht with rfl | ⟨v, hv, hdonee⟩
      · exact ⟨_, (hwaits _ _).2 (Or.inr ⟨rfl, rfl⟩), hrun⟩
      · have hv' : v ∈ σ.kernel.donees l x := hv
        have hpv : k'.priority v = σ.kernel.priority σ.kernel.running := by
          rw [hp, if_pos hv']
        refine ⟨v, (hwaits v t).2 ?_, hpv⟩
        obtain ⟨m, hm, hmt⟩ := Kernel.donee_eq_some.1 hdonee
        by_cases hvr : v = σ.kernel.running
        · subst hvr
          have hml : l = m := by simpa [Kernel.donating] using hm
          subst hml
          have htx : σ.kernel.holder l = some t := hmt
          rw [hl] at htx
          cases htx
          exact Or.inr ⟨rfl, rfl⟩
        · have hm' : σ.kernel.waitingLock v = some m := by
            simpa [Kernel.donating, hvr] using hm
          obtain ⟨-, -, -, hw⟩ := h.links.linked v m hm'
          exact Or.inl ⟨m, hmt, hw⟩
  · have hpt : k'.priority t = σ.kernel.priority t := by rw [hp, if_neg ht]
    -- a waiter of `t` on the walk is detached, else the walk would go on to `t`
    have hdetached : ∀ u, σ.kernel.WaitsFor u t → u ∈ σ.kernel.donees l x →
        σ.kernel.priority σ.kernel.running ≤ σ.kernel.priority t := by
      rintro u ⟨m, hm, hu⟩ hud
      have hur : u ≠ σ.kernel.running := fun e => h.running_not_queued m (e ▸ hu)
      have hnone : σ.kernel.waitingLock u = none := by
        cases hw : σ.kernel.waitingLock u with
        | none => rfl
        | some n =>
            obtain ⟨-, -, -, hun⟩ := h.links.linked u n hw
            have hmn := h.coarse.live.wait_unique hu hun
            cases hmn
            refine absurd (hclosed u t hud (Kernel.donee_eq_some.2 ⟨m, ?_, hm⟩)) ht
            simpa [Kernel.donating, hur] using hw
      rcases (hc' u hud).2 hnone m (h.awaited.2 hu) t hm with hle | htd
      · exact hle
      · exact absurd htd ht
    refine ⟨?_, fun u hu => ?_, ?_⟩
    · rw [hi, hpt]
      exact (hq t).init_le
    · rw [hpt]
      rcases (hwaits u t).1 hu with hu | ⟨-, rfl⟩
      · rw [hp]
        split
        · rename_i hud
          exact hdetached u hu hud
        · exact (hq t).waits_le u hu
      · exact absurd hx ht
    · rw [hpt, hi]
      rcases (hq t).attained with ha | ⟨u, hu, ha⟩
      · exact Or.inl ha
      · refine Or.inr ⟨u, (hwaits u t).2 (Or.inl hu), ?_⟩
        rw [hp]
        split
        · rename_i hud
          exact le_antisymm (hdetached u hu hud) (ha ▸ (hc' u hud).1)
        · exact ha

/-- The running thread waits for nobody. -/
theorem Linked.not_waitsFor (h : Linked σ) {v : ThreadPtr} :
    ¬ σ.kernel.WaitsFor σ.kernel.running v := by
  rintro ⟨m, -, hm⟩
  exact h.running_not_queued m hm

theorem donated_take (hq : ∀ t, DonatedAt σ.kernel t) (hc : σ.Offers (.take l))
    (hd : (BookOp.take l).Does σ.kernel k') : DonatedAt k' t := by
  rcases hd with ⟨hl, hb, hw⟩
  have hh : k'.holder = update σ.kernel.holder l (some σ.kernel.running) := hb.holder
  refine (hq t).join hb.initPriority hb.priority (fun u => waitsFor_take hl hh hw u t) ?_
  rintro u ⟨rfl, hu⟩
  exact hc u hu

theorem Linked.donated_release (h : Linked σ) (hq : ∀ t, DonatedAt σ.kernel t)
    (hc : σ.Offers (.release l)) (hd : (BookOp.release l).Does σ.kernel k') : DonatedAt k' t := by
  have hlinks := h.links
  rcases hd with ⟨hl, hb, ws, -, hw⟩
  have hh : k'.holder = update σ.kernel.holder l none := hb.holder.trans (released_holder _ _)
  have hi : k'.initPriority = σ.kernel.initPriority := by
    rw [hb.initPriority]
    rcases released_footprint σ.kernel l with ⟨_, _, _, he⟩
    rw [he]
  have hwaits := waitsFor_release hh hw
  have hpri := @released_priority σ.kernel l (hlinks.nodup _)
    (h.running_not_donor σ.kernel.running)
  have hother : ∀ u, u ≠ σ.kernel.running → k'.priority u = σ.kernel.priority u := by
    intro u hu
    rw [hb.priority]
    rcases hpri with ⟨-, hp⟩ | ⟨d, -, -, hp⟩ <;> rw [hp, update_of_ne hu]
  by_cases ht : t = σ.kernel.running
  · subst ht
    refine DonatedAt.of_reset (σ.kernel.donorsLeft l)
      (fun _ _ => hlinks.donationWord_injective) (congrFun hi _) hother ?_ ?_ ?_ ?_
    · intro hself
      obtain ⟨m, -, -, hm⟩ := (hwaits _ _).1 hself
      exact h.running_not_queued m hm
    · rw [hb.priority]
      rcases hpri with ⟨h0, hp⟩ | ⟨d, hd, hfirst, hp⟩
      · exact Or.inl ⟨h0, by rw [hp, update_self]⟩
      · exact Or.inr ⟨d, hd, hfirst, by rw [hp, update_self]⟩
    · intro d hd
      obtain ⟨hd, hne⟩ := List.mem_filter.1 hd
      obtain ⟨m, hm, hmt⟩ := hlinks.donor d _ hd
      obtain ⟨-, -, -, hwm⟩ := hlinks.linked d m hm
      refine (hwaits _ _).2 ⟨m, ?_, hmt, hwm⟩
      rintro rfl
      simp [hm] at hne
    · intro u hu
      obtain ⟨m, hne, hm, hum⟩ := (hwaits _ _).1 hu
      exact hc m (h.coarse.holder_iff.1 hm) hne u hum
  · refine (hq t).congr (congrFun hi t) (hother t ht) (fun u => ?_) fun u hu => hother u ?_
    · rw [hwaits]
      refine exists_congr fun m => ⟨fun hm => hm.2, fun hm => ⟨?_, hm⟩⟩
      rintro rfl
      rw [hl] at hm
      exact ht (by simpa using hm.1.symm)
    · rintro rfl
      exact h.not_waitsFor hu

theorem donated_create {x : ThreadPtr} {p : Int} (hq : ∀ t, DonatedAt σ.kernel t)
    (hd : (BookOp.create x p).Does σ.kernel k') : DonatedAt k' t := by
  rcases hd with ⟨hnot, hb, hw⟩
  have hp : k'.priority = update σ.kernel.priority x p := hb.priority
  have hi : k'.initPriority = update σ.kernel.initPriority x p := hb.initPriority
  have hwaits : ∀ u v, k'.WaitsFor u v ↔ σ.kernel.WaitsFor u v :=
    waitsFor_congr hb.holder hw
  by_cases ht : t = x
  · -- the new thread holds no lock
    subst ht
    refine ⟨by rw [hi, hp]; simp, fun u hu => ?_, Or.inl (by rw [hi, hp]; simp)⟩
    obtain ⟨m, hm, -⟩ := (hwaits u t).1 hu
    exact absurd hm (hnot m).1
  · refine (hq t).congr (by rw [hi, update_of_ne ht]) (by rw [hp, update_of_ne ht])
      (fun u => hwaits u t) fun u hu => ?_
    have hne : u ≠ x := by
      rintro rfl
      obtain ⟨m, -, hm⟩ := hu
      exact (hnot m).2 hm
    rw [hp, update_of_ne hne]

theorem Linked.donated_setPriority {p : Int} (h : Linked σ) (hq : ∀ t, DonatedAt σ.kernel t)
    (hc : σ.Offers (.setPriority p)) (hd : (BookOp.setPriority p).Does σ.kernel k') :
    DonatedAt k' t := by
  have hlinks := h.links
  rcases hd with ⟨hb, hw⟩
  have hres := resetPriority_footprint (σ.kernel.prioritySet p)
  have hh : k'.holder = σ.kernel.holder := by
    rw [hb.holder]
    rcases hres with ⟨_, _, he⟩
    rw [he]
    rfl
  have hi : k'.initPriority = update σ.kernel.initPriority σ.kernel.running p := by
    rw [hb.initPriority]
    rcases hres with ⟨_, _, he⟩
    rw [he]
    rfl
  have hwaits := waitsFor_congr hh hw
  have hself : (σ.kernel.prioritySet p).initPriority σ.kernel.running = p := update_self _ _ _
  have hbelow : ∀ u, u ≠ σ.kernel.running →
      (σ.kernel.prioritySet p).priority u = σ.kernel.priority u :=
    fun u hu => update_of_ne hu _ _
  have hpri := @resetPriority_priority (σ.kernel.prioritySet p)
    (h.running_not_donor σ.kernel.running)
  have hother : ∀ u, u ≠ σ.kernel.running → k'.priority u = σ.kernel.priority u := by
    intro u hu
    rw [hb.priority, ← hbelow u hu]
    rcases hpri with ⟨-, hp⟩ | ⟨d, -, -, hp⟩ <;> rw [hp] <;> exact update_of_ne hu _ _
  by_cases ht : t = σ.kernel.running
  · subst ht
    refine DonatedAt.of_reset (σ.kernel.donations σ.kernel.running)
      (fun _ _ => hlinks.donationWord_injective) (by rw [hi, update_self]) hother ?_ ?_ ?_ ?_
    · exact fun hself => h.not_waitsFor ((hwaits _ _).1 hself)
    · rw [hb.priority]
      rcases hpri with ⟨h0, hp⟩ | ⟨d, hd, hfirst, hp⟩
      · refine Or.inl ⟨h0, ?_⟩
        rw [hp]
        exact (update_self _ _ _).trans hself
      · have hdr : d ≠ σ.kernel.running := by
          rintro rfl
          exact h.running_not_donor _ hd
        refine Or.inr ⟨d, hd, hfirst, ?_⟩
        rw [hp]
        exact (update_self _ _ _).trans (congrArg₂ max hself (hbelow d hdr))
    · intro d hd
      exact (hwaits _ _).2 (h.donor_waitsFor hd)
    · intro u hu
      obtain ⟨m, hm, hum⟩ := (hwaits _ _).1 hu
      exact hc m (h.coarse.holder_iff.1 hm) u hum
  · refine (hq t).congr (by rw [hi, update_of_ne ht]) (hother t ht)
      (fun u => hwaits u t) fun u hu => hother u ?_
    rintro rfl
    exact h.not_waitsFor hu

/-- An operation that meets the condition keeps every priority the greatest on offer. -/
theorem Linked.donated_does {op : BookOp} (h : Linked σ) (hq : ∀ t, DonatedAt σ.kernel t)
    (hc : σ.Offers op) (hd : op.Does σ.kernel k') : DonatedAt k' t := by
  cases op with
  | keep =>
      rcases hd with ⟨hb, hw⟩
      exact (hq t).congr (by rw [hb.initPriority]) (by rw [hb.priority])
        (fun u => waitsFor_congr hb.holder hw u t) fun u _ => by rw [hb.priority]
  | take l => exact donated_take hq hc hd
  | wait l => exact h.donated_wait hq hc hd
  | requeue l =>
      rcases hd with ⟨⟨x, hl⟩, hb, hqueue⟩
      refine (hq t).join hb.initPriority hb.priority
        (fun u => waitsFor_queuesUp hl hb.holder hqueue u t) ?_
      rintro u ⟨rfl, rfl⟩
      exact hc _ hl
  | release l => exact h.donated_release hq hc hd
  | create x p => exact donated_create hq hd
  | setPriority p => exact h.donated_setPriority hq hc hd

end Steps

/-! ## The priorities in runs -/

namespace System

/-- The initial priority of `t` and the priorities of the threads that are blocked on a lock it
holds. -/
def offers (σ : System) (t : ThreadPtr) : Set Int :=
  insert (σ.kernel.initPriority t)
    {p | ∃ l u, σ.BlockedIn l u ∧ σ.kernel.holder l = some t ∧ σ.kernel.priority u = p}

/-- Every thread has the greatest priority it is offered. -/
def Donated (σ : System) : Prop :=
  ∀ t ∈ σ.kernel.allList, IsGreatest (σ.offers t) (σ.kernel.priority t)

end System

/-- The runs of calls whose steps all meet the condition. -/
def DonationUse (σ : System) (a : Act) : Prop :=
  CallUse σ a ∧ σ.Offers (σ.bookOp a)

instance instDecidableDonationUse (σ : System) (a : Act) : Decidable (DonationUse σ a) :=
  inferInstanceAs (Decidable (_ ∧ _))

section Runs

variable {σ σ' : System} {t : ThreadPtr} {order : Kernel → ThreadPtr → ThreadPtr → Bool}

theorem Linked.isGreatest (h : Linked σ) (hd : DonatedAt σ.kernel t) :
    IsGreatest (σ.offers t) (σ.kernel.priority t) := by
  constructor
  · rcases hd.attained with ha | ⟨u, ⟨l, hl, hu⟩, ha⟩
    · exact Or.inl ha
    · exact Or.inr ⟨l, u, h.coarse.settled.blockedIn_iff.2 hu, hl, ha⟩
  · rintro p (rfl | ⟨l, u, hu, hl, rfl⟩)
    · exact hd.init_le
    · exact hd.waits_le u ⟨l, hl, h.coarse.settled.blockedIn_iff.1 hu⟩

theorem donated_of_reach {init : Nat → Fin unsignedSize} {idle : ThreadPtr}
    (h : Reach (step ⟨.calls, order⟩) DonationUse (boot init idle) σ) :
    Linked σ ∧ ∀ t, DonatedAt σ.kernel t := by
  refine @Reach.invariant _ _ _ _ _ _ (fun σ => Linked σ ∧ ∀ t, DonatedAt σ.kernel t)
    ⟨boot_linked init idle, fun t => ?_⟩ ?_ h
  · refine ⟨le_rfl, fun u hu => ?_, Or.inl rfl⟩
    obtain ⟨l, hl, -⟩ := hu
    cases hl
  · rintro σ a σ' ⟨hl, hq⟩ ⟨hu, hc⟩ hs
    have hdoes := hl.coarse.step_bookOp (hl.links.running_free hl.coarse.live) hs
    exact ⟨hl.step hu hs, fun t => hl.donated_does hq hc hdoes⟩

/-- In runs whose steps all meet the condition, every thread has the greatest of its initial
priority and the priorities of the threads blocked on the locks it holds. -/
theorem priority_is_greatest {init : Nat → Fin unsignedSize} {idle : ThreadPtr}
    (h : Reach (step ⟨.calls, order⟩) DonationUse (boot init idle) σ) : σ.Donated := by
  obtain ⟨hl, hq⟩ := donated_of_reach h
  exact fun t _ => hl.isGreatest (hq t)

/-- Thread 3 blocks on a lock of thread 2, which is blocked on a lock of the initial thread. -/
def chainActs : List Act :=
  bootActs ++ [.call (.lockAcquire 0), .exec] ++ createActs 2 40 ++
    [.call (.lockAcquire 1), .exec, .call (.lockAcquire 0), .exec] ++ createActs 3 50 ++
    [.call (.lockAcquire 1), .exec]

def chainSystem : System :=
  (runAll (step .calls) chainActs (boot allZero 1)).get (by decide +kernel)

theorem priority_is_greatest_chain :
    IsGreatest (chainSystem.offers 0) 50 ∧ chainSystem.kernel.initPriority 0 = 31 := by
  have hrun : Exec (step .calls) (boot allZero 1) (trace (step .calls) chainActs (boot allZero 1))
      chainSystem := Exec.of_runAll (Option.some_get _).symm
  have h := priority_is_greatest (hrun.reach (by decide +kernel)) 0 (by decide +kernel)
  have hp : chainSystem.kernel.priority 0 = 50 := by decide +kernel
  rw [hp] at h
  exact ⟨h, by decide +kernel⟩

/-- Thread 2, of priority 40, holds lock 0 and sleeps; the initial thread, of priority 31, calls
`lock_acquire`. -/
def loweredActs : List Act :=
  bootActs ++ createActs 2 40 ++
    [.call (.lockAcquire 0), .exec, .call (.timerSleep 10), .exec, .exec, .call (.lockAcquire 0),
      .exec]

def loweredSystem : System :=
  (runAll (step .calls) loweredActs (boot allZero 1)).get (by decide +kernel)

/-- `donate_priority` lowers the holder from 40 to 31. -/
theorem priority_not_greatest :
    ¬ ∀ σ, Reach (step .calls) CallUse (boot allZero 1) σ → σ.Donated := by
  intro hall
  have hrun : Exec (step .calls) (boot allZero 1)
      (trace (step .calls) loweredActs (boot allZero 1)) loweredSystem :=
    Exec.of_runAll (Option.some_get _).symm
  have h := hall loweredSystem (hrun.reach (by decide +kernel)) 2 (by decide +kernel)
  have hle := h.2 (Or.inl rfl)
  exact absurd hle (by decide +kernel)

end Runs

end Project2
end Pintos
