import Pintos.Project2.Bookkeeping

/-!
# Links — `waiting_lock`, `donations` and `holder` agree

A thread that blocks in `lock_acquire` is linked to the holder of the lock from both sides.
`remove_lock` takes all threads that wait for the released lock off at once, the one that
`sema_up` wakes and the others.
-/

namespace Pintos
namespace Project2

open Lib Function

/-! ## What the bookkeeping functions do to the links -/

section Bookkeeping

variable {k k' : Kernel} {l : LockPtr}

/-- The loop of `remove_lock` detaches exactly the visited threads that wait for the lock. -/
theorem removeLoop_links {ts : List ThreadPtr} (hts : ts.Nodup)
    (hd : (k.donations k.running).Nodup) :
    (∀ t, (removeLoop l ts k).waitingLock t =
        if t ∈ ts ∧ k.waitingLock t = some l then none else k.waitingLock t) ∧
      (removeLoop l ts k).donations =
        update k.donations k.running
          ((k.donations k.running).filter fun t => ¬(t ∈ ts ∧ k.waitingLock t = some l)) := by
  induction ts generalizing k with
  | nil =>
      simp [removeLoop]
  | cons t ts ih =>
      obtain ⟨ht, hts⟩ := List.nodup_cons.1 hts
      unfold removeLoop
      split
      · rename_i hw
        obtain ⟨h₁, h₂⟩ := @ih { k with
          waitingLock := update k.waitingLock t none
          donations := update k.donations k.running ((k.donations k.running).erase t) } hts
          (by simpa using hd.erase t)
        constructor
        · intro u
          rw [h₁]
          by_cases hu : u = t
          · subst hu
            simp [ht, hw]
          · simp [hu]
        · rw [h₂]
          simp only [update_idem, update_self]
          congr 1
          rw [hd.erase_eq_filter, List.filter_filter]
          refine List.filter_congr fun u _ => ?_
          by_cases hu : u = t
          · subst hu
            simp [hw]
          · simp [hu]
      · rename_i hw
        obtain ⟨h₁, h₂⟩ := ih hts hd
        constructor
        · intro u
          rw [h₁]
          by_cases hu : u = t
          · subst hu
            simp [hw]
          · simp [hu]
        · rw [h₂]
          congr 1
          refine List.filter_congr fun u _ => ?_
          by_cases hu : u = t
          · subst hu
            simp [hw]
          · simp [hu]

/-- `remove_lock` detaches the donors that wait for the lock. -/
theorem removeLock_links (hd : (k.donations k.running).Nodup) :
    (∀ t, (removeLock k l).waitingLock t =
        if t ∈ k.donations k.running ∧ k.waitingLock t = some l then none
        else k.waitingLock t) ∧
      (removeLock k l).donations =
        update k.donations k.running
          ((k.donations k.running).filter fun t => k.waitingLock t ≠ some l) := by
  obtain ⟨h₁, h₂⟩ := @removeLoop_links k l (k.donations k.running) hd hd
  refine ⟨h₁, h₂.trans ?_⟩
  congr 1
  exact List.filter_congr fun u hu => by simp [hu]

/-- `reset_priority` only re-orders the donors. -/
theorem resetPriority_perm (k : Kernel) (t : ThreadPtr) :
    ((resetPriority k).donations t).Perm (k.donations t) := by
  have hsort : ∀ {less : ThreadPtr → ThreadPtr → Bool} {d ds},
      sort less (k.donations k.running) = d :: ds →
        (update k.donations k.running (d :: ds) t).Perm (k.donations t) := by
    intro less d ds hs
    by_cases ht : t = k.running
    · subst ht
      rw [update_self]
      exact (perm_of_sort_eq_cons hs).symm
    · rw [update_of_ne ht]
  simp only [resetPriority]
  split
  · exact List.Perm.refl _
  · rename_i d ds hs
    split
    · exact hsort hs
    · exact hsort hs

theorem released_holder (k : Kernel) (l : LockPtr) :
    (k.released l).holder = update k.holder l none := by
  rcases released_footprint k l with ⟨_, _, _, he⟩
  rw [he]

theorem released_lockWaiters (k : Kernel) (l : LockPtr) :
    (k.released l).lockWaiters = k.lockWaiters := by
  rcases released_footprint k l with ⟨_, _, _, he⟩
  rw [he]
  rfl

/-- `lock_release` clears `waiting_lock` of the donors that wait for the lock. -/
theorem released_waitingLock (hd : (k.donations k.running).Nodup) (t : ThreadPtr) :
    (k.released l).waitingLock t =
      if t ∈ k.donations k.running ∧ k.waitingLock t = some l then none
      else k.waitingLock t := by
  have hw := (@removeLock_links { k with holder := update k.holder l none } l hd).1 t
  refine Eq.trans ?_ hw
  unfold Kernel.released
  rcases resetPriority_footprint (removeLock { k with holder := update k.holder l none } l) with
    ⟨_, _, he⟩
  rw [he]

/-- `lock_release` takes them out of its caller's donors. -/
theorem released_donations (hd : (k.donations k.running).Nodup) (t : ThreadPtr) :
    ((k.released l).donations t).Perm
      (update k.donations k.running
        ((k.donations k.running).filter fun u => k.waitingLock u ≠ some l) t) := by
  have hrem := (@removeLock_links { k with holder := update k.holder l none } l hd).2
  refine (resetPriority_perm _ t).trans ?_
  rw [hrem]

end Bookkeeping

/-! ## The two-way correspondence -/

structure Links (k : Kernel) : Prop where
  linked : ∀ t l, k.waitingLock t = some l →
    ∃ h, k.holder l = some h ∧ t ∈ k.donations h ∧ t ∈ k.lockWaiters l
  donor : ∀ t h, t ∈ k.donations h → ∃ l, k.waitingLock t = some l ∧ k.holder l = some h
  nodup : ∀ h, (k.donations h).Nodup

section Links

variable {k k' : Kernel} {l : LockPtr}

/-- The links stay when no linked thread stops waiting and no such lock changes hands. -/
theorem Links.of_same (h : Links k) (hw : k'.waitingLock = k.waitingLock)
    (hd : ∀ t, (k'.donations t).Perm (k.donations t))
    (hh : ∀ t l, k.waitingLock t = some l → k'.holder l = k.holder l)
    (hwait : ∀ t l, k.waitingLock t = some l → t ∈ k.lockWaiters l → t ∈ k'.lockWaiters l) :
    Links k' := by
  refine ⟨fun t l ht => ?_, fun t u ht => ?_, fun u => (hd u).nodup_iff.2 (h.nodup u)⟩
  · rw [hw] at ht
    obtain ⟨u, hu, hmem, hwt⟩ := h.linked t l ht
    exact ⟨u, (hh t l ht).trans hu, (hd u).mem_iff.2 hmem, hwait t l ht hwt⟩
  · obtain ⟨l, hl, hu⟩ := h.donor t u ((hd u).mem_iff.1 ht)
    exact ⟨l, by rw [hw]; exact hl, (hh t l hl).trans hu⟩

theorem Links.of_sameBook (h : Links k) (hb : SameBook k k')
    (hwait : ∀ t l, k.waitingLock t = some l → t ∈ k.lockWaiters l → t ∈ k'.lockWaiters l) :
    Links k' :=
  h.of_same hb.waitingLock (fun t => by rw [hb.donations]) (fun t l _ => by rw [hb.holder]) hwait

/-- No thread is linked to a lock without a holder. -/
theorem Links.not_free (h : Links k) (hl : k.holder l = none) (t : ThreadPtr) :
    k.waitingLock t ≠ some l := by
  intro ht
  obtain ⟨u, hu, -⟩ := h.linked t l ht
  rw [hl] at hu
  cases hu

/-- The running thread becomes the holder of a free lock. -/
theorem Links.take (h : Links k) (hl : k.holder l = none)
    (hfree : k.waitingLock k.running = none) (hb : SameBook (k.acquired l) k')
    (hwait : k'.lockWaiters = k.lockWaiters) : Links k' := by
  have hw : k'.waitingLock = k.waitingLock := by
    rw [hb.waitingLock]
    show update k.waitingLock k.running none = k.waitingLock
    rw [← hfree, update_eq_self]
  refine h.of_same hw (fun t => by rw [hb.donations]; rfl) (fun t m ht => ?_) fun t m _ hm => ?_
  · have hne : m ≠ l := fun e => h.not_free hl t (e ▸ ht)
    rw [hb.holder]
    exact update_of_ne hne _ _
  · rw [hwait]
    exact hm

/-- The running thread, queued on the lock, links itself to the holder. -/
theorem Links.donate {u : ThreadPtr} {k₁ : Kernel} (h : Links k) (hl : k.holder l = some u)
    (hfree : k.waitingLock k.running = none) (hdon : donatePriority (k.donating l u) = .ok k₁)
    (hb : SameBook k₁ k') (hq : QueuesUp k k' l) : Links k' := by
  have hw : k'.waitingLock = update k.waitingLock k.running (some l) := by
    rcases donatePriority_footprint hdon with ⟨_, rfl⟩
    exact hb.waitingLock
  have hd : k'.donations = (k.donating l u).donations := by
    rcases donatePriority_footprint hdon with ⟨_, rfl⟩
    exact hb.donations
  have hh : k'.holder = k.holder := by
    rcases donatePriority_footprint hdon with ⟨_, rfl⟩
    exact hb.holder
  have hnot : ∀ v, k.running ∉ k.donations v := by
    intro v hv
    obtain ⟨m, hm, -⟩ := h.donor _ v hv
    rw [hfree] at hm
    cases hm
  have hmem : ∀ t v, t ∈ k'.donations v ↔ t ∈ k.donations v ∨ (t = k.running ∧ v = u) := by
    intro t v
    rw [hd]
    by_cases hv : v = u
    · subst hv
      simp [Kernel.donating, or_comm]
    · simp [Kernel.donating, hv]
  have hmem' : ∀ t m, t ∈ k'.lockWaiters m ↔ t ∈ k.lockWaiters m ∨ (t = k.running ∧ m = l) := by
    intro t m
    rcases hq with ⟨ws, hp, hws⟩
    rw [hws]
    by_cases hm : m = l
    · subst hm
      simp [hp.mem_iff, or_comm]
    · simp [hm]
  refine ⟨fun t m ht => ?_, fun t v ht => ?_, fun v => ?_⟩
  · rw [hw] at ht
    by_cases htr : t = k.running
    · subst htr
      have hml : l = m := by simpa using ht
      subst hml
      exact ⟨u, by rw [hh]; exact hl, (hmem _ _).2 (Or.inr ⟨rfl, rfl⟩),
        (hmem' _ _).2 (Or.inr ⟨rfl, rfl⟩)⟩
    · have ht' : k.waitingLock t = some m := by simpa [htr] using ht
      obtain ⟨v, hv, hm, hwt⟩ := h.linked t m ht'
      exact ⟨v, by rw [hh]; exact hv, (hmem _ _).2 (Or.inl hm), (hmem' _ _).2 (Or.inl hwt)⟩
  · rcases (hmem t v).1 ht with ht | ⟨rfl, rfl⟩
    · obtain ⟨m, hm, hv⟩ := h.donor t v ht
      have htr : t ≠ k.running := fun e => hnot v (e ▸ ht)
      refine ⟨m, ?_, by rw [hh]; exact hv⟩
      rw [hw, update_of_ne htr]
      exact hm
    · exact ⟨l, by rw [hw, update_self], by rw [hh]; exact hl⟩
  · rw [hd]
    by_cases hv : v = u
    · subst hv
      simpa [Kernel.donating, insertOrdered_nodup, hnot] using h.nodup v
    · simpa [Kernel.donating, hv] using h.nodup v

/-- The holder gives up the lock: all links through it are gone. -/
theorem Links.released (h : Links k) (hl : k.holder l = some k.running) :
    Links (k.released l) := by
  have hnd := h.nodup k.running
  have hw := @released_waitingLock k l hnd
  have hd := @released_donations k l hnd
  have hh := released_holder k l
  have hmem : ∀ t v, t ∈ (k.released l).donations v ↔
      t ∈ k.donations v ∧ (v = k.running → k.waitingLock t ≠ some l) := by
    intro t v
    rw [(hd v).mem_iff]
    by_cases hv : v = k.running
    · subst hv
      simp
    · simp [hv]
  refine ⟨fun t m ht => ?_, fun t v ht => ?_, fun v => ?_⟩
  · rw [hw] at ht
    split at ht
    · cases ht
    · rename_i hnot
      obtain ⟨v, hv, hm, hwt⟩ := h.linked t m ht
      have hne : m ≠ l := by
        rintro rfl
        rw [hl] at hv
        cases hv
        exact hnot ⟨hm, ht⟩
      refine ⟨v, ?_, (hmem t v).2 ⟨hm, fun _ => ?_⟩, ?_⟩
      · rw [hh, update_of_ne hne]
        exact hv
      · rw [ht]
        simpa using hne
      · rw [released_lockWaiters]
        exact hwt
  · obtain ⟨hm, hnot⟩ := (hmem t v).1 ht
    obtain ⟨m, hm', hv⟩ := h.donor t v hm
    have hne : m ≠ l := by
      rintro rfl
      rw [hl] at hv
      cases hv
      exact hnot rfl hm'
    refine ⟨m, ?_, by rw [hh, update_of_ne hne]; exact hv⟩
    rw [hw, if_neg]
    · exact hm'
    · rintro ⟨-, he⟩
      rw [hm'] at he
      exact hne (by simpa using he)
  · rw [(hd v).nodup_iff]
    by_cases hv : v = k.running
    · subst hv
      simpa using hnd.filter _
    · simpa [hv] using h.nodup v

end Links

/-! ## The walk of `donate_priority` -/

/-- The holder of the lock that the thread waits for. -/
def Kernel.donee (k : Kernel) (t : ThreadPtr) : Option ThreadPtr :=
  (k.waitingLock t).bind k.holder

/-- The threads that `n` turns of the loop come to from the thread `t`. -/
def Kernel.walk (k : Kernel) : Nat → ThreadPtr → List ThreadPtr
  | 0, _ => []
  | n + 1, t =>
      t :: match k.donee t with
        | none => []
        | some u => k.walk n u

section Walk

variable {k k' : Kernel} {l : LockPtr}

theorem Kernel.donee_eq_some {t u : ThreadPtr} :
    k.donee t = some u ↔ ∃ m, k.waitingLock t = some m ∧ k.holder m = some u :=
  Option.bind_eq_some_iff

/-- Whoever comes after the first thread is the successor of somebody on the walk. -/
theorem Kernel.walk_pred {n : Nat} {t u : ThreadPtr} (h : u ∈ k.walk n t) :
    u = t ∨ ∃ v ∈ k.walk n t, k.donee v = some u := by
  induction n generalizing t with
  | zero =>
      cases h
  | succ n ih =>
      unfold Kernel.walk at h ⊢
      rcases List.mem_cons.1 h with he | h
      · exact Or.inl he
      · cases hd : k.donee t with
        | none =>
            simp [hd] at h
        | some w =>
            simp only [hd] at h ⊢
            rcases ih h with rfl | ⟨v, hv, hu⟩
            · exact Or.inr ⟨t, List.mem_cons_self, hd⟩
            · exact Or.inr ⟨v, List.mem_cons_of_mem _ hv, hu⟩

/-- When every awaited lock has a holder, the loop follows no `NULL` pointer. -/
theorem donateLoop_not_null (hk : ∀ t m, k.waitingLock t = some m → k.holder m ≠ none) (n : Nat)
    (t : ThreadPtr) : donateLoop n k t ≠ .error .nullPointer := by
  induction n generalizing k t with
  | zero =>
      intro h
      cases h
  | succ n ih =>
      intro h
      unfold donateLoop at h
      split at h
      · cases h
      · rename_i m hm
        split at h
        · rename_i hn
          exact hk t m hm hn
        · rename_i u hu
          exact @ih (k.donatedTo u) hk u h

theorem Links.lockDonate_not_null (h : Links k) (l : LockPtr) :
    lockDonate k l ≠ .error .nullPointer := by
  intro hd
  unfold lockDonate at hd
  split at hd
  · cases hd
  · rename_i u hu
    have hself : (k.donating l u).waitingLock k.running = some l := by simp [Kernel.donating]
    have hk : ∀ t m, (k.donating l u).waitingLock t = some m → k.holder m ≠ none := by
      intro t m ht
      by_cases htr : t = k.running
      · subst htr
        rw [hself] at ht
        cases ht
        simp [hu]
      · have ht' : k.waitingLock t = some m := by simpa [Kernel.donating, htr] using ht
        obtain ⟨v, hv, -⟩ := h.linked t m ht'
        simp [hv]
    unfold donatePriority at hd
    split at hd
    · rename_i hn
      have hn' : (k.donating l u).waitingLock k.running = none := hn
      rw [hself] at hn'
      cases hn'
    · rename_i m hm
      split at hd
      · rename_i hn
        exact hk _ m hm hn
      · rename_i v hv
        refine donateLoop_not_null ?_ _ v hd
        exact hk

end Walk

/-! ## Every step keeps the links -/

section Steps

variable {k k' : Kernel} {σ σ' : System} {order : Kernel → ThreadPtr → ThreadPtr → Bool}

/-- A running thread is not linked. -/
theorem Links.running_free {code : ThreadPtr → List Frame} (h : Links k) (hlive : Live k code) :
    k.waitingLock k.running = none := by
  cases hw : k.waitingLock k.running with
  | none =>
      rfl
  | some l =>
      obtain ⟨-, -, -, hm⟩ := h.linked _ l hw
      exact absurd hm (hlive.not_wait_of_status (by simp [hlive.status_running]) _)

theorem Links.does {op : BookOp} (h : Links k) (hfree : k.waitingLock k.running = none)
    (hd : op.Does k k') : Links k' := by
  cases op with
  | keep =>
      rcases hd with ⟨hb, hw⟩
      exact h.of_sameBook hb fun t l _ hm => by rw [hw]; exact hm
  | take l =>
      rcases hd with ⟨hl, hb, hw⟩
      exact h.take hl hfree hb hw
  | wait l =>
      rcases hd with ⟨⟨u, k₁, hl, hdon, hb⟩, hq⟩
      exact h.donate hl hfree hdon hb hq
  | requeue l =>
      rcases hd with ⟨-, hb, ws, hp, hw⟩
      refine h.of_sameBook hb fun t m _ hm => ?_
      rw [hw]
      by_cases he : m = l
      · subst he
        rw [update_self]
        exact hp.symm.subset (List.mem_cons_of_mem _ hm)
      · rw [update_of_ne he]
        exact hm
  | release l =>
      rcases hd with ⟨hl, hb, ws, -, hw⟩
      have hrel := h.released hl
      have hnone : (k.released l).holder l = none := by
        rw [released_holder, update_self]
      refine hrel.of_sameBook hb fun t m ht hm => ?_
      -- the woken thread is linked to nothing: its lock has no holder
      have hne : m ≠ l := fun e => hrel.not_free hnone t (e ▸ ht)
      rw [hw, update_of_ne hne]
      rw [released_lockWaiters] at hm
      exact hm
  | create t p =>
      rcases hd with ⟨hnot, hb, hw⟩
      have hwl : k.waitingLock t = none := by
        cases hwl : k.waitingLock t with
        | none => rfl
        | some l =>
            obtain ⟨-, -, -, hm⟩ := h.linked t l hwl
            exact absurd hm (hnot l).2
      have hdon : k.donations t = [] := by
        refine List.eq_nil_iff_forall_not_mem.2 fun d hm => ?_
        obtain ⟨l, -, hl⟩ := h.donor d t hm
        exact (hnot l).1 hl
      refine h.of_same ?_ (fun u => ?_) (fun u l _ => by rw [hb.holder]; rfl) fun u l _ hm => ?_
      · rw [hb.waitingLock]
        show update k.waitingLock t none = k.waitingLock
        rw [← hwl, update_eq_self]
      · rw [hb.donations]
        show (update k.donations t [] u).Perm _
        rw [← hdon, update_eq_self]
      · rw [hw]
        exact hm
  | setPriority p =>
      rcases hd with ⟨hb, hw⟩
      have hres := resetPriority_footprint (k.prioritySet p)
      refine h.of_same ?_ (fun t => ?_) (fun t l _ => ?_) fun t l _ hm => by rw [hw]; exact hm
      · rw [hb.waitingLock]
        rcases hres with ⟨_, _, he⟩
        rw [he]
        rfl
      · rw [hb.donations]
        exact resetPriority_perm _ t
      · rw [hb.holder]
        rcases hres with ⟨_, _, he⟩
        rw [he]
        rfl

theorem Links.step {a : Act} (h : Links σ.kernel) (hco : Coarse σ)
    (hs : Project2.step ⟨.calls, order⟩ a σ = some σ') : Links σ'.kernel :=
  h.does (h.running_free hco.live) (hco.step_bookOp (h.running_free hco.live) hs)

theorem boot_links (init : Nat → Fin unsignedSize) (idle : ThreadPtr) :
    Links (boot init idle).kernel := by
  refine ⟨fun t l ht => ?_, fun t h ht => ?_, fun h => List.nodup_nil⟩
  · cases ht
  · cases ht

/-- The invariants of the runs of calls, together. -/
structure Linked (σ : System) : Prop where
  coarse : Coarse σ
  bare : NoBare σ
  links : Links σ.kernel

theorem Linked.step {a : Act} (h : Linked σ) (hu : CallUse σ a)
    (hs : Project2.step ⟨.calls, order⟩ a σ = some σ') : Linked σ' := by
  obtain ⟨hc, hb⟩ := h.coarse.step_use h.bare hu hs
  exact ⟨hc, hb, h.links.step h.coarse hs⟩

theorem boot_linked (init : Nat → Fin unsignedSize) (idle : ThreadPtr) :
    Linked (boot init idle) :=
  ⟨boot_coarse init idle, boot_noBare init idle, boot_links init idle⟩

theorem linked_of_reach {init : Nat → Fin unsignedSize} {idle : ThreadPtr}
    (h : Reach (Project2.step ⟨.calls, order⟩) CallUse (boot init idle) σ) : Linked σ :=
  h.invariant (boot_linked init idle) fun _ _ _ hi hu hs => hi.step hu hs

end Steps

/-! ## The links in every run -/

section Runs

variable {σ : System} {order : Kernel → ThreadPtr → ThreadPtr → Bool}

/-- The donors of a thread are the threads that wait for a lock it holds, awaited locks have
holders, no donor is listed twice, a thread that is not blocked waits for no lock, and the walk of
`donate_priority` meets living threads only. -/
theorem donation_links {init : Nat → Fin unsignedSize} {idle : ThreadPtr}
    (h : Reach (step ⟨.calls, order⟩) CallUse (boot init idle) σ) :
    (∀ t u, t ∈ σ.kernel.donations u ↔
        ∃ l, σ.kernel.waitingLock t = some l ∧ σ.kernel.holder l = some u) ∧
      (∀ t l, σ.kernel.waitingLock t = some l → σ.kernel.holder l ≠ none) ∧
      (∀ t u v, t ∈ σ.kernel.donations u → t ∈ σ.kernel.donations v → u = v) ∧
      (∀ u, (σ.kernel.donations u).Nodup) ∧
      (∀ t, σ.kernel.status t ≠ .blocked → σ.kernel.waitingLock t = none) ∧
      (∀ l, lockDonate σ.kernel l ≠ .error .nullPointer) ∧
      ∀ l u n v, σ.kernel.holder l = some u → v ∈ (σ.kernel.donating l u).walk n u →
        v ∈ σ.kernel.allList ∧ σ.kernel.status v ≠ .dying := by
  have hl := linked_of_reach h
  have hlinks := hl.links
  refine ⟨fun t u => ⟨fun ht => hlinks.donor t u ht, ?_⟩, fun t l ht => ?_, fun t u v hu hv => ?_,
    hlinks.nodup, fun t ht => ?_, fun l => hlinks.lockDonate_not_null l, fun l u n v hu hv => ?_⟩
  · rintro ⟨l, hw, hh⟩
    obtain ⟨v, hv, hm, -⟩ := hlinks.linked t l hw
    rw [hh] at hv
    cases hv
    exact hm
  · obtain ⟨u, hu, -⟩ := hlinks.linked t l ht
    simp [hu]
  · obtain ⟨l, hw, hh⟩ := hlinks.donor t u hu
    obtain ⟨m, hw', hh'⟩ := hlinks.donor t v hv
    rw [hw] at hw'
    cases hw'
    rw [hh] at hh'
    cases hh'
    rfl
  · cases hw : σ.kernel.waitingLock t with
    | none => rfl
    | some l =>
        obtain ⟨-, -, -, hm⟩ := hlinks.linked t l hw
        exact absurd hm (hl.coarse.live.not_wait_of_status ht _)
  · have hmem : v ∈ σ.kernel.allList := by
      rcases Kernel.walk_pred hv with he | ⟨w, -, hw⟩
      · rw [he]
        exact hl.coarse.alive l u hu
      · obtain ⟨m, -, hm⟩ := Kernel.donee_eq_some.1 hw
        exact hl.coarse.alive m v hm
    exact ⟨hmem, fun hd => (hl.coarse.live.placed v).dead.2 hd hmem⟩

/-- The initial thread holds lock 0 and thread 2 blocks in `lock_acquire`. -/
def donorActs : List Act :=
  bootActs ++ [.call (.lockAcquire 0), .exec] ++ createActs 2 40 ++ [.call (.lockAcquire 0), .exec]

def donorSystem : System :=
  (runAll (step .calls) donorActs (boot allZero 1)).get (by decide +kernel)

theorem donation_links_donor :
    (2 ∈ donorSystem.kernel.donations 0 ∧ donorSystem.kernel.priority 0 = 40) ∧
      ∃ l, donorSystem.kernel.waitingLock 2 = some l ∧ donorSystem.kernel.holder l = some 0 := by
  have hrun : Exec (step .calls) (boot allZero 1) (trace (step .calls) donorActs (boot allZero 1))
      donorSystem := Exec.of_runAll (Option.some_get _).symm
  have h := donation_links (hrun.reach (by decide +kernel))
  exact ⟨by decide +kernel, (h.1 2 0).1 (by decide +kernel)⟩

end Runs

end Project2
end Pintos
