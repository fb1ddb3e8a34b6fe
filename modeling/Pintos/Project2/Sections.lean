import Pintos.Project2.Synch

/-!
# Sections — the statements of `lock_acquire` and `lock_release` that must not meet

`lock_acquire` follows `lock->holder` and `waiting_lock` from its test of the holder to the end of
`donate_priority`; `lock_release` takes both away from `lock->holder = NULL` to the end of
`remove_lock`.  Neither part runs with interrupts disabled.

`Tracked` is what holds of the links between threads and locks, statement by statement, as long as
no thread follows a lock in the one part while another takes the waiters of that lock off in the
other.
-/

namespace Pintos
namespace Project2

open Lib Function

/-! ## The two parts -/

/-- The statements behind the test of `lock->holder`, to the end of `donate_priority`. -/
def LockStmt.inAcquire : LockStmt → Bool
  | setWaiting _ | insertDonation _ | donateFirst | donateSet _ | donateTest _ | donateNext _ =>
      true
  | _ => false

/-- The lock whose holder the statement, executed by `t`, follows or is about to follow. -/
def LockStmt.follows (k : Kernel) (t : ThreadPtr) : LockStmt → Option LockPtr
  | setWaiting l | insertDonation l => some l
  | donateFirst => k.waitingLock t
  | donateNext lockHolder => k.waitingLock lockHolder
  | _ => none

/-- The lock that is being released, behind `lock->holder = NULL` and to the end of
`remove_lock`. -/
def LockStmt.removes : LockStmt → Option LockPtr
  | removeBegin l | removeTest l _ | removeClear l _ | removeUnlink l _ | removeNext l _ => some l
  | _ => none

/-- Statements that follow or change the links. -/
def LockStmt.isSection : LockStmt → Bool
  | acquireTest _ | clearHolder _ => true
  | st => st.inAcquire || st.removes.isSome

/-- `u` holds the lock, or is taking its waiters off. -/
def Gives (k : Kernel) (pc : ThreadPtr → Option LockStmt) (l : LockPtr) (u : ThreadPtr) : Prop :=
  k.holder l = some u ∨ ∃ st, pc u = some st ∧ st.removes = some l

/-- `t` owns the lock: it holds it, enters itself as the holder or releases it. -/
def Claims (k : Kernel) (pc : ThreadPtr → Option LockStmt) (l : LockPtr) (t : ThreadPtr) : Prop :=
  Gives k pc l t ∨ pc t = some (.setHolder l) ∨ pc t = some (.clearHolder l)

/-- What a statement of the thread `t` relies on.  The loop of `remove_lock` has the threads that
still wait for the lock in front of it. -/
def LockStmt.Needs (k : Kernel) (t : ThreadPtr) : LockStmt → Prop
  | setWaiting l | insertDonation l => k.holder l ≠ none
  | donateSet lockHolder => lockHolder ≠ none
  | donateNext h => k.waitingLock h ≠ none
  | clearHolder l => k.holder l = some t
  | removeBegin l => ∀ u, k.waitingLock u = some l → u ∈ k.donations t
  | removeTest l e => ∃ before after, k.donations t = before ++ after ∧ e = after.head? ∧
      ∀ u, k.waitingLock u = some l → u ∈ after
  | removeClear l d => k.waitingLock d = some l ∧ ∃ before after,
      k.donations t = before ++ d :: after ∧ ∀ u, k.waitingLock u = some l → u = d ∨ u ∈ after
  | removeUnlink l d => k.waitingLock d = none ∧ ∃ before after,
      k.donations t = before ++ d :: after ∧ ∀ u, k.waitingLock u = some l → u ∈ after
  | removeNext l d => ∃ before after,
      k.donations t = before ++ d :: after ∧ ∀ u, k.waitingLock u = some l → u ∈ after
  | _ => True

/-- The links, while each thread is about to execute the statement that `pc` gives. -/
structure Tracked (k : Kernel) (pc : ThreadPtr → Option LockStmt) : Prop where
  /-- whoever has set `waiting_lock` is a donor, but for the one statement in between -/
  linked : ∀ t l, k.waitingLock t = some l → pc t ≠ some (.insertDonation l) →
    ∃ u, t ∈ k.donations u ∧ Gives k pc l u
  /-- every donor waits for a lock, unless it is about to be unlinked -/
  donor : ∀ t u, t ∈ k.donations u →
    (∃ l, k.waitingLock t = some l ∧ pc t ≠ some (.insertDonation l) ∧ Gives k pc l u) ∨
      ∃ l, pc u = some (.removeUnlink l t)
  nodup : ∀ u, (k.donations u).Nodup
  needs : ∀ t st, pc t = some st → st.Needs k t

section Tracked

variable {k k' : Kernel} {pc : ThreadPtr → Option LockStmt} {l : LockPtr} {r t : ThreadPtr}
  {new : Option LockStmt} {st : LockStmt}

theorem LockStmt.needs_of_not_section (h : st.isSection = false) : st.Needs k t := by
  cases st <;> trivial

theorem LockStmt.removes_of_not_section (h : st.isSection = false) : st.removes = none := by
  cases st <;> first | rfl | cases h

theorem LockStmt.inAcquire_of_not_section (h : st.isSection = false) : st.inAcquire = false := by
  cases st <;> first | rfl | cases h

theorem LockStmt.follows_congr (hw : k'.waitingLock = k.waitingLock) :
    st.follows k' t = st.follows k t := by
  cases st <;> simp only [LockStmt.follows, hw]

theorem LockStmt.Needs.congr (h : st.Needs k t) (hw : k'.waitingLock = k.waitingLock)
    (hd : k'.donations t = k.donations t) (hh : k'.holder = k.holder) : st.Needs k' t := by
  cases st <;> simp only [LockStmt.Needs, hw, hd, hh] at h ⊢ <;> exact h

/-- Members other than the links differ. -/
theorem Tracked.same (h : Tracked k pc) (hw : k'.waitingLock = k.waitingLock)
    (hd : k'.donations = k.donations) (hh : k'.holder = k.holder) : Tracked k' pc where
  linked := by
    unfold Gives
    rw [hw, hd, hh]
    exact h.linked
  donor := by
    unfold Gives
    rw [hw, hd, hh]
    exact h.donor
  nodup := by
    rw [hd]
    exact h.nodup
  needs := fun t st ht => (h.needs t st ht).congr hw (by rw [hd]) hh

theorem update_pc_kept {u : ThreadPtr} {st st' : LockStmt} (hpc : pc r = some st)
    (hu : pc u = some st') (hne : st' ≠ st) : update pc r new u = some st' := by
  have hur : u ≠ r := by
    rintro rfl
    exact hne (Option.some.inj (hu.symm.trans hpc))
  rw [update_of_ne hur, hu]

theorem update_pc_ne_insert {t : ThreadPtr} (hold : pc r ≠ some (.insertDonation l))
    (hnew : new ≠ some (.insertDonation l)) :
    pc t ≠ some (.insertDonation l) ↔ update pc r new t ≠ some (.insertDonation l) := by
  by_cases htr : t = r
  · subst htr
    simp [hold, hnew]
  · rw [update_of_ne htr]

theorem Gives.update_pc {u : ThreadPtr} (h : Gives k pc l u)
    (hrem : ∀ st l, pc r = some st → st.removes = some l →
      ∃ st', new = some st' ∧ st'.removes = some l) : Gives k (update pc r new) l u := by
  rcases h with h | ⟨st, hst, hl⟩
  · exact Or.inl h
  · by_cases hu : u = r
    · subst hu
      obtain ⟨st', hst', hl'⟩ := hrem st l hst hl
      exact Or.inr ⟨st', by rw [update_self, hst'], hl'⟩
    · exact Or.inr ⟨st, by rw [update_of_ne hu, hst], hl⟩

/-- The thread `r` goes on with the release of the same lock, or with none as before. -/
theorem Gives.next {u : ThreadPtr} {st' : LockStmt} (h : Gives k pc l u) (hpc : pc r = some st)
    (hrem : st'.removes = st.removes) (hh : k'.holder = k.holder) :
    Gives k' (update pc r (some st')) l u := by
  have hg : Gives k (update pc r (some st')) l u := by
    refine h.update_pc fun st₀ m hst hm => ⟨st', rfl, ?_⟩
    rw [hpc] at hst
    cases hst
    exact hrem.trans hm
  unfold Gives at hg ⊢
  rwa [hh]

/-- The thread `r` goes on to a statement that says no less of it, and no link changes. -/
theorem Tracked.goOn (h : Tracked k pc) (hins : ∀ l, pc r ≠ some (.insertDonation l))
    (hunlink : ∀ l d, pc r ≠ some (.removeUnlink l d))
    (hrem : ∀ st l, pc r = some st → st.removes = some l →
      ∃ st', new = some st' ∧ st'.removes = some l)
    (hnew : ∀ st, new = some st → st.Needs k r)
    (hins' : ∀ l, new ≠ some (.insertDonation l)) : Tracked k (update pc r new) where
  linked := by
    intro t l hw ht
    obtain ⟨u, hu, hg⟩ := h.linked t l hw ((update_pc_ne_insert (hins l) (hins' l)).2 ht)
    exact ⟨u, hu, hg.update_pc hrem⟩
  donor := by
    intro t u ht
    rcases h.donor t u ht with ⟨l, hw, hne, hg⟩ | ⟨l, hu⟩
    · exact Or.inl ⟨l, hw, (update_pc_ne_insert (hins l) (hins' l)).1 hne, hg.update_pc hrem⟩
    · have hur : u ≠ r := by
        rintro rfl
        exact hunlink l t hu
      exact Or.inr ⟨l, by rw [update_of_ne hur, hu]⟩
  nodup := h.nodup
  needs := by
    intro t st ht
    by_cases htr : t = r
    · subst htr
      rw [update_self] at ht
      exact hnew st ht
    · rw [update_of_ne htr] at ht
      exact h.needs t st ht

/-! ## `lock_acquire` -/

/-- `thread_current ()->waiting_lock = lock`. -/
theorem Tracked.setWaiting (h : Tracked k pc) (hpc : pc r = some (.setWaiting l))
    (hfree : k.waitingLock r = none)
    (hno : ∀ u st, pc u = some st → st.removes ≠ some l)
    (hout : ∀ u m, pc u ≠ some (.removeUnlink m r)) :
    Tracked { k with waitingLock := update k.waitingLock r (some l) }
      (update pc r (some (.insertDonation l))) := by
  -- another lock that is being released has no new waiter
  have hwaits : ∀ {t st m u}, pc t = some st → st.removes = some m →
      update k.waitingLock r (some l) u = some m → k.waitingLock u = some m := by
    intro t st m u ht hrem hu
    by_cases hur : u = r
    · rw [hur, update_self] at hu
      exact absurd (hrem.trans hu.symm) (hno t st ht)
    · rwa [update_of_ne hur] at hu
  constructor
  · intro t m hw ht
    by_cases htr : t = r
    · subst htr
      have hm : l = m := by simpa using hw
      simp [hm] at ht
    · have hw' : k.waitingLock t = some m := by simpa [htr] using hw
      rw [update_of_ne htr] at ht
      obtain ⟨u, hu, hg⟩ := h.linked t m hw' ht
      exact ⟨u, hu, hg.next hpc rfl rfl⟩
  · intro t u ht
    rcases h.donor t u ht with ⟨m, hw, hne, hg⟩ | ⟨m, hu⟩
    · have htr : t ≠ r := by
        rintro rfl
        rw [hfree] at hw
        cases hw
      exact Or.inl ⟨m, by simpa [htr] using hw, by rwa [update_of_ne htr], hg.next hpc rfl rfl⟩
    · exact Or.inr ⟨m, update_pc_kept hpc hu (by simp)⟩
  · exact h.nodup
  · intro t st ht
    by_cases htr : t = r
    · subst htr
      rw [update_self] at ht
      cases ht
      exact h.needs t _ hpc
    · rw [update_of_ne htr] at ht
      have hold := h.needs t st ht
      cases st with
      | donateNext v =>
          by_cases hv : v = r
          · simp [LockStmt.Needs, hv]
          · simpa [LockStmt.Needs, hv] using hold
      | removeBegin m =>
          exact fun u hu => hold u (hwaits ht rfl hu)
      | removeTest m e =>
          obtain ⟨b, a, hl, he, ha⟩ := hold
          exact ⟨b, a, hl, he, fun u hu => ha u (hwaits ht rfl hu)⟩
      | removeClear m d =>
          obtain ⟨hd, b, a, hl, ha⟩ := hold
          have hdr : d ≠ r := by
            rintro rfl
            rw [hfree] at hd
            cases hd
          exact ⟨by simpa [hdr] using hd, b, a, hl,
            fun u hu => ha u (hwaits ht rfl hu)⟩
      | removeUnlink m d =>
          obtain ⟨hd, b, a, hl, ha⟩ := hold
          have hdr : d ≠ r := by
            rintro rfl
            exact hout t m ht
          exact ⟨by simpa [hdr] using hd, b, a, hl,
            fun u hu => ha u (hwaits ht rfl hu)⟩
      | removeNext m d =>
          obtain ⟨b, a, hl, ha⟩ := hold
          exact ⟨b, a, hl, fun u hu => ha u (hwaits ht rfl hu)⟩
      | _ => exact hold

/-- `list_insert_ordered (&lock->holder->donations, …)`. -/
theorem Tracked.insertDonation {less : ThreadPtr → ThreadPtr → Bool} {u : ThreadPtr}
    (h : Tracked k pc) (hpc : pc r = some (.insertDonation l)) (hw : k.waitingLock r = some l)
    (hl : k.holder l = some u) :
    Tracked { k with donations := update k.donations u (insertOrdered less r (k.donations u)) }
      (update pc r (some .donateFirst)) := by
  have hmem : ∀ t v, t ∈ update k.donations u (insertOrdered less r (k.donations u)) v ↔
      t ∈ k.donations v ∨ t = r ∧ v = u := by
    intro t v
    by_cases hv : v = u
    · subst hv
      simp [or_comm]
    · simp [hv]
  have hnot : ∀ v, r ∉ k.donations v := by
    intro v hv
    rcases h.donor r v hv with ⟨m, hm, hne, -⟩ | ⟨m, hv'⟩
    · rw [hw] at hm
      cases hm
      exact hne hpc
    · have hcleared := (h.needs v _ hv').1
      rw [hw] at hcleared
      cases hcleared
  -- a loop of `remove_lock` over the same list goes on behind the new element or passes it later
  have hsplit : ∀ {t before after}, k.donations t = before ++ after → ∃ before' after',
      update k.donations u (insertOrdered less r (k.donations u)) t = before' ++ after' ∧
        after'.head? = after.head? ∧ after ⊆ after' := by
    intro t before after hlist
    by_cases htu : t = u
    · rw [htu, update_self, ← htu, hlist]
      exact insertOrdered_split r before after
    · exact ⟨before, after, by rw [update_of_ne htu, hlist], rfl, fun _ => id⟩
  have hbehind : ∀ {t d before after}, k.donations t = before ++ d :: after → ∃ before' after',
      update k.donations u (insertOrdered less r (k.donations u)) t = before' ++ d :: after' ∧
        ∀ v ∈ after, v = d ∨ v ∈ after' := by
    intro t d before after hlist
    obtain ⟨before', after', hlist', hhead, hsub⟩ := hsplit hlist
    obtain ⟨after'', rfl⟩ := List.head?_eq_some_iff.1 hhead
    exact ⟨before', after'', hlist', fun v hv => List.mem_cons.1 (hsub (List.mem_cons_of_mem _ hv))⟩
  constructor
  · intro t m ht hne
    by_cases htr : t = r
    · subst htr
      rw [show k.waitingLock t = some m from ht] at hw
      cases hw
      exact ⟨u, (hmem t u).2 (Or.inr ⟨rfl, rfl⟩), Or.inl hl⟩
    · rw [update_of_ne htr] at hne
      obtain ⟨v, hv, hg⟩ := h.linked t m ht hne
      exact ⟨v, (hmem t v).2 (Or.inl hv), hg.next hpc rfl rfl⟩
  · intro t v ht
    rcases (hmem t v).1 ht with ht | ⟨rfl, rfl⟩
    · have htr : t ≠ r := fun e => hnot v (e ▸ ht)
      rcases h.donor t v ht with ⟨m, hm, hne, hg⟩ | ⟨m, hv⟩
      · exact Or.inl ⟨m, hm, by rwa [update_of_ne htr], hg.next hpc rfl rfl⟩
      · exact Or.inr ⟨m, update_pc_kept hpc hv (by simp)⟩
    · exact Or.inl ⟨l, hw, by simp, Or.inl hl⟩
  · intro v
    by_cases hv : v = u
    · subst hv
      simpa [insertOrdered_nodup] using ⟨hnot v, h.nodup v⟩
    · simpa [hv] using h.nodup v
  · intro t st ht
    by_cases htr : t = r
    · subst htr
      rw [update_self] at ht
      cases ht
      trivial
    · rw [update_of_ne htr] at ht
      have hold := h.needs t st ht
      cases st with
      | removeBegin m => exact fun v hv => (hmem v t).2 (Or.inl (hold v hv))
      | removeTest m e =>
          obtain ⟨b, a, hl, he, ha⟩ := hold
          obtain ⟨b', a', hl', hhead, hsub⟩ := hsplit hl
          exact ⟨b', a', hl', he.trans hhead.symm, fun v hv => hsub (ha v hv)⟩
      | removeClear m d =>
          obtain ⟨hd, b, a, hl, ha⟩ := hold
          obtain ⟨b', a', hl', hsub⟩ := hbehind hl
          exact ⟨hd, b', a', hl', fun v hv => (ha v hv).elim Or.inl (hsub v)⟩
      | removeUnlink m d =>
          obtain ⟨hd, b, a, hl, ha⟩ := hold
          obtain ⟨b', a', hl', hsub⟩ := hbehind hl
          refine ⟨hd, b', a', hl', fun v hv => (hsub v (ha v hv)).resolve_left ?_⟩
          rintro rfl
          rw [show k.waitingLock v = some m from hv] at hd
          cases hd
      | removeNext m d =>
          obtain ⟨b, a, hl, ha⟩ := hold
          obtain ⟨b', a', hl', hsub⟩ := hbehind hl
          refine ⟨b', a', hl', fun v hv => (hsub v (ha v hv)).resolve_left ?_⟩
          rintro rfl
          -- the element that the loop is at does not occur behind itself
          have hnd := h.nodup t
          rw [hl] at hnd
          exact (List.nodup_cons.1 (List.nodup_append.1 hnd).2.1).1 (ha v hv)
      | _ => exact hold

/-- `lock->holder = thread_current ()`. -/
theorem Tracked.setHolder (h : Tracked k pc) (hpc : pc r = some (.setHolder l))
    (huniq : ∀ l t u, Claims k pc l t → Claims k pc l u → t = u)
    (hnew : ∀ st, new = some st → st.isSection = false) :
    Tracked { k with holder := update k.holder l (some r) } (update pc r new) := by
  have hgives : ∀ {m v}, Gives k pc m v →
      Gives { k with holder := update k.holder l (some r) } (update pc r new) m v := by
    rintro m v (hg | ⟨st, hst, hrem⟩)
    · by_cases hm : m = l
      · subst hm
        -- nobody but the owner can be the holder
        have hv : v = r := huniq m v r (Or.inl (Or.inl hg)) (Or.inr (Or.inl hpc))
        exact Or.inl (by simp [hv])
      · exact Or.inl (by simpa [hm] using hg)
    · exact Or.inr ⟨st, update_pc_kept hpc hst (by rintro rfl; cases hrem), hrem⟩
  have hold : ∀ {t m}, pc t ≠ some (.insertDonation m) ↔
      update pc r new t ≠ some (.insertDonation m) :=
    update_pc_ne_insert (by simp [hpc]) fun e => by cases hnew _ e
  constructor
  · intro t m ht hne
    obtain ⟨u, hu, hg⟩ := h.linked t m ht (hold.2 hne)
    exact ⟨u, hu, hgives hg⟩
  · intro t u ht
    rcases h.donor t u ht with ⟨m, hm, hne, hg⟩ | ⟨m, hu⟩
    · exact Or.inl ⟨m, hm, hold.1 hne, hgives hg⟩
    · exact Or.inr ⟨m, update_pc_kept hpc hu nofun⟩
  · exact h.nodup
  · intro t st ht
    by_cases htr : t = r
    · subst htr
      rw [update_self] at ht
      exact LockStmt.needs_of_not_section (hnew st ht)
    · rw [update_of_ne htr] at ht
      have hold := h.needs t st ht
      cases st with
      | setWaiting m | insertDonation m =>
          by_cases hm : m = l
          · simp [LockStmt.Needs, hm]
          · simpa [LockStmt.Needs, hm] using hold
      | clearHolder m =>
          have hm : m ≠ l := by
            rintro rfl
            exact htr (huniq m t r (Or.inr (Or.inr ht)) (Or.inr (Or.inl hpc)))
          simpa [LockStmt.Needs, hm] using hold
      | _ => exact hold

/-! ## `lock_release` -/

/-- `lock->holder = NULL`. -/
theorem Tracked.clearHolder (h : Tracked k pc) (hpc : pc r = some (.clearHolder l))
    (huniq : ∀ l t u, Claims k pc l t → Claims k pc l u → t = u)
    (hno : ∀ u st, pc u = some st → st.follows k u ≠ some l) :
    Tracked { k with holder := update k.holder l none } (update pc r (some (.removeBegin l))) := by
  have hgives : ∀ {m v}, Gives k pc m v →
      Gives { k with holder := update k.holder l none }
        (update pc r (some (.removeBegin l))) m v := by
    rintro m v (hg | ⟨st, hst, hrem⟩)
    · by_cases hm : m = l
      · subst hm
        have hv : v = r := huniq m v r (Or.inl (Or.inl hg)) (Or.inr (Or.inr hpc))
        exact Or.inr ⟨.removeBegin m, by rw [hv, update_self], rfl⟩
      · exact Or.inl (by simpa [hm] using hg)
    · exact Or.inr ⟨st, update_pc_kept hpc hst (by rintro rfl; cases hrem), hrem⟩
  have hins : ∀ t m, pc t ≠ some (.insertDonation m) ↔
      update pc r (some (.removeBegin l)) t ≠ some (.insertDonation m) :=
    fun t m => update_pc_ne_insert (by simp [hpc]) (by simp)
  constructor
  · intro t m ht hne
    obtain ⟨u, hu, hg⟩ := h.linked t m ht ((hins t m).2 hne)
    exact ⟨u, hu, hgives hg⟩
  · intro t u ht
    rcases h.donor t u ht with ⟨m, hm, hne, hg⟩ | ⟨m, hu⟩
    · exact Or.inl ⟨m, hm, (hins t m).1 hne, hgives hg⟩
    · exact Or.inr ⟨m, update_pc_kept hpc hu nofun⟩
  · exact h.nodup
  · intro t st ht
    by_cases htr : t = r
    · subst htr
      rw [update_self] at ht
      cases ht
      -- all threads that wait for the lock are donors of the one that releases it
      intro u hu
      obtain ⟨v, hv, hg⟩ := h.linked u l hu fun e => hno u _ e rfl
      have hvt : v = t := huniq l v t (Or.inl hg) (Or.inr (Or.inr hpc))
      exact hvt ▸ hv
    · rw [update_of_ne htr] at ht
      have hold := h.needs t st ht
      have hacq := hno t st ht
      cases st with
      | setWaiting m | insertDonation m =>
          have hm : m ≠ l := fun e => hacq (congrArg some e)
          simpa [LockStmt.Needs, hm] using hold
      | clearHolder m =>
          have hm : m ≠ l := by
            rintro rfl
            exact htr (huniq m t r (Or.inr (Or.inr ht)) (Or.inr (Or.inr hpc)))
          simpa [LockStmt.Needs, hm] using hold
      | _ => exact hold

/-- `t->waiting_lock = NULL`. -/
theorem Tracked.removeClear {d : ThreadPtr} (h : Tracked k pc)
    (hpc : pc r = some (.removeClear l d))
    (huniq : ∀ l t u, Claims k pc l t → Claims k pc l u → t = u)
    (hno : ∀ u st, pc u = some st → st.follows k u ≠ some l) :
    Tracked { k with waitingLock := update k.waitingLock d none }
      (update pc r (some (.removeUnlink l d))) := by
  obtain ⟨hd, before, after, hlist, hafter⟩ := h.needs r _ hpc
  have hr : Claims k pc l r := Or.inl (Or.inr ⟨_, hpc, rfl⟩)
  have hins : ∀ t m, pc t ≠ some (.insertDonation m) ↔
      update pc r (some (.removeUnlink l d)) t ≠ some (.insertDonation m) :=
    fun t m => update_pc_ne_insert (by simp [hpc]) (by simp)
  constructor
  · intro t m ht hne
    have htd : t ≠ d := by
      rintro rfl
      simp at ht
    obtain ⟨u, hu, hg⟩ := h.linked t m (by simpa [htd] using ht) ((hins t m).2 hne)
    exact ⟨u, hu, hg.next hpc rfl rfl⟩
  · intro t u ht
    rcases h.donor t u ht with ⟨m, hm, hne, hg⟩ | ⟨m, hu⟩
    · by_cases htd : t = d
      · subst htd
        rw [hd] at hm
        cases hm
        have hur : u = r := huniq l u r (Or.inl hg) hr
        exact Or.inr ⟨l, by rw [hur, update_self]⟩
      · exact Or.inl ⟨m, by simpa [htd] using hm, (hins t m).1 hne, hg.next hpc rfl rfl⟩
    · exact Or.inr ⟨m, update_pc_kept hpc hu nofun⟩
  · exact h.nodup
  · have hfewer : ∀ {u m}, update k.waitingLock d none u = some m → k.waitingLock u = some m := by
      intro u m hu
      by_cases hud : u = d
      · subst hud
        simp at hu
      · simpa [hud] using hu
    intro t st ht
    by_cases htr : t = r
    · subst htr
      rw [update_self] at ht
      cases ht
      refine ⟨update_self _ _ _, before, after, hlist, fun u hu => ?_⟩
      refine (hafter u (hfewer hu)).resolve_left ?_
      rintro rfl
      simp at hu
    · rw [update_of_ne htr] at ht
      have hold := h.needs t st ht
      have hacq := hno t st ht
      cases st with
      | donateNext v =>
          have hvd : v ≠ d := by
            rintro rfl
            exact hacq hd
          simpa [LockStmt.Needs, hvd] using hold
      | removeBegin m => exact fun u hu => hold u (hfewer hu)
      | removeTest m e =>
          obtain ⟨b, a, hl, he, ha⟩ := hold
          exact ⟨b, a, hl, he, fun u hu => ha u (hfewer hu)⟩
      | removeClear m v =>
          obtain ⟨hv, b, a, hl, ha⟩ := hold
          have hvd : v ≠ d := by
            rintro rfl
            rw [hd] at hv
            cases hv
            exact htr (huniq l t r (Or.inl (Or.inr ⟨_, ht, rfl⟩)) hr)
          exact ⟨by simpa [hvd] using hv, b, a, hl, fun u hu => ha u (hfewer hu)⟩
      | removeUnlink m v =>
          obtain ⟨hv, b, a, hl, ha⟩ := hold
          refine ⟨?_, b, a, hl, fun u hu => ha u (hfewer hu)⟩
          by_cases hvd : v = d
          · simp [hvd]
          · simpa [hvd] using hv
      | removeNext m v =>
          obtain ⟨b, a, hl, ha⟩ := hold
          exact ⟨b, a, hl, fun u hu => ha u (hfewer hu)⟩
      | _ => exact hold

/-- In a list without repetitions the element behind `d` comes next. -/
theorem listNext_append {before after : List ThreadPtr} {d : ThreadPtr}
    (h : (before ++ d :: after).Nodup) : listNext d (before ++ d :: after) = after.head? := by
  induction before with
  | nil =>
      simp [listNext]
  | cons x before ih =>
      obtain ⟨hx, hnd⟩ := List.nodup_cons.1 h
      have hne : x ≠ d := fun e => hx (by simp [e])
      simpa [listNext, hne] using ih hnd

/-- `list_remove (&t->donation_elem)`. -/
theorem Tracked.removeUnlink {d : ThreadPtr} (h : Tracked k pc)
    (hpc : pc r = some (.removeUnlink l d)) :
    Tracked { k with donations := update k.donations r ((k.donations r).erase d) }
      (update pc r (some (.removeTest l (listNext d (k.donations r))))) := by
  obtain ⟨hd, before, after, hlist, hafter⟩ := h.needs r _ hpc
  have hnd := h.nodup r
  have hmem : ∀ t u, t ∈ update k.donations r ((k.donations r).erase d) u ↔
      t ∈ k.donations u ∧ (u = r → t ≠ d) := by
    intro t u
    by_cases hu : u = r
    · subst hu
      simp [hnd.mem_erase_iff, and_comm]
    · simp [hu]
  have hins : ∀ t m, pc t ≠ some (.insertDonation m) ↔
      update pc r (some (.removeTest l (listNext d (k.donations r)))) t ≠
        some (.insertDonation m) :=
    fun t m => update_pc_ne_insert (by simp [hpc]) (by simp)
  constructor
  · intro t m ht hne
    have htd : t ≠ d := by
      rintro rfl
      rw [show k.waitingLock t = some m from ht] at hd
      cases hd
    obtain ⟨u, hu, hg⟩ := h.linked t m ht ((hins t m).2 hne)
    exact ⟨u, (hmem t u).2 ⟨hu, fun _ => htd⟩, hg.next hpc rfl rfl⟩
  · intro t u ht
    obtain ⟨ht, hne⟩ := (hmem t u).1 ht
    rcases h.donor t u ht with ⟨m, hm, hp, hg⟩ | ⟨m, hu⟩
    · exact Or.inl ⟨m, hm, (hins t m).1 hp, hg.next hpc rfl rfl⟩
    · have hur : u ≠ r := by
        rintro rfl
        rw [hpc] at hu
        cases hu
        exact hne rfl rfl
      exact Or.inr ⟨m, by rw [update_of_ne hur, hu]⟩
  · intro u
    by_cases hu : u = r
    · subst hu
      simpa using hnd.erase d
    · simpa [hu] using h.nodup u
  · intro t st ht
    by_cases htr : t = r
    · subst htr
      rw [update_self] at ht
      cases ht
      rw [hlist] at hnd
      have hnot : d ∉ before := fun hm => by
        have hdisj := (List.nodup_append.1 hnd).2.2
        exact hdisj d hm d List.mem_cons_self rfl
      refine ⟨before, after, ?_, ?_, hafter⟩
      · simp [hlist, List.erase_append_right _ hnot]
      · rw [hlist]
        exact listNext_append hnd
    · rw [update_of_ne htr] at ht
      exact (h.needs t st ht).congr rfl (by simp [htr]) rfl

/-- The end of the loop of `remove_lock`: nobody waits for the lock any more. -/
theorem Tracked.removed (h : Tracked k pc) (hpc : pc r = some (.removeTest l none))
    (hnew : ∀ st, new = some st → st.isSection = false) : Tracked k (update pc r new) := by
  have hnobody : ∀ t, k.waitingLock t ≠ some l := by
    obtain ⟨before, after, -, he, hafter⟩ := h.needs r _ hpc
    have hnil : after = [] := List.head?_eq_none_iff.1 he.symm
    intro t ht
    have hmem := hafter t ht
    rw [hnil] at hmem
    cases hmem
  have hgives : ∀ {t m v}, k.waitingLock t = some m → Gives k pc m v →
      Gives k (update pc r new) m v := by
    rintro t m v ht (hg | ⟨st, hst, hrem⟩)
    · exact Or.inl hg
    · have hv : v ≠ r := by
        rintro rfl
        rw [hpc] at hst
        cases hst
        cases hrem
        exact hnobody t ht
      exact Or.inr ⟨st, by rw [update_of_ne hv, hst], hrem⟩
  have hins : ∀ t m, pc t ≠ some (.insertDonation m) ↔
      update pc r new t ≠ some (.insertDonation m) :=
    fun t m => update_pc_ne_insert (by simp [hpc]) fun e => by cases hnew _ e
  constructor
  · intro t m ht hne
    obtain ⟨u, hu, hg⟩ := h.linked t m ht ((hins t m).2 hne)
    exact ⟨u, hu, hgives ht hg⟩
  · intro t u ht
    rcases h.donor t u ht with ⟨m, hm, hp, hg⟩ | ⟨m, hu⟩
    · exact Or.inl ⟨m, hm, (hins t m).1 hp, hgives hm hg⟩
    · exact Or.inr ⟨m, update_pc_kept hpc hu nofun⟩
  · exact h.nodup
  · intro t st ht
    by_cases htr : t = r
    · subst htr
      rw [update_self] at ht
      exact LockStmt.needs_of_not_section (hnew st ht)
    · rw [update_of_ne htr] at ht
      exact h.needs t st ht

/-- `reset_priority` re-orders the donors of a thread that takes nobody off. -/
theorem Tracked.reorder (h : Tracked k pc) (hpc : ∀ st, pc r = some st → st.removes = none)
    (hw : k'.waitingLock = k.waitingLock) (hh : k'.holder = k.holder)
    (hperm : (k'.donations r).Perm (k.donations r))
    (hd : ∀ u, u ≠ r → k'.donations u = k.donations u) : Tracked k' pc := by
  have hmem : ∀ t u, t ∈ k'.donations u ↔ t ∈ k.donations u := by
    intro t u
    by_cases hu : u = r
    · rw [hu]
      exact hperm.mem_iff
    · rw [hd u hu]
  constructor
  · unfold Gives
    rw [hw, hh]
    intro t m ht hne
    obtain ⟨u, hu, hg⟩ := h.linked t m ht hne
    exact ⟨u, (hmem t u).2 hu, hg⟩
  · unfold Gives
    rw [hw, hh]
    exact fun t u ht => h.donor t u ((hmem t u).1 ht)
  · intro u
    by_cases hu : u = r
    · rw [hu]
      exact hperm.nodup_iff.2 (h.nodup r)
    · rw [hd u hu]
      exact h.nodup u
  · intro t st ht
    have hold := h.needs t st ht
    by_cases htr : t = r
    · subst htr
      have hrem := hpc st ht
      cases st with
      | removeBegin m | removeTest m e | removeClear m d | removeUnlink m d | removeNext m d =>
          cases hrem
      | setWaiting m | insertDonation m | donateNext v | clearHolder m =>
          simpa only [LockStmt.Needs, hw, hh] using hold
      | _ => exact hold
    · exact hold.congr hw (hd t htr) hh

end Tracked

end Project2
end Pintos
