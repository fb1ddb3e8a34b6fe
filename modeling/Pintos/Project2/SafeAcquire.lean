import Pintos.Project2.Sections
import Pintos.Project2.Links

/-!
# SafeAcquire — when `lock_acquire` follows no `NULL` pointer under preemption

`lock_acquire` and `donate_priority` follow `lock->holder` and `waiting_lock` with interrupts
enabled.  A thread switch in the middle lets `lock_release` clear them.

* `Apart`: no thread is about to follow a lock, by its own call or along the locks that others wait
  for, while another is between `lock->holder = NULL` and the end of `remove_lock` for that lock;
* `lock_acquire_not_null`: in a run of statements in which this is so throughout, with switches at
  any other point and whatever happens to other locks, no `NULL` pointer is followed.
-/

namespace Pintos
namespace Project2

open Lib Function

/-! ## The code of a thread in the two parts -/

/-- Frames of the two parts, and frames that are whole calls of a lock function. -/
def Frame.isSection : Frame → Bool
  | .stmt st => st.isSection
  | .lockAcquire _ | .lockTryAcquire _ | .lockRelease _ | .down _ (.acquired _)
  | .downLoop _ (.acquired _) => true
  | _ => false

/-- The statement that code goes on with. -/
def nextStmt : List Frame → Option LockStmt
  | .stmt st :: _ => some st
  | _ => none

def System.pc (σ : System) (t : ThreadPtr) : Option LockStmt :=
  nextStmt (σ.code t)

/-- The code of a thread with the given `waiting_lock`. -/
inductive Stage : Option LockPtr → List Frame → Prop
  | outside {fs : List Frame} : (∀ f ∈ fs, f.isSection = false) → Stage none fs
  | entering (l : LockPtr) {rest : List Frame} : (∀ f ∈ rest, f.isSection = false) →
      Stage none (.stmt (.acquireTest l) :: .down (.ofLock l) (.acquiring l) :: rest)
  | tested (l : LockPtr) {rest : List Frame} : (∀ f ∈ rest, f.isSection = false) →
      Stage none (.stmt (.setWaiting l) :: .stmt (.insertDonation l) :: .stmt .donateFirst ::
        .down (.ofLock l) (.acquiring l) :: rest)
  | waiting (l : LockPtr) {rest : List Frame} : (∀ f ∈ rest, f.isSection = false) →
      Stage (some l) (.stmt (.insertDonation l) :: .stmt .donateFirst ::
        .down (.ofLock l) (.acquiring l) :: rest)
  -- the lock may be released behind the first statement of `donate_priority`
  | donating {w : Option LockPtr} (l : LockPtr) (st : LockStmt) {rest : List Frame} :
      w = some l ∨ w = none ∧ st ≠ .donateFirst →
        st.inAcquire = true → (∀ m, st ≠ .setWaiting m) → (∀ m, st ≠ .insertDonation m) →
          (∀ f ∈ rest, f.isSection = false) →
            Stage w (.stmt st :: .down (.ofLock l) (.acquiring l) :: rest)
  | queued (l : LockPtr) {f : Frame} {rest : List Frame} :
      f = .down (.ofLock l) (.acquiring l) ∨ f = .downLoop (.ofLock l) (.acquiring l) →
        (∀ f ∈ rest, f.isSection = false) → Stage (some l) (f :: rest)
  | clearing (l : LockPtr) {rest : List Frame} : (∀ f ∈ rest, f.isSection = false) →
      Stage none (.stmt (.clearHolder l) :: .stmt (.removeBegin l) :: .stmt .resetInit ::
        .semaUp (.ofLock l) :: rest)
  | removing (l : LockPtr) (st : LockStmt) {rest : List Frame} : st.removes = some l →
      (∀ f ∈ rest, f.isSection = false) →
        Stage none (.stmt st :: .stmt .resetInit :: .semaUp (.ofLock l) :: rest)

/-- The code of a thread that has entered itself as a donor and is not behind the `sema_down` of
`lock_acquire`. -/
inductive AtSemaDown (l : LockPtr) : List Frame → Prop
  | donating {st : LockStmt} {rest : List Frame} : st.inAcquire = true →
      AtSemaDown l (.stmt st :: .down (.ofLock l) (.acquiring l) :: rest)
  | queued {f : Frame} {rest : List Frame} :
      f = .down (.ofLock l) (.acquiring l) ∨ f = .downLoop (.ofLock l) (.acquiring l) →
        AtSemaDown l (f :: rest)

section Stage

variable {w : Option LockPtr} {fs : List Frame} {st : LockStmt} {l : LockPtr}

theorem nextStmt_eq_some : nextStmt fs = some st ↔ ∃ rest, fs = .stmt st :: rest := by
  cases fs with
  | nil =>
      simp [nextStmt]
  | cons f rest =>
      cases f <;> simp [nextStmt]

theorem nextStmt_free (h : ∀ f ∈ fs, f.isSection = false) (hst : nextStmt fs = some st) :
    st.isSection = false := by
  obtain ⟨rest, rfl⟩ := nextStmt_eq_some.1 hst
  exact h _ List.mem_cons_self

theorem LockStmt.removes_of_inAcquire (h : st.inAcquire = true) : st.removes = none := by
  cases st <;> first | rfl | cases h

theorem Stage.of_nil (h : Stage w []) : w = none := by
  cases h
  rfl

/-- A thread that takes waiters off will raise the lock's semaphore. -/
theorem Stage.semaUp_mem (h : Stage w fs) (hst : nextStmt fs = some st)
    (hrem : st.removes = some l) : .semaUp (.ofLock l) ∈ fs := by
  cases h with
  | outside hf =>
      rw [LockStmt.removes_of_not_section (nextStmt_free hf hst)] at hrem
      cases hrem
  | donating m st' _ hacq _ _ _ =>
      cases hst
      rw [LockStmt.removes_of_inAcquire hacq] at hrem
      cases hrem
  | queued m hf _ => rcases hf with rfl | rfl <;> cases hst
  | removing m st' hm _ =>
      cases hst
      rw [hm] at hrem
      cases hrem
      simp
  | entering m _ | tested m _ | waiting m _ | clearing m _ =>
      cases hst
      cases hrem

/-- `waiting_lock` of a thread that is not about to follow it may be cleared. -/
theorem Stage.cleared (h : Stage (some l) fs) (hins : nextStmt fs ≠ some (.insertDonation l))
    (hfirst : nextStmt fs ≠ some .donateFirst) : Stage none fs := by
  cases h with
  | waiting _ _ => exact absurd rfl hins
  | donating m st _ hacq hset hins' hrest =>
      refine .donating m st (Or.inr ⟨rfl, ?_⟩) hacq hset hins' hrest
      rintro rfl
      exact hfirst rfl
  | queued _ hf hrest =>
      refine .outside fun g hg => ?_
      rcases List.mem_cons.1 hg with rfl | hg
      · rcases hf with rfl | rfl <;> rfl
      · exact hrest g hg

theorem Stage.atSemaDown (h : Stage (some l) fs) (hins : nextStmt fs ≠ some (.insertDonation l)) :
    AtSemaDown l fs := by
  cases h with
  | waiting _ _ => exact absurd rfl hins
  | donating m st hw hacq _ _ _ =>
      obtain ⟨rfl⟩ : l = m := hw.elim Option.some.inj fun hw => by cases hw.1
      exact .donating hacq
  | queued _ hf _ => exact .queued hf

end Stage

/-! ## Frames outside of the two parts -/

section RunFrame

variable {order : Kernel → ThreadPtr → ThreadPtr → Bool} {k : Kernel} {f : Frame} {o : Outcome}

theorem resetPriority_others (k : Kernel) {t : ThreadPtr} (ht : t ≠ k.running) :
    (resetPriority k).donations t = k.donations t := by
  simp only [resetPriority]
  split
  · rfl
  · split <;> simp [ht]

theorem downOutcome_links {s : SemaPtr} {after : AfterDown} {got : Bool}
    (hf : (Frame.downLoop s after).isSection = false) :
    ∀ g ∈ (downOutcome s after k got).push, g.isSection = false := by
  cases got with
  | false =>
      simpa [downOutcome, Kernel.andThen] using hf
  | true =>
      cases after with
      | acquired l => cases hf
      | ret => simp [downOutcome, AfterDown.finish, Kernel.done]
      | acquiring l =>
          simp [downOutcome, AfterDown.finish, Kernel.andThen, Frame.isSection,
            LockStmt.isSection, LockStmt.inAcquire, LockStmt.removes]

/-- What the thread goes on with behind a frame that is no statement. -/
theorem runFrame_stage {rest : List Frame} (hf : f.isSection = false) (hst : ∀ st, f ≠ .stmt st)
    (hrest : ∀ g ∈ rest, g.isSection = false)
    (hr : runFrame ⟨.statements, order⟩ k f = .ok o) :
    Stage none (o.push ++ rest) ∧ ∀ st, nextStmt (o.push ++ rest) = some st →
      st.Needs k k.running ∧ st.inAcquire = false ∧ st.removes = none := by
  have hfree : (∀ g ∈ o.push, g.isSection = false) → Stage none (o.push ++ rest) ∧
      ∀ st, nextStmt (o.push ++ rest) = some st →
        st.Needs k k.running ∧ st.inAcquire = false ∧ st.removes = none := by
    intro hpush
    have hall : ∀ g ∈ o.push ++ rest, g.isSection = false := fun g hg =>
      (List.mem_append.1 hg).elim (hpush g) (hrest g)
    refine ⟨.outside hall, fun st hst => ?_⟩
    have hsec := nextStmt_free hall hst
    exact ⟨LockStmt.needs_of_not_section hsec, LockStmt.inAcquire_of_not_section hsec,
      LockStmt.removes_of_not_section hsec⟩
  cases f with
  | stmt st => exact absurd rfl (hst st)
  | lockAcquire l | lockTryAcquire l | lockRelease l => cases hf
  | acquireEntry l =>
      simp only [runFrame, assert_bind_eq_ok] at hr
      cases hr.2.2
      exact ⟨.entering l hrest, fun st hst => by cases hst; exact ⟨trivial, rfl, rfl⟩⟩
  | releaseEntry l =>
      simp only [runFrame, assert_bind_eq_ok] at hr
      obtain ⟨hl, hr⟩ := hr
      cases hr
      exact ⟨.clearing l hrest, fun st hst => by cases hst; exact ⟨hl, rfl, rfl⟩⟩
  | tryEntry l =>
      simp only [runFrame, assert_bind_eq_ok] at hr
      cases hr.2
      exact hfree (by simp [Kernel.andThen, Frame.isSection])
  | down s after | downLoop s after =>
      rcases bind_eq_ok.1 hr with ⟨⟨k₁, got⟩, -, hr⟩
      cases hr
      exact hfree (downOutcome_links (by cases after <;> first | rfl | cases hf))
  | tryDown l =>
      cases hr
      refine hfree ?_
      simp only [Kernel.andThen]
      split <;> simp [Frame.isSection, LockStmt.isSection, LockStmt.inAcquire, LockStmt.removes]
  | condBroadcast c l =>
      simp only [runFrame] at hr
      split at hr
      · cases hr
        exact hfree (by simp [Kernel.done])
      · rcases bind_eq_ok.1 hr with ⟨k₁, -, hr⟩
        cases hr
        exact hfree (by simp [Kernel.andThen, Frame.isSection])
  | threadCreate t p | threadStart t =>
      rcases bind_eq_ok.1 hr with ⟨k₁, -, hr⟩
      cases hr
      exact hfree (by simp [Kernel.andThen, acquireFrame, Frame.isSection])
  | takeTid t p =>
      cases hr
      exact hfree (by simp [Kernel.andThen, releaseFrame, Frame.isSection])
  | semaTryDown s | condReturn c l | blockReturn | sleepReturn | timerSleep n | setIdle =>
      cases hr
      exact hfree (by simp [Kernel.done, Kernel.andThen, Frame.isSection])
  | _ =>
      rcases bind_eq_ok.1 hr with ⟨_, -, hr⟩
      cases hr
      exact hfree (by simp [Kernel.done, Kernel.andThen, Frame.isSection])

/-- The donors of the running thread are in another order at most, or a new thread has no links. -/
inductive LinkChange (k k' : Kernel) : Prop
  | reorder : k'.waitingLock = k.waitingLock →
      (k'.donations k.running).Perm (k.donations k.running) →
      (∀ u, u ≠ k.running → k'.donations u = k.donations u) → LinkChange k k'
  | create (t : ThreadPtr) : t ∉ k.allList → k'.waitingLock = update k.waitingLock t none →
      k'.donations = update k.donations t [] → LinkChange k k'

theorem Unwritten.linkChange {ws : List Member} {k' : Kernel} (h : Unwritten ws k k')
    (hw : .waitingLock ∉ ws) (hd : .donations ∉ ws) : LinkChange k k' :=
  .reorder (h.waitingLock hw) (by rw [h.donations hd]) fun u _ => by rw [h.donations hd]

theorem runFrame_links (hf : f.isSection = false) (hst : ∀ st, f ≠ .stmt st)
    (hr : runFrame ⟨.statements, order⟩ k f = .ok o) :
    o.kernel.holder = k.holder ∧ LinkChange k o.kernel := by
  have hun := runFrame_unwritten hr
  cases f with
  | stmt st => exact absurd rfl (hst st)
  | lockAcquire l | lockTryAcquire l | lockRelease l => cases hf
  | down s after | downLoop s after =>
      have hw : after.writes = [] := by
        cases after <;> first | rfl | cases hf
      have hun' : Unwritten [] k o.kernel := hw ▸ hun
      exact ⟨hun'.holder (by simp), hun'.linkChange (by simp) (by simp)⟩
  | threadCreate t p | threadStart t =>
      refine ⟨hun.holder (by simp [Frame.writes]), ?_⟩
      rcases bind_eq_ok.1 hr with ⟨k₁, hd, hr⟩
      cases hr
      obtain ⟨hnew, -, rfl⟩ := threadCreate_eq_ok.1 hd
      exact .create t hnew.1 rfl rfl
  | threadSetPriority p =>
      have hw := hun.waitingLock (by simp [Frame.writes])
      refine ⟨hun.holder (by simp [Frame.writes]), ?_⟩
      rcases bind_eq_ok.1 hr with ⟨k₁, hd, hr⟩
      cases hr
      rcases stealRunningByPriority_footprint hd with ⟨_, _, _, _, rfl⟩
      exact .reorder hw (resetPriority_perm (k.prioritySet p) k.running)
        fun u hu => resetPriority_others (k.prioritySet p) hu
  | _ =>
      exact ⟨hun.holder (by simp [Frame.writes]),
        hun.linkChange (by simp [Frame.writes]) (by simp [Frame.writes])⟩

end RunFrame

/-! ## The invariant -/

/-- No thread is about to follow a lock in `lock_acquire` while another takes the waiters of the
same lock off in `lock_release`. -/
def Apart (σ : System) : Prop :=
  ∀ t ∈ σ.kernel.allList, ∀ u ∈ σ.kernel.allList, ∀ st ∈ σ.pc t, ∀ st' ∈ σ.pc u,
    ∀ l ∈ st'.removes, st.follows σ.kernel t ≠ some l

instance instDecidableApart (σ : System) : Decidable (Apart σ) :=
  inferInstanceAs (Decidable (∀ t ∈ σ.kernel.allList, ∀ u ∈ σ.kernel.allList, ∀ st ∈ σ.pc t, _))

/-- What holds between two statements. -/
structure Guarded (σ : System) : Prop where
  own : Ownership σ
  exit : ∀ t, .threadExit ∈ σ.code t → σ.held t = []
  alive : ∀ l t, 0 < σ.tokens l t → t ∈ σ.kernel.allList
  apart : Apart σ
  stage : ∀ t, Stage (σ.kernel.waitingLock t) (σ.code t)
  tracked : Tracked σ.kernel σ.pc
  /-- a donor that is about to be unlinked stays where it is until the lock is free -/
  unlinking : ∀ u m d, σ.pc u = some (.removeUnlink m d) → AtSemaDown m (σ.code d)

section Guarded

variable {order : Kernel → ThreadPtr → ThreadPtr → Bool} {σ σ' : System} {t u : ThreadPtr}
  {l : LockPtr} {st : LockStmt} {f : Frame} {rest : List Frame} {o : Outcome}

theorem Settled.mem_allList (h : Settled σ) (hst : σ.pc t = some st) : t ∈ σ.kernel.allList := by
  by_contra hn
  have hcode := (h.live.placed t).dead_code ((h.live.placed t).dead.1 hn)
  simp [System.pc, hcode, nextStmt] at hst

theorem Apart.follows (h : Apart σ) (hset : Settled σ) {st' : LockStmt} (ht : σ.pc t = some st)
    (hu : σ.pc u = some st') (hrem : st'.removes = some l) : st.follows σ.kernel t ≠ some l :=
  h t (hset.mem_allList ht) u (hset.mem_allList hu) st ht st' hu l hrem

/-- Claims to a lock are tokens for it. -/
theorem Guarded.tokens_pos (h : Guarded σ) (hc : Claims σ.kernel σ.pc l t) : 0 < σ.tokens l t := by
  rcases hc with (hh | ⟨st, hst, hrem⟩) | hset | hclear
  · exact (h.own.owned l).holder t hh
  · exact holds_tokens ((h.stage t).semaUp_mem hst hrem) (by simp [Frame.holds])
  · obtain ⟨rest, hcode⟩ := nextStmt_eq_some.1 hset
    exact holds_tokens (by rw [hcode]; exact List.mem_cons_self) (by simp [Frame.holds])
  · obtain ⟨rest, hcode⟩ := nextStmt_eq_some.1 hclear
    exact holds_tokens (semaUp_of_clear (h.own.typed t) (by rw [hcode]; exact List.mem_cons_self))
      (by simp [Frame.holds])

theorem Guarded.unique (h : Guarded σ) (l : LockPtr) (t u : ThreadPtr)
    (ht : Claims σ.kernel σ.pc l t) (hu : Claims σ.kernel σ.pc l u) : t = u := by
  by_contra hne
  have h0 := ((h.own.owned l).unique (h.tokens_pos hu)).2.2 t hne
  have hpos := h.tokens_pos ht
  omega

/-- A thread that has set `waiting_lock` waits for a lock that somebody owns. -/
theorem Guarded.claimed (h : Guarded σ) (hw : σ.kernel.waitingLock t = some l) :
    ∃ u, Gives σ.kernel σ.pc l u := by
  by_cases hins : σ.pc t = some (.insertDonation l)
  · have hne : σ.kernel.holder l ≠ none := h.tracked.needs t _ hins
    obtain ⟨u, hu⟩ := Option.ne_none_iff_exists'.1 hne
    exact ⟨u, Or.inl hu⟩
  · obtain ⟨u, -, hg⟩ := h.tracked.linked t l hw hins
    exact ⟨u, hg⟩

theorem Guarded.value_zero (h : Guarded σ) (hw : σ.kernel.waitingLock t = some l) :
    σ.kernel.value (.ofLock l) = 0 := by
  obtain ⟨u, hg⟩ := h.claimed hw
  exact ((h.own.owned l).unique (h.tokens_pos (Or.inl hg))).1

/-- An awaited lock that a thread is about to follow has a holder. -/
theorem Guarded.held (h : Guarded σ) (ht : σ.pc t = some st)
    (hl : st.follows σ.kernel t = some l) (hw : σ.kernel.waitingLock u = some l) :
    σ.kernel.holder l ≠ none := by
  obtain ⟨v, hg⟩ := h.claimed hw
  rcases hg with hv | ⟨st', hv, hrem⟩
  · simp [hv]
  · exact absurd hl (h.apart.follows h.own.settled ht hv hrem)

/-- The semaphore of a lock is down until the waiters are taken off. -/
theorem Guarded.down_of_removes (h : Guarded σ) (hu : σ.pc u = some st)
    (hrem : st.removes = some l) : σ.kernel.value (.ofLock l) = 0 :=
  ((h.own.owned l).unique (h.tokens_pos (Or.inl (Or.inr ⟨st, hu, hrem⟩)))).1

/-! ## Nothing is followed that is `NULL` -/

theorem Guarded.not_null (h : Guarded σ) (hst : σ.pc σ.kernel.running = some st)
    (hacq : st.inAcquire = true) : st.run σ.kernel ≠ .error .nullPointer := by
  obtain ⟨rest, hc⟩ := nextStmt_eq_some.1 hst
  have hstage := h.stage σ.kernel.running
  rw [hc] at hstage
  have hneeds := h.tracked.needs _ st hst
  have hfree : st.isSection = true := by
    cases st <;> first | rfl | cases hacq
  intro hr
  cases st with
  | setWaiting m => cases hr
  | insertDonation m =>
      obtain ⟨u, hu⟩ := Option.ne_none_iff_exists'.1 (show σ.kernel.holder m ≠ none from hneeds)
      simp [LockStmt.run, hu] at hr
  | donateFirst =>
      generalize hw : σ.kernel.waitingLock σ.kernel.running = w at hstage
      cases hstage with
      | outside hf => simpa [hfree, Frame.isSection] using hf _ List.mem_cons_self
      | donating m _ hl _ _ _ _ =>
          rcases hl with hl | ⟨-, hl⟩
          · simp [LockStmt.run, hw, hl] at hr
          · exact hl rfl
      | queued m hf _ => rcases hf with hf | hf <;> cases hf
      | removing m _ hm _ => cases hm
  | donateSet e =>
      cases e with
      | none => exact hneeds rfl
      | some u => cases hr
  | donateTest u =>
      simp only [LockStmt.run] at hr
      split at hr <;> cases hr
  | donateNext u =>
      obtain ⟨m, hm⟩ := Option.ne_none_iff_exists'.1
        (show σ.kernel.waitingLock u ≠ none from hneeds)
      simp [LockStmt.run, hm] at hr
  | _ => cases hacq

/-! ## Every step keeps it -/

/-- What the running thread's frame leaves behind. -/
structure Advanced (σ : System) (rest : List Frame) (o : Outcome) : Prop where
  own : Stage (o.kernel.waitingLock σ.kernel.running) (o.push ++ rest)
  others : ∀ t, t ≠ σ.kernel.running → Stage (o.kernel.waitingLock t) (σ.code t)
  tracked : Tracked o.kernel (update σ.pc σ.kernel.running (nextStmt (o.push ++ rest)))
  unlinking : ∀ m d, nextStmt (o.push ++ rest) = some (.removeUnlink m d) →
    d ≠ σ.kernel.running ∧ AtSemaDown m (σ.code d)

theorem Guarded.others_stage {k' : Kernel} (h : Guarded σ)
    (hw : k'.waitingLock = σ.kernel.waitingLock) :
    ∀ t, t ≠ σ.kernel.running → Stage (k'.waitingLock t) (σ.code t) := by
  intro t _
  rw [hw]
  exact h.stage t

/-- A frame that is no statement. -/
theorem Guarded.advance_free (h : Guarded σ) (hc : σ.code σ.kernel.running = f :: rest)
    (hw : σ.kernel.waitingLock σ.kernel.running = none)
    (hf : f.isSection = false) (hrest : ∀ g ∈ rest, g.isSection = false)
    (hst : ∀ st, f ≠ .stmt st) (hr : runFrame ⟨.statements, order⟩ σ.kernel f = .ok o) :
    Advanced σ rest o := by
  obtain ⟨hstage, hnext⟩ := runFrame_stage hf hst hrest hr
  obtain ⟨hh, hchange⟩ := runFrame_links hf hst hr
  have hpc : σ.pc σ.kernel.running = none := by
    simp only [System.pc, hc]
    cases f <;> first | rfl | exact absurd rfl (hst _)
  have hgo : Tracked σ.kernel (update σ.pc σ.kernel.running (nextStmt (o.push ++ rest))) := by
    refine h.tracked.goOn (by simp [hpc]) (by simp [hpc]) (by simp [hpc])
      (fun st hst => (hnext st hst).1) fun m e => ?_
    cases (hnext _ e).2.1
  have hunlink : ∀ m d, nextStmt (o.push ++ rest) = some (.removeUnlink m d) →
      d ≠ σ.kernel.running ∧ AtSemaDown m (σ.code d) := fun m d e => by
    cases (hnext _ e).2.2
  cases hchange with
  | reorder hwl hperm hothers =>
      refine ⟨by rw [hwl, hw]; exact hstage, h.others_stage hwl,
        hgo.reorder (fun st hst => ?_) hwl hh hperm hothers, hunlink⟩
      rw [update_self] at hst
      exact (hnext st hst).2.2
  | create t hnew hwl hd =>
      have hcode : σ.code t = [] := by
        exact (h.own.settled.live.placed t).dead_code
          ((h.own.settled.live.placed t).dead.1 hnew)
      have hnone : σ.kernel.waitingLock t = none := by
        have hs := h.stage t
        rw [hcode] at hs
        exact hs.of_nil
      have hnil : σ.kernel.donations t = [] := by
        refine List.eq_nil_iff_forall_not_mem.2 fun d hm => ?_
        have hpt : σ.pc t = none := by simp [System.pc, hcode, nextStmt]
        rcases h.tracked.donor d t hm with ⟨m, -, -, hg | ⟨st, hst', -⟩⟩ | ⟨m, hu⟩
        · exact hnew (h.alive m t ((h.own.owned m).holder t hg))
        · rw [hpt] at hst'
          cases hst'
        · rw [hpt] at hu
          cases hu
      have hwl' : o.kernel.waitingLock = σ.kernel.waitingLock := by
        rw [hwl, ← hnone, update_eq_self]
      have hd' : o.kernel.donations = σ.kernel.donations := by
        rw [hd, ← hnil, update_eq_self]
      exact ⟨by rw [hwl', hw]; exact hstage, h.others_stage hwl', hgo.same hwl' hd' hh, hunlink⟩

/-- The running thread goes on inside or outside of the same part, and no link changes. -/
theorem Guarded.advance_same {k' : Kernel} {next : List LockStmt} (h : Guarded σ)
    (hst : σ.pc σ.kernel.running = some st) (hw : k'.waitingLock = σ.kernel.waitingLock)
    (hd : k'.donations = σ.kernel.donations) (hh : k'.holder = σ.kernel.holder)
    (hins : ∀ m, st ≠ .insertDonation m) (hunlink : ∀ m d, st ≠ .removeUnlink m d)
    (hrem : ∀ m, st.removes = some m →
      ∃ st', nextStmt (next.map .stmt ++ rest) = some st' ∧ st'.removes = some m)
    (hneeds : ∀ st', nextStmt (next.map .stmt ++ rest) = some st' →
      st'.Needs σ.kernel σ.kernel.running ∧ (∀ m, st' ≠ .insertDonation m) ∧
        ∀ m d, st' ≠ .removeUnlink m d)
    (hstage : Stage (σ.kernel.waitingLock σ.kernel.running) (next.map .stmt ++ rest)) :
    Advanced σ rest ⟨k', next.map .stmt, stmtChange st⟩ := by
  refine ⟨by simpa only [hw] using hstage, h.others_stage hw, Tracked.same ?_ hw hd hh,
    fun m d e => absurd rfl ((hneeds _ e).2.2 m d)⟩
  refine h.tracked.goOn (fun m e => ?_) (fun m d e => ?_) (fun st' m e => ?_)
    (fun st' e => (hneeds st' e).1) fun m e => (hneeds _ e).2.1 m rfl
  · rw [hst] at e
    exact hins m (Option.some.inj e)
  · rw [hst] at e
    exact hunlink m d (Option.some.inj e)
  · rw [hst] at e
    cases e
    exact hrem m

/-- A statement outside of the two parts. -/
theorem Guarded.advance_plain {k' : Kernel} {next : List LockStmt} (h : Guarded σ)
    (hst : σ.pc σ.kernel.running = some st) (hw : σ.kernel.waitingLock σ.kernel.running = none)
    (hsec : st.isSection = false) (hrest : ∀ g ∈ rest, g.isSection = false)
    (hr : st.run σ.kernel = .ok (k', next)) :
    Advanced σ rest ⟨k', next.map .stmt, stmtChange st⟩ := by
  have hmap : (∀ st' ∈ next, st'.isSection = false) →
      ∀ g ∈ next.map Frame.stmt ++ rest, g.isSection = false := by
    intro hnext g hg
    rcases List.mem_append.1 hg with hg | hg
    · obtain ⟨st', hst', rfl⟩ := List.mem_map.1 hg
      exact hnext st' hst'
    · exact hrest g hg
  -- the links are the same, and the thread goes on outside
  have hsame : (∀ st' ∈ next, st'.isSection = false) → k'.waitingLock = σ.kernel.waitingLock →
      k'.donations = σ.kernel.donations → k'.holder = σ.kernel.holder →
        Advanced σ rest ⟨k', next.map .stmt, stmtChange st⟩ := by
    intro hnext hwl hd hh
    refine h.advance_same hst hwl hd hh (fun m e => ?_) (fun m d e => ?_) (fun m e => ?_)
      (fun st' e => ?_) (by rw [hw]; exact .outside (hmap hnext))
    · rw [e] at hsec
      cases hsec
    · rw [e] at hsec
      cases hsec
    · rw [LockStmt.removes_of_not_section hsec] at e
      cases e
    · have hsec' := nextStmt_free (hmap hnext) e
      refine ⟨LockStmt.needs_of_not_section hsec', ?_, ?_⟩
      · rintro m rfl
        cases hsec'
      · rintro m d rfl
        cases hsec'
  cases st with
  | clearWaiting =>
      cases hr
      refine hsame (by simp) ?_ rfl rfl
      show update σ.kernel.waitingLock σ.kernel.running none = _
      rw [← hw, update_eq_self]
  | setHolder l =>
      cases hr
      have hstage : Stage (σ.kernel.waitingLock σ.kernel.running) rest := by
        rw [hw]
        exact .outside hrest
      exact ⟨hstage, h.others_stage rfl,
        h.tracked.setHolder hst h.unique fun st' e => nextStmt_free hrest e,
        fun m d e => by cases nextStmt_free hrest e⟩
  | resetInit =>
      cases hr
      exact hsame (by simp [LockStmt.isSection, LockStmt.inAcquire, LockStmt.removes]) rfl rfl rfl
  | resetTest =>
      simp only [LockStmt.run] at hr
      split at hr
      · cases hr
        exact hsame (by simp) rfl rfl rfl
      · cases hr
        exact hsame (by simp [LockStmt.isSection, LockStmt.inAcquire, LockStmt.removes]) rfl rfl rfl
  | resetSort =>
      cases hr
      have hperm : (update σ.kernel.donations σ.kernel.running
          (sort (compareDonation σ.kernel) (σ.kernel.donations σ.kernel.running))
            σ.kernel.running).Perm (σ.kernel.donations σ.kernel.running) := by
        rw [update_self]
        exact sort_perm _
      have hall : Advanced σ rest ⟨σ.kernel, [.stmt .resetRead], .same⟩ := by
        refine @Guarded.advance_same σ .resetSort rest σ.kernel [.resetRead] h hst rfl rfl rfl
          (by simp) (by simp) (fun m e => by cases e) (fun st' e => ?_) ?_
        · cases e
          exact ⟨trivial, by simp, by simp⟩
        · rw [hw]
          exact .outside (hmap (by simp [LockStmt.isSection, LockStmt.inAcquire,
            LockStmt.removes]))
      refine ⟨hall.own, hall.others, @Tracked.reorder _ _ _ σ.kernel.running hall.tracked
        (fun st' e => ?_) rfl rfl hperm fun u hu => update_of_ne hu _ _, hall.unlinking⟩
      rw [update_self] at e
      cases e
      rfl
  | resetRead =>
      simp only [LockStmt.run] at hr
      split at hr
      · cases hr
      · cases hr
        exact hsame (by simp [LockStmt.isSection, LockStmt.inAcquire, LockStmt.removes]) rfl rfl rfl
  | resetRaise p =>
      simp only [LockStmt.run] at hr
      split at hr
      · cases hr
        exact hsame (by simp) rfl rfl rfl
      · cases hr
        exact hsame (by simp) rfl rfl rfl
  | _ => cases hsec

/-- The statements of `lock_acquire` from the test to the end of `donate_priority`. -/
theorem Guarded.advance_acquire {k' : Kernel} {next : List LockStmt} {tail : List Frame}
    (h : Guarded σ) (hst : σ.pc σ.kernel.running = some st) (hacq : st.inAcquire = true)
    (hw : σ.kernel.waitingLock σ.kernel.running = some l ∨
      σ.kernel.waitingLock σ.kernel.running = none ∧ st ≠ .donateFirst)
    (hset : ∀ m, st ≠ .setWaiting m)
    (hins : ∀ m, st ≠ .insertDonation m) (hrest : ∀ g ∈ tail, g.isSection = false)
    (hr : st.run σ.kernel = .ok (k', next)) :
    Advanced σ (.down (.ofLock l) (.acquiring l) :: tail) ⟨k', next.map .stmt, stmtChange st⟩ := by
  have hrem : st.removes = none := LockStmt.removes_of_inAcquire hacq
  -- the thread goes on with one more statement of `donate_priority`, or with `sema_down`
  have hgo : ∀ {k' : Kernel} {st' : LockStmt}, k'.waitingLock = σ.kernel.waitingLock →
      k'.donations = σ.kernel.donations → k'.holder = σ.kernel.holder → st'.inAcquire = true →
      (∀ m, st' ≠ .setWaiting m) → (∀ m, st' ≠ .insertDonation m) → st' ≠ .donateFirst →
      st'.Needs σ.kernel σ.kernel.running →
        Advanced σ (.down (.ofLock l) (.acquiring l) :: tail) ⟨k', [.stmt st'], stmtChange st⟩ := by
    intro k' st' hwl hd hh hacq' hset' hins' hfirst hneeds
    refine @Guarded.advance_same σ st _ k' [st'] h hst hwl hd hh hins (fun m d e => ?_)
      (fun m e => ?_) (fun st'' e => ?_) ?_
    · rw [e] at hacq
      cases hacq
    · rw [hrem] at e
      cases e
    · cases e
      refine ⟨hneeds, hins', ?_⟩
      rintro m d rfl
      cases hacq'
    · exact .donating l st' (hw.imp_right fun hw => ⟨hw.1, hfirst⟩) hacq' hset' hins' hrest
  have hend : Advanced σ (.down (.ofLock l) (.acquiring l) :: tail)
      ⟨σ.kernel, [], stmtChange st⟩ := by
    refine @Guarded.advance_same σ st _ σ.kernel [] h hst rfl rfl rfl hins (fun m d e => ?_)
      (fun m e => ?_) (fun st'' e => by cases e) ?_
    · rw [e] at hacq
      cases hacq
    · rw [hrem] at e
      cases e
    · rcases hw with hw | ⟨hw, -⟩
      · rw [hw]
        exact .queued l (Or.inl rfl) hrest
      · rw [hw]
        exact .outside (List.forall_mem_cons.2 ⟨rfl, hrest⟩)
  cases st with
  | setWaiting m => exact absurd rfl (hset m)
  | insertDonation m => exact absurd rfl (hins m)
  | donateFirst =>
      have hw' := hw.resolve_right fun hw => hw.2 rfl
      simp only [LockStmt.run, hw'] at hr
      cases hr
      exact hgo rfl rfl rfl rfl (by simp) (by simp) (by simp) (h.held hst hw' hw')
  | donateSet e =>
      cases e with
      | none => cases hr
      | some u =>
          cases hr
          exact hgo rfl rfl rfl rfl (by simp) (by simp) (by simp) trivial
  | donateTest u =>
      simp only [LockStmt.run] at hr
      split at hr
      · cases hr
        exact hend
      · rename_i hu
        cases hr
        exact hgo rfl rfl rfl rfl (by simp) (by simp) (by simp) hu
  | donateNext u =>
      simp only [LockStmt.run] at hr
      split at hr
      · cases hr
      · rename_i m hm
        cases hr
        exact hgo rfl rfl rfl rfl (by simp) (by simp) (by simp) (h.held hst hm hm)
  | _ => cases hacq

/-- The statements of `remove_lock`. -/
theorem Guarded.advance_remove {k' : Kernel} {next : List LockStmt} {tail : List Frame}
    (h : Guarded σ) (hst : σ.pc σ.kernel.running = some st) (hrem : st.removes = some l)
    (hw : σ.kernel.waitingLock σ.kernel.running = none) (hrest : ∀ g ∈ tail, g.isSection = false)
    (hr : st.run σ.kernel = .ok (k', next)) :
    Advanced σ (.stmt .resetInit :: .semaUp (.ofLock l) :: tail)
      ⟨k', next.map .stmt, stmtChange st⟩ := by
  have hneeds := h.tracked.needs _ st hst
  have hno : ∀ u st', σ.pc u = some st' → st'.follows σ.kernel u ≠ some l := fun u st' hu =>
    h.apart.follows h.own.settled hu hst hrem
  -- the thread goes on with one more statement of the loop
  have hgo : ∀ st' : LockStmt, (∀ m d, st ≠ .removeUnlink m d) →
      (∀ m d, st' ≠ .removeUnlink m d) → st'.removes = some l →
      st'.Needs σ.kernel σ.kernel.running →
        Advanced σ (.stmt .resetInit :: .semaUp (.ofLock l) :: tail)
          ⟨σ.kernel, [.stmt st'], stmtChange st⟩ := by
    intro st' hunlink hunlink' hrem' hneeds'
    refine @Guarded.advance_same σ st _ σ.kernel [st'] h hst rfl rfl rfl (fun m e => ?_) hunlink
      (fun m e => ⟨st', rfl, ?_⟩) (fun st'' e => ?_) ?_
    · rw [e] at hrem
      cases hrem
    · rw [hrem] at e
      exact hrem'.trans e
    · cases e
      refine ⟨hneeds', ?_, hunlink'⟩
      rintro m rfl
      cases hrem'
    · rw [hw]
      exact .removing l st' hrem' hrest
  have hfree : ∀ g ∈ Frame.stmt .resetInit :: .semaUp (.ofLock l) :: tail, g.isSection = false := by
    intro g hg
    rcases List.mem_cons.1 hg with rfl | hg
    · rfl
    · rcases List.mem_cons.1 hg with rfl | hg
      · rfl
      · exact hrest g hg
  cases st with
  | removeBegin m =>
      cases hrem
      cases hr
      exact hgo _ (by simp) (by simp) rfl ⟨[], _, rfl, rfl, hneeds⟩
  | removeTest m e =>
      cases hrem
      cases e with
      | none =>
          cases hr
          refine ⟨by rw [hw]; exact .outside hfree, h.others_stage rfl,
            h.tracked.removed hst fun st' e => ?_, fun m d e => by cases e⟩
          cases e
          rfl
      | some d =>
          obtain ⟨before, after, hlist, he, hafter⟩ := hneeds
          obtain ⟨after', rfl⟩ := List.head?_eq_some_iff.1 he.symm
          simp only [LockStmt.run] at hr
          split at hr
          · rename_i hd
            cases hr
            exact hgo _ (by simp) (by simp) rfl
              ⟨hd, before, after', hlist, fun u hu => List.mem_cons.1 (hafter u hu)⟩
          · rename_i hd
            cases hr
            refine hgo _ (by simp) (by simp) rfl ⟨before, after', hlist, fun u hu => ?_⟩
            refine (List.mem_cons.1 (hafter u hu)).resolve_left ?_
            rintro rfl
            exact hd hu
  | removeClear m d =>
      cases hrem
      cases hr
      have htracked := h.tracked.removeClear hst h.unique hno
      have hne : σ.kernel.running ≠ d := by
        rintro rfl
        rw [hneeds.1] at hw
        cases hw
      -- the donor is not about to follow the lock
      have hd := h.stage d
      rw [hneeds.1] at hd
      have hins : σ.pc d ≠ some (.insertDonation l) := fun e => hno d _ e rfl
      refine ⟨?_, fun t ht => ?_, htracked, fun m' d' e => ?_⟩
      · show Stage (update σ.kernel.waitingLock d none σ.kernel.running) _
        rw [update_of_ne hne, hw]
        exact .removing l _ rfl hrest
      · show Stage (update σ.kernel.waitingLock d none t) _
        by_cases htd : t = d
        · subst htd
          rw [update_self]
          exact hd.cleared hins fun e => hno t _ e hneeds.1
        · rw [update_of_ne htd]
          exact h.stage t
      · cases e
        exact ⟨hne.symm, hd.atSemaDown hins⟩
  | removeUnlink m d =>
      cases hrem
      cases hr
      refine ⟨?_, h.others_stage rfl, h.tracked.removeUnlink hst, fun m' d' e => by cases e⟩
      show Stage (σ.kernel.waitingLock σ.kernel.running) _
      rw [hw]
      exact .removing l _ rfl hrest
  | removeNext m d =>
      cases hrem
      cases hr
      obtain ⟨before, after, hlist, hafter⟩ := hneeds
      refine hgo _ (by simp) (by simp) rfl ⟨before ++ [d], after, by simp [hlist], ?_, hafter⟩
      have hnd := h.tracked.nodup σ.kernel.running
      rw [hlist] at hnd ⊢
      exact listNext_append hnd
  | _ => cases hrem

/-- A turn of the `sema_down` of `lock_acquire` while the semaphore is down. -/
theorem runFrame_queued {k : Kernel}
    (hf : f = .down (.ofLock l) (.acquiring l) ∨ f = .downLoop (.ofLock l) (.acquiring l))
    (h0 : k.value (.ofLock l) = 0) (hr : runFrame ⟨.statements, order⟩ k f = .ok o) :
    o.push = [.downLoop (.ofLock l) (.acquiring l)] := by
  have hturn : ∃ k₁ got, semaDownTurn k (.ofLock l) = .ok (k₁, got) ∧
      o = downOutcome (.ofLock l) (.acquiring l) k₁ got := by
    rcases hf with rfl | rfl
    · obtain ⟨⟨k₁, got⟩, hd, hr⟩ := bind_eq_ok.1 hr
      cases hr
      exact ⟨k₁, got, (semaDown_eq_ok.1 hd).2, rfl⟩
    · obtain ⟨⟨k₁, got⟩, hd, hr⟩ := bind_eq_ok.1 hr
      cases hr
      exact ⟨k₁, got, hd, rfl⟩
  obtain ⟨k₁, got, hd, rfl⟩ := hturn
  rcases semaDownTurn_eq_ok.1 hd with ⟨-, rfl, -⟩ | ⟨hpos, -, -⟩
  · rfl
  · exact absurd h0 hpos

/-- A donor stays in front of its `sema_down` or in it while the semaphore is down. -/
theorem AtSemaDown.runFrame {k : Kernel} (h : AtSemaDown l (f :: rest))
    (h0 : k.value (.ofLock l) = 0)
    (hr : runFrame ⟨.statements, order⟩ k f = .ok o) : AtSemaDown l (o.push ++ rest) := by
  cases h with
  | @donating st tail hacq =>
      obtain ⟨⟨k', next⟩, hrun, hr⟩ := bind_eq_ok.1 hr
      cases hr
      have hnext : next = [] ∨ ∃ st', next = [st'] ∧ st'.inAcquire = true := by
        cases st with
        | setWaiting m =>
            cases hrun
            exact Or.inl rfl
        | insertDonation m | donateFirst | donateNext m =>
            simp only [LockStmt.run] at hrun
            split at hrun
            · cases hrun
            · cases hrun
              simp [LockStmt.inAcquire]
        | donateSet e =>
            cases e with
            | none => cases hrun
            | some u =>
                cases hrun
                exact Or.inr ⟨_, rfl, rfl⟩
        | donateTest u =>
            simp only [LockStmt.run] at hrun
            split at hrun
            · cases hrun
              exact Or.inl rfl
            · cases hrun
              exact Or.inr ⟨_, rfl, rfl⟩
        | _ => cases hacq
      rcases hnext with rfl | ⟨st', rfl, hacq'⟩
      · exact .queued (Or.inl rfl)
      · exact .donating hacq'
  | queued hf =>
      rw [runFrame_queued hf h0 hr]
      exact .queued (Or.inr rfl)

/-- A turn of the `sema_down` of `lock_acquire` for a thread that is still linked: the semaphore is
down. -/
theorem Guarded.advance_queued (h : Guarded σ)
    (hc : σ.code σ.kernel.running = f :: rest)
    (hf : f = .down (.ofLock l) (.acquiring l) ∨ f = .downLoop (.ofLock l) (.acquiring l))
    (hw : σ.kernel.waitingLock σ.kernel.running = some l) (hrest : ∀ g ∈ rest, g.isSection = false)
    (hr : runFrame ⟨.statements, order⟩ σ.kernel f = .ok o) : Advanced σ rest o := by
  have hsec : f.isSection = false := by rcases hf with rfl | rfl <;> rfl
  have hst : ∀ st, f ≠ .stmt st := by rcases hf with rfl | rfl <;> simp
  have hun : Unwritten [] σ.kernel o.kernel := by
    rcases hf with rfl | rfl <;> exact runFrame_unwritten hr
  have hpush := runFrame_queued hf (h.value_zero hw) hr
  have hpc : σ.pc σ.kernel.running = none := by
    rcases hf with rfl | rfl <;> simp [System.pc, hc, nextStmt]
  have hwl := hun.waitingLock (by simp)
  refine ⟨?_, h.others_stage hwl, Tracked.same ?_ hwl (hun.donations (by simp))
    (hun.holder (by simp)), fun m d e => ?_⟩
  · rw [hwl, hw, hpush]
    exact .queued l (Or.inr rfl) hrest
  · rw [hpush]
    show Tracked σ.kernel (update σ.pc σ.kernel.running none)
    rw [← hpc, update_eq_self]
    exact h.tracked
  · rw [hpush] at e
    cases e

theorem Guarded.advance (h : Guarded σ) (hc : σ.code σ.kernel.running = f :: rest)
    (hclear : ∀ l, f = .stmt (.clearHolder l) →
      ∀ u st, σ.pc u = some st → st.follows σ.kernel u ≠ some l)
    (hr : runFrame ⟨.statements, order⟩ σ.kernel f = .ok o) : Advanced σ rest o := by
  have hstage := h.stage σ.kernel.running
  have hstmt : ∀ st, f = .stmt st → σ.pc σ.kernel.running = some st ∧
      ∃ k' next, st.run σ.kernel = .ok (k', next) ∧ o = ⟨k', next.map .stmt, stmtChange st⟩ := by
    rintro st rfl
    obtain ⟨⟨k', next⟩, hrun, hr⟩ := bind_eq_ok.1 hr
    cases hr
    exact ⟨by simp [System.pc, hc, nextStmt], k', next, hrun, rfl⟩
  rw [hc] at hstage
  generalize hfs : f :: rest = fs at hstage
  generalize hwl : σ.kernel.waitingLock σ.kernel.running = w at hstage
  cases hstage with
  | outside hall =>
      subst hfs
      have hf := hall f List.mem_cons_self
      have hrest : ∀ g ∈ rest, g.isSection = false := fun g hg => hall g (List.mem_cons_of_mem _ hg)
      by_cases hst : ∃ st, f = .stmt st
      · obtain ⟨st, rfl⟩ := hst
        obtain ⟨hpc, k', next, hrun, rfl⟩ := hstmt st rfl
        exact h.advance_plain hpc hwl hf hrest hrun
      · exact h.advance_free hc hwl hf hrest (fun st e => hst ⟨st, e⟩) hr
  | @entering l tail hfree =>
      obtain ⟨rfl, rfl⟩ := List.cons.inj hfs
      obtain ⟨hpc, k', next, hrun, rfl⟩ := hstmt _ rfl
      simp only [LockStmt.run] at hrun
      split at hrun
      · cases hrun
        refine @Guarded.advance_same σ _ _ _ [] h hpc rfl rfl rfl (by simp) (by simp)
          (fun m e => by cases e) (fun st' e => by cases e) ?_
        rw [hwl]
        refine .outside fun g hg => ?_
        rcases List.mem_cons.1 hg with rfl | hg
        · rfl
        · exact hfree g hg
      · rename_i hl
        cases hrun
        refine @Guarded.advance_same σ _ _ _ [.setWaiting l, .insertDonation l, .donateFirst] h hpc
          rfl rfl rfl (by simp) (by simp) (fun m e => by cases e) (fun st' e => ?_) ?_
        · cases e
          exact ⟨hl, by simp, by simp⟩
        · rw [hwl]
          exact .tested l hfree
  | @tested l tail hfree =>
      obtain ⟨rfl, rfl⟩ := List.cons.inj hfs
      obtain ⟨hpc, k', next, hrun, rfl⟩ := hstmt _ rfl
      cases hrun
      have hout : ∀ u m, σ.pc u ≠ some (.removeUnlink m σ.kernel.running) := by
        intro u m hu
        have hdown := h.unlinking u m _ hu
        rw [hc] at hdown
        cases hdown with
        | queued hf => rcases hf with hf | hf <;> cases hf
      refine ⟨?_, fun t ht => ?_, h.tracked.setWaiting hpc hwl
        (fun u st hu hrem => h.apart.follows h.own.settled hpc hu hrem rfl) hout,
        fun m d e => by cases e⟩
      · show Stage (update σ.kernel.waitingLock σ.kernel.running (some l) σ.kernel.running) _
        rw [update_self]
        exact .waiting l hfree
      · show Stage (update σ.kernel.waitingLock σ.kernel.running (some l) t) _
        rw [update_of_ne ht]
        exact h.stage t
  | @waiting l tail hfree =>
      obtain ⟨rfl, rfl⟩ := List.cons.inj hfs
      obtain ⟨hpc, k', next, hrun, rfl⟩ := hstmt _ rfl
      obtain ⟨u, hu⟩ := Option.ne_none_iff_exists'.1
        (show σ.kernel.holder l ≠ none from h.tracked.needs _ _ hpc)
      simp only [LockStmt.run, hu] at hrun
      cases hrun
      refine ⟨?_, h.others_stage rfl, h.tracked.insertDonation hpc hwl hu,
        fun m d e => by cases e⟩
      show Stage (σ.kernel.waitingLock σ.kernel.running) _
      rw [hwl]
      exact .donating l .donateFirst (Or.inl rfl) rfl (by simp) (by simp) hfree
  | @donating _ l st tail hw hacq hset hins hfree =>
      obtain ⟨rfl, rfl⟩ := List.cons.inj hfs
      obtain ⟨hpc, k', next, hrun, rfl⟩ := hstmt _ rfl
      exact h.advance_acquire hpc hacq (hwl ▸ hw) hset hins hfree hrun
  | @queued l g tail hf hfree =>
      obtain ⟨rfl, rfl⟩ := List.cons.inj hfs
      exact h.advance_queued hc hf hwl hfree hr
  | @clearing l tail hfree =>
      obtain ⟨rfl, rfl⟩ := List.cons.inj hfs
      obtain ⟨hpc, k', next, hrun, rfl⟩ := hstmt _ rfl
      cases hrun
      refine ⟨?_, h.others_stage rfl, h.tracked.clearHolder hpc h.unique (hclear l rfl),
        fun m d e => by cases e⟩
      show Stage (σ.kernel.waitingLock σ.kernel.running) _
      rw [hwl]
      exact .removing l (.removeBegin l) rfl hfree
  | @removing l st tail hrem hfree =>
      obtain ⟨rfl, rfl⟩ := List.cons.inj hfs
      obtain ⟨hpc, k', next, hrun, rfl⟩ := hstmt _ rfl
      exact h.advance_remove hpc hrem hwl hfree hrun

/-- The statement that each thread is at, behind a frame. -/
theorem Guarded.pc_after (h : Guarded σ)
    (hr : runFrame ⟨.statements, order⟩ σ.kernel f = .ok o) :
    (σ.after f rest o).pc = update σ.pc σ.kernel.running (nextStmt (o.push ++ rest)) := by
  funext u
  rcases code_after h.own.settled.live rest hr u with
    ⟨rfl, he⟩ | ⟨hu, prog, -, hold, he, hprog⟩ | ⟨hu, he⟩
  · rw [update_self]
    exact congrArg nextStmt he
  · rw [update_of_ne hu]
    refine (congrArg nextStmt he).trans ?_
    simp only [System.pc, hold]
    rcases hprog with rfl | ⟨rfl, -⟩ <;> rfl
  · rw [update_of_ne hu]
    exact congrArg nextStmt he

theorem Guarded.exec (h : Guarded σ) (hc : σ.code σ.kernel.running = f :: rest)
    (hr : runFrame ⟨.statements, order⟩ σ.kernel f = .ok o)
    (hown : Ownership (σ.after f rest o)) (hap : Apart (σ.after f rest o)) :
    Guarded (σ.after f rest o) := by
  have hpc := @Guarded.pc_after _ _ _ rest _ h hr
  have hadv := h.advance hc (fun l hf u st hu => ?_) hr
  · refine ⟨hown, fun u hm => ?_, fun l u hu => ?_, hap, fun u => ?_, ?_, fun u m d hu => ?_⟩
    · obtain ⟨hne, hold⟩ := h.own.settled.exit_after hc hr hm
      have hheld : (σ.after f rest o).held u = σ.held u := by simp [System.after, hne]
      rw [hheld]
      exact h.exit u hold
    · by_cases hur : u = σ.kernel.running
      · refine runFrame_allList hr (hur ▸ h.own.settled.live.running_mem) fun hf => ?_
        -- a thread that has exited has no tokens
        subst hf
        obtain ⟨k₁, -, hr⟩ := bind_eq_ok.1 hr
        cases hr
        have hexit := h.exit σ.kernel.running (by simp [hc])
        have halone := h.own.settled.shape.alone σ.kernel.running .threadExit (by simp [hc]) rfl
        rw [hc] at halone
        have hrest : rest = [] := (List.cons.inj halone).2
        simp [System.tokens, tokens, System.after, hur, hexit, hrest, Kernel.done,
          HeldChange.apply] at hu
      · have hheld : (σ.after f rest o).held u = σ.held u := by simp [System.after, hur]
        have htok : 0 < σ.tokens l u := by
          rcases code_after h.own.settled.live rest hr u with
            ⟨he, -⟩ | ⟨-, prog, -, hold, he, hprog⟩ | ⟨-, he⟩
          · exact absurd he hur
          · have hcode : (σ.after f rest o).code u = prog := he
            rw [System.tokens, hheld, hcode] at hu
            rw [System.tokens, hold]
            rcases hprog with rfl | ⟨rfl, -⟩
            · exact hu
            · simpa [tokens, Frame.holds] using hu
          · have hcode : (σ.after f rest o).code u = σ.code u := he
            rwa [System.tokens, hheld, hcode] at hu
        exact runFrame_allList hr (h.alive l u htok) fun _ => hur
    · rcases code_after h.own.settled.live rest hr u with
        ⟨rfl, he⟩ | ⟨hu, prog, -, hold, he, hprog⟩ | ⟨hu, he⟩
      · rw [show (σ.after f rest o).code σ.kernel.running = o.push ++ rest from he]
        exact hadv.own
      · rw [show (σ.after f rest o).code u = prog from he]
        have hs := hadv.others u hu
        rw [hold] at hs
        rw [show (σ.after f rest o).kernel.waitingLock u = none from hs.of_nil]
        refine .outside fun g hg => ?_
        rcases hprog with rfl | ⟨rfl, -⟩
        · cases hg
        · rw [List.mem_singleton.1 hg]
          rfl
      · rw [show (σ.after f rest o).code u = σ.code u from he]
        exact hadv.others u hu
    · rw [hpc]
      exact hadv.tracked
    · rw [hpc] at hu
      -- the donor is not a new thread: it has code
      have hstays : d ≠ σ.kernel.running → AtSemaDown m (σ.code d) →
          AtSemaDown m ((σ.after f rest o).code d) := by
        intro hd hdown
        rcases code_after h.own.settled.live rest hr d with
          ⟨he, -⟩ | ⟨-, prog, -, hold, -, -⟩ | ⟨-, he⟩
        · exact absurd he hd
        · rw [hold] at hdown
          cases hdown
        · rwa [show (σ.after f rest o).code d = σ.code d from he]
      by_cases hur : u = σ.kernel.running
      · rw [hur, update_self] at hu
        obtain ⟨hd, hdown⟩ := hadv.unlinking m d hu
        exact hstays hd hdown
      · rw [update_of_ne hur] at hu
        have hdown := h.unlinking u m d hu
        by_cases hd : d = σ.kernel.running
        · subst hd
          rw [show (σ.after f rest o).code σ.kernel.running = o.push ++ rest by simp [System.after]]
          rw [hc] at hdown
          exact hdown.runFrame (h.down_of_removes hu rfl) hr
        · exact hstays hd hdown
  · -- behind `lock->holder = NULL` the running thread is in its part of `lock_release`
    subst hf
    obtain ⟨⟨k', next⟩, hrun, hr'⟩ := bind_eq_ok.1 hr
    cases hrun
    cases hr'
    by_cases hur : u = σ.kernel.running
    · rw [hur, System.pc, hc] at hu
      cases hu
      simp [LockStmt.follows]
    · have hstage := h.stage σ.kernel.running
      rw [hc] at hstage
      have hbegin : ∃ tail, rest = .stmt (.removeBegin l) :: tail := by
        generalize hfs : Frame.stmt (.clearHolder l) :: rest = fs at hstage
        generalize σ.kernel.waitingLock σ.kernel.running = w at hstage
        cases hstage with
        | outside hall =>
            rw [← hfs] at hall
            cases hall _ List.mem_cons_self
        | clearing m _ =>
            obtain ⟨he, rfl⟩ := List.cons.inj hfs
            cases he
            exact ⟨_, rfl⟩
        | donating m st _ hacq _ _ _ =>
            cases (List.cons.inj hfs).1
            cases hacq
        | removing m st hrem _ =>
            cases (List.cons.inj hfs).1
            cases hrem
        | queued m hf _ => rcases hf with rfl | rfl <;> cases (List.cons.inj hfs).1
        | entering m _ | tested m _ | waiting m _ => cases (List.cons.inj hfs).1
      obtain ⟨tail, rfl⟩ := hbegin
      have hfollows := @Apart.follows _ u σ.kernel.running l st hap hown.settled (.removeBegin l)
        (by rw [hpc, update_of_ne hur]; exact hu) (by rw [hpc, update_self]; rfl) rfl
      rwa [LockStmt.follows_congr (by rfl)] at hfollows

theorem Guarded.step {a : Act} (h : Guarded σ) (hu : UnblockOk σ a) (hrel : ReleaseOk σ a)
    (hx : ExitOk σ a) (hap : Apart σ') (hs : Project2.step ⟨.statements, order⟩ a σ = some σ') :
    Guarded σ' := by
  have hown := h.own.step hu hrel hs
  cases a with
  | call op =>
      obtain ⟨hc, rfl⟩ := step_call_iff.1 hs
      have hfree : ∀ f ∈ op.frames .statements σ.kernel.running, f.isSection = false := by
        cases op <;> simp [Op.frames, acquireFrame, tryFrame, releaseFrame, Frame.isSection]
      have hpc : (fun t => nextStmt (update σ.code σ.kernel.running
          (op.frames .statements σ.kernel.running) t)) = σ.pc := by
        funext t
        by_cases ht : t = σ.kernel.running
        · subst ht
          have hnew : nextStmt (op.frames .statements σ.kernel.running) = none := by
            cases op <;> rfl
          rw [update_self, hnew, System.pc, hc]
          rfl
        · simp [System.pc, ht]
      refine ⟨hown, fun t hm => ?_, fun l t ht => h.alive l t ?_, hap, fun t => ?_, ?_,
        fun u m d hu => ?_⟩
      · by_cases htr : t = σ.kernel.running
        · subst htr
          have ho := opFrames_exit .statements σ.kernel.running op (by simpa using hm)
          exact hx (by rw [ho])
        · exact h.exit t (by simpa [htr] using hm)
      · by_cases htr : t = σ.kernel.running
        · subst htr
          have h0 : (op.frames .statements σ.kernel.running).countP (Frame.holds l) = 0 := by
            rw [List.countP_eq_zero]
            exact fun f hf => by simp [opFrames_holds .statements σ.kernel.running op f hf]
          simpa [System.tokens, tokens, hc, h0] using ht
        · simpa [System.tokens, htr] using ht
      · by_cases htr : t = σ.kernel.running
        · subst htr
          have hs := h.stage σ.kernel.running
          rw [hc] at hs
          show Stage (σ.kernel.waitingLock σ.kernel.running) _
          rw [hs.of_nil]
          exact .outside (by simpa using hfree)
        · simpa [htr] using h.stage t
      · show Tracked σ.kernel fun t => nextStmt _
        rw [hpc]
        exact h.tracked
      · have hdown := h.unlinking u m d ((congrFun hpc u).symm.trans hu)
        have hd : d ≠ σ.kernel.running := by
          rintro rfl
          rw [hc] at hdown
          cases hdown
        simpa [hd] using hdown
  | exec =>
      obtain ⟨f, rest, o, hc, hr, rfl⟩ := step_exec_iff.1 hs
      exact h.exec hc hr hown hap
  | tick =>
      obtain ⟨-, k, ht, rfl⟩ := step_tick_iff.1 hs
      rcases timerInterrupt_footprint ht with ⟨_, _, _, _, _, _, _, _, rfl⟩
      exact ⟨hown, h.exit, h.alive, hap, h.stage, h.tracked.same rfl rfl rfl, h.unlinking⟩
  | preempt t =>
      obtain ⟨-, rfl⟩ := step_preempt_iff.1 hs
      exact ⟨hown, h.exit, h.alive, hap, h.stage, h.tracked.same rfl rfl rfl, h.unlinking⟩

theorem boot_guarded (init : Nat → Fin unsignedSize) (idle : ThreadPtr) :
    Guarded (boot init idle) := by
  have hcode : ∀ t, ∀ f ∈ (boot init idle).code t, f = .threadStart idle := by
    intro t f hf
    simp only [boot] at hf
    split at hf
    · exact List.mem_singleton.1 hf
    · cases hf
  have hpc : (boot init idle).pc = fun _ => none := by
    funext t
    simp only [System.pc, boot]
    split <;> rfl
  refine ⟨boot_ownership init idle, fun _ _ => rfl, fun l t ht => ?_, ?_, fun t => ?_, ?_, ?_⟩
  · have h0 : (boot init idle).tokens l t = 0 := by
      simp only [System.tokens, tokens, boot]
      split <;> simp [Frame.holds]
    omega
  · intro t _ u _ st hst
    rw [hpc] at hst
    cases hst
  · refine .outside fun f hf => ?_
    rw [hcode t f hf]
    rfl
  · rw [hpc]
    exact ⟨by simp [boot, bootKernel], by simp [boot, bootKernel], fun _ => List.nodup_nil, by simp⟩
  · intro u m d hu
    rw [hpc] at hu
    cases hu

end Guarded

/-! ## Every run -/

/-- Threads unblock only threads in a bare `thread_block`, release only what they acquired and hold
no lock when they exit. -/
def LinkUse (σ : System) (a : Act) : Prop :=
  UnblockOk σ a ∧ ReleaseOk σ a ∧ ExitOk σ a

instance instDecidableLinkUse (σ : System) (a : Act) : Decidable (LinkUse σ a) :=
  inferInstanceAs (Decidable (_ ∧ _ ∧ _))

/-- The statement of `lock_acquire` or `donate_priority` that the running thread is at follows no
`NULL` pointer. -/
def FollowsNoNull (σ : System) : Prop :=
  ∀ st ∈ σ.pc σ.kernel.running, st.inAcquire = true → st.run σ.kernel ≠ .error .nullPointer

section Runs

variable {order : Kernel → ThreadPtr → ThreadPtr → Bool} {σ : System}
  {init : Nat → Fin unsignedSize} {idle : ThreadPtr} {tr : List (System × Act)}

theorem guarded_of_exec (hrun : Exec (step ⟨.statements, order⟩) (boot init idle) tr σ)
    (hu : ∀ e ∈ tr, LinkUse e.1 e.2) (hap : ∀ e ∈ tr, Apart e.1) (hlast : Apart σ) :
    Guarded σ := by
  induction hrun with
  | nil =>
      exact boot_guarded init idle
  | @snoc tr σ σ' a _ hs ih =>
      have hua : LinkUse σ a := by
        simpa using hu (σ, a) (List.mem_append_right _ List.mem_cons_self)
      have hσ : Apart σ := by
        simpa using hap (σ, a) (List.mem_append_right _ List.mem_cons_self)
      have h := ih (fun e he => hu e (by simp [he])) (fun e he => hap e (by simp [he])) hσ
      exact h.step hua.1 hua.2.1 hua.2.2 hlast hs

/-- In every run in which the two parts stay apart for each lock, whatever switches happen at other
points and in the middle of either part, neither `lock_acquire` nor `donate_priority` follows a
`NULL` pointer. -/
theorem lock_acquire_not_null (hrun : Exec (step ⟨.statements, order⟩) (boot init idle) tr σ)
    (hu : ∀ e ∈ tr, LinkUse e.1 e.2) (hap : ∀ e ∈ tr, Apart e.1) (hlast : Apart σ) :
    FollowsNoNull σ :=
  fun _ hst hacq => (guarded_of_exec hrun hu hap hlast).not_null hst hacq

/-- The timer takes the processor from the running thread. -/
def sliceActs : List Act :=
  List.replicate 4 .tick

/-- The initial thread holds lock 0, and thread 2 has found it held when the timer switches. -/
def foundHeldActs : List Act :=
  List.replicate 19 .exec ++ [.call (.threadCreate 2 31)] ++ List.replicate 15 .exec ++
    [.call (.lockAcquire 0), .exec, .exec, .exec, .exec, .exec] ++ sliceActs ++
      [.call (.lockAcquire 0), .exec, .exec] ++ sliceActs

/-- The initial thread takes another lock and is in its `lock_release` when thread 2 goes on. -/
def apartActs : List Act :=
  foundHeldActs ++ [.call (.lockAcquire 1)] ++ List.replicate 5 .exec ++
    [.call (.lockRelease 1), .exec, .exec] ++ sliceActs ++ [.exec]

theorem lock_acquire_not_null_apart :
    FollowsNoNull
      ((runAll (step .statements) apartActs (boot allZero 1)).get (by decide +kernel)) :=
  lock_acquire_not_null (Exec.of_runAll (Option.some_get _).symm) (by decide +kernel)
    (by decide +kernel) (by decide +kernel)

/-- The initial thread is in `lock_release` of the same lock when thread 2 goes on. -/
def overlapActs : List Act :=
  foundHeldActs ++ [.call (.lockRelease 0), .exec, .exec] ++ sliceActs ++ [.exec]

/-- `lock->holder` has become `NULL` between the test and the insertion of the donation. -/
theorem lock_acquire_null :
    ∃ σ, Exec (step .statements) (boot allZero 1)
        (trace (step .statements) overlapActs (boot allZero 1)) σ ∧
      (∀ e ∈ trace (step .statements) overlapActs (boot allZero 1), LinkUse e.1 e.2) ∧
      σ.pc σ.kernel.running = some (.insertDonation (.lock 0)) ∧
      (LockStmt.insertDonation (.lock 0)).run σ.kernel = .error .nullPointer := by
  refine ⟨(runAll (step .statements) overlapActs (boot allZero 1)).get (by decide +kernel),
    Exec.of_runAll (Option.some_get _).symm, by decide +kernel, by decide +kernel, ?_⟩
  have hl : ((runAll (step .statements) overlapActs (boot allZero 1)).get
      (by decide +kernel)).kernel.holder (.lock 0) = none := by decide +kernel
  simp only [LockStmt.run, hl]

end Runs

end Project2
end Pintos
