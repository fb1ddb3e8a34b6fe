import Pintos.Project2.LifeCycle

/-!
# Ownership — locks give mutual exclusion

A thread owns a lock from the decrement of the lock's semaphore in its acquire to the increment in
its release.  In between the lock is, in turn, still to be entered into `lock->holder` (a pending
`setHolder`), held by the program, and still to be given back (a pending `sema_up`); these are the
thread's tokens.  The semaphore's value and the tokens of all threads together make one.

`Typed` describes code that acquires and releases in order.  The invariant holds at either
granularity of the locks' functions, with a switch possible between any two frames.
-/

namespace Pintos
namespace Project2

open Lib Function

/-! ## Code that acquires and releases in order -/

/-- What a frame, with the frames it pushes, does to the locks held. -/
def Frame.heldAfter : Frame → List LockPtr → List LockPtr
  | .down (.ofLock l) _, H | .downLoop (.ofLock l) _, H | .lockAcquire l, H | .acquireEntry l, H
  | .stmt (.setHolder l), H => l :: H
  | .lockRelease l, H | .releaseEntry l, H => H.erase l
  | .takeTid _ _, H => H.erase .tidLock
  | _, H => H

/-- `sema_down` is called by the function that goes on after it. -/
def AfterDown.Fits : SemaPtr → AfterDown → Prop
  | .ofLock l, .acquired l' | .ofLock l, .acquiring l' => l' = l
  | .ofLock _, .ret => False
  | _, .ret => True
  | _, _ => False

/-- What a frame relies on when the locks `H` are held and `rest` comes behind it. -/
def Frame.Needs (H : List LockPtr) (rest : List Frame) : Frame → Prop
  | .down s after | .downLoop s after => after.Fits s ∧ ∀ l, s = .ofLock l → l ∉ H
  | .semaTryDown s => ∀ l, s ≠ .ofLock l
  | .lockRelease l | .releaseEntry l | .condEnqueue _ l | .condReturn _ l => l ∈ H
  | .takeTid _ _ => .tidLock ∈ H
  | .stmt (.clearHolder l) => .semaUp (.ofLock l) ∈ rest
  | .lockTryAcquire _ | .tryEntry _ | .tryDown _ => rest = []
  | _ => True

def Typed : List LockPtr → List Frame → Prop
  | _, [] => True
  | H, f :: rest => f.Needs H rest ∧ Typed (f.heldAfter H) rest

/-- Statements other than the two that write `lock->holder`. -/
def LockStmt.isPlain : LockStmt → Bool
  | .setHolder _ | .clearHolder _ => false
  | _ => true

theorem LockStmt.run_plain {k k' : Kernel} {st : LockStmt} {next : List LockStmt}
    (h : st.run k = .ok (k', next)) : ∀ st' ∈ next, st'.isPlain = true := by
  cases st with
  | donateSet e =>
      cases e <;> cases h
      simp [LockStmt.isPlain]
  | removeTest l e =>
      cases e with
      | none =>
          cases h
          simp
      | some t =>
          simp only [LockStmt.run] at h
          split at h <;> cases h <;> simp [LockStmt.isPlain]
  | setWaiting | clearWaiting | setHolder | clearHolder | removeBegin | removeClear
  | removeUnlink | removeNext | resetInit | resetSort =>
      cases h
      simp [LockStmt.isPlain]
  | _ =>
      simp only [LockStmt.run] at h
      split at h <;> cases h <;> simp [LockStmt.isPlain]

theorem typed_stmts {H : List LockPtr} {rest : List Frame} {sts : List LockStmt}
    (hst : ∀ st ∈ sts, st.isPlain = true) (h : Typed H rest) :
    Typed H (sts.map .stmt ++ rest) := by
  induction sts with
  | nil =>
      exact h
  | cons st sts ih =>
      have hplain := hst st List.mem_cons_self
      have hrest := ih fun st' h' => hst st' (List.mem_cons_of_mem _ h')
      cases st with
      | setHolder l | clearHolder l => cases hplain
      | _ => exact ⟨trivial, hrest⟩

section RunFrame

variable {cfg : Config} {k : Kernel} {f : Frame} {rest : List Frame} {o : Outcome}
  {H : List LockPtr}

theorem typed_down {s : SemaPtr} {after : AfterDown} {got : Bool}
    (h : Typed H (.downLoop s after :: rest)) :
    Typed ((downOutcome s after k got).change.apply H)
      ((downOutcome s after k got).push ++ rest) := by
  cases got with
  | false =>
      exact h
  | true =>
      obtain ⟨⟨hfit, hnot⟩, hrest⟩ := h
      cases s <;> cases after <;> cases hfit
      all_goals first | exact hrest | exact ⟨trivial, trivial, hrest⟩

/-- A frame leaves typed code behind. -/
theorem runFrame_typed (hH : ∀ l ∈ H, k.holder l = some k.running) (h : Typed H (f :: rest))
    (hr : runFrame cfg k f = .ok o) : Typed (o.change.apply H) (o.push ++ rest) := by
  have hrest := h.2
  cases f with
  | down s after | downLoop s after =>
      rcases bind_eq_ok.1 hr with ⟨⟨k₁, got⟩, -, hr⟩
      cases hr
      refine typed_down ?_
      cases s <;> exact h
  | lockAcquire l =>
      rcases bind_eq_ok.1 hr with ⟨⟨k₁, got⟩, hd, hr⟩
      have hnot : l ∉ H := fun hl => (lockAcquire_eq_ok.1 hd).2.1 (hH l hl)
      cases got with
      | true =>
          cases hr
          exact hrest
      | false =>
          cases hr
          exact ⟨⟨rfl, by rintro l' ⟨⟩; exact hnot⟩, hrest⟩
  | lockTryAcquire l =>
      rcases bind_eq_ok.1 hr with ⟨⟨k₁, success⟩, -, hr⟩
      cases hr
      rw [show rest = [] from h.1]
      trivial
  | lockRelease l =>
      rcases bind_eq_ok.1 hr with ⟨k₁, -, hr⟩
      cases hr
      exact hrest
  | acquireEntry l =>
      simp only [runFrame, assert_bind_eq_ok] at hr
      obtain ⟨-, hne, hr⟩ := hr
      cases hr
      exact ⟨trivial, ⟨rfl, by rintro l' ⟨⟩; exact fun hl => hne (hH l hl)⟩, hrest⟩
  | tryEntry l =>
      simp only [runFrame, assert_bind_eq_ok] at hr
      cases hr.2
      rw [show rest = [] from h.1]
      exact ⟨rfl, trivial⟩
  | tryDown l =>
      cases hr
      rw [show rest = [] from h.1]
      simp only [Kernel.andThen]
      split
      · exact ⟨trivial, trivial⟩
      · trivial
  | releaseEntry l =>
      simp only [runFrame, assert_bind_eq_ok] at hr
      cases hr.2
      refine ⟨?_, trivial, trivial, trivial, hrest⟩
      simp [Frame.Needs]
  | stmt st =>
      rcases bind_eq_ok.1 hr with ⟨⟨k₁, next⟩, hd, hr⟩
      cases hr
      refine typed_stmts (LockStmt.run_plain hd) ?_
      cases st <;> exact hrest
  | condBroadcast c l =>
      simp only [runFrame] at hr
      split at hr
      · cases hr
        exact hrest
      · rcases bind_eq_ok.1 hr with ⟨k₁, -, hr⟩
        cases hr
        exact ⟨trivial, hrest⟩
  | threadCreate t p =>
      rcases bind_eq_ok.1 hr with ⟨k₁, hd, hr⟩
      cases hr
      have hback : Typed ((LockPtr.tidLock :: H).erase .tidLock) rest := by
        rw [List.erase_cons_head]
        exact hrest
      cases cfg.grain <;> exact ⟨trivial, List.mem_cons_self, hback⟩
  | threadStart t =>
      rcases bind_eq_ok.1 hr with ⟨k₁, hd, hr⟩
      cases hr
      have hback : Typed ((LockPtr.tidLock :: H).erase .tidLock) rest := by
        rw [List.erase_cons_head]
        exact hrest
      cases cfg.grain <;>
        exact ⟨trivial, List.mem_cons_self, ⟨trivial, by rintro l ⟨⟩⟩, hback⟩
  | takeTid t p =>
      cases hr
      cases cfg.grain <;> exact ⟨h.1, trivial, hrest⟩
  | condReturn c l | blockReturn | sleepReturn | semaTryDown s =>
      cases hr
      exact hrest
  | timerSleep n | setIdle =>
      cases hr
      exact ⟨trivial, hrest⟩
  | threadBlock | sleepUntil d | idleUp | idleLoop =>
      rcases bind_eq_ok.1 hr with ⟨k₁, -, hr⟩
      cases hr
      exact ⟨trivial, hrest⟩
  | semaUp s | condEnqueue c l | condSignal c l | startNew t p tid | threadYield | threadExit
  | threadSetPriority p | threadUnblock t =>
      rcases bind_eq_ok.1 hr with ⟨k₁, -, hr⟩
      cases hr
      exact hrest

/-! ## Tokens -/

/-- The frame still has to enter the lock's holder, or to give the lock's semaphore back. -/
def Frame.holds (l : LockPtr) : Frame → Bool
  | .stmt (.setHolder l') | .semaUp (.ofLock l') => l' = l
  | _ => false

def tokens (l : LockPtr) (H : List LockPtr) (fs : List Frame) : Nat :=
  H.count l + fs.countP (Frame.holds l)

theorem tokens_cons (l : LockPtr) (H : List LockPtr) (f : Frame) (fs : List Frame) :
    tokens l H (f :: fs) = tokens l H fs + if f.holds l = true then 1 else 0 := by
  simp only [tokens, List.countP_cons]
  omega

theorem tokens_held_cons (l l' : LockPtr) (H : List LockPtr) (fs : List Frame) :
    tokens l (l' :: H) fs = tokens l H fs + if l' = l then 1 else 0 := by
  simp only [tokens, List.count_cons, beq_iff_eq]
  omega

theorem tokens_held_erase {l : LockPtr} {H : List LockPtr} (fs : List Frame) (h : l ∈ H) :
    tokens l (H.erase l) fs + 1 = tokens l H fs := by
  have hc := List.count_pos_iff.2 h
  simp only [tokens, List.count_erase_self]
  omega

theorem mem_held_tokens {l : LockPtr} {fs : List Frame} (h : l ∈ H) : 0 < tokens l H fs := by
  have hc := List.count_pos_iff.2 h
  unfold tokens
  omega

theorem holds_tokens {l : LockPtr} {fs : List Frame} {g : Frame} (hg : g ∈ fs)
    (hh : g.holds l = true) : 0 < tokens l H fs := by
  have hc : 0 < fs.countP (Frame.holds l) := List.countP_pos_iff.2 ⟨g, hg, hh⟩
  unfold tokens
  omega

/-- Holding the lock and still having to give it back makes two tokens. -/
theorem two_le_tokens {l : LockPtr} {fs : List Frame} (hl : l ∈ H)
    (hup : .semaUp (.ofLock l) ∈ fs) : 2 ≤ tokens l H fs := by
  have hheld := List.count_pos_iff.2 hl
  have hpend : 0 < fs.countP (Frame.holds l) :=
    List.countP_pos_iff.2 ⟨_, hup, by simp [Frame.holds]⟩
  unfold tokens
  omega

/-- What a frame of the thread `cur` does to the lock `l`; the thread's code goes from `fs` to
`fs'`, the locks it holds from `H` to `H'`. -/
inductive LockEffect (cur : ThreadPtr) (l : LockPtr) (k k' : Kernel) (H H' : List LockPtr)
    (fs fs' : List Frame) : Prop
  | keep : k'.value (.ofLock l) = k.value (.ofLock l) → k'.holder l = k.holder l →
      tokens l H' fs' = tokens l H fs → (l ∈ H' → l ∈ H) → LockEffect cur l k k' H H' fs fs'
  /-- the semaphore goes down and the thread gets a token -/
  | take : k.value (.ofLock l) ≠ 0 → k'.value (.ofLock l) = (k.lowered (.ofLock l)).value (.ofLock l) →
      tokens l H' fs' = tokens l H fs + 1 →
      (k'.holder l = k.holder l ∧ (l ∈ H' → l ∈ H) ∨ k'.holder l = some cur ∧ l ∈ H') →
      LockEffect cur l k k' H H' fs fs'
  /-- the semaphore goes up and the token is gone -/
  | give : k'.value (.ofLock l) = (k.raised (.ofLock l)).value (.ofLock l) →
      tokens l H' fs' + 1 = tokens l H fs →
      (k'.holder l = none ∨ k'.holder l = k.holder l ∧ ∃ rest, fs = .semaUp (.ofLock l) :: rest) →
      LockEffect cur l k k' H H' fs fs'
  /-- the owner enters itself as the holder -/
  | set : k'.value (.ofLock l) = k.value (.ofLock l) → tokens l H' fs' = tokens l H fs →
      0 < tokens l H fs → k'.holder l = some cur → l ∈ H' → LockEffect cur l k k' H H' fs fs'
  /-- the owner, about to give the semaphore back, clears the holder -/
  | clear : k'.value (.ofLock l) = k.value (.ofLock l) → tokens l H' fs' = tokens l H fs →
      .semaUp (.ofLock l) ∈ fs' → k'.holder l = none → LockEffect cur l k k' H H' fs fs'

variable {l : LockPtr} {k' : Kernel}

/-- An operation that neither takes the semaphore nor gives it back leaves the value. -/
theorem SemaOp.Does.value_same {op : SemaOp} (h : op.Does k k')
    (ht : op ≠ .took (.ofLock l)) (hu : op ≠ .upped (.ofLock l)) :
    k'.value (.ofLock l) = k.value (.ofLock l) := by
  by_cases hq : op = .queued (.ofLock l)
  · subst hq
    rw [h.2.1]
  · rcases h.elsewhere hq ht hu with ⟨-, hv, -⟩ | ⟨t, -, hs, -⟩
    · exact hv
    · cases hs

theorem tokens_append {H H' : List LockPtr} {push : List Frame} (hf : f.holds l = false)
    (hp : ∀ g ∈ push, g.holds l = false) (hH : H'.count l = H.count l) :
    tokens l H' (push ++ rest) = tokens l H (f :: rest) := by
  have hpush : push.countP (Frame.holds l) = 0 := by
    rw [List.countP_eq_zero]
    exact fun g hg => by simp [hp g hg]
  simp [tokens, List.countP_append, hf, hpush, hH]

/-- A frame that has nothing to do with the lock. -/
theorem LockEffect.of_same (hr : runFrame cfg k f = .ok o)
    (ht : f.semaOp cfg k ≠ .took (.ofLock l)) (hu : f.semaOp cfg k ≠ .upped (.ofLock l))
    (hh : o.kernel.holder l = k.holder l) (hf : f.holds l = false)
    (hp : ∀ g ∈ o.push, g.holds l = false) (hc : (o.change.apply H).count l = H.count l) :
    LockEffect k.running l k o.kernel H (o.change.apply H) (f :: rest) (o.push ++ rest) := by
  refine .keep ((runFrame_semaOp hr).value_same ht hu) hh (tokens_append hf hp hc) fun hl => ?_
  rw [← List.count_pos_iff] at hl ⊢
  omega

theorem eq_ofLock_of_fits {s : SemaPtr} {l' : LockPtr}
    (h : (AfterDown.acquired l').Fits s ∨ (AfterDown.acquiring l').Fits s) : s = .ofLock l' := by
  cases s with
  | ofLock l => rcases h with h | h <;> rw [show l' = l from h]
  | sema n | idleStarted | waiter t => rcases h with h | h <;> cases h

theorem lockEffect_down {k₁ : Kernel} {s : SemaPtr} {after : AfterDown} {got : Bool}
    (hd : semaDownTurn k s = .ok (k₁, got)) (hfit : after.Fits s) (hf : f.holds l = false) :
    LockEffect k.running l k (downOutcome s after k₁ got).kernel H
      ((downOutcome s after k₁ got).change.apply H) (f :: rest)
      ((downOutcome s after k₁ got).push ++ rest) := by
  rcases semaDownTurn_eq_ok.1 hd with ⟨h0, rfl, hb⟩ | ⟨h0, rfl, rfl⟩
  · rcases threadBlock_footprint hb with ⟨_, _, _, _, rfl⟩
    exact .keep rfl rfl (tokens_append hf (by simp [downOutcome, Kernel.andThen, Frame.holds]) rfl)
      id
  · by_cases hs : s = .ofLock l
    · subst hs
      cases after with
      | ret =>
          cases hfit
      | acquired l' =>
          cases hfit
          refine .take h0 rfl ?_ (Or.inr ⟨?_, List.mem_cons_self⟩)
          · rw [tokens_cons, hf]
            exact (tokens_held_cons l l H rest).trans (by simp)
          · simp [downOutcome, AfterDown.finish, Kernel.acquired, Kernel.lowered]
      | acquiring l' =>
          cases hfit
          refine .take h0 rfl ?_ (Or.inl ⟨rfl, id⟩)
          rw [tokens_cons l H f, hf]
          show tokens l H (.stmt .clearWaiting :: .stmt (.setHolder l) :: rest) = _
          simp [tokens_cons, Frame.holds]
    · -- another semaphore
      have hv : (k.lowered s).value (.ofLock l) = k.value (.ofLock l) := by
        simp [Kernel.lowered, Ne.symm hs]
      cases after with
      | ret =>
          exact .keep hv rfl (tokens_append hf (by simp [downOutcome, AfterDown.finish,
            Kernel.done]) rfl) id
      | acquired l' =>
          have hne : l' ≠ l := fun e => hs (by rw [eq_ofLock_of_fits (Or.inl hfit), e])
          refine .keep hv ?_ (tokens_append hf (by simp [downOutcome, AfterDown.finish]) ?_) ?_
          · simp [downOutcome, AfterDown.finish, Kernel.acquired, Kernel.lowered, hne.symm]
          · exact List.count_cons_of_ne hne
          · exact fun hl => (List.mem_cons.1 hl).resolve_left hne.symm
      | acquiring l' =>
          have hne : l' ≠ l := fun e => hs (by rw [eq_ofLock_of_fits (Or.inr hfit), e])
          refine .keep hv rfl (tokens_append hf ?_ rfl) id
          simp [downOutcome, AfterDown.finish, Kernel.andThen, Frame.holds, hne]

theorem lockEffect_lockAcquire {l' : LockPtr} (hr : runFrame cfg k (.lockAcquire l') = .ok o) :
    LockEffect k.running l k o.kernel H (o.change.apply H) (.lockAcquire l' :: rest)
      (o.push ++ rest) := by
  rcases bind_eq_ok.1 hr with ⟨⟨k₁, got⟩, hd, hr⟩
  rcases lockAcquire_eq_ok.1 hd with ⟨-, -, k₂, k₃, hdon, hdown, rfl⟩
  rcases lockDonate_footprint hdon with ⟨p, w, d, rfl⟩
  have heff := @lockEffect_down _ (.lockAcquire l') rest H l k₃ (.ofLock l') (.acquired l') got
    (semaDown_eq_ok.1 hdown).2 rfl rfl
  -- the donation before `sema_down` touches neither the semaphore nor the holder
  have hback : LockEffect k.running l k
      (downOutcome (.ofLock l') (.acquired l') k₃ got).kernel H
      ((downOutcome (.ofLock l') (.acquired l') k₃ got).change.apply H)
      (.lockAcquire l' :: rest)
      ((downOutcome (.ofLock l') (.acquired l') k₃ got).push ++ rest) := by
    cases heff with
    | keep hv hh hn hH' => exact .keep hv hh hn hH'
    | take h0 hv hn hh => exact .take h0 hv hn hh
    | give hv hn hh => exact .give hv hn hh
    | set hv hn hpos hh hm => exact .set hv hn hpos hh hm
    | clear hv hn hmem hh => exact .clear hv hn hmem hh
  cases got with
  | true =>
      cases hr
      exact hback
  | false =>
      cases hr
      exact hback

theorem lockEffect_lockTryAcquire {l' : LockPtr}
    (hr : runFrame cfg k (.lockTryAcquire l') = .ok o) :
    LockEffect k.running l k o.kernel H (o.change.apply H) (.lockTryAcquire l' :: rest)
      (o.push ++ rest) := by
  have hsame := @LockEffect.of_same cfg k (.lockTryAcquire l') rest o H l hr
  rcases bind_eq_ok.1 hr with ⟨⟨k₁, success⟩, hd, hr⟩
  cases hr
  rcases lockTryAcquire_eq_ok.1 hd with ⟨-, hsucc, rfl⟩
  by_cases h0 : k.value (.ofLock l') = 0
  · have hfalse : success = false := by simp [hsucc, semaTryDown, h0]
    subst hfalse
    exact hsame (by simp [Frame.semaOp, SemaOp.tryDown, h0])
      (by simp [Frame.semaOp, SemaOp.tryDown, h0]) rfl rfl (by simp) rfl
  · have htrue : success = true := by simp [hsucc, semaTryDown, Nat.pos_of_ne_zero h0]
    subst htrue
    by_cases hl : l' = l
    · subst hl
      refine .take h0 ?_ ?_ (Or.inr ⟨?_, List.mem_cons_self⟩)
      · simp [semaTryDown, Nat.pos_of_ne_zero h0]
      · rw [tokens_cons]
        exact (tokens_held_cons l' l' H rest).trans (by simp [Frame.holds])
      · simp
    · refine hsame ?_ ?_ ?_ rfl (by simp) (List.count_cons_of_ne hl)
      · simp [Frame.semaOp, SemaOp.tryDown, h0, hl]
      · simp [Frame.semaOp, SemaOp.tryDown, h0]
      · simp [semaTryDown, Nat.pos_of_ne_zero h0, Kernel.lowered, Ne.symm hl]

theorem lockEffect_lockRelease {l' : LockPtr} (h : Typed H (.lockRelease l' :: rest))
    (hr : runFrame cfg k (.lockRelease l') = .ok o) :
    LockEffect k.running l k o.kernel H (o.change.apply H) (.lockRelease l' :: rest)
      (o.push ++ rest) := by
  have hsame := @LockEffect.of_same cfg k (.lockRelease l') rest o H l hr
  have hd := runFrame_semaOp hr
  rcases bind_eq_ok.1 hr with ⟨k₁, hrel, hr⟩
  cases hr
  rcases released_footprint k l' with ⟨p, w, d, hk⟩
  have hu := (lockRelease_eq_ok.1 hrel).2
  rw [hk] at hu
  rcases semaUp_footprint hu with ⟨_, _, _, _, _, _, rfl⟩
  by_cases hl : l' = l
  · subst hl
    refine .give (by rw [hd.1]) ?_ (Or.inl ?_)
    · rw [tokens_cons]
      exact (tokens_held_erase rest h.1).trans (by simp [Frame.holds])
    · simp
  · refine hsame (by simp [Frame.semaOp]) (by simp [Frame.semaOp, hl]) ?_ rfl (by simp)
      (List.count_erase_of_ne (Ne.symm hl))
    simp [Ne.symm hl]

theorem lockEffect_tryDown {l' : LockPtr} (hr : runFrame cfg k (.tryDown l') = .ok o) :
    LockEffect k.running l k o.kernel H (o.change.apply H) (.tryDown l' :: rest)
      (o.push ++ rest) := by
  have hsame := @LockEffect.of_same cfg k (.tryDown l') rest o H l hr
  by_cases h0 : k.value (.ofLock l') = 0
  · have ho : o = k.andThen [] := by
      simpa [runFrame, semaTryDown, h0, eq_comm] using hr
    subst ho
    exact hsame (by simp [Frame.semaOp, SemaOp.tryDown, h0])
      (by simp [Frame.semaOp, SemaOp.tryDown, h0]) rfl rfl (by simp [Kernel.andThen]) rfl
  · have ho : o = (k.lowered (.ofLock l')).andThen [.stmt (.setHolder l')] := by
      simpa [runFrame, semaTryDown, Nat.pos_of_ne_zero h0, eq_comm] using hr
    subst ho
    by_cases hl : l' = l
    · subst hl
      refine .take h0 rfl ?_ (Or.inl ⟨rfl, id⟩)
      simp [Kernel.andThen, tokens_cons, HeldChange.apply, Frame.holds]
    · refine hsame ?_ ?_ rfl rfl ?_ rfl
      · simp [Frame.semaOp, SemaOp.tryDown, h0, hl]
      · simp [Frame.semaOp, SemaOp.tryDown, h0]
      · simp [Kernel.andThen, Frame.holds, hl]

theorem lockEffect_releaseEntry {l' : LockPtr} (h : Typed H (.releaseEntry l' :: rest))
    (hr : runFrame cfg k (.releaseEntry l') = .ok o) :
    LockEffect k.running l k o.kernel H (o.change.apply H) (.releaseEntry l' :: rest)
      (o.push ++ rest) := by
  have hmem : l' ∈ H := h.1
  simp only [runFrame, assert_bind_eq_ok] at hr
  cases hr.2
  -- the token moves from the locks held to the pending `sema_up`
  refine .keep rfl rfl ?_ List.mem_of_mem_erase
  by_cases hl : l' = l
  · subst hl
    have he := tokens_held_erase rest hmem
    simp [tokens_cons, HeldChange.apply, Frame.holds] at he ⊢
    exact he
  · have hcount : (H.erase l').count l = H.count l := List.count_erase_of_ne (Ne.symm hl)
    simp [tokens, HeldChange.apply, Frame.holds, hl, hcount]

theorem lockEffect_stmt {st : LockStmt} (h : Typed H (.stmt st :: rest))
    (hr : runFrame cfg k (.stmt st) = .ok o) :
    LockEffect k.running l k o.kernel H (o.change.apply H) (.stmt st :: rest) (o.push ++ rest) := by
  have hsame := @LockEffect.of_same cfg k (.stmt st) rest o H l hr
  have hnext : ∀ g ∈ o.push, g.holds l = false := by
    rcases bind_eq_ok.1 hr with ⟨⟨k₁, next⟩, hd, hr⟩
    cases hr
    intro g hg
    rcases List.mem_map.1 hg with ⟨st', hst', rfl⟩
    have hplain := LockStmt.run_plain hd st' hst'
    cases st' <;> first | rfl | cases hplain
  by_cases hplain : st.isPlain = true
  · rcases bind_eq_ok.1 hr with ⟨⟨k₁, next⟩, hd, hr⟩
    cases hr
    have hst : ∀ l, st ≠ .setHolder l ∧ st ≠ .clearHolder l := by
      intro l
      constructor
      all_goals
        rintro rfl
        cases hplain
    have hh := LockStmt.run_holder hd (fun l => (hst l).1) (fun l => (hst l).2)
    refine hsame (by simp [Frame.semaOp]) (by simp [Frame.semaOp]) (by rw [hh]) ?_ hnext ?_
    · cases st <;> first | rfl | cases hplain
    · cases st <;> first | rfl | cases hplain
  · cases st with
    | setHolder l' =>
        cases hr
        by_cases hl : l' = l
        · subst hl
          refine .set rfl ?_ ?_ (by simp) List.mem_cons_self
          · rw [tokens_cons]
            exact (tokens_held_cons l' l' H rest).trans (by simp [Frame.holds])
          · exact holds_tokens List.mem_cons_self (by simp [Frame.holds])
        · exact hsame (by simp [Frame.semaOp]) (by simp [Frame.semaOp]) (by simp [Ne.symm hl])
            (by simp [Frame.holds, hl]) hnext (List.count_cons_of_ne hl)
    | clearHolder l' =>
        cases hr
        by_cases hl : l' = l
        · subst hl
          refine .clear rfl ?_ h.1 (by simp)
          rw [tokens_cons]
          simp [stmtChange, HeldChange.apply, Frame.holds]
        · exact hsame (by simp [Frame.semaOp]) (by simp [Frame.semaOp]) (by simp [Ne.symm hl])
            rfl hnext rfl
    | _ => exact absurd rfl hplain

/-- What a frame of typed code does to the lock `l`. -/
theorem runFrame_lockEffect (h : Typed H (f :: rest)) (hr : runFrame cfg k f = .ok o) (l : LockPtr) :
    LockEffect k.running l k o.kernel H (o.change.apply H) (f :: rest) (o.push ++ rest) := by
  have hsame := @LockEffect.of_same cfg k f rest o H l hr
  have hw : .holder ∉ f.writes → o.kernel.holder l = k.holder l :=
    fun hw => by rw [(runFrame_unwritten hr).holder hw]
  cases f with
  | down s after =>
      rcases bind_eq_ok.1 hr with ⟨⟨k₁, got⟩, hd, hr⟩
      cases hr
      exact lockEffect_down (semaDown_eq_ok.1 hd).2 h.1.1 rfl
  | downLoop s after =>
      rcases bind_eq_ok.1 hr with ⟨⟨k₁, got⟩, hd, hr⟩
      cases hr
      exact lockEffect_down hd h.1.1 rfl
  | semaTryDown s =>
      cases hr
      have hs : s ≠ .ofLock l := h.1 l
      rcases SemaOp.tryDown_cases k s with hop | hop <;>
        exact hsame (by simp [Frame.semaOp, hop, hs]) (by simp [Frame.semaOp, hop])
          (hw (by simp [Frame.writes])) rfl (by simp [Kernel.done]) rfl
  | semaUp s =>
      have hd := runFrame_semaOp hr
      rcases bind_eq_ok.1 hr with ⟨k₁, -, hr⟩
      cases hr
      by_cases hs : s = .ofLock l
      · -- the token in the frame itself
        subst hs
        refine .give (by rw [hd.1]) ?_ (Or.inr ⟨hw (by simp [Frame.writes]), rest, rfl⟩)
        rw [tokens_cons]
        simp [Kernel.done, HeldChange.apply, Frame.holds]
      · have hf : (Frame.semaUp s).holds l = false := by
          cases s with
          | ofLock l' => simpa [Frame.holds] using fun e => hs (by rw [e])
          | sema n | idleStarted | waiter t => rfl
        exact hsame (by simp [Frame.semaOp]) (by simpa [Frame.semaOp] using hs)
          (hw (by simp [Frame.writes])) hf (by simp [Kernel.done]) rfl
  | lockAcquire l' => exact lockEffect_lockAcquire hr
  | lockTryAcquire l' => exact lockEffect_lockTryAcquire hr
  | lockRelease l' => exact lockEffect_lockRelease h hr
  | acquireEntry l' =>
      simp only [runFrame, assert_bind_eq_ok] at hr
      cases hr.2.2
      exact hsame (by simp [Frame.semaOp]) (by simp [Frame.semaOp]) rfl rfl
        (by simp [Kernel.andThen, Frame.holds]) rfl
  | tryEntry l' =>
      simp only [runFrame, assert_bind_eq_ok] at hr
      cases hr.2
      exact hsame (by simp [Frame.semaOp]) (by simp [Frame.semaOp]) rfl rfl
        (by simp [Kernel.andThen, Frame.holds]) rfl
  | tryDown l' => exact lockEffect_tryDown hr
  | releaseEntry l' => exact lockEffect_releaseEntry h hr
  | stmt st => exact lockEffect_stmt h hr
  | condSignal c l' =>
      rcases bind_eq_ok.1 hr with ⟨k₁, -, hr⟩
      cases hr
      rcases SemaOp.signal_cases cfg.order k c with hop | ⟨w, hop⟩ <;>
        exact hsame (by simp [Frame.semaOp, hop]) (by simp [Frame.semaOp, hop])
          (hw (by simp [Frame.writes])) rfl (by simp [Kernel.done]) rfl
  | condBroadcast c l' =>
      have hop : (Frame.condBroadcast c l').semaOp cfg k ≠ .took (.ofLock l) ∧
          (Frame.condBroadcast c l').semaOp cfg k ≠ .upped (.ofLock l) := by
        rcases SemaOp.signal_cases cfg.order k c with hop | ⟨w, hop⟩ <;> simp [Frame.semaOp, hop]
      refine hsame hop.1 hop.2 (hw (by simp [Frame.writes])) rfl ?_ ?_
      all_goals
        simp only [runFrame] at hr
        split at hr
        · cases hr
          simp [Kernel.done, HeldChange.apply]
        · rcases bind_eq_ok.1 hr with ⟨k₁, -, hr⟩
          cases hr
          simp [Kernel.andThen, HeldChange.apply, Frame.holds]
  | idleUp =>
      rcases bind_eq_ok.1 hr with ⟨k₁, -, hr⟩
      cases hr
      exact hsame (by simp [Frame.semaOp]) (by simp [Frame.semaOp]) (hw (by simp [Frame.writes])) rfl
        (by simp [Kernel.andThen, Frame.holds]) rfl
  | condEnqueue c l' | startNew t p tid | threadYield | threadExit | threadSetPriority p
  | threadUnblock t | threadBlock | sleepUntil d | idleLoop =>
      rcases bind_eq_ok.1 hr with ⟨k₁, -, hr⟩
      cases hr
      exact hsame (by simp [Frame.semaOp]) (by simp [Frame.semaOp]) (hw (by simp [Frame.writes])) rfl
        (by simp [Kernel.done, Kernel.andThen, Frame.holds]) rfl
  | threadCreate t p | threadStart t =>
      rcases bind_eq_ok.1 hr with ⟨k₁, -, hr⟩
      cases hr
      refine hsame (by simp [Frame.semaOp]) (by simp [Frame.semaOp])
        (hw (by simp [Frame.writes])) rfl ?_ rfl
      cases cfg.grain <;> simp [Kernel.andThen, acquireFrame, Frame.holds]
  | takeTid t p =>
      cases hr
      refine hsame (by simp [Frame.semaOp]) (by simp [Frame.semaOp])
        (hw (by simp [Frame.writes])) rfl ?_ rfl
      cases cfg.grain <;> simp [Kernel.andThen, releaseFrame, Frame.holds]
  | condReturn c l' | blockReturn | sleepReturn | timerSleep n | setIdle =>
      cases hr
      exact hsame (by simp [Frame.semaOp]) (by simp [Frame.semaOp]) rfl rfl
        (by simp [Kernel.done, Kernel.andThen, Frame.holds]) rfl

/-- `lock_release` clears the holder before it gives the semaphore back. -/
theorem runFrame_clears (hr : runFrame cfg k f = .ok o)
    (hp : .semaUp (.ofLock l) ∈ o.push) : .stmt (.clearHolder l) ∈ o.push := by
  cases f with
  | releaseEntry l' =>
      simp only [runFrame, assert_bind_eq_ok] at hr
      cases hr.2
      have hl : l = l' := by simpa using hp
      simp [hl]
  | down s after | downLoop s after =>
      rcases bind_eq_ok.1 hr with ⟨⟨k₁, got⟩, -, hr⟩
      cases hr
      cases got <;> cases after <;> simp [downOutcome, AfterDown.finish, Kernel.andThen,
        Kernel.done] at hp
  | lockAcquire l' =>
      rcases bind_eq_ok.1 hr with ⟨⟨k₁, got⟩, -, hr⟩
      cases got <;> cases hr <;> simp [Kernel.andThen] at hp
  | acquireEntry l' =>
      simp only [runFrame, assert_bind_eq_ok] at hr
      cases hr.2.2
      simp [Kernel.andThen] at hp
  | tryEntry l' =>
      simp only [runFrame, assert_bind_eq_ok] at hr
      cases hr.2
      simp [Kernel.andThen] at hp
  | tryDown l' =>
      by_cases h0 : k.value (.ofLock l') = 0
      · have ho : o = k.andThen [] := by
          simpa [runFrame, semaTryDown, h0, eq_comm] using hr
        simp [ho, Kernel.andThen] at hp
      · have ho : o = (k.lowered (.ofLock l')).andThen [.stmt (.setHolder l')] := by
          simpa [runFrame, semaTryDown, Nat.pos_of_ne_zero h0, eq_comm] using hr
        simp [ho, Kernel.andThen] at hp
  | stmt st =>
      rcases bind_eq_ok.1 hr with ⟨⟨k₁, next⟩, -, hr⟩
      cases hr
      simp at hp
  | condBroadcast c l' =>
      simp only [runFrame] at hr
      split at hr
      · cases hr
        cases hp
      · rcases bind_eq_ok.1 hr with ⟨k₁, -, hr⟩
        cases hr
        simp [Kernel.andThen] at hp
  | threadCreate t p | threadStart t =>
      rcases bind_eq_ok.1 hr with ⟨k₁, -, hr⟩
      cases hr
      cases hg : cfg.grain <;> simp [Kernel.andThen, acquireFrame, hg] at hp
  | takeTid t p =>
      cases hr
      cases hg : cfg.grain <;> simp [Kernel.andThen, releaseFrame, hg] at hp
  | semaTryDown s | condReturn c l' | blockReturn | sleepReturn | timerSleep n | setIdle =>
      cases hr
      simp [Kernel.done, Kernel.andThen] at hp
  | _ =>
      rcases bind_eq_ok.1 hr with ⟨_, -, hr⟩
      cases hr
      simp [Kernel.done, Kernel.andThen] at hp

end RunFrame

/-! ## The invariant -/

/-- The tokens of the thread for the lock. -/
def System.tokens (σ : System) (l : LockPtr) (t : ThreadPtr) : Nat :=
  Project2.tokens l (σ.held t) (σ.code t)

/-- The lock's semaphore, its holder and the tokens of the threads agree. -/
structure Owned (σ : System) (l : LockPtr) : Prop where
  one : (σ.kernel.value (.ofLock l) = 1 ∧ ∀ t, σ.tokens l t = 0) ∨
    (σ.kernel.value (.ofLock l) = 0 ∧ ∃ t, σ.tokens l t = 1 ∧ ∀ u, u ≠ t → σ.tokens l u = 0)
  holder : ∀ t, σ.kernel.holder l = some t → 0 < σ.tokens l t
  held : ∀ t, l ∈ σ.held t → σ.kernel.holder l = some t
  clear : ∀ t, .semaUp (.ofLock l) ∈ σ.code t → σ.kernel.holder l = some t →
    .stmt (.clearHolder l) ∈ σ.code t

structure Ownership (σ : System) : Prop where
  settled : Settled σ
  typed : ∀ t, Typed (σ.held t) (σ.code t)
  owned : ∀ l, Owned σ l

section Owned

variable {σ σ' : System} {l : LockPtr} {cfg : Config}

theorem Owned.tokens_le (h : Owned σ l) (t : ThreadPtr) : σ.tokens l t ≤ 1 := by
  rcases h.one with ⟨-, h0⟩ | ⟨-, u, h1, h0⟩
  · simp [h0 t]
  · by_cases ht : t = u
    · simp [ht, h1]
    · simp [h0 t ht]

/-- A thread with a token is the only one, and the semaphore is down. -/
theorem Owned.unique (h : Owned σ l) {t : ThreadPtr} (ht : 0 < σ.tokens l t) :
    σ.kernel.value (.ofLock l) = 0 ∧ σ.tokens l t = 1 ∧ ∀ u, u ≠ t → σ.tokens l u = 0 := by
  rcases h.one with ⟨-, h0⟩ | ⟨hv, v, h1, h0⟩
  · have := h0 t
    omega
  · by_cases hne : t = v
    · subst hne
      exact ⟨hv, h1, h0⟩
    · have := h0 t hne
      omega

/-- With the semaphore up nobody has a token. -/
theorem Owned.free (h : Owned σ l) (hv : σ.kernel.value (.ofLock l) ≠ 0) :
    σ.kernel.value (.ofLock l) = 1 ∧ ∀ t, σ.tokens l t = 0 := by
  rcases h.one with hfree | ⟨h0, -⟩
  · exact hfree
  · exact absurd h0 hv

/-- Behind a pending `clearHolder` there is the pending `sema_up`. -/
theorem semaUp_of_clear {H : List LockPtr} {fs : List Frame} (h : Typed H fs)
    (hm : .stmt (.clearHolder l) ∈ fs) : .semaUp (.ofLock l) ∈ fs := by
  induction fs generalizing H with
  | nil =>
      cases hm
  | cons f fs ih =>
      rcases List.mem_cons.1 hm with rfl | hm
      · exact List.mem_cons_of_mem _ h.1
      · exact List.mem_cons_of_mem _ (ih h.2 hm)

/-- A step of the running thread, as the lock sees it: the other threads keep their tokens. -/
structure LockStep (σ σ' : System) (l : LockPtr) : Prop where
  effect : LockEffect σ.kernel.running l σ.kernel σ'.kernel (σ.held σ.kernel.running)
    (σ'.held σ.kernel.running) (σ.code σ.kernel.running) (σ'.code σ.kernel.running)
  tokens : ∀ u, u ≠ σ.kernel.running → σ'.tokens l u = σ.tokens l u
  held : ∀ u, u ≠ σ.kernel.running → σ'.held u = σ.held u
  semaUp : ∀ u, u ≠ σ.kernel.running →
    .semaUp (.ofLock l) ∈ σ'.code u → .semaUp (.ofLock l) ∈ σ.code u
  clear : ∀ u, u ≠ σ.kernel.running →
    .stmt (.clearHolder l) ∈ σ.code u → .stmt (.clearHolder l) ∈ σ'.code u

theorem lockStep_after {f : Frame} {rest : List Frame} {o : Outcome} (hlive : Live σ.kernel σ.code)
    (ht : Typed (σ.held σ.kernel.running) (f :: rest))
    (hc : σ.code σ.kernel.running = f :: rest) (hr : runFrame cfg σ.kernel f = .ok o) :
    LockStep σ (σ.after f rest o) l := by
  have heff := runFrame_lockEffect ht hr l
  have hheld : ∀ u, u ≠ σ.kernel.running → (σ.after f rest o).held u = σ.held u := by
    intro u hu
    simp [System.after, hu]
  refine ⟨?_, ?_, hheld, ?_, ?_⟩
  · rw [hc]
    simpa [System.after] using heff
  all_goals
    intro u hu
    rcases code_after hlive rest hr u with ⟨he, -⟩ | ⟨-, prog, -, hold, he, hprog⟩ | ⟨-, he⟩
    · exact absurd he hu
    · have hcode : (σ.after f rest o).code u = prog := he
      simp only [System.tokens, hheld u hu, hcode, hold]
      rcases hprog with rfl | ⟨rfl, -⟩ <;> simp [Project2.tokens, Frame.holds]
    · have hcode : (σ.after f rest o).code u = σ.code u := he
      simp [System.tokens, hheld u hu, hcode]

/-- The value and the tokens make one. -/
theorem LockStep.one (hs : LockStep σ σ' l) (h : Owned σ l) :
    (σ'.kernel.value (.ofLock l) = 1 ∧ ∀ t, σ'.tokens l t = 0) ∨
      (σ'.kernel.value (.ofLock l) = 0 ∧
        ∃ t, σ'.tokens l t = 1 ∧ ∀ u, u ≠ t → σ'.tokens l u = 0) := by
  cases hs.effect with
  | keep hv _ hn _ | set hv hn _ _ _ | clear hv hn _ _ =>
      have hsame : ∀ u, σ'.tokens l u = σ.tokens l u := by
        intro u
        by_cases hu : u = σ.kernel.running
        · rw [hu]
          exact hn
        · exact hs.tokens u hu
      simp only [hsame, hv]
      exact h.one
  | take h0 hv hn _ =>
      obtain ⟨h1, hfree⟩ := h.free h0
      refine Or.inr ⟨?_, σ.kernel.running, ?_, fun u hu => ?_⟩
      · rw [hv]
        simp [Kernel.lowered, h1, unsignedSize]
      · exact hn.trans (congrArg (· + 1) (hfree _))
      · rw [hs.tokens u hu, hfree]
  | give hv hn _ =>
      have hgive : σ'.tokens l σ.kernel.running + 1 = σ.tokens l σ.kernel.running := hn
      obtain ⟨h0, h1, hrest⟩ := @Owned.unique _ _ h σ.kernel.running (by omega)
      refine Or.inl ⟨?_, fun u => ?_⟩
      · rw [hv]
        simp [Kernel.raised, h0, unsignedSize]
      · by_cases hu : u = σ.kernel.running
        · rw [hu]
          omega
        · rw [hs.tokens u hu, hrest u hu]

/-- The holder has a token. -/
theorem LockStep.holder (hs : LockStep σ σ' l) (h : Owned σ l)
    (ht : Typed (σ.held σ.kernel.running) (σ.code σ.kernel.running)) {t : ThreadPtr}
    (hholder : σ'.kernel.holder l = some t) : 0 < σ'.tokens l t := by
  have hold : σ.kernel.holder l = some t → t ≠ σ.kernel.running → 0 < σ'.tokens l t := by
    intro hh hne
    rw [hs.tokens t hne]
    exact h.holder t hh
  cases hs.effect with
  | keep hv hh hn _ =>
      rw [hh] at hholder
      by_cases hrun : t = σ.kernel.running
      · subst hrun
        exact (h.holder _ hholder).trans_eq hn.symm
      · exact hold hholder hrun
  | take h0 hv hn hh =>
      rcases hh with ⟨hh, -⟩ | ⟨hh, -⟩
      · have hpos := h.holder t (hh ▸ hholder)
        rw [(h.free h0).2 t] at hpos
        exact absurd hpos (lt_irrefl 0)
      · rw [hh] at hholder
        cases hholder
        exact (Nat.succ_pos _).trans_eq hn.symm
  | give hv hn hh =>
      rcases hh with hh | ⟨hh, rest', hfs⟩
      · rw [hh] at hholder
        cases hholder
      · rw [hh] at hholder
        by_cases hrun : t = σ.kernel.running
        · -- the holder would still have to be cleared, behind the `sema_up`
          subst hrun
          have hclear := h.clear _ (by rw [hfs]; exact List.mem_cons_self) hholder
          rw [hfs] at ht hclear
          have hmem : .semaUp (.ofLock l) ∈ rest' := semaUp_of_clear ht.2 (by simpa using hclear)
          have hcount : 0 < rest'.countP (Frame.holds l) :=
            List.countP_pos_iff.2 ⟨_, hmem, by simp [Frame.holds]⟩
          have hle := h.tokens_le σ.kernel.running
          rw [System.tokens, hfs, tokens_cons] at hle
          simp only [Frame.holds, decide_true, if_true, Project2.tokens] at hle
          omega
        · exact hold hholder hrun
  | set hv hn hp hh _ =>
      rw [hh] at hholder
      cases hholder
      exact hp.trans_eq hn.symm
  | clear hv hn hm hh =>
      rw [hh] at hholder
      cases hholder

/-- Whoever holds the lock is the holder. -/
theorem LockStep.holds (hs : LockStep σ σ' l) (h : Owned σ l) {t : ThreadPtr}
    (hl : l ∈ σ'.held t) : σ'.kernel.holder l = some t := by
  have hle := h.tokens_le σ.kernel.running
  by_cases hrun : t = σ.kernel.running
  · subst hrun
    have hpos : 0 < σ'.tokens l σ.kernel.running := mem_held_tokens hl
    cases hs.effect with
    | keep hv hh hn hH' =>
        rw [hh]
        exact h.held _ (hH' hl)
    | take h0 hv hn hh =>
        rcases hh with ⟨-, hH'⟩ | ⟨hh, -⟩
        · have hold : 0 < σ.tokens l σ.kernel.running := mem_held_tokens (hH' hl)
          rw [(h.free h0).2] at hold
          exact absurd hold (lt_irrefl 0)
        · exact hh
    | give hv hn hh =>
        have hgive : σ'.tokens l σ.kernel.running + 1 = σ.tokens l σ.kernel.running := hn
        omega
    | set hv hn hp hh _ =>
        exact hh
    | clear hv hn hm hh =>
        -- a second token, to give the semaphore back
        have hsame : σ'.tokens l σ.kernel.running = σ.tokens l σ.kernel.running := hn
        exact absurd hle (by rw [← hsame]; exact not_le.2 (two_le_tokens hl hm))
  · rw [hs.held t hrun] at hl
    have hpos : 0 < σ.tokens l t := mem_held_tokens hl
    have hnone : σ.tokens l σ.kernel.running = 0 := (h.unique hpos).2.2 _ (Ne.symm hrun)
    cases hs.effect with
    | keep hv hh hn hH' =>
        rw [hh]
        exact h.held t hl
    | take h0 hv hn hh =>
        rw [(h.free h0).2 t] at hpos
        exact absurd hpos (lt_irrefl 0)
    | give hv hn hh =>
        exact absurd (hn.trans hnone) (Nat.succ_ne_zero _)
    | set hv hn hp hh _ =>
        exact absurd hnone hp.ne'
    | clear hv hn hm hh =>
        exact absurd (hn.trans hnone) (holds_tokens hm (by simp [Frame.holds])).ne'

/-- The holder is cleared before the semaphore is given back. -/
theorem LockStep.clears (hs : LockStep σ σ' l) (h : Owned σ l)
    (hrun : σ'.kernel.holder l = some σ.kernel.running →
      .semaUp (.ofLock l) ∈ σ'.code σ.kernel.running →
      .stmt (.clearHolder l) ∈ σ'.code σ.kernel.running ∨
        .semaUp (.ofLock l) ∈ σ.code σ.kernel.running ∧
          (.stmt (.clearHolder l) ∈ σ.code σ.kernel.running →
            .stmt (.clearHolder l) ∈ σ'.code σ.kernel.running))
    {t : ThreadPtr} (hm : .semaUp (.ofLock l) ∈ σ'.code t)
    (hholder : σ'.kernel.holder l = some t) : .stmt (.clearHolder l) ∈ σ'.code t := by
  by_cases ht : t = σ.kernel.running
  · subst ht
    rcases hrun hholder hm with hclear | ⟨hup, hkept⟩
    · exact hclear
    · have hpos : 0 < σ.tokens l σ.kernel.running := holds_tokens hup (by simp [Frame.holds])
      cases hs.effect with
      | keep hv hh hn hH' =>
          exact hkept (h.clear _ hup (hh ▸ hholder))
      | take h0 hv hn hh =>
          rw [(h.free h0).2] at hpos
          exact absurd hpos (lt_irrefl 0)
      | give hv hn hh =>
          rcases hh with hh | ⟨hh, -⟩
          · rw [hh] at hholder
            cases hholder
          · exact hkept (h.clear _ hup (hh ▸ hholder))
      | set hv hn hp hh hl =>
          have hsame : σ'.tokens l σ.kernel.running = σ.tokens l σ.kernel.running := hn
          exact absurd (h.tokens_le σ.kernel.running)
            (by rw [← hsame]; exact not_le.2 (two_le_tokens hl hm))
      | clear hv hn hm hh =>
          rw [hh] at hholder
          cases hholder
  · have hback : σ'.kernel.holder l = σ.kernel.holder l → .stmt (.clearHolder l) ∈ σ'.code t :=
      fun hh => hs.clear t ht (h.clear t (hs.semaUp t ht hm) (hh ▸ hholder))
    have hne : σ'.kernel.holder l ≠ some σ.kernel.running := by
      intro hh
      rw [hh] at hholder
      cases hholder
      exact ht rfl
    cases hs.effect with
    | keep hv hh hn hH' =>
        exact hback hh
    | take h0 hv hn hh =>
        rcases hh with ⟨hh, -⟩ | ⟨hh, -⟩
        · exact hback hh
        · exact absurd hh hne
    | give hv hn hh =>
        rcases hh with hh | ⟨hh, -⟩
        · rw [hh] at hholder
          cases hholder
        · exact hback hh
    | set hv hn hp hh _ =>
        exact absurd hh hne
    | clear hv hn hm hh =>
        rw [hh] at hholder
        cases hholder

theorem Owned.exec {f : Frame} {rest : List Frame} {o : Outcome} (h : Owned σ l)
    (hset : Settled σ) (ht : Typed (σ.held σ.kernel.running) (f :: rest))
    (hc : σ.code σ.kernel.running = f :: rest) (hr : runFrame cfg σ.kernel f = .ok o) :
    Owned (σ.after f rest o) l := by
  have hs : LockStep σ (σ.after f rest o) l := lockStep_after hset.live ht hc hr
  have hcode : (σ.after f rest o).code σ.kernel.running = o.push ++ rest := by
    simp [System.after]
  refine ⟨hs.one h, fun t => hs.holder h (hc ▸ ht), fun t => hs.holds h, fun t => hs.clears h ?_⟩
  intro hholder hm
  rw [hcode] at hm ⊢
  rw [hc]
  rcases List.mem_append.1 hm with hpush | hrest
  · exact Or.inl (List.mem_append_left _ (runFrame_clears hr hpush))
  · refine Or.inr ⟨List.mem_cons_of_mem _ hrest, fun hclear => ?_⟩
    rcases List.mem_cons.1 hclear with rfl | hclear
    · -- the frame itself has cleared the holder
      cases hr
      simp [System.after] at hholder
    · exact List.mem_append_right _ hclear

end Owned

/-! ## Every run -/

/-- The lock that an operation releases. -/
def Op.releases : Op → Option LockPtr
  | .lockRelease n | .condWait _ n => some (.lock n)
  | _ => none

def Act.releases : Act → Option LockPtr
  | .call o => o.releases
  | _ => none

/-- A thread releases only what it has acquired. -/
def ReleaseOk (σ : System) (a : Act) : Prop :=
  ∀ l ∈ a.releases, l ∈ σ.held σ.kernel.running

/-- The runs of programs that call no bare operation and release only what they acquired. -/
def LockUse (σ : System) (a : Act) : Prop :=
  NoBareCall σ a ∧ ReleaseOk σ a

instance instDecidableNoBareCall (σ : System) (a : Act) : Decidable (NoBareCall σ a) :=
  inferInstanceAs (Decidable (_ = false))

instance instDecidableReleaseOk (σ : System) (a : Act) : Decidable (ReleaseOk σ a) :=
  inferInstanceAs (Decidable (∀ l ∈ a.releases, l ∈ σ.held σ.kernel.running))

instance instDecidableLockUse (σ : System) (a : Act) : Decidable (LockUse σ a) :=
  inferInstanceAs (Decidable (_ ∧ _))

section Runs

variable {cfg : Config} {σ σ' : System} {l : LockPtr}

theorem opFrames_typed {H : List LockPtr} (g : Grain) (cur : ThreadPtr) (o : Op)
    (hrel : ∀ l ∈ o.releases, l ∈ H) : Typed H (o.frames g cur) := by
  cases o with
  | lockRelease n =>
      cases g <;> exact ⟨hrel _ rfl, trivial⟩
  | condWait c n =>
      have hmem : LockPtr.lock n ∈ H := hrel _ rfl
      have hdown : AfterDown.ret.Fits (.waiter cur) ∧
          ∀ l, SemaPtr.waiter cur = .ofLock l → l ∉ H.erase (.lock n) :=
        ⟨trivial, by rintro l ⟨⟩⟩
      cases g <;> exact ⟨hmem, hmem, hdown, trivial, List.mem_cons_self, trivial⟩
  | semaDown n =>
      exact ⟨⟨trivial, by rintro l ⟨⟩⟩, trivial⟩
  | semaTryDown n =>
      exact ⟨by rintro l ⟨⟩, trivial⟩
  | _ => cases g <;> first | exact ⟨trivial, trivial⟩ | exact ⟨rfl, trivial⟩

theorem opFrames_holds (g : Grain) (cur : ThreadPtr) (o : Op) :
    ∀ f ∈ o.frames g cur, f.holds l = false := by
  cases o <;> cases g <;> simp [Op.frames, acquireFrame, tryFrame, releaseFrame, Frame.holds]

/-- Only the scheduling differs, or the running thread starts an operation. -/
theorem Owned.congr (h : Owned σ l) (hv : σ'.kernel.value = σ.kernel.value)
    (hh : σ'.kernel.holder = σ.kernel.holder) (hheld : σ'.held = σ.held)
    (hcode : ∀ t, σ'.code t = σ.code t ∨
      (σ.code t = [] ∧ ∀ f ∈ σ'.code t, f.holds l = false)) : Owned σ' l := by
  have htok : ∀ t, σ'.tokens l t = σ.tokens l t := by
    intro t
    rcases hcode t with hc | ⟨hc, hf⟩
    · simp [System.tokens, hheld, hc]
    · have h0 : (σ'.code t).countP (Frame.holds l) = 0 := by
        rw [List.countP_eq_zero]
        exact fun f hm => by simp [hf f hm]
      simp [System.tokens, Project2.tokens, hheld, hc, h0]
  refine ⟨?_, ?_, ?_, ?_⟩
  · simp only [htok, hv]
    exact h.one
  · intro t ht
    rw [htok]
    exact h.holder t (hh ▸ ht)
  · intro t ht
    rw [hh]
    exact h.held t (hheld ▸ ht)
  · intro t hm ht
    rcases hcode t with hc | ⟨hc, hf⟩
    · rw [hc] at hm ⊢
      exact h.clear t hm (hh ▸ ht)
    · have hholds := hf _ hm
      simp [Frame.holds] at hholds

theorem Ownership.step {a : Act} (h : Ownership σ) (hu : UnblockOk σ a) (hrel : ReleaseOk σ a)
    (hs : step cfg a σ = some σ') : Ownership σ' := by
  refine ⟨h.settled.step hu hs, ?_, ?_⟩
  · -- the code stays typed
    intro u
    cases a with
    | call o =>
        rcases step_call_iff.1 hs with ⟨-, rfl⟩
        by_cases hu : u = σ.kernel.running
        · subst hu
          simpa using opFrames_typed cfg.grain σ.kernel.running o hrel
        · simpa [hu] using h.typed u
    | exec =>
        rcases step_exec_iff.1 hs with ⟨f, rest, o, hc, hr, rfl⟩
        have ht := h.typed σ.kernel.running
        rw [hc] at ht
        by_cases hu : u = σ.kernel.running
        · subst hu
          have ht' := runFrame_typed (fun l hl => (h.owned l).held _ hl) ht hr
          simpa [System.after] using ht'
        · have hheld : (σ.after f rest o).held u = σ.held u := by simp [System.after, hu]
          rw [hheld]
          rcases code_after h.settled.live rest hr u with
            ⟨he, -⟩ | ⟨-, prog, -, -, he, hprog⟩ | ⟨-, he⟩
          · exact absurd he hu
          · have hcode : (σ.after f rest o).code u = prog := he
            rw [hcode]
            rcases hprog with rfl | ⟨rfl, -⟩
            · trivial
            · exact ⟨trivial, trivial⟩
          · have hcode : (σ.after f rest o).code u = σ.code u := he
            rw [hcode]
            exact h.typed u
    | tick =>
        rcases step_tick_iff.1 hs with ⟨-, k, -, rfl⟩
        exact h.typed u
    | preempt t =>
        rcases step_preempt_iff.1 hs with ⟨-, rfl⟩
        exact h.typed u
  · intro l
    cases a with
    | call o =>
        rcases step_call_iff.1 hs with ⟨hc, rfl⟩
        refine (h.owned l).congr rfl rfl rfl fun t => ?_
        by_cases ht : t = σ.kernel.running
        · subst ht
          exact Or.inr ⟨hc, by simpa using opFrames_holds cfg.grain σ.kernel.running o⟩
        · exact Or.inl (by simp [ht])
    | exec =>
        rcases step_exec_iff.1 hs with ⟨f, rest, o, hc, hr, rfl⟩
        have ht := h.typed σ.kernel.running
        rw [hc] at ht
        exact (h.owned l).exec h.settled ht hc hr
    | tick =>
        rcases step_tick_iff.1 hs with ⟨-, k, ht, rfl⟩
        rcases timerInterrupt_footprint ht with ⟨_, _, _, _, _, _, _, _, rfl⟩
        exact (h.owned l).congr rfl rfl rfl fun t => Or.inl rfl
    | preempt t =>
        rcases step_preempt_iff.1 hs with ⟨-, rfl⟩
        exact (h.owned l).congr rfl rfl rfl fun t => Or.inl rfl

theorem boot_ownership (init : Nat → Fin unsignedSize) (idle : ThreadPtr) :
    Ownership (boot init idle) := by
  have htok : ∀ l t, (boot init idle).tokens l t = 0 := by
    intro l t
    simp only [System.tokens, Project2.tokens, boot]
    split <;> simp [Frame.holds]
  refine ⟨boot_settled init idle, fun t => ?_, fun l => ⟨Or.inl ⟨rfl, htok l⟩, ?_, ?_, ?_⟩⟩
  · simp only [boot]
    split
    · exact ⟨trivial, trivial⟩
    · trivial
  · intro t ht
    cases ht
  · intro t ht
    cases ht
  · intro t _ ht
    cases ht

theorem ownership_of_reach {init : Nat → Fin unsignedSize} {idle : ThreadPtr}
    (h : Reach (Project2.step cfg) LockUse (boot init idle) σ) : Ownership σ ∧ NoBare σ := by
  refine @Reach.invariant _ _ _ _ _ _ (fun σ => Ownership σ ∧ NoBare σ)
    ⟨boot_ownership init idle, boot_noBare init idle⟩ ?_ h
  rintro σ a σ' ⟨how, hb⟩ ⟨ha, hrel⟩ hs
  exact ⟨how.step (hb.unblockOk a) hrel hs, hb.step how.settled ha hs⟩

/-- The thread is between the decrement of the lock's semaphore in its acquire and the increment
in its release. -/
def System.Owns (σ : System) (l : LockPtr) (t : ThreadPtr) : Prop :=
  l ∈ σ.held t ∨ .stmt (.setHolder l) ∈ σ.code t ∨ .semaUp (.ofLock l) ∈ σ.code t

theorem owns_iff {t : ThreadPtr} : σ.Owns l t ↔ 0 < σ.tokens l t := by
  constructor
  · rintro (h | h | h)
    · exact mem_held_tokens h
    · exact holds_tokens h (by simp [Frame.holds])
    · exact holds_tokens h (by simp [Frame.holds])
  · intro h
    unfold System.tokens Project2.tokens at h
    by_cases hl : l ∈ σ.held t
    · exact Or.inl hl
    · have hc : 0 < (σ.code t).countP (Frame.holds l) := by
        rw [List.count_eq_zero_of_not_mem hl] at h
        omega
      obtain ⟨f, hf, hh⟩ := List.countP_pos_iff.1 hc
      unfold Frame.holds at hh
      split at hh
      · rw [of_decide_eq_true hh] at hf
        exact Or.inr (Or.inl hf)
      · rw [of_decide_eq_true hh] at hf
        exact Or.inr (Or.inr hf)
      · cases hh

/-- Locks give mutual exclusion: the semaphore is down exactly while some thread is between its
decrement and its increment, at most one thread is, the holder is nobody or that thread, it is
that thread while the program holds the lock, and `lock_release` passes its assertion. -/
theorem mutual_exclusion {init : Nat → Fin unsignedSize} {idle : ThreadPtr}
    (h : Reach (Project2.step cfg) LockUse (boot init idle) σ) (l : LockPtr) :
    (σ.kernel.value (.ofLock l) ≤ 1 ∧
        (σ.kernel.value (.ofLock l) = 0 ↔ ∃ t, σ.Owns l t)) ∧
      (∀ t u, σ.Owns l t → σ.Owns l u → t = u) ∧
      (∀ t, σ.kernel.holder l = some t → σ.Owns l t) ∧
      (∀ t, l ∈ σ.held t → σ.kernel.holder l = some t) ∧
      ((σ.code σ.kernel.running).head? = some (releaseFrame cfg.grain l) →
        σ.kernel.holder l = some σ.kernel.running ∧
          runFrame cfg σ.kernel (releaseFrame cfg.grain l) ≠ .error .lockNotHeld) := by
  obtain ⟨how, -⟩ := ownership_of_reach h
  have hl := how.owned l
  refine ⟨⟨?_, ?_⟩, ?_, fun t ht => owns_iff.2 (hl.holder t ht), hl.held, fun hc => ?_⟩
  · rcases hl.one with ⟨hv, -⟩ | ⟨hv, -⟩ <;> omega
  · simp only [owns_iff]
    constructor
    · intro hv
      rcases hl.one with ⟨hv', -⟩ | ⟨-, t, ht, -⟩
      · omega
      · exact ⟨t, by omega⟩
    · rintro ⟨t, ht⟩
      exact (hl.unique ht).1
  · intro t u ht hu
    rw [owns_iff] at ht hu
    by_contra hne
    have := (hl.unique hu).2.2 t hne
    omega
  · -- the code is typed, so the running thread holds the lock it is about to release
    have hmem : l ∈ σ.held σ.kernel.running := by
      have ht := how.typed σ.kernel.running
      cases hcode : σ.code σ.kernel.running with
      | nil =>
          simp [hcode] at hc
      | cons f rest =>
          rw [hcode] at ht hc
          cases hg : cfg.grain <;> rw [hg] at hc <;> cases hc <;> exact ht.1
    have hh := hl.held _ hmem
    refine ⟨hh, fun hr => ?_⟩
    cases hg : cfg.grain with
    | calls =>
        rw [hg] at hr
        rcases bind_eq_error.1 hr with hr | ⟨_, -, hr⟩
        · rcases bind_eq_error.1 hr with hr | ⟨_, -, hr⟩
          · exact (assert_eq_error.1 hr).1 hh
          · rcases semaUp_fault hr with ⟨he, -⟩ | he <;> cases he
        · cases hr
    | statements =>
        rw [hg] at hr
        rcases bind_eq_error.1 hr with hr | ⟨_, -, hr⟩
        · exact (assert_eq_error.1 hr).1 hh
        · cases hr

/-- Two threads contend for lock 0, a statement at a time: the initial thread has taken the
semaphore and is switched out before it has become the holder, and thread 2 queues up. -/
def contendActs : List Act :=
  List.replicate 19 .exec ++ [.call (.threadCreate 2 31)] ++ List.replicate 15 .exec ++
    [.call (.lockAcquire 0), .exec, .exec, .exec, .preempt 2, .call (.lockAcquire 0), .exec, .exec,
      .exec]

def contendSystem : System :=
  (runAll (Project2.step .statements) contendActs (boot allZero 1)).get (by decide +kernel)

theorem mutual_exclusion_contend :
    contendSystem.kernel.holder (.lock 0) = none ∧
      contendSystem.kernel.waiters (.ofLock (.lock 0)) = [2] ∧
      ∃ t, contendSystem.Owns (.lock 0) t := by
  have hrun : Exec (Project2.step .statements) (boot allZero 1)
      (trace (Project2.step .statements) contendActs (boot allZero 1)) contendSystem :=
    Exec.of_runAll (Option.some_get _).symm
  have h := mutual_exclusion (hrun.reach (by decide +kernel)) (.lock 0)
  exact ⟨by decide +kernel, by decide +kernel, h.1.2.1 (by decide +kernel)⟩

end Runs

end Project2
end Pintos
