import Pintos.Project2.Ownership

/-!
# Calls — runs in which a lock function is one step

At `Grain.calls` a lock function runs up to its block or return in one frame, so between steps the
semaphore of a lock is up exactly while the lock has no holder.  With threads that release what they
acquired and hold no lock when they exit, the holder is the living thread whose program holds the
lock.
-/

namespace Pintos
namespace Project2

open Lib Function

/-! ## Frames of the coarse granularity -/

/-- Frames that occur when a lock function is one frame.  Only `lock_acquire` goes on after the
`sema_down` of its lock's semaphore. -/
def Frame.isCoarse : Frame → Bool
  | .acquireEntry _ | .tryEntry _ | .tryDown _ | .releaseEntry _ | .stmt _ => false
  | .semaTryDown (.ofLock _) | .semaUp (.ofLock _) | .down (.ofLock _) _ => false
  | .downLoop (.ofLock l) after => after = .acquired l
  | .down _ after | .downLoop _ after => after = .ret
  | _ => true

variable {order : Kernel → ThreadPtr → ThreadPtr → Bool}

theorem down_coarse {s : SemaPtr} {after : AfterDown}
    (hf : (Frame.down s after).isCoarse = true) : after = .ret ∧ ∀ l, s ≠ .ofLock l := by
  cases s with
  | ofLock l => cases hf
  | sema n | idleStarted | waiter t => simpa [Frame.isCoarse] using hf

theorem downLoop_coarse {s : SemaPtr} {after : AfterDown}
    (hf : (Frame.downLoop s after).isCoarse = true) :
    (after = .ret ∧ ∀ l, s ≠ .ofLock l) ∨ ∃ l, s = .ofLock l ∧ after = .acquired l := by
  cases s with
  | ofLock l => exact Or.inr ⟨l, rfl, by simpa [Frame.isCoarse] using hf⟩
  | sema n | idleStarted | waiter t => exact Or.inl (by simpa [Frame.isCoarse] using hf)

theorem downOutcome_coarse {s : SemaPtr} {after : AfterDown} {k : Kernel} {got : Bool}
    (hf : (Frame.downLoop s after).isCoarse = true) :
    ∀ g ∈ (downOutcome s after k got).push, g.isCoarse = true := by
  cases got with
  | false =>
      simpa [downOutcome, Kernel.andThen] using hf
  | true =>
      rcases downLoop_coarse hf with ⟨rfl, -⟩ | ⟨l, -, rfl⟩ <;>
        simp [downOutcome, AfterDown.finish, Kernel.done]

theorem runFrame_coarse {k : Kernel} {f : Frame} {o : Outcome} (hf : f.isCoarse = true)
    (hr : runFrame ⟨.calls, order⟩ k f = .ok o) : ∀ g ∈ o.push, g.isCoarse = true := by
  cases f with
  | down s after =>
      rcases bind_eq_ok.1 hr with ⟨⟨k₁, got⟩, -, hr⟩
      cases hr
      refine downOutcome_coarse ?_
      cases s with
      | ofLock l => cases hf
      | sema n | idleStarted | waiter t => exact hf
  | downLoop s after =>
      rcases bind_eq_ok.1 hr with ⟨⟨k₁, got⟩, -, hr⟩
      cases hr
      exact downOutcome_coarse hf
  | lockAcquire l =>
      rcases bind_eq_ok.1 hr with ⟨⟨k₁, got⟩, -, hr⟩
      cases got <;> cases hr <;> simp [Kernel.andThen, Frame.isCoarse]
  | condBroadcast c l =>
      simp only [runFrame] at hr
      split at hr
      · cases hr
        simp [Kernel.done]
      · rcases bind_eq_ok.1 hr with ⟨k₁, -, hr⟩
        cases hr
        simp [Kernel.andThen, Frame.isCoarse]
  | acquireEntry l | tryEntry l | tryDown l | releaseEntry l | stmt st => cases hf
  | semaTryDown s | condReturn c l | blockReturn | sleepReturn | timerSleep n | setIdle
  | takeTid t p =>
      cases hr
      simp [Kernel.done, Kernel.andThen, Frame.isCoarse, releaseFrame]
  | threadStart t =>
      rcases bind_eq_ok.1 hr with ⟨_, -, hr⟩
      cases hr
      simp [Kernel.andThen, Frame.isCoarse, acquireFrame]
  | _ =>
      rcases bind_eq_ok.1 hr with ⟨_, -, hr⟩
      cases hr
      simp [Kernel.done, Kernel.andThen, Frame.isCoarse, acquireFrame]

theorem opFrames_coarse (cur : ThreadPtr) (o : Op) :
    ∀ f ∈ o.frames .calls cur, f.isCoarse = true := by
  cases o <;> simp [Op.frames, acquireFrame, tryFrame, releaseFrame, Frame.isCoarse]

/-! ## Code and semaphores of the locks -/

/-- All code is of the coarse granularity. -/
def CoarseCode (σ : System) : Prop :=
  ∀ t, ∀ f ∈ σ.code t, f.isCoarse = true

/-- The semaphore of a lock is up exactly while the lock has no holder. -/
def LockValues (k : Kernel) : Prop :=
  ∀ l, k.value (.ofLock l) = if k.holder l = none then 1 else 0

/-- What holds in every run of calls. -/
structure Called (σ : System) : Prop where
  settled : Settled σ
  coarse : CoarseCode σ
  values : LockValues σ.kernel

section Called

variable {k k' : Kernel} {f : Frame} {o : Outcome} {l : LockPtr} {σ σ' : System}

theorem LockValues.eq_zero (h : LockValues k) :
    k.value (.ofLock l) = 0 ↔ ∃ t, k.holder l = some t := by
  rw [h l]
  cases k.holder l <;> simp

/-- The lock's semaphore is down and somebody holds the lock, or it is up and nobody does. -/
theorem LockValues.cases (h : LockValues k) (l : LockPtr) :
    (k.value (.ofLock l) = 0 ∧ ∃ u, k.holder l = some u) ∨
      (k.value (.ofLock l) ≠ 0 ∧ k.holder l = none) := by
  rw [h l]
  cases k.holder l <;> simp

theorem LockValues.same (h : LockValues k) (hh : k'.holder = k.holder)
    (hv : ∀ l, k'.value (.ofLock l) = k.value (.ofLock l)) : LockValues k' := by
  intro l
  rw [hv, hh]
  exact h l

/-- A free lock is taken. -/
theorem LockValues.take (h : LockValues k) (h0 : k.value (.ofLock l) ≠ 0) {t : ThreadPtr}
    (hh : k'.holder = update k.holder l (some t))
    (hv : k'.value = (k.lowered (.ofLock l)).value) : LockValues k' := by
  intro m
  rw [hh, hv]
  by_cases hm : m = l
  · subst hm
    have h1 : k.value (.ofLock m) = 1 := by
      have hval := h m
      split at hval
      · exact hval
      · exact absurd hval h0
    simp [Kernel.lowered, h1, unsignedSize]
  · simpa [Kernel.lowered, hm] using h m

/-- A held lock is given up. -/
theorem LockValues.release (h : LockValues k) {t : ThreadPtr} (hl : k.holder l = some t)
    (hh : k'.holder = update k.holder l none) (hv : k'.value = (k.raised (.ofLock l)).value) :
    LockValues k' := by
  intro m
  rw [hh, hv]
  by_cases hm : m = l
  · subst hm
    have h0 := h.eq_zero.2 ⟨t, hl⟩
    simp [Kernel.raised, h0, unsignedSize]
  · simpa [Kernel.raised, hm] using h m

theorem LockValues.exec (h : LockValues k) (hf : f.isCoarse = true)
    (hr : runFrame ⟨.calls, order⟩ k f = .ok o) : LockValues o.kernel := by
  have hun := runFrame_unwritten hr
  have hdoes := runFrame_semaOp hr
  -- a frame that does nothing to the semaphores of locks and does not write `holder`
  have hkeep : .holder ∉ f.writes → (∀ l, f.semaOp ⟨.calls, order⟩ k ≠ .took (.ofLock l)) →
      (∀ l, f.semaOp ⟨.calls, order⟩ k ≠ .upped (.ofLock l)) → LockValues o.kernel := by
    intro hh ht hu
    exact h.same (hun.holder hh) fun l => hdoes.value_same (ht l) (hu l)
  cases f with
  | down s after =>
      rcases down_coarse hf with ⟨rfl, hs⟩
      rcases SemaOp.down_cases k s with hop | hop <;>
        exact hkeep (by simp [Frame.writes, AfterDown.writes]) (by simp [Frame.semaOp, hop, hs])
          (by simp [Frame.semaOp, hop])
  | downLoop s after =>
      rcases downLoop_coarse hf with ⟨rfl, hs⟩ | ⟨l, rfl, rfl⟩
      · rcases SemaOp.down_cases k s with hop | hop <;>
          exact hkeep (by simp [Frame.writes, AfterDown.writes]) (by simp [Frame.semaOp, hop, hs])
            (by simp [Frame.semaOp, hop])
      · rcases bind_eq_ok.1 hr with ⟨⟨k₁, got⟩, hd, hr⟩
        cases hr
        rcases semaDownTurn_eq_ok.1 hd with ⟨-, rfl, hb⟩ | ⟨h0, rfl, rfl⟩
        · rcases threadBlock_footprint hb with ⟨_, _, _, _, rfl⟩
          exact h.same rfl fun _ => rfl
        · exact h.take h0 rfl rfl
  | lockAcquire l =>
      rcases bind_eq_ok.1 hr with ⟨⟨k₁, got⟩, hd, hr⟩
      rcases lockAcquire_eq_ok.1 hd with ⟨-, -, k₂, k₃, hdon, hturn, rfl⟩
      rcases lockDonate_footprint hdon with ⟨_, _, _, rfl⟩
      rcases semaDownTurn_eq_ok.1 (semaDown_eq_ok.1 hturn).2 with ⟨-, rfl, hb⟩ | ⟨h0, rfl, rfl⟩
      · cases hr
        rcases threadBlock_footprint hb with ⟨_, _, _, _, rfl⟩
        exact h.same rfl fun _ => rfl
      · cases hr
        exact h.take h0 rfl rfl
  | lockTryAcquire l =>
      rcases bind_eq_ok.1 hr with ⟨⟨k₁, success⟩, hd, hr⟩
      cases hr
      rcases lockTryAcquire_eq_ok.1 hd with ⟨-, hsucc, rfl⟩
      by_cases h0 : k.value (.ofLock l) = 0
      · have hfalse : success = false := by simp [hsucc, semaTryDown, h0]
        subst hfalse
        exact h
      · have hdn : semaTryDown k (.ofLock l) = (k.lowered (.ofLock l), true) := by
          simp [semaTryDown, Nat.pos_of_ne_zero h0]
        rw [hdn] at hsucc
        subst hsucc
        simp only [hdn, if_true]
        exact h.take h0 rfl rfl
  | lockRelease l =>
      rcases bind_eq_ok.1 hr with ⟨k₁, hd, hr⟩
      cases hr
      rcases lockRelease_eq_ok.1 hd with ⟨hl, hu⟩
      have hholder : k₁.holder = update k.holder l none := by
        rcases semaUp_footprint hu with ⟨_, _, _, _, _, _, rfl⟩
        rcases released_footprint k l with ⟨_, _, _, he⟩
        rw [he]
      exact h.release hl hholder hdoes.1
  | acquireEntry l | tryEntry l | tryDown l | releaseEntry l | stmt st => cases hf
  | semaTryDown s =>
      have hs : ∀ l, s ≠ .ofLock l := by
        rintro l rfl
        cases hf
      rcases SemaOp.tryDown_cases k s with hop | hop <;>
        exact hkeep (by simp [Frame.writes]) (by simp [Frame.semaOp, hop, hs])
          (by simp [Frame.semaOp, hop])
  | semaUp s =>
      have hs : ∀ l, s ≠ .ofLock l := by
        rintro l rfl
        cases hf
      exact hkeep (by simp [Frame.writes]) (by simp [Frame.semaOp]) (by simp [Frame.semaOp, hs])
  | condSignal c l | condBroadcast c l =>
      rcases SemaOp.signal_cases order k c with hop | ⟨w, hop⟩ <;>
        exact hkeep (by simp [Frame.writes]) (by simp [Frame.semaOp, hop])
          (by simp [Frame.semaOp, hop])
  | _ => exact hkeep (by simp [Frame.writes]) (by simp [Frame.semaOp]) (by simp [Frame.semaOp])

theorem CoarseCode.exec {rest : List Frame} (h : CoarseCode σ) (hlive : Live σ.kernel σ.code)
    (hc : σ.code σ.kernel.running = f :: rest)
    (hr : runFrame ⟨.calls, order⟩ σ.kernel f = .ok o) : CoarseCode (σ.after f rest o) := by
  intro u g hg
  rcases code_after hlive rest hr u with ⟨-, he⟩ | ⟨-, prog, -, -, he, hprog⟩ | ⟨-, he⟩
  · have hg' : g ∈ o.push ++ rest := he ▸ hg
    rcases List.mem_append.1 hg' with hg' | hg'
    · exact runFrame_coarse (h σ.kernel.running f (by simp [hc])) hr g hg'
    · exact h σ.kernel.running g (by simp [hc, hg'])
  · have hg' : g ∈ prog := he ▸ hg
    rcases hprog with rfl | ⟨rfl, -⟩
    · cases hg'
    · rw [List.mem_singleton.1 hg']
      rfl
  · exact h u g (he ▸ hg)

theorem Called.step {a : Act} (h : Called σ) (hu : UnblockOk σ a)
    (hs : Project2.step ⟨.calls, order⟩ a σ = some σ') : Called σ' := by
  have hset := h.settled.step hu hs
  cases a with
  | call op =>
      rcases step_call_iff.1 hs with ⟨hc, rfl⟩
      refine ⟨hset, fun u f hf => ?_, h.values⟩
      by_cases hu : u = σ.kernel.running
      · subst hu
        exact opFrames_coarse σ.kernel.running op f (by simpa using hf)
      · exact h.coarse u f (by simpa [hu] using hf)
  | exec =>
      rcases step_exec_iff.1 hs with ⟨f, rest, o, hc, hr, rfl⟩
      have hf := h.coarse σ.kernel.running f (by simp [hc])
      exact ⟨hset, h.coarse.exec h.settled.live hc hr, h.values.exec hf hr⟩
  | tick =>
      rcases step_tick_iff.1 hs with ⟨-, k, ht, rfl⟩
      rcases timerInterrupt_footprint ht with ⟨_, _, _, _, _, _, _, _, rfl⟩
      exact ⟨hset, h.coarse, h.values⟩
  | preempt t =>
      rcases step_preempt_iff.1 hs with ⟨-, rfl⟩
      exact ⟨hset, h.coarse, h.values⟩

theorem boot_called (init : Nat → Fin unsignedSize) (idle : ThreadPtr) :
    Called (boot init idle) := by
  refine ⟨boot_settled init idle, fun t f hf => ?_, fun _ => rfl⟩
  simp only [boot] at hf
  split at hf
  · rw [List.mem_singleton.1 hf]
    rfl
  · cases hf

end Called

/-! ## Holders -/

/-- What holds besides when threads release what they acquired and exit without a lock. -/
structure Coarse (σ : System) : Prop where
  called : Called σ
  own : Ownership σ
  exit : ∀ t, .threadExit ∈ σ.code t → σ.held t = []
  alive : ∀ l t, σ.kernel.holder l = some t → t ∈ σ.kernel.allList

/-- A thread holds no lock when it exits. -/
def ExitOk (σ : System) (a : Act) : Prop :=
  a = .call .threadExit → σ.held σ.kernel.running = []

instance instDecidableExitOk (σ : System) (a : Act) : Decidable (ExitOk σ a) :=
  inferInstanceAs (Decidable (_ → _))

variable {σ σ' : System} {l : LockPtr} {t : ThreadPtr}

theorem Coarse.coarse (h : Coarse σ) : CoarseCode σ := h.called.coarse

theorem Coarse.settled (h : Coarse σ) : Settled σ := h.called.settled

theorem Coarse.live (h : Coarse σ) : Live σ.kernel σ.code := h.called.settled.live

theorem CoarseCode.tokens_eq (h : CoarseCode σ) (l : LockPtr) (t : ThreadPtr) :
    σ.tokens l t = (σ.held t).count l := by
  have h0 : (σ.code t).countP (Frame.holds l) = 0 := by
    rw [List.countP_eq_zero]
    intro f hf
    have hc := h t f hf
    cases f with
    | semaUp s =>
        cases s with
        | ofLock l' => cases hc
        | sema n | idleStarted | waiter u => simp [Frame.holds]
    | stmt st => cases hc
    | _ => simp [Frame.holds]
  simp [System.tokens, tokens, h0]

/-- The holder of a lock is the thread whose program holds it. -/
theorem Ownership.holder_iff (h : Ownership σ) (hc : CoarseCode σ) :
    σ.kernel.holder l = some t ↔ l ∈ σ.held t := by
  constructor
  · intro hh
    have hp := (h.owned l).holder t hh
    rw [hc.tokens_eq, List.count_pos_iff] at hp
    exact hp
  · exact (h.owned l).held t

theorem Coarse.holder_iff (h : Coarse σ) : σ.kernel.holder l = some t ↔ l ∈ σ.held t :=
  h.own.holder_iff h.coarse

/-! ## Every step keeps it -/

theorem opFrames_exit (g : Grain) (cur : ThreadPtr) (o : Op)
    (h : .threadExit ∈ o.frames g cur) : o = .threadExit := by
  cases o with
  | threadExit => rfl
  | _ => cases g <;> simp [Op.frames, acquireFrame, tryFrame, releaseFrame] at h

/-- No frame goes on with `thread_exit`. -/
theorem Settled.exit_after {cfg : Config} {f : Frame} {rest : List Frame} {o : Outcome}
    (h : Settled σ) (hc : σ.code σ.kernel.running = f :: rest)
    (hr : runFrame cfg σ.kernel f = .ok o) (hu : .threadExit ∈ (σ.after f rest o).code t) :
    t ≠ σ.kernel.running ∧ .threadExit ∈ σ.code t := by
  have hp := runFrame_pushed hr (h.shape.owned _ f (by simp [hc]))
  rcases code_after h.live rest hr t with ⟨ht, he⟩ | ⟨-, prog, -, -, he, hprog⟩ | ⟨ht, he⟩
  · have hmem : .threadExit ∈ o.push ++ rest := he ▸ hu
    rcases List.mem_append.1 hmem with hm | hm
    · have hn := hp.alone _ hm rfl
      obtain ⟨hi, -⟩ := eq_of_mem_idleNext (hn ▸ hm)
      have hm' : .threadExit ∈ f.idleNext := hn ▸ hm
      cases f with
      | setIdle | idleUp | idleLoop => simp [Frame.idleNext] at hm'
      | _ => cases hm'
    · have halone := h.shape.alone σ.kernel.running .threadExit (by simp [hc, hm]) rfl
      rw [hc] at halone
      cases halone
      cases hm
  · have hmem : .threadExit ∈ prog := he ▸ hu
    rcases hprog with rfl | ⟨rfl, -⟩ <;> simp at hmem
  · exact ⟨ht, he ▸ hu⟩

theorem Coarse.step {a : Act} (h : Coarse σ) (hu : UnblockOk σ a) (hrel : ReleaseOk σ a)
    (hx : ExitOk σ a) (hs : Project2.step ⟨.calls, order⟩ a σ = some σ') : Coarse σ' := by
  have hcalled := h.called.step hu hs
  have hown := h.own.step hu hrel hs
  cases a with
  | call o =>
      rcases step_call_iff.1 hs with ⟨hc, rfl⟩
      refine ⟨hcalled, hown, fun u hm => ?_, h.alive⟩
      by_cases hu : u = σ.kernel.running
      · subst hu
        have ho := opFrames_exit .calls σ.kernel.running o (by simpa using hm)
        exact hx (by rw [ho])
      · exact h.exit u (by simpa [hu] using hm)
  | exec =>
      rcases step_exec_iff.1 hs with ⟨f, rest, o, hc, hr, rfl⟩
      refine ⟨hcalled, hown, fun u hm => ?_, fun l u hh => ?_⟩
      · obtain ⟨hne, hold⟩ := h.settled.exit_after hc hr hm
        have hheld : (σ.after f rest o).held u = σ.held u := by simp [System.after, hne]
        rw [hheld]
        exact h.exit u hold
      · -- the holder was alive, or it is the running thread, which does not exit
        have hl := (hown.holder_iff hcalled.coarse).1 hh
        by_cases hu : u = σ.kernel.running
        · refine runFrame_allList hr (hu ▸ h.live.running_mem) fun hf => ?_
          subst hf
          have hheld : (σ.after .threadExit rest o).held u = [] := by
            rcases bind_eq_ok.1 hr with ⟨k₁, -, hr⟩
            cases hr
            have hexit := h.exit σ.kernel.running (by simp [hc])
            simp [System.after, hu, hexit, Kernel.done, HeldChange.apply]
          simp [hheld] at hl
        · have hheld : (σ.after f rest o).held u = σ.held u := by simp [System.after, hu]
          rw [hheld] at hl
          exact runFrame_allList hr (h.alive l u (h.holder_iff.2 hl)) fun _ => hu
  | tick =>
      rcases step_tick_iff.1 hs with ⟨-, k, ht, rfl⟩
      rcases timerInterrupt_footprint ht with ⟨_, _, _, _, _, _, _, _, rfl⟩
      exact ⟨hcalled, hown, h.exit, h.alive⟩
  | preempt t =>
      rcases step_preempt_iff.1 hs with ⟨-, rfl⟩
      exact ⟨hcalled, hown, h.exit, h.alive⟩

theorem boot_coarse (init : Nat → Fin unsignedSize) (idle : ThreadPtr) :
    Coarse (boot init idle) := by
  refine ⟨boot_called init idle, boot_ownership init idle, fun _ _ => rfl, ?_⟩
  intro l t ht
  cases ht

/-- The runs of programs that call no bare operation, release only what they acquired and hold no
lock when they exit. -/
def CallUse (σ : System) (a : Act) : Prop :=
  NoBareCall σ a ∧ ReleaseOk σ a ∧ ExitOk σ a

instance instDecidableCallUse (σ : System) (a : Act) : Decidable (CallUse σ a) :=
  inferInstanceAs (Decidable (_ ∧ _))

theorem Coarse.step_use {a : Act} (h : Coarse σ) (hb : NoBare σ) (hu : CallUse σ a)
    (hs : Project2.step ⟨.calls, order⟩ a σ = some σ') : Coarse σ' ∧ NoBare σ' :=
  ⟨h.step (hb.unblockOk a) hu.2.1 hu.2.2 hs, hb.step h.settled hu.1 hs⟩

end Project2
end Pintos
