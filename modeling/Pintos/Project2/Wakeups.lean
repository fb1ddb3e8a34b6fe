import Pintos.Project2.CondVars

/-!
# Wakeups — what callers of `cond_wait`, `cond_signal` and `cond_broadcast` can rely on

* `SignalLaw`: a signal of a condition with waiters gets through and releases one of them;
* `ReleasedLaw`: a released call goes on when its thread comes to its `sema_down`;
* `BroadcastLaw`: a broadcast comes to its end and releases those who were queued at its start;
* `ReturnLaw`: a call returns with the lock held.
-/

namespace Pintos
namespace Project2

open Lib Function

section Steps

variable {lockOf : CondPtr → Nat} {cfg : Config} {σ σ' : System} {p : ThreadPtr → Phase CondPtr}
  {a : Act}

/-! ## What follows in every state -/

theorem Settled.not_blocked_of_head {t : ThreadPtr} {f : Frame} (h : Settled σ)
    (hf : (σ.code t).head? = some f) (hret : f.isReturn = false) (hidle : f.isIdle = false) :
    σ.kernel.status t ≠ .blocked := by
  intro hb
  cases (h.live.placed t).blocked hb with
  | waiting s a hd _ | sleeping hd _ | bare hd =>
      rw [hf] at hd
      cases hd
      cases hret
  | idle hi =>
      rcases h.live.idle_head hi with hd | hd
      · rw [hf] at hd
        cases hd
        cases hidle
      · rw [hf] at hd
        cases hd
        cases hidle
  | embryo u hu =>
      refine h.live.not_embryo_of_head hf ?_ u hu
      rintro rfl
      cases hidle

theorem CondInv.released_not_blocked {t : ThreadPtr} {c : CondPtr} (h : CondInv lockOf cfg σ p)
    (ht : p t = .released c) : σ.kernel.status t ≠ .blocked := by
  obtain ⟨f, hf, hcase⟩ := (h.code t).head_of_wait (Or.inr ht)
  rcases hcase with hrel | rfl | rfl
  · have hkind : f.isReturn = false ∧ f.isIdle = false := by
      cases f <;> first | exact ⟨rfl, rfl⟩ | cases hrel
    exact h.own.settled.not_blocked_of_head hf hkind.1 hkind.2
  · exact h.own.settled.not_blocked_of_head hf rfl rfl
  · intro hb
    cases (h.own.settled.live.placed t).blocked hb with
    | waiting s a hd hw =>
        -- its own semaphore has no waiters any more
        rw [hf] at hd
        cases hd
        rw [h.waits.awake t (by rw [ht]; rfl)] at hw
        cases hw
    | sleeping hd _ | bare hd =>
        rw [hf] at hd
        cases hd
    | idle hi =>
        rcases h.own.settled.live.idle_head hi with hd | hd <;> rw [hf] at hd <;> cases hd
    | embryo u hu => exact h.own.settled.live.not_embryo_of_head hf (by simp) u hu

theorem CondInv.released_awake {t : ThreadPtr} {c : CondPtr} (h : CondInv lockOf cfg σ p)
    (ht : p t = .released c) : σ.kernel.Awake t := by
  have hlive := h.own.settled.live
  obtain ⟨f, hf, hcase⟩ := (h.code t).head_of_wait (Or.inr ht)
  have hidle : f.isIdle = false := by
    rcases hcase with hrel | rfl | rfl
    · cases f <;> first | rfl | cases hrel
    · rfl
    · rfl
  refine hlive.awake (h.released_not_blocked ht) (fun hd => ?_) fun hi => ?_
  · rw [(hlive.placed t).dead_code hd] at hf
    cases hf
  · rcases hlive.idle_head hi with hd | hd
    · rw [hf] at hd
      cases hd
      cases hidle
    · rw [hf] at hd
      cases hd
      cases hidle

/-- The lock that comes with a signal is held by the running thread. -/
theorem CondInv.lock_held {t : ThreadPtr} {f : Frame} {x : CondPtr × LockPtr}
    (h : CondInv lockOf cfg σ p) (hf : f ∈ σ.code t) (hx : x ∈ f.condLock) :
    σ.kernel.holder (.lock (lockOf x.1)) = some t := by
  obtain ⟨-, hl, hheld⟩ := h.locked t f hf x hx
  rw [← hl]
  exact (h.own.owned x.2).held t hheld

/-- The signal of `c` releases the thread `t`. -/
structure Releases (cfg : Config) (σ σ' : System) (c : CondPtr) (t : ThreadPtr) : Prop where
  event : σ.condEvent cfg .exec = some (.wake t c)
  removed : (σ.kernel.condWaiters c).Perm (t :: σ'.kernel.condWaiters c)
  elsewhere : ∀ c', c' ≠ c → σ'.kernel.condWaiters c' = σ.kernel.condWaiters c'
  value : σ'.kernel.value (.waiter t) = 1
  others : ∀ u, u ≠ t → σ'.kernel.value (.waiter u) = σ.kernel.value (.waiter u)
  awake : σ'.kernel.Awake t

theorem CondInv.signal {f : Frame} {c : CondPtr} {l : LockPtr} (h : CondInv lockOf cfg σ p)
    (hc : σ.code σ.kernel.running = [f]) (hf : f = .condSignal c l ∨ f = .condBroadcast c l)
    (hne : σ.kernel.condWaiters c ≠ []) :
    ∃ t σ', Project2.step cfg .exec σ = some σ' ∧ Releases cfg σ σ' c t := by
  have hset := h.own.settled
  obtain ⟨w, rest, hs⟩ := @exists_sort_eq_cons _ (cfg.order σ.kernel) _ hne
  have hmem : f ∈ σ.code σ.kernel.running := by
    rw [hc]
    exact List.mem_singleton_self f
  have hx : (c, l) ∈ f.condLock := by
    rcases hf with rfl | rfl <;> rfl
  have hl : σ.kernel.holder l = some σ.kernel.running := by
    have hl : l = .lock (lockOf c) := (h.locked _ f hmem _ hx).2.1
    rw [hl]
    exact h.lock_held hmem hx
  -- the call of `sema_up` gets through
  obtain ⟨k', hu⟩ := (@semaUp_ok_iff
    { σ.kernel with condWaiters := update σ.kernel.condWaiters c rest } (.waiter w)
    fun t ht => (hset.live.wait ht).1).2 fun hi => by
      rw [show ({ σ.kernel with
        condWaiters := update σ.kernel.condWaiters c rest } : Kernel).intrContext = false from
          hset.interrupts] at hi
      cases hi
  have hsignal : condSignal cfg.order σ.kernel c l = .ok k' :=
    condSignal_eq_ok.2 ⟨hset.interrupts, hl, Or.inr ⟨w, rest, hs, hu⟩⟩
  obtain ⟨o, hr, hk⟩ : ∃ o, runFrame cfg σ.kernel f = .ok o ∧ o.kernel = k' := by
    rcases hf with rfl | rfl
    · exact ⟨k'.done, bind_eq_ok.2 ⟨k', hsignal, rfl⟩, rfl⟩
    · refine ⟨k'.andThen [.condBroadcast c l], ?_, rfl⟩
      simp only [runFrame, if_neg hne]
      exact bind_eq_ok.2 ⟨k', hsignal, rfl⟩
  have hstep : Project2.step cfg .exec σ = some (σ.after f [] o) :=
    step_exec_iff.2 ⟨f, [], o, hc, hr, rfl⟩
  have hev : f.condEvent cfg σ.kernel = some (.wake w c) := by
    rcases hf with rfl | rfl <;> simp [Frame.condEvent, hs]
  have hunblock : UnblockOk σ .exec := by
    intro _ t ht
    rw [hc] at ht
    rcases hf with rfl | rfl <;> cases ht
  obtain ⟨p', hp', hinv⟩ := h.exec hc hr (h.own.step hunblock (by rintro l ⟨⟩) hstep)
  rw [hev] at hp'
  obtain ⟨hpw, rfl⟩ : p w = .waiting c ∧ update p w (.released c) = p' := by
    simpa [afterEvent, MonitorEvent.apply] using hp'
  have hcond : o.kernel.condWaiters = update σ.kernel.condWaiters c rest := by
    rw [hk]
    rcases semaUp_footprint hu with ⟨_, _, _, _, _, _, rfl⟩
    rfl
  have hcond' : (σ.after f [] o).kernel.condWaiters = update σ.kernel.condWaiters c rest := hcond
  refine ⟨w, σ.after f [] o, hstep, ?_, ?_, fun c' hc' => ?_, ?_, fun u hu' => ?_, ?_⟩
  · simp only [System.condEvent, hc, hev]
  · rw [hcond', update_self]
    exact perm_of_sort_eq_cons hs
  · rw [hcond', update_of_ne hc']
  · rw [hinv.waits.value, update_self]
    rfl
  · rw [hinv.waits.value, h.waits.value, update_of_ne hu']
  · exact hinv.released_awake (update_self _ _ _)

/-- A released thread does not block on its semaphore. -/
theorem CondInv.goes_on {f : Frame} {c : CondPtr} {rest : List Frame} (h : CondInv lockOf cfg σ p)
    (hp : p σ.kernel.running = .released c) (hc : σ.code σ.kernel.running = f :: rest)
    (hf : f = .down (.waiter σ.kernel.running) .ret ∨
      f = .downLoop (.waiter σ.kernel.running) .ret) :
    ∃ σ', Project2.step cfg .exec σ = some σ' ∧
      σ.condEvent cfg .exec = some (.goOn σ.kernel.running) := by
  have h1 : σ.kernel.value (.waiter σ.kernel.running) ≠ 0 := by
    rw [h.waits.value, hp]
    exact Nat.one_ne_zero
  have hturn : semaDownTurn σ.kernel (.waiter σ.kernel.running) =
      .ok (σ.kernel.lowered (.waiter σ.kernel.running), true) :=
    semaDownTurn_eq_ok.2 (Or.inr ⟨h1, rfl, rfl⟩)
  have hev : f.condEvent cfg σ.kernel = some (.goOn σ.kernel.running) := by
    rcases hf with rfl | rfl <;> simp [Frame.condEvent, h1]
  obtain ⟨o, hr⟩ : ∃ o, runFrame cfg σ.kernel f = .ok o := by
    rcases hf with rfl | rfl
    · exact ⟨_, bind_eq_ok.2 ⟨_, semaDown_eq_ok.2 ⟨h.own.settled.interrupts, hturn⟩, rfl⟩⟩
    · exact ⟨_, bind_eq_ok.2 ⟨_, hturn, rfl⟩⟩
  exact ⟨_, step_exec_iff.2 ⟨f, rest, o, hc, hr, rfl⟩, by simp only [System.condEvent, hc, hev]⟩

/-- Whoever is about to leave `cond_wait` holds the lock. -/
theorem CondInv.returns {c : CondPtr} {l : LockPtr} {rest : List Frame} (h : CondInv lockOf cfg σ p)
    (hc : σ.code σ.kernel.running = .condReturn c l :: rest) :
    p σ.kernel.running = .returning c ∧ l = .lock (lockOf c) ∧
      σ.kernel.holder l = some σ.kernel.running := by
  have htyped := h.own.typed σ.kernel.running
  have hin := h.code σ.kernel.running
  rw [hc] at htyped hin
  have hl := (h.own.owned l).held _ htyped.1
  cases hin.head with
  | other hf _ => cases hf
  | enqueue c' _ hf _ => cases hf
  | down c' _ hf _ => rcases hf with hf | hf <;> cases hf
  | leave c' hp hf _ =>
      cases hf
      exact ⟨hp, rfl, hl⟩

/-! ## Broadcasts -/

/-- Another thread does not come to the waiters of a condition whose lock is held. -/
theorem CondInv.condWaiters_exec {f : Frame} {rest : List Frame} {o : Outcome}
    (h : CondInv lockOf cfg σ p) (hc : σ.code σ.kernel.running = f :: rest)
    (hr : runFrame cfg σ.kernel f = .ok o) (c : CondPtr) :
    (o.kernel.condWaiters c = σ.kernel.condWaiters c ∧
        ∀ w, f.condEvent cfg σ.kernel ≠ some (.wake w c)) ∨
      σ.kernel.holder (.lock (lockOf c)) = some σ.kernel.running := by
  have hin := h.code σ.kernel.running
  rw [hc] at hin
  cases hin.head with
  | other hf _ =>
      rcases @condEvent_cases cfg σ.kernel f hf with
        ⟨c', l, w, ws, hsig, hs, hev⟩ | ⟨hev, -⟩
      · by_cases hcc : c' = c
        · subst hcc
          have hx : (c', l) ∈ f.condLock := by
            rcases hsig with rfl | rfl <;> rfl
          exact Or.inr (h.lock_held (by rw [hc]; exact List.mem_cons_self) hx)
        · obtain ⟨-, hu⟩ := runFrame_signal hsig hr hs
          have hcond : o.kernel.condWaiters = update σ.kernel.condWaiters c' ws := by
            rcases semaUp_footprint hu with ⟨_, _, _, _, _, _, he⟩
            rw [he]
          refine Or.inl ⟨by rw [hcond, update_of_ne (Ne.symm hcc)], fun w' => ?_⟩
          simp [hev, hcc]
      · exact Or.inl ⟨by rw [runFrame_condWaiters hr hf hev], by simp [hev]⟩
  | enqueue c' _ hf _ =>
      subst hf
      obtain ⟨k₁, hd, hr⟩ := bind_eq_ok.1 hr
      cases hr
      obtain ⟨-, hl, rfl⟩ := condEnqueue_eq_ok.1 hd
      by_cases hcc : c' = c
      · subst hcc
        exact Or.inr hl
      · refine Or.inl ⟨?_, by simp [Frame.condEvent]⟩
        simp [Kernel.done, Kernel.enqueued, Ne.symm hcc]
  | down c' _ hf _ =>
      refine Or.inl ⟨?_, fun w => ?_⟩
      · rcases hf with rfl | rfl <;>
          rw [(runFrame_unwritten hr).condWaiters (by simp [Frame.writes, AfterDown.writes])]
      · rcases hf with rfl | rfl <;> simp only [Frame.condEvent] <;> split <;> simp
  | leave c' _ hf _ =>
      subst hf
      cases hr
      exact Or.inl ⟨rfl, by simp [Frame.condEvent]⟩

/-- What a step is to a thread in a broadcast of `c`. -/
inductive BroadcastStep (cfg : Config) (c : CondPtr) (l : LockPtr) (t : ThreadPtr) (σ σ' : System) :
    Act → Prop
  /-- its last turn: nobody is queued any more -/
  | done : σ.kernel.running = t → σ.condEvent cfg .exec = none → σ.kernel.condWaiters c = [] →
      σ'.kernel.condWaiters c = [] → σ'.code t = [] → BroadcastStep cfg c l t σ σ' .exec
  /-- a turn that releases a waiter -/
  | round (w : ThreadPtr) : σ.kernel.running = t → Releases cfg σ σ' c w →
      σ'.code t = [.condBroadcast c l] → BroadcastStep cfg c l t σ σ' .exec
  /-- a step of the others, or a switch -/
  | other {a : Act} : (a = .exec → σ.kernel.running ≠ t) →
      (∀ w, σ.condEvent cfg a ≠ some (.wake w c)) →
      σ'.kernel.condWaiters c = σ.kernel.condWaiters c → σ'.code t = [.condBroadcast c l] →
        BroadcastStep cfg c l t σ σ' a

theorem CondInv.broadcast_step {c : CondPtr} {l : LockPtr} {t : ThreadPtr}
    (h : CondInv lockOf cfg σ p) (ht : σ.code t = [.condBroadcast c l])
    (hs : Project2.step cfg a σ = some σ') : BroadcastStep cfg c l t σ σ' a := by
  have hheld : σ.kernel.holder (.lock (lockOf c)) = some t :=
    @CondInv.lock_held _ _ _ _ t (.condBroadcast c l) (c, l) h (by rw [ht]; simp) rfl
  cases a with
  | call op =>
      obtain ⟨hc, rfl⟩ := step_call_iff.1 hs
      have hne : t ≠ σ.kernel.running := by
        rintro rfl
        rw [hc] at ht
        cases ht
      exact .other (fun e => by cases e) (by simp [System.condEvent]) rfl (by simpa [hne] using ht)
  | exec =>
      by_cases hrun : σ.kernel.running = t
      · subst hrun
        by_cases h0 : σ.kernel.condWaiters c = []
        · obtain ⟨f, rest, o, hc, hr, rfl⟩ := step_exec_iff.1 hs
          rw [ht] at hc
          obtain ⟨rfl, rfl⟩ := List.cons.inj hc
          simp only [runFrame, h0, if_true] at hr
          cases hr
          refine .done rfl ?_ h0 h0 ?_
          · simp [System.condEvent, ht, Frame.condEvent, h0]
          · simp [System.after, Kernel.done]
        · obtain ⟨w, σ₁, hs₁, hrel⟩ := h.signal ht (Or.inr rfl) h0
          rw [hs] at hs₁
          cases hs₁
          refine .round w rfl hrel ?_
          obtain ⟨f, rest, o, hc, hr, rfl⟩ := step_exec_iff.1 hs
          rw [ht] at hc
          obtain ⟨rfl, rfl⟩ := List.cons.inj hc
          simp only [runFrame, if_neg h0] at hr
          obtain ⟨k₁, -, hr⟩ := bind_eq_ok.1 hr
          cases hr
          simp [System.after, Kernel.andThen]
      · obtain ⟨f, rest, o, hc, hr, rfl⟩ := step_exec_iff.1 hs
        rcases h.condWaiters_exec hc hr c with ⟨hcond, hev⟩ | hl
        · refine .other (fun _ => hrun) ?_ hcond ?_
          · simpa only [System.condEvent, hc] using hev
          · rcases code_after h.own.settled.live rest hr t with
              ⟨he, -⟩ | ⟨-, prog, -, hold, -⟩ | ⟨-, he⟩
            · exact absurd he.symm hrun
            · rw [hold] at ht
              cases ht
            · exact he.trans ht
        · -- only one thread holds the lock
          rw [hheld] at hl
          exact absurd (Option.some.inj hl).symm hrun
  | tick =>
      obtain ⟨-, k, htick, rfl⟩ := step_tick_iff.1 hs
      refine .other (fun e => by cases e) (by simp [System.condEvent]) ?_ ht
      rcases timerInterrupt_footprint htick with ⟨_, _, _, _, _, _, _, _, rfl⟩
      rfl
  | preempt u =>
      obtain ⟨-, rfl⟩ := step_preempt_iff.1 hs
      exact .other (fun e => by cases e) (by simp [System.condEvent]) rfl ht

/-- The threads that the signals of a run have released from `c`. -/
def releasedFrom (cfg : Config) (c : CondPtr) (tr : List (System × Act)) : List ThreadPtr :=
  (condEvents cfg tr).filterMap fun
    | .wake t c' => if c' = c then some t else none
    | _ => none

/-- The number of frames that the thread executes in a run. -/
def turns (t : ThreadPtr) (tr : List (System × Act)) : Nat :=
  tr.countP fun e => e.2 = .exec ∧ e.1.kernel.running = t

/-- A thread has been in a broadcast of `c` from `σ₁` on, and the run `tr` has led to `σ`. -/
structure Broadcasts (cfg : Config) (c : CondPtr) (l : LockPtr) (t : ThreadPtr) (σ₁ σ : System)
    (tr : List (System × Act)) : Prop where
  /-- exactly those have been released that were queued and are so no longer -/
  released : (σ₁.kernel.condWaiters c).Perm (releasedFrom cfg c tr ++ σ.kernel.condWaiters c)
  /-- it has made one turn for each of them and can make the next, or it has come to its end -/
  progress :
    (σ.code t = [.condBroadcast c l] ∧ turns t tr = (releasedFrom cfg c tr).length ∧
        σ.kernel.status t ≠ .blocked ∧
        (σ.kernel.running = t → ∃ σ', Project2.step cfg .exec σ = some σ')) ∨
      (σ.code t = [] ∧ σ.kernel.condWaiters c = [] ∧
        turns t tr = (σ₁.kernel.condWaiters c).length + 1)

theorem CondInv.broadcast_turn {c : CondPtr} {l : LockPtr} (h : CondInv lockOf cfg σ p)
    (ht : σ.code σ.kernel.running = [.condBroadcast c l]) :
    ∃ σ', Project2.step cfg .exec σ = some σ' := by
  by_cases h0 : σ.kernel.condWaiters c = []
  · refine ⟨_, step_exec_iff.2 ⟨_, [], σ.kernel.done, ht, ?_, rfl⟩⟩
    simp [runFrame, h0]
  · obtain ⟨w, σ', hs, -⟩ := h.signal ht (Or.inr rfl) h0
    exact ⟨σ', hs⟩

theorem CondInv.broadcast_run {c : CondPtr} {l : LockPtr} {t : ThreadPtr} {σ₁ : System}
    {tr : List (System × Act)} (h : ∃ p, CondInv lockOf cfg σ₁ p)
    (ht : σ₁.code t = [.condBroadcast c l]) (hrun : Exec (Project2.step cfg) σ₁ tr σ)
    (hu : ∀ e ∈ tr, CondUse lockOf e.1 e.2) (hin : ∀ e ∈ tr, e.1.code t ≠ []) :
    (∃ p, CondInv lockOf cfg σ p) ∧
      (σ₁.kernel.condWaiters c).Perm (releasedFrom cfg c tr ++ σ.kernel.condWaiters c) ∧
      ((σ.code t = [.condBroadcast c l] ∧ turns t tr = (releasedFrom cfg c tr).length) ∨
        (σ.code t = [] ∧ σ.kernel.condWaiters c = [] ∧
          turns t tr = (σ₁.kernel.condWaiters c).length + 1)) := by
  induction hrun with
  | nil =>
      exact ⟨h, List.Perm.refl _, Or.inl ⟨ht, rfl⟩⟩
  | @snoc tr σ σ' a _ hs ih =>
      have hua : CondUse lockOf σ a := by
        simpa using hu (σ, a) (List.mem_append_right _ List.mem_cons_self)
      have hina : σ.code t ≠ [] := by
        simpa using hin (σ, a) (List.mem_append_right _ List.mem_cons_self)
      obtain ⟨⟨p, hinv⟩, hperm, hprog⟩ :=
        ih (fun e he => hu e (by simp [he])) fun e he => hin e (by simp [he])
      obtain ⟨p', -, hinv'⟩ := hinv.step hua hs
      rcases hprog with ⟨hcode, hturns⟩ | ⟨hcode, -⟩
      · have hev : releasedFrom cfg c (tr ++ [(σ, a)]) = releasedFrom cfg c tr ++
            releasedFrom cfg c [(σ, a)] := by
          simp [releasedFrom, condEvents]
        have hcount : turns t (tr ++ [(σ, a)]) = turns t tr + turns t [(σ, a)] :=
          List.countP_append
        refine ⟨⟨p', hinv'⟩, ?_⟩
        cases hinv.broadcast_step hcode hs with
        | done hr hn h0 h0' hc' =>
            have hnone : releasedFrom cfg c [(σ, .exec)] = [] := by
              simp [releasedFrom, condEvents, hn]
            rw [h0, List.append_nil] at hperm
            rw [hev, hnone, h0', List.append_nil, List.append_nil]
            refine ⟨hperm, Or.inr ⟨hc', rfl, ?_⟩⟩
            rw [hcount, hturns, ← hperm.length_eq]
            simp [turns, hr]
        | round w hr hrel hc' =>
            have hone : releasedFrom cfg c [(σ, .exec)] = [w] := by
              simp [releasedFrom, condEvents, hrel.event]
            rw [hev, hone, List.append_assoc]
            refine ⟨hperm.trans (hrel.removed.append_left _), Or.inl ⟨hc', ?_⟩⟩
            rw [hcount, hturns, List.length_append]
            simp [turns, hr]
        | other hr hn hcond hc' =>
            have hnone : releasedFrom cfg c [(σ, a)] = [] := by
              cases he : σ.condEvent cfg a with
              | none => simp [releasedFrom, condEvents, he]
              | some e =>
                  cases e with
                  | wake w c' =>
                      have hcc : c' ≠ c := fun e => hn w (by rw [he, e])
                      simp [releasedFrom, condEvents, he, hcc]
                  | enqueue u c' | goOn u | leave u c' => simp [releasedFrom, condEvents, he]
            have hzero : turns t [(σ, a)] = 0 := by
              simpa [turns] using hr
            rw [hev, hnone, hcond, List.append_nil]
            exact ⟨hperm, Or.inl ⟨hc', by rw [hcount, hturns, hzero, Nat.add_zero]⟩⟩
      · exact absurd hcode hina

end Steps

/-! ## Every run -/

section Runs

variable {lockOf : CondPtr → Nat} {cfg : Config} {σ : System} {p : ThreadPtr → Phase CondPtr}

def SignalLaw (cfg : Config) (σ : System) : Prop :=
  ∀ c l, σ.code σ.kernel.running = [.condSignal c l] ∨
      σ.code σ.kernel.running = [.condBroadcast c l] →
    σ.kernel.condWaiters c ≠ [] → ∃ t σ', step cfg .exec σ = some σ' ∧ Releases cfg σ σ' c t

/-- A released thread is not blocked, and at its `sema_down` it goes on. -/
def ReleasedLaw (cfg : Config) (σ : System) (p : ThreadPtr → Phase CondPtr) : Prop :=
  ∀ t c, p t = .released c → σ.kernel.Awake t ∧
    (σ.kernel.running = t → ∀ f ∈ (σ.code t).head?,
      f = .down (.waiter t) .ret ∨ f = .downLoop (.waiter t) .ret →
        ∃ σ', step cfg .exec σ = some σ' ∧ σ.condEvent cfg .exec = some (.goOn t))

def BroadcastLaw (lockOf : CondPtr → Nat) (cfg : Config) (σ : System) : Prop :=
  ∀ c l t, σ.code t = [.condBroadcast c l] → ∀ tr σ', Exec (step cfg) σ tr σ' →
    (∀ e ∈ tr, CondUse lockOf e.1 e.2) → (∀ e ∈ tr, e.1.code t ≠ []) →
      Broadcasts cfg c l t σ σ' tr

def ReturnLaw (lockOf : CondPtr → Nat) (σ : System) (p : ThreadPtr → Phase CondPtr) : Prop :=
  ∀ c l rest, σ.code σ.kernel.running = .condReturn c l :: rest →
    p σ.kernel.running = .returning c ∧ l = .lock (lockOf c) ∧
      σ.kernel.holder l = some σ.kernel.running

theorem CondInv.broadcastLaw (h : CondInv lockOf cfg σ p) : BroadcastLaw lockOf cfg σ := by
  intro c l t ht tr σ' hrun hu hin
  obtain ⟨⟨p', hinv⟩, hperm, hprog⟩ := CondInv.broadcast_run ⟨p, h⟩ ht hrun hu hin
  refine ⟨hperm, ?_⟩
  rcases hprog with ⟨hcode, hturns⟩ | hend
  · refine Or.inl ⟨hcode, hturns, ?_, fun hr => ?_⟩
    · have hhead : (σ'.code t).head? = some (.condBroadcast c l) := by
        rw [hcode]
        rfl
      exact hinv.own.settled.not_blocked_of_head hhead rfl rfl
    · subst hr
      exact hinv.broadcast_turn hcode
  · exact Or.inr hend

theorem condInv_of_exec {init : Nat → Fin unsignedSize} {idle : ThreadPtr}
    {tr : List (System × Act)} (hrun : Exec (step cfg) (boot init idle) tr σ)
    (hu : ∀ e ∈ tr, CondUse lockOf e.1 e.2) :
    ∃ p, runAll MonitorEvent.apply (condEvents cfg tr) (fun _ => .outside) = some p ∧
      CondInv lockOf cfg σ p := by
  induction hrun with
  | nil =>
      exact ⟨_, rfl, boot_condInv lockOf cfg init idle⟩
  | @snoc tr σ σ' a _ hs ih =>
      have hua : CondUse lockOf σ a := by
        simpa using hu (σ, a) (List.mem_append_right _ List.mem_cons_self)
      obtain ⟨p, hp, hinv⟩ := ih fun e he => hu e (by simp [he])
      obtain ⟨p', hp', hinv'⟩ := hinv.step hua hs
      refine ⟨p', ?_, hinv'⟩
      have hev : condEvents cfg (tr ++ [(σ, a)]) =
          condEvents cfg tr ++ (σ.condEvent cfg a).toList := by
        cases he : σ.condEvent cfg a <;> simp [condEvents, he]
      rw [hev, runAll_append, hp]
      cases he : σ.condEvent cfg a with
      | none =>
          rw [he] at hp'
          exact hp'
      | some e =>
          rw [he] at hp'
          simpa [runAll, afterEvent] using hp'

/-- In every run in which conditions are used with their locks, under every interleaving and every
order of the waiters, the events of the conditions are a possible life of the monitor: each call of
`cond_wait` that joins is released by one signal and goes on once.  The waiters of a condition are
the calls that wait, and the laws of signals, released calls, broadcasts and returns hold. -/
theorem cond_wakeups {init : Nat → Fin unsignedSize} {idle : ThreadPtr}
    {tr : List (System × Act)} (hrun : Exec (step cfg) (boot init idle) tr σ)
    (hu : ∀ e ∈ tr, CondUse lockOf e.1 e.2) :
    ∃ p, runAll MonitorEvent.apply (condEvents cfg tr) (fun _ => .outside) = some p ∧
      (∀ t, Accounted (condEvents cfg tr) t (p t)) ∧
      (∀ c, (σ.kernel.condWaiters c).Nodup ∧
        ∀ t, t ∈ σ.kernel.condWaiters c ↔ p t = .waiting c) ∧
      SignalLaw cfg σ ∧ ReleasedLaw cfg σ p ∧ BroadcastLaw lockOf cfg σ ∧
      ReturnLaw lockOf σ p := by
  obtain ⟨p, hp, hinv⟩ := condInv_of_exec hrun hu
  refine ⟨p, hp, accounted_of_runAll hp, fun c => ⟨hinv.waits.nodup c, hinv.waits.queued c⟩,
    fun c l hc hne => ?_, fun t c ht => ⟨hinv.released_awake ht, fun hr f hf hcase => ?_⟩,
    hinv.broadcastLaw, fun c l rest hc => hinv.returns hc⟩
  · rcases hc with hc | hc
    · exact hinv.signal hc (Or.inl rfl) hne
    · exact hinv.signal hc (Or.inr rfl) hne
  · subst hr
    obtain ⟨rest, hc⟩ := List.head?_eq_some_iff.1 hf
    exact hinv.goes_on ht hc hcase

/-- Thread 2 waits for condition 0, and the initial thread has called `cond_broadcast`. -/
def waitActs : List Act :=
  bootActs ++ createActs 2 40 ++
    [.call (.lockAcquire 0), .exec, .call (.condWait 0 0), .exec, .exec, .exec,
      .call (.lockAcquire 0), .exec, .call (.condBroadcast 0 0)]

def waitSystem : System :=
  (runAll (step .calls) waitActs (boot allZero 1)).get (by decide +kernel)

theorem cond_wakeups_wait :
    waitSystem.kernel.condWaiters 0 = [2] ∧
      ∃ t σ', step .calls .exec waitSystem = some σ' ∧ Releases .calls waitSystem σ' 0 t := by
  have hrun : Exec (step .calls) (boot allZero 1) (trace (step .calls) waitActs (boot allZero 1))
      waitSystem := Exec.of_runAll (Option.some_get _).symm
  obtain ⟨p, -, -, -, hsignal, -⟩ := @cond_wakeups (fun _ => 0) _ _ _ _ _ hrun (by decide +kernel)
  exact ⟨by decide +kernel,
    hsignal 0 (.lock 0) (Or.inr (by decide +kernel)) (by decide +kernel)⟩

end Runs

end Project2
end Pintos
