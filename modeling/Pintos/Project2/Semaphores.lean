import Pintos.Project2.LifeCycle
import Mathlib.Data.Finset.Card

/-!
# Semaphores — no wake-up is lost

`sema_up` wakes a waiter before it raises the value, and the waiter takes the value only when it
runs again; until then it is pending.  The invariant is that the value is covered by the pending
threads as long as somebody waits.  It holds under every interleaving, with threads that take the
value in between.
-/

namespace Pintos
namespace Project2

open Lib Function

/-! ## Threads inside `sema_down` -/

def Frame.loopsOn (s : SemaPtr) : Frame → Bool
  | .downLoop s' _ => s' = s
  | _ => false

namespace System

/-- The thread is inside the loop of `sema_down (s)`. -/
def InDown (σ : System) (s : SemaPtr) (t : ThreadPtr) : Prop :=
  (σ.code t).head?.any (Frame.loopsOn s) = true

instance instDecidableInDown (σ : System) (s : SemaPtr) (t : ThreadPtr) :
    Decidable (σ.InDown s t) :=
  inferInstanceAs (Decidable (_ = true))

/-- The threads unblocked from `s` that have not yet re-checked its value. -/
def pending (σ : System) (s : SemaPtr) : Finset ThreadPtr :=
  {t ∈ σ.kernel.allList.toFinset | σ.InDown s t ∧ σ.kernel.status t ≠ .blocked}

end System

variable {cfg : Config} {σ σ' : System} {s : SemaPtr} {t : ThreadPtr}

theorem inDown_iff : σ.InDown s t ↔ ∃ a, (σ.code t).head? = some (.downLoop s a) := by
  unfold System.InDown
  cases hc : (σ.code t).head? with
  | none =>
      simp
  | some f =>
      cases f <;> simp [Frame.loopsOn]

theorem Settled.inDown_of_wait (h : Settled σ) (ht : t ∈ σ.kernel.waiters s) : σ.InDown s t :=
  inDown_iff.2 (h.live.wait ht).2

/-- A thread inside `sema_down` is blocked exactly while it is in the waiters. -/
theorem Settled.blocked_iff_wait (h : Settled σ) (ht : σ.InDown s t) :
    σ.kernel.status t = .blocked ↔ t ∈ σ.kernel.waiters s := by
  obtain ⟨a, ha⟩ := inDown_iff.1 ht
  refine ⟨fun hb => ?_, fun hw => (h.live.wait hw).1⟩
  -- a blocked thread has one of five places, and its code tells which
  cases (h.live.placed t).blocked hb with
  | waiting s' a' hf hw =>
      rw [ha] at hf
      cases hf
      exact hw
  | sleeping hf | bare hf =>
      rw [ha] at hf
      cases hf
  | idle hi =>
      rcases h.live.idle_head hi with hf | hf <;> simp [hf] at ha
  | embryo u hu =>
      exact absurd hu (h.live.not_embryo_of_head ha (by simp) u)

theorem Settled.mem_pending (h : Settled σ) :
    t ∈ σ.pending s ↔ σ.InDown s t ∧ t ∉ σ.kernel.waiters s := by
  simp only [System.pending, Finset.mem_filter, List.mem_toFinset]
  constructor
  · rintro ⟨-, ht, hst⟩
    exact ⟨ht, fun hw => hst ((h.blocked_iff_wait ht).2 hw)⟩
  · rintro ⟨ht, hw⟩
    refine ⟨h.live.mem_allList fun hd => ?_, ht, fun hb => hw ((h.blocked_iff_wait ht).1 hb)⟩
    obtain ⟨a, ha⟩ := inDown_iff.1 ht
    simp [(h.live.placed t).dead_code hd] at ha

/-! ## What a step does to the semaphores -/

/-- The semaphore operation of a step. -/
def System.op (cfg : Config) (σ : System) : Act → SemaOp
  | .exec =>
      match σ.code σ.kernel.running with
      | [] => .none
      | f :: _ => f.semaOp cfg σ.kernel
  | _ => .none

theorem step_does {a : Act} (hs : step cfg a σ = some σ') :
    (σ.op cfg a).Does σ.kernel σ'.kernel := by
  cases a with
  | call o =>
      rcases step_call_iff.1 hs with ⟨-, rfl⟩
      exact ⟨rfl, rfl⟩
  | exec =>
      rcases step_exec_iff.1 hs with ⟨f, rest, o, hc, hr, rfl⟩
      simp only [System.op, hc]
      exact runFrame_semaOp hr
  | tick =>
      rcases step_tick_iff.1 hs with ⟨-, k, ht, rfl⟩
      rcases timerInterrupt_footprint ht with ⟨_, _, _, _, _, _, _, _, rfl⟩
      exact ⟨rfl, rfl⟩
  | preempt t =>
      rcases step_preempt_iff.1 hs with ⟨-, rfl⟩
      exact ⟨rfl, rfl⟩

/-- The running thread enters or leaves the loop of `sema_down (s)` only by an operation on `s`;
the other threads stay where they are. -/
theorem step_inDown {a : Act} (h : Settled σ) (hs : step cfg a σ = some σ')
    (hq : σ.op cfg a ≠ .queued s) (ht : t ≠ σ.kernel.running ∨ σ.op cfg a ≠ .took s) :
    σ'.InDown s t ↔ σ.InDown s t := by
  cases a with
  | call o =>
      rcases step_call_iff.1 hs with ⟨hc, rfl⟩
      by_cases hu : t = σ.kernel.running
      · subst hu
        simp only [inDown_iff, update_self, hc]
        constructor
        · rintro ⟨a, ha⟩
          have hret := (opFrames_shape cfg.grain σ.kernel.running o).2.1 _ (List.mem_of_head? ha)
          cases hret
        · rintro ⟨a, ha⟩
          cases ha
      · simp [inDown_iff, hu]
  | exec =>
      rcases step_exec_iff.1 hs with ⟨f, rest, o, hc, hr, rfl⟩
      have hop : σ.op cfg .exec = f.semaOp cfg σ.kernel := by simp only [System.op, hc]
      rw [hop] at hq ht
      have hp := runFrame_pushed hr (h.shape.owned _ f (by simp [hc]))
      simp only [inDown_iff]
      show (∃ a, (update (spawnCode f σ.code) σ.kernel.running (o.push ++ rest) t).head? = _) ↔ _
      rcases code_after h.live rest hr t with ⟨hu, he⟩ | ⟨-, prog, -, hold, he, hprog⟩ | ⟨-, he⟩
      · have hne : f.semaOp cfg σ.kernel ≠ .took s := by
          rcases ht with hne | hne
          · exact absurd hu hne
          · exact hne
        rw [he, hu, hc]
        constructor
        · rintro ⟨a, ha⟩
          cases hpush : o.push with
          | nil =>
              -- below the first frame no call is inside the loop
              have hmem : Frame.downLoop s a ∈ rest := List.mem_of_head? (by simpa [hpush] using ha)
              have hret := h.shape.returns σ.kernel.running _ (by simpa [hc] using hmem)
              cases hret
          | cons p ps =>
              -- the loop is entered, or goes on, by queueing the thread
              have hmem : Frame.downLoop s a ∈ o.push := by
                simp only [hpush, List.cons_append, List.head?_cons, Option.some.injEq] at ha
                simp [hpush, ha]
              exact absurd (hp.queues s a hmem) hq
        · rintro ⟨a, ha⟩
          simp only [List.head?_cons, Option.some.injEq] at ha
          subst ha
          -- a turn of the loop takes the semaphore or queues the thread again
          by_cases h0 : σ.kernel.value s = 0
          · exact absurd (show SemaOp.down σ.kernel s = _ from if_pos h0) hq
          · exact absurd (show SemaOp.down σ.kernel s = _ from if_neg h0) hne
      · rw [he, hold]
        rcases hprog with rfl | ⟨rfl, -⟩ <;> simp
      · rw [he]
  | tick =>
      rcases step_tick_iff.1 hs with ⟨-, k, -, rfl⟩
      rfl
  | preempt t =>
      rcases step_preempt_iff.1 hs with ⟨-, rfl⟩
      rfl

/-! ## The value is covered by the pending threads -/

/-- While somebody waits, there is a pending thread for every unit of the value. -/
def Covered (σ : System) (s : SemaPtr) : Prop :=
  σ.kernel.waiters s ≠ [] → σ.kernel.value s ≤ (σ.pending s).card

theorem Covered.step {a : Act} (h : Settled σ) (h' : Settled σ') (hcov : Covered σ s)
    (hs : step cfg a σ = some σ') : Covered σ' s := by
  have hdoes := step_does hs
  intro hw'
  by_cases hq : σ.op cfg a = .queued s
  · -- `sema_down` has found 0, so there is nothing to cover
    rw [hq] at hdoes
    rw [hdoes.2.1, hdoes.1]
    exact Nat.zero_le _
  by_cases ht : σ.op cfg a = .took s
  · -- the running thread was pending or came from outside
    rw [ht] at hdoes
    obtain ⟨h0, hv, hw⟩ := hdoes
    have hsub : (σ.pending s).erase σ.kernel.running ⊆ σ'.pending s := by
      intro u hu
      obtain ⟨hne, hu⟩ := Finset.mem_erase.1 hu
      rw [h.mem_pending] at hu
      rw [h'.mem_pending, step_inDown h hs hq (Or.inl hne), hw]
      exact hu
    have hcard := Finset.card_le_card hsub
    have herase := Finset.pred_card_le_card_erase (s := σ.pending s) (a := σ.kernel.running)
    have hle := hcov (by rwa [hw] at hw')
    have hval : σ'.kernel.value s ≤ σ.kernel.value s - 1 := by
      rw [hv]
      simp only [Kernel.lowered, update_self, unsignedSize]
      omega
    omega
  -- from here on nobody enters or leaves the loop
  have hin : ∀ u, σ'.InDown s u ↔ σ.InDown s u := fun u => step_inDown h hs hq (Or.inr ht)
  by_cases hu : σ.op cfg a = .upped s
  · rw [hu] at hdoes
    obtain ⟨hv, ws, hwoken, hw⟩ := hdoes
    have hws : σ'.kernel.waiters s = ws := by rw [hw, update_self]
    rcases hwoken with ⟨-, rfl⟩ | ⟨t, hperm⟩
    · exact absurd hws hw'
    · -- the woken thread becomes pending
      have hmem : t ∈ σ.kernel.waiters s := hperm.symm.subset List.mem_cons_self
      have hnd := List.nodup_cons.1 (hperm.nodup_iff.1 (h.live.wait_nodup s))
      have hnot : t ∉ σ.pending s := fun hp => (h.mem_pending.1 hp).2 hmem
      have hsub : insert t (σ.pending s) ⊆ σ'.pending s := by
        intro u hu
        rw [h'.mem_pending, hin, hws]
        rcases Finset.mem_insert.1 hu with rfl | hu
        · exact ⟨h.inDown_of_wait hmem, hnd.1⟩
        · obtain ⟨hu, hnw⟩ := h.mem_pending.1 hu
          exact ⟨hu, fun hm => hnw (hperm.symm.subset (List.mem_cons_of_mem _ hm))⟩
      have hcard := Finset.card_le_card hsub
      rw [Finset.card_insert_of_notMem hnot] at hcard
      have hle := hcov (List.ne_nil_of_mem hmem)
      have hval : σ'.kernel.value s ≤ σ.kernel.value s + 1 := by
        rw [hv]
        simp only [Kernel.raised, update_self, unsignedSize]
        omega
      omega
  · rcases hdoes.elsewhere hq ht hu with ⟨-, hv, hw⟩ | ⟨t, -, -, -, hnil⟩
    · have hsub : σ.pending s ⊆ σ'.pending s := by
        intro u hu
        rw [h'.mem_pending, hin, hw]
        exact h.mem_pending.1 hu
      rw [hv]
      exact (hcov (by rwa [hw] at hw')).trans (Finset.card_le_card hsub)
    · exact absurd hnil hw'

/-! ## Counting the operations -/

/-- The operations on a semaphore since it was initialized. -/
structure SemaLog where
  start : Nat
  ups : Nat
  downs : Nat

/-- Enter an operation into the log of `s`. -/
def SemaLog.note (s : SemaPtr) (log : SemaLog) : SemaOp → SemaLog
  | .upped s' => if s' = s then { log with ups := log.ups + 1 } else log
  | .took s' => if s' = s then { log with downs := log.downs + 1 } else log
  | .fresh t => if .waiter t = s then ⟨0, 0, 0⟩ else log
  | .none | .queued _ => log

/-- The log of `s` over a run in which its first value is `start`. -/
def semaLog (cfg : Config) (s : SemaPtr) (start : Nat) (tr : List (System × Act)) : SemaLog :=
  tr.foldl (fun log e => log.note s (e.1.op cfg e.2)) ⟨start, 0, 0⟩

theorem semaLog_snoc (start : Nat) (tr : List (System × Act)) (σ : System) (a : Act) :
    semaLog cfg s start (tr ++ [(σ, a)]) = (semaLog cfg s start tr).note s (σ.op cfg a) := by
  simp [semaLog]

theorem SemaLog.note_elsewhere (log : SemaLog) {op : SemaOp} (ht : op ≠ .took s)
    (hu : op ≠ .upped s) (hf : ∀ t, op = .fresh t → s ≠ .waiter t) : log.note s op = log := by
  cases op with
  | none | queued s' => rfl
  | took s' => exact if_neg fun e => ht (by rw [e])
  | upped s' => exact if_neg fun e => hu (by rw [e])
  | fresh t => exact if_neg fun e => hf t rfl e.symm

/-- The log accounts for the value, which is a value of `unsigned`. -/
structure Balanced (log : SemaLog) (v : Nat) : Prop where
  balance : log.start + log.ups = v + log.downs
  bound : v < unsignedSize

theorem Balanced.note {log : SemaLog} {op : SemaOp} {k k' : Kernel}
    (h : Balanced log (k.value s)) (hd : op.Does k k')
    (hb : op = .upped s → k.value s + 1 < unsignedSize) :
    Balanced (log.note s op) (k'.value s) := by
  obtain ⟨hbal, hlt⟩ := h
  by_cases hq : op = .queued s
  · subst hq
    exact ⟨by rw [hd.2.1]; exact hbal, by rw [hd.2.1]; exact hlt⟩
  by_cases ht : op = .took s
  · subst ht
    obtain ⟨h0, hv, -⟩ := hd
    have hval : k'.value s = k.value s - 1 := by
      rw [hv]
      simp only [Kernel.lowered, update_self, unsignedSize] at *
      omega
    rw [hval]
    -- `sema_down` has found the value above 0, so it does not wrap
    refine ⟨?_, by omega⟩
    simp only [SemaLog.note, if_true]
    omega
  by_cases hu : op = .upped s
  · subst hu
    have hval : k'.value s = k.value s + 1 := by
      rw [hd.1]
      simp only [Kernel.raised, update_self]
      -- `sema_up` does not wrap either, by the bound on the run
      exact Nat.mod_eq_of_lt (hb rfl)
    rw [hval]
    refine ⟨?_, hb rfl⟩
    simp only [SemaLog.note, if_true]
    omega
  · rcases hd.elsewhere hq ht hu with ⟨hf, hv, -⟩ | ⟨t, rfl, rfl, hv, -⟩
    · rw [hv, log.note_elsewhere ht hu hf]
      exact ⟨hbal, hlt⟩
    · rw [hv]
      simp only [SemaLog.note, if_true]
      exact ⟨rfl, by decide⟩

/-! ## Every run -/

theorem boot_value (init : Nat → Fin unsignedSize) (idle : ThreadPtr) :
    Balanced ⟨(boot init idle).kernel.value s, 0, 0⟩ ((boot init idle).kernel.value s) := by
  refine ⟨rfl, ?_⟩
  cases s with
  | sema n => exact (init n).isLt
  | ofLock l => exact (by decide : 1 < unsignedSize)
  | idleStarted | waiter t => exact (by decide : 0 < unsignedSize)

theorem exec_balanced {s₀ : System} {tr : List (System × Act)}
    (hrun : Exec (step cfg) s₀ tr σ)
    (h₀ : Balanced ⟨s₀.kernel.value s, 0, 0⟩ (s₀.kernel.value s))
    (hb : ∀ e ∈ tr, e.1.op cfg e.2 = .upped s → e.1.kernel.value s + 1 < unsignedSize) :
    Balanced (semaLog cfg s (s₀.kernel.value s) tr) (σ.kernel.value s) := by
  refine hrun.history
    (P := fun σ a => σ.op cfg a = .upped s → σ.kernel.value s + 1 < unsignedSize)
    (I := fun tr σ => Balanced (semaLog cfg s (s₀.kernel.value s) tr) (σ.kernel.value s)) h₀ ?_ hb
  intro tr σ a σ' h ha hs
  rw [semaLog_snoc]
  exact h.note (step_does hs) ha

/-- A step that takes the semaphore finds it above 0: the value goes down by one. -/
theorem exec_took {s₀ : System} {tr : List (System × Act)} (hrun : Exec (step cfg) s₀ tr σ)
    (h₀ : Balanced ⟨s₀.kernel.value s, 0, 0⟩ (s₀.kernel.value s))
    (hb : ∀ e ∈ tr, e.1.op cfg e.2 = .upped s → e.1.kernel.value s + 1 < unsignedSize) :
    ∀ e ∈ tr, e.1.op cfg e.2 = .took s → ∀ σ₂, step cfg e.2 e.1 = some σ₂ →
      e.1.kernel.value s = σ₂.kernel.value s + 1 := by
  induction hrun with
  | nil =>
      simp
  | @snoc tr σ σ' a hrun _ ih =>
      have hb' : ∀ e ∈ tr, e.1.op cfg e.2 = .upped s → e.1.kernel.value s + 1 < unsignedSize :=
        fun e he => hb e (by simp [he])
      intro e he ht σ₂ hs₂
      rcases List.mem_append.1 he with he | he
      · exact ih hb' e he ht σ₂ hs₂
      · -- the last step: the log accounts for the value it starts from
        rw [List.mem_singleton.1 he] at ht hs₂ ⊢
        have hlt := (exec_balanced hrun h₀ hb').bound
        have hd := step_does hs₂
        rw [show σ.op cfg a = .took s from ht] at hd
        obtain ⟨h0, hv, -⟩ := hd
        rw [hv]
        simp only [Kernel.lowered, update_self, unsignedSize] at *
        omega

theorem covered_of_reach {init : Nat → Fin unsignedSize} {idle : ThreadPtr}
    (h : Reach (step cfg) NoBareCall (boot init idle) σ) :
    Settled σ ∧ NoBare σ ∧ Covered σ s := by
  refine @Reach.invariant _ _ _ _ _ _ (fun σ => Settled σ ∧ NoBare σ ∧ Covered σ s)
    ⟨boot_settled init idle, boot_noBare init idle, fun hw => absurd rfl hw⟩ ?_ h
  rintro σ a σ' ⟨hset, hbare, hcov⟩ ha hs
  have hset' := hset.step (hbare.unblockOk a) hs
  exact ⟨hset', hbare.step hset ha hs, hcov.step hset hset' hs⟩

/-- Semaphores lose no wake-up: in every run (a) while somebody waits, the value is covered by
threads that are woken and have not yet re-checked it; (b) the value is what the start value, the
ups and the downs leave, and a down always finds the value above 0; (c) a thread inside `sema_down`
is in the waiters once, or woken and pending, and nobody else is in the waiters. -/
theorem no_lost_wakeup {init : Nat → Fin unsignedSize} {idle : ThreadPtr}
    {tr : List (System × Act)} (hrun : Exec (step cfg) (boot init idle) tr σ)
    (ha : ∀ e ∈ tr, e.2.isBareCall = false) (s : SemaPtr)
    (hb : ∀ e ∈ tr, e.1.op cfg e.2 = .upped s → e.1.kernel.value s + 1 < unsignedSize) :
    (σ.kernel.waiters s ≠ [] → σ.kernel.value s ≤ (σ.pending s).card) ∧
      ((semaLog cfg s ((boot init idle).kernel.value s) tr).start +
            (semaLog cfg s ((boot init idle).kernel.value s) tr).ups =
          σ.kernel.value s + (semaLog cfg s ((boot init idle).kernel.value s) tr).downs ∧
        ∀ e ∈ tr, e.1.op cfg e.2 = .took s → ∀ σ₂, step cfg e.2 e.1 = some σ₂ →
          e.1.kernel.value s = σ₂.kernel.value s + 1) ∧
      (∀ t, σ.InDown s t →
        ((σ.kernel.waiters s).count t = 1 ∧ t ∉ σ.pending s) ∨
          (t ∉ σ.kernel.waiters s ∧ t ∈ σ.pending s)) ∧
      ∀ t, t ∈ σ.kernel.waiters s → σ.InDown s t := by
  obtain ⟨hset, -, hcov⟩ := @covered_of_reach _ _ s _ _ (hrun.reach ha)
  have h₀ : Balanced _ ((boot init idle).kernel.value s) := boot_value init idle
  refine ⟨hcov, ⟨(exec_balanced hrun h₀ hb).balance, exec_took hrun h₀ hb⟩, ?_,
    fun t ht => hset.inDown_of_wait ht⟩
  intro t ht
  by_cases hw : t ∈ σ.kernel.waiters s
  · refine Or.inl ⟨List.count_eq_one_of_mem (hset.live.wait_nodup s) hw, ?_⟩
    exact fun hp => (hset.mem_pending.1 hp).2 hw
  · exact Or.inr ⟨hw, hset.mem_pending.2 ⟨ht, hw⟩⟩

/-- Thread 2 waits for the semaphore 0, the initial thread takes it up, and before thread 2 runs
again it is the pending thread. -/
def wakeActs : List Act :=
  bootActs ++ createActs 2 31 ++ [.call .threadYield, .exec, .call (.semaDown 0), .exec,
    .call (.semaUp 0), .exec]

def wakeSystem : System :=
  (runAll (step .calls) wakeActs (boot allZero 1)).get (by decide +kernel)

theorem no_lost_wakeup_woken :
    wakeSystem.pending (.sema 0) = {2} ∧
      (2 ∉ wakeSystem.kernel.waiters (.sema 0) ∧ 2 ∈ wakeSystem.pending (.sema 0)) := by
  have hrun : Exec (step .calls) (boot allZero 1) (trace (step .calls) wakeActs (boot allZero 1))
      wakeSystem := Exec.of_runAll (Option.some_get _).symm
  have h := no_lost_wakeup hrun (by decide +kernel) (.sema 0) (by decide +kernel)
  refine ⟨by decide +kernel, (h.2.2.1 2 (by decide +kernel)).resolve_left ?_⟩
  decide +kernel

end Project2
end Pintos
