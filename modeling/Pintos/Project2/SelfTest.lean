import Pintos.Project2.Semaphores

/-!
# SelfTest — `sema_self_test` makes control ping-pong (`synch.c`)

The main thread takes up the first semaphore and takes down the second one in each round, and its
helper takes down the first and takes up the second.  Whatever other threads do in between, and
wherever the two are interrupted, the helper's round lies between the two operations of the main
thread's round, and the two never wait for each other.
-/

namespace Pintos
namespace Project2

open Lib Function

/-! ## The test -/

/-- The body of the loop of `sema_self_test`, `n` times; `a` and `b` are its two semaphores. -/
def semaSelfTest (a b n : Nat) : List Op := (List.replicate n [.semaUp a, .semaDown b]).flatten

def semaTestHelper (a b n : Nat) : List Op := (List.replicate n [.semaDown a, .semaUp b]).flatten

/-- The operations on the two semaphores. -/
def Op.usesTest (a b : Nat) : Op → Bool
  | .semaUp n | .semaDown n | .semaTryDown n => n = a ∨ n = b
  | _ => false

/-! ## Calls on plain semaphores -/

/-- The call that a frame is the rest of. -/
def Frame.semaCall : Frame → Option Op
  | .semaUp (.sema n) => some (.semaUp n)
  | .down (.sema n) _ | .downLoop (.sema n) _ => some (.semaDown n)
  | .semaTryDown (.sema n) => some (.semaTryDown n)
  | _ => none

/-- The call that comes back when the frame is executed. -/
def Frame.finishes (cfg : Config) (k : Kernel) (f : Frame) : Option Op :=
  match f.semaOp cfg k with
  | .queued _ => none
  | _ => f.semaCall

def Act.semaCall : Act → Option Op
  | .call (.semaUp n) => some (.semaUp n)
  | .call (.semaDown n) => some (.semaDown n)
  | .call (.semaTryDown n) => some (.semaTryDown n)
  | _ => none

def System.finishes (cfg : Config) (σ : System) : Act → Option Op
  | .exec =>
      match σ.code σ.kernel.running with
      | [] => none
      | f :: _ => f.finishes cfg σ.kernel
  | _ => none

/-- What `t` has called in a run. -/
def calls (t : ThreadPtr) (tr : List (System × Act)) : List Op :=
  tr.filterMap fun e => if e.1.kernel.running = t then e.2.semaCall else none

/-- What has come back. -/
def finished (cfg : Config) (t : ThreadPtr) (tr : List (System × Act)) : List Op :=
  tr.filterMap fun e => if e.1.kernel.running = t then e.1.finishes cfg e.2 else none

/-- What `t` is in. -/
def System.underWay (σ : System) (t : ThreadPtr) : List Op := (σ.code t).filterMap Frame.semaCall

section Calls

variable {cfg : Config} {k : Kernel} {f : Frame} {o : Outcome} {σ σ' : System} {a : Act}
  {t : ThreadPtr} {tr tr' : List (System × Act)}

theorem finish_calls (k : Kernel) (after : AfterDown) :
    (after.finish k).push.filterMap Frame.semaCall = [] := by
  cases after <;> rfl

/-- A turn of the loop of `sema_down` comes back with the semaphore, or is left to do. -/
theorem downOutcome_calls {s : SemaPtr} {k' : Kernel} {got : Bool} (after : AfterDown)
    (hf : f.semaOp cfg k = .down k s) (hc : f.semaCall = (Frame.downLoop s after).semaCall)
    (h : semaDownTurn k s = .ok (k', got)) :
    (f.finishes cfg k).toList ++ (downOutcome s after k' got).push.filterMap Frame.semaCall =
      f.semaCall.toList := by
  rcases semaDownTurn_eq_ok.1 h with ⟨h0, rfl, -⟩ | ⟨h0, rfl, -⟩
  · have hfin : f.finishes cfg k = none := by
      simp only [Frame.finishes, hf, SemaOp.down, if_pos h0]
    rw [hfin, hc]
    cases hs : (Frame.downLoop s after).semaCall <;>
      simp [downOutcome, Kernel.andThen, hs]
  · have hfin : f.finishes cfg k = f.semaCall := by
      simp only [Frame.finishes, hf, SemaOp.down, if_neg h0]
    rw [hfin, show downOutcome s after k' true = after.finish k' from rfl, finish_calls,
      List.append_nil]

/-- A call that does not come back is what is left to do. -/
theorem runFrame_calls (h : runFrame cfg k f = .ok o) :
    (f.finishes cfg k).toList ++ o.push.filterMap Frame.semaCall = f.semaCall.toList := by
  cases f with
  | down s after =>
      rcases bind_eq_ok.1 h with ⟨⟨k₁, got⟩, hd, h⟩
      cases h
      exact downOutcome_calls after rfl (by cases s <;> rfl) (semaDown_eq_ok.1 hd).2
  | downLoop s after =>
      rcases bind_eq_ok.1 h with ⟨⟨k₁, got⟩, hd, h⟩
      cases h
      exact downOutcome_calls after rfl rfl hd
  | semaTryDown s =>
      cases h
      rcases SemaOp.tryDown_cases k s with he | he <;>
        simp [Frame.finishes, Frame.semaOp, he, Kernel.done]
  | semaUp s =>
      rcases bind_eq_ok.1 h with ⟨_, -, h⟩
      cases h
      simp [Frame.finishes, Frame.semaOp, Kernel.done]
  | lockAcquire l =>
      rcases bind_eq_ok.1 h with ⟨⟨k₁, got⟩, -, h⟩
      rcases SemaOp.down_cases k (.ofLock l) with he | he <;> cases got <;> cases h <;>
        simp [Frame.finishes, Frame.semaOp, Frame.semaCall, he, Kernel.andThen]
  | lockTryAcquire l =>
      rcases bind_eq_ok.1 h with ⟨⟨k₁, success⟩, -, h⟩
      cases h
      rcases SemaOp.tryDown_cases k (.ofLock l) with he | he <;>
        simp [Frame.finishes, Frame.semaOp, Frame.semaCall, he]
  | tryDown l =>
      cases h
      rcases SemaOp.tryDown_cases k (.ofLock l) with he | he <;>
        cases hs : (semaTryDown k (.ofLock l)).2 <;>
        simp [Frame.finishes, Frame.semaOp, Frame.semaCall, he, Kernel.andThen]
  | acquireEntry l =>
      simp only [runFrame, assert_bind_eq_ok] at h
      cases h.2.2
      rfl
  | tryEntry l | releaseEntry l =>
      simp only [runFrame, assert_bind_eq_ok] at h
      cases h.2
      rfl
  | stmt st =>
      rcases bind_eq_ok.1 h with ⟨⟨k₁, next⟩, -, h⟩
      cases h
      simp only [Frame.finishes, Frame.semaOp, Frame.semaCall]
      induction next <;> simp_all [Frame.semaCall]
  | condSignal c l =>
      rcases bind_eq_ok.1 h with ⟨_, -, h⟩
      cases h
      rcases SemaOp.signal_cases cfg.order k c with he | ⟨w, he⟩ <;>
        simp [Frame.finishes, Frame.semaOp, Frame.semaCall, he, Kernel.done]
  | condBroadcast c l =>
      simp only [runFrame] at h
      have hfin : (Frame.condBroadcast c l).finishes cfg k = none := by
        rcases SemaOp.signal_cases cfg.order k c with he | ⟨w, he⟩ <;>
          simp [Frame.finishes, Frame.semaOp, Frame.semaCall, he]
      split at h
      · cases h
        simp [hfin, Kernel.done, Frame.semaCall]
      · rcases bind_eq_ok.1 h with ⟨_, -, h⟩
        cases h
        simp [hfin, Kernel.andThen, Frame.semaCall]
  | condReturn c l | blockReturn | sleepReturn | timerSleep n | setIdle =>
      cases h
      rfl
  | takeTid t p =>
      cases h
      cases hg : cfg.grain <;>
        simp [Frame.finishes, Frame.semaOp, Frame.semaCall, Kernel.andThen, releaseFrame]
  | threadCreate t p | threadStart t =>
      rcases bind_eq_ok.1 h with ⟨_, -, h⟩
      cases h
      cases hg : cfg.grain <;>
        simp [Frame.finishes, Frame.semaOp, Frame.semaCall, Kernel.andThen, acquireFrame]
  | _ =>
      rcases bind_eq_ok.1 h with ⟨_, -, h⟩
      cases h
      rfl

theorem opFrames_calls (g : Grain) (cur : ThreadPtr) (o : Op) :
    (o.frames g cur).filterMap Frame.semaCall = (Act.call o).semaCall.toList := by
  cases o <;> cases g <;> rfl

theorem calls_snoc (t : ThreadPtr) (tr : List (System × Act)) (σ : System) (a : Act) :
    calls t (tr ++ [(σ, a)]) =
      calls t tr ++ if σ.kernel.running = t then a.semaCall.toList else [] := by
  by_cases ht : σ.kernel.running = t <;> cases ha : a.semaCall <;> simp [calls, ht, ha]

theorem finished_snoc (t : ThreadPtr) (tr : List (System × Act)) (σ : System) (a : Act) :
    finished cfg t (tr ++ [(σ, a)]) =
      finished cfg t tr ++ if σ.kernel.running = t then (σ.finishes cfg a).toList else [] := by
  by_cases ht : σ.kernel.running = t <;> cases ha : σ.finishes cfg a <;> simp [finished, ht, ha]

/-- A step moves calls from what is under way to what has come back. -/
theorem step_calls (h : Settled σ) (hs : step cfg a σ = some σ') (t : ThreadPtr) :
    σ.underWay t ++ (if σ.kernel.running = t then a.semaCall.toList else []) =
      (if σ.kernel.running = t then (σ.finishes cfg a).toList else []) ++ σ'.underWay t := by
  cases a with
  | call o =>
      rcases step_call_iff.1 hs with ⟨hc, rfl⟩
      by_cases ht : σ.kernel.running = t
      · subst ht
        simp [System.underWay, System.finishes, hc, opFrames_calls]
      · simp [System.underWay, ht, Ne.symm ht]
  | exec =>
      rcases step_exec_iff.1 hs with ⟨f, rest, o, hc, hr, rfl⟩
      have hfin : σ.finishes cfg .exec = f.finishes cfg σ.kernel := by
        simp only [System.finishes, hc]
      show _ = _ ++ (update (spawnCode f σ.code) σ.kernel.running (o.push ++ rest) t).filterMap _
      rcases code_after h.live rest hr t with
        ⟨rfl, he⟩ | ⟨hne, prog, -, hold, he, hprog⟩ | ⟨hne, he⟩
      · rw [he, hfin, if_pos rfl, if_pos rfl, List.filterMap_append, ← List.append_assoc,
          runFrame_calls hr]
        cases hf : f.semaCall <;> simp [System.underWay, hc, Act.semaCall, hf]
      · rw [he, if_neg (Ne.symm hne), if_neg (Ne.symm hne)]
        rcases hprog with rfl | ⟨rfl, -⟩ <;> simp [System.underWay, hold, Frame.semaCall]
      · simp [System.underWay, he, Ne.symm hne]
  | tick =>
      rcases step_tick_iff.1 hs with ⟨-, k, -, rfl⟩
      simp [System.underWay, System.finishes, Act.semaCall]
  | preempt u =>
      rcases step_preempt_iff.1 hs with ⟨-, rfl⟩
      simp [System.underWay, System.finishes, Act.semaCall]

/-- What has been called has come back or is under way. -/
theorem calls_eq {init : Nat → Fin unsignedSize} {idle : ThreadPtr}
    (hrun : Exec (step cfg) (boot init idle) tr σ) (ha : ∀ e ∈ tr, NoBareCall e.1 e.2) :
    Settled σ ∧ NoBare σ ∧ ∀ t, calls t tr = finished cfg t tr ++ σ.underWay t := by
  refine hrun.history (P := NoBareCall)
    (I := fun tr σ => Settled σ ∧ NoBare σ ∧ ∀ t, calls t tr = finished cfg t tr ++ σ.underWay t)
    ⟨boot_settled init idle, boot_noBare init idle, fun t => ?_⟩ ?_ ha
  · by_cases ht : t = initialThread <;> simp [calls, finished, System.underWay, boot, ht,
      Frame.semaCall]
  · rintro tr σ a σ' ⟨hset, hbare, hcalls⟩ hn hs
    refine ⟨hset.step (hbare.unblockOk a) hs, hbare.step hset hn hs, fun t => ?_⟩
    rw [calls_snoc, finished_snoc, hcalls, List.append_assoc, List.append_assoc,
      step_calls hset hs t]

end Calls

/-! ## The loops -/

section Loops

variable {α : Type*} {x y z : α} {n : Nat} {ops : List α}

/-- In the course of a loop whose body is `x` and then `y`, there are as many of one as of the
other, or one more `x`. -/
theorem count_loop [DecidableEq α] (hxy : x ≠ y) (h : ops <+: (List.replicate n [x, y]).flatten) :
    ops.count y ≤ ops.count x ∧ ops.count x ≤ ops.count y + 1 ∧ ops.count x ≤ n := by
  induction n generalizing ops with
  | zero =>
      rw [List.prefix_nil.1 h]
      simp
  | succ n ih =>
      rw [List.replicate_succ, List.flatten_cons] at h
      match ops, h with
      | [], _ =>
          simp
      | [u], h =>
          obtain ⟨rfl, -⟩ := List.cons_prefix_cons.1 h
          simp [hxy]
      | u :: v :: ops, h =>
          obtain ⟨rfl, h⟩ := List.cons_prefix_cons.1 h
          obtain ⟨rfl, h⟩ := List.cons_prefix_cons.1 h
          have hrest := ih h
          simp only [List.count_cons_self, List.count_cons_of_ne hxy,
            List.count_cons_of_ne (Ne.symm hxy)]
          omega

theorem mem_loop (h : ops <+: (List.replicate n [x, y]).flatten) (hz : z ∈ ops) :
    z = x ∨ z = y := by
  obtain ⟨l, hl, hzl⟩ := List.mem_flatten.1 (h.subset hz)
  rw [List.eq_of_mem_replicate hl] at hzl
  simpa using hzl

end Loops

/-! ## The log of a semaphore -/

section Logs

variable {cfg : Config} {σ : System} {a : Act} {n : Nat} {tr : List (System × Act)}
  {u d : ThreadPtr}

/-- Enter a call that has come back. -/
def SemaLog.enter (n : Nat) (log : SemaLog) : Option Op → SemaLog
  | some (.semaUp k) => if k = n then { log with ups := log.ups + 1 } else log
  | some (.semaDown k) => if k = n then { log with downs := log.downs + 1 } else log
  | _ => log

theorem frame_note (log : SemaLog) (k : Kernel) (f : Frame)
    (h : f.finishes cfg k ≠ some (.semaTryDown n)) :
    log.note (.sema n) (f.semaOp cfg k) = log.enter n (f.finishes cfg k) := by
  cases f with
  | down s after | downLoop s after =>
      rcases SemaOp.down_cases k s with he | he <;> cases s <;>
        simp [Frame.finishes, Frame.semaOp, Frame.semaCall, he, SemaLog.note, SemaLog.enter]
  | semaTryDown s =>
      rcases SemaOp.tryDown_cases k s with he | he <;> cases s <;>
        simp_all [Frame.finishes, Frame.semaOp, Frame.semaCall, SemaLog.note, SemaLog.enter]
  | semaUp s =>
      cases s <;> simp [Frame.finishes, Frame.semaOp, Frame.semaCall, SemaLog.note, SemaLog.enter]
  | lockAcquire l =>
      rcases SemaOp.down_cases k (.ofLock l) with he | he <;>
        simp [Frame.finishes, Frame.semaOp, Frame.semaCall, he, SemaLog.note, SemaLog.enter]
  | lockTryAcquire l | tryDown l =>
      rcases SemaOp.tryDown_cases k (.ofLock l) with he | he <;>
        simp [Frame.finishes, Frame.semaOp, Frame.semaCall, he, SemaLog.note, SemaLog.enter]
  | condSignal c l | condBroadcast c l =>
      rcases SemaOp.signal_cases cfg.order k c with he | ⟨w, he⟩ <;>
        simp [Frame.finishes, Frame.semaOp, Frame.semaCall, he, SemaLog.note, SemaLog.enter]
  | _ =>
      simp [Frame.finishes, Frame.semaOp, Frame.semaCall, SemaLog.note, SemaLog.enter]

theorem note_eq_enter (log : SemaLog) (h : σ.finishes cfg a ≠ some (.semaTryDown n)) :
    log.note (.sema n) (σ.op cfg a) = log.enter n (σ.finishes cfg a) := by
  cases a with
  | call o | tick | preempt t => rfl
  | exec =>
      cases hc : σ.code σ.kernel.running with
      | nil =>
          simp only [System.op, System.finishes, hc]
          rfl
      | cons f rest =>
          simp only [System.op, System.finishes, hc] at h ⊢
          exact frame_note log σ.kernel f h

theorem mem_finished_snoc {o : Op} (h : σ.finishes cfg a = some o) :
    o ∈ finished cfg σ.kernel.running (tr ++ [(σ, a)]) := by
  simp [finished_snoc, h]

/-- The last step adds one to the count of the call that it finishes. -/
theorem count_finished_snoc {o : Op} (h : σ.finishes cfg a = some o → σ.kernel.running = u) :
    (finished cfg u (tr ++ [(σ, a)])).count o =
      (finished cfg u tr).count o + if σ.finishes cfg a = some o then 1 else 0 := by
  rw [finished_snoc, List.count_append]
  by_cases hf : σ.finishes cfg a = some o
  · simp [h hf, hf]
  · cases hs : σ.finishes cfg a with
    | none =>
        simp
    | some o' =>
        have hne : o' ≠ o := fun e => hf (e ▸ hs)
        by_cases hu : σ.kernel.running = u <;> simp [hu, hne]

/-- When one thread takes the semaphore up and one takes it down, the log counts what has come back
of their calls. -/
theorem semaLog_eq (start : Nat) (hups : ∀ t, .semaUp n ∈ finished cfg t tr → t = u)
    (hdowns : ∀ t, .semaDown n ∈ finished cfg t tr → t = d)
    (htry : ∀ t, .semaTryDown n ∉ finished cfg t tr) :
    semaLog cfg (.sema n) start tr =
      ⟨start, (finished cfg u tr).count (.semaUp n), (finished cfg d tr).count (.semaDown n)⟩ := by
  induction tr using List.reverseRecOn with
  | nil =>
      rfl
  | append_singleton tr e ih =>
      obtain ⟨σ, a⟩ := e
      have hold : ∀ {t : ThreadPtr} {o : Op}, o ∈ finished cfg t tr →
          o ∈ finished cfg t (tr ++ [(σ, a)]) := by
        intro t o ho
        rw [finished_snoc]
        exact List.mem_append_left _ ho
      rw [semaLog_snoc, note_eq_enter _ fun h => htry _ (mem_finished_snoc h),
        ih (fun t ht => hups t (hold ht)) (fun t ht => hdowns t (hold ht))
          (fun t ht => htry t (hold ht)),
        count_finished_snoc fun h => hups _ (mem_finished_snoc h),
        count_finished_snoc fun h => hdowns _ (mem_finished_snoc h)]
      cases hf : σ.finishes cfg a with
      | none =>
          simp [SemaLog.enter]
      | some o =>
          cases o with
          | semaUp k | semaDown k =>
              by_cases hk : k = n <;> simp [SemaLog.enter, hk]
          | _ =>
              simp [SemaLog.enter]

end Logs

/-! ## Ping-pong -/

/-- `m` runs the loop of the test and `h` that of the helper, as far as they have got, and nobody
else uses the two semaphores.  What they do in between is left open. -/
structure Plays (a b n : Nat) (m h : ThreadPtr) (ops : ThreadPtr → List Op) : Prop where
  main : (ops m).filter (Op.usesTest a b) <+: semaSelfTest a b n
  helper : (ops h).filter (Op.usesTest a b) <+: semaTestHelper a b n
  others : ∀ t, t ≠ m → t ≠ h → (ops t).filter (Op.usesTest a b) = []

/-- What holds of the two logs in the course of the test. -/
structure InTurn (n : Nat) (A B : SemaLog) : Prop where
  back : B.downs ≤ B.ups
  helper : B.ups ≤ A.downs
  forth : A.downs ≤ A.ups
  main : A.ups ≤ B.downs + 1
  rounds : A.ups ≤ n

section PingPong

variable {cfg : Config} {a b n : Nat} {m h t : ThreadPtr} {ops ops' : ThreadPtr → List Op} {o : Op}
  {init : Nat → Fin unsignedSize} {idle : ThreadPtr} {σ : System} {tr tr' : List (System × Act)}

theorem Plays.of_prefix (hp : Plays a b n m h ops) (hpre : ∀ t, ops' t <+: ops t) :
    Plays a b n m h ops' := by
  refine ⟨((hpre m).filter _).trans hp.main, ((hpre h).filter _).trans hp.helper, ?_⟩
  intro t hm hh
  have hnil := (hpre t).filter (Op.usesTest a b)
  rw [hp.others t hm hh] at hnil
  exact List.prefix_nil.1 hnil

/-- The two loops have no operation in common. -/
theorem Plays.cases (hp : Plays a b n m h ops) (ho : o ∈ ops t) (hu : o.usesTest a b = true) :
    (t = m ∧ (o = .semaUp a ∨ o = .semaDown b)) ∨ (t = h ∧ (o = .semaDown a ∨ o = .semaUp b)) := by
  have hf : o ∈ (ops t).filter (Op.usesTest a b) := List.mem_filter.2 ⟨ho, hu⟩
  by_cases hm : t = m
  · subst hm
    exact Or.inl ⟨rfl, mem_loop hp.main hf⟩
  by_cases hh : t = h
  · subst hh
    exact Or.inr ⟨rfl, mem_loop hp.helper hf⟩
  · rw [hp.others t hm hh] at hf
    cases hf

theorem Plays.of_up (hp : Plays a b n m h ops) (hab : a ≠ b) :
    (.semaUp a ∈ ops t → t = m) ∧ (.semaUp b ∈ ops t → t = h) := by
  constructor
  · intro ho
    rcases hp.cases ho (by simp [Op.usesTest]) with ⟨e, -⟩ | ⟨-, he⟩
    · exact e
    · simp [hab] at he
  · intro ho
    rcases hp.cases ho (by simp [Op.usesTest]) with ⟨-, he⟩ | ⟨e, -⟩
    · simp [hab.symm] at he
    · exact e

theorem Plays.of_down (hp : Plays a b n m h ops) (hab : a ≠ b) :
    (.semaDown a ∈ ops t → t = h) ∧ (.semaDown b ∈ ops t → t = m) := by
  constructor
  · intro ho
    rcases hp.cases ho (by simp [Op.usesTest]) with ⟨-, he⟩ | ⟨e, -⟩
    · simp [hab] at he
    · exact e
  · intro ho
    rcases hp.cases ho (by simp [Op.usesTest]) with ⟨e, -⟩ | ⟨-, he⟩
    · exact e
    · simp [hab.symm] at he

theorem Plays.not_tryDown (hp : Plays a b n m h ops)
    (hs : o = .semaTryDown a ∨ o = .semaTryDown b) : o ∉ ops t := by
  intro ho
  rcases hs with rfl | rfl <;>
    rcases hp.cases ho (by simp [Op.usesTest]) with ⟨-, he⟩ | ⟨-, he⟩ <;> simp at he

/-- The logs count what has come back of the two loops. -/
theorem Plays.logs (hp : Plays a b n m h fun t => finished cfg t tr) (hab : a ≠ b) :
    semaLog cfg (.sema a) 0 tr = ⟨0, (finished cfg m tr).count (.semaUp a),
        (finished cfg h tr).count (.semaDown a)⟩ ∧
      semaLog cfg (.sema b) 0 tr = ⟨0, (finished cfg h tr).count (.semaUp b),
        (finished cfg m tr).count (.semaDown b)⟩ :=
  ⟨semaLog_eq 0 (fun _ => (hp.of_up hab).1) (fun _ => (hp.of_down hab).1)
      fun _ => hp.not_tryDown (Or.inl rfl),
    semaLog_eq 0 (fun _ => (hp.of_up hab).2) (fun _ => (hp.of_down hab).2)
      fun _ => hp.not_tryDown (Or.inr rfl)⟩

/-- The loops alone keep each side in order; that a down finds what an up has left puts the two
sides together. -/
theorem Plays.inTurn (hp : Plays a b n m h fun t => finished cfg t tr) (hab : a ≠ b)
    (hA : Balanced (semaLog cfg (.sema a) 0 tr) (σ.kernel.value (.sema a)))
    (hB : Balanced (semaLog cfg (.sema b) 0 tr) (σ.kernel.value (.sema b))) :
    InTurn n (semaLog cfg (.sema a) 0 tr) (semaLog cfg (.sema b) 0 tr) := by
  have ha := hA.balance
  have hb := hB.balance
  have hm := count_loop (by simp) hp.main
  have hh := count_loop (by simp) hp.helper
  simp only [Op.usesTest, true_or, or_true, decide_true, List.count_filter] at hm hh
  rw [(hp.logs hab).1] at ha ⊢
  rw [(hp.logs hab).2] at hb ⊢
  constructor <;> simp only at ha hb ⊢ <;> omega

theorem finished_le_calls (hc : ∀ t, calls t tr = finished cfg t tr ++ σ.underWay t) (t : ThreadPtr) :
    finished cfg t tr <+: calls t tr := by
  rw [hc t]
  exact List.prefix_append _ _

/-- In a run of the test both semaphores have the value that their logs leave. -/
theorem plays_balanced (hab : a ≠ b) (ha : (init a).val = 0) (hb : (init b).val = 0)
    (hrun : Exec (step cfg) (boot init idle) tr σ) (hn : ∀ e ∈ tr, NoBareCall e.1 e.2)
    (hp : Plays a b n m h fun t => calls t tr) :
    Balanced (semaLog cfg (.sema a) 0 tr) (σ.kernel.value (.sema a)) ∧
      Balanced (semaLog cfg (.sema b) 0 tr) (σ.kernel.value (.sema b)) := by
  induction hrun with
  | nil =>
      have hvalue : ∀ s, (init s).val = 0 → Balanced (semaLog cfg (.sema s) 0 [])
          ((boot init idle).kernel.value (.sema s)) := by
        intro s hs
        exact ⟨by simp [semaLog, boot, bootKernel, hs], (init s).isLt⟩
      exact ⟨hvalue a ha, hvalue b hb⟩
  | @snoc tr σ σ' e hrun hs ih =>
      have hn' : ∀ e ∈ tr, NoBareCall e.1 e.2 := fun e he => hn e (List.mem_append_left _ he)
      have hp' : Plays a b n m h fun t => calls t tr := by
        refine hp.of_prefix fun t => ?_
        rw [calls_snoc]
        exact List.prefix_append _ _
      obtain ⟨hA, hB⟩ := ih hn' hp'
      have hfin := hp'.of_prefix (finished_le_calls (calls_eq hrun hn').2.2)
      have hturn := hfin.inTurn hab hA hB
      -- before the step each value is at most 1, so that an up does not wrap
      have hvalues : σ.kernel.value (.sema a) ≤ 1 ∧ σ.kernel.value (.sema b) ≤ 1 := by
        obtain ⟨h₁, h₂, h₃, h₄, -⟩ := hturn
        have h₅ := hA.balance
        have h₆ := hB.balance
        rw [(hfin.logs hab).1] at h₂ h₃ h₄ h₅
        rw [(hfin.logs hab).2] at h₁ h₂ h₄ h₆
        simp only at h₁ h₂ h₃ h₄ h₅ h₆
        omega
      rw [semaLog_snoc, semaLog_snoc]
      have hroom : 1 + 1 < unsignedSize := by decide
      exact ⟨hA.note (step_does hs) fun _ => by omega, hB.note (step_does hs) fun _ => by omega⟩

/-- A thread inside `sema_down` has that call under way. -/
theorem underWay_of_inDown {s : Nat} (ht : σ.InDown (.sema s) t) :
    ∃ rest, σ.underWay t = .semaDown s :: rest := by
  obtain ⟨after, hc⟩ := inDown_iff.1 ht
  obtain ⟨rest, hrest⟩ := List.head?_eq_some_iff.1 hc
  exact ⟨rest.filterMap Frame.semaCall, by simp [System.underWay, hrest, Frame.semaCall]⟩

/-- What has come back and the down that a thread is in are still in the course of its loop. -/
theorem prefix_of_inDown {s : Nat} {loop : List Op} (hu : s = a ∨ s = b)
    (hc : ∀ t, calls t tr = finished cfg t tr ++ σ.underWay t) (ht : σ.InDown (.sema s) t)
    (h : (calls t tr).filter (Op.usesTest a b) <+: loop) :
    (finished cfg t tr).filter (Op.usesTest a b) ++ [.semaDown s] <+: loop := by
  obtain ⟨rest, hrest⟩ := underWay_of_inDown ht
  refine List.IsPrefix.trans ?_ h
  rw [hc, hrest, List.filter_append, List.filter_cons_of_pos (by simpa [Op.usesTest] using hu)]
  exact ⟨rest.filter (Op.usesTest a b), by simp⟩

/-- While one thread waits, and no other is inside `sema_down`, the value is 0. -/
theorem value_eq_zero {s : SemaPtr} (hset : Settled σ) (hcov : Covered σ s)
    (hw : t ∈ σ.kernel.waiters s) (honly : ∀ u, σ.InDown s u → u = t) : σ.kernel.value s = 0 := by
  have hnone : σ.pending s = ∅ := by
    refine Finset.eq_empty_of_forall_notMem fun u hu => ?_
    obtain ⟨hin, hnot⟩ := hset.mem_pending.1 hu
    exact hnot (honly u hin ▸ hw)
  have hle := hcov (List.ne_nil_of_mem hw)
  rw [hnone] at hle
  exact Nat.le_zero.1 hle

/-- `sema_self_test` makes control ping-pong: at every moment of every run, the helper's down and up
of a round lie between the main thread's up and down, and the main thread's next round after both;
the main thread waits only while the helper has not answered, the helper only while it has, and
they never wait for each other. -/
theorem ping_pong (hab : a ≠ b) (ha : (init a).val = 0) (hb : (init b).val = 0)
    (hrun : Exec (step cfg) (boot init idle) tr σ) (hn : ∀ e ∈ tr, e.2.isBareCall = false)
    (hp : Plays a b n m h fun t => calls t tr) :
    let A := semaLog cfg (.sema a) 0 tr
    let B := semaLog cfg (.sema b) 0 tr
    InTurn n A B ∧
      (m ∈ σ.kernel.waiters (.sema b) → A.ups = B.downs + 1 ∧ B.ups = B.downs) ∧
      (h ∈ σ.kernel.waiters (.sema a) → A.ups = A.downs ∧ B.ups = A.downs) ∧
      ¬ (m ∈ σ.kernel.waiters (.sema b) ∧ h ∈ σ.kernel.waiters (.sema a)) := by
  intro A B
  obtain ⟨hA, hB⟩ := plays_balanced hab ha hb hrun hn hp
  obtain ⟨hset, -, hcalls⟩ := calls_eq hrun hn
  have hcov := fun s => (@covered_of_reach cfg σ s init idle (hrun.reach hn)).2.2
  have hfin := hp.of_prefix (finished_le_calls hcalls)
  have hturn : InTurn n A B := hfin.inTurn hab hA hB
  have hdown : ∀ {s t}, σ.InDown (.sema s) t → .semaDown s ∈ calls t tr := by
    intro s t ht
    obtain ⟨rest, hrest⟩ := underWay_of_inDown ht
    simp [hcalls t, hrest]
  have hmain : m ∈ σ.kernel.waiters (.sema b) → A.ups = B.downs + 1 ∧ B.ups = B.downs := by
    intro hw
    have h0 := value_eq_zero hset (hcov _) hw fun t ht => (hp.of_down hab).2 (hdown ht)
    -- the down under way comes after an up that has come back
    have hloop := count_loop (by simp)
      (prefix_of_inDown (Or.inr rfl) hcalls (hset.inDown_of_wait hw) hp.main)
    have hbal := hB.balance
    have hm := hturn.main
    simp only [A, B, (hfin.logs hab).1, (hfin.logs hab).2] at hm hbal ⊢
    simp [Op.usesTest, List.count_append, List.count_filter] at hloop
    omega
  have hhelper : h ∈ σ.kernel.waiters (.sema a) → A.ups = A.downs ∧ B.ups = A.downs := by
    intro hw
    have h0 := value_eq_zero hset (hcov _) hw fun t ht => (hp.of_down hab).1 (hdown ht)
    -- the down under way comes after as many downs as ups
    have hloop := count_loop (by simp)
      (prefix_of_inDown (Or.inl rfl) hcalls (hset.inDown_of_wait hw) hp.helper)
    have hbal := hA.balance
    have hh := hturn.helper
    simp only [A, B, (hfin.logs hab).1, (hfin.logs hab).2] at hh hbal ⊢
    simp [Op.usesTest, List.count_append, List.count_filter] at hloop
    omega
  refine ⟨hturn, hmain, hhelper, ?_⟩
  rintro ⟨hm, hh⟩
  have := hmain hm
  have := hhelper hh
  omega

end PingPong

/-- The helper, thread 2, has answered the first up and waits for the second one, and the main
thread has been woken. -/
def pingPongActs : List Act :=
  bootActs ++ createActs 2 31 ++ [.call (.semaUp 0), .exec, .call (.semaDown 1), .exec,
    .call (.semaDown 0), .exec, .call (.semaUp 1), .exec, .call (.semaDown 0), .exec]

def pingPongSystem : System :=
  (runAll (step .calls) pingPongActs (boot allZero 1)).get (by decide +kernel)

def pingPongTrace : List (System × Act) := trace (step .calls) pingPongActs (boot allZero 1)

theorem ping_pong_one :
    2 ∈ pingPongSystem.kernel.waiters (.sema 0) ∧
      (semaLog .calls (.sema 0) 0 pingPongTrace).ups = 1 ∧
      (semaLog .calls (.sema 0) 0 pingPongTrace).downs = 1 ∧
      (semaLog .calls (.sema 1) 0 pingPongTrace).ups = 1 := by
  have hrun : Exec (step .calls) (boot allZero 1) pingPongTrace pingPongSystem :=
    Exec.of_runAll (Option.some_get _).symm
  have hw : 2 ∈ pingPongSystem.kernel.waiters (.sema 0) := by decide +kernel
  have hplays : Plays 0 1 10 0 2 fun t => calls t pingPongTrace := by
    refine ⟨by decide +kernel, by decide +kernel, fun t h0 h2 => ?_⟩
    have hself : ∀ e ∈ pingPongTrace,
        e.1.kernel.running = 0 ∨ e.1.kernel.running = 2 ∨ e.2.semaCall = none := by decide +kernel
    have hnil : calls t pingPongTrace = [] := by
      rw [calls, List.filterMap_eq_nil_iff]
      intro e he
      rcases hself e he with hr | hr | hr
      · rw [hr, if_neg (Ne.symm h0)]
      · rw [hr, if_neg (Ne.symm h2)]
      · rw [hr, ite_self]
    rw [hnil, List.filter_nil]
  have h := ping_pong (by decide) rfl rfl hrun (by decide +kernel) hplays
  have hup : (semaLog .calls (.sema 0) 0 pingPongTrace).ups = 1 := by decide +kernel
  have hwait := h.2.2.1 hw
  exact ⟨hw, hup, by omega, by omega⟩

end Project2
end Pintos
