import Pintos.Project2.Dispatch
import Pintos.Lib.Arrivals

/-!
# ReadyQueue — the ready list as a queue of greatest priority

`readyLine` keeps, along a run, the ready threads in order of arrival and those whose priority has
changed since.  The ready list is at every moment one that a stable queue of greatest priority may
have for that line, and a dispatched thread is one that the line gives.  A thread that yields joins
the line, behind those of its priority, before the next one is dispatched.

A call of `lock_acquire` is one step: its donation and the `thread_block` it leads to are not
separated.
-/

namespace Pintos
namespace Project2

open Lib Function

/-! ## `next_thread_to_run` -/

/-- `next_thread_to_run` takes exactly one thread off the ready list, one of greatest priority; it
returns the idle thread when the list is empty. -/
structure Kernel.PicksTop (k : Kernel) : Prop where
  empty : k.readyList = [] → nextThreadToRun k = (k.idleThread, k)
  takes : k.readyList ≠ [] → ∃ t rest,
    nextThreadToRun k = (some t, { k with readyList := rest }) ∧
      k.readyList.Perm (t :: rest) ∧ ∀ u ∈ k.readyList, k.priority u ≤ k.priority t

theorem picksTop (k : Kernel) : k.PicksTop := by
  refine ⟨fun h => by simp [nextThreadToRun, h], fun h => ?_⟩
  obtain ⟨t, rest, hs⟩ := @exists_sort_eq_cons _ (compare k) _ h
  refine ⟨t, rest, by simp [nextThreadToRun, h, hs], perm_of_sort_eq_cons hs, fun u hu => ?_⟩
  exact le_of_sort_eq_cons hs hu

/-! ## The list between two steps -/

/-- The ready list is in order, so that `steal_running_by_priority`, which looks at its head, finds
a thread above the running one if there is any; the idle thread is not in it. -/
structure Kernel.InOrder (k : Kernel) : Prop where
  sorted : Descending k.priority k.readyList
  head : ∀ t rest, k.readyList = t :: rest → ∀ u ∈ k.readyList, k.priority u ≤ k.priority t
  outranked : k.Outranked ↔ ∃ t ∈ k.readyList, k.priority k.running < k.priority t
  idle : ∀ i, k.idleThread = some i → i ∉ k.readyList

theorem outranked_iff {k : Kernel} (hd : Descending k.priority k.readyList) :
    k.Outranked ↔ ∃ t ∈ k.readyList, k.priority k.running < k.priority t := by
  constructor
  · rintro ⟨t, rest, hr, hlt⟩
    exact ⟨t, by simp [hr], hlt⟩
  · rintro ⟨u, hu, hlt⟩
    obtain ⟨t, rest, hr⟩ := List.exists_cons_of_ne_nil (List.ne_nil_of_mem hu)
    rw [hr] at hd hu
    exact ⟨t, rest, hr, hlt.trans_le (hd.le_head hu)⟩

theorem Settled.inOrder {σ : System} (h : Settled σ)
    (hd : Descending σ.kernel.priority σ.kernel.readyList) : σ.kernel.InOrder := by
  refine ⟨hd, fun t rest hr u hu => ?_, outranked_iff hd, fun i hi hr => ?_⟩
  · rw [hr] at hd hu
    exact hd.le_head hu
  · exact ((h.live.placed i).ready.1 hr).2 hi

/-! ## Steps that yield -/

/-- Frames that call `thread_yield`, whoever is ready. -/
def Frame.yields (k : Kernel) : Frame → Bool
  | .threadYield => true
  | .startNew _ p _ => decide (k.priority k.running < p)
  | _ => false

/-- The step calls `thread_yield`: a call of it, a new thread above its creator, or the end of the
time slice. -/
def System.yields (σ : System) : Act → Bool
  | .tick => decide (TIME_SLICE ≤ σ.kernel.threadTicks + 1)
  | .exec => (σ.code σ.kernel.running).head?.any (Frame.yields σ.kernel)
  | _ => false

/-- Frames that end in `steal_running_by_priority`. -/
def Frame.steals (k : Kernel) : Frame → Bool
  | .semaUp _ | .lockRelease _ | .threadSetPriority _ | .idleUp => true
  | .condSignal c _ | .condBroadcast c _ => decide (k.condWaiters c ≠ [])
  | _ => false

def System.steals (σ : System) : Act → Bool
  | .exec => (σ.code σ.kernel.running).head?.any (Frame.steals σ.kernel)
  | _ => false

section Yields

variable {order : Kernel → ThreadPtr → ThreadPtr → Bool} {k k' k₁ : Kernel} {f : Frame}
  {o : Outcome} {σ σ' : System} {a : Act} {s : SemaPtr} {ws : List ThreadPtr} {t : ThreadPtr}

/-- The waking threads `ws` have joined and the running thread has yielded. -/
structure Yielded (k : Kernel) (ws : List ThreadPtr) (k' k₁ : Kernel) : Prop where
  joined : Joined k ws k₁
  idle : k₁.idleThread = k.idleThread
  known : k'.idleThread = k.idleThread
  popped : Popped k₁.yielding k'
  keys : k'.priority = k₁.priority

theorem threadYield_yielded (hj : Joined k ws k₁) (hi : k₁.idleThread = k.idleThread)
    (h : threadYield k₁ = .ok k') : Yielded k ws k' k₁ := by
  rcases threadYield_eq_ok.1 h with ⟨-, t, rest, hnext, rfl⟩
  exact ⟨hj, hi, hi, popped_of_next hnext, rfl⟩

theorem step_yielded (hy : σ.yields a = true)
    (hs : Project2.step ⟨.calls, order⟩ a σ = some σ') :
    ∃ k₁, Yielded σ.kernel (σ.woken ⟨.calls, order⟩ a) σ'.kernel k₁ := by
  cases a with
  | call op => cases hy
  | preempt t => cases hy
  | tick =>
      rcases step_tick_iff.1 hs with ⟨-, k', ht, rfl⟩
      rcases timerInterrupt_eq_ok.1 ht with ⟨k₁, ha, ⟨-, hyield⟩ | ⟨hslice, -⟩⟩
      · have hready := awakeLoop_ready ha
        have hj : Joined σ.kernel σ.kernel.expired k₁.returned ∧
            k₁.returned.idleThread = σ.kernel.idleThread := by
          rcases awakeLoop_footprint ha with ⟨_, _, _, rfl⟩
          exact ⟨⟨rfl, hready, fun _ _ => rfl⟩, rfl⟩
        exact ⟨_, threadYield_yielded hj.1 hj.2 hyield⟩
      · exact absurd hslice (not_lt.2 (of_decide_eq_true hy))
  | exec =>
      rcases step_exec_iff.1 hs with ⟨f, rest, o, hc, hr, rfl⟩
      have hf : f.yields σ.kernel = true := by simpa [System.yields, hc] using hy
      have hw : σ.woken ⟨.calls, order⟩ .exec = f.wakes ⟨.calls, order⟩ σ.kernel := by
        simp [System.woken, hc]
      rw [hw]
      cases f with
      | threadYield =>
          rcases bind_eq_ok.1 hr with ⟨k₁, hd, hr⟩
          cases hr
          exact ⟨_, threadYield_yielded ⟨rfl, rfl, fun _ _ => rfl⟩ rfl hd⟩
      | startNew t p tid =>
          rcases bind_eq_ok.1 hr with ⟨k₁, hd, hr⟩
          cases hr
          have hj : Joined σ.kernel [t] (σ.kernel.started t tid) := ⟨rfl, rfl, fun _ _ => rfl⟩
          rcases (threadStartNew_eq_ok.1 hd).2 with ⟨-, hyield⟩ | ⟨hp, -⟩
          · exact ⟨_, threadYield_yielded hj rfl hyield⟩
          · exact absurd (of_decide_eq_true hf) (not_lt.2 hp)
      | _ => cases hf

/-- Where the running thread goes on, the head of the list is not above it. -/
theorem steal_goesOn (h : stealRunningByPriority k = .ok k') (hrun : k'.running = k.running) :
    ¬ k'.Outranked := by
  rcases stealRunningByPriority_eq_ok.1 h with ⟨⟨next, tail, hr, hlt⟩, hy⟩ | ⟨hn, rfl⟩
  · exfalso
    rcases threadYield_eq_ok.1 hy with ⟨-, t, rest, hnext, rfl⟩
    have hmem : next ∈ k.yielding.readyList := by
      unfold Kernel.yielding
      split <;> simp [hr]
    rcases hnext with ⟨h0, -⟩ | hsort
    · rw [h0] at hmem
      cases hmem
    · have hle : k.priority next ≤ k.priority t := le_of_sort_eq_cons hsort hmem
      rw [show t = k.running from hrun] at hle
      exact absurd (hlt.trans_le hle) (lt_irrefl _)
  · exact hn

theorem semaUp_goesOn (h : semaUp k s = .ok k') (hrun : k'.running = k.running) :
    ¬ k'.Outranked := by
  obtain ⟨k₁, hw, hs⟩ := semaUp_eq_ok.1 h
  refine steal_goesOn hs ?_
  rcases semaWake_eq_ok.1 hw with ⟨-, rfl⟩ | ⟨t, rest, -, -, rfl⟩ <;> exact hrun

theorem condSignal_goesOn {c : CondPtr} {l : LockPtr} (hne : k.condWaiters c ≠ [])
    (h : condSignal order k c l = .ok k') (hrun : k'.running = k.running) : ¬ k'.Outranked := by
  rcases condSignal_eq_ok.1 h with ⟨-, -, ⟨h0, -⟩ | ⟨w, rest, -, hu⟩⟩
  · exact absurd h0 hne
  · exact semaUp_goesOn hu hrun

theorem runFrame_goesOn (hst : f.steals k = true) (hr : runFrame ⟨.calls, order⟩ k f = .ok o)
    (hrun : o.kernel.running = k.running) : ¬ o.kernel.Outranked := by
  cases f with
  | semaUp s | idleUp =>
      rcases bind_eq_ok.1 hr with ⟨k₁, hd, hr⟩
      cases hr
      exact semaUp_goesOn hd hrun
  | lockRelease l =>
      rcases bind_eq_ok.1 hr with ⟨k₁, hd, hr⟩
      cases hr
      have hrel : (k.released l).running = k.running := by
        rcases released_footprint k l with ⟨_, _, _, he⟩
        rw [he]
      exact semaUp_goesOn (lockRelease_eq_ok.1 hd).2 (hrun.trans hrel.symm)
  | condSignal c l =>
      rcases bind_eq_ok.1 hr with ⟨k₁, hd, hr⟩
      cases hr
      exact condSignal_goesOn (of_decide_eq_true hst) hd hrun
  | condBroadcast c l =>
      have hne := of_decide_eq_true hst
      simp only [runFrame, if_neg hne] at hr
      rcases bind_eq_ok.1 hr with ⟨k₁, hd, hr⟩
      cases hr
      exact condSignal_goesOn hne hd hrun
  | threadSetPriority p =>
      rcases bind_eq_ok.1 hr with ⟨k₁, hd, hr⟩
      cases hr
      have hset : (resetPriority (k.prioritySet p)).running = k.running := by
        rcases resetPriority_footprint (k.prioritySet p) with ⟨_, _, he⟩
        rw [he]
        rfl
      exact steal_goesOn hd (hrun.trans hset.symm)
  | _ => cases hst

theorem step_goesOn (hst : σ.steals a = true)
    (hs : Project2.step ⟨.calls, order⟩ a σ = some σ')
    (hrun : σ'.kernel.running = σ.kernel.running) : ¬ σ'.kernel.Outranked := by
  cases a with
  | exec =>
      rcases step_exec_iff.1 hs with ⟨f, rest, o, hc, hr, rfl⟩
      exact runFrame_goesOn (by simpa [System.steals, hc] using hst) hr hrun
  | call op | tick | preempt t => cases hst

end Yields

/-! ## The line of ready threads -/

/-- The running thread, when it yields and is not the idle thread. -/
def System.caller (σ : System) (a : Act) (k' : Kernel) : List ThreadPtr :=
  if (σ.yields a = true ∧ σ.kernel.idleThread ≠ some σ.kernel.running) ∨
    σ.kernel.running ∈ k'.readyList then [σ.kernel.running] else []

/-- The threads that join the ready list in a step, in this order: those the step wakes, then the
running thread if it yields, also when it is dispatched again at once. -/
def System.joins (cfg : Config) (σ : System) (a : Act) (k' : Kernel) : List ThreadPtr :=
  σ.woken cfg a ++ σ.caller a k'

/-- The line when the threads of a step have joined. -/
def System.arrive (cfg : Config) (L : Line ThreadPtr) (σ : System) (a : Act) (k' : Kernel) :
    Line ThreadPtr :=
  L.arrive σ.kernel.priority k'.priority (σ.joins cfg a k')

def noteReady (cfg : Config) (L : Line ThreadPtr) (e : System × Act) : Line ThreadPtr :=
  match step cfg e.2 e.1 with
  | none => L
  | some σ' => (e.1.arrive cfg L e.2 σ'.kernel).keep σ'.kernel.readyList

/-- The ready threads after a run from `boot`, in order of arrival, with those whose priority has
changed since they joined. -/
def readyLine (cfg : Config) (tr : List (System × Act)) : Line ThreadPtr :=
  tr.foldl (noteReady cfg) .empty

theorem readyLine_snoc {cfg : Config} {tr : List (System × Act)} {σ σ' : System} {a : Act}
    (hs : step cfg a σ = some σ') :
    readyLine cfg (tr ++ [(σ, a)]) =
      (σ.arrive cfg (readyLine cfg tr) a σ'.kernel).keep σ'.kernel.readyList := by
  simp [readyLine, noteReady, hs]

/-- What a step does to a line that its threads have joined. -/
inductive Turns (σ : System) (a : Act) (L : Line ThreadPtr) (k' : Kernel) : Prop
  /-- the running thread goes on: it does not yield, and where it asks whether it has to nobody in
  the line is above it -/
  | stays : σ.yields a = false → k'.running = σ.kernel.running → L.queued.Perm k'.readyList →
      (σ.steals a = true → ∀ t ∈ L.queued, k'.priority t ≤ k'.priority k'.running) → Turns σ a L k'
  /-- nobody is ready: the idle thread runs -/
  | idles : L.queued = [] → k'.readyList = [] → k'.idleThread = some k'.running → Turns σ a L k'
  /-- the dispatched thread, and nobody else, leaves -/
  | gives : k'.idleThread ≠ some k'.running → L.Gives k'.priority k'.running →
      L.queued.Perm (k'.running :: k'.readyList) → Turns σ a L k'

section Turn

variable {k k' k₁ : Kernel} {ws : List ThreadPtr} {c : Prop} {t : ThreadPtr}

theorem mem_yielding (hj : Joined k ws k₁) :
    t ∈ k₁.yielding.readyList ↔
      t ∈ ws ++ k.readyList ∨ (t = k.running ∧ k₁.idleThread ≠ some k.running) := by
  rw [← hj.running, List.mem_append, ← mem_insertAll, ← hj.ready]
  by_cases hi : k₁.idleThread = some k₁.running <;> simp [Kernel.yielding, hi, or_comm]

theorem yielding_nodup (hj : Joined k ws k₁) (hnd : (ws ++ k.readyList).Nodup)
    (hnr : k.running ∉ k.readyList) (hws : k.running ∉ ws) : k₁.yielding.readyList.Nodup := by
  have hnd₁ : k₁.readyList.Nodup := by
    rw [hj.ready]
    exact insertAll_perm.nodup_iff.2 hnd
  unfold Kernel.yielding
  split
  · exact hnd₁
  · rw [hj.running]
    exact insertOrdered_nodup.2 ⟨hj.not_mem hnr hws, hnd₁⟩

theorem mem_rejoins : t ∈ k.rejoins k' ↔ t = k.running ∧ k.running ∈ k'.readyList := by
  by_cases h : k.running ∈ k'.readyList <;> simp [Kernel.rejoins, h]

/-- What becomes of those who are queued, `q`, and of the running thread, which yields or not. -/
inductive Dispatched (yields : Bool) (k : Kernel) (q : List ThreadPtr) (k' : Kernel) : Prop
  | nobody : yields = false → k'.running = k.running → (∀ t ∈ q, t ∈ k'.readyList) →
      Dispatched yields k q k'
  | idle : q = [] → k'.readyList = [] → k'.idleThread = some k'.running → Dispatched yields k q k'
  | one : k'.running ∈ q → k'.running ∉ k'.readyList → Dispatched yields k q k'

/-- Nobody is dispatched, nobody is there to be dispatched, or one of those who are queued is. -/
theorem Turn.dispatched (h : Turn c k ws k') (hnd : (ws ++ k.readyList).Nodup)
    (hnr : k.running ∉ k.readyList) (hws : k.running ∉ ws) :
    Dispatched false k (ws ++ k.rejoins k' ++ k.readyList) k' := by
  -- whoever rejoins is in the list
  have hall : (∀ t ∈ ws ++ k.readyList, t ∈ k'.readyList) →
      ∀ t ∈ ws ++ k.rejoins k' ++ k.readyList, t ∈ k'.readyList := by
    intro hall t ht
    simp only [List.mem_append, mem_rejoins] at ht hall
    rcases ht with (ht | ⟨rfl, ht⟩) | ht
    · exact hall t (Or.inl ht)
    · exact ht
    · exact hall t (Or.inr ht)
  have hstay : Joined k ws k' → Dispatched false k (ws ++ k.rejoins k' ++ k.readyList) k' := by
    intro hj
    refine .nobody rfl hj.running (hall fun t ht => ?_)
    rw [hj.ready, mem_insertAll]
    exact List.mem_append.1 ht
  cases h with
  | pop _ hnil hout hp =>
      subst hnil
      rw [rejoins_nil hout]
      rcases hp with ⟨h0, h0', hi⟩ | hp
      · exact .idle h0 h0' hi
      · have hself := (mem_tail_iff_of_sort_eq_cons hnd hp k'.running).not.2 fun h => h.2 rfl
        exact .one (mem_of_sort_eq_cons hp) hself
  | stay _ hj _ => exact hstay hj
  | join _ hj _ _ => exact hstay hj
  | yield k₁ _ hj hp hpri =>
      rcases hp with ⟨h0, h0', hi⟩ | hp
      · -- nobody was ready, and the idle thread was running
        refine .idle (List.eq_nil_iff_forall_not_mem.2 fun t ht => ?_) h0' hi
        rw [rejoins_nil (by simp [h0']), List.append_nil] at ht
        simpa [h0] using (mem_yielding hj).2 (Or.inl ht)
      · have hself := (mem_tail_iff_of_sort_eq_cons (yielding_nodup hj hnd hnr hws) hp
          k'.running).not.2 fun h => h.2 rfl
        have hleft := mem_iff_of_sort_eq_cons hp
        rcases (mem_yielding hj).1 (mem_of_sort_eq_cons hp) with hm | ⟨hm, -⟩
        · refine .one ?_ hself
          simp only [List.mem_append] at hm ⊢
          tauto
        · refine .nobody rfl hm (hall fun t ht => ?_)
          rcases (hleft t).1 ((mem_yielding hj).2 (Or.inl ht)) with rfl | ht'
          · rw [hm] at ht
            exact absurd (List.mem_append.1 ht) (not_or.2 ⟨hws, hnr⟩)
          · exact ht'

/-- The thread that yields, unless it is the idle thread. -/
def Kernel.yielder (k : Kernel) : List ThreadPtr :=
  if k.idleThread = some k.running then [] else [k.running]

theorem Yielded.queue (h : Yielded k ws k' k₁) :
    k₁.yielding.readyList = insertAll (compare k₁) (ws ++ k.yielder) k.readyList := by
  unfold Kernel.yielding Kernel.yielder
  rw [h.idle, h.joined.running, h.joined.ready, insertAll_append]
  split <;> rfl

/-- A yield is a step of the queue that its caller joins. -/
theorem Yielded.serves (h : Yielded k ws k' k₁) :
    Serves k₁.priority k.readyList (ws ++ k.yielder) k'.priority k'.readyList := by
  have hp := h.popped
  unfold Popped at hp
  rw [h.queue] at hp
  rcases hp with ⟨h0, h0', -⟩ | hp
  · exact .empty h0 h0'
  · exact .take _ hp

/-- It dispatches one of the queue, its caller included. -/
theorem Yielded.dispatched (h : Yielded k ws k' k₁) (hnd : (ws ++ k.yielder ++ k.readyList).Nodup) :
    Dispatched true k (ws ++ k.yielder ++ k.readyList) k' := by
  have hp := h.popped
  unfold Popped at hp
  rw [h.queue] at hp
  have hperm := @insertAll_perm _ (compare k₁) (ws ++ k.yielder) k.readyList
  rcases hp with ⟨h0, h0', hi⟩ | hp
  · rw [h0] at hperm
    exact .idle hperm.symm.eq_nil h0' hi
  · have hleft := mem_tail_iff_of_sort_eq_cons (hperm.nodup_iff.2 hnd) hp k'.running
    exact .one (hperm.subset (mem_of_sort_eq_cons hp)) (hleft.not.2 fun h => h.2 rfl)

end Turn

/-! ## The steps of the system -/

section Steps

variable {order : Kernel → ThreadPtr → ThreadPtr → Bool} {cfg : Config} {σ σ' : System} {a : Act}
  {t : ThreadPtr} {L : Line ThreadPtr}

/-- Every step but a switch at will; a bare `thread_unblock` is called for a thread that is in a
bare `thread_block`. -/
def QueueUse (σ : System) (a : Act) : Prop :=
  (∀ t, a ≠ .preempt t) ∧ UnblockOk σ a

instance instDecidableQueueUse (σ : System) : (a : Act) → Decidable (QueueUse σ a)
  | .preempt t => .isFalse fun h => h.1 t rfl
  | .call o => decidable_of_iff (UnblockOk σ (.call o)) ⟨fun h => ⟨nofun, h⟩, fun h => h.2⟩
  | .exec => decidable_of_iff (UnblockOk σ .exec) ⟨fun h => ⟨nofun, h⟩, fun h => h.2⟩
  | .tick => decidable_of_iff (UnblockOk σ .tick) ⟨fun h => ⟨nofun, h⟩, fun h => h.2⟩

/-- A step does not make the idle thread ready. -/
theorem Settled.woken_not_idle (h : Settled σ) (hu : UnblockOk σ a)
    (hs : Project2.step cfg a σ = some σ') (ht : t ∈ σ.woken cfg a) : σ.kernel.idleThread ≠ some t := by
  have hop : ∀ op : SemaOp, t ∈ op.wakes σ.kernel → σ.kernel.idleThread ≠ some t := by
    intro op hop
    cases op with
    | upped s =>
        have hmem : t ∈ sort (compare σ.kernel) (σ.kernel.waiters s) :=
          List.mem_of_head? (Option.mem_toList.1 hop)
        exact h.live.idle_ne_of_wait (mem_sort.1 hmem)
    | none | took s | queued s | fresh u => cases hop
  cases a with
  | call op => cases ht
  | exec =>
      rcases step_exec_iff.1 hs with ⟨f, rest, o, hc, hr, -⟩
      have hw : σ.woken cfg .exec = f.wakes cfg σ.kernel := by simp [System.woken, hc]
      rw [hw] at ht
      rcases f.wakes_cases cfg σ.kernel with ⟨u, p, tid, rfl⟩ | ⟨u, rfl⟩ | hf
      · -- a thread in creation
        rw [List.mem_singleton.1 ht]
        intro hi
        exact h.live.idle_not_embryo hi σ.kernel.running (by simp [hc, embryos_cons, Frame.embryo])
      · rw [List.mem_singleton.1 ht]
        intro hi
        have hhead := hu rfl u (by simp [hc])
        rcases h.live.idle_head hi with he | he <;> simp [he] at hhead
      · exact hop _ (hf ▸ ht)
  | tick => exact h.live.idle_ne_of_sleep (List.mem_of_mem_filter ht)
  | preempt u => cases ht

/-- A thread becomes the idle thread while it runs. -/
theorem step_idleThread (hs : Project2.step cfg a σ = some σ') (hi : σ'.kernel.idleThread = some t) :
    σ.kernel.idleThread = some t ∨ t = σ.kernel.running := by
  cases a with
  | call op =>
      rcases step_call_iff.1 hs with ⟨-, rfl⟩
      exact Or.inl hi
  | exec =>
      rcases step_exec_iff.1 hs with ⟨f, rest, o, -, hr, rfl⟩
      have hi' : o.kernel.idleThread = some t := hi
      rw [runFrame_idleThread hr] at hi'
      split at hi'
      · exact Or.inr (Option.some.inj hi').symm
      · exact Or.inl hi'
  | tick =>
      rcases step_tick_iff.1 hs with ⟨-, k, ht, rfl⟩
      rcases timerInterrupt_footprint ht with ⟨_, _, _, _, _, _, _, _, rfl⟩
      exact Or.inl hi
  | preempt u =>
      rcases step_preempt_iff.1 hs with ⟨-, rfl⟩
      exact Or.inl hi

theorem Settled.woken_ready_nodup (h : Settled σ) (hs : Project2.step cfg a σ = some σ') :
    (σ.woken cfg a ++ σ.kernel.readyList).Nodup := by
  refine h.woken_nodup.append h.live.ready_nodup fun t ht hr => ?_
  have hb := h.woken_blocked hs ht
  rw [h.live.status_of_ready hr] at hb
  cases hb

theorem Settled.joins_nodup (h : Settled σ) (hs : Project2.step cfg a σ = some σ') (k' : Kernel) :
    (σ.joins cfg a k' ++ σ.kernel.readyList).Nodup := by
  have hnd := h.woken_ready_nodup hs
  have hrun : σ.kernel.running ∉ σ.woken cfg a ++ σ.kernel.readyList := by
    rw [List.mem_append]
    exact not_or.2 ⟨h.running_not_woken hs, h.running_not_ready⟩
  unfold System.joins System.caller
  split
  · rw [List.append_assoc]
    exact List.perm_middle.nodup_iff.2 (List.nodup_cons.2 ⟨hrun, hnd⟩)
  · rw [List.append_nil]
    exact hnd

theorem System.mem_caller {k' : Kernel} : t ∈ σ.caller a k' ↔ t = σ.kernel.running ∧
    (σ.yields a = true ∧ σ.kernel.idleThread ≠ some σ.kernel.running ∨
      σ.kernel.running ∈ k'.readyList) := by
  unfold System.caller
  split <;> simp_all

/-- The idle thread yields without joining. -/
theorem Settled.caller_of_yields {ws : List ThreadPtr} {k₁ : Kernel} (h : Settled σ')
    (hy : σ.yields a = true) (hyield : Yielded σ.kernel ws σ'.kernel k₁) :
    σ.caller a σ'.kernel = σ.kernel.yielder := by
  unfold System.caller Kernel.yielder
  by_cases hi : σ.kernel.idleThread = some σ.kernel.running
  · have hout : σ.kernel.running ∉ σ'.kernel.readyList := fun hm =>
      ((h.live.placed _).ready.1 hm).2 (hyield.known.trans hi)
    simp [hi, hout]
  · simp [hi, hy]

theorem System.caller_of_not_yields (hy : σ.yields a = false) (k' : Kernel) :
    σ.caller a k' = σ.kernel.rejoins k' := by
  simp [System.caller, Kernel.rejoins, hy]

/-- Whoever leaves the line for the processor is not the idle thread. -/
theorem Settled.given_not_idle (h : Settled σ) (hu : UnblockOk σ a)
    (hs : Project2.step ⟨.calls, order⟩ a σ = some σ')
    (hm : σ'.kernel.running ∈ σ.joins ⟨.calls, order⟩ a σ'.kernel ++ σ.kernel.readyList)
    (hout : σ'.kernel.running ∉ σ'.kernel.readyList) :
    σ'.kernel.idleThread ≠ some σ'.kernel.running := by
  intro hi
  rcases List.mem_append.1 hm with hm | hm
  · rcases List.mem_append.1 hm with hm | hm
    · rcases step_idleThread hs hi with hi | hi
      · exact h.woken_not_idle hu hs hm hi
      · exact h.running_not_woken hs (hi ▸ hm)
    · rcases System.mem_caller.1 hm with ⟨hrun, ⟨hy, hne⟩ | hin⟩
      · obtain ⟨k₁, hyield⟩ := step_yielded hy hs
        rw [hrun, hyield.known] at hi
        exact hne hi
      · exact hout (hrun ▸ hin)
  · rcases step_idleThread hs hi with hi | hi
    · exact ((h.live.placed _).ready.1 hm).2 hi
    · exact h.running_not_ready (hi ▸ hm)

/-- Every step is one of the queue. -/
theorem Called.step_queue (h : Called σ) (hd : Descending σ.kernel.priority σ.kernel.readyList)
    (hu : QueueUse σ a) (hs : Project2.step ⟨.calls, order⟩ a σ = some σ') :
    (∃ key, (∀ t ∈ σ.kernel.readyList, key t = σ.kernel.priority t) ∧
        (∀ t ∈ σ.joins ⟨.calls, order⟩ a σ'.kernel, key t = σ'.kernel.priority t) ∧
        Serves key σ.kernel.readyList (σ.joins ⟨.calls, order⟩ a σ'.kernel) σ'.kernel.priority
          σ'.kernel.readyList) ∧
      Dispatched (σ.yields a) σ.kernel
        (σ.joins ⟨.calls, order⟩ a σ'.kernel ++ σ.kernel.readyList) σ'.kernel := by
  have hset := h.settled
  have hjoin := hset.joins_nodup hs σ'.kernel
  unfold System.joins at hjoin ⊢
  cases hy : σ.yields a with
  | true =>
      obtain ⟨k₁, hyield⟩ := step_yielded hy hs
      rw [(h.step hu.2 hs).settled.caller_of_yields hy hyield] at hjoin ⊢
      exact ⟨⟨k₁.priority, hyield.joined.keys, fun t _ => by rw [hyield.keys], hyield.serves⟩,
        hyield.dispatched hjoin⟩
  | false =>
      have hturn := h.step_turn hu.1 hs
      have hnr := hset.running_not_ready
      have hws := hset.running_not_woken hs
      rw [σ.caller_of_not_yields hy]
      exact ⟨hturn.serves hd hnr hws, hturn.dispatched (hset.woken_ready_nodup hs) hnr hws⟩

/-- What holds of the ready list and its line between two steps. -/
structure Queued (σ : System) (L : Line ThreadPtr) : Prop where
  called : Called σ
  sorted : Descending σ.kernel.priority σ.kernel.readyList
  shows : L.Shows σ.kernel.priority σ.kernel.readyList

theorem Queued.turns (h : Queued σ L) (hu : QueueUse σ a)
    (hs : Project2.step ⟨.calls, order⟩ a σ = some σ') :
    Turns σ a (σ.arrive ⟨.calls, order⟩ L a σ'.kernel) σ'.kernel ∧
      Queued σ' ((σ.arrive ⟨.calls, order⟩ L a σ'.kernel).keep σ'.kernel.readyList) := by
  have hset := h.called.settled
  have hcalled := h.called.step hu.2 hs
  have hset' := hcalled.settled
  obtain ⟨⟨key, hold, hnew, hserves⟩, hdisp⟩ := h.called.step_queue h.sorted hu hs
  have hjoin := hset.joins_nodup hs σ'.kernel
  have hnd' := hset'.live.ready_nodup
  have hsorted := hserves.descending (h.sorted.congr hold)
  refine ⟨?_, hcalled, hsorted, hserves.shows h.shows h.sorted hjoin hnd' hold hnew⟩
  -- the line that has been joined, as a list
  have hperm : (σ.arrive ⟨.calls, order⟩ L a σ'.kernel).queued.Perm
      (σ.joins ⟨.calls, order⟩ a σ'.kernel ++ σ.kernel.readyList) :=
    List.perm_append_comm.trans (h.shows.perm.append_left _)
  have hq := hperm.nodup_iff.2 hjoin
  cases hdisp with
  | nobody hy hrun hall =>
      have hsame : (σ.arrive ⟨.calls, order⟩ L a σ'.kernel).queued.Perm σ'.kernel.readyList := by
        refine (List.perm_ext_iff_of_nodup hq hnd').2 fun t => ?_
        exact ⟨fun ht => hall t (hperm.subset ht),
          fun ht => hperm.symm.subset (List.mem_append.2 (hserves.subset ht))⟩
      refine .stays hy hrun hsame fun hst t ht => ?_
      by_contra hlt
      exact step_goesOn hst hs hrun
        ((outranked_iff hsorted).2 ⟨t, hsame.subset ht, not_le.1 hlt⟩)
  | idle h0 h0' hi =>
      rw [h0] at hperm
      exact .idles hperm.eq_nil h0' hi
  | one hm hout =>
      have hq' := hperm.symm.subset hm
      refine .gives (hset.given_not_idle hu.2 hs hm hout)
        (hserves.gives h.shows h.sorted hjoin hold hnew hq' hout) ?_
      rcases hserves.removes with hp | ⟨x, hp, -⟩
      · exact absurd (hp.symm.subset hm) hout
      · have hx : σ'.kernel.running = x := (List.mem_cons.1 (hp.subset hm)).resolve_right hout
        rw [hx]
        exact hperm.trans hp

theorem boot_queued (init : Nat → Fin unsignedSize) (idle : ThreadPtr) :
    Queued (boot init idle) .empty :=
  ⟨boot_called init idle, List.Pairwise.nil, Line.empty_shows _⟩

theorem queued_of_exec {init : Nat → Fin unsignedSize} {idle : ThreadPtr}
    {tr : List (System × Act)} (h : Exec (Project2.step ⟨.calls, order⟩) (boot init idle) tr σ)
    (hu : ∀ e ∈ tr, QueueUse e.1 e.2) : Queued σ (readyLine ⟨.calls, order⟩ tr) := by
  refine h.history (I := fun tr σ => Queued σ (readyLine ⟨.calls, order⟩ tr))
    (boot_queued init idle) ?_ hu
  intro tr σ a σ' hq ha hs
  rw [readyLine_snoc hs]
  exact (hq.turns ha hs).2

end Steps

/-! ## The ready list in runs -/

/-- The ready list is in order in every state of a run.  `next_thread_to_run` takes one thread of
greatest priority, or the idle thread when there is none; over the run, the thread that a step
dispatches has the greatest priority of those in the line, and those of its priority that stand
ahead of it have changed theirs. -/
theorem ready_queue_refines {init : Nat → Fin unsignedSize} {idle : ThreadPtr} {σ : System}
    {order : Kernel → ThreadPtr → ThreadPtr → Bool} {tr : List (System × Act)}
    (h : Exec (step ⟨.calls, order⟩) (boot init idle) tr σ)
    (hu : ∀ e ∈ tr, QueueUse e.1 e.2) :
    (∀ k : Kernel, k.PicksTop) ∧ σ.kernel.InOrder ∧
      (readyLine ⟨.calls, order⟩ tr).Shows σ.kernel.priority σ.kernel.readyList ∧
      ∀ a σ', QueueUse σ a → step ⟨.calls, order⟩ a σ = some σ' →
        Turns σ a (σ.arrive ⟨.calls, order⟩ (readyLine ⟨.calls, order⟩ tr) a σ'.kernel)
          σ'.kernel := by
  have hq := queued_of_exec h hu
  exact ⟨picksTop, hq.called.settled.inOrder hq.sorted, hq.shows,
    fun a σ' ha hs => (hq.turns ha hs).1⟩

/-- Threads 3, 0 and 2 are ready in this order when thread 2 has taken lock 0; thread 3 creates
thread 4 of priority 40, which calls `lock_acquire`. -/
def overtakeActs : List Act :=
  bootActs ++ createActs 2 31 ++ createActs 3 31 ++
    [.call .threadYield, .exec, .call (.lockAcquire 0), .exec, .call .threadYield, .exec] ++
    createActs 4 40 ++ [.call (.lockAcquire 0)]

def overtakeSystem : System :=
  (runAll (step .calls) overtakeActs (boot allZero 1)).get (by decide +kernel)

/-- The donation to thread 2 lets it overtake the initial thread. -/
def overtakenSystem : System :=
  (step .calls .exec overtakeSystem).get (by decide +kernel)

theorem ready_queue_refines_overtake :
    (readyLine .calls (trace (step .calls) overtakeActs (boot allZero 1))).queued = [0, 2, 3] ∧
      overtakenSystem.kernel.running = 2 ∧
      Turns overtakeSystem .exec (overtakeSystem.arrive .calls
        (readyLine .calls (trace (step .calls) overtakeActs (boot allZero 1))) .exec
          overtakenSystem.kernel) overtakenSystem.kernel := by
  have hrun : Exec (step .calls) (boot allZero 1)
      (trace (step .calls) overtakeActs (boot allZero 1)) overtakeSystem :=
    Exec.of_runAll (Option.some_get _).symm
  have hlaw := ready_queue_refines hrun (by decide +kernel)
  exact ⟨by decide +kernel, by decide +kernel,
    hlaw.2.2.2 .exec overtakenSystem (by decide +kernel) (Option.some_get _).symm⟩

end Project2
end Pintos
