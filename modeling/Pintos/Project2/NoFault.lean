import Pintos.Project2.LockOrder

/-!
# NoFault — the kernel does not fail

With programs that ask for locks in a fixed order, no assertion fails, no null pointer is followed
and the loop of `donate_priority` ends: from the moment the idle thread is known, whatever the
running thread has to execute goes through, and so does the timer interrupt.
-/

namespace Pintos
namespace Project2

open Lib Function

/-! ## Calls that go through -/

section Calls

variable {k : Kernel} {s : SemaPtr} {l : LockPtr} {t : ThreadPtr}

/-- Threads can be switched: no interrupt is being handled, and there is always a next thread. -/
structure Kernel.CanSwitch (k : Kernel) : Prop where
  intrContext : k.intrContext = false
  idle : k.idleThread ≠ none

namespace Kernel.CanSwitch

theorem exists_next (hi : k.idleThread ≠ none) : ∃ t rest, Next k t rest := by
  obtain ⟨i, hi⟩ := Option.ne_none_iff_exists'.1 hi
  by_cases hr : k.readyList = []
  · exact ⟨i, [], Or.inl ⟨hr, rfl, hi⟩⟩
  · obtain ⟨t, rest, hs⟩ := @exists_sort_eq_cons _ (compare k) _ hr
    exact ⟨t, rest, Or.inr hs⟩

theorem threadBlock (h : k.CanSwitch) : ∃ k', threadBlock k = .ok k' := by
  obtain ⟨t, rest, hn⟩ := exists_next (k := k.blocked) h.idle
  exact ⟨_, threadBlock_eq_ok.2 ⟨h.intrContext, t, rest, hn, rfl⟩⟩

theorem threadYield (h : k.CanSwitch) : ∃ k', threadYield k = .ok k' := by
  obtain ⟨t, rest, hn⟩ := exists_next (k := k.yielding) h.idle
  exact ⟨_, threadYield_eq_ok.2 ⟨h.intrContext, t, rest, hn, rfl⟩⟩

theorem threadExit (h : k.CanSwitch) : ∃ k', threadExit k = .ok k' := by
  obtain ⟨t, rest, hn⟩ := exists_next (k := k.exiting) h.idle
  exact ⟨_, threadExit_eq_ok.2 ⟨h.intrContext, t, rest, hn, rfl⟩⟩

theorem stealRunningByPriority (h : k.CanSwitch) : ∃ k', stealRunningByPriority k = .ok k' := by
  by_cases ho : k.Outranked
  · obtain ⟨k', hk'⟩ := h.threadYield
    exact ⟨k', stealRunningByPriority_eq_ok.2 (Or.inl ⟨ho, hk'⟩)⟩
  · exact ⟨k, stealRunningByPriority_eq_ok.2 (Or.inr ⟨ho, rfl⟩)⟩

theorem semaDownTurn (h : k.CanSwitch) (s : SemaPtr) : ∃ r, semaDownTurn k s = .ok r := by
  by_cases hv : k.value s = 0
  · have hq : (k.queued s).CanSwitch := ⟨h.intrContext, h.idle⟩
    obtain ⟨k', hk'⟩ := hq.threadBlock
    exact ⟨(k', false), semaDownTurn_eq_ok.2 (Or.inl ⟨hv, rfl, hk'⟩)⟩
  · exact ⟨(k.lowered s, true), semaDownTurn_eq_ok.2 (Or.inr ⟨hv, rfl, rfl⟩)⟩

theorem semaDown (h : k.CanSwitch) (s : SemaPtr) : ∃ r, semaDown k s = .ok r := by
  obtain ⟨⟨k', got⟩, hr⟩ := h.semaDownTurn s
  exact ⟨(k', got), semaDown_eq_ok.2 ⟨h.intrContext, hr⟩⟩

theorem semaUp (h : k.CanSwitch) (hw : ∀ t ∈ k.waiters s, k.status t = .blocked) :
    ∃ k', semaUp k s = .ok k' := by
  have hwake : ∃ k₁, semaWake k s = .ok k₁ := by
    by_cases hnil : k.waiters s = []
    · exact ⟨k, semaWake_eq_ok.2 (Or.inl ⟨hnil, rfl⟩)⟩
    · obtain ⟨t, rest, hs⟩ := @exists_sort_eq_cons _ (compare k) _ hnil
      exact ⟨_, semaWake_eq_ok.2 (Or.inr ⟨t, rest, hs, hw t (mem_of_sort_eq_cons hs), rfl⟩)⟩
  obtain ⟨k₁, hk₁⟩ := hwake
  have hraised : (k₁.raised s).CanSwitch := by
    obtain ⟨_, _, _, _, _, _, rfl⟩ := semaWake_footprint hk₁
    exact ⟨h.intrContext, h.idle⟩
  obtain ⟨k', hk'⟩ := hraised.stealRunningByPriority
  exact ⟨k', semaUp_eq_ok.2 ⟨k₁, hk₁, hk'⟩⟩

theorem condSignal (h : k.CanSwitch) {order : Kernel → ThreadPtr → ThreadPtr → Bool} {c : CondPtr}
    (hl : k.holder l = some k.running)
    (hw : ∀ w, ∀ t ∈ k.waiters (.waiter w), k.status t = .blocked) :
    ∃ k', condSignal order k c l = .ok k' := by
  by_cases hnil : k.condWaiters c = []
  · exact ⟨k, condSignal_eq_ok.2 ⟨h.intrContext, hl, Or.inl ⟨hnil, rfl⟩⟩⟩
  · obtain ⟨w, rest, hs⟩ := @exists_sort_eq_cons _ (order k) _ hnil
    let k₁ : Kernel := { k with condWaiters := update k.condWaiters c rest }
    have h₁ : k₁.CanSwitch := ⟨h.intrContext, h.idle⟩
    obtain ⟨k', hk'⟩ := h₁.semaUp (hw w)
    exact ⟨k', condSignal_eq_ok.2 ⟨h.intrContext, hl, Or.inr ⟨w, rest, hs, hk'⟩⟩⟩

theorem lockRelease (h : k.CanSwitch) (hl : k.holder l = some k.running)
    (hw : ∀ t ∈ k.waiters (.ofLock l), k.status t = .blocked) : ∃ k', lockRelease k l = .ok k' := by
  have hreleased : ∃ k', Project2.semaUp (k.released l) (.ofLock l) = .ok k' := by
    obtain ⟨_, _, _, hrel⟩ := released_footprint k l
    rw [hrel]
    exact semaUp ⟨h.intrContext, h.idle⟩ hw
  obtain ⟨k', hk'⟩ := hreleased
  exact ⟨k', lockRelease_eq_ok.2 ⟨hl, hk'⟩⟩

theorem lockAcquire (h : k.CanSwitch) (hl : k.holder l ≠ some k.running)
    (hd : ∃ k', lockDonate k l = .ok k') : ∃ r, lockAcquire k l = .ok r := by
  obtain ⟨k₁, hk₁⟩ := hd
  have h₁ : k₁.CanSwitch := by
    obtain ⟨_, _, _, _, rfl⟩ := lockDonate_footprint hk₁
    exact ⟨h.intrContext, h.idle⟩
  obtain ⟨⟨k₂, got⟩, hdown⟩ := h₁.semaDown (.ofLock l)
  exact ⟨(_, got), lockAcquire_eq_ok.2 ⟨h.intrContext, hl, k₁, k₂, hk₁, hdown, rfl⟩⟩

theorem threadStartNew (h : k.CanSwitch) (hb : k.status t = .blocked) (p tid : Int) :
    ∃ k', threadStartNew k t p tid = .ok k' := by
  have hstarted : (k.started t tid).CanSwitch := ⟨h.intrContext, h.idle⟩
  by_cases hp : k.priority k.running < p
  · obtain ⟨k', hk'⟩ := hstarted.threadYield
    exact ⟨k', threadStartNew_eq_ok.2 ⟨hb, Or.inl ⟨hp, hk'⟩⟩⟩
  · exact ⟨_, threadStartNew_eq_ok.2 ⟨hb, Or.inr ⟨not_lt.1 hp, rfl⟩⟩⟩

theorem threadSetPriority (h : k.CanSwitch) (p : Int) : ∃ k', threadSetPriority k p = .ok k' := by
  obtain ⟨_, _, hreset⟩ := resetPriority_footprint { k with
    priority := update k.priority k.running p
    initPriority := update k.initPriority k.running p }
  unfold Project2.threadSetPriority
  rw [hreset]
  exact stealRunningByPriority ⟨h.intrContext, h.idle⟩

theorem awakeLoop {now : Int} {ts : List ThreadPtr} (hnd : ts.Nodup)
    (hts : ∀ t ∈ ts, k.status t = .blocked) : ∃ k', awakeLoop now ts k = .ok k' := by
  induction ts generalizing k with
  | nil =>
      exact ⟨k, rfl⟩
  | cons t ts ih =>
      obtain ⟨ht, hnd⟩ := List.nodup_cons.1 hnd
      unfold Project2.awakeLoop
      by_cases hd : k.sleepingTicks t ≤ now
      · rw [if_pos hd]
        have hu : threadUnblock { k with sleepingList := k.sleepingList.erase t } t =
            .ok (k.awakened t) :=
          threadUnblock_eq_ok.2 ⟨hts t List.mem_cons_self, rfl⟩
        have hrest : ∀ u ∈ ts, (k.awakened t).status u = .blocked := by
          intro u hu
          have hne : u ≠ t := fun e => ht (e ▸ hu)
          simpa [Kernel.awakened, Kernel.madeReady, hne] using hts u (List.mem_cons_of_mem _ hu)
        obtain ⟨k', hk'⟩ := ih hnd hrest
        exact ⟨k', bind_eq_ok.2 ⟨_, hu, hk'⟩⟩
      · rw [if_neg hd]
        exact ih hnd fun u hu => hts u (List.mem_cons_of_mem _ hu)

theorem timerInterrupt (h : k.CanSwitch) (hnd : k.sleepingList.Nodup)
    (hs : ∀ t ∈ k.sleepingList, k.status t = .blocked) : ∃ k', timerInterrupt k = .ok k' := by
  obtain ⟨k₁, hk₁⟩ : ∃ k₁, Project2.awakeLoop k.now k.sleepingList k.ticked = .ok k₁ :=
    awakeLoop hnd hs
  have h₁ : k₁.returned.CanSwitch := by
    obtain ⟨_, _, _, rfl⟩ := awakeLoop_footprint hk₁
    exact ⟨rfl, h.idle⟩
  by_cases hslice : TIME_SLICE ≤ k.threadTicks + 1
  · obtain ⟨k', hk'⟩ := h₁.threadYield
    exact ⟨k', timerInterrupt_eq_ok.2 ⟨k₁, hk₁, Or.inl ⟨hslice, hk'⟩⟩⟩
  · exact ⟨_, timerInterrupt_eq_ok.2 ⟨k₁, hk₁, Or.inr ⟨not_le.1 hslice, rfl⟩⟩⟩

end Kernel.CanSwitch

/-- With a priority that exists, `thread_create` can only be refused the page. -/
theorem threadCreate_cases {p : Int} (t : ThreadPtr) (hp : PRI_MIN ≤ p ∧ p ≤ PRI_MAX) :
    threadCreate k t p = .ok (initThread k t p) ∨ threadCreate k t p = .error .pageInUse := by
  by_cases hpage : t ∉ k.allList ∧ t ≠ initialThread
  · exact Or.inl (threadCreate_eq_ok.2 ⟨hpage, hp, rfl⟩)
  · exact Or.inr (bind_eq_error.2 (Or.inl (assert_eq_error.2 ⟨hpage, rfl⟩)))

end Calls

/-! ## Every frame goes through -/

section Frames

variable {rank : LockPtr → Nat} {σ : System} {order : Kernel → ThreadPtr → ThreadPtr → Bool}
  {f : Frame} {rest : List Frame}

theorem LockOrdered.runFrame_ok (h : LockOrdered rank σ) (hidle : σ.kernel.idleThread ≠ none)
    (hc : σ.code σ.kernel.running = f :: rest) :
    (∃ o, runFrame ⟨.calls, order⟩ σ.kernel f = .ok o) ∨
      runFrame ⟨.calls, order⟩ σ.kernel f = .error .pageInUse := by
  have hcoarse := h.linked.coarse
  have hlive := hcoarse.live
  have hmem : f ∈ σ.code σ.kernel.running := by simp [hc]
  have hswitch : σ.kernel.CanSwitch := ⟨hcoarse.settled.interrupts, hidle⟩
  have hwait : ∀ s, ∀ t ∈ σ.kernel.waiters s, σ.kernel.status t = .blocked := fun s t ht =>
    (hlive.wait ht).1
  have htyped := hcoarse.own.typed σ.kernel.running
  have hord := h.ordered σ.kernel.running
  rw [hc] at htyped hord
  have hholder : ∀ l ∈ σ.held σ.kernel.running, σ.kernel.holder l = some σ.kernel.running :=
    fun l hl => hcoarse.holder_iff.2 hl
  cases f with
  | acquireEntry | tryEntry | tryDown | releaseEntry | stmt =>
      cases hcoarse.coarse _ _ hmem
  | threadBlock | blockReturn | threadUnblock t =>
      cases h.linked.bare _ _ hmem
  | down s after =>
      obtain ⟨⟨k', got⟩, hr⟩ := hswitch.semaDown s
      exact Or.inl ⟨_, bind_eq_ok.2 ⟨_, hr, rfl⟩⟩
  | downLoop s after =>
      obtain ⟨⟨k', got⟩, hr⟩ := hswitch.semaDownTurn s
      exact Or.inl ⟨_, bind_eq_ok.2 ⟨_, hr, rfl⟩⟩
  | semaUp s =>
      obtain ⟨k', hr⟩ := hswitch.semaUp (hwait s)
      exact Or.inl ⟨_, bind_eq_ok.2 ⟨_, hr, rfl⟩⟩
  | lockAcquire l =>
      have hfree : σ.kernel.holder l ≠ some σ.kernel.running := fun hl =>
        lt_irrefl _ (h.asks hc hl)
      obtain ⟨⟨k', got⟩, hr⟩ := hswitch.lockAcquire hfree (h.lockDonate_ok hc)
      cases got with
      | true =>
          exact Or.inl ⟨_, bind_eq_ok.2 ⟨_, hr, rfl⟩⟩
      | false =>
          exact Or.inl ⟨_, bind_eq_ok.2 ⟨_, hr, rfl⟩⟩
  | lockTryAcquire l =>
      have hfree : σ.kernel.holder l ≠ some σ.kernel.running := fun hl =>
        hord.1 (hcoarse.holder_iff.1 hl)
      have hr := lockTryAcquire_eq_ok.2 ⟨hfree, rfl, rfl⟩
      exact Or.inl ⟨_, bind_eq_ok.2 ⟨_, hr, rfl⟩⟩
  | lockRelease l =>
      obtain ⟨k', hr⟩ := hswitch.lockRelease (hholder l htyped.1) (hwait _)
      exact Or.inl ⟨_, bind_eq_ok.2 ⟨_, hr, rfl⟩⟩
  | condEnqueue c l =>
      have hr : condEnqueue order σ.kernel c l = .ok (σ.kernel.enqueued order c) :=
        condEnqueue_eq_ok.2 ⟨hswitch.intrContext, hholder l htyped.1, rfl⟩
      exact Or.inl ⟨_, bind_eq_ok.2 ⟨_, hr, rfl⟩⟩
  | condSignal c l =>
      obtain ⟨k', hr⟩ := hswitch.condSignal (hholder l hord.1) fun w => hwait (.waiter w)
      exact Or.inl ⟨_, bind_eq_ok.2 ⟨_, hr, rfl⟩⟩
  | condBroadcast c l =>
      by_cases hnil : σ.kernel.condWaiters c = []
      · exact Or.inl ⟨_, if_pos hnil⟩
      · obtain ⟨k', hr⟩ := hswitch.condSignal (hholder l hord.1) fun w => hwait (.waiter w)
        exact Or.inl ⟨_, (if_neg hnil).trans (bind_eq_ok.2 ⟨_, hr, rfl⟩)⟩
  | threadCreate t p =>
      rcases threadCreate_cases (k := σ.kernel) t hord.1.1 with hr | hr
      · exact Or.inl ⟨_, bind_eq_ok.2 ⟨_, hr, rfl⟩⟩
      · exact Or.inr (bind_eq_error.2 (Or.inl hr))
  | threadStart t =>
      rcases threadCreate_cases (k := σ.kernel) t (p := PRI_MIN) (by decide) with hr | hr
      · exact Or.inl ⟨_, bind_eq_ok.2 ⟨_, hr, rfl⟩⟩
      · exact Or.inr (bind_eq_error.2 (Or.inl hr))
  | startNew t p tid =>
      have hembryo : t ∈ embryos (σ.code σ.kernel.running) := List.mem_filterMap.2 ⟨_, hmem, rfl⟩
      have hblocked := ((hlive.placed t).embryo _ hembryo).1
      obtain ⟨k', hr⟩ := hswitch.threadStartNew hblocked p tid
      exact Or.inl ⟨_, bind_eq_ok.2 ⟨_, hr, rfl⟩⟩
  | threadYield =>
      obtain ⟨k', hr⟩ := hswitch.threadYield
      exact Or.inl ⟨_, bind_eq_ok.2 ⟨_, hr, rfl⟩⟩
  | threadExit =>
      obtain ⟨k', hr⟩ := hswitch.threadExit
      exact Or.inl ⟨_, bind_eq_ok.2 ⟨_, hr, rfl⟩⟩
  | threadSetPriority p =>
      obtain ⟨k', hr⟩ := hswitch.threadSetPriority p
      exact Or.inl ⟨_, bind_eq_ok.2 ⟨_, hr, rfl⟩⟩
  | sleepUntil d =>
      have hsleep : (threadToSleep σ.kernel d).CanSwitch := ⟨hswitch.intrContext, hswitch.idle⟩
      obtain ⟨k', hr⟩ := hsleep.threadBlock
      exact Or.inl ⟨_, bind_eq_ok.2 ⟨_, hr, rfl⟩⟩
  | idleUp =>
      obtain ⟨k', hr⟩ := hswitch.semaUp (hwait .idleStarted)
      exact Or.inl ⟨_, bind_eq_ok.2 ⟨_, hr, rfl⟩⟩
  | idleLoop =>
      obtain ⟨k', hr⟩ := hswitch.threadBlock
      exact Or.inl ⟨_, bind_eq_ok.2 ⟨_, hr, rfl⟩⟩
  | _ =>
      exact Or.inl ⟨_, rfl⟩

/-- From the moment the idle thread is known, the frame that the running thread has to execute goes
through, unless it asks for a page that is in use, and so does the timer interrupt. -/
theorem kernel_never_fails {init : Nat → Fin unsignedSize} {idle : ThreadPtr}
    (h : Reach (step ⟨.calls, order⟩) (OrderUse rank) (boot init idle) σ)
    (hidle : σ.kernel.idleThread ≠ none) :
    (∀ f ∈ (σ.code σ.kernel.running).head?, (∃ o, runFrame ⟨.calls, order⟩ σ.kernel f = .ok o) ∨
        runFrame ⟨.calls, order⟩ σ.kernel f = .error .pageInUse) ∧
      ∃ k, timerInterrupt σ.kernel = .ok k := by
  have ho := lockOrdered_of_reach h
  have hlive := ho.linked.coarse.live
  have hswitch : σ.kernel.CanSwitch := ⟨ho.linked.coarse.settled.interrupts, hidle⟩
  refine ⟨fun f hf => ?_, hswitch.timerInterrupt hlive.sleep_nodup fun t ht => (hlive.sleep ht).1⟩
  obtain ⟨rest, hc⟩ := List.head?_eq_some_iff.1 hf
  exact ho.runFrame_ok hidle hc

/-- Thread 3 is about to ask for lock 1, whose holder waits for lock 0. -/
def askActs : List Act :=
  raiseActs ++ [.call (.lockAcquire 1)]

def askSystem : System :=
  (runAll (step .calls) askActs (boot allZero 1)).get (by decide +kernel)

theorem kernel_never_fails_ask :
    (∃ o, runFrame .calls askSystem.kernel (.lockAcquire (.lock 1)) = .ok o) ∨
      runFrame .calls askSystem.kernel (.lockAcquire (.lock 1)) = .error .pageInUse := by
  have hrun : Exec (step .calls) (boot allZero 1) (trace (step .calls) askActs (boot allZero 1))
      askSystem := Exec.of_runAll (Option.some_get _).symm
  have hreach : Reach (step .calls) (OrderUse rankByNumber) (boot allZero 1) askSystem :=
    hrun.reach (by decide +kernel)
  exact (kernel_never_fails hreach (by decide +kernel)).1 _ (by decide +kernel)

end Frames

end Project2
end Pintos
