import Pintos.Project2.Wakeups

/-!
# CondOrder — `compare_sema` and the order in which waiters are released

`compare_sema` compares two waiters by the first thread that waits on the semaphore of each.

* `compare_sema_occupied_iff`: `cond_wait` inserts a waiter whose semaphore is still empty, so the
  function is handed semaphores that all have a waiter as long as no two threads wait on one
  condition, and no longer;
* `cond_releases_top`: once all waiters are asleep the order is that of the current priorities.
-/

namespace Pintos
namespace Project2

open Lib Function

/-! ## The evaluations of `compare_sema` -/

section Comparisons

-- the calls of its comparison that `list_sort` makes; `list.c` is not among the sources
variable (calls : (ThreadPtr → ThreadPtr → Bool) → List ThreadPtr → List (ThreadPtr × ThreadPtr))

/-- The pairs of waiters that a frame hands to `compare_sema`. -/
def Frame.comparisons (k : Kernel) : Frame → List (ThreadPtr × ThreadPtr)
  | .condEnqueue c _ =>
      insertComparisons (compareSema (semaInit k (.waiter k.running) 0)) k.running
        (k.condWaiters c)
  | .condSignal c _ | .condBroadcast c _ =>
      if k.condWaiters c = [] then [] else calls (compareSema k) (k.condWaiters c)
  | _ => []

/-- The memory in which they are compared: `cond_wait` has initialised its semaphore. -/
def Frame.comparedIn (k : Kernel) : Frame → Kernel
  | .condEnqueue _ _ => semaInit k (.waiter k.running) 0
  | _ => k

/-- Somebody waits on the semaphore of `w`. -/
def Kernel.Occupied (k : Kernel) (w : ThreadPtr) : Prop :=
  k.waiters (.waiter w) ≠ []

instance instDecidableOccupied (k : Kernel) (w : ThreadPtr) : Decidable (k.Occupied w) :=
  inferInstanceAs (Decidable (_ ≠ _))

/-- Every evaluation of `compare_sema` in the step is on two occupied semaphores. -/
def ComparesOccupied (σ : System) (a : Act) : Prop :=
  a = .exec → ∀ f ∈ (σ.code σ.kernel.running).head?, ∀ e ∈ f.comparisons calls σ.kernel,
    (f.comparedIn σ.kernel).Occupied e.1 ∧ (f.comparedIn σ.kernel).Occupied e.2

def Frame.enqueues : Frame → Option CondPtr
  | .condEnqueue c _ => some c
  | _ => none

/-- A `cond_wait` finds no waiter on its condition. -/
def WaitsAlone (σ : System) (a : Act) : Prop :=
  a = .exec → ∀ f ∈ (σ.code σ.kernel.running).head?, ∀ c ∈ f.enqueues, σ.kernel.condWaiters c = []

instance instDecidableComparesOccupied (σ : System) (a : Act) :
    Decidable (ComparesOccupied calls σ a) :=
  inferInstanceAs (Decidable (a = .exec → ∀ f ∈ (σ.code σ.kernel.running).head?, _))

instance instDecidableWaitsAlone (σ : System) (a : Act) : Decidable (WaitsAlone σ a) :=
  inferInstanceAs (Decidable (a = .exec → ∀ f ∈ (σ.code σ.kernel.running).head?, _))

variable {calls} {cfg : Config} {σ σ' : System} {a : Act}

/-- The new waiter's own semaphore is empty when it is compared. -/
theorem waitsAlone_of_occupied (h : ComparesOccupied calls σ a) : WaitsAlone σ a := by
  intro ha f hf c hc
  cases f with
  | condEnqueue c' l =>
      cases hc
      have hocc := h ha _ hf
      cases hw : σ.kernel.condWaiters c with
      | nil => rfl
      | cons e ws =>
          have hmem : (σ.kernel.running, e) ∈
              (Frame.condEnqueue c l).comparisons calls σ.kernel := by
            simp [Frame.comparisons, hw, insertComparisons]
          exact absurd (hocc _ hmem).1 (by simp [Frame.comparedIn, Kernel.Occupied, semaInit])
  | _ => cases hc

/-- One waiter is not compared with anything. -/
theorem occupied_of_waitsAlone (hcalls : ComparesMembers calls)
    (hone : ∀ c, (σ.kernel.condWaiters c).length ≤ 1) (h : WaitsAlone σ a) :
    ComparesOccupied calls σ a := by
  intro ha f hf e he
  cases f with
  | condEnqueue c l =>
      have h0 : σ.kernel.condWaiters c = [] := h ha _ hf c rfl
      simp [Frame.comparisons, h0, insertComparisons] at he
  | condSignal c l | condBroadcast c l => simp [Frame.comparisons, hcalls.eq_nil (hone c)] at he
  | _ => cases he

theorem condSignal_length {order : Kernel → ThreadPtr → ThreadPtr → Bool} {k k' : Kernel}
    {c : CondPtr} {l : LockPtr} (h : condSignal order k c l = .ok k') (c' : CondPtr) :
    (k'.condWaiters c').length ≤ (k.condWaiters c').length := by
  rcases condSignal_eq_ok.1 h with ⟨-, -, ⟨-, rfl⟩ | ⟨w, rest, hs, hu⟩⟩
  · exact le_rfl
  · rcases semaUp_footprint hu with ⟨_, _, _, _, _, _, rfl⟩
    by_cases hc : c' = c
    · subst hc
      have hlen := (perm_of_sort_eq_cons hs).length_eq
      simp [hlen]
    · simp [hc]

/-- A condition's waiters only become more in `cond_wait`. -/
theorem runFrame_length {k : Kernel} {f : Frame} {o : Outcome} (hr : runFrame cfg k f = .ok o)
    (c : CondPtr) (hf : f.enqueues ≠ some c) :
    (o.kernel.condWaiters c).length ≤ (k.condWaiters c).length := by
  cases f with
  | condEnqueue c' l =>
      obtain ⟨k₁, hd, hr⟩ := bind_eq_ok.1 hr
      cases hr
      obtain ⟨-, -, rfl⟩ := condEnqueue_eq_ok.1 hd
      have hc : c ≠ c' := fun e => hf (by rw [e]; rfl)
      simp [Kernel.done, Kernel.enqueued, semaInit, hc]
  | condSignal c' l =>
      obtain ⟨k₁, hd, hr⟩ := bind_eq_ok.1 hr
      cases hr
      exact condSignal_length hd c
  | condBroadcast c' l =>
      simp only [runFrame] at hr
      split at hr
      · cases hr
        exact le_rfl
      · obtain ⟨k₁, hd, hr⟩ := bind_eq_ok.1 hr
        cases hr
        exact condSignal_length hd c
  | down s after | downLoop s after =>
      rw [(runFrame_unwritten hr).condWaiters (by cases after <;> simp [Frame.writes,
        AfterDown.writes])]
  | _ => rw [(runFrame_unwritten hr).condWaiters (by simp [Frame.writes])]

theorem WaitsAlone.step (ha : WaitsAlone σ a) (hone : ∀ c, (σ.kernel.condWaiters c).length ≤ 1)
    (hs : Project2.step cfg a σ = some σ') (c : CondPtr) :
    (σ'.kernel.condWaiters c).length ≤ 1 := by
  cases a with
  | call op =>
      obtain ⟨-, rfl⟩ := step_call_iff.1 hs
      exact hone c
  | exec =>
      obtain ⟨f, rest, o, hc, hr, rfl⟩ := step_exec_iff.1 hs
      by_cases hf : f.enqueues = some c
      · have h0 : σ.kernel.condWaiters c = [] := ha rfl f (by rw [hc]; rfl) c hf
        cases f with
        | condEnqueue c' l =>
            cases hf
            obtain ⟨k₁, hd, hr⟩ := bind_eq_ok.1 hr
            cases hr
            obtain ⟨-, -, rfl⟩ := condEnqueue_eq_ok.1 hd
            simp [System.after, Kernel.done, Kernel.enqueued, h0, insertOrdered]
        | _ => cases hf
      · exact (runFrame_length hr c hf).trans (hone c)
  | tick =>
      obtain ⟨-, k, ht, rfl⟩ := step_tick_iff.1 hs
      rcases timerInterrupt_footprint ht with ⟨_, _, _, _, _, _, _, _, rfl⟩
      exact hone c
  | preempt t =>
      obtain ⟨-, rfl⟩ := step_preempt_iff.1 hs
      exact hone c

/-- In every run, under every interleaving, `compare_sema` is only evaluated on occupied semaphores
exactly when every `cond_wait` finds its condition without waiters. -/
theorem compare_sema_occupied_iff {grain : Grain} {init : Nat → Fin unsignedSize}
    {idle : ThreadPtr} {tr : List (System × Act)} (hcalls : ComparesMembers calls)
    (hrun : Exec (step ⟨grain, compareSema⟩) (boot init idle) tr σ) :
    (∀ e ∈ tr, ComparesOccupied calls e.1 e.2) ↔ ∀ e ∈ tr, WaitsAlone e.1 e.2 := by
  constructor
  · exact fun h e he => waitsAlone_of_occupied (h e he)
  · intro h
    suffices hboth : (∀ c, (σ.kernel.condWaiters c).length ≤ 1) ∧
        ∀ e ∈ tr, ComparesOccupied calls e.1 e.2 from hboth.2
    induction hrun with
    | nil =>
        have hnobody : ∀ c, (boot init idle).kernel.condWaiters c = [] := fun _ => rfl
        refine ⟨fun c => ?_, fun e he => absurd he List.not_mem_nil⟩
        rw [hnobody]
        exact Nat.zero_le 1
    | @snoc tr σ σ' a _ hs ih =>
        have ha : WaitsAlone σ a := by
          simpa using h (σ, a) (List.mem_append_right _ List.mem_cons_self)
        obtain ⟨hone, hocc⟩ := ih fun e he => h e (by simp [he])
        refine ⟨ha.step hone hs, fun e he => ?_⟩
        rcases List.mem_append.1 he with he | he
        · exact hocc e he
        · rw [List.mem_singleton.1 he]
          exact occupied_of_waitsAlone hcalls hone ha

/-- Thread 2 waits for condition 0, and the initial thread releases it. -/
def aloneActs : List Act :=
  waitActs ++ [.exec]

def aloneSystem : System :=
  (runAll (step .calls) aloneActs (boot allZero 1)).get (by decide +kernel)

theorem compare_sema_occupied_iff_alone :
    (waitSystem.kernel.condWaiters 0 = [2] ∧ aloneSystem.kernel.condWaiters 0 = []) ∧
      ∀ e ∈ trace (step .calls) aloneActs (boot allZero 1),
        ComparesOccupied adjacentPairs e.1 e.2 := by
  have hrun : Exec (step .calls) (boot allZero 1) (trace (step .calls) aloneActs (boot allZero 1))
      aloneSystem := Exec.of_runAll (Option.some_get _).symm
  exact ⟨⟨by decide +kernel, by decide +kernel⟩,
    (@compare_sema_occupied_iff adjacentPairs _ .calls _ _ _ comparesMembers_adjacent hrun).2
      (by decide +kernel)⟩

/-- Threads 2 and 3 wait for condition 0, each called with the lock held. -/
def crowdActs : List Act :=
  bootActs ++ createActs 2 40 ++
    [.call (.lockAcquire 0), .exec, .call (.condWait 0 0), .exec, .exec, .exec] ++
      createActs 3 50 ++ [.call (.lockAcquire 0), .exec, .call (.condWait 0 0), .exec]

/-- The second `cond_wait` hands `compare_sema` the semaphore that it has just initialised. -/
theorem compare_sema_unoccupied :
    (∃ σ, Exec (step .calls) (boot allZero 1) (trace (step .calls) crowdActs (boot allZero 1)) σ ∧
      σ.kernel.condWaiters 0 = [2, 3]) ∧
      (∀ e ∈ trace (step .calls) crowdActs (boot allZero 1), CondUse (fun _ => 0) e.1 e.2) ∧
      ¬ ∀ e ∈ trace (step .calls) crowdActs (boot allZero 1),
        ComparesOccupied adjacentPairs e.1 e.2 := by
  refine ⟨⟨(runAll (step .calls) crowdActs (boot allZero 1)).get (by decide +kernel),
    Exec.of_runAll (Option.some_get _).symm, by decide +kernel⟩, by decide +kernel,
    by decide +kernel⟩

end Comparisons

/-! ## Waiters that are asleep -/

/-- Every waiter of `c` is asleep on its own semaphore. -/
def Kernel.AllAsleep (k : Kernel) (c : CondPtr) : Prop :=
  ∀ w ∈ k.condWaiters c, k.status w = .blocked ∧ k.waiters (.waiter w) = [w]

instance instDecidableAllAsleep (k : Kernel) (c : CondPtr) : Decidable (k.AllAsleep c) :=
  inferInstanceAs (Decidable (∀ w ∈ k.condWaiters c, _))

/-- The waiter `w` has been released: it had the highest priority of all waiters, it alone has left
them, its semaphore is up, and it is awake when it was in no other list. -/
structure TopReleased (k k' : Kernel) (c : CondPtr) (w : ThreadPtr) : Prop where
  top : ∀ u ∈ k.condWaiters c, k.priority u ≤ k.priority w
  removed : (k.condWaiters c).Perm (w :: k'.condWaiters c)
  elsewhere : ∀ c', c' ≠ c → k'.condWaiters c' = k.condWaiters c'
  value : k'.value (.waiter w) = (k.value (.waiter w) + 1) % unsignedSize
  unblocked : k'.status w ≠ .blocked
  awake : w ≠ k.running → w ∉ k.readyList → k'.Awake w
  gone : k'.waiters (.waiter w) = []

section Release

variable {k : Kernel} {c : CondPtr} {l : LockPtr}

/-- For sleepers `compare_sema` compares priorities. -/
theorem Kernel.AllAsleep.sort_eq (h : k.AllAsleep c) :
    sort (compareSema k) (k.condWaiters c) = sort (byKey k.priority) (k.condWaiters c) :=
  sort_congr fun w hw => by simp [semaWord, (h w hw).2]

/-- A signal of a condition whose waiters are all asleep, in whatever order they are queued. -/
theorem condSignal_top (h : k.AllAsleep c) (hne : k.condWaiters c ≠ [])
    (hi : k.intrContext = false) (hl : k.holder l = some k.running) :
    ∃ w k', condSignal compareSema k c l = .ok k' ∧ TopReleased k k' c w := by
  obtain ⟨w, rest, hs⟩ := @exists_sort_eq_cons _ (compareSema k) _ hne
  have hw : w ∈ k.condWaiters c := mem_of_sort_eq_cons hs
  obtain ⟨hb, hown⟩ := h w hw
  obtain ⟨k', hu⟩ := (@semaUp_ok_iff { k with condWaiters := update k.condWaiters c rest }
    (.waiter w) fun t ht => by
      have ht' : t ∈ k.waiters (.waiter w) := ht
      rw [hown, List.mem_singleton] at ht'
      exact ht' ▸ hb).2 fun hh => by
        rw [show ({ k with condWaiters := update k.condWaiters c rest } : Kernel).intrContext =
          false from hi] at hh
        cases hh
  have hvalue := semaUp_value hu
  have hcond : k'.condWaiters = update k.condWaiters c rest := by
    rcases semaUp_footprint hu with ⟨_, _, _, _, _, _, rfl⟩
    rfl
  -- the only thread that can be woken is `w` itself
  have hwoken : k'.waiters (.waiter w) = [] ∧ k'.status w ≠ .blocked ∧
      (w ≠ k.running → w ∉ k.readyList → k'.Awake w) := by
    rcases semaUp_woken hu with ⟨h0, -⟩ | ⟨t, hperm, hawake⟩
    · have h0' : k.waiters (.waiter w) = [] := h0
      rw [hown] at h0'
      cases h0'
    · have hperm' : (k.waiters (.waiter w)).Perm (t :: k'.waiters (.waiter w)) := hperm
      rw [hown] at hperm'
      obtain ⟨ht, hrest⟩ := List.cons.inj (List.singleton_perm.1 hperm')
      subst ht
      exact ⟨hrest.symm, hawake⟩
  refine ⟨w, k', condSignal_eq_ok.2 ⟨hi, hl, Or.inr ⟨w, rest, hs, hu⟩⟩, fun u hu => ?_, ?_,
    fun c' hc' => ?_, hvalue, hwoken.2.1, hwoken.2.2, hwoken.1⟩
  · rw [h.sort_eq] at hs
    exact le_of_sort_eq_cons hs hu
  · rw [hcond, update_self]
    exact perm_of_sort_eq_cons hs
  · rw [hcond, update_of_ne hc']

end Release

/-! ## Waiters stay asleep until they are released -/

section Steps

variable {lockOf : CondPtr → Nat} {cfg : Config} {σ σ' : System} {p : ThreadPtr → Phase CondPtr}
  {a : Act} {k : Kernel} {f : Frame} {t w : ThreadPtr} {rest : List Frame}

/-- Only a signal of its condition comes to the semaphore of a waiter. -/
theorem InWait.upped_waiter {g : Grain} {q : Phase CondPtr} (hin : InWait lockOf g t q (f :: rest))
    (hop : f.semaOp cfg k = .upped (.waiter w)) :
    ∃ c, f.condEvent cfg k = some (.wake w c) ∧ w ∈ k.condWaiters c := by
  cases hin.head with
  | other hf _ =>
      rcases @condEvent_cases cfg k f hf with ⟨c, l, w', ws, hsig, hs, hev⟩ | ⟨-, -, hsem⟩
      · have hop' : f.semaOp cfg k = .upped (.waiter w') := by
          rcases hsig with rfl | rfl <;> simp [Frame.semaOp, SemaOp.signal, hs]
        rw [hop] at hop'
        cases hop'
        exact ⟨c, hev, mem_of_sort_eq_cons hs⟩
      · exact absurd hop (hsem w).2.2
  | enqueue c _ hf _ =>
      subst hf
      cases hop
  | down c _ hf _ =>
      have hop' : SemaOp.down k (.waiter t) = .upped (.waiter w) := by
        rcases hf with rfl | rfl <;> exact hop
      rcases SemaOp.down_cases k (.waiter t) with h | h <;> rw [h] at hop' <;> cases hop'
  | leave c _ hf _ =>
      subst hf
      cases hop

theorem SemaOp.fresh_running (hop : f.semaOp cfg k = .fresh w) : w = k.running := by
  cases f with
  | condEnqueue c l =>
      cases hop
      rfl
  | down s after | downLoop s after =>
      rcases SemaOp.down_cases k s with h | h <;> simp [Frame.semaOp, h] at hop
  | semaTryDown s =>
      rcases SemaOp.tryDown_cases k s with h | h <;> simp [Frame.semaOp, h] at hop
  | lockAcquire l =>
      rcases SemaOp.down_cases k (.ofLock l) with h | h <;> simp [Frame.semaOp, h] at hop
  | lockTryAcquire l | tryDown l =>
      rcases SemaOp.tryDown_cases k (.ofLock l) with h | h <;> simp [Frame.semaOp, h] at hop
  | condSignal c l | condBroadcast c l =>
      cases hs : sort (cfg.order k) (k.condWaiters c) <;>
        simp [Frame.semaOp, SemaOp.signal, hs] at hop
  | _ => simp [Frame.semaOp] at hop

/-- A sleeping waiter goes on sleeping until its condition is signalled for it. -/
theorem CondInv.asleep_step {c : CondPtr} (h : CondInv lockOf cfg σ p)
    (hs : Project2.step cfg a σ = some σ') (hc : w ∈ σ.kernel.condWaiters c)
    (hw : w ∈ σ.kernel.waiters (.waiter w)) (hev : σ.condEvent cfg a ≠ some (.wake w c)) :
    w ∈ σ'.kernel.waiters (.waiter w) := by
  cases a with
  | call op =>
      obtain ⟨-, rfl⟩ := step_call_iff.1 hs
      exact hw
  | exec =>
      obtain ⟨f, rest, o, hcode, hr, rfl⟩ := step_exec_iff.1 hs
      have hin := h.code σ.kernel.running
      rw [hcode] at hin
      have hne : w ≠ σ.kernel.running := by
        intro e
        have hb := (h.own.settled.live.wait hw).1
        rw [e, h.own.settled.live.status_running] at hb
        cases hb
      have hdoes := runFrame_semaOp hr
      show w ∈ o.kernel.waiters (.waiter w)
      cases hop : f.semaOp cfg σ.kernel with
      | none =>
          rw [hop] at hdoes
          rw [hdoes.2]
          exact hw
      | took s =>
          rw [hop] at hdoes
          rw [hdoes.2.2]
          exact hw
      | queued s =>
          rw [hop] at hdoes
          obtain ⟨-, -, ws, hperm, hws⟩ := hdoes
          rw [hws]
          by_cases hsw : s = .waiter w
          · subst hsw
            rw [update_self]
            exact hperm.symm.subset (List.mem_cons_of_mem _ hw)
          · rwa [update_of_ne (Ne.symm hsw)]
      | upped s =>
          rw [hop] at hdoes
          obtain ⟨-, ws, -, hws⟩ := hdoes
          rw [hws]
          by_cases hsw : s = .waiter w
          · subst hsw
            obtain ⟨c', hev', hc'⟩ := hin.upped_waiter hop
            have hcc : Phase.waiting c' = Phase.waiting c :=
              ((h.waits.queued c' w).1 hc').symm.trans ((h.waits.queued c w).1 hc)
            cases hcc
            exact absurd (by simpa only [System.condEvent, hcode] using hev') hev
          · rwa [update_of_ne (Ne.symm hsw)]
      | fresh t =>
          have htr := SemaOp.fresh_running hop
          rw [hop] at hdoes
          rw [hdoes.2, update_of_ne (by simpa [htr] using hne)]
          exact hw
  | tick =>
      obtain ⟨-, k, ht, rfl⟩ := step_tick_iff.1 hs
      rcases timerInterrupt_footprint ht with ⟨_, _, _, _, _, _, _, _, rfl⟩
      exact hw
  | preempt t =>
      obtain ⟨-, rfl⟩ := step_preempt_iff.1 hs
      exact hw

theorem Settled.allAsleep_iff {c : CondPtr} (h : Settled σ) :
    σ.kernel.AllAsleep c ↔ ∀ w ∈ σ.kernel.condWaiters c, w ∈ σ.kernel.waiters (.waiter w) := by
  refine forall₂_congr fun w _ => ⟨fun hw => by simp [hw.2], fun hw => ⟨(h.live.wait hw).1, ?_⟩⟩
  have hsub : ∀ u ∈ σ.kernel.waiters (.waiter w), u = w := fun u hu => h.waiter_self hu
  exact List.perm_singleton.1 ((List.perm_ext_iff_of_nodup (h.live.wait_nodup _)
    (List.nodup_singleton w)).2 fun u =>
      ⟨fun hu => List.mem_singleton.2 (hsub u hu), fun hu => List.mem_singleton.1 hu ▸ hw⟩)

/-- Throughout a broadcast those who are still queued are asleep. -/
theorem CondInv.broadcast_asleep {c : CondPtr} {l : LockPtr} {σ₁ : System}
    {tr : List (System × Act)} (h : ∃ p, CondInv lockOf cfg σ₁ p)
    (ht : σ₁.code t = [.condBroadcast c l]) (hall : σ₁.kernel.AllAsleep c)
    (hrun : Exec (Project2.step cfg) σ₁ tr σ) (hu : ∀ e ∈ tr, CondUse lockOf e.1 e.2)
    (hin : ∀ e ∈ tr, e.1.code t ≠ []) : σ.kernel.AllAsleep c := by
  induction hrun with
  | nil =>
      exact hall
  | @snoc tr σ σ' a hrun hs ih =>
      have hua : CondUse lockOf σ a := by
        simpa using hu (σ, a) (List.mem_append_right _ List.mem_cons_self)
      have hina : σ.code t ≠ [] := by
        simpa using hin (σ, a) (List.mem_append_right _ List.mem_cons_self)
      have hu' : ∀ e ∈ tr, CondUse lockOf e.1 e.2 := fun e he => hu e (by simp [he])
      have hin' : ∀ e ∈ tr, e.1.code t ≠ [] := fun e he => hin e (by simp [he])
      obtain ⟨⟨p, hinv⟩, -, hprog⟩ := CondInv.broadcast_run h ht hrun hu' hin'
      have hcode : σ.code t = [.condBroadcast c l] :=
        hprog.elim (fun h => h.1) fun h => absurd h.1 hina
      obtain ⟨p', -, hinv'⟩ := hinv.step hua hs
      have hasleep := hinv.own.settled.allAsleep_iff.1 (ih hu' hin')
      refine hinv'.own.settled.allAsleep_iff.2 fun u hmem => ?_
      cases hinv.broadcast_step hcode hs with
      | done _ _ _ h0 _ =>
          rw [h0] at hmem
          cases hmem
      | round w _ hrel _ =>
          have hold : u ∈ σ.kernel.condWaiters c :=
            hrel.removed.symm.subset (List.mem_cons_of_mem _ hmem)
          -- the one that is released is queued no longer
          have huw : u ≠ w := by
            rintro rfl
            exact (List.nodup_cons.1 (hrel.removed.nodup_iff.1 (hinv.waits.nodup c))).1 hmem
          refine hinv.asleep_step hs hold (hasleep u hold) ?_
          rw [hrel.event]
          simpa using Ne.symm huw
      | other _ hev hcond _ =>
          rw [hcond] at hmem
          exact hinv.asleep_step hs hmem (hasleep u hmem) (hev u)

/-- Each turn of a broadcast over sleepers releases a waiter of the highest current priority. -/
theorem CondInv.broadcast_top {grain : Grain} {c : CondPtr} {l : LockPtr}
    (h : CondInv lockOf ⟨grain, compareSema⟩ σ p)
    (hcode : σ.code σ.kernel.running = [.condBroadcast c l]) (hall : σ.kernel.AllAsleep c)
    (hne : σ.kernel.condWaiters c ≠ []) :
    ∃ w σ', Project2.step ⟨grain, compareSema⟩ .exec σ = some σ' ∧
      TopReleased σ.kernel σ'.kernel c w ∧ σ'.kernel.Awake w := by
  have hset := h.own.settled
  have hmem : Frame.condBroadcast c l ∈ σ.code σ.kernel.running := by
    rw [hcode]
    exact List.mem_singleton_self _
  have hl : σ.kernel.holder l = some σ.kernel.running := by
    have hl : l = .lock (lockOf c) := (h.locked _ _ hmem (c, l) rfl).2.1
    rw [hl]
    exact @CondInv.lock_held _ _ _ _ _ _ (c, l) h hmem rfl
  obtain ⟨w, k', hk', htop⟩ := condSignal_top hall hne hset.interrupts hl
  have hb : σ.kernel.status w = .blocked :=
    (hall w (htop.removed.symm.subset List.mem_cons_self)).1
  have hrun : w ≠ σ.kernel.running := by
    rintro rfl
    rw [hset.live.status_running] at hb
    cases hb
  have hawake := htop.awake hrun (hset.live.not_ready_of_status (by simp [hb]))
  refine ⟨w, σ.after (.condBroadcast c l) [] (k'.andThen [.condBroadcast c l]),
    step_exec_iff.2 ⟨_, [], _, hcode, ?_, rfl⟩, htop, hawake⟩
  simp only [runFrame, if_neg hne]
  exact bind_eq_ok.2 ⟨k', hk', rfl⟩

end Steps

/-- While the thread `t` is in a broadcast of `c`, each of its turns that finds waiters releases one
of those whose current priority is the highest, and leaves the others queued. -/
def BroadcastsTop (lockOf : CondPtr → Nat) (grain : Grain) (c : CondPtr) (t : ThreadPtr)
    (σ : System) : Prop :=
  ∀ tr σ₁, Exec (step ⟨grain, compareSema⟩) σ tr σ₁ → (∀ e ∈ tr, CondUse lockOf e.1 e.2) →
    (∀ e ∈ tr, e.1.code t ≠ []) → σ₁.code t ≠ [] → σ₁.kernel.running = t →
      σ₁.kernel.condWaiters c ≠ [] →
        ∃ w σ₂, step ⟨grain, compareSema⟩ .exec σ₁ = some σ₂ ∧
          TopReleased σ₁.kernel σ₂.kernel c w ∧ σ₂.kernel.Awake w

/-- `cond_signal` in any state, and `cond_broadcast` in any run from boot, whatever the other threads
do meanwhile: over waiters that are asleep each release picks one of the highest current priority. -/
theorem cond_releases_top :
    (∀ k c l, Kernel.AllAsleep k c → k.condWaiters c ≠ [] → k.intrContext = false →
      k.holder l = some k.running →
        ∃ w k', condSignal compareSema k c l = .ok k' ∧ TopReleased k k' c w) ∧
    ∀ lockOf grain init idle tr σ, Exec (step ⟨grain, compareSema⟩) (boot init idle) tr σ →
      (∀ e ∈ tr, CondUse lockOf e.1 e.2) → ∀ c l t, σ.code t = [.condBroadcast c l] →
        σ.kernel.AllAsleep c → BroadcastsTop lockOf grain c t σ := by
  refine ⟨fun k c l hall hne hi hl => condSignal_top hall hne hi hl, ?_⟩
  intro lockOf grain init idle tr σ hrun hu c l t ht hall tr' σ₁ hrun' hu' hin hcode hr hne
  obtain ⟨p, -, hinv⟩ := condInv_of_exec hrun hu
  obtain ⟨⟨p', hinv'⟩, -, hprog⟩ := CondInv.broadcast_run ⟨p, hinv⟩ ht hrun' hu' hin
  have hstill : σ₁.code t = [.condBroadcast c l] :=
    hprog.elim (fun h => h.1) fun h => absurd h.1 hcode
  subst hr
  exact hinv'.broadcast_top hstill (CondInv.broadcast_asleep ⟨p, hinv⟩ ht hall hrun' hu' hin) hne

/-- Threads 2 and 3, of priorities 40 and 50, sleep on condition 0, and the initial thread has called
`cond_broadcast`. -/
def sleepersActs : List Act :=
  crowdActs ++ [.exec, .exec, .call (.lockAcquire 0), .exec, .call (.condBroadcast 0 0)]

def sleepersSystem : System :=
  (runAll (step .calls) sleepersActs (boot allZero 1)).get (by decide +kernel)

theorem cond_releases_top_sleepers :
    (∃ k', condSignal compareSema sleepersSystem.kernel 0 (.lock 0) = .ok k' ∧
      TopReleased sleepersSystem.kernel k' 0 3) ∧
      ∃ σ₂, step .calls .exec sleepersSystem = some σ₂ ∧
        TopReleased sleepersSystem.kernel σ₂.kernel 0 3 ∧ σ₂.kernel.Awake 3 := by
  have hqueue : sleepersSystem.kernel.condWaiters 0 = [2, 3] := by decide +kernel
  have hlow : ¬ sleepersSystem.kernel.priority 3 ≤ sleepersSystem.kernel.priority 2 := by
    decide +kernel
  have hasleep : sleepersSystem.kernel.AllAsleep 0 := by decide +kernel
  have hthree : ∀ {k' w}, TopReleased sleepersSystem.kernel k' 0 w → w = 3 := by
    intro k' w h
    have hw : w = 2 ∨ w = 3 := by
      simpa [hqueue] using h.removed.symm.subset List.mem_cons_self
    rcases hw with rfl | rfl
    · exact absurd (h.top 3 (by simp [hqueue])) hlow
    · rfl
  constructor
  · obtain ⟨w, k', hk', h⟩ := cond_releases_top.1 sleepersSystem.kernel 0 (.lock 0) hasleep
      (by simp [hqueue]) (by decide +kernel) (by decide +kernel)
    obtain rfl := hthree h
    exact ⟨k', hk', h⟩
  · have hrun : Exec (step .calls) (boot allZero 1)
        (trace (step .calls) sleepersActs (boot allZero 1)) sleepersSystem :=
      Exec.of_runAll (Option.some_get _).symm
    obtain ⟨w, σ₂, hs, h⟩ := cond_releases_top.2 (fun _ => 0) .calls _ _ _ _ hrun
      (by decide +kernel) 0 (.lock 0) 0 (by decide +kernel) hasleep [] sleepersSystem .nil nofun
      nofun (by decide +kernel) (by decide +kernel) (by simp [hqueue])
    obtain rfl := hthree h.1
    exact ⟨σ₂, hs, h⟩

end Project2
end Pintos
