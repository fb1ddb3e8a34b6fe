import Pintos.Project2.Donation
import Mathlib.Order.Bounds.Basic

/-!
# Recipients — one call of `donate_priority`, one call of `reset_priority`

`Donation` follows the priorities over whole runs.  Here the two functions are called once, in a
state of which nothing is assumed but the chain of holders, respectively the list of donors.

* `donate_priority` assigns the caller's priority to every holder on the chain, so that it raises
  them all just when none of them is above the caller;
* `reset_priority` offers the thread one donor's priority, that of the donor which `compare` puts
  in front by the word it finds 28 bytes behind `priority`.
-/

namespace Pintos
namespace Project2

open Lib Function

/-! ## The chain of holders -/

section Chain

variable {k k' : Kernel} {l : LockPtr} {h t : ThreadPtr} {hs ts : List ThreadPtr} {n : Nat}

/-- The holders from `h` on: each waits for a lock of the next one, the last waits for none. -/
inductive HolderChain (k : Kernel) : ThreadPtr → List ThreadPtr → Prop
  | last {h : ThreadPtr} : k.waitingLock h = none → HolderChain k h [h]
  | next {h h' : ThreadPtr} {l : LockPtr} {hs : List ThreadPtr} :
      k.waitingLock h = some l → k.holder l = some h' → HolderChain k h' hs →
        HolderChain k h (h :: hs)

theorem HolderChain.head_mem (hc : HolderChain k h hs) : h ∈ hs := by
  cases hc with
  | last _ => exact List.mem_cons_self
  | next _ _ _ => exact List.mem_cons_self

/-- A thread has one chain. -/
theorem HolderChain.unique (hc : HolderChain k h hs) (hc' : HolderChain k h ts) : hs = ts := by
  induction hc generalizing ts with
  | last hw =>
      cases hc' with
      | last _ => rfl
      | next hw' _ _ =>
          rw [hw] at hw'
          cases hw'
  | next hw hl _ ih =>
      cases hc' with
      | last hw' =>
          rw [hw] at hw'
          cases hw'
      | next hw' hl' hc' =>
          rw [hw] at hw'
          cases hw'
          rw [hl] at hl'
          cases hl'
          rw [ih hc']

/-- The chain of a holder further on is shorter. -/
theorem HolderChain.suffix (hc : HolderChain k h hs) (ht : t ∈ hs) :
    ∃ ts, HolderChain k t ts ∧ ts.length ≤ hs.length := by
  induction hc with
  | @last h hw =>
      rw [List.mem_singleton.1 ht]
      exact ⟨_, .last hw, le_rfl⟩
  | next hw hl hc ih =>
      rcases List.mem_cons.1 ht with rfl | ht
      · exact ⟨_, .next hw hl hc, le_rfl⟩
      · obtain ⟨ts, hts, hle⟩ := ih ht
        exact ⟨ts, hts, hle.trans (Nat.le_succ _)⟩

/-- A chain that ends comes to nobody twice. -/
theorem HolderChain.nodup (hc : HolderChain k h hs) : hs.Nodup := by
  induction hc with
  | last _ =>
      exact List.nodup_singleton _
  | @next h h' l hs hw hl hc ih =>
      refine List.nodup_cons.2 ⟨fun hm => ?_, ih⟩
      -- met again, `h` would have a chain shorter than its own
      obtain ⟨ts, hts, hle⟩ := hc.suffix hm
      rw [← (HolderChain.next hw hl hc).unique hts] at hle
      exact absurd hle (by simp)

/-- The links of the threads on the chain are all it depends on. -/
theorem HolderChain.congr (hc : HolderChain k h hs)
    (hw : ∀ t ∈ hs, k'.waitingLock t = k.waitingLock t) (hh : k'.holder = k.holder) :
    HolderChain k' h hs := by
  induction hc with
  | last hn =>
      exact .last ((hw _ List.mem_cons_self).trans hn)
  | next hn hl _ ih =>
      refine .next ((hw _ List.mem_cons_self).trans hn) (by rw [hh]; exact hl) (ih fun t ht => ?_)
      exact hw t (List.mem_cons_of_mem _ ht)

theorem HolderChain.walk (hc : HolderChain k h hs) (hn : hs.length ≤ n) : k.walk n h = hs := by
  induction hc generalizing n with
  | last hw =>
      cases n with
      | zero => cases hn
      | succ n => simp [Kernel.walk, Kernel.donee, hw]
  | next hw hl _ ih =>
      cases n with
      | zero => cases hn
      | succ n =>
          have hd := Kernel.donee_eq_some.2 ⟨_, hw, hl⟩
          simp [Kernel.walk, hd, ih (Nat.le_of_succ_le_succ hn)]

/-- The loop of `donate_priority` ends on a chain that ends. -/
theorem HolderChain.donateLoop (hc : HolderChain k h hs) (hn : hs.length ≤ n)
    (hw : k'.waitingLock = k.waitingLock) (hh : k'.holder = k.holder) :
    ∃ k₁, donateLoop n k' h = .ok k₁ := by
  induction hc generalizing n k' with
  | last hnone =>
      cases n with
      | zero => cases hn
      | succ n => exact ⟨k', by simp [Project2.donateLoop, hw, hnone]⟩
  | @next _ h' _ _ hsome hl _ ih =>
      cases n with
      | zero => cases hn
      | succ n =>
          obtain ⟨k₁, hk₁⟩ : ∃ k₁, Project2.donateLoop n (k'.donatedTo h') h' = .ok k₁ :=
            ih (Nat.le_of_succ_le_succ hn) hw hh
          refine ⟨k₁, ?_⟩
          simp only [Project2.donateLoop, hw, hsome, hh, hl]
          exact hk₁

/-! ## `donate_priority` -/

/-- Every holder has the greater of its priority and the caller's, and nobody else's priority has
changed or become lower. -/
structure Raises (k k' : Kernel) (hs : List ThreadPtr) : Prop where
  raised : ∀ t ∈ hs, k'.priority t = max (k.priority t) (k.priority k.running)
  others : ∀ t, t ∉ hs → k'.priority t = k.priority t
  kept : ∀ t, k.priority t ≤ k'.priority t

/-- The chain reaches living threads only, so the loop of `donate_priority` walks all of it. -/
theorem lockDonate_chain (hl : k.holder l = some h) (hc : HolderChain k h hs)
    (hr : k.running ∉ hs) (ha : ∀ t ∈ hs, t ∈ k.allList) :
    ∃ k', lockDonate k l = .ok k' ∧ k.donees l h = hs := by
  -- no more holders than threads, so the loop does not run out of rounds
  have hlen : hs.length ≤ k.allList.length + 1 :=
    (hc.nodup.subperm ha).length_le.trans (Nat.le_succ _)
  -- `lock_acquire` has changed only the caller's own link
  have hc' : HolderChain (k.donating l h) h hs := by
    refine hc.congr (fun t ht => ?_) rfl
    have hne : t ≠ k.running := fun e => hr (e ▸ ht)
    simp [Kernel.donating, hne]
  obtain ⟨k', hk'⟩ : ∃ k', donateLoop (k.allList.length + 1) ((k.donating l h).donatedTo h) h =
      .ok k' := hc'.donateLoop hlen rfl rfl
  refine ⟨k', ?_, hc'.walk hlen⟩
  have hwl : (k.donating l h).waitingLock (k.donating l h).running = some l := by
    simp [Kernel.donating]
  have hhl : (k.donating l h).holder l = some h := hl
  simp only [lockDonate, hl, donatePriority, hwl, hhl]
  exact hk'

/-- `donate_priority`, called by `lock_acquire`, ends on every chain of holders, and `lock_acquire`
does not touch a priority afterwards.  It raises exactly the holders on the chain to the caller's
priority, and lowers nobody, if and only if no holder on the chain is above the caller. -/
theorem donate_priority_raises_iff (hl : k.holder l = some h) (hc : HolderChain k h hs)
    (hr : k.running ∉ hs) (ha : ∀ t ∈ hs, t ∈ k.allList) :
    ∃ k', lockDonate k l = .ok k' ∧
      (∀ k₂ got, lockAcquire k l = .ok (k₂, got) → k₂.priority = k'.priority) ∧
      (Raises k k' hs ↔ ∀ t ∈ hs, k.priority t ≤ k.priority k.running) := by
  obtain ⟨k', hk', hdonees⟩ := lockDonate_chain hl hc hr ha
  have hwrite : ∀ t, k'.priority t = if t ∈ hs then k.priority k.running else k.priority t := by
    have hd : donatePriority (k.donating l h) = .ok k' := by
      simpa only [lockDonate, hl] using hk'
    intro t
    rw [(donatePriority_donees hl hd).1 t, hdonees]
  refine ⟨k', hk', fun k₂ got hacq => ?_, fun hraise t ht => ?_, fun hle => ⟨fun t ht => ?_,
    fun t ht => ?_, fun t => ?_⟩⟩
  · -- after the donation only `sema_down` is called
    obtain ⟨-, -, k₁, k₃, hd, hs, rfl⟩ := lockAcquire_eq_ok.1 hacq
    rw [hk'] at hd
    cases hd
    have hprio : k₃.priority = k'.priority := by
      rcases semaDown_footprint hs with ⟨_, _, _, _, _, _, rfl⟩
      rfl
    cases got
    · exact hprio
    · exact hprio
  · -- a holder above the caller would have been lowered
    have hkept := hraise.kept t
    rwa [hwrite, if_pos ht] at hkept
  · rw [hwrite, if_pos ht, max_eq_right (hle t ht)]
  · rw [hwrite, if_neg ht]
  · rw [hwrite]
    split
    · rename_i ht
      exact hle t ht
    · exact le_rfl

end Chain

/-- The initial thread holds lock 0, thread 2 holds lock 1 and waits for lock 0, and thread 3 is
about to call `lock_acquire` for lock 1. -/
def raiseActs : List Act :=
  bootActs ++ [.call (.lockAcquire 0), .exec] ++ createActs 2 40 ++
    [.call (.lockAcquire 1), .exec, .call (.lockAcquire 0), .exec] ++ createActs 3 50

def raiseSystem : System :=
  (runAll (step .calls) raiseActs (boot allZero 1)).get (by decide +kernel)

theorem donate_priority_raises_chain :
    ∃ k', lockDonate raiseSystem.kernel (.lock 1) = .ok k' ∧ Raises raiseSystem.kernel k' [2, 0] := by
  have hfirst : raiseSystem.kernel.waitingLock 2 = some (.lock 0) := by decide +kernel
  have hnext : raiseSystem.kernel.holder (.lock 0) = some 0 := by decide +kernel
  have hl : raiseSystem.kernel.holder (.lock 1) = some 2 := by decide +kernel
  have hc : HolderChain raiseSystem.kernel 2 [2, 0] :=
    .next hfirst hnext (.last (by decide +kernel))
  obtain ⟨k', hk', -, hiff⟩ :=
    donate_priority_raises_iff hl hc (by decide +kernel) (by decide +kernel)
  exact ⟨k', hk', hiff.2 (by decide +kernel)⟩

/-- Thread 2, of priority 40, holds lock 0 and sleeps; the initial thread, of priority 31, is in
`lock_acquire`. -/
def lowerActs : List Act :=
  bootActs ++ createActs 2 40 ++
    [.call (.lockAcquire 0), .exec, .call (.timerSleep 10), .exec, .exec, .call (.lockAcquire 0)]

def lowerSystem : System :=
  (runAll (step .calls) lowerActs (boot allZero 1)).get (by decide +kernel)

/-- `donate_priority` takes thread 2 from 40 down to 31. -/
theorem donate_priority_lowers :
    ¬ ∀ (k : Kernel) (l : LockPtr) (h : ThreadPtr) (hs : List ThreadPtr),
      k.holder l = some h → HolderChain k h hs → k.running ∉ hs → (∀ t ∈ hs, t ∈ k.allList) →
        ∃ k', lockDonate k l = .ok k' ∧ Raises k k' hs := by
  intro hall
  have hl : lowerSystem.kernel.holder (.lock 0) = some 2 := by decide +kernel
  have hc : HolderChain lowerSystem.kernel 2 [2] := .last (by decide +kernel)
  obtain ⟨k', hk', hraise⟩ := hall _ _ _ _ hl hc (by decide +kernel) (by decide +kernel)
  have hprio : (lockDonate lowerSystem.kernel (.lock 0)).toOption.map (·.priority 2) = some 31 := by
    decide +kernel
  rw [hk'] at hprio
  have hkept := hraise.kept 2
  rw [show k'.priority 2 = 31 from Option.some.inj hprio] at hkept
  exact absurd hkept (by decide +kernel)

/-! ## `reset_priority` -/

section Reset

variable {k : Kernel}

/-- The donor that the sort by `compare` on `donation_elem`s puts in front: the first one whose
word `donations.head.next`, read as a priority, is greatest. -/
def Kernel.FrontDonor (k : Kernel) (d : ThreadPtr) : Prop :=
  FirstGreatest (donationWord k) (k.donations k.running) d

/-- The running thread has the greatest of its initial priority and its donors' priorities, and
everybody has the same donors as before. -/
structure Resets (k k' : Kernel) : Prop where
  greatest : IsGreatest
    (insert (k.initPriority k.running) (Set.image k.priority {d | d ∈ k.donations k.running}))
    (k'.priority k.running)
  donors : ∀ t, (k'.donations t).Perm (k.donations t)

theorem resetPriority_front (hne : k.running ∉ k.donations k.running) :
    (k.donations k.running = [] ∧
        (resetPriority k).priority k.running = k.initPriority k.running) ∨
      ∃ d, k.FrontDonor d ∧
        (resetPriority k).priority k.running = max (k.initPriority k.running) (k.priority d) := by
  rcases resetPriority_sorted hne with ⟨h0, hp⟩ | ⟨d, ds, hs, hp⟩
  · exact Or.inl ⟨h0, by rw [hp, update_self]⟩
  · have hhead : (sort (compareDonation k) (k.donations k.running)).head? = some d := by
      rw [hs]
      rfl
    exact Or.inr ⟨d, sort_head?_eq_some.1 hhead, by rw [hp, update_self]⟩

theorem Kernel.FrontDonor.mem {d : ThreadPtr} (h : k.FrontDonor d) :
    d ∈ k.donations k.running := by
  obtain ⟨before, after, he, -⟩ := h
  rw [he]
  simp

theorem Kernel.FrontDonor.unique {d e : ThreadPtr} (hd : k.FrontDonor d) (he : k.FrontDonor e) :
    d = e := by
  have hd' := sort_head?_eq_some.2 hd
  rw [sort_head?_eq_some.2 he] at hd'
  exact (Option.some.inj hd').symm

/-- After `reset_priority` the thread has the greatest of its initial priority and its donors'
priorities if and only if the donor in front, or the initial priority, is that greatest one. -/
theorem reset_priority_resets_iff (hne : k.running ∉ k.donations k.running) :
    Resets k (resetPriority k) ↔
      ∀ d, k.FrontDonor d → ∀ e ∈ k.donations k.running,
        k.priority e ≤ max (k.initPriority k.running) (k.priority d) := by
  constructor
  · -- the value assigned is the front donor's or the initial priority, and is the greatest
    intro h d hd e he
    have hle := h.greatest.2 (Or.inr ⟨e, he, rfl⟩)
    rcases resetPriority_front hne with ⟨h0, -⟩ | ⟨d', hd', hp⟩
    · rw [h0] at he
      cases he
    · rwa [hp, hd'.unique hd] at hle
  · intro h
    refine ⟨?_, resetPriority_perm k⟩
    rcases resetPriority_front hne with ⟨h0, hp⟩ | ⟨d, hd, hp⟩
    · rw [hp]
      refine ⟨Or.inl rfl, ?_⟩
      rintro p (rfl | ⟨e, he, rfl⟩)
      · exact le_rfl
      · simp [h0] at he
    · rw [hp]
      refine ⟨?_, ?_⟩
      · rcases le_total (k.initPriority k.running) (k.priority d) with hle | hle
        · rw [max_eq_right hle]
          exact Or.inr ⟨d, hd.mem, rfl⟩
        · rw [max_eq_left hle]
          exact Or.inl rfl
      · rintro p (rfl | ⟨e, he, rfl⟩)
        · exact le_max_left _ _
        · exact h d hd e he

end Reset

/-- Thread 2 alone has donated to the initial thread. -/
theorem reset_priority_resets_donor : Resets donorSystem.kernel (resetPriority donorSystem.kernel) := by
  have hdonors : donorSystem.kernel.donations donorSystem.kernel.running = [2] := by
    decide +kernel
  refine (reset_priority_resets_iff (by decide +kernel)).2 fun d hd e he => ?_
  have hd' := hd.mem
  rw [hdonors, List.mem_singleton] at hd' he
  rw [hd', he]
  exact le_max_right _ _

/-- The initial thread holds three locks.  Thread 2, of priority 50, waits for the first and thread
3, of priority 40, for the second when it releases the third. -/
def misreadActs : List Act :=
  bootActs ++ [.call (.lockAcquire 0), .exec, .call (.lockAcquire 1), .exec,
      .call (.lockAcquire 2), .exec] ++ createActs 2 50 ++ [.call (.lockAcquire 0), .exec] ++
    createActs 3 40 ++ [.call (.timerSleep 1), .exec, .exec, .call (.lockAcquire 1), .exec, .tick,
      .exec, .exec, .call (.lockRelease 2)]

def misreadSystem : System :=
  (runAll (step .calls) misreadActs (boot allZero 1)).get (by decide +kernel)

/-- `reset_priority` takes 40 from thread 3, whose page has the higher address. -/
theorem reset_priority_misreads :
    ¬ ∀ k : Kernel, k.running ∉ k.donations k.running → Resets k (resetPriority k) := by
  intro hall
  have h := hall misreadSystem.kernel (by decide +kernel)
  -- thread 2, of priority 50, is among the donors
  have hle := h.greatest.2 (Or.inr ⟨2, (by decide +kernel : 2 ∈ misreadSystem.kernel.donations _), rfl⟩)
  exact absurd hle (by decide +kernel)

end Project2
end Pintos
