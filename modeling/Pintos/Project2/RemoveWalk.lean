import Pintos.Lib.LinkedList
import Pintos.Project2.Links

/-!
# RemoveWalk — `remove_lock` on the links of the donors

`Thread` has a thread's donors as a list of threads.  In memory they are the `donation_elem` nodes
between the ends of `donations`.  `remove_lock` steps with `list_next` from a node that it may just
have taken out; `list_remove` has left that node's own fields in place.
-/

namespace Pintos
namespace Project2

open Lib Function

/-! ## The code -/

/-- A `struct list_elem`: the `donation_elem` of a thread, or an end of its `donations`. -/
inductive DonationElem
  | elem (t : ThreadPtr)
  | head (t : ThreadPtr)
  | tail (t : ThreadPtr)
  deriving DecidableEq, Repr

/-- `&t->donations` -/
def donationsOf (t : ThreadPtr) : ListEnds DonationElem := ⟨.head t, .tail t⟩

/-- `list_entry (e, struct thread, donation_elem)`; the ends are no one's `donation_elem`. -/
def donorEntry : DonationElem → Option ThreadPtr
  | .elem t => some t
  | _ => none

/-- The links of the nodes and the other fields that `remove_lock` reads or writes. -/
structure DonorMemory where
  links : NodeLinks DonationElem
  waitingLock : ThreadPtr → Option LockPtr
  running : ThreadPtr

namespace DonorMemory

/-- The body of the loop at the thread `t`. -/
def removeTurn (lock : LockPtr) (mem : DonorMemory) (t : ThreadPtr) : Except Fault DonorMemory :=
  if mem.waitingLock t = some lock then
    let mem := { mem with waitingLock := update mem.waitingLock t none }
    match mem.links.remove (.elem t) with
    | none => .error .nullPointer
    | some (links, _) => .ok { mem with links := links }
  else .ok mem

/-- The loop at `e`.  The fuel bounds the number of turns. -/
def removeLoop (lock : LockPtr) : Nat → DonationElem → DonorMemory → Except Fault DonorMemory
  | 0, _, _ => .error .diverges
  | n + 1, e, mem =>
      if e = (donationsOf mem.running).tail then .ok mem
      else
        match donorEntry e with
        | none => .error .notThread
        | some t => do
            let mem ← removeTurn lock mem t
            match mem.links.next e with
            | none => .error .nullPointer
            | some e => removeLoop lock n e mem

def removeLock (fuel : Nat) (mem : DonorMemory) (lock : LockPtr) : Except Fault DonorMemory :=
  match mem.links.next (donationsOf mem.running).head with
  | none => .error .nullPointer
  | some e => removeLoop lock fuel e mem

end DonorMemory

/-! ## What the walk does -/

/-- The donors of `t` are `donors`. -/
def DonorMemory.Donors (mem : DonorMemory) (t : ThreadPtr) (donors : List ThreadPtr) : Prop :=
  IsList mem.links (donationsOf t) (donors.map .elem)

/-- The donors that wait for the lock are taken off and wait no longer; the others keep their order,
and no node of another list has been written. -/
structure DonorMemory.Removed (mem mem' : DonorMemory) (lock : LockPtr) (donors : List ThreadPtr) :
    Prop where
  remaining : mem'.Donors mem.running (donors.filter fun t => mem.waitingLock t ≠ some lock)
  cleared : ∀ t ∈ donors, mem.waitingLock t = some lock → mem'.waitingLock t = none
  waitingLock : ∀ t, ¬ (t ∈ donors ∧ mem.waitingLock t = some lock) →
    mem'.waitingLock t = mem.waitingLock t
  outside : ∀ x, x ∉ (donationsOf mem.running).nodes (donors.map .elem) →
    Lib.SameAt mem.links mem'.links x
  running : mem'.running = mem.running

section Walk

variable {mem mem' : DonorMemory} {lock : LockPtr} {l r donors : List ThreadPtr} {t u : ThreadPtr}

namespace DonorMemory

theorem Donors.nodup (h : mem.Donors t donors) : donors.Nodup := by
  have hnd := (List.nodup_cons.1 (IsList.nodup h)).2
  exact List.Nodup.of_map _ (List.nodup_append.1 hnd).1

/-- A turn at `t`, behind the donors `l` that stay. -/
structure Turned (mem mem' : DonorMemory) (lock : LockPtr) (l r : List ThreadPtr) (t : ThreadPtr) :
    Prop where
  remaining : mem'.Donors mem.running
    (if mem.waitingLock t = some lock then l ++ r else (l ++ [t]) ++ r)
  next : mem'.links.next (.elem t) = some ((donationsOf mem.running).first (r.map .elem))
  waitingLock : mem'.waitingLock =
    if mem.waitingLock t = some lock then update mem.waitingLock t none else mem.waitingLock
  outside : ∀ x, x ∉ (donationsOf mem.running).nodes ((l ++ t :: r).map .elem) →
    Lib.SameAt mem.links mem'.links x
  running : mem'.running = mem.running

theorem Donors.removeTurn (h : mem.Donors mem.running (l ++ t :: r)) (lock : LockPtr) :
    ∃ mem', mem.removeTurn lock t = .ok mem' ∧ mem.Turned mem' lock l r t := by
  have hlist : IsList mem.links (donationsOf mem.running) (l.map .elem ++ .elem t :: r.map .elem) := by
    simpa [Donors] using h
  by_cases hw : mem.waitingLock t = some lock
  · obtain ⟨links, hremove, hremoved⟩ := hlist.remove
    have hleft : IsList links (donationsOf mem.running) ((l ++ r).map .elem) := by
      simpa using hremoved.isList
    have hnd := List.nodup_middle.1 h.nodup
    have ht : t ∉ l ++ r := (List.nodup_cons.1 hnd).1
    have hout : DonationElem.elem t ∉
        (donationsOf mem.running).nodes (l.map .elem ++ r.map .elem) := by
      simpa [donationsOf] using ht
    refine ⟨⟨links, update mem.waitingLock t none, mem.running⟩, ?_, ?_⟩
    · simp only [DonorMemory.removeTurn, if_pos hw, hremove]
    · refine ⟨?_, ?_, (if_pos hw).symm, fun x hx => hremoved.outside x fun hmem => hx ?_, rfl⟩
      · rw [if_pos hw]
        exact hleft
      · -- the walk goes on from the field that the removed node still has
        exact (hremoved.outside _ hout).1.trans hlist.next
      · simp only [mem_nodes, List.map_append, List.map_cons, List.mem_append, List.mem_cons]
          at hmem ⊢
        tauto
  · refine ⟨mem, ?_, ?_, hlist.next, (if_neg hw).symm, fun x _ => ⟨rfl, rfl⟩, rfl⟩
    · simp only [DonorMemory.removeTurn, if_neg hw]
    · rw [if_neg hw]
      simpa using h

theorem removeLoop_cons {n : Nat} (h : mem.removeTurn lock t = .ok mem')
    (hnext : mem'.links.next (.elem t) = some ((donationsOf mem'.running).first (r.map .elem))) :
    removeLoop lock (n + 1) (.elem t) mem =
      removeLoop lock n ((donationsOf mem'.running).first (r.map .elem)) mem' := by
  have hne : DonationElem.elem t ≠ (donationsOf mem.running).tail := DonationElem.noConfusion
  have hentry : donorEntry (.elem t) = some t := rfl
  rw [removeLoop, if_neg hne, hentry]
  dsimp only
  rw [h]
  show (match mem'.links.next (.elem t) with | none => _ | some e => removeLoop lock n e mem') = _
  rw [hnext]

/-- The loop at the first of `r`, when it has left the donors `l` behind. -/
theorem Donors.removeLoop (h : mem.Donors mem.running (l ++ r)) {n : Nat} (hn : r.length < n) :
    ∃ mem', DonorMemory.removeLoop lock n ((donationsOf mem.running).first (r.map .elem)) mem =
        .ok mem' ∧
      mem'.Donors mem.running (l ++ r.filter fun t => mem.waitingLock t ≠ some lock) ∧
      (∀ t, mem'.waitingLock t =
        if t ∈ r ∧ mem.waitingLock t = some lock then none else mem.waitingLock t) ∧
      (∀ x, x ∉ (donationsOf mem.running).nodes ((l ++ r).map .elem) →
        Lib.SameAt mem.links mem'.links x) ∧
      mem'.running = mem.running := by
  induction r generalizing mem l n with
  | nil =>
      obtain ⟨n, rfl⟩ := Nat.exists_eq_succ_of_ne_zero (Nat.ne_of_gt hn)
      exact ⟨mem, if_pos rfl, by simpa using h, by simp, fun _ _ => ⟨rfl, rfl⟩, rfl⟩
  | cons t r ih =>
      obtain ⟨n, rfl⟩ := Nat.exists_eq_succ_of_ne_zero (Nat.ne_of_gt (Nat.zero_lt_of_lt hn))
      have hlen : r.length < n := Nat.lt_of_succ_lt_succ hn
      have hnd := List.nodup_middle.1 h.nodup
      have htr : t ∉ r := fun ht => (List.nodup_cons.1 hnd).1 (List.mem_append_right _ ht)
      obtain ⟨mem₁, hturn, hturned⟩ := h.removeTurn lock
      have hnext := hturned.next
      have hdonors := hturned.remaining
      rw [← hturned.running] at hnext hdonors
      have hwaiting : ∀ u ≠ t, mem₁.waitingLock u = mem.waitingLock u := by
        intro u hu
        rw [hturned.waitingLock]
        split
        · exact update_of_ne hu _ _
        · rfl
      have hfilter : (r.filter fun u => mem₁.waitingLock u ≠ some lock) =
          r.filter fun u => mem.waitingLock u ≠ some lock :=
        List.filter_congr fun u hu => by rw [hwaiting u fun heq => htr (heq ▸ hu)]
      -- the donors in front of the cursor after the turn
      let l' := if mem.waitingLock t = some lock then l else l ++ [t]
      have hdonors' : mem₁.Donors mem₁.running (l' ++ r) := by
        simp only [l']
        split
        · next hw =>
            rwa [if_pos hw] at hdonors
        · next hw =>
            rwa [if_neg hw] at hdonors
      obtain ⟨mem', hrest, hleft, hcleared, houtside, hrunning⟩ := ih hdonors' hlen
      refine ⟨mem', (removeLoop_cons hturn hnext).trans hrest, ?_, ?_, ?_, ?_⟩
      · rw [hfilter, hturned.running] at hleft
        by_cases hw : mem.waitingLock t = some lock
        · simpa [l', hw] using hleft
        · simpa [l', hw] using hleft
      · intro u
        rw [hcleared u]
        by_cases hut : u = t
        · subst hut
          rw [if_neg fun hu => htr hu.1, hturned.waitingLock]
          by_cases hw : mem.waitingLock u = some lock <;> simp [hw]
        · simp [hwaiting u hut, hut]
      · intro x hx
        refine (hturned.outside x hx).trans (houtside x fun hmem => hx ?_)
        rw [hturned.running] at hmem
        simp only [mem_nodes, List.mem_map, List.mem_append, List.mem_cons, l'] at hmem ⊢
        split at hmem <;> grind
      · exact hrunning.trans hturned.running

theorem Donors.removed (h : mem.Donors mem.running donors) (lock : LockPtr) {fuel : Nat}
    (hfuel : donors.length < fuel) :
    ∃ mem', mem.removeLock fuel lock = .ok mem' ∧ mem.Removed mem' lock donors := by
  have hdonors : mem.Donors mem.running ([] ++ donors) := h
  obtain ⟨mem', hloop, hleft, hcleared, houtside, hrunning⟩ := hdonors.removeLoop hfuel
  refine ⟨mem', ?_, hleft, ?_, ?_, houtside, hrunning⟩
  · rw [removeLock, IsList.next_head h]
    exact hloop
  · intro t ht hw
    rw [hcleared, if_pos ⟨ht, hw⟩]
  · intro t ht
    rw [hcleared, if_neg ht]

/-! ## The lists of threads -/

/-- The memory is that of the kernel `k` of `Thread`. -/
structure Represents (mem : DonorMemory) (k : Kernel) : Prop where
  donors : ∀ t, mem.Donors t (k.donations t)
  waitingLock : mem.waitingLock = k.waitingLock
  running : mem.running = k.running

/-- The lists of two threads have no node in common. -/
theorem Represents.outside {k : Kernel} (h : mem.Represents k) (htu : t ≠ u) {x : DonationElem}
    (hx : x ∈ (donationsOf t).nodes ((k.donations t).map .elem)) :
    x ∉ (donationsOf u).nodes ((k.donations u).map .elem) := by
  cases x with
  | elem v =>
      have hv : DonationElem.elem v ∈ (k.donations t).map .elem := by simpa [donationsOf] using hx
      have htail : (donationsOf t).tail ∉ (donationsOf u).nodes ((k.donations u).map .elem) := by
        simp [donationsOf, htu]
      have hout := IsList.apart (h.donors t) (h.donors u) htail hv
      simpa [donationsOf] using hout
  | head v | tail v =>
      obtain rfl : v = t := by simpa [donationsOf] using hx
      simp [donationsOf, htu]

/-- The walk over the links does what the walk over the list does. -/
theorem Represents.removeLock {k : Kernel} (h : mem.Represents k) (lock : LockPtr) :
    ∃ mem', mem.removeLock ((k.donations k.running).length + 1) lock = .ok mem' ∧
      mem'.Represents (Project2.removeLock k lock) := by
  obtain ⟨mem', hwalk, hremoved⟩ := (h.donors mem.running).removed lock
    (Nat.lt_succ_self _)
  rw [h.running] at hwalk
  obtain ⟨hwaiting, hdonations⟩ := removeLock_links (l := lock) (h.donors k.running).nodup
  obtain ⟨w, d, hfoot⟩ := removeLoop_footprint lock (k.donations k.running) k
  have hrunning : (Project2.removeLock k lock).running = k.running := by
    rw [Project2.removeLock, hfoot]
  refine ⟨mem', hwalk, fun t => ?_, ?_, (hremoved.running.trans h.running).trans hrunning.symm⟩
  · rw [hdonations]
    by_cases ht : t = k.running
    · subst ht
      have hleft := hremoved.remaining
      rw [h.waitingLock, h.running] at hleft
      rw [update_self]
      exact hleft
    · rw [update_of_ne ht]
      have htu : t ≠ mem.running := fun heq => ht (heq.trans h.running)
      exact (h.donors t).congr fun x hx => hremoved.outside x (h.outside htu hx)
  · funext t
    rw [hwaiting t]
    by_cases hw : t ∈ k.donations k.running ∧ k.waitingLock t = some lock
    · rw [if_pos hw]
      exact hremoved.cleared t (h.running ▸ hw.1) (h.waitingLock ▸ hw.2)
    · rw [if_neg hw, ← h.waitingLock]
      exact hremoved.waitingLock t (by rwa [h.running, h.waitingLock])

end DonorMemory

end Walk

/-- `remove_lock` takes off exactly the donors that wait for the lock. -/
theorem remove_lock_removes {mem : DonorMemory} {donors : List ThreadPtr}
    (h : mem.Donors mem.running donors) (lock : LockPtr) {fuel : Nat}
    (hfuel : donors.length < fuel) :
    ∃ mem', mem.removeLock fuel lock = .ok mem' ∧ mem.Removed mem' lock donors :=
  h.removed lock hfuel

/-- The threads 1 to 4 have donated to thread 0, and all but 3 wait for the lock 7. -/
def donorMemory : DonorMemory where
  links :=
    { next := fun
        | .head 0 => some (.elem 1)
        | .elem 1 => some (.elem 2)
        | .elem 2 => some (.elem 3)
        | .elem 3 => some (.elem 4)
        | .elem 4 => some (.tail 0)
        | _ => none
      prev := fun
        | .elem 1 => some (.head 0)
        | .elem 2 => some (.elem 1)
        | .elem 3 => some (.elem 2)
        | .elem 4 => some (.elem 3)
        | .tail 0 => some (.elem 4)
        | _ => none }
  waitingLock := fun t => if t = 3 then some (.lock 8) else some (.lock 7)
  running := 0

theorem remove_lock_removes_three :
    ∃ mem', donorMemory.removeLock 5 (.lock 7) = .ok mem' ∧
      donorMemory.Removed mem' (.lock 7) [1, 2, 3, 4] :=
  remove_lock_removes ⟨by decide, by decide, rfl, rfl⟩ (.lock 7) (by decide)

end Project2
end Pintos
