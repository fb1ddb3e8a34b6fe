import Pintos.Lib.LinkedList
import Pintos.Project1.Thread

/-!
# AwakeWalk — `thread_awake` on the links of the threads

`Thread` has the ready list and the sleeping list as lists of threads.  Here they are what they are
in memory: the threads' `elem` nodes, linked between the ends of `ready_list` or `sleeping_list`.
`thread_unblock` links the node that `thread_awake` has just taken out into the other list, so the
walk goes on from what `list_remove` has returned.
-/

namespace Pintos
namespace Project1

open Lib Function
open Project2 (ThreadPtr ThreadStatus Fault assert assert_bind_eq_ok bind_eq_ok)

/-! ## The code -/

/-- A `struct list_elem`: the `elem` of a thread, or an end of one of the lists. -/
inductive Elem
  | elem (t : ThreadPtr)
  | readyHead
  | readyTail
  | sleepingHead
  | sleepingTail
  deriving DecidableEq, Repr

def readyList : ListEnds Elem := ⟨.readyHead, .readyTail⟩

def sleepingList : ListEnds Elem := ⟨.sleepingHead, .sleepingTail⟩

/-- `list_entry (e, struct thread, elem)`; the end of a list lies in no thread. -/
def listEntry : Elem → Option ThreadPtr
  | .elem t => some t
  | _ => none

/-- The links of the nodes and the other fields that `thread_awake` reads or writes. -/
structure Memory where
  links : NodeLinks Elem
  status : ThreadPtr → ThreadStatus
  sleepingTicks : ThreadPtr → Int

namespace Memory

def threadUnblock (mem : Memory) (t : ThreadPtr) : Except Fault Memory := do
  assert (mem.status t = .blocked) .notBlocked
  match mem.links.pushBack readyList (.elem t) with
  | none => .error .nullPointer
  | some links => .ok { mem with links := links, status := update mem.status t .ready }

/-- The body of the loop at the thread `t`, with the next value of `e`. -/
def awakeTurn (now : Int) (mem : Memory) (t : ThreadPtr) : Except Fault (Memory × Elem) :=
  if mem.sleepingTicks t ≤ now then
    match mem.links.remove (.elem t) with
    | none => .error .nullPointer
    | some (links, e) => do
        let mem ← { mem with links := links }.threadUnblock t
        .ok (mem, e)
  else
    match mem.links.next (.elem t) with
    | none => .error .nullPointer
    | some e => .ok (mem, e)

/-- The loop at `e`, with the threads that it visits.  The fuel bounds the number of turns. -/
def awakeLoop (now : Int) : Nat → Elem → Memory → Except Fault (Memory × List ThreadPtr)
  | 0, _, _ => .error .diverges
  | n + 1, e, mem =>
      if e = sleepingList.tail then .ok (mem, [])
      else
        match listEntry e with
        | none => .error .notThread
        | some t => do
            let (mem, e) ← awakeTurn now mem t
            let (mem, visited) ← awakeLoop now n e mem
            .ok (mem, t :: visited)

def threadAwake (fuel : Nat) (mem : Memory) (ticks : Int) :
    Except Fault (Memory × List ThreadPtr) :=
  match mem.links.next sleepingList.head with
  | none => .error .nullPointer
  | some e => awakeLoop ticks fuel e mem

end Memory

/-! ## What the walk does -/

/-- `sleeping_list` links the `elem` nodes of `sleepers`, and `ready_list` those of `ready`. -/
structure Memory.Lists (mem : Memory) (sleepers ready : List ThreadPtr) : Prop where
  sleeping : IsList mem.links sleepingList (sleepers.map .elem)
  ready : IsList mem.links readyList (ready.map .elem)

/-- The walk has visited the sleepers from front to back and moved those whose time has come to the
end of the ready list. -/
structure Memory.Awakened (mem mem' : Memory) (now : Int) (sleepers ready visited : List ThreadPtr) :
    Prop where
  order : visited = sleepers
  once : visited.Nodup
  lists : mem'.Lists (sleepers.filter fun t => now < mem.sleepingTicks t)
    (ready ++ sleepers.filter fun t => mem.sleepingTicks t ≤ now)
  woken : ∀ t ∈ sleepers, mem.sleepingTicks t ≤ now → mem'.status t = .ready
  status : ∀ t, ¬ (t ∈ sleepers ∧ mem.sleepingTicks t ≤ now) → mem'.status t = mem.status t
  sleepingTicks : mem'.sleepingTicks = mem.sleepingTicks

section Walk

variable {mem mem' : Memory} {now : Int} {l r sleepers ready : List ThreadPtr} {t : ThreadPtr}

namespace Memory.Lists

theorem nodup (h : mem.Lists sleepers ready) : sleepers.Nodup := by
  have hnd := (List.nodup_cons.1 h.sleeping.nodup).2
  exact List.Nodup.of_map _ (List.nodup_append.1 hnd).1

theorem not_ready (h : mem.Lists sleepers ready) (ht : t ∈ sleepers) : t ∉ ready := by
  have htail : sleepingList.tail ∉ readyList.nodes (ready.map .elem) := by
    simp [sleepingList, readyList]
  intro hr
  exact h.sleeping.apart h.ready htail (List.mem_map_of_mem ht) (List.mem_map_of_mem hr)

theorem outside_ready (h : ∀ u ∈ sleepers, u ∉ ready) {x : Elem}
    (hx : x ∈ sleepingList.nodes (sleepers.map .elem)) : x ∉ readyList.nodes (ready.map .elem) := by
  cases x with
  | elem u =>
      have hu : u ∈ sleepers := by simpa [sleepingList] using hx
      simpa [readyList] using h u hu
  | readyHead | readyTail =>
      simp [sleepingList] at hx
  | sleepingHead | sleepingTail =>
      simp [readyList]

/-- The node of an expired sleeper leaves the one list and joins the other. -/
theorem move (h : mem.Lists (l ++ t :: r) ready) (hblocked : mem.status t = .blocked)
    (hdue : mem.sleepingTicks t ≤ now) :
    ∃ links,
      mem.awakeTurn now t = .ok (⟨links, update mem.status t .ready, mem.sleepingTicks⟩,
        sleepingList.first (r.map .elem)) ∧
      (⟨links, update mem.status t .ready, mem.sleepingTicks⟩ : Memory).Lists (l ++ r)
        (ready ++ [t]) := by
  have hlist : IsList mem.links sleepingList (l.map .elem ++ .elem t :: r.map .elem) := by
    simpa using h.sleeping
  obtain ⟨links₁, hremove, hremoved⟩ := hlist.remove
  have hleft : IsList links₁ sleepingList ((l ++ r).map .elem) := by
    simpa using hremoved.isList
  have hsub : ∀ u ∈ l ++ r, u ∈ l ++ t :: r := by
    intro u hu
    rcases List.mem_append.1 hu with hu | hu <;> simp [hu]
  have hready : IsList links₁ readyList (ready.map .elem) := by
    refine h.ready.congr fun x hx => hremoved.outside x fun hmem => ?_
    have hmem' : x ∈ sleepingList.nodes ((l ++ r).map .elem) := by simpa using hmem
    exact outside_ready (fun u hu => h.not_ready (hsub u hu)) hmem' hx
  have hout : Elem.elem t ∉ readyList.nodes (ready.map .elem) := by
    have hnot := h.not_ready (t := t) (by simp)
    simpa [readyList] using hnot
  obtain ⟨links₂, hpush, hpushed⟩ := hready.pushBack hout
  refine ⟨links₂, ?_, ?_, ?_⟩
  · simp only [awakeTurn, if_pos hdue, hremove, threadUnblock, hblocked, hpush]
    rfl
  · refine hleft.congr fun x hx => hpushed.outside x fun hmem => ?_
    have hmem' : x ∈ readyList.nodes ((ready ++ [t]).map .elem) := by simpa using hmem
    refine outside_ready (fun u hu hr => ?_) hx hmem'
    rcases List.mem_append.1 hr with hr | hr
    · exact h.not_ready (hsub u hu) hr
    · have hnd := List.nodup_middle.1 h.nodup
      exact (List.nodup_cons.1 hnd).1 (List.mem_singleton.1 hr ▸ hu)
  · simpa using hpushed.isList

/-- The walk passes a sleeper whose time has not come. -/
theorem pass (h : mem.Lists (l ++ t :: r) ready) (hlater : now < mem.sleepingTicks t) :
    mem.awakeTurn now t = .ok (mem, sleepingList.first (r.map .elem)) := by
  have hlist : IsList mem.links sleepingList (l.map .elem ++ .elem t :: r.map .elem) := by
    simpa using h.sleeping
  simp only [awakeTurn, if_neg (not_le.2 hlater), hlist.next]

/-- The loop at the first of `r`, when it has left the sleepers `l` behind. -/
theorem awakeLoop (h : mem.Lists (l ++ r) ready) (hblocked : ∀ t ∈ r, mem.status t = .blocked)
    {n : Nat} (hn : r.length < n) :
    ∃ mem', Memory.awakeLoop now n (sleepingList.first (r.map .elem)) mem = .ok (mem', r) ∧
      mem'.Lists (l ++ r.filter fun t => now < mem.sleepingTicks t)
        (ready ++ r.filter fun t => mem.sleepingTicks t ≤ now) ∧
      (∀ t, mem'.status t =
        if t ∈ r ∧ mem.sleepingTicks t ≤ now then .ready else mem.status t) ∧
      mem'.sleepingTicks = mem.sleepingTicks := by
  induction r generalizing mem l ready n with
  | nil =>
      obtain ⟨n, rfl⟩ := Nat.exists_eq_succ_of_ne_zero (Nat.ne_of_gt hn)
      exact ⟨mem, rfl, by simpa using h, by simp, rfl⟩
  | cons t r ih =>
      obtain ⟨n, rfl⟩ := Nat.exists_eq_succ_of_ne_zero (Nat.ne_of_gt (Nat.zero_lt_of_lt hn))
      have hlen : r.length < n := Nat.lt_of_succ_lt_succ hn
      have hnd := List.nodup_middle.1 h.nodup
      have htr : t ∉ r := fun ht => (List.nodup_cons.1 hnd).1 (List.mem_append_right _ ht)
      have hturn : ∀ {mem₁ : Memory} {mem' : Memory},
          awakeTurn now mem t = .ok (mem₁, sleepingList.first (r.map .elem)) →
          Memory.awakeLoop now n (sleepingList.first (r.map .elem)) mem₁ = .ok (mem', r) →
          Memory.awakeLoop now (n + 1) (sleepingList.first ((t :: r).map .elem)) mem =
            .ok (mem', t :: r) := by
        intro mem₁ mem' hturn hrest
        have hne : sleepingList.first ((t :: r).map .elem) ≠ sleepingList.tail := Elem.noConfusion
        have hentry : listEntry (sleepingList.first ((t :: r).map .elem)) = some t := rfl
        rw [Memory.awakeLoop, if_neg hne, hentry]
        dsimp only
        rw [hturn]
        show (do let (mem, visited) ← Memory.awakeLoop now n _ mem₁; _) = _
        rw [hrest]
        rfl
      by_cases hdue : mem.sleepingTicks t ≤ now
      · obtain ⟨links, hmoved, hlists⟩ := h.move (hblocked t List.mem_cons_self) hdue
        have hblocked' : ∀ u ∈ r, update mem.status t .ready u = .blocked := by
          intro u hu
          have hut : u ≠ t := fun heq => htr (heq ▸ hu)
          rw [update_of_ne hut]
          exact hblocked u (List.mem_cons_of_mem _ hu)
        obtain ⟨mem', hrest, hlists', hstatus, hticks⟩ := ih hlists hblocked' hlen
        refine ⟨mem', hturn hmoved hrest, ?_, ?_, hticks⟩
        · simpa [hdue, not_lt.2 hdue] using hlists'
        · intro u
          rw [hstatus u]
          by_cases hut : u = t
          · simp [hut, hdue]
          · simp [hut]
      · have hlater := not_le.1 hdue
        have hlists : mem.Lists ((l ++ [t]) ++ r) ready := by simpa using h
        have hblocked' : ∀ u ∈ r, mem.status u = .blocked := fun u hu =>
          hblocked u (List.mem_cons_of_mem _ hu)
        obtain ⟨mem', hrest, hlists', hstatus, hticks⟩ := ih hlists hblocked' hlen
        refine ⟨mem', hturn (h.pass hlater) hrest, ?_, ?_, hticks⟩
        · simpa [hdue, hlater] using hlists'
        · intro u
          rw [hstatus u]
          by_cases hut : u = t
          · simp [hut, hdue]
          · simp [hut]

theorem awakened (h : mem.Lists sleepers ready) (hblocked : ∀ t ∈ sleepers, mem.status t = .blocked)
    (now : Int) {fuel : Nat} (hfuel : sleepers.length < fuel) :
    ∃ mem' visited, mem.threadAwake fuel now = .ok (mem', visited) ∧
      mem.Awakened mem' now sleepers ready visited := by
  have hlists : mem.Lists ([] ++ sleepers) ready := h
  obtain ⟨mem', hloop, hlists', hstatus, hticks⟩ := hlists.awakeLoop hblocked hfuel
  refine ⟨mem', sleepers, ?_, rfl, h.nodup, hlists', ?_, ?_, hticks⟩
  · rw [threadAwake, h.sleeping.next_head]
    exact hloop
  · intro t ht hdue
    rw [hstatus, if_pos ⟨ht, hdue⟩]
  · intro t ht
    rw [hstatus, if_neg ht]

end Memory.Lists

/-! ## The lists of threads -/

/-- The memory is that of the kernel `k` of `Thread`. -/
structure Memory.Represents (mem : Memory) (k : Kernel) : Prop where
  lists : mem.Lists k.sleepingList k.readyList
  status : mem.status = k.status
  sleepingTicks : mem.sleepingTicks = k.sleepingTicks

/-- The walk over the links does what the walk over the list does. -/
theorem Memory.Represents.threadAwake {k : Kernel} (h : mem.Represents k)
    (hblocked : ∀ t ∈ k.sleepingList, k.status t = .blocked) :
    ∃ mem' k', mem.threadAwake (k.sleepingList.length + 1) now = .ok (mem', k.sleepingList) ∧
      Project1.threadAwake k now = .ok k' ∧ mem'.Represents k' := by
  have hloop : Project1.threadAwake k now = .ok (k.awakened (k.due now)
      (k.sleepingList.filter fun t => now < k.sleepingTicks t)) :=
    @awakeLoop_eq k now _ [] k.sleepingList rfl h.lists.nodup hblocked le_rfl
  obtain ⟨mem', visited, hwalk, hawake⟩ :=
    h.lists.awakened (fun t ht => h.status ▸ hblocked t ht) now (Nat.lt_succ_self _)
  obtain rfl := hawake.order
  refine ⟨mem', _, hwalk, hloop, ?_, ?_, hawake.sleepingTicks.trans h.sleepingTicks⟩
  · have hlists := hawake.lists
    rw [h.sleepingTicks] at hlists
    exact hlists
  · funext t
    have hdue : t ∈ k.due now ↔ t ∈ k.sleepingList ∧ mem.sleepingTicks t ≤ now := by
      simp [Kernel.due, h.sleepingTicks]
    by_cases ht : t ∈ k.sleepingList ∧ mem.sleepingTicks t ≤ now
    · exact (hawake.woken t ht.1 ht.2).trans (if_pos (hdue.2 ht)).symm
    · exact ((hawake.status t ht).trans (congrFun h.status t)).trans
        (if_neg fun hmem => ht (hdue.1 hmem)).symm

end Walk

/-- `thread_awake` visits every sleeper once, and both lists stay well formed. -/
theorem thread_awake_walks {mem : Memory} {sleepers ready : List ThreadPtr}
    (h : mem.Lists sleepers ready) (hblocked : ∀ t ∈ sleepers, mem.status t = .blocked)
    (now : Int) {fuel : Nat} (hfuel : sleepers.length < fuel) :
    ∃ mem' visited, mem.threadAwake fuel now = .ok (mem', visited) ∧
      mem.Awakened mem' now sleepers ready visited :=
  h.awakened hblocked now hfuel

/-- The threads 1, 2 and 3 sleep, 4 is ready, and at tick 5 the time of 1 and 2 has come. -/
def napMemory : Memory where
  links :=
    { next := fun
        | .sleepingHead => some (.elem 1)
        | .elem 1 => some (.elem 2)
        | .elem 2 => some (.elem 3)
        | .elem 3 => some .sleepingTail
        | .readyHead => some (.elem 4)
        | .elem 4 => some .readyTail
        | _ => none
      prev := fun
        | .elem 1 => some .sleepingHead
        | .elem 2 => some (.elem 1)
        | .elem 3 => some (.elem 2)
        | .sleepingTail => some (.elem 3)
        | .elem 4 => some .readyHead
        | .readyTail => some (.elem 4)
        | _ => none }
  status := fun t => if t = 4 then .ready else .blocked
  sleepingTicks := fun t => if t = 3 then 9 else 5

theorem thread_awake_walks_nap :
    ∃ mem' visited, napMemory.threadAwake 4 5 = .ok (mem', visited) ∧
      napMemory.Awakened mem' 5 [1, 2, 3] [4] visited :=
  thread_awake_walks ⟨⟨by decide, by decide, rfl, rfl⟩, ⟨by decide, by decide, rfl, rfl⟩⟩
    (by decide) 5 (by decide)

end Project1
end Pintos
