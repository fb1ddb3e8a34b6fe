import Pintos.Project4.CommandLine
import Pintos.Project4.ExecResult

/-!
# ExecCleanup — what a call of `process_execute` leaves behind (`userprog/process.c`)

`process_execute` takes a page for a copy of the command line and opens the executable to see
whether it exists.  Where it goes on to `thread_create`, the new thread frees the page, and the call
waits for that on its `load_lock`, whether there is a new thread or not.
-/

namespace Pintos
namespace Project4

open Function Lib Userprog

/-! ## The code -/

/-- A call of `process_execute` and what it meets: the command line and what lies on the stack where
`cmd_name` gets its place, whether `palloc_get_page` has a page, the file system, and whether
`thread_create` has the memory for a thread. -/
structure ExecCall where
  fileName : List Byte
  stack : ℕ → Byte
  page : Bool
  filesysOpen : List Byte → Option FilePtr
  thread : Bool

/-- Where the call is. -/
inductive ExecPlace
  /-- before `palloc_get_page` -/
  | copy
  /-- before `filesys_open` -/
  | probe
  /-- before `thread_create` -/
  | create
  /-- before `sema_down (&load_lock)` with `TID_ERROR` -/
  | down
  /-- before `palloc_free_page` -/
  | free
  /-- `thread_create` has made `t`, and the rest of the call is that of `Procs` -/
  | started (t : Tid)
  | returned (v : ℤ)
  deriving DecidableEq

/-- The processes and a call of one of them. -/
structure Launch where
  procs : Procs
  place : ExecPlace
  /-- how many pages the call has got for `fn_copy` -/
  taken : ℕ
  /-- how often `fn_copy` has been freed -/
  freed : ℕ
  /-- the file objects that the call has opened and not closed -/
  files : List FilePtr

def Launch.start (s : Procs) : Launch := ⟨s, .copy, 0, 0, []⟩

inductive LaunchAct
  /-- the next statement of the call, where no thread is created -/
  | next
  | create (t : Tid) (pos : ℕ)
  | proc (a : ProcAct)
  deriving DecidableEq

/-- The process that takes the step. -/
def ProcAct.actor : ProcAct → Tid
  | .exec p _ _ | .wait p _ | .exit p _ | .kill p | .load p _ | .run p => p

/-- The process is in the call and has no thread from it. -/
def ExecPlace.alone : ExecPlace → Bool
  | .started _ | .returned _ => false
  | _ => true

/-- The next statement of `process_execute`. -/
def executeStep (c : ExecCall) (p : Tid) (l : Launch) : Option Launch :=
  match l.place with
  | .copy =>
      if c.page then some { l with place := .probe, taken := l.taken + 1 }
      else some { l with place := .returned (-1) }
  | .probe =>
      match c.filesysOpen (cmdName 256 c.fileName c.stack) with
      | none => some { l with place := .returned (-1) }
      | some f => some { l with place := .create, files := f :: l.files }
  | .create => if c.thread then none else some { l with place := .down }
  | .down =>
      if l.procs.loadLock p = 0 then none
      else
        let procs :=
          { l.procs with loadLock := update l.procs.loadLock p (l.procs.loadLock p - 1) }
        some { l with procs := procs, place := .free }
  | .free =>
      -- the loop returns -1 with and without `process_wait`, for no child has this `tid`
      some { l with place := .returned (-1), freed := l.freed + 1 }
  | .started _ | .returned _ => none

/-- `start_process` before `palloc_free_page` and `sema_up (&parent->load_lock)`. -/
def Pc.freeing : Pc → Bool
  | .loaded _ => true
  | _ => false

/-- How often a step of the processes frees `fn_copy`. -/
def Launch.frees (l : Launch) (a : ProcAct) : ℕ :=
  match l.place with
  | .started t => if a = .run t ∧ (l.procs.pc t).freeing = true then 1 else 0
  | _ => 0

def launchStep (v₀ : ℤ) (c : ExecCall) (p : Tid) (a : LaunchAct) (l : Launch) : Option Launch :=
  match a with
  | .next => executeStep c p l
  | .create t pos =>
      if l.place = .create ∧ c.thread = true then
        (procStep v₀ (.exec p t pos) l.procs).map fun s => { l with procs := s, place := .started t }
      else none
  | .proc a =>
      if l.place.alone = true ∧ a.actor = p then none
      else
        (procStep v₀ a l.procs).map fun s => { l with procs := s, freed := l.freed + l.frees a }

/-! ## The property -/

namespace Launch

variable (l : Launch) (p : Tid)

def Returned (v : ℤ) : Prop :=
  l.place = .returned v ∨ ∃ t, l.place = .started t ∧ .execReturned p t v ∈ l.procs.log

/-- The call waits on `load_lock`, and there is no child that would raise it. -/
def Blocked : Prop := l.place = .down ∧ l.procs.loadLock p = 0

/-- The call does not go on. -/
def Over : Prop := (∃ v, l.Returned p v) ∨ l.Blocked p

/-- The call has made a child whose program has been loaded. -/
def Runs : Prop := ∃ t, l.place = .started t ∧ .loaded t true ∈ l.procs.log

structure CleansUp : Prop where
  page : l.freed = l.taken
  files : l.files = []
  value : ∀ v, l.Returned p v → ¬ l.Runs → v = -1
  unblocked : ¬ l.Blocked p

end Launch

/-! ## The cases of a step -/

/-- What a step can do. -/
inductive LaunchTrans (v₀ : ℤ) (c : ExecCall) (p : Tid) (l : Launch) : LaunchAct → Launch → Prop
  | take (hplace : l.place = .copy) (hpage : c.page = true) :
      LaunchTrans v₀ c p l .next { l with place := .probe, taken := l.taken + 1 }
  | noPage (hplace : l.place = .copy) (hpage : c.page = false) :
      LaunchTrans v₀ c p l .next { l with place := .returned (-1) }
  | missing (hplace : l.place = .probe)
      (hopen : c.filesysOpen (cmdName 256 c.fileName c.stack) = none) :
      LaunchTrans v₀ c p l .next { l with place := .returned (-1) }
  | found {f : FilePtr} (hplace : l.place = .probe)
      (hopen : c.filesysOpen (cmdName 256 c.fileName c.stack) = some f) :
      LaunchTrans v₀ c p l .next { l with place := .create, files := f :: l.files }
  | noThread (hplace : l.place = .create) (hthread : c.thread = false) :
      LaunchTrans v₀ c p l .next { l with place := .down }
  | lower (hplace : l.place = .down) (hlock : l.procs.loadLock p ≠ 0) :
      LaunchTrans v₀ c p l .next
        { l with
          procs := { l.procs with loadLock := update l.procs.loadLock p (l.procs.loadLock p - 1) }
          place := .free }
  | free (hplace : l.place = .free) :
      LaunchTrans v₀ c p l .next { l with place := .returned (-1), freed := l.freed + 1 }
  | create {t : Tid} {pos : ℕ} {s : Procs} (hplace : l.place = .create) (hthread : c.thread = true)
      (hs : Trans v₀ l.procs (.exec p t pos) s) :
      LaunchTrans v₀ c p l (.create t pos) { l with procs := s, place := .started t }
  | proc {a : ProcAct} {s : Procs} (ha : l.place.alone = true → a.actor ≠ p)
      (hs : Trans v₀ l.procs a s) :
      LaunchTrans v₀ c p l (.proc a) { l with procs := s, freed := l.freed + l.frees a }

section LaunchTrans

variable {v₀ : ℤ} {c : ExecCall} {p : Tid} {a : LaunchAct} {l l' : Launch}

theorem launchTrans_of_executeStep (h : executeStep c p l = some l') :
    LaunchTrans v₀ c p l .next l' := by
  unfold executeStep at h
  split at h
  · next hplace =>
      split at h
      · next hpage =>
          cases h
          exact .take hplace hpage
      · next hpage =>
          cases h
          exact .noPage hplace (Bool.eq_false_of_not_eq_true hpage)
  · next hplace =>
      split at h
      · next hopen =>
          cases h
          exact .missing hplace hopen
      · next hopen =>
          cases h
          exact .found hplace hopen
  · next hplace =>
      split at h
      · cases h
      · next hthread =>
          cases h
          exact .noThread hplace (Bool.eq_false_of_not_eq_true hthread)
  · next hplace =>
      split at h
      · cases h
      · next hlock =>
          cases h
          exact .lower hplace hlock
  · next hplace =>
      cases h
      exact .free hplace
  · cases h
  · cases h

theorem launchTrans_of_launchStep (h : launchStep v₀ c p a l = some l') :
    LaunchTrans v₀ c p l a l' := by
  cases a with
  | next =>
      exact launchTrans_of_executeStep h
  | create t pos =>
      obtain ⟨⟨hplace, hthread⟩, hmap⟩ := Option.ite_none_right_eq_some.1 h
      obtain ⟨s, hs, rfl⟩ := Option.map_eq_some_iff.1 hmap
      exact .create hplace hthread (trans_of_procStep hs)
  | proc a =>
      obtain ⟨ha, hmap⟩ := Option.ite_none_left_eq_some.1 h
      obtain ⟨s, hs, rfl⟩ := Option.map_eq_some_iff.1 hmap
      exact .proc (fun halone hactor => ha ⟨halone, hactor⟩) (trans_of_procStep hs)

end LaunchTrans

/-! ## Steps of the child -/

section Child

variable {v₀ v : ℤ} {s s' : Procs} {p t : Tid} {a : ProcAct}

/-- A step moves no other process. -/
theorem Trans.pc_of_ne (hs : Trans v₀ s a s') (ht : s.pc t ≠ .absent) (hne : t ≠ a.actor) :
    s'.pc t = s.pc t := by
  cases hs with
  | @exec p u pos hp hu hpos =>
      have htu : t ≠ u := fun heq => ht (heq ▸ hu)
      exact (update_of_ne hne _ _).trans (update_of_ne htu _ _)
  | wait hp | exit hp hroot | kill hp hroot | load hp | raise hp | fail hp | lower hp hlock
  | scanNone hp | scanHit hp hc | scanLast hp hc | scanNext hp hc htodo | refuse hp | found hp htid
  | pass hp htid | down hp hlock | read hp | unlink hp | up hp | exitUp hp | exitDown hp hlock =>
      exact update_of_ne hne _ _

/-- The child is starting until it has freed the page. -/
theorem Trans.starting (hs : Trans v₀ s a s') (ht : s.pc t ≠ .absent) :
    (if (s'.pc t).starting then 0 else 1) =
      (if (s.pc t).starting then 0 else 1) +
        (if a = .run t ∧ (s.pc t).freeing = true then 1 else 0) := by
  by_cases hne : t = a.actor
  · cases hs with
    | exec hp hu hpos =>
        obtain rfl := hne
        simp [threadCreate, hp, Pc.starting]
    | wait hp | exit hp hroot | kill hp hroot | load hp =>
        obtain rfl := hne
        simp [exitWith, Procs.goto, Procs.record, hp, Pc.starting]
    | @raise p success hp =>
        obtain rfl := hne
        cases success <;> simp [Procs.goto, hp, Pc.starting, Pc.freeing]
    | fail hp | lower hp hlock | scanNone hp | scanHit hp hc | scanLast hp hc
    | scanNext hp hc htodo | refuse hp | found hp htid | pass hp htid | down hp hlock | read hp
    | unlink hp | up hp | exitUp hp | exitDown hp hlock =>
        obtain rfl := hne
        simp [exitWith, waitReturn, Procs.goto, Procs.record, hp, Pc.starting,
          Pc.freeing]
  · have hrun : a ≠ .run t := fun heq => hne (by rw [heq]; rfl)
    rw [hs.pc_of_ne ht hne, if_neg (not_and_of_not_left _ hrun), Nat.add_zero]

theorem Caller.of_mem_returned {c : Caller} {q : Tid} {w : ℤ}
    (h : .execReturned p t v ∈ c.returned q w) : p = q := by
  cases c with
  | wait =>
      cases h
  | exec u =>
      cases List.mem_singleton.1 h
      rfl

/-- Where `process_execute` returns, its process is back in the program. -/
theorem Trans.execReturned (hs : Trans v₀ s a s') (hv : .execReturned p t v ∈ s'.log) :
    .execReturned p t v ∈ s.log ∨ s'.pc p = .user := by
  cases hs with
  | exec hp hu hpos | wait hp | raise hp | lower hp hlock | scanNext hp hc htodo | found hp htid
  | pass hp htid | down hp hlock | exitUp hp | exitDown hp hlock =>
      exact Or.inl hv
  | exit hp hroot | kill hp hroot | load hp | fail hp | scanHit hp hc | read hp | unlink hp =>
      exact Or.inl (by simpa [exitWith, Procs.goto, Procs.record] using hv)
  | scanNone hp | scanLast hp hc =>
      rcases List.mem_append.1 hv with hold | hnew
      · exact Or.inl hold
      · cases List.mem_singleton.1 hnew
        exact Or.inr (update_self _ _ _)
  | refuse hp | up hp =>
      rcases List.mem_append.1 hv with hold | hnew
      · exact Or.inl hold
      · rcases List.mem_cons.1 hnew with heq | hreturned
        · cases heq
        · obtain rfl := Caller.of_mem_returned hreturned
          exact Or.inr (update_self _ _ _)

end Child

/-! ## The invariant -/

/-- The pages taken, the times that the page has been freed, and the open files. -/
def Launch.books (l : Launch) : ℕ × ℕ × ℕ := (l.taken, l.freed, l.files.length)

/-- What the call has in the place where it is. -/
def Launch.Balanced (c : ExecCall) (l : Launch) : Prop :=
  match l.place with
  | .copy => l.books = (0, 0, 0)
  | .probe => c.page = true ∧ l.books = (1, 0, 0)
  | .create | .down => c.page = true ∧ l.books = (1, 0, 1)
  | .free => False
  | .started t => c.page = true ∧ l.books = (1, if (l.procs.pc t).starting then 0 else 1, 1)
  | .returned v => v = -1 ∧ l.books = (if c.page then 1 else 0, 0, 0)

/-- The call does not return to its process before the child has freed the page. -/
structure Procs.ChildOf (s : Procs) (p t : Tid) : Prop where
  created : s.Created t
  parent : s.parent t = p
  returned : (s.pc t).starting = true → ∀ v, .execReturned p t v ∉ s.log

structure Launch.Valid (c : ExecCall) (p : Tid) (l : Launch) : Prop where
  procs : l.procs.ExecInv
  alone : l.place.alone = true → l.procs.pc p = .user
  balanced : l.Balanced c
  child : ∀ t, l.place = .started t → l.procs.ChildOf p t

section Valid

variable {v₀ : ℤ} {s s' : Procs} {c : ExecCall} {p t : Tid} {a : ProcAct} {l l' : Launch}

/-- A process stays created, and its parent stays the same. -/
theorem Trans.created (hs : Trans v₀ s a s') (ht : s.Created t) :
    s'.Created t ∧ s'.parent t = s.parent t := by
  rcases hs.moves with ⟨q, u, pos, -, hq, hu, -, rfl⟩ | ⟨q, k, es, hmoves, -⟩
  · have htu : t ≠ u := fun heq => ht.2 (heq ▸ hu)
    refine ⟨⟨ht.1, ?_⟩, update_of_ne htu _ _⟩
    by_cases htq : t = q
    · simp [threadCreate, htq]
    · simpa [threadCreate, htq, htu] using ht.2
  · exact ⟨hmoves.created.2 ht, congrFun hmoves.parent t⟩

theorem Procs.ChildOf.step (h : s.ChildOf p t) (hi : s'.ExecInv) (hs : Trans v₀ s a s') :
    s'.ChildOf p t := by
  obtain ⟨hcreated, hparent⟩ := hs.created h.created
  refine ⟨hcreated, hparent.trans h.parent, fun hstart v hv => ?_⟩
  -- while the child is starting, its parent waits for it
  have hdown : s'.pc p = .execDown t := by
    have hwaits := hi.locks.parent t hcreated hstart
    rwa [hparent, h.parent] at hwaits
  have hbefore : (s.pc t).starting = true := by
    have hsum := hs.starting h.created.2
    rw [hstart] at hsum
    by_contra hnot
    rw [if_pos rfl, if_neg hnot] at hsum
    omega
  rcases hs.execReturned hv with hold | huser
  · exact h.returned hbefore v hold
  · rw [hdown] at huser
    cases huser

/-- A new thread. -/
theorem Procs.ChildOf.new {pos : ℕ} (h : s.ExecInv) (hp : s.pc p = .user) (ht : s.pc t = .absent) :
    (threadCreate v₀ p t pos s).ChildOf p t := by
  have htp : t ≠ p := by
    rintro rfl
    rw [hp] at ht
    cases ht
  have hroot : t ≠ root := by
    rintro rfl
    exact Pc.active_ne_absent h.staged.tree.root ht
  refine ⟨⟨hroot, by simp [threadCreate, htp]⟩, update_self _ _ _, fun _ v hv => ?_⟩
  exact (h.loads t).none (Or.inl fun hc => hc.2 ht) (List.mem_filterMap.2 ⟨_, hv, rfl⟩)

theorem Launch.Valid.start (h : s.ExecInv) (hp : s.pc p = .user) : (Launch.start s).Valid c p :=
  ⟨h, fun _ => hp, rfl, nofun⟩

/-- No one raises the `load_lock` of a process that has no thread from its call. -/
theorem Launch.Valid.loadLock (h : l.Valid c p) (halone : l.place.alone = true) :
    l.procs.loadLock p = 0 := by
  refine h.procs.locks.free p fun t ht => ?_
  rw [h.alone halone] at ht
  cases ht

theorem Launch.Valid.step {a : LaunchAct} (h : l.Valid c p) (hs : LaunchTrans v₀ c p l a l') :
    l'.Valid c p := by
  have hbalanced := h.balanced
  have halone := h.alone
  simp only [Launch.Balanced, Launch.books] at hbalanced
  cases hs with
  | take hplace hpage =>
      rw [hplace] at hbalanced halone
      refine ⟨h.procs, fun _ => halone rfl, ?_, nofun⟩
      simpa [Launch.Balanced, Launch.books, hpage] using hbalanced
  | noPage hplace hpage =>
      rw [hplace] at hbalanced
      refine ⟨h.procs, nofun, ?_, nofun⟩
      simpa [Launch.Balanced, Launch.books, hpage] using hbalanced
  | missing hplace hopen =>
      rw [hplace] at hbalanced
      refine ⟨h.procs, nofun, ⟨rfl, ?_⟩, nofun⟩
      rw [if_pos hbalanced.1]
      exact hbalanced.2
  | found hplace hopen =>
      rw [hplace] at hbalanced halone
      refine ⟨h.procs, fun _ => halone rfl, ?_, nofun⟩
      simpa [Launch.Balanced, Launch.books] using hbalanced
  | noThread hplace hthread =>
      rw [hplace] at hbalanced halone
      exact ⟨h.procs, fun _ => halone rfl, hbalanced, nofun⟩
  | lower hplace hlock =>
      exact absurd (h.loadLock (by rw [hplace]; rfl)) hlock
  | free hplace =>
      rw [hplace] at hbalanced
      exact hbalanced.elim
  | @create t pos s hplace hthread hs =>
      rw [hplace] at hbalanced
      have hprocs := h.procs.step hs
      cases hs with
      | exec hp ht hpos =>
          have hchild : (threadCreate v₀ p t pos l.procs).ChildOf p t := .new h.procs hp ht
          refine ⟨hprocs, nofun, ⟨hbalanced.1, ?_⟩, ?_⟩
          · have htp : t ≠ p := by
              rintro rfl
              rw [hp] at ht
              cases ht
            simpa [Launch.books, threadCreate, htp, Pc.starting] using hbalanced.2
          · rintro u ⟨⟩
            exact hchild
  | @proc a s ha hs =>
      refine ⟨h.procs.step hs, fun hnow => ?_, ?_, fun t ht => ?_⟩
      · have hp := halone hnow
        rw [hs.pc_of_ne (by simp [hp]) (ha hnow).symm, hp]
      · cases hplace : l.place with
        | started t =>
            rw [hplace] at hbalanced
            have hsum := hs.starting (h.child t hplace).created.2
            obtain ⟨hpage, hbooks⟩ := hbalanced
            simp only [Prod.mk.injEq] at hbooks
            simp only [Launch.Balanced, Launch.books, Launch.frees, hplace, Prod.mk.injEq, hsum]
            exact ⟨hpage, hbooks.1, congrArg (· + _) hbooks.2.1, hbooks.2.2⟩
        | free =>
            rw [hplace] at hbalanced
            exact hbalanced.elim
        | copy | probe | create | down | returned v =>
            rw [hplace] at hbalanced
            simpa [Launch.Balanced, Launch.books, Launch.frees, hplace] using hbalanced
      · exact (h.child t ht).step (h.procs.step hs) hs

theorem Launch.Valid.of_reach {P : Launch → LaunchAct → Prop} {s₀ : Procs} (h₀ : s₀.ExecInv)
    (hp : s₀.pc p = .user) (h : Reach (launchStep v₀ c p) P (.start s₀) l) : l.Valid c p :=
  h.invariant (.start h₀ hp) fun _ _ _ hi _ hs => hi.step (launchTrans_of_launchStep hs)

/-! ## How a call ends -/

/-- What has become of a call that does not go on. -/
inductive Launch.Ended (c : ExecCall) (p : Tid) (l : Launch) : Prop
  | noPage (hplace : l.place = .returned (-1)) (hpage : c.page = false) (hbooks : l.books = (0, 0, 0))
  /-- the executable has not been found -/
  | missing (hplace : l.place = .returned (-1)) (hpage : c.page = true) (hbooks : l.books = (1, 0, 0))
  | blocked (hplace : l.place = .down) (hpage : c.page = true) (hbooks : l.books = (1, 0, 1))
  | started {t : Tid} (hplace : l.place = .started t) (hpage : c.page = true)
      (hbooks : l.books = (1, 1, 1))

/-- A page that is not freed by the child is lost, and the file stays open. -/
theorem Launch.Valid.ended (h : l.Valid c p) (hover : l.Over p) : l.Ended c p := by
  have hbalanced := h.balanced
  simp only [Launch.Balanced] at hbalanced
  rcases hover with ⟨v, hplace | ⟨t, hplace, hv⟩⟩ | ⟨hplace, -⟩
  · rw [hplace] at hbalanced
    obtain ⟨rfl, hbooks⟩ := hbalanced
    cases hpage : c.page with
    | true =>
        exact .missing hplace hpage (by rw [hbooks, if_pos hpage])
    | false =>
        exact .noPage hplace hpage (by rw [hbooks, hpage]; rfl)
  · rw [hplace] at hbalanced
    have hstarted : (l.procs.pc t).starting ≠ true := fun hstart =>
      (h.child t hplace).returned hstart v hv
    refine .started hplace hbalanced.1 ?_
    rw [hbalanced.2, if_neg hstarted]
  · rw [hplace] at hbalanced
    exact .blocked hplace hbalanced.1 hbalanced.2

/-- Nothing wakes a call without a child from its `sema_down`. -/
theorem Launch.Valid.stays_blocked (h : l.Valid c p) (hplace : l.place = .down) {a : LaunchAct}
    (hs : LaunchTrans v₀ c p l a l') : l'.place = .down := by
  have hlock := h.loadLock (by rw [hplace]; rfl)
  cases hs with
  | take hplace' | noPage hplace' | missing hplace' | found hplace' | noThread hplace'
  | free hplace' | create hplace' =>
      exact absurd (hplace.symm.trans hplace') (by simp)
  | lower _ hne =>
      exact absurd hlock hne
  | proc ha hs =>
      exact hplace

theorem Launch.Valid.blocked_forever {P : Launch → LaunchAct → Prop} (h : l.Valid c p)
    (hblocked : l.Blocked p) (hrun : Reach (launchStep v₀ c p) P l l') : l'.Blocked p := by
  have hinv : l'.Valid c p ∧ l'.place = .down := by
    induction hrun with
    | init =>
        exact ⟨h, hblocked.1⟩
    | next _ _ hs ih =>
        have hs' := launchTrans_of_launchStep hs
        exact ⟨ih.1.step hs', ih.1.stays_blocked ih.2 hs'⟩
  exact ⟨hinv.2, hinv.1.loadLock (by rw [hinv.2]; rfl)⟩

theorem Launch.Ended.cleansUp_iff (h : l.Ended c p) : l.CleansUp p ↔ c.page = false := by
  cases h with
  | noPage hplace hpage hbooks =>
      refine iff_of_true ?_ hpage
      simp only [Launch.books, Prod.mk.injEq, List.length_eq_zero_iff] at hbooks
      obtain ⟨htaken, hfreed, hfiles⟩ := hbooks
      refine ⟨hfreed.trans htaken.symm, hfiles, ?_, fun hblocked => ?_⟩
      · rintro v (hv | ⟨t, ht, -⟩) -
        · cases hplace.symm.trans hv
          rfl
        · cases hplace.symm.trans ht
      · cases hplace.symm.trans hblocked.1
  | missing hplace hpage hbooks =>
      refine iff_of_false (fun hclean => ?_) (by simp [hpage])
      have hpages := hclean.page
      simp only [Launch.books, Prod.mk.injEq] at hbooks
      omega
  | blocked hplace hpage hbooks | started hplace hpage hbooks =>
      refine iff_of_false (fun hclean => ?_) (by simp [hpage])
      have hopen : l.files.length = 1 := congrArg (·.2.2) hbooks
      rw [hclean.files] at hopen
      cases hopen

end Valid

/-- A call that has got a page for the copy leaves the page or an open file behind, or it never
returns. -/
theorem execute_cleans_up_iff {v₀ : ℤ} {s₀ : Procs} {c : ExecCall} {p : Tid} {l : Launch}
    (h₀ : Reach (procStep v₀) (fun _ _ => True) noProcs s₀) (hp : s₀.pc p = .user)
    (h : Reach (launchStep v₀ c p) (fun _ _ => True) (.start s₀) l) (hover : l.Over p) :
    l.CleansUp p ↔ c.page = false :=
  ((Launch.Valid.of_reach (execInv_of_reach h₀) hp h).ended hover).cleansUp_iff

/-! ### The command line `a` -/

/-- The only file is `a`. -/
def callA (page thread : Bool) : ExecCall where
  fileName := [0x61]
  stack := fun _ => 0
  page := page
  filesysOpen := fun name => if name = [0x61] then some 1 else none
  thread := thread

/-- Without a page the call returns at once. -/
theorem execute_cleans_up_no_page :
    (Launch.mk noProcs (.returned (-1)) 0 0 []).CleansUp 0 ↔ (callA false true).page = false :=
  @execute_cleans_up_iff 0 noProcs (callA false true) 0 _ .init rfl
    (.next (a := .next) .init trivial rfl) (Or.inl ⟨-1, Or.inl rfl⟩)

/-- Process 1 is created and loaded, and the call returns its `tid`. -/
def startA : List LaunchAct :=
  [.next, .next, .create 1 0, .proc (.load 1 true), .proc (.run 1), .proc (.run 0), .proc (.run 0)]

def launchedA : Launch :=
  (runAll (launchStep 0 (callA true true) 0) startA (.start noProcs)).get (by decide +kernel)

/-- `thread_create` fails. -/
def blockedA : Launch :=
  (runAll (launchStep 0 (callA true false) 0) [.next, .next, .next] (.start noProcs)).get
    (by decide +kernel)

/-- When nothing fails the file is left open, and when there is no thread the call waits for one. -/
theorem execute_leaves_behind :
    (Reach (launchStep 0 (callA true true) 0) (fun _ _ => True) (.start noProcs) launchedA ∧
        launchedA.Returned 0 1 ∧ ¬ launchedA.CleansUp 0) ∧
      Reach (launchStep 0 (callA true false) 0) (fun _ _ => True) (.start noProcs) blockedA ∧
        blockedA.Blocked 0 ∧ ¬ blockedA.CleansUp 0 := by
  have hend : launchedA.place = .started 1 ∧ .execReturned 0 1 1 ∈ launchedA.procs.log ∧
      launchedA.files = [1] := by
    decide +kernel
  have hblocked : blockedA.Blocked 0 := ⟨by decide +kernel, by decide +kernel⟩
  refine ⟨⟨Reach.get_runAll (by decide +kernel) fun _ _ _ => trivial,
    Or.inr ⟨1, hend.1, hend.2.1⟩, fun hclean => ?_⟩,
    Reach.get_runAll (by decide +kernel) fun _ _ _ => trivial, hblocked,
    fun hclean => hclean.unblocked hblocked⟩
  have hfiles := hclean.files
  rw [hend.2.2] at hfiles
  cases hfiles

end Project4
end Pintos
