import Mathlib.Data.List.Nodup
import Pintos.Project3.Processes

/-!
# ExecWait — what exec, wait and exit make of each other

No step raises a semaphore, `exec` takes the new child out of the list in which `wait` looks for it,
and `thread_create` does not get past the null pointers of its caller.
-/

namespace Pintos
namespace Project3

open Userprog Function Lib

/-! ## The steps one by one -/

/-- What a thread can do to itself, with the events that it adds. -/
inductive Move (m : Machine) (p : Tid) : Thread → List ProcEvent → Prop
  | stay : Move m p (m.thread p) []
  | execFail : Move m p (m.thread p) [.execFailed p]
  | execDown {t : Tid} {w : Word} (hpc : (m.thread p).pc = .execDown t)
      (hw : semaDown (m.thread p).semaLoad = .ok w) :
      Move m p { m.thread p with semaLoad := w, pc := .execUnlink t } []
  | execUnlink {t : Tid} (hpc : (m.thread p).pc = .execUnlink t) :
      Move m p { m.thread p with children := (m.thread p).children.erase t, pc := .user }
        [.execReturned p t]
  | waitRefuse {tid : ℤ} (htid : ∀ t ∈ (m.thread p).children, tid ≠ (t : Tid)) :
      Move m p (m.thread p) [.waitRefused p tid]
  | waitFind {t : Tid} (ht : t ∈ (m.thread p).children) :
      Move m p { m.thread p with pc := .waitDown t } []
  | waitDown {t : Tid} {w : Word} (hpc : (m.thread p).pc = .waitDown t)
      (hw : semaDown (m.thread p).semaExit = .ok w) :
      Move m p { m.thread p with semaExit := w, pc := .waitUnlink t } []
  | waitUnlink {t : Tid} (hpc : (m.thread p).pc = .waitUnlink t) :
      Move m p { m.thread p with children := (m.thread p).children.erase t, pc := .user }
        [.waitReturned p t (m.thread t).exitStatus]
  | exit {status : ℤ} :
      Move m p { m.thread p with exitStatus := status, pc := .exiting } [.exitCalled p status]
  | load {success : Bool} :
      Move m p { m.thread p with pc := if success then .user else .exiting } [.loaded p success]
  | mark (hpc : (m.thread p).pc = .exiting) :
      Move m p { m.thread p with isProcessExit := true, pc := .exitDown } []
  | die {w : Word} (hpc : (m.thread p).pc = .exitDown)
      (hw : semaDown (m.thread p).semaExit = .ok w) :
      Move m p { m.thread p with semaExit := w, pc := .gone } []

/-- The machine with a new child of `p`, which goes on at `k`. -/
def withChild (p : Tid) (entry k : Pc) (m : Machine) : Machine :=
  let th := m.thread p
  { m with
    thread := update (update m.thread p
      { th with children := th.children ++ [m.nextTid], pc := k }) m.nextTid (initThread entry)
    nextTid := m.nextTid + 1
    value := update (update m.value th.semaExit 0) th.semaLoad 0 }

/-- `p` has made a move. -/
def Machine.move (m : Machine) (p : Tid) (th : Thread) (es : List ProcEvent) : Machine :=
  { m with thread := update m.thread p th, log := m.log ++ es }

/-- Everything that a step can do. -/
inductive Trans (m : Machine) : Machine → Prop
  | panic {e : Panic} : Trans m { m with panic := some e }
  | move {p : Tid} {th : Thread} {es : List ProcEvent} (hp : (m.thread p).pc ≠ .absent)
      (h : Move m p th es) :
      Trans m (m.move p th es)
  | create {p : Tid} {entry k : Pc} (hp : (m.thread p).pc = .user)
      (hentry : entry = .user ∨ entry = .loading) (hk : k = .user ∨ k = .execDown m.nextTid)
      (hexit : (m.thread p).semaExit ≠ 0) (hload : (m.thread p).semaLoad ≠ 0) : Trans m (withChild p entry k m)

/-- `nextTid` has not been given out. -/
structure Machine.Numbered (m : Machine) : Prop where
  thread : ∀ t, (m.thread t).pc ≠ .absent → t < m.nextTid
  child : ∀ p, ∀ t ∈ (m.thread p).children, t < m.nextTid

section Steps

variable {m m' : Machine} {p t : Tid} {a : ProcAct} {entry : Pc} {r : Except Panic Machine}

/-- All that stands between the two assertions and the semaphores. -/
theorem threadCreate_cases :
    threadCreate p entry m = .error .assertion ∨
      ((m.thread p).semaExit ≠ 0 ∧ (m.thread p).semaLoad ≠ 0 ∧
        threadCreate p entry m = .ok (m.nextTid, withChild p entry (m.thread p).pc m)) := by
  cases hmem : (m.thread p).memoryLoad with
  -- the assertions on the parent come first
  | true =>
      left
      simp only [threadCreate, assert, hmem]
      rfl
  | false =>
      cases hdead : (m.thread p).isProcessExit with
      | true =>
          left
          simp only [threadCreate, assert, hmem, hdead]
          rfl
      | false =>
          -- then `sema_init` refuses a null pointer, `sema_exit` before `sema_load`
          by_cases hexit : (m.thread p).semaExit = 0
          · left
            simp only [threadCreate, assert, hmem, hdead, semaInit, hexit]
            rfl
          · by_cases hload : (m.thread p).semaLoad = 0
            · left
              simp only [threadCreate, assert, hmem, hdead, semaInit, hexit, hload]
              rfl
            · refine Or.inr ⟨hexit, hload, ?_⟩
              simp only [threadCreate, assert, withChild, hmem, hdead, semaInit, hexit, hload,
                if_false]
              rfl

theorem threadCreate_null (h : (m.thread p).semaExit = 0) :
    threadCreate p entry m = .error .assertion := by
  rcases threadCreate_cases with herror | ⟨hexit, -⟩
  · exact herror
  · exact absurd h hexit

theorem execScan_withChild (hp : p < m.nextTid) (hnew : m.nextTid ∉ (m.thread p).children) :
    execScan p m.nextTid (withChild p entry (m.thread p).pc m) =
      withChild p entry (.execDown m.nextTid) m := by
  have hth : (withChild p entry (m.thread p).pc m).thread p =
      { m.thread p with children := (m.thread p).children ++ [m.nextTid] } := by
    simp [withChild, Nat.ne_of_lt hp]
  -- the new child stands last, and no other child has its number
  have hfind : ((withChild p entry (m.thread p).pc m).thread p).children.find?
      (fun (t : Tid) => (m.nextTid : ℤ) = t) = some m.nextTid := by
    rw [hth, List.find?_append, List.find?_eq_none.2]
    · simp
    · intro t ht heq
      have hid : m.nextTid = t := by simpa using heq
      exact hnew (hid ▸ ht)
  rw [execScan, hfind]
  simp only [Machine.goto, Machine.set, hth]
  rw [withChild, withChild]
  simp only [Machine.mk.injEq, and_true]
  -- the parent's second update replaces the first, past the child's
  rw [update_comm (Nat.ne_of_lt hp).symm, update_idem, update_comm (Nat.ne_of_lt hp)]

theorem Trans.stay (hp : (m.thread p).pc ≠ .absent) : Trans m m := by
  have h := Trans.move hp (Move.stay (m := m) (p := p))
  rwa [Machine.move, update_eq_self, List.append_nil] at h

theorem Trans.record {e : ProcEvent} (hp : (m.thread p).pc ≠ .absent)
    (h : Move m p (m.thread p) [e]) : Trans m (m.record e) := by
  have hmove := Trans.move hp h
  rwa [Machine.move, update_eq_self] at hmove

theorem Trans.goto {th : Thread} (hp : (m.thread p).pc ≠ .absent) (h : Move m p th []) :
    Trans m (m.set p th) := by
  have hmove := Trans.move hp h
  rwa [Machine.move, List.append_nil] at hmove

theorem ok_of_semaDown {x : Word} {f : Word → Machine}
    (h : (do let w ← semaDown x; pure (f w)) = .ok m') : ∃ w, semaDown x = .ok w ∧ f w = m' := by
  cases hw : semaDown x with
  | error e =>
      rw [hw] at h
      cases h
  | ok w =>
      rw [hw] at h
      exact ⟨w, rfl, Except.ok.inj h⟩

theorem trans_of_runStep (h : runStep p m = some (.ok m')) : Trans m m' := by
  simp only [runStep] at h
  split at h
  -- each access of a thread in the kernel is one of its moves
  case h_1 t hpc =>
      obtain ⟨w, hw, rfl⟩ := ok_of_semaDown (Option.some.inj h)
      exact .goto (by simp [hpc]) (.execDown hpc hw)
  case h_2 t hpc =>
      cases h
      have hmove := Trans.move (by simp [hpc]) (Move.execUnlink hpc)
      simpa [Machine.move, unlink, Machine.goto, Machine.set, Machine.record] using hmove
  case h_3 t hpc =>
      obtain ⟨w, hw, rfl⟩ := ok_of_semaDown (Option.some.inj h)
      exact .goto (by simp [hpc]) (.waitDown hpc hw)
  case h_4 t hpc =>
      cases h
      have hmove := Trans.move (by simp [hpc]) (Move.waitUnlink hpc)
      simpa [Machine.move, unlink, Machine.goto, Machine.set, Machine.record] using hmove
  case h_5 hpc =>
      cases h
      exact .goto (by simp [hpc]) (.mark hpc)
  case h_6 hpc =>
      obtain ⟨w, hw, rfl⟩ := ok_of_semaDown (Option.some.inj h)
      exact .goto (by simp [hpc]) (.die hpc hw)
  all_goals cases h

theorem trans_of_threadCreate (hn : m.Numbered) (hp : (m.thread p).pc = .user)
    (hentry : entry = .user ∨ entry = .loading) (h : threadCreate p entry m = .ok (t, m')) :
    t = m.nextTid ∧ Trans m m' ∧ Trans m (execScan p t m') := by
  have hpresent : (m.thread p).pc ≠ .absent := by simp [hp]
  rcases @threadCreate_cases m p entry with herror | ⟨hexit, hload, hok⟩
  · rw [herror] at h
    cases h
  · rw [hok] at h
    cases h
    refine ⟨rfl, ?_, ?_⟩
    · rw [hp]
      exact .create hp hentry (Or.inl rfl) hexit hload
    · have hnew : m.nextTid ∉ (m.thread p).children := fun hmem =>
        absurd (hn.child p _ hmem) (lt_irrefl _)
      rw [execScan_withChild (hn.thread p hpresent) hnew]
      exact .create hp hentry (Or.inr rfl) hexit hload

theorem trans_of_kernelStep (hn : m.Numbered) (h : kernelStep a m = some (.ok m')) :
    Trans m m' := by
  cases a with
  | create p page =>
      simp only [kernelStep] at h
      split at h
      · rename_i hp
        cases page with
        | false =>
            cases h
            exact .stay (p := p) (by simp [hp])
        | true =>
            cases hcreate : threadCreate p .user m with
            | error e =>
                simp [hcreate, Except.map] at h
            | ok c =>
                simp only [hcreate, Except.map, if_true, Option.some.injEq, Except.ok.injEq] at h
                exact h ▸ (trans_of_threadCreate hn hp (Or.inl rfl) hcreate).2.1
      · cases h
  | exec p fnCopy page =>
      simp only [kernelStep] at h
      split at h
      · rename_i hp
        -- without both pages `exec` scans for -1, which is nobody's number
        cases hpages : (fnCopy && page) with
        | false =>
            rw [hpages] at h
            cases h
            have hscan : execScan p (-1) m = m.record (.execFailed p) := by
              have hfind : (m.thread p).children.find? (fun (t : Tid) => (-1 : ℤ) = t) = none := by
                rw [List.find?_eq_none]
                intro t _ heq
                have := of_decide_eq_true heq
                omega
              rw [execScan, hfind]
            rw [hscan]
            exact .record (by simp [hp]) .execFail
        | true =>
            cases hcreate : threadCreate p .loading m with
            | error e =>
                simp [hpages, hcreate, Except.map] at h
            | ok c =>
                simp only [hpages, hcreate, Except.map, if_true, Option.some.injEq,
                  Except.ok.injEq] at h
                exact h ▸ (trans_of_threadCreate hn hp (Or.inr rfl) hcreate).2.2
      · cases h
  | wait p tid =>
      simp only [kernelStep] at h
      split at h
      · rename_i hp
        cases h
        -- the scan of `process_wait` fails, or has found a child of the caller
        rw [processWait]
        split
        case h_1 hnone =>
            refine .record (by simp [hp]) (.waitRefuse ?_)
            intro t ht heq
            exact List.find?_eq_none.1 hnone t ht (decide_eq_true heq)
        case h_2 t hsome =>
            exact .goto (by simp [hp]) (.waitFind (List.mem_of_find?_eq_some hsome))
      · cases h
  | exit p status =>
      simp only [kernelStep] at h
      split at h
      · rename_i hp
        cases h
        exact .move (by simp [hp]) .exit
      · cases h
  | load t success =>
      simp only [kernelStep] at h
      split at h
      · rename_i hp
        cases h
        exact .move (by simp [hp]) .load
      · cases h
  | run p =>
      exact trans_of_runStep h

/-- Every step is one of the transitions. -/
theorem trans_of_procStep (hn : m.Numbered) (hs : procStep a m = some m') : Trans m m' := by
  simp only [procStep] at hs
  split at hs
  · obtain ⟨r, hr, hend⟩ := Option.map_eq_some_iff.1 hs
    cases r with
    | error e =>
        cases hend
        exact .panic
    | ok m₁ =>
        cases hend
        exact trans_of_kernelStep hn hr
  · cases hs

end Steps

/-! ## No step raises a semaphore -/

section Words

variable {m m' m₀ : Machine} {p t : Tid} {th : Thread} {es : List ProcEvent} {a : ProcAct}
  {entry k : Pc}

theorem semaDown_le {x w : Word} (h : semaDown x = .ok w) : w ≤ x := by
  rw [semaDown] at h
  split at h
  · cases h
  · rename_i hx
    cases h
    bv_omega

theorem move_self : (m.move p th es).thread p = th := update_self ..

theorem move_other (ht : t ≠ p) : (m.move p th es).thread t = m.thread t := update_of_ne ht _ _

theorem withChild_new : (withChild p entry k m).thread m.nextTid = initThread entry :=
  update_self ..

theorem withChild_parent (hp : p ≠ m.nextTid) : (withChild p entry k m).thread p =
    { m.thread p with children := (m.thread p).children ++ [m.nextTid], pc := k } := by
  simp [withChild, hp]

theorem withChild_other (ht : t ≠ m.nextTid) (htp : t ≠ p) :
    (withChild p entry k m).thread t = m.thread t := by
  simp [withChild, ht, htp]

/-- What holds of all threads and of the one that has moved. -/
theorem forall_move {P : Tid → Thread → Prop} (hp : P p th) (hold : ∀ q, P q (m.thread q)) :
    ∀ q, P q ((m.move p th es).thread q) := by
  intro q
  by_cases hqp : q = p
  · rw [hqp, move_self]
    exact hp
  · rw [move_other hqp]
    exact hold q

/-- What holds of all threads, of the new one and of its parent. -/
theorem forall_withChild {P : Tid → Thread → Prop} (hpn : p < m.nextTid)
    (hnew : P m.nextTid (initThread entry))
    (hparent : P p { m.thread p with children := (m.thread p).children ++ [m.nextTid], pc := k })
    (hold : ∀ q, P q (m.thread q)) : ∀ q, P q ((withChild p entry k m).thread q) := by
  intro q
  by_cases hqn : q = m.nextTid
  · rw [hqn, withChild_new]
    exact hnew
  · by_cases hqp : q = p
    · rw [hqp, withChild_parent hpn.ne]
      exact hparent
    · rw [withChild_other hqn hqp]
      exact hold q

theorem Move.children_sublist (h : Move m p th es) :
    th.children.Sublist (m.thread p).children := by
  cases h with
  | execUnlink hpc | waitUnlink hpc =>
      exact List.erase_sublist
  | stay | execFail | execDown hpc hw | waitRefuse htid | waitFind ht | waitDown hpc hw | exit
  | load | mark hpc | die hpc hw =>
      exact List.Sublist.refl _

theorem Move.words_le (h : Move m p th es) :
    th.semaExit ≤ (m.thread p).semaExit ∧ th.semaLoad ≤ (m.thread p).semaLoad := by
  cases h with
  | execDown hpc hw =>
      exact ⟨le_rfl, semaDown_le hw⟩
  | waitDown hpc hw | die hpc hw =>
      exact ⟨semaDown_le hw, le_rfl⟩
  | stay | execFail | execUnlink hpc | waitRefuse htid | waitFind ht | waitUnlink hpc | exit
  | load | mark hpc =>
      exact ⟨le_rfl, le_rfl⟩

theorem Machine.Numbered.step (hn : m.Numbered) (hs : Trans m m') : m'.Numbered := by
  cases hs with
  | panic =>
      exact ⟨hn.thread, hn.child⟩
  | @move p th es hp hmove =>
      refine ⟨?_, ?_⟩
      · exact forall_move (P := fun t th => th.pc ≠ .absent → t < m.nextTid)
          (fun _ => hn.thread p hp) hn.thread
      · exact forall_move (P := fun _ th => ∀ t ∈ th.children, t < m.nextTid)
          (fun t ht => hn.child p t (hmove.children_sublist.subset ht)) hn.child
  | @create p entry k hp hentry hk hexit hload =>
      have hpn : p < m.nextTid := hn.thread p (by simp [hp])
      refine ⟨?_, ?_⟩
      · exact forall_withChild (P := fun t th => th.pc ≠ .absent → t < m.nextTid + 1) hpn
          (fun _ => Nat.lt_succ_self _) (fun _ => Nat.lt_succ_of_lt hpn)
          fun t ht => Nat.lt_succ_of_lt (hn.thread t ht)
      · refine forall_withChild (P := fun _ th => ∀ t ∈ th.children, t < m.nextTid + 1) hpn
          (fun t ht => by cases ht) ?_ fun q t ht => Nat.lt_succ_of_lt (hn.child q t ht)
        intro t ht
        -- the parent's children are the old ones and the new one
        rcases List.mem_append.1 ht with ht | ht
        · exact Nat.lt_succ_of_lt (hn.child p t ht)
        · rw [List.mem_singleton.1 ht]
          exact Nat.lt_succ_self _

/-- No semaphore of a thread has a higher word in `m'`. -/
def Machine.NotRaised (m m' : Machine) : Prop :=
  ∀ t, (m'.thread t).semaExit ≤ (m.thread t).semaExit ∧
    (m'.thread t).semaLoad ≤ (m.thread t).semaLoad

theorem Trans.notRaised (hn : m.Numbered) (hs : Trans m m') : m.NotRaised m' := by
  have hold : ∀ t, (m.thread t).semaExit ≤ (m.thread t).semaExit ∧
      (m.thread t).semaLoad ≤ (m.thread t).semaLoad := fun t => ⟨le_rfl, le_rfl⟩
  cases hs with
  | panic =>
      exact hold
  | @move p th es hp hmove =>
      exact forall_move (P := fun t th => th.semaExit ≤ (m.thread t).semaExit ∧
        th.semaLoad ≤ (m.thread t).semaLoad) hmove.words_le hold
  | @create p entry k hp hentry hk hexit hload =>
      have hpn : p < m.nextTid := hn.thread p (by simp [hp])
      -- the new thread starts with null pointers
      exact forall_withChild (P := fun t th => th.semaExit ≤ (m.thread t).semaExit ∧
        th.semaLoad ≤ (m.thread t).semaLoad) hpn ⟨Nat.zero_le _, Nat.zero_le _⟩ (hold p) hold

/-- Whatever the words of the pointers are at the start, no run raises a semaphore. -/
theorem not_raised {tr : List (Machine × ProcAct)} (hn : m₀.Numbered)
    (h : Exec procStep m₀ tr m) : m.Numbered ∧ m₀.NotRaised m := by
  have h₀ : m₀.Numbered ∧ m₀.NotRaised m₀ := ⟨hn, fun t => ⟨le_rfl, le_rfl⟩⟩
  refine (h.invariant (P := fun _ _ => True) (I := fun m => m.Numbered ∧ m₀.NotRaised m) h₀ ?_
    fun _ _ => trivial).2
  rintro m a m' ⟨hn, hle⟩ - hs
  have htrans := trans_of_procStep hn hs
  refine ⟨hn.step htrans, ?_⟩
  intro t
  -- the words only go down, step after step
  have hstep := htrans.notRaised hn t
  exact ⟨hstep.1.trans (hle t).1, hstep.2.trans (hle t).2⟩

end Words

/-! ## `exec` takes the child out of the list -/

/-- `process_wait` does not find a child that `exec` has returned before. -/
def Unfound (e e' : ProcEvent) : Prop :=
  ∀ p t v, e = .execReturned p t → e' ≠ .waitReturned p t v

/-- What holds of the children while their parents go through `exec` and `process_wait`. -/
structure Machine.Unlinked (m : Machine) : Prop where
  nodup : ∀ p, (m.thread p).children.Nodup
  exec : ∀ p t, (m.thread p).pc = .execDown t ∨ (m.thread p).pc = .execUnlink t → t < m.nextTid
  returned : ∀ p t, .execReturned p t ∈ m.log →
    t < m.nextTid ∧ t ∉ (m.thread p).children ∧ (m.thread p).pc ≠ .waitDown t ∧
      (m.thread p).pc ≠ .waitUnlink t
  unfound : m.log.Pairwise Unfound

section Unlinked

variable {m m' m₀ : Machine} {p q t : Tid} {th : Thread} {es : List ProcEvent} {a : ProcAct}
  {entry k : Pc}

/-- The only move that returns a child from `exec` is the one that unlinks it. -/
theorem Move.execReturned (h : Move m p th es) (he : .execReturned q t ∈ es) :
    q = p ∧ (m.thread p).pc = .execUnlink t ∧ th.pc = .user ∧
      th.children = (m.thread p).children.erase t := by
  cases h with
  | execUnlink hpc =>
      obtain ⟨rfl, rfl⟩ : q = p ∧ t = _ := by simpa using he
      exact ⟨rfl, hpc, rfl, rfl⟩
  | stay | execDown hpc hw | waitFind ht | waitDown hpc hw | mark hpc | die hpc hw =>
      exact absurd he List.not_mem_nil
  | execFail | waitRefuse htid | waitUnlink hpc | exit | load =>
      cases List.mem_singleton.1 he

/-- A thread comes to wait for a child that it has in its list. -/
theorem Move.waiting (h : Move m p th es) (hpc : th.pc = .waitDown t ∨ th.pc = .waitUnlink t) :
    t ∈ (m.thread p).children ∨ (m.thread p).pc = .waitDown t ∨ (m.thread p).pc = .waitUnlink t := by
  cases h with
  | stay | execFail | waitRefuse htid =>
      exact Or.inr hpc
  | waitFind ht =>
      obtain rfl : _ = t := by simpa using hpc
      exact Or.inl ht
  | waitDown hold hw =>
      obtain rfl : _ = t := by simpa using hpc
      exact Or.inr (Or.inl hold)
  | @load success =>
      cases success <;> simp at hpc
  | execDown hold hw | execUnlink hold | waitUnlink hold | exit | mark hold | die hold hw =>
      simp at hpc

theorem Move.executing (h : Move m p th es) (hpc : th.pc = .execDown t ∨ th.pc = .execUnlink t) :
    (m.thread p).pc = .execDown t ∨ (m.thread p).pc = .execUnlink t := by
  cases h with
  | stay | execFail | waitRefuse htid =>
      exact hpc
  | execDown hold hw =>
      obtain rfl : _ = t := by simpa using hpc
      exact Or.inl hold
  | @load success =>
      cases success <;> simp at hpc
  | waitFind ht | waitDown hold hw | execUnlink hold | waitUnlink hold | exit | mark hold
  | die hold hw =>
      simp at hpc

theorem Move.unfound (h : Move m p th es) (hm : m.Unlinked) : (m.log ++ es).Pairwise Unfound := by
  have hlast : ∀ e, (∀ e' ∈ m.log, Unfound e' e) → (m.log ++ [e]).Pairwise Unfound := by
    intro e hbefore
    refine List.pairwise_append.2 ⟨hm.unfound, List.pairwise_singleton _ _, ?_⟩
    intro e' he' e'' he''
    rw [List.mem_singleton.1 he'']
    exact hbefore e' he'
  cases h with
  | stay | execDown hpc hw | waitFind ht | waitDown hpc hw | mark hpc | die hpc hw =>
      rw [List.append_nil]
      exact hm.unfound
  | execFail | execUnlink hpc | waitRefuse htid | exit | load =>
      refine hlast _ fun e' _ q u v _ heq => ?_
      cases heq
  | waitUnlink hpc =>
      -- the only event that could be out of place
      refine hlast _ fun e' he' q u v hexec heq => ?_
      cases heq
      -- whoever returns from `exec` with a child is never in `process_wait` for it again
      exact (hm.returned _ _ (hexec ▸ he')).2.2.2 hpc

theorem Machine.Unlinked.step (hm : m.Unlinked) (hn : m.Numbered) (hs : Trans m m') :
    m'.Unlinked := by
  cases hs with
  | panic =>
      exact ⟨hm.nodup, hm.exec, hm.returned, hm.unfound⟩
  | @move p th es hp hmove =>
      refine ⟨?_, ?_, ?_, hmove.unfound hm⟩
      · exact forall_move (P := fun _ th => th.children.Nodup)
          ((hm.nodup p).sublist hmove.children_sublist) hm.nodup
      · exact forall_move
          (P := fun _ th => ∀ t, th.pc = .execDown t ∨ th.pc = .execUnlink t → t < m.nextTid)
          (fun t hpc => hm.exec p t (hmove.executing hpc)) hm.exec
      · intro q t he
        rcases List.mem_append.1 he with hold | hnew
        · obtain ⟨hlt, hmem, hdown, hunlink⟩ := hm.returned q t hold
          by_cases hqp : q = p
          · subst hqp
            rw [move_self]
            -- to wait for the child it would have to find it in its list
            have hwait : ¬ (th.pc = .waitDown t ∨ th.pc = .waitUnlink t) := by
              intro hpc
              rcases hmove.waiting hpc with h | h | h
              · exact hmem h
              · exact hdown h
              · exact hunlink h
            exact ⟨hlt, fun h => hmem (hmove.children_sublist.subset h),
              fun h => hwait (Or.inl h), fun h => hwait (Or.inr h)⟩
          · rw [move_other hqp]
            exact ⟨hlt, hmem, hdown, hunlink⟩
        · -- the child returned just now was erased from a list without duplicates
          obtain ⟨rfl, hpc, huser, hchildren⟩ := hmove.execReturned hnew
          rw [move_self, huser, hchildren]
          exact ⟨hm.exec q t (Or.inr hpc), (hm.nodup q).not_mem_erase, nofun, nofun⟩
  | @create p entry k hp hentry hk hexit hload =>
      have hpn : p < m.nextTid := hn.thread p (by simp [hp])
      have hpc : (initThread entry).pc = .user ∨ (initThread entry).pc = .loading := hentry
      refine ⟨?_, ?_, ?_, hm.unfound⟩
      · refine forall_withChild (P := fun _ th => th.children.Nodup) hpn List.nodup_nil ?_ hm.nodup
        refine (hm.nodup p).append (List.nodup_singleton _) ?_
        -- the number of the new child has not been given out
        rw [List.disjoint_singleton]
        exact fun hmem => (hn.child p _ hmem).false
      · refine forall_withChild (P := fun _ th => ∀ t, th.pc = .execDown t ∨ th.pc = .execUnlink t →
          t < m.nextTid + 1) hpn ?_ ?_ fun q t hq => Nat.lt_succ_of_lt (hm.exec q t hq)
        · intro t hq
          rcases hpc with hpc | hpc <;> simp [hpc] at hq
        · intro t hq
          rcases hk with rfl | rfl
          · simp at hq
          · obtain rfl : m.nextTid = t := by simpa using hq
            exact Nat.lt_succ_self _
      · intro q t he
        obtain ⟨hlt, hmem, hdown, hunlink⟩ := hm.returned q t he
        refine ⟨Nat.lt_succ_of_lt hlt, ?_⟩
        by_cases hqn : q = m.nextTid
        · rw [hqn, withChild_new]
          refine ⟨List.not_mem_nil, ?_, ?_⟩ <;> rcases hpc with hpc | hpc <;> simp [hpc]
        · by_cases hqp : q = p
          · rw [hqp, withChild_parent hpn.ne]
            refine ⟨?_, ?_, ?_⟩
            · intro ht
              rcases List.mem_append.1 ht with ht | ht
              · exact hmem (hqp ▸ ht)
              · exact hlt.ne (List.mem_singleton.1 ht)
            · rcases hk with rfl | rfl <;> nofun
            · rcases hk with rfl | rfl <;> nofun
          · rw [withChild_other hqn hqp]
            exact ⟨hmem, hdown, hunlink⟩

/-- The initial thread, had its pointers been assigned. -/
def assigned (exitWord loadWord : Word) : Machine :=
  newMachine.set 1 { initThread .user with semaExit := exitWord, semaLoad := loadWord }

theorem assigned_zero : assigned 0 0 = newMachine := by
  have hinit : (⟨.user, [], false, false, 0, 0, 0⟩ : Thread) = newMachine.thread 1 := rfl
  rw [assigned, Machine.set, initThread, hinit, update_eq_self]

theorem assigned_pc (x y : Word) (t : Tid) :
    ((assigned x y).thread t).pc = if t = 1 then .user else .absent := by
  by_cases ht : t = 1 <;> simp [assigned, Machine.set, newMachine, initThread, ht]

theorem assigned_children (x y : Word) (t : Tid) : ((assigned x y).thread t).children = [] := by
  by_cases ht : t = 1 <;> simp [assigned, Machine.set, newMachine, initThread, ht]

theorem assigned_numbered (x y : Word) : (assigned x y).Numbered := by
  refine ⟨?_, ?_⟩
  · intro t ht
    by_cases h : t = 1
    · rw [h]
      exact Nat.lt_succ_self 1
    · rw [assigned_pc, if_neg h] at ht
      exact absurd rfl ht
  · intro p t ht
    rw [assigned_children] at ht
    cases ht

theorem assigned_unlinked (x y : Word) : (assigned x y).Unlinked := by
  refine ⟨?_, ?_, ?_, List.Pairwise.nil⟩
  · intro p
    rw [assigned_children]
    exact List.nodup_nil
  · intro p t hp
    rw [assigned_pc] at hp
    by_cases h : p = 1 <;> simp [h] at hp
  · intro p t he
    cases he

/-- Even with pointers that are not null, `wait` does not find a child that `exec` has returned. -/
theorem exec_loses_child {x y : Word} {tr : List (Machine × ProcAct)}
    (h : Exec procStep (assigned x y) tr m) : m.log.Pairwise Unfound := by
  have h₀ := And.intro (assigned_numbered x y) (assigned_unlinked x y)
  have hinv := h.invariant (P := fun _ _ => True) (I := fun m => m.Numbered ∧ m.Unlinked) h₀ ?_
    fun _ _ => trivial
  · exact hinv.2.2.unfound
  · rintro m a m' ⟨hn, hm⟩ - hs
    have htrans := trans_of_procStep hn hs
    exact ⟨hn.step htrans, hm.step hn htrans⟩

example : ((runAll procStep [.exec 1 true true, .run 1, .run 1, .wait 1 2] (assigned 8 8)).map
    Machine.log) = some [.execReturned 1 2, .waitRefused 1 2] := by decide +kernel

end Unlinked

/-! ## Which runs keep the protocol -/

/-- The thread whose `thread_create` gets its page in the step. -/
def ProcAct.creator : ProcAct → Option Tid
  | .create p true | .exec p true true => some p
  | .create _ false | .exec _ _ _ | .wait _ _ | .exit _ _ | .load _ _ | .run _ => none

/-- No assertion fails in `thread_create`, and no notification is pending where it initialises the
semaphores again. -/
def CreatesSafely (m : Machine) (a : ProcAct) : Prop :=
  ∀ p entry, a.creator = some p → threadCreate p entry m ≠ .error .assertion ∧
    m.value (m.thread p).semaExit = 0 ∧ m.value (m.thread p).semaLoad = 0

/-- After `exec` has returned the child, `wait` finds it once and returns the status that it has
passed to `exit`. -/
def WaitsFind (log : List ProcEvent) : Prop :=
  ∀ pre post p (t : Tid), .execReturned p t ∈ pre → (∀ v, .waitReturned p t v ∉ pre) →
    log ≠ pre ++ .waitRefused p t :: post ∧
      ∀ v, log = pre ++ .waitReturned p t v :: post →
        .exitCalled t v ∈ pre ∨ .loaded t false ∈ pre

/-- `p` is blocked in `exec` for a child that has been loaded. -/
def Machine.BlockedInExec (m : Machine) (p : Tid) : Prop :=
  (m.thread p).semaLoad = 0 ∧
    ∃ t success, (m.thread p).pc = .execDown t ∧ .loaded t success ∈ m.log

/-- `p` is blocked in `process_wait` for a child that has exited. -/
def Machine.BlockedInWait (m : Machine) (p : Tid) : Prop :=
  (m.thread p).semaExit = 0 ∧
    ∃ t, (m.thread p).pc = .waitDown t ∧ (m.thread t).isProcessExit = true

/-- Who is blocked for an event that has happened can be woken. -/
def Machine.CanWake (m : Machine) : Prop :=
  ∀ p, (m.BlockedInExec p → ∃ tr m', Exec procStep m tr m' ∧ (m'.thread p).semaLoad ≠ 0) ∧
    (m.BlockedInWait p → ∃ tr m', Exec procStep m tr m' ∧ (m'.thread p).semaExit ≠ 0)

structure ProtocolLaw (tr : List (Machine × ProcAct)) (m : Machine) : Prop where
  creates : ∀ e ∈ tr, CreatesSafely e.1 e.2
  finds : WaitsFind m.log
  wakes : (∀ e ∈ tr, e.1.CanWake) ∧ m.CanWake

/-- Nobody has a child. -/
structure Machine.Childless (m : Machine) : Prop where
  children : ∀ p, (m.thread p).children = []
  exec : ∀ p t, ¬ ((m.thread p).pc = .execDown t ∨ (m.thread p).pc = .execUnlink t)
  wait : ∀ p t, ¬ ((m.thread p).pc = .waitDown t ∨ (m.thread p).pc = .waitUnlink t)
  log : ∀ p t, .execReturned p t ∉ m.log

/-- The pointers of every thread are null. -/
def Machine.Null (m : Machine) : Prop :=
  ∀ t, (m.thread t).semaExit = 0 ∧ (m.thread t).semaLoad = 0

section Protocol

variable {m m' : Machine} {p t : Tid} {a : ProcAct} {tr : List (Machine × ProcAct)}

theorem Machine.Childless.step (hm : m.Childless) (hnull : m.Null) (hs : Trans m m') :
    m'.Childless := by
  cases hs with
  | panic =>
      exact ⟨hm.children, hm.exec, hm.wait, hm.log⟩
  | @move p th es hp hmove =>
      refine ⟨?_, ?_, ?_, ?_⟩
      · have hsub := hmove.children_sublist
        rw [hm.children] at hsub
        exact forall_move (P := fun _ th => th.children = []) (List.sublist_nil.1 hsub) hm.children
      · exact forall_move
          (P := fun _ th => ∀ t, ¬ (th.pc = .execDown t ∨ th.pc = .execUnlink t))
          (fun t hpc => hm.exec p t (hmove.executing hpc)) hm.exec
      · refine forall_move
          (P := fun _ th => ∀ t, ¬ (th.pc = .waitDown t ∨ th.pc = .waitUnlink t)) ?_ hm.wait
        intro t hpc
        -- `process_wait` would have found a child
        rcases hmove.waiting hpc with hmem | hold
        · rw [hm.children] at hmem
          cases hmem
        · exact hm.wait p t hold
      · intro q t he
        rcases List.mem_append.1 he with hold | hnew
        · exact hm.log q t hold
        · exact hm.exec p t (Or.inr (hmove.execReturned hnew).2.1)
  | @create p entry k hp hentry hk hexit hload =>
      -- `sema_init` has refused the null pointer
      exact absurd (hnull p).1 hexit

theorem newMachine_childless : newMachine.Childless := by
  rw [← assigned_zero]
  refine ⟨assigned_children 0 0, ?_, ?_, fun p t he => by cases he⟩
  · intro p t hp
    rw [assigned_pc] at hp
    by_cases h : p = 1 <;> simp [h] at hp
  · intro p t hp
    rw [assigned_pc] at hp
    by_cases h : p = 1 <;> simp [h] at hp

/-- No run gets a child. -/
theorem childless_run (h : Exec procStep newMachine tr m) :
    (∀ e ∈ tr, e.1.Null ∧ e.1.Childless) ∧ m.Null ∧ m.Childless := by
  have hinv := @Exec.invariant _ _ procStep (fun _ _ => True) newMachine m
    (fun m => m.Numbered ∧ m.Null ∧ m.Childless) ?_ ?_ tr h (fun _ _ => trivial)
  · exact ⟨fun e he => (hinv.1 e he).2, hinv.2.2⟩
  · refine ⟨assigned_zero ▸ assigned_numbered 0 0, ?_, newMachine_childless⟩
    exact fun t => ⟨rfl, rfl⟩
  · rintro m a m' ⟨hn, hnull, hidle⟩ - hs
    have htrans := trans_of_procStep hn hs
    refine ⟨hn.step htrans, ?_, hidle.step hnull htrans⟩
    intro t
    -- null pointers stay null, for no word goes up
    obtain ⟨hexit, hload⟩ := htrans.notRaised hn t
    rw [(hnull t).1] at hexit
    rw [(hnull t).2] at hload
    exact ⟨le_antisymm hexit (Nat.zero_le _), le_antisymm hload (Nat.zero_le _)⟩

theorem Machine.Childless.finds (hm : m.Childless) : WaitsFind m.log := by
  intro pre post p t hexec _
  have hnone : ∀ e, m.log ≠ pre ++ e :: post := by
    intro e heq
    refine hm.log p t ?_
    rw [heq]
    exact List.mem_append_left _ hexec
  exact ⟨hnone _, fun v heq => absurd heq (hnone _)⟩

theorem Machine.Childless.canWake (hm : m.Childless) : m.CanWake := by
  intro p
  refine ⟨?_, ?_⟩
  · rintro ⟨-, t, success, hpc, -⟩
    exact absurd (Or.inl hpc) (hm.exec p t)
  · rintro ⟨-, t, hpc, -⟩
    exact absurd (Or.inl hpc) (hm.wait p t)

/-- The protocol is kept exactly in the runs in which no `thread_create` gets a page. -/
theorem protocol_law_iff (tr : List (Machine × ProcAct)) (m : Machine)
    (h : Exec procStep newMachine tr m) :
    ProtocolLaw tr m ↔ ∀ e ∈ tr, e.2.creator = none := by
  obtain ⟨hstates, -, hidle⟩ := childless_run h
  constructor
  · intro hlaw e he
    cases hc : e.2.creator with
    | none =>
        rfl
    | some p =>
        -- with null pointers the assertion fails in whichever thread creates one
        have hsafe := (hlaw.creates e he p .user hc).1
        exact absurd (threadCreate_null ((hstates e he).1 p).1) hsafe
  · intro hnone
    -- nobody ever has a child, so there is nothing to find and nobody to wake
    refine ⟨?_, hidle.finds, fun e he => (hstates e he).2.canWake, hidle.canWake⟩
    intro e he p entry hc
    rw [hnone e he] at hc
    cases hc

/-- `exec` fails for want of a page, and `wait` finds no child. -/
def starvedActs : List ProcAct := [.exec 1 true false, .exec 1 false false, .wait 1 2]

theorem protocol_law_starved :
    ProtocolLaw (trace procStep starvedActs newMachine)
      ((runAll procStep starvedActs newMachine).get (by decide +kernel)) :=
  (protocol_law_iff _ _ (Exec.of_runAll (Option.some_get _).symm)).2 (by decide +kernel)

/-- The first child: `sema_init` refuses the null pointer of its parent. -/
theorem first_exec_asserts :
    ((runAll procStep [.exec 1 true true] newMachine).map Machine.panic) = some (some .assertion) ∧
      ¬ ProtocolLaw (trace procStep [.exec 1 true true] newMachine)
        ((runAll procStep [.exec 1 true true] newMachine).get (by decide +kernel)) := by
  refine ⟨by decide +kernel, fun hlaw => ?_⟩
  have hsafe := hlaw.creates (newMachine, .exec 1 true true) (List.mem_cons_self ..) 1 .user rfl
  exact hsafe.1 (threadCreate_null rfl)

end Protocol

end Project3
end Pintos
