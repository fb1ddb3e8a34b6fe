import Pintos.Project4.CommandLine
import Pintos.Project4.LoadSafety

/-!
# StartProcess — a process gets its program and its arguments (`project4/userprog/process.c`)

`start_process` loads the executable that the command line names, and `construct_esp` writes the
arguments through the page table of the new process.  The page with the command line and the
parent's `load_lock` are the subject of `ExecCleanup`.
-/

namespace Pintos
namespace Project4

open Lib Userprog Function

/-! ## The code -/

section Code

variable {S : Services} {H : HashTable Ptr}

/-- What is found at an address of user memory. -/
def userByte (m : Space S) (a : Word) : Byte :=
  match m.pagedir (pgRoundDown a) with
  | none => 0
  | some (k, _) => m.bytes k (pgOfs a).toNat

/-- `*a = mem a`, on a page that is there and may be written. -/
def poke (mem : Word → Byte) (a : Word) (m : Space S) : Option (Space S) :=
  match m.pagedir (pgRoundDown a) with
  | some (k, true) =>
      some { m with bytes := update m.bytes k (update (m.bytes k) (pgOfs a).toNat (mem a)) }
  | _ => none

/-- A string of C, without its terminating zero. -/
abbrev CString := { s : List Byte // 0 ∉ s }

/-- The first word, if no space stands in front of it. -/
def CString.command (fileName : CString) : List Byte := fileName.1.takeWhile (· != SPACE)

/-- The start address and the stack pointer, unless `load` has failed.  `bytes` is what `cmd_name`
contains at first, and `block` says whether `malloc` has a block for `argv`. -/
def startProcess (hashInt : Word → ℕ) (bytes : ℕ → Byte) (block : Bool) (fileName : CString)
    (m : Machine S H) : Option (Machine S H × Option (Word × Word)) :=
  if fileName.1.length + 1 > 500 then none
  else
    match load hashInt (cmdName 500 fileName.1 bytes) { m with vm := vmInit H } with
    | .error _ => none
    | .ok (m, none) => some (m, none)
    | .ok (m, some (eip, esp)) =>
        (constructEsp block fileName.1 ⟨userByte m.space, esp, []⟩).bind fun st =>
          (runAll (poke st.mem) st.written m.space).map fun sp =>
            ({ m with space := sp }, some (eip, st.sp))

end Code

/-! ## Writing through the page table -/

section Poke

variable {S : Services} {m m' m'' : Space S} {mem : Word → Byte} {a : Word} {as : List Word}

/-- No frame is mapped at two pages. -/
def OncePerFrame (m : Space S) : Prop :=
  ∀ {u v k w w'}, m.pagedir u = some (k, w) → m.pagedir v = some (k, w') → u = v

/-- Only bytes of frames that are mapped differ. -/
structure Poked (m m' : Space S) : Prop where
  used : m'.used = m.used
  pagedir : m'.pagedir = m.pagedir
  log : m'.log = m.log
  bytes : ∀ k, (∀ u w, m.pagedir u ≠ some (k, w)) → m'.bytes k = m.bytes k

theorem Poked.refl (m : Space S) : Poked m m := ⟨rfl, rfl, rfl, fun _ _ => rfl⟩

theorem Poked.trans (h : Poked m m') (h' : Poked m' m'') : Poked m m'' :=
  ⟨h'.used.trans h.used, h'.pagedir.trans h.pagedir, h'.log.trans h.log, fun k hk =>
    (h'.bytes k (h.pagedir ▸ hk)).trans (h.bytes k hk)⟩

theorem eq_of_page_ofs {b : Word} (hpage : pgRoundDown b = pgRoundDown a)
    (hofs : (pgOfs b).toNat = (pgOfs a).toNat) : b = a := by
  rw [← pgRoundDown_add_pgOfs b, ← pgRoundDown_add_pgOfs a, hpage, BitVec.eq_of_toNat_eq hofs]

theorem poke_done (mem : Word → Byte) (honce : OncePerFrame m) {k : FramePtr}
    (hmap : m.pagedir (pgRoundDown a) = some (k, true)) :
    ∃ m', poke mem a m = some m' ∧ Poked m m' ∧ userByte m' = update (userByte m) a (mem a) := by
  let m' : Space S :=
    { m with bytes := update m.bytes k (update (m.bytes k) (pgOfs a).toNat (mem a)) }
  have hgo : poke mem a m = some m' := by simp only [poke, hmap, m']
  refine ⟨m', hgo, ⟨rfl, rfl, rfl, fun k' hk' => ?_⟩, ?_⟩
  · refine update_of_ne ?_ _ _
    rintro rfl
    exact hk' _ _ hmap
  · funext b
    by_cases hb : b = a
    · subst hb
      simp only [userByte, m', hmap, update_self]
    · rw [update_of_ne hb]
      cases hdir : m.pagedir (pgRoundDown b) with
      | none =>
          simp only [userByte, m', hdir]
      | some x =>
          obtain ⟨k', w⟩ := x
          simp only [userByte, m', hdir]
          by_cases hk : k' = k
          · subst hk
            have hofs : (pgOfs b).toNat ≠ (pgOfs a).toNat := fun heq =>
              hb (eq_of_page_ofs (honce hdir hmap) heq)
            rw [update_self, update_of_ne hofs]
          · rw [update_of_ne hk]

/-- All of them are written. -/
theorem runAll_poke (mem : Word → Byte) (honce : OncePerFrame m)
    (hmap : ∀ a ∈ as, ∃ k, m.pagedir (pgRoundDown a) = some (k, true)) :
    ∃ m', runAll (poke mem) as m = some m' ∧ Poked m m' ∧
      ∀ a, userByte m' a = if a ∈ as then mem a else userByte m a := by
  induction as generalizing m with
  | nil =>
      exact ⟨m, rfl, .refl m, fun _ => rfl⟩
  | cons a as ih =>
      obtain ⟨k, hk⟩ := hmap a List.mem_cons_self
      obtain ⟨m₁, hgo, hpoked, hbyte⟩ := poke_done mem honce hk
      have honce₁ : OncePerFrame m₁ := fun hu hv =>
        honce (hpoked.pagedir ▸ hu) (hpoked.pagedir ▸ hv)
      obtain ⟨m', hrest, hpoked', hbyte'⟩ := ih honce₁ fun b hb =>
        hpoked.pagedir ▸ hmap b (List.mem_cons_of_mem a hb)
      refine ⟨m', ?_, hpoked.trans hpoked', fun b => ?_⟩
      · simp only [runAll, hgo, Option.bind_some, hrest]
      · rw [hbyte' b, hbyte]
        by_cases hb : b ∈ as
        · simp [hb]
        · by_cases hba : b = a
          · subst hba
            simp
          · simp [hb, hba]

end Poke

/-! ## The arguments -/

section Arguments

variable {mem mem' : Word → Byte} {st st' : UserStack} {fileName : List Byte} {block : Bool}

theorem pushArgs_tracks (h : st.Tracks mem) : ∀ tokens, (pushArgs st tokens).1.Tracks mem
  | [] => h
  | token :: tokens => (pushArgs_tracks h tokens).push (token ++ [0])

theorem pushAddresses_tracks (h : st.Tracks mem) : ∀ argv, (pushAddresses st argv).Tracks mem
  | [] => h
  | p :: argv => (pushAddresses_tracks h argv).push (wordBytes p)

theorem pushFrame_tracks (h : st.Tracks mem) (argc : ℕ) (argv : List Word) (totalLen : ℕ) :
    (pushFrame argc argv totalLen st).Tracks mem :=
  (((pushAddresses_tracks ((h.skip _).push _) argv).push _).push _).push _

theorem length_le_of_constructEsp (h : constructEsp block fileName st = some st') :
    fileName.length ≤ 255 := by
  by_contra hlong
  rw [constructEsp, if_pos (by omega)] at h
  cases h

/-- The stack is the expected one, and the rest of the memory is as before. -/
theorem constructEsp_stack (hzero : 0 ∉ fileName)
    (h : constructEsp block fileName ⟨mem, PHYS_BASE, []⟩ = some st) :
    InitialStack st (tokensOf fileName) ∧ st.Tracks mem := by
  have hlen := length_le_of_constructEsp h
  obtain ⟨st', hgo, hstack⟩ := constructEsp_initialStack mem hzero hlen
  have htrue := constructEsp_block h
  obtain rfl : st' = st := Option.some.inj (hgo.symm.trans htrue)
  refine ⟨hstack, ?_⟩
  have hfits : ¬ fileName.length + 1 > 256 := by omega
  rw [constructEsp, if_neg hfits, countTokens_eq (Nat.lt_succ_self _)] at htrue
  simp only [Option.bind_eq_bind, Option.bind_some, Bool.true_eq_false, and_false, if_false,
    storeArgv_eq] at htrue
  cases htrue
  exact pushFrame_tracks (pushArgs_tracks (fun _ _ => rfl) _) _ _ _

/-- The stack that the program is given, in a memory of zeros. -/
def initialStack (fileName : CString) : UserStack :=
  (constructEsp true fileName.1 ⟨fun _ => 0, PHYS_BASE, []⟩).getD ⟨fun _ => 0, PHYS_BASE, []⟩

theorem initialStack_eq {fileName : CString}
    (h : constructEsp block fileName.1 ⟨fun _ => 0, PHYS_BASE, []⟩ = some st) :
    initialStack fileName = st := by
  rw [initialStack, constructEsp_block h]
  rfl

theorem initialStack_spec {fileName : CString} (hlen : fileName.1.length ≤ 255) :
    InitialStack (initialStack fileName) (tokensOf fileName.1) := by
  obtain ⟨st, hgo, hstack⟩ := constructEsp_initialStack (fun _ => 0) fileName.2 hlen
  rw [initialStack_eq hgo]
  exact hstack

theorem toNat_stackPage : stackPage.toNat = PHYS_BASE.toNat - PGSIZE := rfl

theorem pgRoundDown_stackPage {a : Word} (hlow : PHYS_BASE.toNat - PGSIZE ≤ a.toNat)
    (hhigh : a.toNat < PHYS_BASE.toNat) : pgRoundDown a = stackPage := by
  refine (eq_pgRoundDown (by decide) ?_ ?_).symm
  · rw [BitVec.le_def, toNat_pgRoundDown, toNat_stackPage]
    rw [toNat_physBase] at hlow hhigh ⊢
    simp only [PGSIZE] at hlow ⊢
    omega
  · rw [BitVec.le_def, toNat_stackPage]
    exact hlow

end Arguments

/-! ## The new process -/

section Start

variable {S : Services} {H : HashTable Ptr} {hashInt : Word → ℕ} {m m' : Machine S H}
  {bytes : ℕ → Byte} {block : Bool} {fileName : CString} {file : FilePtr} {r : Word × Word}

/-- The process has the pages of its executable in its table and its arguments on the stack, which
is the only page that is mapped. -/
structure Started (hashInt : Word → ℕ) (file : FilePtr) (fileName : CString) (m m' : Machine S H)
    (r : Word × Word) : Prop where
  executable : Executable S file (filePhdrs S file)
  entry : ∃ e, e.vaddr = stackPage ∧ e.type = VM_ANON ∧
    Enters hashInt (fun _ => none) (fileEntries S file ++ [e]) { m with vm := vmInit H } m'
  frame : ∃ k, k ∉ m.space.used ∧ m'.space.used = insert k m.space.used ∧
    m'.space.pagedir = update (fun _ => none) stackPage (some (k, true)) ∧
    ∀ k' ≠ k, m'.space.bytes k' = m.space.bytes k'
  registers : r = ((fileEhdr S file).eEntry, (initialStack fileName).sp)
  memory : userByte m'.space = (initialStack fileName).mem

/-- Only the page of the stack is mapped, to a frame of zeros. -/
theorem Loaded.stack {m : Machine S H} (h : Loaded hashInt file m m') :
    ∃ k, k ∉ m.space.used ∧ m'.space.used = insert k m.space.used ∧
      m'.space.pagedir = update (fun _ => none) stackPage (some (k, true)) ∧
      (∀ i < PGSIZE, m'.space.bytes k i = 0) ∧ ∀ k' ≠ k, m'.space.bytes k' = m.space.bytes k' := by
  obtain ⟨k, hk, hused, hdir, hbytes, hother⟩ := h.maps file
  exact ⟨k, hk, hused, hdir, fun i hi => (hbytes i hi).trans pageByte_stackPg, hother⟩

theorem eq_of_update_stackPage {x y : FramePtr × Bool} {u : Word}
    (h : update (fun _ => none) stackPage (some x) u = some y) : u = stackPage ∧ y = x := by
  by_cases hu : u = stackPage
  · subst hu
    rw [update_self] at h
    exact ⟨rfl, (Option.some.inj h).symm⟩
  · rw [update_of_ne hu] at h
    cases h

/-- A page of zeros, where `construct_esp` writes. -/
theorem Loaded.writes {m : Machine S H} (h : Loaded hashInt file m m') {st : UserStack}
    (hst : constructEsp block fileName.1 ⟨userByte m'.space, PHYS_BASE, []⟩ = some st) :
    st = initialStack fileName ∧ ∃ sp, runAll (poke st.mem) st.written m'.space = some sp ∧
      Poked m'.space sp ∧ userByte sp = st.mem := by
  obtain ⟨k, -, -, hdir, hbytes, -⟩ := h.stack
  have honly : ∀ {u x}, m'.space.pagedir u = some x → u = stackPage ∧ x = (k, true) :=
    fun hu => eq_of_update_stackPage (hdir ▸ hu)
  have hzero : userByte m'.space = fun _ => 0 := by
    funext a
    unfold userByte
    cases hu : m'.space.pagedir (pgRoundDown a) with
    | none =>
        rfl
    | some x =>
        obtain ⟨-, rfl⟩ := honly hu
        have hofs : (pgOfs a).toNat < PGSIZE := by
          rw [toNat_pgOfs]
          exact Nat.mod_lt _ (by decide)
        exact hbytes _ hofs
  obtain ⟨hstack, htracks⟩ := constructEsp_stack fileName.2 hst
  have honce : OncePerFrame m'.space := fun hu hv => (honly hu).1.trans (honly hv).1.symm
  have hmap : ∀ a ∈ st.written, ∃ k, m'.space.pagedir (pgRoundDown a) = some (k, true) := by
    intro a ha
    obtain ⟨hlow, hhigh⟩ := hstack.written a ha
    exact ⟨k, by rw [pgRoundDown_stackPage hlow hhigh, hdir]; exact update_self ..⟩
  obtain ⟨sp, hgo, hpoked, hbyte⟩ := runAll_poke st.mem honce hmap
  refine ⟨(initialStack_eq (hzero ▸ hst)).symm, sp, hgo, hpoked, funext fun a => ?_⟩
  rw [hbyte]
  split
  · rfl
  · next ha => exact (htracks a ha).symm

theorem startProcess_eq (hlen : fileName.1.length + 1 ≤ 500) :
    startProcess hashInt bytes block fileName m =
      match load hashInt fileName.command { m with vm := vmInit H } with
      | .error _ => none
      | .ok (m, none) => some (m, none)
      | .ok (m, some (eip, esp)) =>
          (constructEsp block fileName.1 ⟨userByte m.space, esp, []⟩).bind fun st =>
            (runAll (poke st.mem) st.written m.space).map fun sp =>
              ({ m with space := sp }, some (eip, st.sp)) := by
  rw [startProcess, if_neg (by omega), cmdName_eq fileName.2 (by omega)]
  rfl

theorem length_le_of_startProcess (h : startProcess hashInt bytes block fileName m ≠ none) :
    fileName.1.length + 1 ≤ 500 := by
  by_contra hlong
  rw [startProcess, if_pos (by omega)] at h
  exact h rfl

/-- Once the program is loaded, its arguments are stored without a fault. -/
theorem startProcess_of_load (bytes : ℕ → Byte) (block : Bool)
    (hopen : ∀ s name s' f, S.filesysOpen s name = (s', some f) → S.pos s' f = 0)
    (hlen : fileName.1.length + 1 ≤ 500)
    (hload : load hashInt fileName.command { m with vm := vmInit H } = .ok (m', some r)) :
    ∃ file, (S.filesysOpen m.space.files fileName.command).2 = some file ∧
      ((constructEsp block fileName.1 ⟨userByte m'.space, PHYS_BASE, []⟩ = none ∧
          startProcess hashInt bytes block fileName m = none) ∨
        ∃ m'' r', startProcess hashInt bytes block fileName m = some (m'', some r') ∧
          Started hashInt file fileName m m'' r') := by
  obtain ⟨hcreate, files, file, hfile⟩ := load_opens hload
  have hfile' : S.filesysOpen m.space.files fileName.command = (files, some file) := hfile
  obtain ⟨hloaded, rfl⟩ :=
    (load_ends hfile (hopen _ _ _ _ hfile) hcreate rfl).loaded m' r hload
  refine ⟨file, by rw [hfile'], ?_⟩
  rw [startProcess_eq hlen, hload]
  dsimp only
  cases hst : constructEsp block fileName.1 ⟨userByte m'.space, PHYS_BASE, []⟩ with
  | none =>
      exact Or.inl ⟨rfl, rfl⟩
  | some st =>
      obtain ⟨rfl, sp, hgo, hpoked, hbyte⟩ := hloaded.writes hst
      obtain ⟨k, hk, hused, hdir, -, hother⟩ := hloaded.stack
      obtain ⟨e, haddr, htype, henters⟩ := hloaded.entry
      refine Or.inr ⟨{ m' with space := sp }, _, by simp only [Option.bind_some, hgo]; rfl,
        hloaded.executable, ⟨e, haddr, htype, henters.with_space sp⟩,
        ⟨k, hk, ?_, ?_, fun k' hk' => ?_⟩, rfl, hbyte⟩
      · exact hpoked.used.trans hused
      · exact hpoked.pagedir.trans hdir
      · refine (hpoked.bytes k' fun u w hu => hk' ?_).trans (hother k' hk')
        exact congrArg Prod.fst (eq_of_update_stackPage (hdir ▸ hu)).2

/-- A process that is started has been loaded. -/
theorem startProcess_started
    (hopen : ∀ s name s' f, S.filesysOpen s name = (s', some f) → S.pos s' f = 0)
    (hgo : startProcess hashInt bytes block fileName m = some (m', some r)) :
    ∃ file, (S.filesysOpen m.space.files fileName.command).2 = some file ∧
      Started hashInt file fileName m m' r := by
  have hlen := length_le_of_startProcess (by rw [hgo]; exact Option.some_ne_none _)
  cases hload : load hashInt fileName.command { m with vm := vmInit H } with
  | error e =>
      rw [startProcess_eq hlen, hload] at hgo
      cases hgo
  | ok x =>
      obtain ⟨m₁, b⟩ := x
      cases b with
      | none =>
          rw [startProcess_eq hlen, hload] at hgo
          cases hgo
      | some r₁ =>
          obtain ⟨file, hfile, ⟨-, hnone⟩ | ⟨m₂, r₂, hsome, hstarted⟩⟩ :=
            startProcess_of_load bytes block hopen hlen hload
          · rw [hnone] at hgo
            cases hgo
          · rw [hsome] at hgo
            cases hgo
            exact ⟨file, hfile, hstarted⟩

/-- If it is not started, `load` has failed. -/
theorem load_of_startProcess_none
    (hgo : startProcess hashInt bytes block fileName m = some (m', none)) :
    load hashInt fileName.command { m with vm := vmInit H } = .ok (m', none) := by
  have hlen := length_le_of_startProcess (by rw [hgo]; exact Option.some_ne_none _)
  rw [startProcess_eq hlen] at hgo
  cases hload : load hashInt fileName.command { m with vm := vmInit H } with
  | error e =>
      rw [hload] at hgo
      cases hgo
  | ok x =>
      obtain ⟨m₁, b⟩ := x
      rw [hload] at hgo
      cases b with
      | none =>
          cases hgo
          rfl
      | some r₁ =>
          obtain ⟨st, -, hst⟩ := Option.bind_eq_some_iff.1 hgo
          obtain ⟨sp, -, heq⟩ := Option.map_eq_some_iff.1 hst
          cases heq

/-- A process that is started finds the words of its command line through `argc` and `argv`, in the
memory that its page table shows, and begins at the entry point of its executable.  With memory
enough every executable is started. -/
theorem start_process_arguments
    (hopen : ∀ s name s' f, S.filesysOpen s name = (s', some f) → S.pos s' f = 0) :
    (∀ m' r, startProcess hashInt bytes block fileName m = some (m', some r) → ∃ file,
      (S.filesysOpen m.space.files fileName.command).2 = some file ∧
        Executable S file (filePhdrs S file) ∧ r.1 = (fileEhdr S file).eEntry ∧
        ∃ written, InitialStack ⟨userByte m'.space, r.2, written⟩ (tokensOf fileName.1)) ∧
    ∀ files file, S.filesysOpen m.space.files fileName.command = (files, some file) →
      S.pagedirCreate = true → (∀ dir u, S.pageTable dir u = true) →
      m.space.used.card < S.poolSize →
      m.heap.card + (fileEntries S file).length < S.heapSize → fileName.1.length ≤ 255 →
        ((∃ m' r, startProcess hashInt bytes true fileName m = some (m', some r)) ↔
          Executable S file (filePhdrs S file)) := by
  refine ⟨fun m' r hgo => ?_, fun files file hfile hcreate htable hpool hroom hlen =>
    ⟨?_, fun hexe => ?_⟩⟩
  · obtain ⟨file, hfile, hstarted⟩ := startProcess_started hopen hgo
    have hshort : fileName.1.length ≤ 255 := by
      have hlen := length_le_of_startProcess (by rw [hgo]; exact Option.some_ne_none _)
      rw [startProcess_eq hlen] at hgo
      split at hgo
      · cases hgo
      · cases hgo
      · obtain ⟨st, hst, -⟩ := Option.bind_eq_some_iff.1 hgo
        exact length_le_of_constructEsp hst
    refine ⟨file, hfile, hstarted.executable, by rw [hstarted.registers],
      (initialStack fileName).written, ?_⟩
    rw [hstarted.memory, hstarted.registers]
    exact initialStack_spec hshort
  · rintro ⟨m', r, hgo⟩
    obtain ⟨file', hfile', hstarted⟩ := startProcess_started hopen hgo
    rw [hfile] at hfile'
    obtain rfl : file = file' := Option.some.inj hfile'
    exact hstarted.executable
  · obtain ⟨m₁, r₁, e, hload, -⟩ := load_stores (m := { m with vm := vmInit H }) hexe hfile
      (hopen _ _ _ _ hfile) hcreate htable rfl hpool hroom
    have hlen' : fileName.1.length + 1 ≤ 500 := by omega
    obtain ⟨file', -, ⟨hnone, -⟩ | ⟨m₂, r₂, hsome, -⟩⟩ :=
      startProcess_of_load bytes true hopen hlen' hload
    · obtain ⟨st, hst, -⟩ := constructEsp_initialStack (userByte m₁.space) fileName.2 hlen
      rw [hst] at hnone
      cases hnone
    · exact ⟨m₂, r₂, hsome⟩

end Start

/-! ### The executable of one segment, with an argument -/

/-- `a b` -/
def oneCommand : CString := ⟨[0x61, 0x20, 0x62], by decide⟩

theorem start_process_arguments_one :
    ∃ m' r, startProcess BitVec.toNat (fun _ => 0) true oneCommand freshMachine = some (m', some r) ∧
      ∃ written, InitialStack ⟨userByte m'.space, r.2, written⟩ [[0x61], [0x62]] := by
  have hexe : Executable oneSegment 0 (filePhdrs oneSegment 0) :=
    ((load_ends rfl rfl rfl rfl).loaded _ _ load_freshMachine).1.executable
  have htokens : tokensOf oneCommand.1 = [[0x61], [0x62]] := by decide
  obtain ⟨hargs, hall⟩ := @start_process_arguments oneSegment (buckets Ptr 4) BitVec.toNat
    freshMachine (fun _ => 0) true oneCommand oneSegment_opens
  obtain ⟨m', r, hgo⟩ := (hall _ 0 rfl rfl (fun _ _ => rfl) (by decide) (by decide +kernel)
    (by decide)).2 hexe
  obtain ⟨file, -, -, -, written, hstack⟩ := hargs m' r hgo
  exact ⟨m', r, hgo, written, htokens ▸ hstack⟩

end Project4
end Pintos
