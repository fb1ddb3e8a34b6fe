import Mathlib.Tactic.Linarith
import Pintos.Userprog.Memory

/-!
# Handler — what `syscall_handler` reads, and what it has checked before

`syscall_handler` fetches the call number and the arguments from the user's stack and scans the
strings of `exec` and `open`.  An `Access` logs every byte that the kernel reads on the way, every
`is_user_vaddr` that has succeeded and every result of `find_vme` that has been compared with
`NULL`.
-/

namespace Pintos
namespace Project4

open Userprog

/-! ## Accesses -/

inductive UserEvent
  | isUser (vaddr : Word)
  | hasEntry (vaddr : Word)
  | read (vaddr : Word)
  deriving DecidableEq

/-- Why the handler does not go on: the process exits, an access faults, a loop does not end. -/
inductive Stop
  | exit (status : ℤ)
  | fault
  | endless
  deriving DecidableEq

structure Access (α : Type) where
  log : List UserEvent
  result : Except Stop α

namespace Access

variable {α β : Type}

def bind (x : Access α) (f : α → Access β) : Access β :=
  match x.result with
  | .error s => ⟨x.log, .error s⟩
  | .ok a => ⟨x.log ++ (f a).log, (f a).result⟩

instance instMonad : Monad Access where
  pure a := ⟨[], .ok a⟩
  bind := bind

/-- What the first part logs stays. -/
theorem bind_log (x : Access α) (f : α → Access β) : x.log <+: (x >>= f).log := by
  change x.log <+: (bind x f).log
  unfold bind
  split
  · exact List.prefix_rfl
  · exact List.prefix_append _ _

theorem bind_error {x : Access α} {f : α → Access β} {s : Stop} (h : x.result = .error s) :
    x >>= f = ⟨x.log, .error s⟩ := by
  change bind x f = _
  rw [bind, h]

theorem bind_ok {x : Access α} {f : α → Access β} {a : α} (h : x.result = .ok a) :
    x >>= f = ⟨x.log ++ (f a).log, (f a).result⟩ := by
  change bind x f = _
  rw [bind, h]

def stop (s : Stop) : Access α := ⟨[], .error s⟩

def event (e : UserEvent) : Access Unit := ⟨[e], .ok ()⟩

end Access

/-! ## The calls that the handler makes -/

/-- The numbers of `syscall-nr.h`. -/
inductive SyscallNr
  | halt | exit | exec | wait | create | remove | open | filesize | read | write | seek | tell
  | close
  deriving DecidableEq

/-- A call with the arguments that the handler has fetched for it. -/
inductive Request
  | halt
  | exit (status : Word)
  | exec (cmdLine : Word)
  | wait (pid : Word)
  | create (file initialSize : Word)
  | remove (file : Word)
  | open (file : Word)
  | filesize (fd : Word)
  | read (fd buffer size : Word)
  | write (fd buffer size : Word)
  | seek (fd position : Word)
  | tell (fd : Word)
  | close (fd : Word)
  | unknown
  deriving DecidableEq

section Handler

/- `number` is the meaning of the call numbers, `mem` the memory of the process, where an access to
a byte that is `none` faults for good, and `entry` says for a page whether it has an entry and
whether that is writable. -/
variable (number : Word → Option SyscallNr) (mem : Word → Option Byte) (entry : Word → Option Bool)

def readByte (a : Word) : Access Byte where
  log := [.read a]
  result := match mem a with
    | none => .error .fault
    | some b => .ok b

/-- `*(uint32_t *) a`, one access to four bytes. -/
def readWord (a : Word) : Access Word where
  log := [.read a, .read (a + 1), .read (a + 2), .read (a + 3)]
  result := match mem a, mem (a + 1), mem (a + 2), mem (a + 3) with
    | some b₀, some b₁, some b₂, some b₃ => .ok (b₃ ++ b₂ ++ b₁ ++ b₀)
    | _, _, _, _ => .error .fault

/-- The entry is looked up and handed back, `NULL` or not. -/
def checkUserVaddr (vaddr : Word) : Access (Option Bool) :=
  if isUserVaddr vaddr then do
    .event (.isUser vaddr)
    pure (entry (pgRoundDown vaddr))
  else .stop (.exit (-1))

/-- `for (; ptr < stop; ptr += PGSIZE)`, with fuel. -/
def pageLoop (body : Word → Access Unit) : ℕ → Word → Word → Access Unit
  | 0, _, _ => .stop .endless
  | n + 1, ptr, stop =>
      if ptr < stop then do
        body ptr
        pageLoop body n (ptr + BitVec.ofNat 32 PGSIZE) stop
      else pure ()

/-- Every page of the address space, and one more to leave the loop. -/
def pageFuel : ℕ := 2 ^ 20 + 1

/-- The body of the loop of `check_valid_buffer`. -/
def checkBufferPage (ptr : Word) : Access Unit := do
  let vme ← checkUserVaddr entry ptr
  match vme with
  | none => .stop (.exit (-1))
  | some writable => do
      .event (.hasEntry ptr)
      if writable then pure () else .stop (.exit (-1))

def checkValidBuffer (buffer size : Word) : Access Unit :=
  pageLoop (checkBufferPage entry) pageFuel (pgRoundDown buffer) (buffer + size)

/-- The body of the loop of `check_str`, which looks up the entry twice. -/
def checkStrPage (ptr : Word) : Access Unit := do
  let vme ← checkUserVaddr entry ptr
  match vme with
  | none => .stop (.exit (-1))
  | some _ => do
      .event (.hasEntry ptr)
      let vme ← checkUserVaddr entry ptr
      match vme with
      | some true => pure ()
      | _ => .stop (.exit (-1))

def checkStr (str : Word) (len : ℕ) : Access Unit :=
  pageLoop (checkStrPage entry) pageFuel (pgRoundDown str) (str + BitVec.ofNat 32 len)

/-- `while (char_at (len) != '\0') len++`, with fuel. -/
def scanString (charAt : Word → Access Byte) : ℕ → ℕ → Access ℕ
  | 0, _ => .stop .endless
  | n + 1, len => do
      let c ← charAt (BitVec.ofNat 32 len)
      if c = 0 then pure len else scanString charAt n (len + 1)

def strlenFrom (charAt : Word → Access Byte) : Access ℕ := scanString charAt (2 ^ 32) 0

/-- The cases of the `switch`.  `exec` looks for the end of its string on the stack itself, `open`
fetches its argument again for every character. -/
def dispatch (esp : Word) : Option SyscallNr → Access Request
  | none => pure .unknown
  | some .halt => pure .halt
  | some .exit => do
      let _ ← checkUserVaddr entry (esp + 4)
      let status ← readWord mem (esp + 4)
      pure (.exit status)
  | some .exec => do
      let _ ← checkUserVaddr entry (esp + 4)
      let len ← strlenFrom fun i => readByte mem (esp + 4 + i)
      let str ← readWord mem (esp + 4)
      checkStr entry str len
      let cmdLine ← readWord mem (esp + 4)
      pure (.exec cmdLine)
  | some .wait => do
      let pid ← readWord mem (esp + 4)
      pure (.wait pid)
  | some .create => do
      let _ ← checkUserVaddr entry (esp + 4)
      let _ ← checkUserVaddr entry (esp + 8)
      let file ← readWord mem (esp + 4)
      let initialSize ← readWord mem (esp + 8)
      pure (.create file initialSize)
  | some .remove => do
      let _ ← checkUserVaddr entry (esp + 4)
      let file ← readWord mem (esp + 4)
      pure (.remove file)
  | some .open => do
      let _ ← checkUserVaddr entry (esp + 4)
      let len ← strlenFrom fun i => do
        let str ← readWord mem (esp + 4)
        readByte mem (str + i)
      let str ← readWord mem (esp + 4)
      checkStr entry str len
      let file ← readWord mem (esp + 4)
      pure (.open file)
  | some .filesize => do
      let _ ← checkUserVaddr entry (esp + 4)
      let fd ← readWord mem (esp + 4)
      pure (.filesize fd)
  | some .read => do
      let _ ← checkUserVaddr entry (esp + 4)
      let _ ← checkUserVaddr entry (esp + 8)
      let _ ← checkUserVaddr entry (esp + 12)
      let buffer ← readWord mem (esp + 8)
      let size ← readWord mem (esp + 12)
      checkValidBuffer entry buffer size
      let fd ← readWord mem (esp + 4)
      let buffer ← readWord mem (esp + 8)
      let size ← readWord mem (esp + 12)
      pure (.read fd buffer size)
  | some .write => do
      let buffer ← readWord mem (esp + 8)
      let size ← readWord mem (esp + 12)
      checkValidBuffer entry buffer size
      let fd ← readWord mem (esp + 4)
      let buffer ← readWord mem (esp + 8)
      let size ← readWord mem (esp + 12)
      pure (.write fd buffer size)
  | some .seek => do
      let _ ← checkUserVaddr entry (esp + 4)
      let _ ← checkUserVaddr entry (esp + 8)
      let fd ← readWord mem (esp + 4)
      let position ← readWord mem (esp + 8)
      pure (.seek fd position)
  | some .tell => do
      let _ ← checkUserVaddr entry (esp + 4)
      let fd ← readWord mem (esp + 4)
      pure (.tell fd)
  | some .close => do
      let _ ← checkUserVaddr entry (esp + 4)
      let fd ← readWord mem (esp + 4)
      pure (.close fd)

def syscallHandler (esp : Word) : Access Request := do
  let _ ← checkUserVaddr entry esp
  let nr ← readWord mem esp
  dispatch mem entry esp (number nr)

end Handler

/-! ## The loops end as the source's do -/

section Loops

variable {entry : Word → Option Bool} {esp : Word}

theorem checkUserVaddr_user (h : esp < PHYS_BASE) :
    checkUserVaddr entry esp = ⟨[.isUser esp], .ok (entry (pgRoundDown esp))⟩ := by
  have huser : isUserVaddr esp = true := decide_eq_true h
  rw [checkUserVaddr, if_pos huser]
  rfl

theorem checkUserVaddr_kernel (h : PHYS_BASE ≤ esp) :
    checkUserVaddr entry esp = ⟨[], .error (.exit (-1))⟩ := by
  rw [checkUserVaddr, if_neg]
  · rfl
  · simpa [isUserVaddr] using h

/-- The fuel of the loops over pages is enough: they end below `PHYS_BASE` or exit there. -/
theorem pageLoop_ne_endless {body : Word → Access Unit}
    (hkernel : ∀ p u, (body p).result = .ok u → p < PHYS_BASE)
    (hbody : ∀ p, (body p).result ≠ .error .endless) (n : ℕ) :
    ∀ {ptr stop : Word}, PHYS_BASE.toNat ≤ ptr.toNat + n * PGSIZE →
      (pageLoop body (n + 1) ptr stop).result ≠ .error .endless := by
  induction n with
  | zero =>
      intro ptr stop hn
      rw [pageLoop]
      split
      · cases hr : (body ptr).result with
        | error s =>
            rw [Access.bind_error hr]
            intro heq
            exact hbody ptr (hr.trans heq)
        | ok u =>
            have hlt := hkernel ptr u hr
            rw [BitVec.lt_def] at hlt
            omega
      · intro heq
        cases heq
  | succ n ih =>
      intro ptr stop hn
      rw [pageLoop]
      split
      · cases hr : (body ptr).result with
        | error s =>
            rw [Access.bind_error hr]
            intro heq
            exact hbody ptr (hr.trans heq)
        | ok u =>
            rw [Access.bind_ok hr]
            have hlt := hkernel ptr u hr
            have hbase : PHYS_BASE.toNat = 0xc0000000 := rfl
            rw [BitVec.lt_def] at hlt
            -- the next page does not wrap around
            have hnext : (ptr + BitVec.ofNat 32 PGSIZE).toNat = ptr.toNat + PGSIZE := by
              rw [BitVec.toNat_add, BitVec.toNat_ofNat, PGSIZE]
              omega
            refine ih ?_
            rw [hnext]
            linarith
      · intro heq
        cases heq

/-- A scan that does not end has met no zero byte at all. -/
theorem scanString_endless {charAt : Word → Access Byte}
    (hchar : ∀ i, (charAt i).result ≠ .error .endless) (n : ℕ) :
    ∀ {len : ℕ}, (scanString charAt n len).result = .error .endless →
      ∀ i, len ≤ i → i < len + n → ∃ c, (charAt (BitVec.ofNat 32 i)).result = .ok c ∧ c ≠ 0 := by
  induction n with
  | zero =>
      intro len _ i hle hlt
      omega
  | succ n ih =>
      intro len hend i hle hlt
      rw [scanString] at hend
      cases hr : (charAt (BitVec.ofNat 32 len)).result with
      | error s =>
          rw [Access.bind_error hr] at hend
          cases hend
          exact absurd hr (hchar _)
      | ok c =>
          rw [Access.bind_ok hr] at hend
          -- the scan has gone on, so the character was not zero
          by_cases hc : c = 0
          · rw [if_pos hc] at hend
            cases hend
          · rw [if_neg hc] at hend
            by_cases hi : i = len
            · exact ⟨c, hi ▸ hr, hc⟩
            · exact ih hend i (by omega) (by omega)

theorem checkPages_ne_endless {body : Word → Access Unit} {a stop : Word}
    (hkernel : ∀ p, PHYS_BASE ≤ p → (body p).result = .error (.exit (-1)))
    (huser : ∀ p, p < PHYS_BASE → (body p).result ≠ .error .endless) :
    (pageLoop body pageFuel (pgRoundDown a) stop).result ≠ .error .endless := by
  refine pageLoop_ne_endless ?_ ?_ (2 ^ 20) ?_
  · -- a page from `PHYS_BASE` on ends the process
    intro p u hu
    by_contra hge
    rw [hkernel p (le_of_not_gt hge)] at hu
    cases hu
  · intro p
    by_cases hlt : p < PHYS_BASE
    · exact huser p hlt
    · rw [hkernel p (le_of_not_gt hlt)]
      intro heq
      cases heq
  · have hbase : PHYS_BASE.toNat = 0xc0000000 := rfl
    rw [hbase, PGSIZE]
    omega

/-- The body accepts a user page with a writable entry and ends the process on any other. -/
theorem checkBufferPage_result (p : Word) : (checkBufferPage entry p).result =
    if p < PHYS_BASE ∧ entry (pgRoundDown p) = some true then .ok () else .error (.exit (-1)) := by
  by_cases hp : p < PHYS_BASE
  · rw [checkBufferPage, checkUserVaddr_user hp, Access.bind_ok rfl]
    -- no entry, an entry that is not writable, a writable one
    rcases entry (pgRoundDown p) with _ | _ | _
    · simp [Access.stop]
    · simp [Access.event, Access.bind_ok, Access.stop]
    · rw [if_pos ⟨hp, rfl⟩]
      rfl
  · rw [if_neg fun h => hp h.1, checkBufferPage, checkUserVaddr_kernel (le_of_not_gt hp),
      Access.bind_error rfl]

/-- Looking up the entry twice makes no difference to the result. -/
theorem checkStrPage_result (p : Word) :
    (checkStrPage entry p).result = (checkBufferPage entry p).result := by
  rw [checkBufferPage_result]
  by_cases hp : p < PHYS_BASE
  · rw [checkStrPage, checkUserVaddr_user hp, Access.bind_ok rfl]
    -- the same three cases
    rcases entry (pgRoundDown p) with _ | _ | _
    · simp [Access.stop]
    · simp [Access.event, Access.bind_ok, Access.stop]
    · rw [if_pos ⟨hp, rfl⟩]
      rfl
  · rw [if_neg fun h => hp h.1, checkStrPage, checkUserVaddr_kernel (le_of_not_gt hp),
      Access.bind_error rfl]

theorem checkPage_ne_endless {body : Word → Access Unit}
    (hbody : ∀ p, (body p).result = (checkBufferPage entry p).result) (a stop : Word) :
    (pageLoop body pageFuel (pgRoundDown a) stop).result ≠ .error .endless := by
  refine checkPages_ne_endless (fun p hp => ?_) fun p hp => ?_
  · rw [hbody, checkBufferPage_result, if_neg fun h => absurd h.1 (not_lt_of_ge hp)]
  · rw [hbody, checkBufferPage_result]
    split <;> simp

theorem checkValidBuffer_ne_endless (buffer size : Word) :
    (checkValidBuffer entry buffer size).result ≠ .error .endless :=
  checkPage_ne_endless (fun _ => rfl) buffer _

theorem checkStr_ne_endless (str : Word) (len : ℕ) :
    (checkStr entry str len).result ≠ .error .endless :=
  checkPage_ne_endless checkStrPage_result str _

end Loops

/-! ## The property -/

/-- Every byte is read after an address of its page has been found below `PHYS_BASE` and after its
page has been found to have an entry. -/
def ChecksReads (log : List UserEvent) : Prop :=
  ∀ pre a post, log = pre ++ .read a :: post →
    (∃ b, .isUser b ∈ pre ∧ pgRoundDown b = pgRoundDown a) ∧
      ∃ b, .hasEntry b ∈ pre ∧ pgRoundDown b = pgRoundDown a

section Reads

variable {number : Word → Option SyscallNr} {mem : Word → Option Byte}
  {entry : Word → Option Bool} {esp : Word}

/-- The handler reads the call number after one `is_user_vaddr` only. -/
theorem handler_reads_number (h : esp < PHYS_BASE) :
    [.isUser esp, .read esp, .read (esp + 1), .read (esp + 2), .read (esp + 3)] <+:
      (syscallHandler number mem entry esp).log := by
  unfold syscallHandler
  rw [Access.bind_ok (congrArg Access.result (checkUserVaddr_user h)), checkUserVaddr_user h]
  exact (List.prefix_append_right_inj [UserEvent.isUser esp]).2 (Access.bind_log (readWord mem esp) _)

/-- A stack pointer in the kernel ends the process before anything is read. -/
theorem handler_exits (h : PHYS_BASE ≤ esp) :
    syscallHandler number mem entry esp = ⟨[], .error (.exit (-1))⟩ := by
  unfold syscallHandler
  rw [Access.bind_error (congrArg Access.result (checkUserVaddr_kernel h)),
    checkUserVaddr_kernel h]

theorem number_not_checked (h : esp < PHYS_BASE) :
    ¬ ChecksReads (syscallHandler number mem entry esp).log := by
  intro hchecks
  obtain ⟨rest, hrest⟩ := @handler_reads_number number mem entry esp h
  -- the result of `find_vme` has not been looked at
  have hlog : (syscallHandler number mem entry esp).log = [.isUser esp] ++ .read esp ::
      (.read (esp + 1) :: .read (esp + 2) :: .read (esp + 3) :: rest) := by
    rw [← hrest]
    rfl
  obtain ⟨-, b, hb, -⟩ := hchecks _ _ _ hlog
  simp at hb

/-- The handler checks what it reads exactly when the stack pointer is not a user address, in which
case it reads nothing. -/
theorem handler_reads_checked_iff (number : Word → Option SyscallNr) (mem : Word → Option Byte)
    (entry : Word → Option Bool) (esp : Word) :
    ChecksReads (syscallHandler number mem entry esp).log ↔ PHYS_BASE ≤ esp := by
  constructor
  · intro hchecks
    by_contra hlt
    exact number_not_checked (lt_of_not_ge hlt) hchecks
  · -- the log is empty
    intro hle pre a post hlog
    rw [handler_exits hle] at hlog
    simp at hlog

/-- The last user byte as stack pointer: the word of the call number goes on into the kernel. -/
theorem handler_reads_kernel :
    .read 0xc0000000 ∈
        (syscallHandler (fun _ => some .halt) (fun _ => some 0) (fun _ => none) 0xbfffffff).log ∧
      ¬ ChecksReads
        (syscallHandler (fun _ => some .halt) (fun _ => some 0) (fun _ => none) 0xbfffffff).log :=
  ⟨by decide +kernel, number_not_checked (by decide)⟩

end Reads

end Project4
end Pintos
