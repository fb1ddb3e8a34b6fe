import Pintos.Project4.Handler

/-!
# Syscall — the arguments that `syscall_handler` decodes

The stubs of `lib/user/syscall.h` push the arguments of a call and then its number, so the handler
finds the number at `f->esp` and argument `i` in the slot at `f->esp + 4 * i`.  `Request.ofSlots` is
this convention; `syscallHandler` is the `switch`, which hands on some slots in place of what they
hold.
-/

namespace Pintos
namespace Project3

open Userprog
open Project4 (SyscallNr Request Stop)

structure IntrFrame where
  esp : Word
  eax : Word
  deriving DecidableEq

section Handler

/- `number` is the meaning of the call numbers, `mem` the memory of the process, where an access to
a byte that is `none` faults for good, and `impl` what the implementation returns for a call. -/
variable (number : Word → Option SyscallNr) (mem : Word → Option Byte) (impl : Request → Word)

/-- `*(uint32_t *) a` -/
def readWord (a : Word) : Except Stop Word :=
  match mem a, mem (a + 1), mem (a + 2), mem (a + 3) with
  | some b₀, some b₁, some b₂, some b₃ => .ok (b₃ ++ b₂ ++ b₁ ++ b₀)
  | _, _, _, _ => .error .fault

def checkType (addr : Word) : Except Stop Unit :=
  if isUserVaddr addr then .ok () else .error (.exit (-1))

/-- A call of the implementation whose value is stored in `eax`. -/
def callStore (f : IntrFrame) (r : Request) : Request × IntrFrame := (r, { f with eax := impl r })

/-- The cases of the `switch`, each with the call that it makes. -/
def dispatch (f : IntrFrame) : Option SyscallNr → Except Stop (Request × IntrFrame)
  | some .halt => pure (.halt, f)
  | some .exit => do
      checkType (f.esp + 4)
      let status ← readWord mem (f.esp + 4)
      pure (.exit status, f)
  | some .exec => do
      checkType (f.esp + 4)
      let file ← readWord mem (f.esp + 4)
      pure (callStore impl f (.exec file))
  | some .wait => do
      checkType (f.esp + 4)
      -- `(pid_t)(uint32_t *)(f->esp + 4)`
      pure (callStore impl f (.wait (f.esp + 4)))
  | some .create => do
      checkType (f.esp + 4)
      checkType (f.esp + 8)
      let file ← readWord mem (f.esp + 4)
      let initialSize ← readWord mem (f.esp + 8)
      pure (callStore impl f (.create file initialSize))
  | some .remove => do
      checkType (f.esp + 4)
      let file ← readWord mem (f.esp + 4)
      pure (callStore impl f (.remove file))
  | some .open => do
      checkType (f.esp + 4)
      let file ← readWord mem (f.esp + 4)
      pure (callStore impl f (.open file))
  | some .filesize => do
      checkType (f.esp + 4)
      let fd ← readWord mem (f.esp + 4)
      pure (callStore impl f (.filesize fd))
  | some .read => do
      checkType (f.esp + 4)
      checkType (f.esp + 8)
      checkType (f.esp + 12)
      let fd ← readWord mem (f.esp + 4)
      let size ← readWord mem (f.esp + 12)
      -- `(void *)(uint32_t *)(f->esp + 8)`
      pure (callStore impl f (.read fd (f.esp + 8) size))
  | some .write => do
      checkType (f.esp + 4)
      checkType (f.esp + 8)
      checkType (f.esp + 12)
      let fd ← readWord mem (f.esp + 4)
      let size ← readWord mem (f.esp + 12)
      -- `(const void *)(uint32_t *)(f->esp + 8)`
      pure (callStore impl f (.write fd (f.esp + 8) size))
  | some .seek => do
      checkType (f.esp + 4)
      checkType (f.esp + 8)
      let fd ← readWord mem (f.esp + 4)
      let position ← readWord mem (f.esp + 8)
      pure (.seek fd position, f)
  | some .tell => do
      checkType (f.esp + 4)
      let fd ← readWord mem (f.esp + 4)
      pure (callStore impl f (.tell fd))
  | some .close => do
      checkType (f.esp + 4)
      let fd ← readWord mem (f.esp + 4)
      pure (.close fd, f)
  | none => .error (.exit (-1))

def syscallHandler (f : IntrFrame) : Except Stop (Request × IntrFrame) := do
  let nr ← readWord mem f.esp
  dispatch mem impl f (number nr)

end Handler

/-! ## The calling convention -/

/-- Where the stub has pushed argument `i`; the number is at `i = 0`. -/
def slot (esp : Word) (i : ℕ) : Word := esp + BitVec.ofNat 32 (4 * i)

/-- How many arguments the prototype has. -/
def arity : SyscallNr → ℕ
  | .halt => 0
  | .exit | .exec | .wait | .remove | .open | .filesize | .tell | .close => 1
  | .create | .seek => 2
  | .read | .write => 3

/-- Whether the prototype has a return value. -/
def returnsValue : SyscallNr → Bool
  | .halt | .exit | .seek | .close => false
  | .exec | .wait | .create | .remove | .open | .filesize | .read | .write | .tell => true

/-- The call that a program means by the words in its slots. -/
def ofSlots (args : ℕ → Word) : SyscallNr → Request
  | .halt => .halt
  | .exit => .exit (args 1)
  | .exec => .exec (args 1)
  | .wait => .wait (args 1)
  | .create => .create (args 1) (args 2)
  | .remove => .remove (args 1)
  | .open => .open (args 1)
  | .filesize => .filesize (args 1)
  | .read => .read (args 1) (args 2) (args 3)
  | .write => .write (args 1) (args 2) (args 3)
  | .seek => .seek (args 1) (args 2)
  | .tell => .tell (args 1)
  | .close => .close (args 1)

/-- The call is made, and `eax` holds its value if it has one. -/
def served (impl : Request → Word) (f : IntrFrame) (nr : SyscallNr) (r : Request) :
    Request × IntrFrame :=
  (r, if returnsValue nr then { f with eax := impl r } else f)

/-- The arguments whose slot is passed on in place of its content. -/
def PassesSlot (nr : SyscallNr) (i : ℕ) : Prop :=
  nr = .wait ∧ i = 1 ∨ (nr = .read ∨ nr = .write) ∧ i = 2

instance instDecidablePassesSlot (nr : SyscallNr) (i : ℕ) : Decidable (PassesSlot nr i) :=
  inferInstanceAs (Decidable (_ ∨ _))

/-- The words that the handler passes on. -/
def passed (esp : Word) (args : ℕ → Word) (nr : SyscallNr) (i : ℕ) : Word :=
  if PassesSlot nr i then slot esp i else args i

/-- What the stub of the call has left behind: the number and the arguments in user memory. -/
structure Pushed (number : Word → Option SyscallNr) (mem : Word → Option Byte) (esp : Word)
    (nr : SyscallNr) (args : ℕ → Word) : Prop where
  number : ∃ n, readWord mem esp = .ok n ∧ number n = some nr
  word : ∀ i, 1 ≤ i → i ≤ arity nr → readWord mem (slot esp i) = .ok (args i)
  user : ∀ i, 1 ≤ i → i ≤ arity nr → isUserVaddr (slot esp i) = true

section Convention

variable {number : Word → Option SyscallNr} {mem : Word → Option Byte} {impl : Request → Word}
  {f : IntrFrame} {esp : Word} {nr : SyscallNr} {args args' : ℕ → Word}

theorem slot_one : slot esp 1 = esp + 4 := rfl

theorem slot_two : slot esp 2 = esp + 8 := rfl

theorem slot_three : slot esp 3 = esp + 12 := rfl

theorem ok_bind {α β : Type} {a : α} {g : α → Except Stop β} : Except.ok a >>= g = g a := rfl

theorem checkType_user {a : Word} (h : isUserVaddr a = true) : checkType a = .ok () :=
  if_pos h

theorem forall_slot_zero {P : ℕ → Prop} : (∀ i, 1 ≤ i → i ≤ 0 → P i) ↔ True := by
  refine iff_true_intro ?_
  intro i hle hge
  omega

theorem forall_slot_succ {P : ℕ → Prop} {n : ℕ} :
    (∀ i, 1 ≤ i → i ≤ n + 1 → P i) ↔ (∀ i, 1 ≤ i → i ≤ n → P i) ∧ P (n + 1) := by
  constructor
  · intro h
    exact ⟨fun i hle hge => h i hle (Nat.le_succ_of_le hge), h (n + 1) (Nat.succ_pos n) le_rfl⟩
  · rintro ⟨h, hlast⟩ i hle hge
    rcases Nat.le_succ_iff.1 hge with hge | rfl
    · exact h i hle hge
    · exact hlast

/-- Two calls of one number agree when their words do. -/
theorem ofSlots_inj :
    ofSlots args nr = ofSlots args' nr ↔ ∀ i, 1 ≤ i → i ≤ arity nr → args i = args' i := by
  -- number by number, an argument at a time up to the arity
  cases nr <;> simp only [arity, forall_slot_succ, forall_slot_zero] <;>
    simp [ofSlots, and_assoc]

theorem ofSlots_passed :
    ofSlots (passed esp args nr) nr = ofSlots args nr ↔
      ∀ i, PassesSlot nr i → slot esp i = args i := by
  rw [ofSlots_inj]
  constructor
  · intro h i hi
    -- a slot that is passed on belongs to an argument of the prototype
    have hbound : 1 ≤ i ∧ i ≤ arity nr := by
      rcases hi with ⟨rfl, rfl⟩ | ⟨rfl | rfl, rfl⟩ <;> decide
    have heq := h i hbound.1 hbound.2
    rwa [passed, if_pos hi] at heq
  · intro h i _ _
    by_cases hi : PassesSlot nr i
    · rw [passed, if_pos hi]
      exact h i hi
    · rw [passed, if_neg hi]

/-- On user addresses every case of the `switch` goes through to its call. -/
theorem syscallHandler_pushed (h : Pushed number mem f.esp nr args) :
    syscallHandler number mem impl f =
      .ok (served impl f nr (ofSlots (passed f.esp args nr) nr)) := by
  obtain ⟨n, hread, hnr⟩ := h.number
  have hcheck : ∀ i, 1 ≤ i → i ≤ arity nr → checkType (slot f.esp i) = .ok () :=
    fun i hle hge => checkType_user (h.user i hle hge)
  have hword := h.word
  rw [syscallHandler, hread, ok_bind, hnr]
  -- every check passes and every slot that is read holds its argument
  cases nr <;>
    simp only [arity, forall_slot_succ, forall_slot_zero, true_and, Nat.reduceAdd, slot_one,
      slot_two, slot_three] at hcheck hword <;>
    simp only [dispatch, hcheck, hword, ok_bind] <;> rfl

/-- A checked address in the kernel ends the process before any argument is read. -/
theorem syscallHandler_kernel {n : Word} (hread : readWord mem f.esp = .ok n)
    (hnr : number n = some nr)
    (h : ¬ ∀ i, 1 ≤ i → i ≤ arity nr → isUserVaddr (slot f.esp i) = true) :
    syscallHandler number mem impl f = .error (.exit (-1)) := by
  rw [syscallHandler, hread, ok_bind, hnr]
  -- all checks of a case come before its reads, so the first failing one decides
  cases nr <;>
    simp only [arity, forall_slot_succ, forall_slot_zero, true_and, Nat.reduceAdd, slot_one,
      slot_two, slot_three, not_true_eq_false] at h <;>
    simp only [dispatch, checkType] <;> split_ifs <;> first | rfl | simp_all

end Convention

/-! ## What a stub leaves in memory -/

section Layout

variable {number : Word → Option SyscallNr} {base : Word} {ws : List Word} {w : Word} {i : ℕ}

/-- The words from `base` on, and nothing else. -/
def layout (base : Word) (ws : List Word) (a : Word) : Option Byte :=
  ws[(a - base).toNat / 4]?.map fun w => w.extractLsb' (8 * ((a - base).toNat % 4)) 8

theorem layout_slot (hi : ws[i]? = some w) (hlen : 4 * i + 3 < 2 ^ 32) {k : ℕ} (hk : k < 4) :
    layout base ws (slot base i + BitVec.ofNat 32 k) = some (w.extractLsb' (8 * k) 8) := by
  -- `slot` may wrap around, but the distance from `base` does not
  have hofs : (slot base i + BitVec.ofNat 32 k - base).toNat = 4 * i + k := by
    have hsub : slot base i + BitVec.ofNat 32 k - base = BitVec.ofNat 32 (4 * i + k) := by
      rw [slot, BitVec.ofNat_add]
      bv_omega
    rw [hsub, BitVec.toNat_ofNat]
    omega
  have hdiv : (4 * i + k) / 4 = i := by omega
  have hmod : (4 * i + k) % 4 = k := by omega
  rw [layout, hofs, hdiv, hmod, hi]
  rfl

theorem bytes_append (w : Word) :
    w.extractLsb' 24 8 ++ w.extractLsb' 16 8 ++ w.extractLsb' 8 8 ++ w.extractLsb' 0 8 = w := by
  have h₁ : w.extractLsb' 24 8 ++ w.extractLsb' 16 8 = w.extractLsb' 16 16 :=
    BitVec.extractLsb'_append_extractLsb'_eq_extractLsb' rfl
  have h₂ : w.extractLsb' 16 16 ++ w.extractLsb' 8 8 = w.extractLsb' 8 24 :=
    BitVec.extractLsb'_append_extractLsb'_eq_extractLsb' rfl
  calc
    w.extractLsb' 24 8 ++ w.extractLsb' 16 8 ++ w.extractLsb' 8 8 ++ w.extractLsb' 0 8
        = w.extractLsb' 8 24 ++ w.extractLsb' 0 8 := by rw [h₁, h₂]
    _ = w := @BitVec.extractLsb'_append_extractLsb' 24 8 w

theorem readWord_layout (hi : ws[i]? = some w) (hlen : 4 * i + 3 < 2 ^ 32) :
    readWord (layout base ws) (slot base i) = .ok w := by
  -- the four bytes of the word, the lowest first
  have h₀ : layout base ws (slot base i) = some (w.extractLsb' 0 8) := by
    simpa using @layout_slot base ws w i hi hlen 0 (by omega)
  have h₁ : layout base ws (slot base i + 1) = some (w.extractLsb' 8 8) :=
    layout_slot (k := 1) hi hlen (by omega)
  have h₂ : layout base ws (slot base i + 2) = some (w.extractLsb' 16 8) :=
    layout_slot (k := 2) hi hlen (by omega)
  have h₃ : layout base ws (slot base i + 3) = some (w.extractLsb' 24 8) :=
    layout_slot (k := 3) hi hlen (by omega)
  rw [readWord, h₀, h₁, h₂, h₃]
  exact congrArg Except.ok (bytes_append w)

/-- The words that the stub pushes, the number last. -/
def stub (n : Word) (nr : SyscallNr) (args : ℕ → Word) : List Word :=
  n :: (List.range (arity nr)).map fun i => args (i + 1)

theorem arity_le (nr : SyscallNr) : arity nr ≤ 3 := by
  cases nr <;> decide

theorem pushed_stub {esp n : Word} {nr : SyscallNr} {args : ℕ → Word} (hnr : number n = some nr)
    (huser : ∀ i, 1 ≤ i → i ≤ arity nr → isUserVaddr (slot esp i) = true) :
    Pushed number (layout esp (stub n nr args)) esp nr args where
  number := by
    refine ⟨n, ?_, hnr⟩
    have hslot : slot esp 0 = esp := BitVec.add_zero esp
    have hread := @readWord_layout esp (stub n nr args) n 0 rfl (by omega)
    rwa [hslot] at hread
  word i hle hge := by
    -- the number lies in front of the arguments, so argument `i` is word `i`
    obtain ⟨j, rfl⟩ : ∃ j, i = j + 1 := ⟨i - 1, by omega⟩
    have harity := arity_le nr
    refine readWord_layout ?_ (by omega)
    simp [stub, Nat.lt_of_succ_le hge]
  user := huser

end Layout

/-! ## Which calls are decoded -/

/-- The handler makes the call that the program has pushed exactly when the words whose slots it
passes on are the addresses of these slots. -/
theorem syscall_arguments_iff (number : Word → Option SyscallNr) (mem : Word → Option Byte)
    (impl : Request → Word) (f : IntrFrame) (nr : SyscallNr) (args : ℕ → Word)
    (h : Pushed number mem f.esp nr args) :
    syscallHandler number mem impl f = .ok (served impl f nr (ofSlots args nr)) ↔
      ∀ i, PassesSlot nr i → slot f.esp i = args i := by
  -- what is served is the call that the passed words mean
  rw [syscallHandler_pushed h, ← ofSlots_passed]
  constructor
  · intro heq
    exact congrArg Prod.fst (Except.ok.inj heq)
  · intro heq
    rw [heq]

theorem syscall_arguments_exec :
    syscallHandler (fun n => if n = 2 then some .exec else none)
        (layout 0xbfffff00 (stub 2 .exec fun _ => 0xbfffff10)) (fun _ => 5) ⟨0xbfffff00, 0⟩ =
      .ok (.exec 0xbfffff10, ⟨0xbfffff00, 5⟩) := by
  have hpushed : Pushed (fun n => if n = 2 then some .exec else none)
      (layout 0xbfffff00 (stub 2 .exec fun _ => 0xbfffff10)) 0xbfffff00 .exec
      fun _ => 0xbfffff10 := by
    refine pushed_stub rfl ?_
    intro i hle hge
    obtain rfl : i = 1 := le_antisymm hge hle
    decide
  refine (syscall_arguments_iff _ _ (fun _ => 5) ⟨0xbfffff00, 0⟩ .exec _ hpushed).2 ?_
  rintro i (⟨hnr, -⟩ | ⟨hnr | hnr, -⟩) <;> cases hnr

/-- `wait (3)` asks for the process whose number is the address of the slot. -/
theorem syscall_wait_slot :
    Pushed (fun n => if n = 3 then some .wait else none)
        (layout 0xbfffff00 (stub 3 .wait fun _ => 3)) 0xbfffff00 .wait (fun _ => 3) ∧
      syscallHandler (fun n => if n = 3 then some .wait else none)
        (layout 0xbfffff00 (stub 3 .wait fun _ => 3)) (fun _ => 0) ⟨0xbfffff00, 0⟩ ≠
      .ok (served (fun _ => 0) ⟨0xbfffff00, 0⟩ .wait (.wait 3)) := by
  have huser : ∀ i, 1 ≤ i → i ≤ arity .wait → isUserVaddr (slot 0xbfffff00 i) = true := by
    intro i hle hge
    obtain rfl : i = 1 := le_antisymm hge hle
    decide
  exact ⟨pushed_stub rfl huser, by decide +kernel⟩

end Project3
end Pintos
