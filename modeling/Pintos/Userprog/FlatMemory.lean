import Pintos.Lib.PageTables
import Pintos.Userprog.Memory

/-!
# FlatMemory — what user programs may take their memory for

Every process has pages of its own, writable or not, with their bytes.  A read returns the byte that
was written last, or the one that the process started with; nothing that another process does
changes it.
-/

namespace Pintos
namespace Userprog

open Lib Function

abbrev Pid := ℕ

/-- The pages of a process, by their addresses: whether they may be written, and their bytes. -/
structure Flat where
  writable : Word → Option Bool
  byte : Word → ℕ → Byte

inductive AccessKind
  | read
  | write (b : Byte)

/-- The address lies in a page of the process, and a page that is written may be. -/
def Flat.Allows (f : Flat) (acc : AccessKind) (a : Word) : Prop :=
  isUserVaddr a = true ∧ ∃ w, f.writable (pgRoundDown a) = some w ∧ ∀ b, acc = .write b → w = true

inductive MemEvent
  | start (p : Pid) (f : Flat)
  | read (p : Pid) (a : Word) (b : Byte)
  | write (p : Pid) (a : Word) (b : Byte)
  | stop (p : Pid)

/-- What is seen of an access that goes through. -/
def Flat.respond (f : Flat) (p : Pid) (acc : AccessKind) (a : Word) : MemEvent :=
  match acc with
  | .read => .read p a (f.byte (pgRoundDown a) (pgOfs a).toNat)
  | .write b => .write p a b

/-- The processes that run, with their memory. -/
abbrev FlatState := Pid → Option Flat

def Flat.write (f : Flat) (u : Word) (i : ℕ) (b : Byte) : Flat :=
  { f with byte := update f.byte u (update (f.byte u) i b) }

def flatStep (e : MemEvent) (φ : FlatState) : Option FlatState :=
  match e with
  | .start p f => if (φ p).isNone then some (update φ p (some f)) else none
  | .read p a b =>
      match φ p with
      | none => none
      | some f =>
          if (f.writable (pgRoundDown a)).isSome ∧ f.byte (pgRoundDown a) (pgOfs a).toNat = b then
            some φ
          else none
  | .write p a b =>
      match φ p with
      | none => none
      | some f =>
          if f.writable (pgRoundDown a) = some true then
            some (update φ p (some (f.write (pgRoundDown a) (pgOfs a).toNat b)))
          else none
  | .stop p => if (φ p).isSome then some (update φ p none) else none

/-- The bytes of a page. -/
def contents (φ : FlatState) (p : Pid) (u : Word) (i : ℕ) : Byte :=
  match φ p with
  | none => 0
  | some f => f.byte u i

theorem contents_of_some {φ : FlatState} {p : Pid} {f : Flat} (h : φ p = some f) :
    contents φ p = f.byte := by
  funext u i
  simp only [contents, h]

theorem contents_update_ne {φ : FlatState} {p q : Pid} {x : Option Flat} (h : q ≠ p) :
    contents (update φ p x) q = contents φ q := by
  funext u i
  simp only [contents, update_of_ne h]

theorem contents_write {φ : FlatState} {p : Pid} {f : Flat} {u : Word} {i : ℕ} {b : Byte}
    (hf : φ p = some f) :
    contents (update φ p (some (f.write u i b))) = PageTables.flatWrite (contents φ) p u i b := by
  funext q
  by_cases hq : q = p
  · subst hq
    rw [contents_of_some (update_self ..), PageTables.flatWrite, update_self, contents_of_some hf]
    rfl
  · rw [contents_update_ne hq, PageTables.flatWrite, update_of_ne hq]

end Userprog
end Pintos
