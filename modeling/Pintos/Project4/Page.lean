import Pintos.Lib.HashTable
import Pintos.Userprog.Memory

/-!
# Page — the entries of the supplemental page table (`vm/page.h`, `vm/page.c`)

`struct vm_entry` embeds the `hash_elem` by which the table links it, and the callbacks of the table
recover the entry from a pointer to that member.  A pointer is therefore an object with a byte
offset into it, and a read that misses the object finds whatever word lies there.
-/

namespace Pintos
namespace Project4

open Lib Userprog Function

/-! ## `struct vm_entry` -/

/-- Entries are allocated by `malloc`. -/
abbrev VmePtr := ℕ

def VM_BIN : BitVec 8 := 0

def VM_FILE : BitVec 8 := 1

def VM_ANON : BitVec 8 := 2

structure VmEntry where
  type : BitVec 8
  vaddr : Word
  writable : Bool
  isLoaded : Bool
  file : FilePtr
  offset : Word
  readBytes : ℕ
  zeroBytes : ℕ
  deriving DecidableEq

/-- The objects of type `struct vm_entry`: those on the heap and the local variable of `find_vme`. -/
inductive Object
  | heap (p : VmePtr)
  | probe
  deriving DecidableEq

structure Ptr where
  object : Object
  offset : ℤ
  deriving DecidableEq

/-- `offsetof (struct vm_entry, vaddr)` -/
def VADDR_OFFSET : ℤ := 4

/-- `offsetof (struct vm_entry, elem)` -/
def ELEM_OFFSET : ℤ := 40

/-- `&vme->elem` -/
def elemOf (p : VmePtr) : Ptr := ⟨.heap p, ELEM_OFFSET⟩

/-- `hash_entry (e, struct vm_entry, elem)` -/
def hashEntry (e : Ptr) : Ptr := { e with offset := e.offset - ELEM_OFFSET }

/-- The entries, and the words that lie around them at a given byte offset. -/
structure Memory where
  entry : Object → VmEntry
  around : Object → ℤ → Word

/-- `vme->vaddr` -/
def Memory.vaddr (m : Memory) (vme : Ptr) : Word :=
  if vme.offset = 0 then (m.entry vme.object).vaddr
  else m.around vme.object (vme.offset + VADDR_OFFSET)

def Memory.write (m : Memory) (o : Object) (e : VmEntry) : Memory :=
  { m with entry := update m.entry o e }

/-! ## The table (`vm/page.c`) -/

section Table

variable (H : HashTable Ptr) (hashInt : Word → ℕ)

def vmInit : H.Table := H.init

def vmHashFunc (m : Memory) (e : Ptr) : ℕ :=
  let vme := hashEntry e
  hashInt (m.vaddr vme)

def vmLessFunc (m : Memory) (a b : Ptr) : Bool :=
  let aVm := hashEntry a
  let bVm := hashEntry b
  decide (m.vaddr bVm > m.vaddr aVm)

def insertVme (m : Memory) (vm : H.Table) (vme : VmePtr) : H.Table × Bool :=
  let (vm', old) := H.insert (vmHashFunc hashInt m) (vmLessFunc m) vm (elemOf vme)
  if old = none then (vm', true) else (vm', false)

def deleteVme (m : Memory) (vm : H.Table) (vme : VmePtr) : H.Table × Bool :=
  let (vm', old) := H.delete (vmHashFunc hashInt m) (vmLessFunc m) vm (elemOf vme)
  if old = none then (vm', false) else (vm', true)

/-- The pointer handed to `hash_find` is `&vme.vaddr`, not `&vme.elem`. -/
def findVme (m : Memory) (vm : H.Table) (vaddr : Word) : Option Ptr :=
  let m' := m.write .probe { m.entry .probe with vaddr := pgRoundDown vaddr }
  let tmp := H.find (vmHashFunc hashInt m') (vmLessFunc m') vm ⟨.probe, VADDR_OFFSET⟩
  match tmp with
  | none => none
  | some tmp => some (hashEntry tmp)

end Table

/-! ## Loading a page (`vm/page.c`) -/

def loadFile {S : Services} (m : Space S) (kaddr : FramePtr) (vme : VmEntry) : Space S × Bool :=
  let m := m.fileSeek vme.file vme.offset
  let read := m.fileRead vme.file kaddr vme.readBytes
  if read.2 ≠ vme.readBytes then (read.1, false)
  else (read.1.memset kaddr vme.readBytes vme.zeroBytes, true)

/-! ## Keys -/

/-- The address by which the callbacks file the element. -/
def Memory.key (m : Memory) (e : Ptr) : Word := m.vaddr (hashEntry e)

section Key

variable {m : Memory} {hashInt : Word → ℕ}

theorem vmHashFunc_eq : vmHashFunc hashInt m = hashOf hashInt m.key := rfl

theorem vmLessFunc_eq : vmLessFunc m = lessOf m.key := rfl

@[simp] theorem key_elemOf (p : VmePtr) : m.key (elemOf p) = (m.entry (.heap p)).vaddr := by
  simp [Memory.key, Memory.vaddr, hashEntry, elemOf]

/-- What the callbacks take for the `vaddr` of the probe lies outside it. -/
theorem key_probe (m : Memory) : m.key ⟨.probe, VADDR_OFFSET⟩ = m.around .probe (-32) := by
  simp [Memory.key, Memory.vaddr, hashEntry, VADDR_OFFSET, ELEM_OFFSET]

@[simp] theorem hashEntry_elemOf (p : VmePtr) : hashEntry (elemOf p) = ⟨.heap p, 0⟩ := by
  simp [hashEntry, elemOf]

theorem elemOf_injective : Injective elemOf := by
  intro p q h
  simpa [elemOf] using h

@[simp] theorem write_entry_self (o : Object) (e : VmEntry) : (m.write o e).entry o = e := by
  simp [Memory.write]

theorem write_entry_of_ne {o o' : Object} (h : o' ≠ o) (e : VmEntry) :
    (m.write o e).entry o' = m.entry o' := by
  simp [Memory.write, h]

@[simp] theorem write_around (o : Object) (e : VmEntry) : (m.write o e).around = m.around := rfl

end Key

end Project4
end Pintos
