import Pintos.Project4.Process

/-!
# Load — loading an ELF executable (`userprog/process.c`)

`load` opens the executable, checks its header, registers the segments that its program headers
describe and sets up the stack; whether it succeeds or not, it closes the file at the end.
-/

namespace Pintos
namespace Project4

open Lib Userprog Function

/-! ## ELF headers -/

abbrev Half := BitVec 16

/-- Little endian. -/
def ofBytes (bs : List Byte) : ℕ := bs.foldr (fun b n => b.toNat + 256 * n) 0

def wordAt (bs : List Byte) (ofs : ℕ) : Word := BitVec.ofNat 32 (ofBytes ((bs.drop ofs).take 4))

def halfAt (bs : List Byte) (ofs : ℕ) : Half := BitVec.ofNat 16 (ofBytes ((bs.drop ofs).take 2))

/-- The members that `load` reads. -/
structure Elf32Ehdr where
  eIdent : List Byte
  eType : Half
  eMachine : Half
  eVersion : Word
  eEntry : Word
  ePhoff : Word
  ePhentsize : Half
  ePhnum : Half

def EHDR_SIZE : ℕ := 52

def Elf32Ehdr.ofBytes (bs : List Byte) : Elf32Ehdr where
  eIdent := bs.take 16
  eType := halfAt bs 16
  eMachine := halfAt bs 18
  eVersion := wordAt bs 20
  eEntry := wordAt bs 24
  ePhoff := wordAt bs 28
  ePhentsize := halfAt bs 42
  ePhnum := halfAt bs 44

/-- The members that `load` and `validate_segment` read. -/
structure Elf32Phdr where
  pType : Word
  pOffset : Word
  pVaddr : Word
  pFilesz : Word
  pMemsz : Word
  pFlags : Word

def PHDR_SIZE : ℕ := 32

def Elf32Phdr.ofBytes (bs : List Byte) : Elf32Phdr where
  pType := wordAt bs 0
  pOffset := wordAt bs 4
  pVaddr := wordAt bs 8
  pFilesz := wordAt bs 16
  pMemsz := wordAt bs 20
  pFlags := wordAt bs 24

def PT_LOAD : Word := 1

def PT_DYNAMIC : Word := 2

def PT_INTERP : Word := 3

def PT_SHLIB : Word := 5

def PF_W : Word := 2

/-- `"\177ELF\1\1\1"` -/
def ELF_MAGIC : List Byte := [0x7f, 0x45, 0x4c, 0x46, 1, 1, 1]

def Elf32Ehdr.valid (ehdr : Elf32Ehdr) : Bool :=
  ehdr.eIdent.take 7 == ELF_MAGIC && ehdr.eType == 2 && ehdr.eMachine == 3 &&
    ehdr.eVersion == 1 && ehdr.ePhentsize == BitVec.ofNat 16 PHDR_SIZE &&
    decide (ehdr.ePhnum.toNat ≤ 1024)

def validateSegment (phdr : Elf32Phdr) (fileLength : Word) : Bool :=
  -- p_offset and p_vaddr must have the same page offset, and p_offset must point within the file
  decide (phdr.pOffset &&& PGMASK = phdr.pVaddr &&& PGMASK) &&
    decide (phdr.pOffset ≤ fileLength) &&
    -- p_memsz must be at least as big as p_filesz, and not 0
    decide (phdr.pFilesz ≤ phdr.pMemsz) && decide (phdr.pMemsz ≠ 0) &&
    -- the region must lie in user space, must not wrap around and must not contain page 0
    isUserVaddr phdr.pVaddr && isUserVaddr (phdr.pVaddr + phdr.pMemsz) &&
    decide (phdr.pVaddr ≤ phdr.pVaddr + phdr.pMemsz) &&
    decide (BitVec.ofNat 32 PGSIZE ≤ phdr.pVaddr)

/-- `ROUND_UP (x, PGSIZE)` of `lib/round.h` -/
def roundUp (x : Word) : Word :=
  (x + BitVec.ofNat 32 (PGSIZE - 1)) / BitVec.ofNat 32 PGSIZE * BitVec.ofNat 32 PGSIZE

/-! ## `load` -/

section Code

variable {S : Services} {H : HashTable Ptr}

/-- The `PT_LOAD` case of the `switch`; `false` stands for `goto done`. -/
def loadPhdr (hashInt : Word → ℕ) (file : FilePtr) (phdr : Elf32Phdr) (m : Machine S H) :
    Except Fault (Machine S H × Bool) :=
  if validateSegment phdr (S.fileLength file) then
    let writable := decide (phdr.pFlags &&& PF_W ≠ 0)
    let filePage := phdr.pOffset &&& ~~~PGMASK
    let memPage := phdr.pVaddr &&& ~~~PGMASK
    let pageOffset := phdr.pVaddr &&& PGMASK
    let readBytes := if phdr.pFilesz > 0 then pageOffset + phdr.pFilesz else 0
    let zeroBytes := roundUp (pageOffset + phdr.pMemsz) - readBytes
    loadSegment hashInt file filePage memPage readBytes.toNat zeroBytes.toNat writable m
  else .ok (m, false)

/-- The loop over the program headers; its first argument is the number of headers left, and
`false` stands for `goto done`. -/
def loadPhdrs (hashInt : Word → ℕ) (file : FilePtr) :
    ℕ → Word → Machine S H → Except Fault (Machine S H × Bool)
  | 0, _, m => .ok (m, true)
  | n + 1, fileOfs, m =>
      if fileOfs.slt 0 || (S.fileLength file).slt fileOfs then .ok (m, false)
      else
        let read := (m.space.fileSeek file fileOfs).fileReadLocal file PHDR_SIZE
        let m := { m with space := read.1 }
        if read.2.length ≠ PHDR_SIZE then .ok (m, false)
        else
          let phdr := Elf32Phdr.ofBytes read.2
          if phdr.pType = PT_DYNAMIC ∨ phdr.pType = PT_INTERP ∨ phdr.pType = PT_SHLIB then
            .ok (m, false)
          else
            (if phdr.pType = PT_LOAD then loadPhdr hashInt file phdr m else .ok (m, true)).bind
              fun r => if r.2 then loadPhdrs hashInt file n (fileOfs + BitVec.ofNat 32 PHDR_SIZE) r.1
                else .ok (r.1, false)

/-- From the header to the start address; `none` stands for `goto done`, otherwise `*eip` and `*esp`
are returned. -/
def loadImage (hashInt : Word → ℕ) (file : FilePtr) (m : Machine S H) :
    Except Fault (Machine S H × Option (Word × Word)) :=
  let read := m.space.fileReadLocal file EHDR_SIZE
  let ehdr := Elf32Ehdr.ofBytes read.2
  let m := { m with space := read.1 }
  if read.2.length ≠ EHDR_SIZE ∨ ehdr.valid = false then .ok (m, none)
  else
    (loadPhdrs hashInt file ehdr.ePhnum.toNat ehdr.ePhoff m).bind fun r =>
      if r.2 then
        (setupStack hashInt r.1).map fun s => (s.1, s.2.map fun esp => (ehdr.eEntry, esp))
      else .ok (r.1, none)

def load (hashInt : Word → ℕ) (fileName : List Byte) (m : Machine S H) :
    Except Fault (Machine S H × Option (Word × Word)) :=
  if S.pagedirCreate = false then .ok ({ m with space := m.space.fileClose none }, none)
  else
    let opened := ({ m.space with pagedir := fun _ => none } : Space S).filesysOpen fileName
    match opened.2 with
    | none => .ok ({ m with space := opened.1.fileClose none }, none)
    | some file =>
        -- done: we arrive here whether the load is successful or not
        (loadImage hashInt file { m with space := opened.1 }).map fun r =>
          ({ r.1 with space := r.1.space.fileClose (some file) }, r.2)

end Code

end Project4
end Pintos
