import Pintos.Lib.Simulation
import Pintos.Userprog.FlatMemory
import Pintos.Project4.PageFault
import Pintos.Project4.StartProcess

/-!
# UserMemory — processes under demand paging see a flat memory of their own

Processes are started, touch their memory and exit in any order, and share the frames, the heap and
the files.  A page is brought in when it is first touched, and `find_vme` may look at any entry:
still a read that is not ended by `exit` returns what the process has written there itself, or the
byte of its executable, or of its arguments.

`load` is one action here, `Services` reads the executable as if it were still open, and no file is
written.  `vm_destroy_func`, which is not part of the repository, is the parameter `vmDestroyFunc`.
-/

namespace Pintos
namespace Project4

open Lib Userprog Function

/-! ## The code -/

/-- The memory that an executable describes: on every page the first segment there, and zeros on the
page of the stack. -/
def Flat.ofFile (S : Services) (file : FilePtr) : Flat where
  writable u :=
    if u = stackPage then some true
    else ((fileEntries S file).find? fun e => e.vaddr = u).map VmEntry.writable
  byte u i :=
    if u = stackPage then 0
    else
      match (fileEntries S file).find? fun e => e.vaddr = u with
      | none => 0
      | some e => S.pageByte file e.page i

/-- The memory that a command line describes: that of the executable, with the arguments on the
stack. -/
def Flat.ofCommand (S : Services) (file : FilePtr) (fileName : CString) : Flat where
  writable := (Flat.ofFile S file).writable
  byte := update (Flat.ofFile S file).byte stackPage fun i =>
    (initialStack fileName).mem (stackPage + BitVec.ofNat 32 i)

/-- What the callbacks find below the probe in the next call of `find_vme`. -/
def Memory.withStray (m : Memory) (w : Word) : Memory :=
  { m with around := fun o i => if o = .probe ∧ i = -32 then w else m.around o i }

namespace UserMemory

section Code

variable {S : Services} {H : HashTable Ptr}

/-- The pages below `PHYS_BASE`. -/
def userPages : List Word :=
  (List.range (PHYS_BASE.toNat / PGSIZE)).map fun i => BitVec.ofNat 32 (i * PGSIZE)

/-- `pagedir_destroy` frees the page directory with all the pages that it references. -/
def pagedirDestroy (m : Space S) : Space S :=
  { m with
    used := m.used.filter fun k => userPages.all fun u => (m.pagedir u).map Prod.fst ≠ some k
    pagedir := fun _ => none }

/-- The machine, with the page directory and the `vm` of every process in place of those of the
running process. -/
structure System (S : Services) (H : HashTable Ptr) where
  core : Machine S H
  pagedir : Pid → Word → Option (FramePtr × Bool)
  vm : Pid → H.Table
  alive : Pid → Bool

namespace System

def start (H : HashTable Ptr) (files : S.Files) (mem : Memory) : System S H :=
  ⟨.start (.start files) mem, fun _ _ => none, fun _ => vmInit H, fun _ => false⟩

/-- The machine while `p` is running. -/
def view (σ : System S H) (p : Pid) : Machine S H :=
  { σ.core with space := { σ.core.space with pagedir := σ.pagedir p }, vm := σ.vm p }

def put (σ : System S H) (p : Pid) (m : Machine S H) : System S H :=
  { core := m, pagedir := update σ.pagedir p m.space.pagedir, vm := update σ.vm p m.vm,
    alive := σ.alive }

end System

/-- `exec` is `start_process` of a new process, with the first contents of `cmd_name` and the answer
of `malloc`; the word of an access is what `find_vme` would find below its probe. -/
inductive Act
  | exec (p : Pid) (fileName : CString) (bytes : ℕ → Byte) (block : Bool)
  | access (p : Pid) (acc : AccessKind) (a : Word) (stray : Word)
  | exit (p : Pid)

section Step

variable (hashInt : Word → ℕ) (vmDestroyFunc : H.Table → Finset VmePtr) (kernelPresent : Word → Bool)

/-- `vm_destroy` and `pagedir_destroy`. -/
def processExit (p : Pid) (σ : System S H) : System S H :=
  let m := σ.view p
  { core := { m with space := pagedirDestroy m.space, heap := m.heap \ vmDestroyFunc m.vm }
    pagedir := update σ.pagedir p fun _ => none
    vm := σ.vm
    alive := update σ.alive p false }

/-- The access goes through to the frame. -/
def store (k : FramePtr) (i : ℕ) (b : Byte) (σ : System S H) : System S H :=
  { σ with core := { σ.core with space := { σ.core.space with
      bytes := update σ.core.space.bytes k (update (σ.core.space.bytes k) i b) } } }

/-- The access is repeated, the process has exited, or the kernel has followed a null pointer, from
where the model does not go on. -/
def afterFault (p : Pid) (r : Machine S H × FaultEnd) (σ : System S H) :
    Option (System S H × Option MemEvent) :=
  match r.2 with
  | .resumed => some (σ.put p r.1, none)
  | .exited _ => some (processExit vmDestroyFunc p (σ.put p r.1), some (.stop p))
  | .nullDereference | .wildDereference => none

def fault (p : Pid) (a : Word) (present : Bool) (stray : Word) (σ : System S H) :
    Option (System S H × Option MemEvent) :=
  let m := σ.view p
  afterFault vmDestroyFunc p
    (pageFault hashInt a (if present then PF_P else 0) { m with mem := m.mem.withStray stray }) σ

def access (p : Pid) (acc : AccessKind) (a : Word) (stray : Word) (σ : System S H) :
    Option (System S H × Option MemEvent) :=
  if isUserVaddr a then
    match σ.pagedir p (pgRoundDown a) with
    | none => fault hashInt vmDestroyFunc p a false stray σ
    | some (k, writable) =>
        match acc with
        | .read => some (σ, some (.read p a (σ.core.space.bytes k (pgOfs a).toNat)))
        | .write b =>
            if writable then some (store k (pgOfs a).toNat b σ, some (.write p a b))
            else fault hashInt vmDestroyFunc p a true stray σ
  else fault hashInt vmDestroyFunc p a (kernelPresent a) stray σ

/-- If `load` has failed, `start_process` calls `exit`. -/
def afterStart (p : Pid) (opened : Option FilePtr) (fileName : CString)
    (r : Option (Machine S H × Option (Word × Word))) (σ : System S H) :
    Option (System S H × Option MemEvent) :=
  match r with
  | none => none
  | some (m, none) => some (processExit vmDestroyFunc p (σ.put p m), none)
  | some (m, some _) =>
      some ({ σ.put p m with alive := update σ.alive p true },
        opened.map fun file => .start p (Flat.ofCommand S file fileName))

/-- One action, with what is seen of it. -/
def run (a : Act) (σ : System S H) : Option (System S H × Option MemEvent) :=
  match a with
  | .exec p fileName bytes block =>
      if σ.alive p then none
      else
        afterStart vmDestroyFunc p (S.filesysOpen σ.core.space.files fileName.command).2 fileName
          (startProcess hashInt bytes block fileName (σ.view p)) σ
  | .access p acc a stray =>
      if σ.alive p then access hashInt vmDestroyFunc kernelPresent p acc a stray σ else none
  | .exit p =>
      if σ.alive p then some (processExit vmDestroyFunc p σ, some (.stop p)) else none

def step (a : Act) (σ : System S H) : Option (System S H) :=
  (run hashInt vmDestroyFunc kernelPresent a σ).map Prod.fst

def visible (σ : System S H) (a : Act) : Option MemEvent :=
  (run hashInt vmDestroyFunc kernelPresent a σ).bind Prod.snd

end Step

end Code

end UserMemory

end Project4
end Pintos
