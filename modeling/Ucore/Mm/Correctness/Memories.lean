import Ucore.Lib.Cells
import Ucore.Lib.Run
import Ucore.Mm.Cow
import Ucore.Mm.Correctness.CowFork

/-!
# `Mm.Correctness.Memories` — processes that read and write their memory, and fork

`Memories.Step` is the memory as a process is meant to see it: every process has one of its own, and a fork copies it.
`MemStep` is the memory as it is, with page tables and shared pages; the way to fork and to serve page faults is left
open, as it differs between `lab8` and `lab5_challenge`. The labels of both say what a process gets to see.
-/

namespace Ucore

/-- What a page holds. -/
abbrev PageBytes := Fin pgsize → UInt8

/-- `PGOFF(addr)` -/
def pgoff (addr : Nat) : Fin pgsize := ⟨addr % pgsize, Nat.mod_lt addr (by decide)⟩

def pageBytes (x : Bytes) : PageBytes := fun i => x i

/-- What the processes, and the kernel for them, do with the memory. The content of a new page, the byte that is read and the
codes of the kernel are what comes of it. -/
inductive MemEvent where
  | create
  | map (m : Nat)
  | alloc (m addr : Nat) (page : Option PageBytes)
  | fork (dst src : Nat) (done : Bool)
  | fault (m addr : Nat) (code : Int)
  | load (m addr : Nat) (byte : UInt8)
  | store (m addr : Nat) (byte : UInt8)
  | exit (m : Nat)

/-! ## As it is meant -/

/-- The pages of each process. -/
abbrev Memories := Nat → Nat → Option PageBytes

def Memories.set (mem : Memories) (m n : Nat) (page : Option PageBytes) : Memories :=
  Function.update mem m (Function.update (mem m) n page)

/-- **Every process has a memory of its own.** -/
inductive Memories.Step : Memories → MemEvent → Memories → Prop where
  | create {mem : Memories} : Step mem .create mem
  | map {mem : Memories} {m : Nat} : Step mem (.map m) mem
  | alloc {mem : Memories} {m addr : Nat} {page : PageBytes} (h : mem m (addr / pgsize) = none) :
      Step mem (.alloc m addr (some page)) (mem.set m (addr / pgsize) (some page))
  | noAlloc {mem : Memories} {m addr : Nat} : Step mem (.alloc m addr none) mem
  -- the pages of `src` are copied
  | fork {mem : Memories} {dst src : Nat} :
      Step mem (.fork dst src true) (Function.update mem dst fun n => (mem src n).or (mem dst n))
  -- some of them are
  | noFork {mem : Memories} {dst src : Nat} {child : Nat → Option PageBytes}
      (h : ∀ n, child n = mem dst n ∨ child n = (mem src n).or (mem dst n)) :
      Step mem (.fork dst src false) (Function.update mem dst child)
  -- a page that is there is not touched, and one that is missing may come with anything in it
  | fault {mem : Memories} {m addr : Nat} {code : Int} (h : code = 0 → mem m (addr / pgsize) ≠ none) :
      Step mem (.fault m addr code) mem
  | bring {mem : Memories} {m addr : Nat} {page : PageBytes} (h : mem m (addr / pgsize) = none) :
      Step mem (.fault m addr 0) (mem.set m (addr / pgsize) (some page))
  | load {mem : Memories} {m addr : Nat} {page : PageBytes} (h : mem m (addr / pgsize) = some page) :
      Step mem (.load m addr (page (pgoff addr))) mem
  | store {mem : Memories} {m addr : Nat} {page : PageBytes} {byte : UInt8} (h : mem m (addr / pgsize) = some page) :
      Step mem (.store m addr byte) (mem.set m (addr / pgsize) (some (Function.update page (pgoff addr) byte)))
  | exit {mem : Memories} {m : Nat} : Step mem (.exit m) (Function.update mem m fun _ => none)

/-! ## As it is -/

/-- The processor lets a process read there. -/
def Vm.MayLoad (s : Vm) (m addr : Nat) : Prop :=
  addr < userTop ∧ (s.pte m (addr / pgsize)).v = true ∧ (s.pte m (addr / pgsize)).perm.r = true ∧ (s.pte m (addr / pgsize)).perm.u = true

/-- The processor lets a process write there. -/
def Vm.MayStore (s : Vm) (m addr : Nat) : Prop :=
  addr < userTop ∧ (s.pte m (addr / pgsize)).v = true ∧ (s.pte m (addr / pgsize)).perm.w = true ∧ (s.pte m (addr / pgsize)).perm.u = true

instance (s : Vm) (m addr : Nat) : Decidable (s.MayLoad m addr) := inferInstanceAs (Decidable (_ ∧ _ ∧ _ ∧ _))

instance (s : Vm) (m addr : Nat) : Decidable (s.MayStore m addr) := inferInstanceAs (Decidable (_ ∧ _ ∧ _ ∧ _))

/-- The byte at a user address. -/
def Vm.byteAt (s : Vm) (m addr : Nat) : UInt8 := s.mem.data (s.pte m (addr / pgsize)).ppn (addr % pgsize)

def Vm.storeByte (s : Vm) (m addr : Nat) (byte : UInt8) : Vm :=
  s.setMem (s.mem.setData (s.pte m (addr / pgsize)).ppn
    (Function.update (s.mem.data (s.pte m (addr / pgsize)).ppn) (addr % pgsize) byte))

/-- **The steps of a kernel** that forks with `fork`, and serves page faults with `pgfault` if it serves them at all. The loader
gets a page of an area and writes `x` into it. A process ends with `exit_mmap` and `put_pgdir`. -/
inductive MemStep (fork : Nat → Nat → VmM Unit) (pgfault : Option (Nat → Nat → Nat → VmM Int)) :
    VmState → MemEvent → VmState → Prop where
  | create {s s' : Vm} {M : Finset Nat} {boot : Nat → Pte} {m : Nat} (hboot : ∀ i < 2, (boot i).v = false)
      (h : mmNew boot s = .ok m s') : MemStep fork pgfault (s, M) .create (s', insert m M)
  | noCreate {s s' : Vm} {M : Finset Nat} {boot : Nat → Pte} {e : Int} (hboot : ∀ i < 2, (boot i).v = false)
      (h : mmNew boot s = .err e s') : MemStep fork pgfault (s, M) .create (s', M)
  | map {s s' : Vm} {M : Finset Nat} {m addr len : Nat} {flags : VmFlags} (hm : m ∈ M)
      (h : (mmMap m addr len flags s).EndsIn s') : MemStep fork pgfault (s, M) (.map m) (s', M)
  | alloc {s s' : Vm} {M : Finset Nat} {m addr p : Nat} {perm : Perm} {v : Vma} (x : Bytes) (hm : m ∈ M)
      (hv : v ∈ (s.mm m).mmapList) (hin : v.Contains addr) (hnew : (s.pte m (addr / pgsize)).v = false)
      (h : inMem (pgdirAllocPage (s.mm m).pgdir addr perm) s = .ok (some p) s') :
      MemStep fork pgfault (s, M) (.alloc m addr (some (pageBytes x))) (s'.setMem (s'.mem.setData p x), M)
  | noAlloc {s s' : Vm} {M : Finset Nat} {m addr : Nat} {perm : Perm} {v : Vma} (hm : m ∈ M) (hv : v ∈ (s.mm m).mmapList)
      (hin : v.Contains addr) (hnew : (s.pte m (addr / pgsize)).v = false)
      (h : inMem (pgdirAllocPage (s.mm m).pgdir addr perm) s = .ok none s') :
      MemStep fork pgfault (s, M) (.alloc m addr none) (s', M)
  | fork {s s' : Vm} {M : Finset Nat} {dst src : Nat} (hdst : dst ∈ M) (hsrc : src ∈ M) (hne : dst ≠ src)
      (h : fork dst src s = .ok () s') : MemStep fork pgfault (s, M) (.fork dst src true) (s', M)
  | noFork {s s' : Vm} {M : Finset Nat} {dst src : Nat} {e : Int} (hdst : dst ∈ M) (hsrc : src ∈ M) (hne : dst ≠ src)
      (h : fork dst src s = .err e s') : MemStep fork pgfault (s, M) (.fork dst src false) (s', M)
  | fault {s s' : Vm} {M : Finset Nat} {m errorCode addr : Nat} {code : Int} {serve : Nat → Nat → Nat → VmM Int} (hm : m ∈ M)
      (hserve : pgfault = some serve) (h : serve m errorCode addr s = .ok code s') :
      MemStep fork pgfault (s, M) (.fault m addr code) (s', M)
  | load {s : Vm} {M : Finset Nat} {m addr : Nat} (hm : m ∈ M) (h : s.MayLoad m addr) :
      MemStep fork pgfault (s, M) (.load m addr (s.byteAt m addr)) (s, M)
  | store {s : Vm} {M : Finset Nat} {m addr : Nat} {byte : UInt8} (hm : m ∈ M) (h : s.MayStore m addr) :
      MemStep fork pgfault (s, M) (.store m addr byte) (s.storeByte m addr byte, M)
  | exit {s s' : Vm} {M : Finset Nat} {m : Nat} (hm : m ∈ M)
      (h : (exitMmap m >>= fun _ => putPgdir m : VmM Unit) s = .ok () s') : MemStep fork pgfault (s, M) (.exit m) (s', M.erase m)

/-- `lab5_challenge`: a fork shares the pages, and a page fault makes the copy. -/
abbrev CowStep : VmState → MemEvent → VmState → Prop := MemStep Cow.dupMmap (some Cow.doPgfault)

/-- `lab8`: a fork copies the pages, and page faults are not served. -/
abbrev EagerStep : VmState → MemEvent → VmState → Prop := MemStep dupMmap none

/-! ## What the processes see -/

/-- What a page of a directory holds, if it is mapped. -/
def PageMem.pageAt (s : PageMem) (d n : Nat) : Option PageBytes := (s.maps d n).map fun p => pageBytes (s.data p)

/-- **The memories that the processes see.** -/
def seen (a : VmState) : Memories := fun m n => if m ∈ a.2 ∧ n < userPages then a.1.mem.pageAt (a.1.mm m).pgdir n else none

end Ucore
