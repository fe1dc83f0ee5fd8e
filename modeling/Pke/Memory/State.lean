import Pke.Processes.Scheduler

/-! The memory side of the kernel: the page allocator, the page tables and the part of
`struct process` that describes an address space. Pages are 4096 bytes. -/

namespace Pke.Memory

open Function Processes

/-- `MAXVA`, `USER_STACK_TOP` and `USER_FREE_ADDRESS_START`. -/
abbrev maxva : ℕ := 2 ^ 38
abbrev userStackTop : ℕ := 0x7ffff000
abbrev userFreeAddressStart : ℕ := 0x400000
abbrev maxHeapPages : ℕ := 32
abbrev maxRegions : ℕ := 256

def u64 (n : ℕ) : ℕ := n % 2 ^ 64
def roundDown (a : ℕ) : ℕ := a / 4096 * 4096

/-- The start addresses `a, a + 4096, ..` below `b` that a page loop visits. -/
def pagesBelow (a b : ℕ) : List ℕ := (List.range ((b - a + 4095) / 4096)).map (a + · * 4096)

structure Pmm where
  freeMemStartAddr : ℕ
  freeMemEndAddr : ℕ
  gFreeMemList : List ℕ
  pageRefCount : ℕ → ℕ

structure Pte where
  ppn : ℕ := 0
  v : Bool := false
  r : Bool := false
  w : Bool := false
  x : Bool := false
  u : Bool := false
  a : Bool := false
  d : Bool := false
  cow : Bool := false
  deriving DecidableEq

namespace Pte

def pa (e : Pte) : ℕ := e.ppn * 4096

def onlyValid (e : Pte) : Bool := e.v && !(e.r || e.w || e.x || e.u || e.a || e.d || e.cow)

def leaf (pa : ℕ) (perm : Pte) : Pte := { perm with ppn := pa / 4096, v := true }

end Pte

def protToType (read write exec user : Bool) : Pte :=
  { r := read || !(write || exec), w := write, x := exec, u := user, a := read || exec, d := write }

/-- A three-level tree: `mid` and `low` give the pages of the two inner levels, indexed by the
upper bits of the address, `pte` the entries of the last level, indexed by the page number. -/
structure PageTable where
  dir : ℕ := 0
  mid : ℕ → Option ℕ := fun _ => none
  low : ℕ → Option ℕ := fun _ => none
  pte : ℕ → Pte := fun _ => {}

inductive Segment where
  | stack | context | system | heap | code | data
  deriving DecidableEq

structure Region where
  va : ℕ := 0
  npages : ℕ := 0
  segType : Segment := .stack

structure HeapManager where
  heapTop : ℕ := 0
  heapBottom : ℕ := 0
  freePagesAddress : ℕ → ℕ := fun _ => 0
  freePagesCount : ℕ := 0

structure Malloc where
  node : ℕ
  va : ℕ
  size : ℕ

structure Space where
  kstack : ℕ := 0
  pagetable : PageTable := {}
  trapframe : ℕ := 0
  frame : Trapframe := {}
  size : ℕ := 0
  mallocList : List Malloc := []
  mallocFreeList : List Malloc := []
  mappedInfo : ℕ := 0
  regions : ℕ → Region := fun _ => {}
  totalMappedRegion : ℕ := 0
  userHeap : HeapManager := {}
  pfiles : ℕ := 0

/-- `trapSecStart` is the address of the trap vector page, fixed when the kernel is linked. -/
structure Vm where
  pmm : Pmm
  mem : ℕ → UInt8
  space : Pid → Space
  trapSecStart : ℕ

namespace Vm

def setSpace (s : Vm) (p : Pid) (f : Space → Space) : Vm :=
  { s with space := update s.space p (f (s.space p)) }

def setTable (s : Vm) (p : Pid) (f : PageTable → PageTable) : Vm :=
  s.setSpace p fun a => { a with pagetable := f a.pagetable }

def setHeap (s : Vm) (p : Pid) (f : HeapManager → HeapManager) : Vm :=
  s.setSpace p fun a => { a with userHeap := f a.userHeap }

@[simp] lemma setSpace_self (s : Vm) (p : Pid) (f : Space → Space) :
    (s.setSpace p f).space p = f (s.space p) := by simp [setSpace]

@[simp] lemma setSpace_of_ne (s : Vm) {p q : Pid} (h : q ≠ p) (f : Space → Space) :
    (s.setSpace p f).space q = s.space q := by simp [setSpace, h]

@[simp] lemma setSpace_pmm (s : Vm) (p : Pid) (f : Space → Space) : (s.setSpace p f).pmm = s.pmm := rfl
@[simp] lemma setSpace_mem (s : Vm) (p : Pid) (f : Space → Space) : (s.setSpace p f).mem = s.mem := rfl
@[simp] lemma setSpace_trapSecStart (s : Vm) (p : Pid) (f : Space → Space) :
    (s.setSpace p f).trapSecStart = s.trapSecStart := rfl

end Vm

end Pke.Memory
