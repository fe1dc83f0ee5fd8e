import Pke.Memory.Heap

/-! Address spaces come and go: `alloc_process`, the ELF loader, `do_fork`, and the handler of
store page faults. -/

namespace Pke.Memory

open Lib Flow Function Processes

def deref (pa : ℕ) : Flow Vm Unit := if pa = 0 then halt else pure ()

def allocOrNull : Flow Vm ℕ := do
  let pa ← allocPage
  pure (pa.getD 0)

def setRegion (p : Pid) (i : ℕ) (r : Region) : Flow Vm Unit :=
  modify fun s => s.setSpace p fun a => { a with regions := update a.regions i r }

def kernelRw : Pte := protToType true true false false
def kernelRx : Pte := protToType true false true false
def userRx : Pte := protToType true false true true
def userRwx : Pte := protToType true true true true

def allocTrapframe (c : Pid) : Flow Vm Unit := do
  let pa ← allocOrNull
  modify fun s => s.setSpace c fun a => { a with trapframe := pa, frame := {} }
  deref pa

def allocPagetable (c : Pid) : Flow Vm Unit := do
  let pa ← allocOrNull
  modify fun s => s.setSpace c fun a => { a with pagetable := { dir := pa } }
  deref pa

def allocKstack (c : Pid) : Flow Vm Unit := do
  let pa ← allocOrNull
  modify fun s => s.setSpace c fun a => { a with kstack := pa + 4096 }

def allocMappedInfo (c : Pid) : Flow Vm Unit := do
  let pa ← allocOrNull
  modify fun s => s.setSpace c fun a => { a with mappedInfo := pa, regions := fun _ => {} }
  deref pa

def initProcFileManagement (c : Pid) : Flow Vm Unit := do
  let pa ← allocOrNull
  modify fun s => s.setSpace c fun a => { a with pfiles := pa }
  deref pa

/-- The part of `alloc_process` that follows the search for a slot. -/
def allocProcess (c : Pid) : Flow Vm Unit := do
  allocTrapframe c
  allocPagetable c
  allocKstack c
  let userStack ← allocOrNull
  modify fun s => s.setSpace c fun a => { a with frame := a.frame.set .sp (.ofNat userStackTop) }
  allocMappedInfo c
  userVmMap c (userStackTop - 4096) 4096 userStack userRw
  setRegion c 0 ⟨userStackTop - 4096, 1, .stack⟩
  let tf := ((← get).space c).trapframe
  userVmMap c tf 4096 tf kernelRw
  setRegion c 1 ⟨tf, 1, .context⟩
  let trapSec := (← get).trapSecStart
  userVmMap c trapSec 4096 trapSec kernelRx
  setRegion c 2 ⟨trapSec, 1, .system⟩
  modify fun s => s.setHeap c fun h => { h with
    heapTop := userFreeAddressStart, heapBottom := userFreeAddressStart, freePagesCount := 0 }
  setRegion c 3 ⟨userFreeAddressStart, 0, .heap⟩
  modify fun s => s.setSpace c fun a => { a with totalMappedRegion := 4 }
  initProcFileManagement c

/-- A loadable program header, with the bytes of the file from its offset on. -/
structure ProgHeader where
  vaddr : ℕ
  memsz : ℕ
  filesz : ℕ
  readable : Bool
  writable : Bool
  executable : Bool
  bytes : ℕ → UInt8

def ProgHeader.segType (ph : ProgHeader) : Option Segment :=
  if ph.readable && ph.executable && !ph.writable then some .code
  else if ph.readable && ph.writable && !ph.executable then some .data
  else none

def elfAllocMb (c : Pid) (va size : ℕ) : Flow Vm ℕ := do
  if 4096 ≤ size then halt
  else
    match ← allocPage with
    | none => leave
    | some pa => do
      memsetPage pa 0
      userVmMap c va 4096 pa userRwx
      pure pa

def elfLoadSegment (c : Pid) (ph : ProgHeader) : Flow Vm Unit := do
  if ph.memsz < ph.filesz ∨ u64 (ph.vaddr + ph.memsz) < ph.vaddr then leave
  else do
    let dest ← elfAllocMb c ph.vaddr ph.memsz
    modify fun s => { s with mem := fun a =>
      if dest ≤ a ∧ a < dest + ph.memsz then ph.bytes (a - dest) else s.mem a }
    let regions := ((← get).space c).regions
    match (List.range maxRegions).find? (fun j => (regions j).va = 0) with
    | none => undef
    | some j =>
      match ph.segType with
      | none => leave
      | some seg => do
        setRegion c j ⟨ph.vaddr, 1, seg⟩
        modify fun s => s.setSpace c fun a => { a with totalMappedRegion := a.totalMappedRegion + 1 }

def loadUserProgram (c : Pid) (image : List ProgHeader) (entry : UInt64) : Flow Vm Unit := do
  allocProcess c
  each (elfLoadSegment c) image
  modify fun s => s.setSpace c fun a => { a with
    frame := { a.frame with epc := entry }, size := 20 * 4096 }

/-- The element of `free_block_filter` that a recorded free page marks, if it lies in the array. -/
def filterIndex (h : HeapManager) (i : ℕ) : Option ℕ :=
  let k := toInt (u64 (h.freePagesAddress i + (2 ^ 64 - h.heapBottom)) / 4096 : ℕ)
  if 0 ≤ k ∧ k < maxHeapPages then some k.toNat else none

/-- The first eight elements have been cleared; the others, and what lies behind the array, hold
whatever the stack held. -/
def filtered (h : HeapManager) (garbage : ℕ → Bool) (k : ℕ) : Bool :=
  (decide (k < maxHeapPages) && (List.range h.freePagesCount).any (fun i => filterIndex h i == some k)) ||
    (decide (8 ≤ k) && garbage k)

def shareBlock (p c : Pid) (garbage : ℕ → Bool) (block : ℕ) : Flow Vm Unit := do
  let s ← get
  let h := (s.space p).userHeap
  if filtered h garbage ((block - h.heapBottom) / 4096) then pure ()
  else
    let pa := lookupPa s p block
    if pa = 0 then pure ()
    else do
      userVmMapCow c block 4096 pa
      userVmSetCow p block
      incPageRef pa

def forkHeap (p c : Pid) (garbage : ℕ → Bool) : Flow Vm Unit := do
  let h := ((← get).space p).userHeap
  if (List.range h.freePagesCount).all (fun i => (filterIndex h i).isSome) then do
    each (shareBlock p c garbage) (pagesBelow h.heapBottom h.heapTop)
    modify fun s => s.setSpace c fun a => { a with
      regions := update a.regions 3 { a.regions 3 with npages := ((s.space p).regions 3).npages }
      userHeap := (s.space p).userHeap }
  else undef

def copyDataPage (p c : Pid) (va : ℕ) : Flow Vm Unit := do
  let src := lookupPa (← get) p va
  let pa ← allocOrNull
  memcpyPage pa src
  userVmMap c va 4096 pa userRw

def registerRegion (c : Pid) (r : Region) : Flow Vm Unit := do
  let n := ((← get).space c).totalMappedRegion
  setRegion c n r
  modify fun s => s.setSpace c fun a => { a with totalMappedRegion := n + 1 }

def forkRegion (p c : Pid) (garbage : ℕ → Bool) (i : ℕ) : Flow Vm Unit := do
  let s ← get
  let r := (s.space p).regions i
  match r.segType with
  | .context => modify fun s => s.setSpace c fun a => { a with frame := (s.space p).frame }
  | .stack => memcpyPage (lookupPa s c ((s.space c).regions 0).va) (lookupPa s p r.va)
  | .heap => forkHeap p c garbage
  | .system => pure ()
  | .code => do
    userVmMap c r.va (r.npages * 4096) (lookupPa s p r.va) userRx
    registerRegion c ⟨r.va, r.npages, .code⟩
  | .data => do
    each (fun i => copyDataPage p c (r.va + i * 4096)) (List.range r.npages)
    registerRegion c ⟨r.va, r.npages, .data⟩

/-- `do_fork` on the side of memory, for the slot `c` that `alloc_process` has found. -/
def doFork (p c : Pid) (garbage : ℕ → Bool) : Flow Vm Unit := do
  allocProcess c
  each (forkRegion p c garbage) (List.range ((← get).space p).totalMappedRegion)
  modify fun s => s.setSpace c fun a => { a with frame := a.frame.set .a0 0 }

def breakCow (p : Pid) (v : ℕ) (e : Pte) : Flow Vm Unit := do
  if 1 < (← get).pmm.getPageRef e.pa then do
    let pa ← allocOrNull
    memcpyPage pa e.pa
    setPte p v (Pte.leaf pa userRw)
    decPageRef e.pa
  else setPte p v { e with w := true, d := true, cow := false }

def growSpace (p : Pid) (page : ℕ) : Flow Vm Unit := do
  let pa ← allocOrNull
  userVmMap p page 4096 pa userRw

/-- The case `CAUSE_STORE_PAGE_FAULT` of `smode_trap_handler`. -/
def storePageFault (p : Pid) (faultVa : ℕ) : Flow Vm Unit := do
  let page := roundDown faultVa
  let walk ← pageWalk p page false
  let s ← get
  let e := match walk with
    | none => {}
    | some v => (s.space p).pagetable.pte v
  if e.v && e.cow then breakCow p (page / 4096) e
  else if userStackTop < faultVa then leave
  else if u64 (userStackTop + (2 ^ 64 - (s.space p).size)) < faultVa then growSpace p page
  else if (s.space p).userHeap.heapTop ≤ faultVa then leave
  else growSpace p page

end Pke.Memory
