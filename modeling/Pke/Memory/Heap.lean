import Pke.Memory.Pages

namespace Pke.Memory

open Lib Flow Function Processes

def userRw : Pte := protToType true true false true

def bumpHeapRegion (p : Pid) : Flow Vm Unit :=
  modify fun s => s.setSpace p fun a =>
    { a with regions := update a.regions 3 { a.regions 3 with npages := (a.regions 3).npages + 1 } }

def sysUserAllocatePage (p : Pid) : Flow Vm ℕ := do
  let pa ← allocPage
  let h := ((← get).space p).userHeap
  let va ← if 0 < h.freePagesCount then do
      let va := h.freePagesAddress (h.freePagesCount - 1)
      modify fun s => s.setHeap p fun h => { h with freePagesCount := h.freePagesCount - 1 }
      if va < h.heapTop then pure va else halt
    else do
      modify fun s => s.setHeap p fun h => { h with heapTop := h.heapTop + 4096 }
      bumpHeapRegion p
      pure h.heapTop
  userVmMap p va 4096 (pa.getD 0) userRw
  pure va

/-- The array of free pages has `MAX_HEAP_PAGES` elements; no check keeps the store inside. -/
def sysUserFreePage (p : Pid) (va : ℕ) : Flow Vm ℕ := do
  userVmUnmap p va 4096 true
  if ((← get).space p).userHeap.freePagesCount < maxHeapPages then
    modify fun s => s.setHeap p fun h => { h with
      freePagesAddress := update h.freePagesAddress h.freePagesCount va
      freePagesCount := h.freePagesCount + 1 }
  else undef
  pure 0

def setFreeList (p : Pid) (f : List Malloc → List Malloc) : Flow Vm Unit :=
  modify fun s => s.setSpace p fun a => { a with mallocFreeList := f a.mallocFreeList }

def setMallocList (p : Pid) (f : List Malloc → List Malloc) : Flow Vm Unit :=
  modify fun s => s.setSpace p fun a => { a with mallocList := f a.mallocList }

def setHeapTop (p : Pid) (top : ℕ) : Flow Vm Unit :=
  modify fun s => s.setHeap p fun h => { h with heapTop := top }

def mapFresh (p : Pid) (a : ℕ) : Flow Vm Bool := do
  match ← allocPage with
  | none => pure false
  | some pa => do
    userVmMap p a 4096 pa userRw
    pure true

def ensureMapped (p : Pid) (va size : ℕ) : Flow Vm Bool :=
  all (fun a => do
    if lookupPa (← get) p a = 0 then mapFresh p a else pure true)
    (pagesBelow (roundDown va) (u64 (va + size)))

/-- The remainder of a split block takes over the first node of the free list, if there is one. -/
def keepRemainder (p : Pid) (va size : ℕ) : Flow Vm Bool := do
  match ((← get).space p).mallocFreeList with
  | rem :: rest => do
    setFreeList p fun _ => ⟨rem.node, va, size⟩ :: rest
    pure true
  | [] =>
    match ← allocPage with
    | none => pure false
    | some node => do
      setFreeList p fun _ => [⟨node, va, size⟩]
      pure true

def reuseBlock (p : Pid) (before : List Malloc) (reuse : Malloc) (after : List Malloc) (size : ℕ) :
    Flow Vm ℕ := do
  setFreeList p fun _ => before ++ after
  if ← ensureMapped p reuse.va size then
    if ← (if size < reuse.size then keepRemainder p (u64 (reuse.va + size)) (reuse.size - size)
        else pure true) then do
      setMallocList p fun l => ⟨reuse.node, reuse.va, size⟩ :: l
      pure reuse.va
    else do
      setFreeList p fun l => reuse :: l
      pure 0
  else do
    setFreeList p fun l => reuse :: l
    pure 0

def takeNode (p : Pid) : Flow Vm (Option (Malloc × Bool)) := do
  match ((← get).space p).mallocFreeList with
  | node :: rest => do
    setFreeList p fun _ => rest
    pure (some (node, true))
  | [] =>
    match ← allocPage with
    | none => pure none
    | some node => pure (some (⟨node, 0, 0⟩, false))

def returnNode (p : Pid) (node : Malloc) (fromFreeList : Bool) : Flow Vm Unit :=
  if fromFreeList then setFreeList p fun l => node :: l else freePage node.node

/-- Map `n` fresh pages from `mapVa` on; when pages run out, unmap what this call has mapped. -/
def mapNewPages (p : Pid) (pageStart : ℕ) (firstMapped : Bool) (n : ℕ) : Flow Vm Bool :=
  all (fun i => do
    if ← mapFresh p (u64 (pageStart + 4096 + i * 4096)) then pure true
    else do
      if firstMapped then userVmUnmap p pageStart 4096 true else pure ()
      each (fun j => userVmUnmap p (u64 (pageStart + 4096 + j * 4096)) 4096 true) (List.range i)
      pure false) (List.range n)

def freshBlock (p : Pid) (size : ℕ) : Flow Vm ℕ := do
  let va := ((← get).space p).userHeap.heapTop
  let pageStart := roundDown va
  match ← takeNode p with
  | none => pure 0
  | some (node, fromFreeList) => do
    let mapped := lookupPa (← get) p pageStart ≠ 0
    if ← (if mapped then pure true else mapFresh p pageStart) then
      let remaining := pageStart + 4096 - va
      if ← (if size ≤ remaining then pure true
          else mapNewPages p pageStart (!mapped) (u64 (size - remaining + 4095) / 4096)) then do
        setHeapTop p (u64 (va + size))
        setMallocList p fun l => ⟨node.node, va, size⟩ :: l
        pure va
      else do
        returnNode p node fromFreeList
        pure 0
    else do
      returnNode p node fromFreeList
      pure 0

def userBetterMalloc (p : Pid) (size : ℕ) : Flow Vm ℕ := do
  if size = 0 then pure 0
  else
    let l := ((← get).space p).mallocFreeList
    match l.span (fun m => m.size < size) with
    | (before, reuse :: after) => reuseBlock p before reuse after size
    | (_, []) => freshBlock p size

def pageHasOtherAllocation (s : Vm) (p : Pid) (page : ℕ) : Bool :=
  (s.space p).mallocList.any fun m => page < u64 (m.va + m.size) && m.va < u64 (page + 4096)

def userBetterFree (p : Pid) (va : ℕ) : Flow Vm Unit := do
  let l := ((← get).space p).mallocList
  match l.span (fun m => m.va ≠ va) with
  | (_, []) => pure ()
  | (before, cur :: after) => do
    setMallocList p fun _ => before ++ after
    setFreeList p fun l => cur :: l
    each (fun a => do
      if pageHasOtherAllocation (← get) p a then pure ()
      else userVmUnmap p a 4096 true) (pagesBelow (roundDown va) (u64 (va + cur.size)))

end Pke.Memory
