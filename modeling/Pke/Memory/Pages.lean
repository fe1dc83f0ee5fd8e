import Pke.Memory.State

/-! `pmm.c` and `vmm.c`: physical pages with reference counts, and page tables. A page-table
function takes the process that owns the table. Ending in `leave` is `kill_current_process`. -/

namespace Pke.Memory

open Lib Flow Function Processes

namespace Pmm

def index (m : Pmm) (pa : ℕ) : ℕ := (pa - m.freeMemStartAddr) / 4096
def maxPages (m : Pmm) : ℕ := (m.freeMemEndAddr - m.freeMemStartAddr) / 4096
def Covers (m : Pmm) (pa : ℕ) : Prop := m.freeMemStartAddr ≤ pa ∧ pa < m.freeMemEndAddr

instance (m : Pmm) (pa : ℕ) : Decidable (m.Covers pa) := inferInstanceAs (Decidable (_ ∧ _))

def getPageRef (m : Pmm) (pa : ℕ) : ℕ :=
  if m.Covers pa ∧ m.index pa < m.maxPages then m.pageRefCount (m.index pa) else 0

def setRef (m : Pmm) (pa n : ℕ) : Pmm := { m with pageRefCount := update m.pageRefCount (m.index pa) n }

end Pmm

def linkNode (mem : ℕ → UInt8) (pa next : ℕ) : ℕ → UInt8 := fun a =>
  if pa ≤ a ∧ a < pa + 8 then UInt8.ofNat (next / 256 ^ (a - pa)) else mem a

def freePage (pa : ℕ) : Flow Vm Unit := do
  let m := (← get).pmm
  if pa % 4096 ≠ 0 ∨ ¬ m.Covers pa ∨ m.maxPages ≤ m.index pa then halt
  else do
    let count := m.pageRefCount (m.index pa) - 1
    modify fun s => { s with pmm := s.pmm.setRef pa count }
    if count = 0 then
      modify fun s => { s with
        pmm := { s.pmm with gFreeMemList := pa :: s.pmm.gFreeMemList }
        mem := linkNode s.mem pa (s.pmm.gFreeMemList.headD 0) }
    else pure ()

def allocPage : Flow Vm (Option ℕ) := do
  let m := (← get).pmm
  match m.gFreeMemList with
  | [] => pure none
  | pa :: rest => do
    modify fun s => { s with pmm := { s.pmm with gFreeMemList := rest } }
    if m.index pa < m.maxPages then modify fun s => { s with pmm := s.pmm.setRef pa 1 }
    else pure ()
    pure (some pa)

def incPageRef (pa : ℕ) : Flow Vm Unit := do
  let m := (← get).pmm
  if m.Covers pa ∧ m.index pa < m.maxPages then
    modify fun s => { s with pmm := s.pmm.setRef pa ((m.pageRefCount (m.index pa) + 1) % 2 ^ 16) }
  else pure ()

def decPageRef (pa : ℕ) : Flow Vm Unit := freePage pa

/-- The kernel does not map address 0: a copy from or to it stops the machine. -/
def memcpyPage (dst src : ℕ) : Flow Vm Unit :=
  if dst = 0 ∨ src = 0 then halt
  else modify fun s => { s with mem := fun a =>
    if dst ≤ a ∧ a < dst + 4096 then s.mem (src + (a - dst)) else s.mem a }

def memsetPage (pa : ℕ) (b : UInt8) : Flow Vm Unit :=
  if pa = 0 then halt
  else modify fun s => { s with mem := fun a => if pa ≤ a ∧ a < pa + 4096 then b else s.mem a }

namespace PageTable

def walk (t : PageTable) (va : ℕ) : Option ℕ :=
  if (t.mid (va / 2 ^ 30)).isSome ∧ (t.low (va / 2 ^ 21)).isSome then some (va / 4096) else none

def entry (t : PageTable) (v : ℕ) : Pte :=
  match t.walk (v * 4096) with
  | some w => t.pte w
  | none => {}

def setPte (t : PageTable) (v : ℕ) (e : Pte) : PageTable := { t with pte := update t.pte v e }

def addMid (t : PageTable) (i pa : ℕ) : PageTable :=
  { t with mid := update t.mid i (some pa), low := fun j => if j / 512 = i then none else t.low j }

def addLow (t : PageTable) (i pa : ℕ) : PageTable :=
  { t with low := update t.low i (some pa), pte := fun j => if j / 512 = i then {} else t.pte j }

end PageTable

def Vm.entry (s : Vm) (p : Pid) (v : ℕ) : Pte := (s.space p).pagetable.entry v

/-- One level of `page_walk`: the table is there, or `alloc` asks for a new one. -/
def walkLevel (p : Pid) (alloc : Bool) (find : PageTable → Option ℕ)
    (add : PageTable → ℕ → PageTable) : Flow Vm Bool := do
  match find ((← get).space p).pagetable with
  | some _ => pure true
  | none =>
    if alloc then
      match ← allocPage with
      | some pa => do
        modify fun s => s.setTable p (add · pa)
        pure true
      | none => pure false
    else pure false

def pageWalk (p : Pid) (va : ℕ) (alloc : Bool) : Flow Vm (Option ℕ) :=
  if maxva ≤ va then leave
  else do
    if ← walkLevel p alloc (·.mid (va / 2 ^ 30)) (·.addMid (va / 2 ^ 30)) then
      if ← walkLevel p alloc (·.low (va / 2 ^ 21)) (·.addLow (va / 2 ^ 21)) then
        pure (some (va / 4096))
      else pure none
    else pure none

def setPte (p : Pid) (v : ℕ) (e : Pte) : Flow Vm Unit := modify fun s => s.setTable p (·.setPte v e)

def lookupPa (s : Vm) (p : Pid) (va : ℕ) : ℕ :=
  if maxva ≤ va then 0
  else
    match (s.space p).pagetable.walk va with
    | none => 0
    | some v =>
      let e := (s.space p).pagetable.pte v
      if !e.v || (!e.r && !e.w) then 0 else e.pa

def mapPages (p : Pid) (va size pa : ℕ) (perm : Pte) : Flow Vm Bool :=
  let first := roundDown va
  let last := roundDown (u64 (va + size + (2 ^ 64 - 1)))
  all (fun a => do
    match ← pageWalk p a true with
    | none => pure false
    | some v =>
      if (((← get).space p).pagetable.pte v).v then leave
      else do
        setPte p v (Pte.leaf (pa + (a - first)) perm)
        pure true) (pagesBelow first (last + 1))

def userVmMap (p : Pid) (va size pa : ℕ) (perm : Pte) : Flow Vm Unit := do
  if ← mapPages p va size pa perm then pure () else leave

def userVmUnmap (p : Pid) (va size : ℕ) (free : Bool) : Flow Vm Unit :=
  if va % 4096 ≠ 0 then leave
  else
    each (fun a => do
      match ← pageWalk p a false with
      | none => leave
      | some v => do
        let e := ((← get).space p).pagetable.pte v
        if !e.v || e.onlyValid then leave
        else do
          if free then freePage e.pa else pure ()
          setPte p v {}) (pagesBelow va (u64 (va + size)))

def userVmSetCow (p : Pid) (va : ℕ) : Flow Vm Unit := do
  match ← pageWalk p va false with
  | none => pure ()
  | some v => do
    let e := ((← get).space p).pagetable.pte v
    if e.v then setPte p v { e with w := false, cow := true } else pure ()

def cowPerm : Pte := { r := true, a := true, u := true, cow := true }

/-- A missing table ends the loop without any sign to the caller. -/
def userVmMapCow (p : Pid) (va size pa : ℕ) : Flow Vm Unit := do
  let first := roundDown va
  let last := roundDown (u64 (va + size + (2 ^ 64 - 1)))
  let _ ← all (fun a => do
    match ← pageWalk p a true with
    | none => pure false
    | some v =>
      if (((← get).space p).pagetable.pte v).v then leave
      else do
        setPte p v (Pte.leaf (pa + (a - first)) cowPerm)
        pure true) (pagesBelow first (last + 1))
  pure ()

end Pke.Memory
