import Pke.Lib.Words
import Pke.Memory.Machine

/-! `pmm.c` down to the bytes: the free list runs through the first word of every free page, and the
reference counts stand in a table of `PMM_MAX_PAGES` entries. An access beyond the table is undefined. -/

namespace Pke.Memory

open Lib Flow Function

abbrev pmmMaxPages : ℕ := 65536
abbrev kernBase : ℕ := 0x80000000
abbrev dramBase : ℕ := 0x80000000
abbrev pkeMaxAllowableRam : ℕ := 128 * 1024 * 1024

def sub64 (a b : ℕ) : ℕ := u64 (a + (2 ^ 64 - b))
def roundUp (a : ℕ) : ℕ := u64 ((sub64 a 1 / 4096 + 1) * 4096)

structure Frames where
  freeMemStartAddr : ℕ := 0
  freeMemEndAddr : ℕ := 0
  gFreeMemList : ℕ := 0
  pageRefCount : ℕ → ℕ := fun _ => 0
  mem : ℕ → UInt8

namespace Frames

def index (f : Frames) (pa : ℕ) : ℕ := sub64 pa f.freeMemStartAddr / 4096
def maxPages (f : Frames) : ℕ := sub64 f.freeMemEndAddr f.freeMemStartAddr / 4096

def refCount (i : ℕ) : Flow Frames ℕ := do
  let f ← get
  if i < pmmMaxPages then pure (f.pageRefCount i) else undef

def setRefCount (i n : ℕ) : Flow Frames Unit :=
  if i < pmmMaxPages then modify fun f => { f with pageRefCount := update f.pageRefCount i n } else undef

def lowerCount (i : ℕ) : Flow Frames Unit := do
  let count ← refCount i
  if 0 < count then setRefCount i (count - 1) else pure ()

def freePage (pa : ℕ) : Flow Frames Unit := do
  let f ← get
  if pa % 4096 ≠ 0 ∨ pa < f.freeMemStartAddr ∨ f.freeMemEndAddr ≤ pa then halt
  else if f.maxPages ≤ f.index pa then halt
  else do
    lowerCount (f.index pa)
    let left ← refCount (f.index pa)
    if left = 0 then
      modify fun f => { f with mem := store64 f.mem pa f.gFreeMemList, gFreeMemList := pa }
    else pure ()

def allocPage : Flow Frames ℕ := do
  let f ← get
  let n := f.gFreeMemList
  if n ≠ 0 then do
    modify fun f => { f with gFreeMemList := load64 f.mem n }
    if f.index n < f.maxPages then setRefCount (f.index n) 1 else pure ()
    pure n
  else pure 0

def incPageRef (pa : ℕ) : Flow Frames Unit := do
  let f ← get
  if pa < f.freeMemStartAddr ∨ f.freeMemEndAddr ≤ pa then pure ()
  else if f.index pa < f.maxPages then do
    let count ← refCount (f.index pa)
    setRefCount (f.index pa) ((count + 1) % 2 ^ 16)
  else pure ()

def decPageRef (pa : ℕ) : Flow Frames Unit := freePage pa

def freepages (start stop : ℕ) : List ℕ := pagesBelow (roundUp start) (stop - 4096)

def createFreepageList (start stop : ℕ) : Flow Frames Unit := do
  modify fun f => { f with gFreeMemList := 0 }
  each freePage (freepages start stop)

def pmmInit (kernelEnd gMemSize : ℕ) : Flow Frames Unit := do
  let pkeKernelSize := sub64 kernelEnd kernBase
  let size := min pkeMaxAllowableRam gMemSize
  if size < pkeKernelSize then halt
  else do
    modify fun f => { f with freeMemStartAddr := roundUp kernelEnd, freeMemEndAddr := u64 (size + dramBase) }
    createFreepageList (roundUp kernelEnd) (u64 (size + dramBase))

end Frames

/-- What became of a page since it was last handed out, if it ever was. -/
structure Usage where
  given : Bool := false
  incs : ℕ := 0
  frees : ℕ := 0

/-- The page has not yet been freed once more than its count was raised. -/
def Usage.Out (u : Usage) : Prop := u.given = true ∧ u.frees ≤ u.incs

inductive PageOp where
  | alloc
  | inc (pa : ℕ)
  | free (pa : ℕ)
  | store (a : ℕ) (b : UInt8)

structure Books where
  frames : Frames
  usage : ℕ → Usage

namespace PageOp

def run : PageOp → Flow Frames ℕ
  | .alloc => Frames.allocPage
  | .inc pa => do Frames.incPageRef pa; pure 0
  | .free pa => do Frames.decPageRef pa; pure 0
  | .store a b => do modify fun f => { f with mem := update f.mem a b }; pure 0

def enter (r : ℕ) (usage : ℕ → Usage) : PageOp → ℕ → Usage
  | .alloc => if r = 0 then usage else update usage r { given := true }
  | .inc pa => update usage pa { usage pa with incs := (usage pa).incs + 1 }
  | .free pa => update usage pa { usage pa with frees := (usage pa).frees + 1 }
  | .store _ _ => usage

/-- Counts change only for pages that are handed out, with fewer than `2 ^ 16` references, and
nobody stores into a page that is not. -/
def Allowed (pages : List ℕ) (b : Books) : PageOp → Prop
  | .alloc => True
  | .inc pa => (b.usage pa).Out ∧ (b.usage pa).incs + 1 - (b.usage pa).frees + 1 < 2 ^ 16
  | .free pa => (b.usage pa).Out
  | .store a _ => ∀ pa ∈ pages, ¬ (b.usage pa).Out → a < pa ∨ pa + 4096 ≤ a

end PageOp

def Books.Step (pages : List ℕ) (b : Books) (op : PageOp) (r : ℕ) (c : Books) : Prop :=
  op.Allowed pages b ∧ op.run b.frames = .done r c.frames ∧ c.usage = op.enter r b.usage

def Books.Reach (pages : List ℕ) (f : Frames) : Books → Prop :=
  Relation.ReflTransGen (fun b c => ∃ op r, b.Step pages op r c) ⟨f, fun _ => {}⟩

def toLink (n : ℕ) : Option ℕ := if n = 0 then none else some n

def Frames.FreeList (f : Frames) (l : List ℕ) : Prop :=
  Chain (fun a => toLink (load64 f.mem a)) (toLink f.gFreeMemList) l

end Pke.Memory
