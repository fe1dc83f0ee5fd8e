import Pke.Lib.Locks
import Pke.Memory.AllocatorRuns

/-! The calls of `pmm.c` on several harts: `pmm_lock` makes each of them one step. -/

namespace Pke.Memory

open Lib Flow Function Locks

inductive PmmCall where
  | alloc
  | free (pa : ℕ)
  | inc (pa : ℕ)
  | ref (pa : ℕ)

structure PmmLocals where
  n : ℕ := 0
  idx : ℕ := 0
  count : ℕ := 0
  ret : ℕ := 0

def Frames.getPageRef (pa : ℕ) : Flow Frames ℕ := do
  let f ← get
  if pa < f.freeMemStartAddr ∨ f.freeMemEndAddr ≤ pa then pure 0
  else if f.index pa < f.maxPages then refCount (f.index pa) else pure 0

namespace PmmCall

def set (a : PmmLocals → Frames → PmmLocals) : Stmt PmmLocals Frames := fun l f => some (a l f, f)

def put (a : PmmLocals → Frames → Frames) : Stmt PmmLocals Frames := fun l f => some (l, a l f)

def load : Stmt PmmLocals Frames := fun l f =>
  if l.idx < pmmMaxPages then some ({ l with count := f.pageRefCount l.idx }, f) else none

def store (n : PmmLocals → ℕ) : Stmt PmmLocals Frames := fun l f =>
  if l.idx < pmmMaxPages then some (l, { f with pageRefCount := update f.pageRefCount l.idx (n l) }) else none

def outside (pa : ℕ) (f : Frames) : Bool := pa < f.freeMemStartAddr ∨ f.freeMemEndAddr ≤ pa

def inRange (pa : ℕ) (l : PmmLocals) (f : Frames) : Bool := !outside pa f && l.idx < f.maxPages

variable {c : PmmCall} {l : PmmLocals} {f g : Frames}

def pageOp : PmmCall → Option PageOp
  | .alloc => some .alloc
  | .free pa => some (.free pa)
  | .inc pa => some (.inc pa)
  | .ref _ => none

def usage {H : Type} : List (H × PmmCall × PmmLocals) → ℕ → Usage
  | [] => fun _ => {}
  | (_, c, l) :: log => c.pageOp.elim (usage log) fun op => op.enter l.ret (usage log)

/-- The callers raise and lower the counts only of pages that are handed out. -/
def Careful {H : Type} (pages : List ℕ) : List (H × PmmCall × PmmLocals) → Prop
  | [] => True
  | (_, c, _) :: log => Careful pages log ∧ ∀ op ∈ c.pageOp, ∀ f, op.Allowed pages ⟨f, usage log⟩

variable {H : Type} {pages free : List ℕ} {h : H} {log rest : List (H × PmmCall × PmmLocals)} {f₀ : Frames}

end PmmCall

open PmmCall

end Pke.Memory
