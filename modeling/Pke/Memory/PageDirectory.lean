import Pke.Memory.AllocatorRuns

/-! `vmm.c` down to the words of the page tables: a directory is the address of a page of 512 entries,
and the tables below it are pages of `alloc_page`. Ending in `leave` is `kill_current_process`. -/

namespace Pke.Memory

open Lib Flow Function

abbrev pteV : ℕ := 1
abbrev pteR : ℕ := 2
abbrev pteW : ℕ := 4
abbrev pteU : ℕ := 16
abbrev pteA : ℕ := 64
abbrev pteCow : ℕ := 256

def pa2pte (pa : ℕ) : ℕ := pa / 2 ^ 12 * 2 ^ 10
def pte2pa (e : ℕ) : ℕ := u64 (e / 2 ^ 10 * 2 ^ 12)
def pteFlags (e : ℕ) : ℕ := e &&& 0x3ff
def px (level va : ℕ) : ℕ := va / 2 ^ (12 + 9 * level) % 512

namespace Frames

def word (f : Frames) (a : ℕ) : ℕ := load64 f.mem a

def storeWord (a v : ℕ) : Flow Frames Unit := modify fun f => { f with mem := store64 f.mem a v }

/-- One level of `page_walk`: the table that the entry points to, or a new one. -/
def nextTable (alloc : Bool) (pt i : ℕ) : Flow Frames (Option ℕ) := do
  let f ← get
  if f.word (slot pt i) &&& pteV ≠ 0 then pure (some (pte2pa (f.word (slot pt i))))
  else if alloc then do
    let n ← allocPage
    if n ≠ 0 then do
      modify fun f => { f with mem := clearPage f.mem n }
      storeWord (slot pt i) (pa2pte n ||| pteV)
      pure (some n)
    else pure none
  else pure none

def pageWalk (dir va : ℕ) (alloc : Bool) : Flow Frames (Option ℕ) :=
  if maxva ≤ va then leave
  else do
    match ← nextTable alloc dir (px 2 va) with
    | none => pure none
    | some mid =>
      match ← nextTable alloc mid (px 1 va) with
      | none => pure none
      | some low => pure (some (slot low (px 0 va)))

/-- The loop body that `map_pages` and `user_vm_map_cow` share. -/
def mapPage (dir a pa perm : ℕ) : Flow Frames Bool := do
  match ← pageWalk dir a true with
  | none => pure false
  | some pte =>
    let f ← get
    if f.word pte &&& pteV ≠ 0 then leave
    else do
      storeWord pte (pa2pte pa ||| perm ||| pteV)
      pure true

def mapRange (dir va size pa perm : ℕ) : Flow Frames Bool :=
  let first := roundDown va
  let last := roundDown (u64 (va + size + (2 ^ 64 - 1)))
  all (fun a => mapPage dir a (u64 (pa + (a - first))) perm) (pagesBelow first (last + 1))

def mapPages (dir va size pa perm : ℕ) : Flow Frames Bool := mapRange dir va size pa perm

/-- A missing table ends the loop without any sign to the caller. -/
def userVmMapCow (dir va size pa : ℕ) : Flow Frames Unit := do
  let _ ← mapRange dir va size pa (pteR ||| pteA ||| pteU ||| pteCow ||| pteV)
  pure ()

def unmapPage (dir a : ℕ) (free : Bool) : Flow Frames Unit := do
  match ← pageWalk dir a false with
  | none => leave
  | some pte =>
    let f ← get
    if f.word pte &&& pteV = 0 then leave
    else if pteFlags (f.word pte) = pteV then leave
    else do
      if free then freePage (pte2pa (f.word pte)) else pure ()
      storeWord pte 0

def userVmUnmap (dir va size : ℕ) (free : Bool) : Flow Frames Unit :=
  if va % 4096 ≠ 0 then leave
  else each (fun a => unmapPage dir a free) (pagesBelow va (u64 (va + size)))

def userVmSetCow (dir va : ℕ) : Flow Frames Unit := do
  match ← pageWalk dir va false with
  | none => pure ()
  | some pte =>
    let f ← get
    if f.word pte &&& pteV = 0 then pure ()
    else storeWord pte (f.word pte &&& (2 ^ 64 - 1 - pteW) ||| pteCow)

def lookupPa (dir va : ℕ) : Flow Frames ℕ :=
  if maxva ≤ va then pure 0
  else do
    match ← pageWalk dir va false with
    | none => pure 0
    | some pte =>
      let f ← get
      if f.word pte &&& pteV = 0 ∨ (f.word pte &&& pteR = 0 ∧ f.word pte &&& pteW = 0) then pure 0
      else pure (pte2pa (f.word pte))

def userVaToPa (dir va : ℕ) : Flow Frames ℕ := do
  match ← pageWalk dir va false with
  | none => pure 0
  | some pte =>
    let f ← get
    if f.word pte &&& pteV = 0 then pure 0
    else pure (u64 ((f.word pte / 2 ^ 10 &&& 0x3fffffffffff) * 2 ^ 12 + va % 2 ^ 12))

/-- What `page_walk(dir, va, 0)` finds: the word of the entry, and 0 where there is no table. -/
def readEntry (dir va : ℕ) : Flow Frames ℕ := do
  match ← pageWalk dir va false with
  | none => pure 0
  | some pte =>
    let f ← get
    pure (f.word pte)

end Frames

end Pke.Memory
