import Pke.Files.Vfs

/-! `proc_file.c`: the operations on descriptors. The structure that `do_open` copies into a slot is not used again
where it came from, so that a slot holds the file itself. -/

namespace Pke.Files

open Lib Flow Function

abbrev maxFiles : ℕ := 128

/-- `get_opened_file`: for a number that is no descriptor the loop ends at the last slot. A slot that was never
used has no file behind it. -/
def getOpenedFile (p : ℕ) (fd : ℤ) : Flow Vfs ℕ := do
  let s ← get
  deref (s.slots p (if 0 ≤ fd ∧ fd < maxFiles then fd.toNat else maxFiles - 1))

def isNone (s : Vfs) (p fd : ℕ) : Bool :=
  match s.slots p fd with
  | none => true
  | some f =>
    match s.file f with
    | some file => file.opened = false
    | none => false

lemma isNone_of_slots {s : Vfs} {p k f : ℕ} (h : s.slots p k = some f) :
    isNone s p k = match s.file f with | some file => decide (file.opened = false) | none => false := by
  rw [isNone, h]

/-- The first slot that is not in use; behind the last one `do_open` overwrites the last. -/
def placeFile (p f : ℕ) : Flow Vfs ℤ := do
  let s ← get
  let fd := ((List.range maxFiles).find? (isNone s p)).getD maxFiles
  modify fun s => { s with
    slots := update s.slots p (update (s.slots p) (min fd (maxFiles - 1)) (some f))
    nfiles := update s.nfiles p (s.nfiles p + 1) }
  pure fd

def doOpen (p : ℕ) (path : Name) (flags : ℕ) : Flow Vfs ℤ := do
  match ← vfsOpen p path flags with
  | none => pure (-1)
  | some f => do
    if maxFiles ≤ (← get).nfiles p then halt else placeFile p f

/-- The bytes that reach the caller through the last `strcpy`, and the result. -/
def doRead (p : ℕ) (fd : ℤ) (count : ℕ) : Flow Vfs (List UInt8 × ℤ) := do
  let f ← getOpenedFile p fd
  if (← getFile f).readable = false then halt
  else do
    let r ← vfsRead f count
    pure (r.1.takeWhile (· ≠ 0), r.2)

def doWrite (p : ℕ) (fd : ℤ) (data : List UInt8) : Flow Vfs ℤ := do
  let f ← getOpenedFile p fd
  if (← getFile f).writable = false then halt else vfsWrite f data

def doLseek (p : ℕ) (fd offset whence : ℤ) : Flow Vfs ℤ := do
  let f ← getOpenedFile p fd
  vfsLseek f offset whence

def doStat (p : ℕ) (fd : ℤ) : Flow Vfs Istat := do
  let f ← getOpenedFile p fd
  vfsStat f

def doDiskStat (p : ℕ) (fd : ℤ) : Flow Vfs Istat := do
  let f ← getOpenedFile p fd
  vfsDiskStat f

def doClose (p : ℕ) (fd : ℤ) : Flow Vfs ℤ := do
  let f ← getOpenedFile p fd
  vfsClose f

def doOpendir (p : ℕ) (path : Name) : Flow Vfs ℤ := do
  match ← vfsOpendir p path with
  | none => pure (-1)
  | some f => do
    let s ← get
    if ((List.range maxFiles).find? (isNone s p)).isNone then halt else placeFile p f

def doReaddir (p : ℕ) (fd : ℤ) : Flow Vfs (Option (List UInt8 × ℤ)) := do
  let f ← getOpenedFile p fd
  vfsReaddir f

def doClosedir (p : ℕ) (fd : ℤ) : Flow Vfs ℤ := do
  let f ← getOpenedFile p fd
  vfsClosedir f

end Pke.Files
