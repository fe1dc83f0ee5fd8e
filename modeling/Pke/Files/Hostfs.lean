import Pke.Files.State

/-! `hostfs.c` over `spike_file.c`: a file of the host is read and written through one handle in its vinode. -/

namespace Pke.Files

open Lib Flow Function

def hRootDir : Name := [46, 47, 104, 111, 115, 116, 102, 115, 95, 114, 111, 111, 116]

/-- `path_backtrack`; each level adds a character at least, so that `MAX_PATH_LEN` levels do not fit. -/
def pathBacktrack : ℕ → ℕ → Flow Vfs Name
  | 0, _ => undef
  | n + 1, d => do
    let e ← getDentry d
    match e.parent with
    | none => pure []
    | some p => do
      let path ← pathBacktrack n p
      pure (path ++ 47 :: e.name)

def getPathString (d : ℕ) : Flow Vfs Name := do
  let path ← pathBacktrack maxPathLen d
  if maxPathLen ≤ (hRootDir ++ path).length then undef else pure (hRootDir ++ path)

def spikeFileOpen (path : Name) : Flow Vfs FsInfo := do
  let s ← get
  match s.host.entry path with
  | none => pure .error
  | some e => do
    modify fun s => { s with handle := update s.handle s.next (some ⟨e.ino, 0, 3⟩), next := s.next + 1 }
    pure (.handle s.next)

def getHandle (info : FsInfo) : Flow Vfs (ℕ × Handle) := do
  let s ← get
  match info with
  | .handle h =>
    match s.handle h with
    | some f => pure (h, f)
    | none => undef
  | _ => undef

def setHandle (h : ℕ) (f : Handle) : Flow Vfs Unit := modify fun s => { s with handle := update s.handle h (some f) }

/-- A vinode for what `spike_file_open` answered; what cannot be opened counts as a directory. -/
def hostfsVinode (path : Name) (info : FsInfo) : Flow Vfs ℕ := do
  let s ← get
  modify fun s => { s with next := s.next + 1 }
  setVinode s.next (content s)
  pure s.next
where
  content (s : Vfs) : Vinode :=
    match info, s.host.entry path with
    | .handle _, some e =>
      ⟨⟨(s.host.data e.ino).length, fileI, e.nlink, e.blocks, fun _ => 0⟩, e.ino, 0, info, .hostfs⟩
    | _, _ => ⟨⟨0, dirI, 0, 0, fun _ => 0⟩, -1, 0, info, .hostfs⟩

def hostfsLookup (d : ℕ) : Flow Vfs (Option ℕ) := do
  let path ← getPathString d
  let v ← hostfsVinode path (← spikeFileOpen path)
  pure (some v)

def hostCreate (path : Name) : Flow Vfs Unit := do
  let s ← get
  if (s.host.entry path).isNone ∧ s.host.creatable path then
    modify fun s => { s with host := { s.host with
      entry := update s.host.entry path (some ⟨s.host.nextIno, 1, 0⟩)
      data := update s.host.data s.host.nextIno []
      nextIno := s.host.nextIno + 1 } }
  else pure ()

def hostfsCreate (d : ℕ) : Flow Vfs (Option ℕ) := do
  let path ← getPathString d
  hostCreate path
  match ← spikeFileOpen path with
  | .handle h => do
    let v ← hostfsVinode path (.handle h)
    pure (some v)
  | _ => pure none

def hostfsHookOpen (v d : ℕ) : Flow Vfs Unit := do
  let i ← getVinode v
  match i.info with
  | .null => do
    let path ← getPathString d
    match ← spikeFileOpen path with
    | .handle h => setVinode v { i with info := .handle h }
    | _ => pure ()
  | _ => pure ()

/-- `spike_file_close`: the host's descriptor is closed when the count comes down from 2. -/
def hostfsHookClose (v : ℕ) : Flow Vfs Unit := do
  let i ← getVinode v
  match i.info with
  | .null => pure ()
  | info => do
    let (h, f) ← getHandle info
    setHandle h { f with refcnt := if f.refcnt = 2 then 0 else f.refcnt - 1 }

/-- The bytes read, the result and the new offset; a descriptor that the host has closed gives an error. -/
def hostfsRead (i : Vinode) (len : ℤ) : Flow Vfs (List UInt8 × ℤ × ℤ) := do
  let (h, f) ← getHandle i.info
  let s ← get
  if f.refcnt = 0 then pure ([], -1, -1)
  else do
    let bytes := ((s.host.data f.ino).drop f.offset.toNat).take len.toNat
    setHandle h { f with offset := f.offset + bytes.length }
    pure (bytes, bytes.length, f.offset + bytes.length)

def hostfsWrite (i : Vinode) (data : List UInt8) : Flow Vfs (ℤ × ℤ) := do
  let (h, f) ← getHandle i.info
  if f.refcnt = 0 then pure (-1, -1)
  else do
    modify fun s => { s with host := { s.host with data := update s.host.data f.ino (overwrite (s.host.data f.ino) f.offset.toNat data) } }
    setHandle h { f with offset := f.offset + data.length }
    pure (data.length, f.offset + data.length)
where
  overwrite (old : List UInt8) (o : ℕ) (data : List UInt8) : List UInt8 :=
    old.take o ++ List.replicate (o - old.length) 0 ++ data ++ old.drop (o + data.length)

def hostfsLseek (i : Vinode) (newOffset whence : ℤ) : Flow Vfs ℤ := do
  let (h, f) ← getHandle i.info
  let s ← get
  match target s f with
  | some o =>
    if f.refcnt = 0 ∨ o < 0 then pure (-1)
    else do
      setHandle h { f with offset := o }
      pure o
  | none => pure (-1)
where
  target (s : Vfs) (f : Handle) : Option ℤ :=
    if whence = 0 then some newOffset
    else if whence = 1 then some (f.offset + newOffset)
    else if whence = 2 then some ((s.host.data f.ino).length + newOffset)
    else none

end Pke.Files
