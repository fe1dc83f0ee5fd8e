import Pke.Files.Rfs
import Pke.Files.Hostfs

/-! `vfs.c`: the hash tables, the walk along a path, and the operations on paths and open files. -/

namespace Pke.Files

open Lib Flow Function

def hashPutDentry (d : ℕ) : Flow Vfs Unit := do
  let e ← getDentry d
  modify fun s => if (s.dentryHash (e.parent, e.name)).isSome then s
    else { s with dentryHash := update s.dentryHash (e.parent, e.name) (some d) }

def hashEraseDentry (d : ℕ) : Flow Vfs Unit := do
  let e ← getDentry d
  modify fun s => { s with dentryHash := update s.dentryHash (e.parent, e.name) none }

def hashGetVinode (s : Vfs) (sb : FsType) (inum : ℤ) : Option ℕ := if inum < 0 then none else s.vinodeHash (sb, inum)

def hashPutVinode (v : ℕ) : Flow Vfs Unit := do
  let i ← getVinode v
  modify fun s => if i.inum < 0 ∨ (s.vinodeHash (i.sb, i.inum)).isSome then s
    else { s with vinodeHash := update s.vinodeHash (i.sb, i.inum) (some v) }

def hashEraseVinode (v : ℕ) : Flow Vfs Unit := do
  let i ← getVinode v
  modify fun s => if i.inum < 0 then s else { s with vinodeHash := update s.vinodeHash (i.sb, i.inum) none }

def addRef (v : ℕ) (n : ℤ) : Flow Vfs Unit := do
  let i ← getVinode v
  setVinode v { i with ref := i.ref + n }

def addDRef (d : ℕ) (n : ℤ) : Flow Vfs Unit := do
  let e ← getDentry d
  setDentry d { e with dRef := e.dRef + n }

def setInode (d v : ℕ) : Flow Vfs Unit := do
  let e ← getDentry d
  setDentry d { e with inode := some v }

def allocVfsDentry (name : Name) (inode parent : Option ℕ) : Flow Vfs ℕ := do
  let s ← get
  modify fun s => { s with next := s.next + 1 }
  setDentry s.next ⟨name, 0, inode, parent⟩
  match inode with
  | some v => do
    addRef v 1
    pure s.next
  | none => pure s.next

def freeVfsDentry (d : ℕ) : Flow Vfs Unit := do
  let e ← getDentry d
  if 0 < e.dRef then pure () else freeDentry d

def inodeOf (d : ℕ) : Flow Vfs ℕ := do
  let e ← getDentry d
  deref e.inode

def viopLookup (parent d : ℕ) (name : Name) : Flow Vfs (Option ℕ) := do
  match (← getVinode parent).sb with
  | .rfs => rfsLookup parent name
  | .hostfs => hostfsLookup d

def viopCreate (parent d : ℕ) (name : Name) : Flow Vfs (Option ℕ) := do
  match (← getVinode parent).sb with
  | .rfs => rfsCreate parent name
  | .hostfs => hostfsCreate d

def viopMkdir (parent : ℕ) (name : Name) : Flow Vfs (Option ℕ) := do
  match (← getVinode parent).sb with
  | .rfs => rfsMkdir parent name
  | .hostfs => leave

def viopLink (parent : ℕ) (name : Name) (node : ℕ) : Flow Vfs ℤ := do
  match (← getVinode parent).sb with
  | .rfs => rfsLink parent name node
  | .hostfs => leave

def viopUnlink (parent : ℕ) (name : Name) (node : ℕ) : Flow Vfs ℤ := do
  match (← getVinode parent).sb with
  | .rfs => rfsUnlink parent name node
  | .hostfs => leave

def viopWriteBackVinode (v : ℕ) : Flow Vfs Unit := do
  match (← getVinode v).sb with
  | .rfs => rfsWriteBackVinode v
  | .hostfs => pure ()

/-- What was found in the directory becomes the inode of the new dentry, unless the inode is cached already. -/
def adopt (d found : ℕ) : Flow Vfs Unit := do
  let i ← getVinode found
  let s ← get
  match hashGetVinode s i.sb i.inum with
  | some same => do
    setInode d same
    addRef same 1
    freeVinode found
    hashPutDentry d
  | none => do
    setInode d found
    addRef found 1
    hashPutVinode found
    hashPutDentry d

/-- One round of the loop of `lookup_final_dentry`. -/
def lookupToken (parent : Option ℕ) (token : Name) : Flow Vfs (Option ℕ) := do
  let s ← get
  match s.dentryHash (parent, token) with
  | some d => pure (some d)
  | none => do
    let d ← allocVfsDentry token none parent
    let v ← inodeOf (← deref parent)
    match ← viopLookup v d token with
    | none => do
      freeDentry d
      pure none
    | some found => do
      adopt d found
      pure (some d)

/-- The dentry that was found, the last `*parent`, and the token that was missing. -/
structure Lookup where
  dentry : Option ℕ
  parent : Option ℕ
  miss : Option Name

def walkTokens (this parent : Option ℕ) : List Name → Flow Vfs Lookup
  | [] => pure ⟨this, parent, none⟩
  | token :: rest => do
    match ← lookupToken this token with
    | none => pure ⟨none, this, some token⟩
    | some d => walkTokens (some d) this rest

def tokens : Name → List Name
  | [] => []
  | c :: rest =>
    if c = 47 then tokens rest
    else
      match rest with
      | [] => [[c]]
      | c' :: _ =>
        if c' = 47 then [c] :: tokens rest
        else
          match tokens rest with
          | t :: ts => (c :: t) :: ts
          | [] => [[c]]

def dotSlash (path : Name) : Bool := path.take 2 == [46, 47]

def dotDotSlash (path : Name) : Bool := path.take 3 == [46, 46, 47]

def parentOf (d : Option ℕ) : Flow Vfs (Option ℕ) := do
  let e ← getDentry (← deref d)
  pure e.parent

def lookupPath (path : Name) (parent : Option ℕ) : Flow Vfs Lookup :=
  if path = [46] then pure ⟨parent, parent, none⟩
  else if path = [46, 46] then do
    let up ← parentOf parent
    pure ⟨up, up, none⟩
  else if maxPathLen ≤ path.length then undef
  else walkTokens parent parent (tokens path)

def lookupFinalDentry (path : Name) (parent : Option ℕ) : Flow Vfs Lookup :=
  let path := if dotSlash path then path.drop 2 else path
  if dotDotSlash path then do
    let up ← parentOf parent
    lookupPath (path.drop 3) up
  else lookupPath path parent

/-- The directory that all operations but `vfs_ccwd` and the second path of `vfs_link` start from, and what is
left of the path. -/
def startOf (p : ℕ) (path : Name) : Flow Vfs (Option ℕ × Name) := do
  let s ← get
  let parent := if dotSlash path then s.cwd p else s.root
  let path := if dotSlash path then path.drop 2 else path
  if dotDotSlash path then do
    let up ← parentOf (some (s.cwd p))
    pure (up, path.drop 3)
  else pure (some parent, path)

def getBaseName (path : Name) : Flow Vfs Name :=
  match (tokens path).getLast? with
  | some t => pure t
  | none => undef

/-- `strcmp(miss_name, basename) == 0`; nothing was stored in `miss_name` if no token was missing. -/
def missedLast (l : Lookup) (base : Name) : Flow Vfs Bool :=
  match l.miss with
  | some t => pure (t == base)
  | none => undef

def allocVfsFile (d : ℕ) (readable writable : Bool) : Flow Vfs ℕ := do
  let s ← get
  modify fun s => { s with next := s.next + 1 }
  addDRef d 1
  setFile s.next ⟨true, readable, writable, 0, d⟩
  pure s.next

def publish (d v : ℕ) : Flow Vfs Unit := do
  setInode d v
  addRef v 1
  hashPutDentry d
  hashPutVinode v

def createFile (l : Lookup) (path : Name) : Flow Vfs (Option ℕ) := do
  let base ← getBaseName path
  if ← missedLast l base then do
    let d ← allocVfsDentry base none l.parent
    match ← viopCreate (← inodeOf (← deref l.parent)) d base with
    | some v => do
      publish d v
      pure (some d)
    | none => leave
  else pure none

/-- The tail of `vfs_open`, with the dentry at hand. `MASK_FILEMODE` is 3. -/
def openDentry (d : ℕ) (flags : ℕ) : Flow Vfs (Option ℕ) := do
  let v ← inodeOf d
  let i ← getVinode v
  if i.type ≠ fileI then pure none
  else if flags % 4 = 3 then leave
  else do
    let f ← allocVfsFile d (flags % 4 = 0 ∨ flags % 4 = 2) (flags % 4 = 1 ∨ flags % 4 = 2)
    match i.sb with
    | .rfs => pure (some f)
    | .hostfs => do
      hostfsHookOpen v d
      pure (some f)

/-- `O_CREAT` is 64. -/
def vfsOpen (p : ℕ) (path : Name) (flags : ℕ) : Flow Vfs (Option ℕ) := do
  let start ← startOf p path
  let l ← lookupFinalDentry start.2 start.1
  match l.dentry with
  | some d => openDentry d flags
  | none =>
    if flags / 64 % 2 = 1 then do
      match ← createFile l start.2 with
      | some d => openDentry d flags
      | none => pure none
    else pure none

def fileInode (file : File) : Flow Vfs ℕ := inodeOf file.dentry

def vfsRead (f : ℕ) (count : ℕ) : Flow Vfs (List UInt8 × ℤ) := do
  let file ← getFile f
  if file.readable = false then pure ([], -1)
  else do
    let i ← getVinode (← fileInode file)
    if i.type ≠ fileI then pure ([], -1)
    else
      match i.sb with
      | .rfs => do
        let r ← rfsRead i count file.offset
        setFile f { file with offset := file.offset + r.2 }
        -- the bytes go through `strcpy`, which stops at the first zero
        pure (r.1.takeWhile (· ≠ 0), r.2)
      | .hostfs => do
        let r ← hostfsRead i count
        setFile f { file with offset := r.2.2 }
        pure (r.1, r.2.1)

def vfsWrite (f : ℕ) (data : List UInt8) : Flow Vfs ℤ := do
  let file ← getFile f
  if file.writable = false then pure (-1)
  else do
    let v ← fileInode file
    let i ← getVinode v
    if i.type ≠ fileI then pure (-1)
    else
      match i.sb with
      | .rfs => do
        let len ← rfsWrite v data file.offset
        setFile f { file with offset := file.offset + len }
        pure len
      | .hostfs => do
        let r ← hostfsWrite i data
        setFile f { file with offset := r.2 }
        pure r.1

def vfsLseek (f : ℕ) (offset whence : ℤ) : Flow Vfs ℤ := do
  let file ← getFile f
  let i ← getVinode (← fileInode file)
  if i.type ≠ fileI then pure (-1)
  else
    match i.sb with
    | .rfs =>
      match rfsLseek i offset whence file.offset with
      | some o => do
        setFile f { file with offset := o }
        pure o
      | none => pure (-1)
    | .hostfs => do
      let o ← hostfsLseek i offset whence
      setFile f { file with offset := o }
      if o < 0 then pure (-1) else pure o

def vfsStat (f : ℕ) : Flow Vfs Istat := do
  let i ← getVinode (← fileInode (← getFile f))
  pure ⟨i.inum, i.size, i.type, i.nlinks, i.blocks⟩

/-- `hostfs` has no function for it in its table. -/
def vfsDiskStat (f : ℕ) : Flow Vfs Istat := do
  let v ← fileInode (← getFile f)
  match (← getVinode v).sb with
  | .rfs => rfsDiskStat v
  | .hostfs => undef

def vfsReaddir (f : ℕ) : Flow Vfs (Option (List UInt8 × ℤ)) := do
  let file ← getFile f
  let i ← getVinode (← fileInode file)
  if i.type ≠ dirI then pure none
  else
    match i.sb with
    | .rfs => do
      match ← rfsReaddir i file.offset with
      | some e => do
        setFile f { file with offset := file.offset + 1 }
        pure (some e)
      | none => pure none
    | .hostfs => leave

def linkAt (node : ℕ) (newpath : Name) : Flow Vfs ℤ := do
  let s ← get
  let l ← lookupFinalDentry newpath (some s.root)
  match l.dentry with
  | some _ => pure (-1)
  | none => do
    let base ← getBaseName newpath
    if ← missedLast l base then do
      let d ← allocVfsDentry base (some node) l.parent
      if (← viopLink (← inodeOf (← deref l.parent)) base node) ≠ 0 then pure (-1)
      else do
        hashPutDentry d
        pure 0
    else pure (-1)

def vfsLink (p : ℕ) (oldpath newpath : Name) : Flow Vfs ℤ := do
  let start ← startOf p oldpath
  let l ← lookupFinalDentry start.2 start.1
  match l.dentry with
  | none => pure (-1)
  | some d => do
    let v ← inodeOf d
    if (← getVinode v).type ≠ fileI then pure (-1) else linkAt v newpath

/-- The end of `vfs_unlink`: the dentry goes, and the vinode with it if the inode is gone. -/
def forget (d v : ℕ) : Flow Vfs Unit := do
  hashEraseDentry d
  freeVfsDentry d
  addRef v (-1)
  let i ← getVinode v
  if i.nlinks = 0 then
    if i.ref ≠ 0 then halt
    else do
      hashEraseVinode v
      freeVinode v
  else pure ()

def vfsUnlink (p : ℕ) (path : Name) : Flow Vfs ℤ := do
  let start ← startOf p path
  let l ← lookupFinalDentry start.2 start.1
  match l.dentry with
  | none => pure (-1)
  | some d => do
    let e ← getDentry d
    let v ← inodeOf d
    if (← getVinode v).type ≠ fileI then pure (-1)
    else if 0 < e.dRef then pure (-1)
    else do
      if (← viopUnlink (← inodeOf (← deref l.parent)) e.name v) ≠ 0 then pure (-1)
      else do
        forget d v
        pure 0

/-- The dentry of a file without open files, and the vinode when its last dentry goes. -/
def dropDentry (d v : ℕ) : Flow Vfs Unit := do
  hashEraseDentry d
  freeVfsDentry d
  addRef v (-1)
  if (← getVinode v).ref = 0 then do
    viopWriteBackVinode v
    hashEraseVinode v
    freeVinode v
  else pure ()

def closeDentry (d v : ℕ) : Flow Vfs Unit := do
  addDRef d (-1)
  if (← getDentry d).dRef = 0 then dropDentry d v else pure ()

/-- Only `hostfs` has a hook on closing. -/
def hookClose (v : ℕ) : FsType → Flow Vfs Unit
  | .rfs => pure ()
  | .hostfs => hostfsHookClose v

def vfsClose (f : ℕ) : Flow Vfs ℤ := do
  let file ← getFile f
  let v ← fileInode file
  let i ← getVinode v
  if i.type ≠ fileI then pure (-1)
  else do
    hookClose v i.sb
    closeDentry file.dentry v
    setFile f { file with opened := false }
    pure 0

def vfsOpendir (p : ℕ) (path : Name) : Flow Vfs (Option ℕ) := do
  let start ← startOf p path
  let l ← lookupFinalDentry start.2 start.1
  match l.dentry with
  | none => pure none
  | some d => do
    let v ← inodeOf d
    let i ← getVinode v
    if i.type ≠ dirI then pure none
    else do
      let f ← allocVfsFile d true false
      match i.sb with
      | .rfs => do
        rfsHookOpendir v
        pure (some f)
      | .hostfs => pure (some f)

def vfsClosedir (f : ℕ) : Flow Vfs ℤ := do
  let file ← getFile f
  let v ← fileInode file
  let i ← getVinode v
  if i.type ≠ dirI then pure (-1)
  else do
    addDRef file.dentry (-1)
    setFile f { file with opened := false }
    match i.sb with
    | .rfs => do
      rfsHookClosedir v
      pure 0
    | .hostfs => pure 0

def makeDir (l : Lookup) (path : Name) : Flow Vfs ℤ := do
  let base ← getBaseName path
  if ← missedLast l base then do
    let d ← allocVfsDentry base none l.parent
    match ← viopMkdir (← inodeOf (← deref l.parent)) base with
    | none => do
      freeDentry d
      pure (-1)
    | some v => do
      publish d v
      pure 0
  else pure (-1)

def vfsMkdir (p : ℕ) (path : Name) : Flow Vfs ℤ := do
  let start ← startOf p path
  let l ← lookupFinalDentry start.2 start.1
  match l.dentry with
  | some _ => pure (-1)
  | none => makeDir l start.2

def vfsCcwd (p : ℕ) (path : Name) : Flow Vfs ℤ := do
  let s ← get
  let l ← lookupFinalDentry path (some (if path.head? = some 47 then s.root else s.cwd p))
  match l.dentry with
  | none => pure (-1)
  | some d => do
    if (← getVinode (← inodeOf d)).type ≠ dirI then pure (-1)
    else do
      modify fun s => { s with cwd := update s.cwd p d }
      pure 0

/-- `HOSTDEV` becomes the root, with a vinode that is in no table since its number is negative. -/
def mountHostfs : Flow Vfs Unit := do
  let s ← get
  modify fun s => { s with next := s.next + 1 }
  setVinode s.next ⟨⟨0, dirI, 0, 0, fun _ => 0⟩, -1, 0, .null, .hostfs⟩
  let d ← allocVfsDentry [47] (some s.next) none
  modify fun t => { t with root := d, cwd := fun _ => d }
  hashPutDentry d

def rfsGetSuperblock : Flow Vfs ℕ := do
  rfsR1block 0
  modify fun s => { s with nblocks := load32 s.iobuffer 8 }
  if load32 (← get).iobuffer 0 ≠ 0xBEAF then leave
  else do
    let v ← rfsAllocVinode 0
    rfsUpdateVinode v
    let d ← allocVfsDentry [47] (some v) none
    rfsR1block rfsBlkOffsetBitmap
    modify fun s => { s with freemap := fun b => load32 s.iobuffer (4 * b) }
    pure d

def ramdisk0 : Name := [82, 65, 77, 68, 73, 83, 75, 48]

def mountRfs : Flow Vfs Unit := do
  let d ← rfsGetSuperblock
  hashPutVinode (← inodeOf d)
  let s ← get
  let e ← getDentry d
  setDentry d { e with name := ramdisk0, parent := some s.root }
  hashPutDentry d

def fsInit (rest : Fin 10 → ℤ) : Flow Vfs Unit := do
  modify fun s => { s with dentryHash := fun _ => none, vinodeHash := fun _ => none }
  mountHostfs
  rfsFormatDev rest
  mountRfs

end Pke.Files
