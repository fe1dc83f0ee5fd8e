import Pke.Files.State

/-! `rfs.c` and `ramdev.c`. Ending in `leave` is `kill_current_process`; an access outside of an array is undefined. -/

namespace Pke.Files

open Lib Flow Function

def rfsR1block (n : ℤ) : Flow Vfs Unit :=
  if n < 0 ∨ ramdiskBlockCount ≤ n then leave
  else modify fun s => { s with iobuffer := fun i => if i < rfsBlksize then s.disk n.toNat i else s.iobuffer i }

def rfsW1block (n : ℤ) : Flow Vfs Unit :=
  if n < 0 ∨ ramdiskBlockCount ≤ n then leave
  else modify fun s => { s with
    disk := update s.disk n.toNat fun i => if i < rfsBlksize then s.iobuffer i else s.disk n.toNat i }

def Dinode.word (d : Dinode) : ℕ → ℤ
  | 0 => d.size
  | 1 => d.type
  | 2 => d.nlinks
  | 3 => d.blocks
  | k + 4 => if h : k < 10 then d.addrs ⟨k, h⟩ else 0

def loadDinode (b : ℕ → UInt8) (o : ℕ) : Dinode where
  size := load32 b o
  type := load32 b (o + 4)
  nlinks := load32 b (o + 8)
  blocks := load32 b (o + 12)
  addrs i := load32 b (o + 16 + 4 * i)

def storeDinode (b : ℕ → UInt8) (o : ℕ) (d : Dinode) : ℕ → UInt8 :=
  fun x => if o ≤ x ∧ x < o + 56 then byte32 (d.word ((x - o) / 4)) ((x - o) % 4) else b x

def inodeBlock (n : ℤ) : ℤ := n.tdiv 32 + 1

def rfsReadDinode (n : ℤ) : Flow Vfs Dinode := do
  rfsR1block (inodeBlock n)
  if n.tmod 32 < 0 then undef
  else do
    let s ← get
    pure (loadDinode s.iobuffer ((n.tmod 32).toNat * 128))

def rfsWriteDinode (d : Dinode) (n : ℤ) : Flow Vfs Unit := do
  rfsR1block (inodeBlock n)
  if n.tmod 32 < 0 then undef
  else do
    modify fun s => { s with iobuffer := storeDinode s.iobuffer ((n.tmod 32).toNat * 128) d }
    rfsW1block (inodeBlock n)

def rfsAllocBlock : Flow Vfs ℤ := do
  let s ← get
  match (List.range s.nblocks.toNat).find? fun b => s.freemap b = 0 with
  | some b => do
    modify fun s => { s with freemap := update s.freemap b 1 }
    pure (rfsBlkOffsetFree + b)
  | none => leave

def rfsFreeBlock (n : ℤ) : Flow Vfs Unit :=
  if n < rfsBlkOffsetFree then undef
  else modify fun s => { s with freemap := update s.freemap (n - rfsBlkOffsetFree).toNat 0 }

def addrAt (addrs : Fin 10 → ℤ) (i : ℤ) : Flow Vfs ℤ :=
  if h : 0 ≤ i ∧ i < 10 then pure (addrs ⟨i.toNat, by omega⟩) else undef

def rfsWriteBackVinode (v : ℕ) : Flow Vfs Unit := do
  let i ← getVinode v
  rfsWriteDinode i.toDinode i.inum

def rfsUpdateVinode (v : ℕ) : Flow Vfs Unit := do
  let i ← getVinode v
  let d ← rfsReadDinode i.inum
  setVinode v { i with toDinode := d }

def rfsAllocVinode (inum : ℤ) : Flow Vfs ℕ := do
  let s ← get
  modify fun s => { s with next := s.next + 1 }
  setVinode s.next ⟨⟨0, 0, 0, 0, fun _ => 0⟩, inum, 0, .null, .rfs⟩
  pure s.next

def putDirentry (b : ℕ → UInt8) (o : ℕ) (name : Name) (inum : ℤ) : ℕ → UInt8 :=
  putString (store32 b o inum) (o + 4) name

def rfsAddDirentry (dir : ℕ) (name : Name) (inum : ℤ) : Flow Vfs ℤ := do
  let d ← getVinode dir
  if d.type ≠ dirI then pure (-1)
  else do
    let n ← addrAt d.addrs (d.size.tdiv rfsBlksize)
    rfsR1block n
    let o := d.size.tmod rfsBlksize
    -- a name that does not fit runs into the next entry, and out of the buffer behind the last one
    if o < 0 ∨ rfsBlksize < o + 4 + name.length + 1 then undef
    else do
      modify fun s => { s with iobuffer := putDirentry s.iobuffer o.toNat name inum }
      rfsW1block n
      setVinode dir { d with size := d.size + direntrySize }
      rfsWriteBackVinode dir
      pure 0

def totalDirentrys (size : ℤ) : ℕ := size.toNat / direntrySize

def loadDirentry (addrs : Fin 10 → ℤ) (i : ℕ) : Flow Vfs Unit :=
  if i % oneBlockDirentrys = 0 then do rfsR1block (← addrAt addrs (i / oneBlockDirentrys : ℕ)) else pure ()

def findDirentry (addrs : Fin 10 → ℤ) (name : Name) : List ℕ → Flow Vfs (Option ℕ)
  | [] => pure none
  | i :: rest => do
    loadDirentry addrs i
    let s ← get
    if hasString s.iobuffer (i % oneBlockDirentrys * direntrySize + 4) name then pure (some i)
    else findDirentry addrs name rest

def direntryInum (b : ℕ → UInt8) (i : ℕ) : ℤ := load32 b (i % oneBlockDirentrys * direntrySize)

def rfsLookup (parent : ℕ) (name : Name) : Flow Vfs (Option ℕ) := do
  let p ← getVinode parent
  match ← findDirentry p.addrs name (List.range (totalDirentrys p.size)) with
  | none => pure none
  | some i => do
    let s ← get
    let v ← rfsAllocVinode (direntryInum s.iobuffer i)
    rfsUpdateVinode v
    pure (some v)

def findFreeDinode : List ℕ → Flow Vfs (Option (ℕ × Dinode))
  | [] => pure none
  | i :: rest => do
    let d ← rfsReadDinode i
    if d.type = rFree then pure (some (i, d)) else findFreeDinode rest

/-- The inode and the first block that `rfs_create` and `rfs_mkdir` take for what they make. Without a free inode
the loop in the source goes on with a page that it has given back. -/
def takeDinode (type blocks : ℤ) : Flow Vfs ℤ := do
  match ← findFreeDinode (List.range ninodes) with
  | none => undef
  | some (i, d) => do
    let block ← rfsAllocBlock
    rfsWriteDinode ⟨0, type, 1, blocks, update d.addrs 0 block⟩ i
    pure i

def rfsCreate (parent : ℕ) (name : Name) : Flow Vfs (Option ℕ) := do
  let i ← takeDinode fileI 0
  let v ← rfsAllocVinode i
  rfsUpdateVinode v
  if (← rfsAddDirentry parent name i) = -1 then pure none else pure (some v)

def rfsMkdir (parent : ℕ) (name : Name) : Flow Vfs (Option ℕ) := do
  let i ← takeDinode dirI 1
  if (← rfsAddDirentry parent name i) = -1 then pure none
  else do
    let v ← rfsAllocVinode i
    rfsUpdateVinode v
    pure (some v)

def rfsLink (parent : ℕ) (name : Name) (node : ℕ) : Flow Vfs ℤ := do
  let i ← getVinode node
  setVinode node { i with nlinks := i.nlinks + 1 }
  let _ ← rfsAddDirentry parent name i.inum
  rfsWriteBackVinode node
  pure 0

/-- The first half of `rfs_unlink`: one link less, and no inode without links. -/
def dropLink (node : ℕ) (inum : ℤ) : Flow Vfs Unit := do
  let d ← rfsReadDinode inum
  let i ← getVinode node
  if i.nlinks ≠ d.nlinks then halt
  else do
    setVinode node { i with nlinks := i.nlinks - 1 }
    if i.nlinks - 1 = 0 then do
      each (fun k : ℕ => do rfsFreeBlock (← addrAt d.addrs k)) (List.range d.blocks.toNat)
      rfsWriteDinode { d with nlinks := 0, type := rFree } inum
    else rfsWriteDinode { d with nlinks := i.nlinks - 1 } inum

def shiftDirentrys (b : ℕ → UInt8) (o : ℕ) : ℕ → UInt8 :=
  fun x => if o * direntrySize ≤ x ∧ x < (oneBlockDirentrys - 1) * direntrySize then b (x + direntrySize) else b x

def withLast (buffer previous block : ℕ → UInt8) : ℕ → UInt8 :=
  fun x => if x < (oneBlockDirentrys - 1) * direntrySize then previous x
    else if x < rfsBlksize then block (x - (oneBlockDirentrys - 1) * direntrySize) else buffer x

/-- Move the entries of the blocks from `i` on forward by one; `previous` is the block before. -/
def shiftBlocks (addrs : Fin 10 → ℤ) (previous : ℕ → UInt8) : List ℕ → Flow Vfs (ℕ → UInt8)
  | [] => pure previous
  | i :: rest => do
    rfsR1block (← addrAt addrs i)
    let block := (← get).iobuffer
    modify fun s => { s with iobuffer := withLast s.iobuffer previous block }
    rfsW1block (← addrAt addrs (i - 1 : ℕ))
    shiftBlocks addrs (shiftDirentrys block 0) rest

/-- The second half of `rfs_unlink`: entry `k` goes. -/
def removeDirentry (parent : ℕ) (k : ℕ) : Flow Vfs Unit := do
  let p ← getVinode parent
  rfsR1block (← addrAt p.addrs (k / oneBlockDirentrys : ℕ))
  let first := shiftDirentrys (← get).iobuffer (k % oneBlockDirentrys)
  let last ← shiftBlocks p.addrs first
    ((List.range p.blocks.toNat).drop (k / oneBlockDirentrys + 1))
  modify fun s => { s with iobuffer := fun x => if x < rfsBlksize then last x else s.iobuffer x }
  let final ← addrAt p.addrs (p.blocks - 1)
  rfsW1block final
  if (totalDirentrys p.size - 1) % oneBlockDirentrys = 0 ∧ 1 < p.blocks then do
    rfsFreeBlock final
    setVinode parent { p with blocks := p.blocks - 1, size := p.size - direntrySize }
    rfsWriteBackVinode parent
  else do
    setVinode parent { p with size := p.size - direntrySize }
    rfsWriteBackVinode parent

def rfsUnlink (parent : ℕ) (name : Name) (node : ℕ) : Flow Vfs ℤ := do
  let p ← getVinode parent
  -- without entries `p_direntry` is still NULL when it is followed
  if totalDirentrys p.size = 0 then undef
  else do
    match ← findDirentry p.addrs name (List.range (totalDirentrys p.size)) with
    | none => pure (-1)
    | some k => do
      let s ← get
      dropLink node (direntryInum s.iobuffer k)
      removeDirentry parent k
      pure 0

def readBlock (v : Vinode) (k : ℤ) (o n : ℕ) : Flow Vfs (List UInt8) := do
  rfsR1block (← addrAt v.addrs k)
  let s ← get
  pure (slice s.iobuffer o n)

def readBlocks (v : Vinode) : ℕ → ℤ → Flow Vfs (List UInt8)
  | 0, _ => pure []
  | n + 1, k => do
    let head ← readBlock v k 0 rfsBlksize
    let rest ← readBlocks v n (k + 1)
    pure (head ++ rest)

/-- The tail of `rfs_read` behind the first block. -/
def readRest (v : Vinode) (readtimes : ℤ) (remain : ℕ) (k : ℤ) : Flow Vfs (List UInt8) :=
  if readtimes < 0 then pure []
  else do
    let whole ← readBlocks v readtimes.toNat k
    if 0 < remain then do
      let last ← readBlock v (k + readtimes) 0 remain
      pure (whole ++ last)
    else pure whole

/-- The bytes in `buffer` and how many; the caller gets them through `strcpy`. -/
def rfsRead (f : Vinode) (len offset : ℤ) : Flow Vfs (List UInt8 × ℤ) :=
  if f.size < offset then leave
  else
    let len := if f.size < offset + len then f.size - offset else len
    let align := offset.tmod rfsBlksize
    let readtimes := (align + len).tdiv rfsBlksize
    if align < 0 ∨ len < 0 then undef
    else do
      let first ← readBlock f (offset.tdiv rfsBlksize) align.toNat
        (if readtimes = 0 then len else rfsBlksize - align).toNat
      let rest ← readRest f (readtimes - 1) ((align + len).tmod rfsBlksize).toNat (offset.tdiv rfsBlksize + 1)
      pure (first ++ rest, len)

def growTo (f : ℕ) (k : ℤ) : Flow Vfs Unit := do
  let i ← getVinode f
  if k = i.blocks then do
    let n ← rfsAllocBlock
    if h : 0 ≤ k ∧ k < 10 then
      setVinode f { i with addrs := update i.addrs ⟨k.toNat, by omega⟩ n, blocks := i.blocks + 1 }
    else undef
  else pure ()

/-- Write at the start of the block with index `k`; the rest of the block is what the buffer held before. -/
def writeBlock (f : ℕ) (k : ℤ) (data : List UInt8) : Flow Vfs Unit := do
  growTo f k
  modify fun s => { s with iobuffer := putBytes s.iobuffer 0 data }
  let i ← getVinode f
  rfsW1block (← addrAt i.addrs k)

def writeBlocks (f : ℕ) : ℕ → ℤ → List UInt8 → Flow Vfs Unit
  | 0, k, data => if data = [] then pure () else writeBlock f k data
  | n + 1, k, data => do
    writeBlock f k (data.take rfsBlksize)
    writeBlocks f n (k + 1) (data.drop rfsBlksize)

/-- The first block of `rfs_write`, when the offset is inside of it. -/
def writeInside (f : ℕ) (k : ℤ) (align : ℕ) (data : List UInt8) : Flow Vfs Unit := do
  let i ← getVinode f
  rfsR1block (← addrAt i.addrs k)
  modify fun s => { s with iobuffer := putBytes s.iobuffer align data }
  rfsW1block (← addrAt i.addrs k)

def rfsWrite (f : ℕ) (data : List UInt8) (offset : ℤ) : Flow Vfs ℤ := do
  let i ← getVinode f
  if i.size < offset then leave
  else do
    writeData f data offset
    let i ← getVinode f
    setVinode f { i with size := if i.size < offset + data.length then offset + data.length else i.size }
    pure data.length
where
  writeData (f : ℕ) (data : List UInt8) (offset : ℤ) : Flow Vfs Unit :=
    let align := offset.tmod rfsBlksize
    let k := offset.tdiv rfsBlksize
    let writetimes := (align.toNat + data.length) / rfsBlksize
    if align < 0 then undef
    else if align = 0 then writeBlocks f writetimes k data
    else if writetimes = 0 then writeInside f k align.toNat data
    else do
      writeInside f k align.toNat (data.take (rfsBlksize - align.toNat))
      writeBlocks f (writetimes - 1) (k + 1) (data.drop (rfsBlksize - align.toNat))

def rfsLseek (f : Vinode) (newOffset whence offset : ℤ) : Option ℤ :=
  if whence = 0 then if newOffset < 0 ∨ f.size < newOffset then none else some newOffset
  else if whence = 1 then
    if offset + newOffset < 0 ∨ f.size < offset + newOffset then none else some (offset + newOffset)
  else none

/-- Page `i` of the cache of an opened directory is its block `i`. -/
def readDirBlocks (addrs : Fin 10 → ℤ) (base : ℕ → UInt8) : List ℕ → Flow Vfs (ℕ → UInt8)
  | [] => pure base
  | i :: rest => do
    rfsR1block (← addrAt addrs i)
    let block := (← get).iobuffer
    readDirBlocks addrs
      (fun x => if i * rfsBlksize ≤ x ∧ x < (i + 1) * rfsBlksize then block (x - i * rfsBlksize) else base x) rest

def rfsHookOpendir (v : ℕ) : Flow Vfs Unit := do
  let i ← getVinode v
  let s ← get
  if 1 < i.blocks ∧ s.discontinuous then leave
  else do
    let base ← readDirBlocks i.addrs (fun _ => 0) (List.range i.blocks.toNat).reverse
    let i ← getVinode v
    setVinode v { i with info := .dirCache i.blocks base }

/-- The pages of the cache are given back; `i_fs_info` still points to them. -/
def rfsHookClosedir (v : ℕ) : Flow Vfs Unit := do
  match (← getVinode v).info with
  | .dirCache _ _ => pure ()
  | _ => undef

structure Istat where
  inum : ℤ
  size : ℤ
  type : ℤ
  nlinks : ℤ
  blocks : ℤ
  deriving DecidableEq

def rfsDiskStat (v : ℕ) : Flow Vfs Istat := do
  let i ← getVinode v
  let d ← rfsReadDinode i.inum
  pure ⟨i.inum, d.size, d.type, d.nlinks, d.blocks⟩

/-- The name, with one byte more than it has, and the number of the entry at `offset`, unless there are no more. -/
def rfsReaddir (v : Vinode) (offset : ℤ) : Flow Vfs (Option (List UInt8 × ℤ)) :=
  if totalDirentrys v.size ≤ offset then pure none
  else
    match v.info with
    | .dirCache count base =>
      if offset < 0 ∨ oneBlockDirentrys * count ≤ offset then undef
      else
        let o := offset.toNat * direntrySize
        pure (some (slice base (o + 4) (rfsMaxFileNameLen + 1), load32 base o))
    | _ => undef

def clearDinode (b : ℕ → UInt8) (o : ℕ) : ℕ → UInt8 :=
  store32 (store32 (store32 (store32 b o 0) (o + 4) rFree) (o + 8) 0) (o + 12) 0

/-- `rest` is what the root's inode on the stack has in the fields that are not set. -/
def rfsFormatDev (rest : Fin 10 → ℤ) : Flow Vfs Unit := do
  modify fun s => { s with iobuffer := store32 (store32 (store32 (store32 s.iobuffer 0 0xBEAF) 4 112) 8 100) 12 320 }
  rfsW1block 0
  modify fun s => { s with iobuffer := (List.range 32).foldl (fun b i => clearDinode b (i * 128)) s.iobuffer }
  each (fun k : ℕ => rfsW1block (1 + k)) (List.range 10)
  rfsWriteDinode ⟨0, dirI, 1, 1, update rest 0 rfsBlkOffsetFree⟩ 0
  modify fun s => { s with iobuffer := store32 (fun x => if x < rfsBlksize then 0 else s.iobuffer x) 0 1 }
  rfsW1block rfsBlkOffsetBitmap

end Pke.Files
