import Pke.Lib.Yields
import Pke.Lib.Bytes

/-! The file system's share of the kernel: the RAM disk with its buffer and map of free blocks, the caches of
`vfs.c` and the files of the host. Objects are named by numbers that are never used again; what has been given
back with `free_page` is `none`, and to follow a pointer to it is undefined. -/

namespace Pke.Files

open Lib Flow Function

abbrev Name := List UInt8

abbrev fileI : ℤ := 0
abbrev dirI : ℤ := 1
abbrev rFree : ℤ := 2
abbrev rfsBlksize : ℕ := 4096
abbrev rfsMaxFileNameLen : ℕ := 28
abbrev rfsBlkOffsetBitmap : ℤ := 11
abbrev rfsBlkOffsetFree : ℤ := 12
abbrev ramdiskBlockCount : ℤ := 128
abbrev maxPathLen : ℕ := 30
abbrev direntrySize : ℕ := 32

abbrev oneBlockDirentrys : ℕ := 128

abbrev ninodes : ℕ := 320

instance neZeroDirect : NeZero 10 := ⟨by decide⟩

@[ext]
structure Dinode where
  size : ℤ
  type : ℤ
  nlinks : ℤ
  blocks : ℤ
  addrs : Fin 10 → ℤ
  deriving DecidableEq

inductive FsType where
  | hostfs
  | rfs
  deriving DecidableEq

/-- `i_fs_info`: the blocks of an open directory, or what `spike_file_open` answered. -/
inductive FsInfo where
  | null
  | dirCache (blockCount : ℤ) (base : ℕ → UInt8)
  | handle (h : ℕ)
  | error

structure Vinode extends Dinode where
  inum : ℤ
  ref : ℤ
  info : FsInfo
  sb : FsType

structure Dentry where
  name : Name
  dRef : ℤ
  inode : Option ℕ
  parent : Option ℕ

structure File where
  opened : Bool
  readable : Bool
  writable : Bool
  offset : ℤ
  dentry : ℕ

/-- `spike_file_t`, with the offset that the host keeps for its descriptor. -/
structure Handle where
  ino : ℤ
  offset : ℤ
  refcnt : ℤ

structure HostEntry where
  ino : ℤ
  nlink : ℤ
  blocks : ℤ

/-- The host: the files that can be opened, by path, and where new ones can be made. -/
structure Host where
  entry : Name → Option HostEntry
  data : ℤ → List UInt8
  creatable : Name → Bool
  nextIno : ℤ

structure Vfs where
  disk : ℕ → ℕ → UInt8
  iobuffer : ℕ → UInt8
  nblocks : ℤ
  freemap : ℕ → ℤ
  dentry : ℕ → Option Dentry
  vinode : ℕ → Option Vinode
  file : ℕ → Option File
  handle : ℕ → Option Handle
  next : ℕ
  dentryHash : Option ℕ × Name → Option ℕ
  vinodeHash : FsType × ℤ → Option ℕ
  root : ℕ
  cwd : ℕ → ℕ
  /-- `opened_files` of a process, by the files that were moved there, and `nfiles`. -/
  slots : ℕ → ℕ → Option ℕ
  nfiles : ℕ → ℤ
  host : Host
  /-- Whether `alloc_page` gives out pages that do not follow each other, as `rfs_hook_opendir` needs them. -/
  discontinuous : Bool

def getVinode (v : ℕ) : Flow Vfs Vinode := do
  match (← get).vinode v with
  | some i => pure i
  | none => undef

def setVinode (v : ℕ) (i : Vinode) : Flow Vfs Unit := modify fun s => { s with vinode := update s.vinode v (some i) }

def getDentry (d : ℕ) : Flow Vfs Dentry := do
  match (← get).dentry d with
  | some e => pure e
  | none => undef

def setDentry (d : ℕ) (e : Dentry) : Flow Vfs Unit := modify fun s => { s with dentry := update s.dentry d (some e) }

def getFile (f : ℕ) : Flow Vfs File := do
  match (← get).file f with
  | some e => pure e
  | none => undef

def setFile (f : ℕ) (e : File) : Flow Vfs Unit := modify fun s => { s with file := update s.file f (some e) }

section Reads

variable {s : Vfs} {v d f : ℕ} {i : Vinode} {e : Dentry} {F : File}

lemma getVinode_eq (h : s.vinode v = some i) : getVinode v s = .done i s := by
  rw [getVinode, get_bind, h]
  rfl

lemma getDentry_eq (h : s.dentry d = some e) : getDentry d s = .done e s := by
  rw [getDentry, get_bind, h]
  rfl

lemma getFile_eq (h : s.file f = some F) : getFile f s = .done F s := by
  rw [getFile, get_bind, h]
  rfl

lemma getVinode_yields : yields (getVinode v) (fun i t => s.vinode v = some i ∧ t = s) s := by
  refine yields_get_bind ?_
  cases hv : s.vinode v with
  | none => exact yields_undef
  | some i => exact yields_pure ⟨rfl, rfl⟩

lemma getDentry_yields : yields (getDentry d) (fun e t => s.dentry d = some e ∧ t = s) s := by
  refine yields_get_bind ?_
  cases hd : s.dentry d with
  | none => exact yields_undef
  | some e => exact yields_pure ⟨rfl, rfl⟩

end Reads

def freeVinode (v : ℕ) : Flow Vfs Unit := modify fun s => { s with vinode := update s.vinode v none }
def freeDentry (d : ℕ) : Flow Vfs Unit := modify fun s => { s with dentry := update s.dentry d none }

def deref : Option ℕ → Flow Vfs ℕ
  | some p => pure p
  | none => undef

end Pke.Files
