import Pke.Files.VfsFiles
import Pke.Files.DescriptorTable

/-! The operations on a descriptor that is none: `get_opened_file` looks neither at the range nor at the status. -/

namespace Pke.Files

open Lib Flow Function

inductive FdOp where
  | read (count : ℕ)
  | write (data : List UInt8)
  | lseek (offset whence : ℤ)
  | stat
  | diskStat
  | close
  | readdir
  | closedir

def FdOp.perform (p : ℕ) (fd : ℤ) : FdOp → Flow Vfs ℤ
  | read count => do
    let r ← doRead p fd count
    pure r.2
  | write data => doWrite p fd data
  | lseek offset whence => doLseek p fd offset whence
  | stat => do
    let _ ← doStat p fd
    pure 0
  | diskStat => do
    let _ ← doDiskStat p fd
    pure 0
  | close => doClose p fd
  | readdir => do
    let r ← doReaddir p fd
    pure (if r.isSome then 0 else -1)
  | closedir => doClosedir p fd

def Broken (s : Vfs) (F : File) (i : Vinode) : Prop :=
  i.sb = .hostfs ∧ F.offset = -1 ∧ ∃ h g, i.info = .handle h ∧ s.handle h = some g ∧ g.refcnt = 0

def FdOp.Refused (s : Vfs) (F : File) (i : Vinode) : FdOp → Prop
  | read _ => F.readable = true ∧ (i.type ≠ fileI ∨ Broken s F i)
  | write _ => F.writable = true ∧ (i.type ≠ fileI ∨ Broken s F i)
  | lseek offset whence => i.type ≠ fileI ∨ i.sb = .rfs ∧ rfsLseek i offset whence F.offset = none ∨
      i.sb = .hostfs ∧ F.offset = -1 ∧ ∃ h g, i.info = .handle h ∧ s.handle h = some g ∧
        ∀ o, hostfsLseek.target offset whence s g = some o → g.refcnt = 0 ∨ o < 0
  | stat | diskStat => False
  | close => i.type ≠ fileI
  | readdir => i.type ≠ dirI ∨ i.sb = .rfs ∧ totalDirentrys i.size ≤ F.offset
  | closedir => i.type ≠ dirI

variable {s t : Vfs} {p f v : ℕ} {F : File} {i : Vinode} {op : FdOp} {fd z : ℤ}

section Rejected

variable {out : Outcome Vfs ℤ}

end Rejected

def attach {α : Type} (f : ℕ) (g : File → ℕ → Vinode → Flow Vfs α) : Flow Vfs α := do
  let F ← getFile f
  let v ← fileInode F
  let i ← getVinode v
  g F v i

section Handles

variable {h : ℕ} {g : Handle}

variable (hi : i.info = .handle h) (hg : s.handle h = some g)
include hi hg

end Handles

section Lseek

variable {offset whence : ℤ} {h : ℕ} {g : Handle} (hi : i.info = .handle h) (hg : s.handle h = some g)
include hi hg

end Lseek

end Pke.Files
