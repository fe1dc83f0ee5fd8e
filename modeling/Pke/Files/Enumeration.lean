import Pke.Files.DirectoryMaps

/-! Reading a directory. `vfs_opendir` copies its entries into memory, and `vfs_readdir` answers from the last copy that was made,
up to the size that the directory has by then. -/

namespace Pke.Files

open Lib Flow Function

inductive DirStep where
  | create (nm : Name)
  | mkdir (nm : Name)
  | link (nm : Name) (node : ℕ)
  | unlink (nm : Name) (node : ℕ)
  | opendir
  | readdir

namespace DirStep

def perform (v f : ℕ) : DirStep → Flow Vfs (List (Option (List UInt8 × ℤ)))
  | create nm => do
    let _ ← rfsCreate v nm
    pure []
  | mkdir nm => do
    let _ ← rfsMkdir v nm
    pure []
  | link nm node => do
    let _ ← rfsLink v nm node
    pure []
  | unlink nm node => do
    let _ ← rfsUnlink v nm node
    pure []
  | opendir => do
    rfsHookOpendir v
    pure []
  | readdir => do
    let r ← vfsReaddir f
    pure [r]

def Adds : DirStep → Prop
  | create _ | mkdir _ | link _ _ => True
  | unlink _ _ | opendir | readdir => False

end DirStep

lemma Directory.congr {s t : Vfs} {v n blk len : ℕ} {l : List (Name × ℤ)} (h : Directory s v n blk len l) (hv : t.vinode v = s.vinode v)
    (hd : t.disk blk = s.disk blk) : Directory t v n blk len l :=
  ⟨hv ▸ h.vinode, h.inode, h.data, h.fits, hd ▸ h.entries, h.short⟩

structure Reader (s : Vfs) (v f n blk : ℕ) (E l L : List (Name × ℤ)) (k : ℕ) : Prop where
  file : ∃ F e, s.file f = some F ∧ F.offset = k ∧ s.dentry F.dentry = some e ∧ e.inode = some v
  dir : Directory s v n blk l.length l
  copy : ∃ i b, s.vinode v = some i ∧ i.sb = .rfs ∧ i.info = .dirCache 1 b ∧ direntrys b L.length = L
  fewer : l.length ≤ L.length
  size : L.length ≤ 128
  now : l.Sublist E
  copied : L.Sublist E
  short : ∀ e ∈ E, e.1.length < 28

namespace Reader

variable {s t : Vfs} {v f n blk k : ℕ} {E l L : List (Name × ℤ)}

lemma congr (h : Reader s v f n blk E l L k) (hfile : t.file = s.file) (hdentry : t.dentry = s.dentry) (hdisk : t.disk blk = s.disk blk)
    (hv : ∀ i, s.vinode v = some i → ∃ c, t.vinode v = some { i with nlinks := c }) : Reader t v f n blk E l L k := by
  obtain ⟨i, hi, htype, hone, hsize, haddr, hn⟩ := h.dir.vinode
  obtain ⟨i', b, hi', hsb, hinfo, hL⟩ := h.copy
  rw [hi, Option.some.injEq] at hi'
  subst hi'
  obtain ⟨c, hc⟩ := hv i hi
  refine ⟨?_, ?_, ⟨_, b, hc, hsb, hinfo, hL⟩, h.fewer, h.size, h.now, h.copied, h.short⟩
  · rw [hfile, hdentry]
    exact h.file
  · exact ⟨⟨_, hc, htype, hone, hsize, haddr, hn⟩, h.dir.inode, h.dir.data, h.dir.fits, hdisk ▸ h.dir.entries, h.dir.short⟩

def SameFiles (s t : Vfs) : Prop := t.file = s.file ∧ t.dentry = s.dentry

namespace SameFiles

lemma refl (s : Vfs) : SameFiles s s := ⟨rfl, rfl⟩

lemma trans (s t u : Vfs) (h : SameFiles s t) (h' : SameFiles t u) : SameFiles s u := ⟨h'.1.trans h.1, h'.2.trans h.2⟩

lemma rfsR1block {z : ℤ} : Carries SameFiles (rfsR1block z) := .ite .leave (.modify fun _ => ⟨rfl, rfl⟩)

lemma rfsWriteDinode {d : Dinode} {z : ℤ} : Carries SameFiles (rfsWriteDinode d z) := by
  refine .bind trans rfsR1block fun _ => .ite .undef (.bind trans (.modify fun _ => ⟨rfl, rfl⟩) fun _ => ?_)
  exact .ite .leave (.modify fun _ => ⟨rfl, rfl⟩)

lemma freeBlocks (addrs : Fin 10 → ℤ) (l : List ℕ) :
    Carries SameFiles (each (fun k : ℕ => do rfsFreeBlock (← addrAt addrs k)) l) := by
  refine .each_mem refl trans fun k _ => .bind trans ?_ fun _ => .ite .undef (.modify fun _ => ⟨rfl, rfl⟩)
  unfold addrAt
  split_ifs
  · exact .pure refl _
  · exact .undef

lemma dropLink {node : ℕ} {z : ℤ} : Carries SameFiles (dropLink node z) := by
  refine .bind trans (.bind trans rfsR1block fun _ => .ite .undef (.get fun _ => .pure refl _)) fun _ => .bind trans ?_ fun _ => ?_
  · refine .get fun s => ?_
    cases s.vinode node with
    | none => exact .undef
    | some i => exact .pure refl i
  · refine .ite .halt (.bind trans (.modify fun _ => ⟨rfl, rfl⟩) fun _ => .ite (.bind trans (freeBlocks _ _) fun _ => ?_) ?_)
    · exact rfsWriteDinode
    · exact rfsWriteDinode

end SameFiles

end Reader

variable {s t : Vfs} {V : Vol} {p f v n : ℕ} {path : Name}

end Pke.Files
