import Pke.Files.RfsEffects
import Pke.Files.VolumeNames

namespace Pke.Files

open Lib Flow Function

structure Shows (s : Vfs) (h : ℕ → Option ℕ) (V : Vol) : Prop where
  node : ∀ n < ninodes, dnode s.disk n = V.node n
  dir : ∀ n, V.IsDir n → direntrys (s.disk ((V.node n).addrs 0).toNat) (V.dir n).length = V.dir n
  used : ∀ b : ℕ, ((12 + b : ℕ) : ℤ) ∈ V.used ↔ b < 100 ∧ s.freemap b ≠ 0
  nblocks : s.nblocks = 100
  held : ∀ n v, h n = some v → ∃ i, s.vinode v = some i ∧ i.inum = n ∧ i.sb = .rfs ∧
    V.cached n = some i.toDinode ∧ i.toDinode.Fits
  clear : ∀ n, h n = none → V.cached n = none

def Vinode.mark (i : Vinode) : ℤ × ℤ × FsType := (i.type, i.inum, i.sb)

def Vinode.tag (i : Vinode) : (ℤ × ℤ × FsType) × ℤ × FsInfo := (i.mark, i.ref, i.info)

structure SameCaches (s t : Vfs) : Prop where
  dentry : t.dentry = s.dentry
  file : t.file = s.file
  dentryHash : t.dentryHash = s.dentryHash
  vinodeHash : t.vinodeHash = s.vinodeHash
  root : t.root = s.root
  cwd : t.cwd = s.cwd
  tag : ∀ x < s.next, (t.vinode x).map Vinode.tag = (s.vinode x).map Vinode.tag

section Fits

variable {c : Dinode} {z : ℤ}

lemma Dinode.fits_of (hs : -2 ^ 31 ≤ c.size ∧ c.size < 2 ^ 31) (ht : -2 ^ 31 ≤ c.type ∧ c.type < 2 ^ 31)
    (hl : -2 ^ 31 ≤ c.nlinks ∧ c.nlinks < 2 ^ 31) (hb : -2 ^ 31 ≤ c.blocks ∧ c.blocks < 2 ^ 31)
    (ha : ∀ i, -2 ^ 31 ≤ c.addrs i ∧ c.addrs i < 2 ^ 31) : c.Fits := by
  intro k
  match k with
  | 0 => exact hs
  | 1 => exact ht
  | 2 => exact hl
  | 3 => exact hb
  | k + 4 =>
    by_cases hk : k < 10
    · rw [Dinode.word, dif_pos hk]
      exact ha ⟨k, hk⟩
    · rw [Dinode.word, dif_neg hk]
      norm_num

lemma Dinode.Fits.addrs (h : c.Fits) (i : Fin 10) : -2 ^ 31 ≤ c.addrs i ∧ c.addrs i < 2 ^ 31 := by
  have hi := h (i + 4)
  rwa [Dinode.word, dif_pos i.isLt] at hi

lemma Dinode.Fits.withSize (h : c.Fits) (hz : -2 ^ 31 ≤ z ∧ z < 2 ^ 31) : ({ c with size := z } : Dinode).Fits :=
  fits_of hz (h 1) (h 2) (h 3) h.addrs

lemma Dinode.Fits.withNlinks (h : c.Fits) (hz : -2 ^ 31 ≤ z ∧ z < 2 ^ 31) : ({ c with nlinks := z } : Dinode).Fits :=
  fits_of (h 0) (h 1) hz (h 3) h.addrs

end Fits

namespace Shows

variable {s t : Vfs} {h : ℕ → Option ℕ} {V : Vol} {d k n v w len blk : ℕ} {i : Vinode} {nm : Name}
  {l : List (Name × ℤ)} {new : Dinode} {o : Option Dinode} {used : Set ℤ}

lemma held_inj (hs : Shows s h V) (hn : h n = some v) (hk : h k = some v) : n = k := by
  obtain ⟨i, hi, hin, -⟩ := hs.held n v hn
  obtain ⟨j, hj, hjk, -⟩ := hs.held k v hk
  rw [hi, Option.some.injEq] at hj
  rw [← hj, hin] at hjk
  exact_mod_cast hjk

lemma dir_block (hV : V.Ok) (hd : V.IsDir d) :
    ∃ blk : ℕ, (V.node d).addrs 0 = blk ∧ 12 ≤ blk ∧ blk < 112 ∧ V.Holds d 0 blk := by
  have hholds : V.Holds d 0 ((V.node d).addrs 0) := by
    refine ⟨hd.live, ?_, ?_⟩
    · rw [hV.tree.cur_dir hd, (hV.tree.isDir d hd).1]
      norm_num
    · rw [hV.tree.cur_dir hd]
  have hin := hV.range (hV.blocks.taken hholds)
  rw [Set.mem_Ico] at hin
  obtain ⟨blk, hblk⟩ := Int.eq_ofNat_of_zero_le (by omega : 0 ≤ (V.node d).addrs 0)
  rw [hblk] at hin hholds
  exact ⟨blk, hblk, by omega, by omega, hholds⟩

lemma dir_vinode (hs : Shows s h V) (hV : V.Ok) (hd : V.IsDir d) (hv : h d = some v) :
    ∃ i, s.vinode v = some i ∧ i.inum = d ∧ i.sb = .rfs ∧ i.toDinode = V.node d := by
  obtain ⟨i, hi, hin, hsb, hc, -⟩ := hs.held d v hv
  exact ⟨i, hi, hin, hsb, (hV.tree.cached d _ hc).2.dir hd.2⟩

lemma dir_entries (hs : Shows s h V) (hd : V.IsDir d) (hblk : (V.node d).addrs 0 = blk) :
    direntrys (s.disk blk) (V.dir d).length = V.dir d := by
  have hdir := hs.dir d hd
  rwa [hblk, Int.toNat_natCast] at hdir

lemma dir_string (hs : Shows s h V) (hd : V.IsDir d) {inum : ℤ} (he : (nm, inum) ∈ V.dir d) : (0 : UInt8) ∉ nm := by
  rw [← hs.dir d hd, direntrys, List.mem_map] at he
  obtain ⟨x, -, hx⟩ := he
  have hname := congrArg Prod.fst hx
  change readString _ _ _ = nm at hname
  exact hname ▸ zero_notMem_readString

lemma dir_short (hs : Shows s h V) (hV : V.Ok) (hd : V.IsDir d) (hblk : (V.node d).addrs 0 = blk) {x : ℕ}
    (hx : x < (V.dir d).length) : direntry (s.disk blk) x ∈ V.dir d ∧ (direntry (s.disk blk) x).1.length < 28 := by
  have hmem : direntry (s.disk blk) x ∈ V.dir d := by
    have hget := direntrys_get (b := s.disk blk) hx
    rw [hs.dir_entries hd hblk] at hget
    exact List.mem_of_getElem? hget
  exact ⟨hmem, (hV.tree.entry d hd _ hmem).1⟩

lemma find (hs : Shows s h V) (hV : V.Ok) (hd : V.IsDir d) (hi : i.toDinode = V.node d) (hz : (0 : UInt8) ∉ nm) :
    (nm ∉ (V.dir d).map Prod.fst ∧ ∃ io, findDirentry i.addrs nm (List.range (totalDirentrys i.size)) s =
        .done none { s with iobuffer := io }) ∨
      ∃ j k, k ∈ V.live ∧ 0 < k ∧ (V.dir d)[j]? = some (nm, (k : ℤ)) ∧ ∃ io,
        findDirentry i.addrs nm (List.range (totalDirentrys i.size)) s = .done (some j) { s with iobuffer := io } ∧
          direntryInum io j = k := by
  obtain ⟨blk, hblk, -, hlt, -⟩ := dir_block hV hd
  obtain ⟨hone, -, hsize, hlen⟩ := hV.tree.isDir d hd
  have haddr : i.addrs 0 = blk := by rw [hi, hblk]
  have htotal : totalDirentrys i.size = (V.dir d).length := totalDirentrys_eq (by rw [hi, hsize])
  obtain ⟨io, hfind, hio⟩ := findDirentry_eq (s := s) haddr (by omega) hz hlen
    (fun x hx => (hs.dir_short hV hd hblk hx).2)
  rw [htotal, hfind]
  obtain ⟨hsome, hnone⟩ := find_direntry (b := s.disk blk) (k := (V.dir d).length) rfl
  rw [hs.dir_entries hd hblk] at hsome hnone
  cases hr : (List.range (V.dir d).length).find? fun x => decide ((direntry (s.disk blk) x).1 = nm) with
  | none => exact .inl ⟨hnone hr, io, rfl⟩
  | some j =>
    obtain ⟨hj, hget⟩ := hsome j hr
    obtain ⟨-, k, hk, hpos, hlive⟩ := hV.tree.entry d hd _ (List.mem_of_getElem? hget)
    change (direntry (s.disk blk) j).2 = k at hk
    rw [hk] at hget
    refine .inr ⟨j, k, hlive, hpos, hget, io, rfl, ?_⟩
    have hmod : j % oneBlockDirentrys * direntrySize = j * 32 := by
      change j % 128 * 32 = j * 32
      rw [Nat.mod_eq_of_lt (by omega)]
    rw [direntryInum, hmod, ← hk]
    apply load32_congr
    intro x hx
    exact hio (by rw [hr]; rfl) _ (by omega)

lemma lookup (hs : Shows s h V) (hV : V.Ok) (hd : V.IsDir d) (hv : h d = some v) (hz : (0 : UInt8) ∉ nm) :
    (nm ∉ (V.dir d).map Prod.fst ∧ ∃ io, rfsLookup v nm s = .done none { s with iobuffer := io }) ∨
      ∃ k, k ∈ V.live ∧ 0 < k ∧ (nm, (k : ℤ)) ∈ V.dir d ∧ ∃ io, rfsLookup v nm s = .done (some s.next) { s with
        vinode := update s.vinode s.next (some ⟨V.node k, k, 0, .null, .rfs⟩), next := s.next + 1, iobuffer := io } := by
  obtain ⟨i, hi, -, -, hnode⟩ := hs.dir_vinode hV hd hv
  rw [rfsLookup, bind_done (getVinode_eq hi)]
  rcases hs.find hV hd hnode hz with ⟨hno, io, hio⟩ | ⟨j, k, hlive, hpos, hget, io, hio, hnum⟩
  · rw [bind_done hio]
    exact .inl ⟨hno, io, rfl⟩
  · rw [bind_done hio]
    refine .inr ⟨k, hlive, hpos, List.mem_of_getElem? hget, ?_⟩
    obtain ⟨io', hio'⟩ := alloc_and_update (s := { s with iobuffer := io }) hlive.1
    refine ⟨io', ?_⟩
    change (do let w ← rfsAllocVinode (direntryInum io j); rfsUpdateVinode w; pure (some w) : Flow Vfs (Option ℕ))
      { s with iobuffer := io } = _
    rw [hnum, hio' (fun w => pure (some w)), ← hs.node k hlive.1]
    rfl

lemma relist (hs : Shows s h V) (hV : V.Ok) (hd : V.IsDir d) (hv : h d = some v) (hi : s.vinode v = some i)
    (hk : k < ninodes) (htype : (V.node k).type ≠ dirI) (hblk : (V.node d).addrs 0 = blk)
    (hdir : direntrys (t.disk blk) l.length = l) (hblocks : ∀ b, 12 ≤ b → b ≠ blk → t.disk b = s.disk b)
    (hnd : dnode t.disk d = V.withLength d l.length) (hnk : dnode t.disk k = new)
    (hno : ∀ n < ninodes, n ≠ d → n ≠ k → dnode t.disk n = dnode s.disk n)
    (hused : ∀ b : ℕ, ((12 + b : ℕ) : ℤ) ∈ used ↔ b < 100 ∧ t.freemap b ≠ 0) (hnb : t.nblocks = 100)
    (hvd : t.vinode v = some { i with toDinode := V.withLength d l.length })
    (hvo : ∀ n x, n ≠ d → n ≠ k → h n = some x → t.vinode x = s.vinode x) {x : Option ℕ}
    (hx : o = none ∧ x = none ∨ ∃ y j, x = some y ∧ o = some j.toDinode ∧ t.vinode y = some j ∧ j.inum = k ∧
      j.sb = .rfs ∧ j.toDinode.Fits) :
    Shows t (update h k x) (V.relist d k l new o used) := by
  have hdiff : Vol.Differs V (V.relist d k l new o used) d k := Vol.relist_differs hd hk htype
  have hne := hdiff.ne
  refine ⟨?_, ?_, hused, hnb, ?_, ?_⟩
  · intro n hn
    rw [Vol.relist_node]
    by_cases hnd' : n = d
    · subst hnd'
      rw [update_self, hnd]
    · rw [update_of_ne hnd']
      by_cases hnk' : n = k
      · subst hnk'
        rw [update_self, hnk]
      · rw [update_of_ne hnk', hno n hn hnd' hnk', hs.node n hn]
  · intro n hn
    by_cases hnd' : n = d
    · subst hnd'
      rw [Vol.relist_dir_self, hdiff.node]
      change direntrys (t.disk ((V.node n).addrs 0).toNat) l.length = l
      rw [hblk, Int.toNat_natCast, hdir]
    · by_cases hnk' : n = k
      · subst hnk'
        rw [hdiff.empty hn.2]
        rfl
      · obtain ⟨hnode, -, hents⟩ := hdiff.other n hnd' hnk'
        have hn' : V.IsDir n := ⟨hn.1, by rw [← hnode]; exact hn.2⟩
        obtain ⟨b, hb, hlow, -, hholds⟩ := dir_block hV hn'
        obtain ⟨b', hb', -, -, hholds'⟩ := dir_block hV hd
        -- two directories have different blocks
        have hbne : b ≠ blk := by
          rintro rfl
          rw [hblk] at hb'
          rw [← hb'] at hholds'
          exact hnd' (hV.blocks.own hholds hholds').1
        rw [hnode, hents, hb, Int.toNat_natCast, hblocks b hlow hbne]
        exact hs.dir_entries hn' hb
  · intro n y hy
    by_cases hnk' : n = k
    · subst hnk'
      rw [update_self] at hy
      rcases hx with ⟨-, hx⟩ | ⟨y', j, hx, hoj, hj, hnum, hsb, hfits⟩
      · rw [hx] at hy
        cases hy
      · rw [hx, Option.some.injEq] at hy
        subst hy
        exact ⟨j, hj, hnum, hsb, (Vol.relist_cached_self hne).trans hoj, hfits⟩
    · rw [update_of_ne hnk'] at hy
      by_cases hnd' : n = d
      · subst hnd'
        rw [hv, Option.some.injEq] at hy
        subst hy
        obtain ⟨i', hi', hnum, hsb, -, -⟩ := hs.held n v hv
        rw [hi, Option.some.injEq] at hi'
        subst hi'
        refine ⟨_, hvd, hnum, hsb, ?_, ?_⟩
        · rw [Vol.relist_cached, update_self]
        · rw [← hnd]
          exact dnode_fits _ _
      · obtain ⟨i', hi', hnum, hsb, hc, hfits⟩ := hs.held n y hy
        refine ⟨i', (hvo n y hnd' hnk' hy).trans hi', hnum, hsb, ?_, hfits⟩
        rw [(hdiff.other n hnd' hnk').2.1, hc]
  · intro n hy
    by_cases hnk' : n = k
    · subst hnk'
      rw [update_self] at hy
      rcases hx with ⟨ho, -⟩ | ⟨y', j, hx, -⟩
      · exact (Vol.relist_cached_self hne).trans ho
      · rw [hx] at hy
        cases hy
    · rw [update_of_ne hnk'] at hy
      have hnd' : n ≠ d := by
        rintro rfl
        rw [hv] at hy
        cases hy
      rw [(hdiff.other n hnd' hnk').2.1]
      exact hs.clear n hy

end Shows

end Pke.Files
