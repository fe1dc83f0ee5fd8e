import Pke.Files.FileWrites

namespace Pke.Files

open Lib Flow Function

section Programs

variable (adr : Access)

def readBlockBy (v : Vinode) (k : ℤ) (o n : ℕ) : Flow Vfs (List UInt8) := do
  rfsR1block (← adr v k)
  let s ← get
  pure (slice s.iobuffer o n)

def readBlocksBy (v : Vinode) : ℕ → ℤ → Flow Vfs (List UInt8)
  | 0, _ => pure []
  | n + 1, k => do
    let head ← readBlockBy adr v k 0 rfsBlksize
    let rest ← readBlocksBy v n (k + 1)
    pure (head ++ rest)

def readRestBy (v : Vinode) (readtimes : ℤ) (remain : ℕ) (k : ℤ) : Flow Vfs (List UInt8) :=
  if readtimes < 0 then pure []
  else do
    let whole ← readBlocksBy adr v readtimes.toNat k
    if 0 < remain then do
      let last ← readBlockBy adr v (k + readtimes) 0 remain
      pure (whole ++ last)
    else pure whole

def rfsReadBy (f : Vinode) (len offset : ℤ) : Flow Vfs (List UInt8 × ℤ) :=
  if f.size < offset then leave
  else
    let len := if f.size < offset + len then f.size - offset else len
    let align := offset.tmod rfsBlksize
    let readtimes := (align + len).tdiv rfsBlksize
    if align < 0 ∨ len < 0 then undef
    else do
      let first ← readBlockBy adr f (offset.tdiv rfsBlksize) align.toNat
        (if readtimes = 0 then len else rfsBlksize - align).toNat
      let rest ← readRestBy adr f (readtimes - 1) ((align + len).tmod rfsBlksize).toNat (offset.tdiv rfsBlksize + 1)
      pure (first ++ rest, len)

end Programs

lemma readBlocksBy_any (v : Vinode) : ∀ n k, readBlocksBy anyAddr v n k = readBlocks v n k := by
  intro n
  induction n with
  | zero => exact fun _ => rfl
  | succ n ih =>
    intro k
    rw [readBlocksBy, readBlocks, ih]
    rfl

lemma rfsReadBy_any (f : Vinode) (len offset : ℤ) : rfsReadBy anyAddr f len offset = rfsRead f len offset := by
  have hrest : readRestBy anyAddr f = readRest f := by
    funext readtimes remain k
    rw [readRestBy, readRest, readBlocksBy_any]
    rfl
  rw [rfsReadBy, rfsRead, hrest]
  rfl

variable {s : Vfs} {w k n o : ℕ} {i : Vinode} {adr : Access}

lemma Stored.buffer (hs : Stored s w i) (io : ℕ → UInt8) : Stored { s with iobuffer := io } w i :=
  ⟨hs.vinode, hs.nblocks, hs.nonneg, hs.owns, hs.size⟩

def Vfs.bytes (s : Vfs) (i : Vinode) (o n : ℕ) : List UInt8 := slice (Space.byte s.disk (s.space i)) o n

lemma Vfs.bytes_append {m : ℕ} : s.bytes i o m ++ s.bytes i (o + m) n = s.bytes i o (m + n) := by
  rw [Vfs.bytes, Vfs.bytes, Vfs.bytes, slice, slice, slice, List.range_add, List.map_append, List.map_map]
  simp only [Function.comp_def, Nat.add_assoc]

lemma readBlockBy_done (hadr : adr.Good) (hs : Stored s w i) (hk : k < (s.space i).blocks) (hn : o + n ≤ 4096) :
    ∃ io, readBlockBy adr i k o n s = .done (s.bytes i (4096 * k + o) n) { s with iobuffer := io } := by
  have h10 : k < 10 := by
    have := hs.owns.le
    omega
  have hkb : (k : ℤ) < i.blocks := by
    rw [← s.space_blocks hs.nonneg]
    exact_mod_cast hk
  have haddr : i.addrs ⟨k, h10⟩ = ((s.space i).num k : ℕ) := hs.owns.addrs_num hk h10
  refine ⟨overlay (s.disk ((s.space i).num k)) s.iobuffer, ?_⟩
  rw [readBlockBy, bind_done (hadr i s k h10 hkb), haddr, bind_done (rfsR1block_eq (hs.owns.num_lt hk)), get_bind]
  change Outcome.done (slice (overlay (s.disk ((s.space i).num k)) s.iobuffer) o n) _ = _
  congr 1
  rw [Vfs.bytes, slice, slice, List.map_inj_left]
  intro x hx
  rw [List.mem_range] at hx
  have hdiv : (4096 * k + o + x) / 4096 = k := by omega
  have hmod : (4096 * k + o + x) % 4096 = o + x := by omega
  rw [overlay_apply (by omega), Space.byte, hdiv, hmod]

lemma readBlocksBy_done (hadr : adr.Good) (hs : Stored s w i) (hk : k + n ≤ (s.space i).blocks) :
    ∃ io, readBlocksBy adr i n k s = .done (s.bytes i (4096 * k) (4096 * n)) { s with iobuffer := io } := by
  induction n generalizing s k with
  | zero => exact ⟨s.iobuffer, rfl⟩
  | succ n ih =>
    have hlt : k < (s.space i).blocks := by omega
    obtain ⟨io, hfirst⟩ := readBlockBy_done (o := 0) (n := 4096) hadr hs hlt le_rfl
    obtain ⟨io', hrest⟩ := ih (k := k + 1) (hs.buffer io) (by change k + 1 + n ≤ (s.space i).blocks; omega)
    refine ⟨io', ?_⟩
    rw [readBlocksBy, bind_done hfirst]
    push_cast at hrest
    rw [bind_done hrest]
    change Outcome.done (s.bytes i (4096 * k) 4096 ++ s.bytes i (4096 * k + 4096) (4096 * n)) _ = _
    rw [Vfs.bytes_append, Nat.mul_succ, Nat.add_comm]

lemma readRestBy_done (hadr : adr.Good) (hs : Stored s w i) (hn : n < 4096) {m : ℕ}
    (hk : 4096 * (k + m) + n ≤ 4096 * (s.space i).blocks) :
    ∃ io, readRestBy adr i m n k s = .done (s.bytes i (4096 * k) (4096 * m + n)) { s with iobuffer := io } := by
  obtain ⟨io, hwhole⟩ := readBlocksBy_done (k := k) (n := m) hadr hs (by omega)
  rw [readRestBy, if_neg (by omega), Int.toNat_natCast, bind_done hwhole]
  by_cases hpos : 0 < n
  · obtain ⟨io', hlast⟩ := readBlockBy_done (k := k + m) (o := 0) (n := n) hadr (hs.buffer io)
      (by change k + m < (s.space i).blocks; omega) (by omega)
    refine ⟨io', ?_⟩
    push_cast at hlast
    rw [if_pos hpos, bind_done hlast]
    change Outcome.done (s.bytes i (4096 * k) (4096 * m) ++ s.bytes i (4096 * (k + m)) n) _ = _
    rw [Nat.mul_add 4096 k m, Vfs.bytes_append]
  · have hzero : n = 0 := by omega
    subst hzero
    exact ⟨io, by rw [if_neg (lt_irrefl 0)]; rfl⟩

def Vinode.within (i : Vinode) (o len : ℕ) : ℕ := min len (i.size.toNat - o)

lemma rfsReadBy_done (hadr : adr.Good) (hs : Stored s w i) (ho : (o : ℤ) ≤ i.size)
    (hlast : o < 4096 * (s.space i).blocks) (len : ℕ) :
    ∃ io, rfsReadBy adr i len o s = .done (s.bytes i o (i.within o len), i.within o len) { s with iobuffer := io } := by
  have hsize := hs.size
  have hblocks := s.space_blocks hs.nonneg
  have hwithin : o + i.within o len ≤ i.size.toNat := by
    rw [Vinode.within]
    omega
  have hlen : (if i.size < (o : ℤ) + len then i.size - o else len) = (i.within o len : ℕ) := by
    rw [Vinode.within]
    split_ifs <;> omega
  have hdiv : (o : ℤ).tdiv rfsBlksize = (o / 4096 : ℕ) := Int.tdiv_eq_ediv_of_nonneg (by omega)
  have hmod : (o : ℤ).tmod rfsBlksize = (o % 4096 : ℕ) := Int.tmod_eq_emod_of_nonneg (by omega)
  rw [rfsReadBy, if_neg (by omega), hlen, hdiv, hmod, if_neg (by omega)]
  generalize i.within o len = n at hwithin
  have hdiv' : ((o % 4096 : ℕ) + (n : ℤ)).tdiv rfsBlksize = ((o % 4096 + n) / 4096 : ℕ) :=
    (Int.tdiv_eq_ediv_of_nonneg (by omega)).trans (by push_cast; rfl)
  have hmod' : ((o % 4096 : ℕ) + (n : ℤ)).tmod rfsBlksize = ((o % 4096 + n) % 4096 : ℕ) :=
    (Int.tmod_eq_emod_of_nonneg (by omega)).trans (by push_cast; rfl)
  rw [hdiv', hmod', Int.toNat_natCast, Int.toNat_natCast]
  have hstart : 4096 * (o / 4096) + o % 4096 = o := by omega
  by_cases hone : (o % 4096 + n) / 4096 = 0
  · obtain ⟨io, hfirst⟩ := readBlockBy_done (k := o / 4096) (o := o % 4096) (n := n) hadr hs (by omega) (by omega)
    refine ⟨io, ?_⟩
    rw [if_pos (by omega), Int.toNat_natCast, bind_done hfirst, hone, readRestBy, if_pos (by omega), hstart]
    change Outcome.done (s.bytes i o n ++ [], _) _ = _
    rw [List.append_nil]
  · obtain ⟨io, hfirst⟩ := readBlockBy_done (k := o / 4096) (o := o % 4096) (n := 4096 - o % 4096) hadr hs (by omega) (by omega)
    obtain ⟨io', hrest⟩ := readRestBy_done (k := o / 4096 + 1) (m := (o % 4096 + n) / 4096 - 1) (n := (o % 4096 + n) % 4096)
      hadr (hs.buffer io) (by omega) (by change _ ≤ 4096 * (s.space i).blocks; omega)
    refine ⟨io', ?_⟩
    have hfull : (rfsBlksize - ((o % 4096 : ℕ) : ℤ)).toNat = 4096 - o % 4096 := by
      change ((4096 : ℤ) - ((o % 4096 : ℕ) : ℤ)).toNat = _
      omega
    have htimes : (((o % 4096 + n) / 4096 : ℕ) : ℤ) - 1 = (((o % 4096 + n) / 4096 - 1 : ℕ) : ℤ) := by omega
    have hnext : ((o / 4096 : ℕ) : ℤ) + 1 = ((o / 4096 + 1 : ℕ) : ℤ) := by omega
    rw [if_neg (by omega), hfull, bind_done hfirst, htimes, hnext, bind_done hrest]
    have hend : 4096 * (o / 4096 + 1) = o + (4096 - o % 4096) := by omega
    have hsum : 4096 - o % 4096 + (4096 * ((o % 4096 + n) / 4096 - 1) + (o % 4096 + n) % 4096) = n := by omega
    change Outcome.done (s.bytes i (4096 * (o / 4096) + o % 4096) (4096 - o % 4096) ++ s.bytes i (4096 * (o / 4096 + 1))
      (4096 * ((o % 4096 + n) / 4096 - 1) + (o % 4096 + n) % 4096), _) _ = _
    rw [hstart, hend, Vfs.bytes_append, hsum]

end Pke.Files
