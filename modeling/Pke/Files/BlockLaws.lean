import Pke.Files.FileReads
import Pke.Files.Runs

/-! What `rfs_read` does with its buffer, block by block, and what a disk inode keeps of a vinode. -/

namespace Pke.Files

open Lib Flow Function

structure Assembly where
  buffer : ℕ → UInt8
  bufOffset : ℕ
  written : List (ℕ × ℕ)
  accessed : List ℤ

def Assembly.copy (a : Assembly) (k : ℤ) (data : List UInt8) : Assembly where
  buffer := putBytes a.buffer a.bufOffset data
  bufOffset := a.bufOffset
  written := a.written ++ [(a.bufOffset, data.length)]
  accessed := a.accessed ++ [k]

def Assembly.advance (a : Assembly) (n : ℕ) : Assembly := { a with bufOffset := a.bufOffset + n }

def readInto (f : Vinode) (k : ℤ) (o n : ℕ) (a : Assembly) : Flow Vfs Assembly := do
  rfsR1block (← addrAt f.addrs k)
  let s ← get
  pure (a.copy k (slice s.iobuffer o n))

def wholeInto (f : Vinode) : ℕ → ℤ → Assembly → Flow Vfs Assembly
  | 0, _, a => pure a
  | n + 1, k, a => do
    let a ← readInto f k 0 rfsBlksize a
    wholeInto f n (k + 1) (a.advance rfsBlksize)

def rfsReadInto (f : Vinode) (len offset : ℤ) (buffer : ℕ → UInt8) : Flow Vfs (Assembly × ℤ) :=
  if f.size < offset then leave
  else if 2 ^ 63 ≤ offset + len then undef
  else
    let len := if f.size < offset + len then f.size - offset else len
    let align := offset.tmod rfsBlksize
    let readtimes := (align + len).tdiv rfsBlksize
    let remain := ((align + len).tmod rfsBlksize).toNat
    let block := offset.tdiv rfsBlksize
    if align < 0 ∨ len < 0 then undef
    else do
      let first := (if readtimes = 0 then len else rfsBlksize - align).toNat
      let a ← readInto f block align.toNat first ⟨buffer, 0, [], []⟩
      let a := a.advance first
      if readtimes - 1 < 0 then pure (a, len)
      else do
        let a ← wholeInto f (readtimes - 1).toNat (block + 1) a
        if 0 < remain then do
          let a ← readInto f (block + 1 + (readtimes - 1)) 0 remain a
          pure (a, len)
        else pure (a, len)

structure Vinode.Sized (i : Vinode) : Prop where
  size : 0 ≤ i.size
  blocks : i.blocks = (i.size + 4095) / 4096
  le : i.blocks ≤ 10
  addrs : ∀ k : Fin 10, (k : ℤ) < i.blocks → 0 ≤ i.addrs k ∧ i.addrs k < ramdiskBlockCount

structure Assembly.Upto (a : Assembly) (s : Vfs) (i : Vinode) (buffer : ℕ → UInt8) (o n : ℕ) : Prop where
  bytes : ∀ x < n, a.buffer x = (s.space i).byte s.disk (o + x)
  beyond : ∀ x, n ≤ x → a.buffer x = buffer x
  written : ∀ w ∈ a.written, w.1 + w.2 ≤ n
  accessed : ∀ k ∈ a.accessed, ((o / 4096 : ℕ) : ℤ) ≤ k ∧ k ≤ ((o + n - 1) / 4096 : ℕ)

section Assembling

variable {s : Vfs} {i : Vinode} {a : Assembly} {buffer : ℕ → UInt8} {o n m k : ℕ}

lemma length_slice (b : ℕ → UInt8) (o n : ℕ) : (slice b o n).length = n := by simp [slice]

lemma getD_slice (b : ℕ → UInt8) {x : ℕ} (hx : x < n) : (slice b o n).getD x 0 = b (o + x) := by
  simp [slice, List.getD, hx]

lemma Assembly.Upto.start : (⟨buffer, 0, [], []⟩ : Assembly).Upto s i buffer o 0 where
  bytes := by simp
  beyond := by simp
  written := by simp
  accessed := by simp

lemma Assembly.Upto.copy (h : a.Upto s i buffer o m) (ha : a.bufOffset = m) (hk : (o + m) / 4096 = k) (hn : 0 < n)
    (hin : (o + m) % 4096 + n ≤ 4096) : (a.copy k (s.bytes i (o + m) n)).Upto s i buffer o (m + n) := by
  have hlen : (s.bytes i (o + m) n).length = n := length_slice _ _ _
  constructor
  · intro x hx
    simp only [Assembly.copy, putBytes, ha, hlen]
    by_cases hold : x < m
    · rw [if_neg (by omega), h.bytes x hold]
    · rw [if_pos (by omega), Vfs.bytes, getD_slice _ (by omega), show o + m + (x - m) = o + x by omega]
  · intro x hx
    simp only [Assembly.copy, putBytes, ha, hlen]
    rw [if_neg (by omega), h.beyond x (by omega)]
  · intro w hw
    simp only [Assembly.copy, List.mem_append, List.mem_singleton] at hw
    rcases hw with hw | rfl
    · exact (h.written w hw).trans (Nat.le_add_right m n)
    · rw [ha, hlen]
  · intro j hj
    simp only [Assembly.copy, List.mem_append, List.mem_singleton] at hj
    rcases hj with hj | rfl
    · have := h.accessed j hj
      omega
    · omega

lemma Assembly.Upto.advance (h : a.Upto s i buffer o m) : (a.advance n).Upto s i buffer o m :=
  ⟨h.bytes, h.beyond, h.written, h.accessed⟩

lemma Assembly.Upto.buffered (h : a.Upto s i buffer o m) (io : ℕ → UInt8) : a.Upto { s with iobuffer := io } i buffer o m :=
  ⟨h.bytes, h.beyond, h.written, h.accessed⟩

lemma readInto_eq (h : i.Sized) (hk : (k : ℤ) < i.blocks) (hn : o + n ≤ 4096) (a : Assembly) :
    ∃ io, readInto i k o n a s = .done (a.copy k (s.bytes i (4096 * k + o) n)) { s with iobuffer := io } := by
  have hlt : k < 10 := by
    have := h.le
    omega
  obtain ⟨hlow, hhigh⟩ := h.addrs ⟨k, hlt⟩ hk
  have hnum : i.addrs ⟨k, hlt⟩ = ((s.space i).num k : ℕ) := by
    rw [Space.num_eq hlt]
    exact (Int.toNat_of_nonneg hlow).symm
  have hdisk : (s.space i).num k < 128 := by
    rw [hnum] at hhigh
    change (((s.space i).num k : ℕ) : ℤ) < 128 at hhigh
    omega
  refine ⟨overlay (s.disk ((s.space i).num k)) s.iobuffer, ?_⟩
  rw [readInto, bind_done (addrAt_eq (j := ⟨k, hlt⟩) rfl), hnum, bind_done (rfsR1block_eq hdisk), get_bind]
  dsimp only
  rw [slice_overlay hn]
  have hbytes : slice (s.disk ((s.space i).num k)) o n = s.bytes i (4096 * k + o) n := by
    rw [Vfs.bytes, slice, slice, List.map_inj_left]
    intro x hx
    rw [List.mem_range] at hx
    rw [Space.byte, show (4096 * k + o + x) / 4096 = k by omega, show (4096 * k + o + x) % 4096 = o + x by omega]
  rw [hbytes]
  rfl

lemma readInto_upto (h : i.Sized) (hup : a.Upto s i buffer o m) (ha : a.bufOffset = m) (hk : (o + m) / 4096 = k)
    (hblock : (k : ℤ) < i.blocks) (hn : 0 < n) (hin : (o + m) % 4096 + n ≤ 4096) :
    ∃ c io, readInto i k ((o + m) % 4096) n a s = .done c { s with iobuffer := io } ∧ c.Upto s i buffer o (m + n) ∧ c.bufOffset = m := by
  obtain ⟨io, hrun⟩ := readInto_eq (s := s) h hblock hin a
  have hstart : 4096 * k + (o + m) % 4096 = o + m := by omega
  rw [hstart] at hrun
  exact ⟨_, io, hrun, hup.copy ha hk hn hin, ha⟩

lemma wholeInto_upto (h : i.Sized) (hup : a.Upto s i buffer o m) (ha : a.bufOffset = m) (hal : (o + m) % 4096 = 0)
    (hk : (o + m) / 4096 = k) (hblock : ((k + n : ℕ) : ℤ) ≤ i.blocks) :
    ∃ c io, wholeInto i n k a s = .done c { s with iobuffer := io } ∧ c.Upto s i buffer o (m + 4096 * n) ∧
      c.bufOffset = m + 4096 * n := by
  induction n generalizing s a m k with
  | zero => exact ⟨a, s.iobuffer, rfl, hup, ha⟩
  | succ n ih =>
    obtain ⟨c, io, hrun, hc, hoff⟩ := readInto_upto (n := 4096) h hup ha hk (by omega) (by norm_num) (by omega)
    rw [hal] at hrun
    have hnext : (c.advance 4096).bufOffset = m + 4096 := by rw [Assembly.advance, hoff]
    obtain ⟨d, io', hrest, hd, hoff'⟩ := ih (k := k + 1) (hc.advance.buffered io) hnext (by omega) (by omega) (by omega)
    refine ⟨d, io', ?_, ?_, ?_⟩
    · rw [wholeInto, bind_done hrun]
      exact_mod_cast hrest
    · rw [show m + 4096 * (n + 1) = m + 4096 + 4096 * n by ring]
      exact ⟨hd.bytes, hd.beyond, hd.written, hd.accessed⟩
    · omega

end Assembling

def Assembles (s : Vfs) (i : Vinode) (buffer : ℕ → UInt8) (o : ℕ) (len : ℤ) : Prop :=
  ∃ a t, ∃ n : ℕ, rfsReadInto i len o buffer s = .done (a, (n : ℤ)) t ∧ (n : ℤ) = min len (i.size - o) ∧ a.Upto s i buffer o n

section Reading

variable {s : Vfs} {i : Vinode} {buffer : ℕ → UInt8} {o : ℕ} {len : ℤ}

lemma rfsReadInto_upto (h : i.Sized) (ho : (o : ℤ) < i.size) (hlen : 1 ≤ len) (hsum : (o : ℤ) + len < 2 ^ 63) :
    Assembles s i buffer o len := by
  have hblocks := h.blocks
  obtain ⟨n, hn⟩ : ∃ n : ℕ, (if i.size < (o : ℤ) + len then i.size - o else len) = n := by
    refine ⟨(if i.size < (o : ℤ) + len then i.size - o else len).toNat, ?_⟩
    split_ifs <;> omega
  have hmin : (n : ℤ) = min len (i.size - o) := by
    rw [← hn]
    split_ifs <;> omega
  have hdiv : (o : ℤ).tdiv rfsBlksize = (o / 4096 : ℕ) := Int.tdiv_eq_ediv_of_nonneg (by omega)
  have hmod : (o : ℤ).tmod rfsBlksize = (o % 4096 : ℕ) := Int.tmod_eq_emod_of_nonneg (by omega)
  have hdiv' : ((o % 4096 : ℕ) + (n : ℤ)).tdiv rfsBlksize = ((o % 4096 + n) / 4096 : ℕ) :=
    (Int.tdiv_eq_ediv_of_nonneg (by omega)).trans (by push_cast; rfl)
  have hmod' : ((o % 4096 : ℕ) + (n : ℤ)).tmod rfsBlksize = ((o % 4096 + n) % 4096 : ℕ) :=
    (Int.tmod_eq_emod_of_nonneg (by omega)).trans (by push_cast; rfl)
  have hpos : 0 < n := by omega
  have hend : (o : ℤ) + n ≤ i.size := by omega
  have hstart : (⟨buffer, 0, [], []⟩ : Assembly).Upto s i buffer o 0 := .start
  unfold Assembles
  rw [rfsReadInto, if_neg (by omega), if_neg (by omega), hn, hdiv, hmod, if_neg (by omega), hdiv', hmod', Int.toNat_natCast,
    Int.toNat_natCast]
  by_cases hone : (o % 4096 + n) / 4096 = 0
  · -- the range ends in the block in which it begins
    obtain ⟨c, io, hrun, hc, -⟩ := readInto_upto (k := o / 4096) (n := n) h hstart rfl
      rfl (by omega) hpos (by omega)
    rw [Nat.zero_add] at hc
    rw [Nat.add_zero] at hrun
    rw [if_pos (by omega), Int.toNat_natCast, bind_done hrun, hone]
    exact ⟨c.advance n, _, n, rfl, hmin, hc.advance⟩
  · have hfirst : ((rfsBlksize : ℤ) - ((o % 4096 : ℕ) : ℤ)).toNat = 4096 - o % 4096 := by
      change ((4096 : ℤ) - ((o % 4096 : ℕ) : ℤ)).toNat = _
      omega
    have htimes : (((o % 4096 + n) / 4096 : ℕ) : ℤ) - 1 = (((o % 4096 + n) / 4096 - 1 : ℕ) : ℤ) := by omega
    have hnext : ((o / 4096 : ℕ) : ℤ) + 1 = ((o / 4096 + 1 : ℕ) : ℤ) := by omega
    obtain ⟨c, io, hrun, hc, hoff⟩ := readInto_upto (k := o / 4096) (n := 4096 - o % 4096) h
      hstart rfl rfl (by omega) (by omega) (by omega)
    rw [Nat.zero_add] at hc
    rw [Nat.add_zero] at hrun
    obtain ⟨d, io', hwhole, hd, hoff'⟩ := wholeInto_upto (k := o / 4096 + 1) (n := (o % 4096 + n) / 4096 - 1) h
      (hc.advance (n := 4096 - o % 4096) |>.buffered io) (by rw [Assembly.advance, hoff, Nat.zero_add]) (by omega) (by omega) (by omega)
    rw [if_neg (by omega), hfirst, bind_done hrun, if_neg (by omega), htimes, hnext, Int.toNat_natCast, bind_done hwhole]
    by_cases hrem : 0 < (o % 4096 + n) % 4096
    · obtain ⟨e, io'', hlast, he, -⟩ := readInto_upto (k := o / 4096 + 1 + ((o % 4096 + n) / 4096 - 1)) (n := (o % 4096 + n) % 4096) h
        (hd.buffered io') hoff' (by omega) (by omega) hrem (by omega)
      have hal : (o + (4096 - o % 4096 + 4096 * ((o % 4096 + n) / 4096 - 1))) % 4096 = 0 := by omega
      have hall : 4096 - o % 4096 + 4096 * ((o % 4096 + n) / 4096 - 1) + (o % 4096 + n) % 4096 = n := by omega
      rw [hal] at hlast
      rw [hall] at he
      push_cast at hlast ⊢
      rw [if_pos hrem, bind_done hlast]
      exact ⟨e, _, n, rfl, hmin, ⟨he.bytes, he.beyond, he.written, he.accessed⟩⟩
    · have hall : 4096 - o % 4096 + 4096 * ((o % 4096 + n) / 4096 - 1) = n := by omega
      rw [hall] at hd
      rw [if_neg hrem]
      exact ⟨d, _, n, rfl, hmin, ⟨hd.bytes, hd.beyond, hd.written, hd.accessed⟩⟩

end Reading

def twoBlockFile : Vinode := ⟨⟨5000, fileI, 1, 2, fun k => 12 + (k : ℕ)⟩, 0, 1, .null, .rfs⟩

lemma twoBlockFile_sized : twoBlockFile.Sized := ⟨by decide, by decide, by decide, by decide⟩

section Refinement

variable {f : Vinode} {s t : Vfs} {a c : Assembly} {k len offset : ℤ} {o n : ℕ}

lemma slice_copy (data : List UInt8) :
    slice (a.copy k data).buffer 0 (a.bufOffset + data.length) = slice a.buffer 0 a.bufOffset ++ data := by
  apply List.ext_getElem
  · simp [slice]
  · intro x hx hx'
    rw [List.getElem_append]
    simp only [slice, List.length_map, List.length_range] at hx hx'
    simp only [slice, List.getElem_map, List.getElem_range, Assembly.copy, putBytes, Nat.zero_add, List.length_map, List.length_range]
    by_cases hlt : x < a.bufOffset
    · rw [dif_pos hlt, if_neg (by omega)]
    · rw [dif_neg hlt, if_pos (by omega), List.getD_eq_getElem?_getD, List.getElem?_eq_getElem (by omega), Option.getD_some]

lemma readInto_done (h : readInto f k o n a s = .done c t) :
    ∃ data, readBlock f k o n s = .done data t ∧ data.length = n ∧ c = a.copy k data := by
  obtain ⟨b, u, haddr, h⟩ := bind_eq_done h
  obtain ⟨⟨⟩, v, hread, h⟩ := bind_eq_done h
  cases h
  exact ⟨_, by rw [readBlock, bind_done haddr, bind_done hread]; rfl, length_slice _ _ _, rfl⟩

lemma wholeInto_done (h : wholeInto f n k a s = .done c t) :
    ∃ data, readBlocks f n k s = .done data t ∧ c.bufOffset = a.bufOffset + 4096 * n ∧
      slice c.buffer 0 c.bufOffset = slice a.buffer 0 a.bufOffset ++ data := by
  induction n generalizing s a k with
  | zero =>
    cases h
    exact ⟨[], rfl, rfl, (List.append_nil _).symm⟩
  | succ n ih =>
    obtain ⟨b, u, hfirst, h⟩ := bind_eq_done h
    obtain ⟨head, hhead, hlen, rfl⟩ := readInto_done hfirst
    obtain ⟨rest, hrest, hoff, hslice⟩ := ih h
    refine ⟨head ++ rest, ?_, ?_, ?_⟩
    · rw [readBlocks, bind_done hhead, bind_done hrest]
      rfl
    · rw [hoff]
      change a.bufOffset + 4096 + 4096 * n = _
      omega
    · have hcopy := slice_copy (a := a) (k := k) head
      rw [hlen] at hcopy
      rw [hslice]
      change slice (a.copy k head).buffer 0 (a.bufOffset + 4096) ++ rest = _
      rw [hcopy, List.append_assoc]

theorem rfsReadInto_refines {buffer : ℕ → UInt8} {n : ℤ} (h : rfsReadInto f len offset buffer s = .done (a, n) t) :
    rfsRead f len offset s = .done (slice a.buffer 0 n.toNat, n) t := by
  rw [rfsReadInto] at h
  rw [rfsRead]
  by_cases hsize : f.size < offset
  · rw [if_pos hsize] at h
    cases h
  rw [if_neg hsize] at h ⊢
  by_cases hsum : 2 ^ 63 ≤ offset + len
  · rw [if_pos hsum] at h
    cases h
  rw [if_neg hsum] at h
  generalize (if f.size < offset + len then f.size - offset else len) = m at h ⊢
  by_cases hneg : offset.tmod rfsBlksize < 0 ∨ m < 0
  · rw [if_pos hneg] at h
    cases h
  rw [if_neg hneg] at h ⊢
  rw [not_or, not_lt, not_lt] at hneg
  obtain ⟨hal, hm⟩ := hneg
  have hlt : offset.tmod rfsBlksize < 4096 := Int.tmod_lt_of_pos offset (by decide)
  have hdiv : (offset.tmod rfsBlksize + m).tdiv rfsBlksize = (offset.tmod rfsBlksize + m) / 4096 := Int.tdiv_eq_ediv_of_nonneg (by omega)
  have hmod : (offset.tmod rfsBlksize + m).tmod rfsBlksize = (offset.tmod rfsBlksize + m) % 4096 := Int.tmod_eq_emod_of_nonneg (by omega)
  rw [hdiv, hmod] at h ⊢
  generalize offset.tmod rfsBlksize = align at h hal hlt ⊢
  generalize offset.tdiv rfsBlksize = block at h ⊢
  obtain ⟨c, u, hfirst, h⟩ := bind_eq_done h
  obtain ⟨data, hdata, hlen, rfl⟩ := readInto_done hfirst
  have hcopy := slice_copy (a := ⟨buffer, 0, [], []⟩) (k := block) data
  rw [show slice buffer 0 0 = [] from rfl, List.nil_append, Nat.zero_add, hlen] at hcopy
  rw [bind_done hdata, readRest]
  by_cases hone : (align + m) / 4096 - 1 < 0
  · rw [if_pos hone] at h ⊢
    cases h
    rw [if_pos (by omega)] at hcopy
    change Outcome.done (data ++ [], n) t = _
    rw [List.append_nil]
    exact congrArg (fun l => Outcome.done (l, n) t) hcopy.symm
  rw [if_neg hone] at h ⊢
  obtain ⟨d, v, hwhole, h⟩ := bind_eq_done h
  obtain ⟨whole, hblocks, hoff, hslice⟩ := wholeInto_done hwhole
  rw [if_neg (by omega)] at hoff hslice hcopy
  have hbuf : slice d.buffer 0 d.bufOffset = data ++ whole := by
    rw [hslice]
    change slice ((⟨buffer, 0, [], []⟩ : Assembly).copy block data).buffer 0 (0 + (rfsBlksize - align).toNat) ++ whole = _
    rw [Nat.zero_add, hcopy]
  have hfill : d.bufOffset + ((align + m) % 4096).toNat = m.toNat := by
    rw [hoff]
    change 0 + (4096 - align).toNat + 4096 * ((align + m) / 4096 - 1).toNat + _ = _
    omega
  by_cases hrem : 0 < ((align + m) % 4096).toNat
  · rw [if_pos hrem] at h
    obtain ⟨e, w, hlast, h⟩ := bind_eq_done h
    obtain ⟨last, hblock, hlen', rfl⟩ := readInto_done hlast
    cases h
    have hcopy' := slice_copy (a := d) (k := block + 1 + ((align + n) / 4096 - 1)) last
    rw [hlen', hfill, hbuf] at hcopy'
    have hrest : (readBlocks f ((align + n) / 4096 - 1).toNat (block + 1) >>= fun whole =>
        if 0 < ((align + n) % 4096).toNat then do
          let last ← readBlock f (block + 1 + ((align + n) / 4096 - 1)) 0 ((align + n) % 4096).toNat
          pure (whole ++ last)
        else pure whole : Flow Vfs (List UInt8)) u = .done (whole ++ last) t := by
      rw [bind_done hblocks, if_pos hrem, bind_done hblock]
      rfl
    rw [bind_done hrest, hcopy', List.append_assoc]
    rfl
  · rw [if_neg hrem] at h
    cases h
    have hzero : ((align + n) % 4096).toNat = 0 := by omega
    rw [hzero, Nat.add_zero] at hfill
    have hrest : (readBlocks f ((align + n) / 4096 - 1).toNat (block + 1) >>= fun whole =>
        if 0 < ((align + n) % 4096).toNat then do
          let last ← readBlock f (block + 1 + ((align + n) / 4096 - 1)) 0 ((align + n) % 4096).toNat
          pure (whole ++ last)
        else pure whole : Flow Vfs (List UInt8)) u = .done whole t := by
      rw [bind_done hblocks, if_neg hrem]
      rfl
    rw [bind_done hrest, ← hfill, hbuf]
    rfl

theorem rfsReadInto_refines_across : ∃ a n t, rfsReadInto twoBlockFile 2000 (4000 : ℕ) (fun _ => 7) blank = .done (a, n) t ∧
    rfsRead twoBlockFile 2000 (4000 : ℕ) blank = .done (slice a.buffer 0 n.toNat, n) t := by
  obtain ⟨a, t, n, h, -⟩ : Assembles blank twoBlockFile (fun _ => 7) 4000 2000 :=
    rfsReadInto_upto twoBlockFile_sized (by decide) (by decide) (by decide)
  exact ⟨a, n, t, h, rfsReadInto_refines h⟩

end Refinement

/-- What is written back is read again, by any vinode of that number, and the other inodes and blocks stay. -/
theorem written_inode_is_restored (s : Vfs) (v n : ℕ) (i : Vinode) (hv : s.vinode v = some i) (hfits : i.toDinode.Fits)
    (hi : i.inum = n) (hn : n < ninodes) :
    ∃ t, rfsWriteBackVinode v s = .done () t ∧
      (∀ w j, t.vinode w = some j → j.inum = n →
        ∃ u, rfsUpdateVinode w t = .done () u ∧ u.vinode w = some { j with toDinode := i.toDinode }) ∧
      (∀ m < ninodes, m ≠ n → ∃ d s' t', rfsReadDinode m s = .done d s' ∧ rfsReadDinode m t = .done d t') ∧
      ∀ b, b ≠ n / 32 + 1 → t.disk b = s.disk b := by
  obtain ⟨io, hwrite⟩ := rfsWriteBackVinode_eq hv hi hn
  refine ⟨_, hwrite, ?_, ?_, ?_⟩
  · intro w j hj hjn
    obtain ⟨io', hread⟩ := rfsUpdateVinode_eq hj hjn hn
    refine ⟨_, hread, ?_⟩
    dsimp only
    rw [update_self, dnode_setDnode hfits]
  · intro m hm hne
    obtain ⟨io₁, hbefore⟩ := rfsReadDinode_eq (s := s) hm
    obtain ⟨io₂, hafter⟩ := rfsReadDinode_eq (s := { s with disk := setDnode s.disk n i.toDinode, iobuffer := io }) hm
    rw [dnode_setDnode_of_ne hne] at hafter
    exact ⟨_, _, _, hbefore, hafter⟩
  · intro b hb
    exact update_of_ne hb _ _


def sharedInode : Vfs := { blank with
  vinode := fun v => if v = 0 then some { twoBlockFile with inum := 37 } else some ⟨⟨0, 0, 0, 0, fun _ => 0⟩, 37, 0, .null, .rfs⟩ }

theorem written_inode_is_restored_by_other : ∃ t, rfsWriteBackVinode 0 sharedInode = .done () t ∧ t.disk 1 = sharedInode.disk 1 ∧
    ∃ d s' t', rfsReadDinode (36 : ℕ) sharedInode = .done d s' ∧ rfsReadDinode (36 : ℕ) t = .done d t' := by
  have hfits : twoBlockFile.toDinode.Fits := by
    intro k
    by_cases hk : k < 14
    · interval_cases k <;> decide
    · rw [word_large _ k (by omega)]
      decide
  obtain ⟨t, hrun, -, hothers, hblocks⟩ := written_inode_is_restored sharedInode 0 37 { twoBlockFile with inum := 37 } rfl hfits rfl (by decide)
  exact ⟨t, hrun, hblocks 1 (by decide), hothers 36 (by decide) (by decide)⟩

end Pke.Files
