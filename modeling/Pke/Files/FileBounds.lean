import Pke.Files.FileReads
import Pke.Files.FileLaws

namespace Pke.Files

open Lib Flow Function

variable {s t : Vfs} {w k n o len : ℕ} {i j : Vinode} {a : Space} {data : List UInt8} {adr : Access}

section Reads

lemma rfsReadBy_behind (hlast : o = 4096 * (s.space i).blocks) (ho : (o : ℤ) = i.size) :
    rfsReadBy adr i len o s = (do
      let first ← readBlockBy adr i (s.space i).blocks 0 0
      let rest ← readRestBy adr i (-1) 0 ((s.space i).blocks + 1)
      pure (first ++ rest, 0)) s := by
  have hdiv : (o : ℤ).tdiv rfsBlksize = ((s.space i).blocks : ℕ) := by
    rw [Int.tdiv_eq_ediv_of_nonneg (by omega)]
    change (o : ℤ) / 4096 = _
    omega
  have hmod : (o : ℤ).tmod rfsBlksize = 0 := by
    rw [Int.tmod_eq_emod_of_nonneg (by omega)]
    change (o : ℤ) % 4096 = 0
    omega
  have hlen : (if i.size < (o : ℤ) + len then i.size - o else (len : ℤ)) = 0 := by
    split_ifs <;> omega
  rw [rfsReadBy, if_neg (by omega), hlen, hdiv, hmod, if_neg (by omega)]
  rfl

lemma rfsReadBy_own_behind (hs : Stored s w i) (hlast : o = 4096 * (s.space i).blocks) (ho : (o : ℤ) = i.size) :
    rfsReadBy ownAddr i len o s = .undefined := by
  have hown : ownAddr i (s.space i).blocks s = .undefined := by
    rw [ownAddr, if_neg (by rw [s.space_blocks hs.nonneg]; exact lt_irrefl _)]
    rfl
  rw [rfsReadBy_behind hlast ho, readBlockBy]
  exact bind_undefined (bind_undefined hown)

end Reads

section Writes

lemma writeBlockBy_cases (hadr : adr.Good) (hs : Stored s w i) (hk : k ≤ (s.space i).blocks) :
    (k < 10 ∧ ∃ D io c, (s.space i).extend (k + 1 - (s.space i).blocks) = some c ∧
      writeBlockBy adr w k data s = .done () (s.filled w i D io c)) ∨
    (k = (s.space i).blocks ∧ firstFree s.freemap = none ∧ writeBlockBy adr w k data s = .left s) ∨
    (k = 10 ∧ (∃ b, firstFree s.freemap = some b) ∧ writeBlockBy adr w k data s = .undefined) := by
  have hle := hs.owns.le
  rcases Nat.lt_or_eq_of_le hk with hlt | heq
  · refine .inl ⟨by omega, _, _, s.space i, ?_, writeBlockBy_done hs hadr hk ?_⟩ <;>
      rw [Nat.sub_eq_zero_of_le hlt, Space.extend]
  · have hnext : (k : ℤ) = i.blocks := by rw [heq, s.space_blocks hs.nonneg]
    have halloc := rfsAllocBlock_first hs.nblocks
    cases hfree : firstFree s.freemap with
    | none =>
      rw [hfree] at halloc
      refine .inr (.inl ⟨heq, rfl, ?_⟩)
      rw [writeBlockBy]
      refine bind_left ?_
      rw [growTo, bind_done (getVinode_eq hs.vinode), if_pos hnext, bind_left halloc]
    | some b =>
      rw [hfree] at halloc
      by_cases h10 : k < 10
      · have hone : (s.space i).extend (k + 1 - (s.space i).blocks) =
            some ⟨update i.addrs ⟨(s.space i).blocks, by omega⟩ (12 + b : ℕ), (s.space i).blocks + 1, update s.freemap b 1⟩ := by
          have hfirst : firstFree (s.space i).free = some b := hfree
          have hone : k + 1 - (s.space i).blocks = 1 := by omega
          rw [hone, Space.extend_one, Space.more, hfirst, Option.bind_some, dif_pos (by omega)]
          rfl
        exact .inl ⟨h10, _, _, _, hone, writeBlockBy_done hs hadr hk hone⟩
      · refine .inr (.inr ⟨by omega, ⟨b, rfl⟩, ?_⟩)
        rw [writeBlockBy]
        refine bind_undefined ?_
        rw [growTo, bind_done (getVinode_eq hs.vinode), if_pos hnext, bind_done halloc, dif_neg (by omega)]
        rfl

def Lands (s : Vfs) (w : ℕ) (i : Vinode) (out : Outcome Vfs Unit) : Prop :=
  (∃ t, out = .left t) ∨ ∃ D io c, out = .done () (s.filled w i D io c)

lemma Lands.after {D : ℕ → ℕ → UInt8} {io : ℕ → UInt8} {out : Outcome Vfs Unit}
    (h : Lands (s.filled w i D io a) w (i.withSpace a) out) : Lands s w i out := by
  rcases h with hleft | ⟨D', io', c, hout⟩
  · exact .inl hleft
  · rw [Vfs.filled_filled] at hout
    exact .inr ⟨D', io', c, hout⟩

lemma writeBlocksBy_within (hadr : adr.Good) (hs : Stored s w i) (hk : k ≤ (s.space i).blocks)
    (hn : 4096 * n ≤ data.length) (hfit : 4096 * k + data.length ≤ 40960) : Lands s w i (writeBlocksBy adr w n k data s) := by
  induction n generalizing s i k data with
  | zero =>
    rw [writeBlocksBy]
    by_cases hd : data = []
    · exact .inr ⟨s.disk, s.iobuffer, s.space i, by rw [if_pos hd, Vfs.filled_self hs]; rfl⟩
    · have hpos := List.length_pos_iff.mpr hd
      rw [if_neg hd]
      rcases writeBlockBy_cases hadr hs hk with ⟨-, D, io, c, -, hrun⟩ | ⟨-, -, hrun⟩ | ⟨h10, -⟩
      · exact .inr ⟨D, io, c, hrun⟩
      · exact .inl ⟨s, hrun⟩
      · omega
  | succ n ih =>
    rw [writeBlocksBy]
    rcases writeBlockBy_cases hadr hs hk with ⟨-, D, io, c, hc, hrun⟩ | ⟨-, -, hrun⟩ | ⟨h10, -⟩
    · obtain ⟨hown, hblocks, -⟩ := Space.extend_spec hs.owns hc
      have hk' : k + 1 ≤ c.blocks := by omega
      have hdrop : (data.drop rfsBlksize).length = data.length - 4096 := List.length_drop
      have hfit' : 4096 * (k + 1) + (data.drop rfsBlksize).length ≤ 40960 := by omega
      rw [bind_done hrun]
      exact (ih (hs.filled hown (by omega)) hk' (by omega) hfit').after
    · exact .inl ⟨s, bind_left hrun⟩
    · omega

def Overruns (s : Vfs) (w : ℕ) (i : Vinode) {α : Type} (out : Outcome Vfs α) : Prop :=
  (out = .undefined ∧ firstFree s.freemap ≠ none) ∨
    ∃ t j, out = .left t ∧ t.vinode w = some j ∧
      (firstFree s.freemap = none ∧ j = i ∨ firstFree s.freemap ≠ none ∧ i.blocks < j.blocks)

section Outcomes

variable {α : Type} {out : Outcome Vfs α}

lemma Overruns.full (h : Overruns s w i out) (hfull : firstFree s.freemap = none) :
    ∃ t, out = .left t ∧ t.vinode w = some i := by
  rcases h with ⟨-, hfree⟩ | ⟨t, j, hout, hj, ⟨-, rfl⟩ | ⟨hfree, -⟩⟩
  · exact absurd hfull hfree
  · exact ⟨t, hout, hj⟩
  · exact absurd hfull hfree

lemma Overruns.free (h : Overruns s w i out) (hfree : firstFree s.freemap ≠ none) :
    ¬ ∃ t, out = .left t ∧ t.vinode w = some i := by
  rintro ⟨t, rfl, ht⟩
  rcases h with ⟨hout, -⟩ | ⟨t', j, hout, hj, ⟨hfull, -⟩ | ⟨-, hlt⟩⟩
  · cases hout
  · exact hfree hfull
  · cases hout
    rw [ht, Option.some.injEq] at hj
    rw [hj] at hlt
    exact lt_irrefl _ hlt

lemma Overruns.before {D : ℕ → ℕ → UInt8} {io : ℕ → UInt8} (hs : Stored s w i)
    (ha : (s.space i).extend n = some a) (h : Overruns (s.filled w i D io a) w (i.withSpace a) out) : Overruns s w i out := by
  cases n with
  | zero =>
    rw [Space.extend, Option.some.injEq] at ha
    subst ha
    rwa [Vinode.withSpace_space hs.nonneg] at h
  | succ n =>
    obtain ⟨c, hc, -⟩ := Option.bind_eq_some_iff.mp ha
    obtain ⟨b, hb, -⟩ := Space.more_some hc
    have hfree : firstFree s.freemap ≠ none := by
      rw [show firstFree s.freemap = some b from hb]
      exact Option.some_ne_none b
    have hmore : i.blocks < (i.withSpace a).blocks := by
      have hblocks := (Space.extend_spec hs.owns ha).2.1
      rw [← s.space_blocks hs.nonneg]
      change _ < (a.blocks : ℤ)
      omega
    rcases h with ⟨hout, -⟩ | ⟨t, j, hout, hj, ⟨-, rfl⟩ | ⟨-, hlt⟩⟩
    · exact .inl ⟨hout, hfree⟩
    · exact .inr ⟨t, _, hout, hj, .inr ⟨hfree, hmore⟩⟩
    · exact .inr ⟨t, j, hout, hj, .inr ⟨hfree, hmore.trans hlt⟩⟩

end Outcomes

lemma writeBlocksBy_beyond (hadr : adr.Good) (hs : Stored s w i) (hk : k ≤ (s.space i).blocks)
    (hn : 4096 * n ≤ data.length ∧ data.length < 4096 * (n + 1)) (hover : 40960 < 4096 * k + data.length) :
    Overruns s w i (writeBlocksBy adr w n k data s) := by
  have hle := hs.owns.le
  induction n generalizing s i k data with
  | zero =>
    have hd : data ≠ [] := by
      rintro rfl
      rw [List.length_nil] at hover
      omega
    rw [writeBlocksBy, if_neg hd]
    rcases writeBlockBy_cases hadr hs hk with ⟨h10, -⟩ | ⟨-, hfull, hrun⟩ | ⟨-, ⟨b, hb⟩, hrun⟩
    · omega
    · exact .inr ⟨s, i, hrun, hs.vinode, .inl ⟨hfull, rfl⟩⟩
    · exact .inl ⟨hrun, by simp [hb]⟩
  | succ n ih =>
    rw [writeBlocksBy]
    rcases writeBlockBy_cases hadr hs hk with ⟨-, D, io, c, hc, hrun⟩ | ⟨-, hfull, hrun⟩ | ⟨-, ⟨b, hb⟩, hrun⟩
    · obtain ⟨hown, hblocks, -⟩ := Space.extend_spec hs.owns hc
      have hk' : k + 1 ≤ c.blocks := by omega
      have hdrop : (data.drop rfsBlksize).length = data.length - 4096 := List.length_drop
      have hover' : 40960 < 4096 * (k + 1) + (data.drop rfsBlksize).length := by omega
      rw [bind_done hrun]
      exact (ih (hs.filled hown (by omega)) hk' (by omega) hover' hown.le).before hs hc
    · exact .inr ⟨s, i, bind_left hrun, hs.vinode, .inl ⟨hfull, rfl⟩⟩
    · exact .inl ⟨bind_undefined hrun, by simp [hb]⟩

lemma writeDataBy_within (hadr : adr.Good) (hs : Stored s w i) (ho : (o : ℤ) ≤ i.size) (hfit : o + data.length ≤ 40960) :
    Lands s w i (writeDataBy adr w data o s) := by
  have hsize := hs.size
  have hblocks := s.space_blocks hs.nonneg
  rw [writeDataBy_nat]
  by_cases h0 : o % 4096 = 0
  · rw [if_pos h0]
    exact writeBlocksBy_within hadr hs (by omega) (by omega) (by omega)
  · have hk : o / 4096 < (s.space i).blocks := by omega
    rw [if_neg h0]
    by_cases hshort : o % 4096 + data.length < 4096
    · rw [if_pos hshort]
      exact .inr ⟨_, _, _, writeInsideBy_done hs hadr hk⟩
    · have hdrop : (data.drop (4096 - o % 4096)).length = data.length - (4096 - o % 4096) := List.length_drop
      rw [if_neg hshort, bind_done (writeInsideBy_done hs hadr hk)]
      exact (writeBlocksBy_within hadr (hs.filled hs.owns le_rfl) hk (by omega) (by omega)).after

lemma writeDataBy_beyond (hadr : adr.Good) (hs : Stored s w i) (ho : (o : ℤ) ≤ i.size) (hover : 40960 < o + data.length) :
    Overruns s w i (writeDataBy adr w data o s) := by
  have hsize := hs.size
  have hblocks := s.space_blocks hs.nonneg
  have hle := hs.owns.le
  rw [writeDataBy_nat]
  by_cases h0 : o % 4096 = 0
  · rw [if_pos h0]
    exact writeBlocksBy_beyond hadr hs (by omega) (by omega) (by omega)
  · have hk : o / 4096 < (s.space i).blocks := by omega
    have hdrop : (data.drop (4096 - o % 4096)).length = data.length - (4096 - o % 4096) := List.length_drop
    rw [if_neg h0, if_neg (by omega), bind_done (writeInsideBy_done hs hadr hk)]
    exact (writeBlocksBy_beyond hadr (hs.filled hs.owns le_rfl) hk (by omega) (by omega)).before hs
      (show (s.space i).extend 0 = _ from rfl)

lemma rfsWriteBy_within (hadr : adr.Good) (hs : Stored s w i) (ho : (o : ℤ) ≤ i.size) (hfit : o + data.length ≤ 40960) :
    rfsWriteBy adr w data o s ≠ .undefined := by
  rw [rfsWriteBy, bind_done (getVinode_eq hs.vinode), if_neg (by omega)]
  rcases writeDataBy_within hadr hs ho hfit with ⟨t, hout⟩ | ⟨D, io, c, hout⟩
  · rw [bind_left hout]
    rintro ⟨⟩
  · rw [bind_done hout, bind_done (getVinode_eq (update_self _ _ _)), bind_done setVinode_eq]
    rintro ⟨⟩

lemma rfsWriteBy_beyond (hadr : adr.Good) (hs : Stored s w i) (ho : (o : ℤ) ≤ i.size) (hover : 40960 < o + data.length) :
    Overruns s w i (rfsWriteBy adr w data o s) := by
  rw [rfsWriteBy, bind_done (getVinode_eq hs.vinode), if_neg (by omega)]
  rcases writeDataBy_beyond hadr hs ho hover with ⟨hout, hfree⟩ | ⟨t, j, hout, hj⟩
  · exact .inl ⟨bind_undefined hout, hfree⟩
  · exact .inr ⟨t, j, bind_left hout, hj⟩

end Writes

/-- Every index that a read uses is one of the file's blocks, unless it starts at the end of a file whose blocks are full;
every index that a write uses is, unless an eleventh block is needed and there is a free one. -/
theorem own_blocks_only_iff (hs : Stored s w i) (ho : (o : ℤ) ≤ i.size) :
    (∀ len : ℕ, rfsReadBy ownAddr i len o s ≠ .undefined ∧
        ((o : ℤ) = i.size → ∃ t, rfsRead i len o s = .done ([], 0) t) ↔ (o : ℤ) < 4096 * i.blocks) ∧
    ∀ data : List UInt8, rfsWriteBy ownAddr w data o s ≠ .undefined ∧
        (40960 < o + data.length → ∃ t, rfsWrite w data o s = .left t ∧ t.vinode w = some i) ↔
      o + data.length ≤ 40960 ∨ ∀ b < 100, s.freemap b ≠ 0 := by
  have hsize := hs.size
  have hblocks := s.space_blocks hs.nonneg
  constructor
  · intro len
    constructor
    · rintro ⟨hok, -⟩
      by_contra hge
      exact hok (rfsReadBy_own_behind hs (by omega) (by omega))
    · intro hlt
      obtain ⟨io, hrun⟩ := rfsReadBy_done ownAddr_good hs ho (by omega) len
      refine ⟨by simp [hrun], ?_⟩
      intro hend
      obtain ⟨io', hrun'⟩ := rfsReadBy_done anyAddr_good hs ho (by omega) len
      have hnone : i.within o len = 0 := by
        rw [Vinode.within]
        omega
      rw [rfsReadBy_any, hnone] at hrun'
      exact ⟨_, hrun'⟩
  · intro data
    constructor
    · rintro ⟨-, hfails⟩
      by_contra hno
      rw [not_or, ← firstFree_none] at hno
      have hover : Overruns s w i (rfsWriteBy anyAddr w data o s) := rfsWriteBy_beyond anyAddr_good hs ho (by omega)
      rw [rfsWriteBy_any] at hover
      exact hover.free hno.2 (hfails (by omega))
    · rintro (hfit | hfull)
      · exact ⟨rfsWriteBy_within ownAddr_good hs ho hfit, fun h => by omega⟩
      · rw [← firstFree_none] at hfull
        constructor
        · by_cases hfit : o + data.length ≤ 40960
          · exact rfsWriteBy_within ownAddr_good hs ho hfit
          · obtain ⟨t, hleft, -⟩ := (rfsWriteBy_beyond ownAddr_good hs ho (not_le.mp hfit)).full hfull
            rw [hleft]
            rintro ⟨⟩
        · intro hover
          have hwrong := rfsWriteBy_beyond anyAddr_good hs ho hover
          rw [rfsWriteBy_any] at hwrong
          exact hwrong.full hfull

theorem own_blocks_only_iff_created : ∃ s i, Stored s 6 i ∧ i.size = 0 ∧ rfsWriteBy ownAddr 6 [7] (0 : ℕ) s ≠ .undefined := by
  obtain ⟨s, i, -, hi, hsize, -⟩ := created_file
  have hiff := (own_blocks_only_iff (o := 0) hi (by omega)).2 [7]
  exact ⟨s, i, hi, hsize, (hiff.mpr (.inl (by decide))).1⟩

lemma Stored.overrun (hs : Stored s w i) (hsize : i.size = 40960) (hfree : 0 < freeCount s.freemap) (len : ℕ) (x : UInt8) :
    rfsRead i len (40960 : ℕ) s = .undefined ∧ rfsWrite w [x] (40960 : ℕ) s = .undefined := by
  have hfits := hs.size
  have hle := hs.owns.le
  have hlast := s.space_blocks hs.nonneg
  have hten : (s.space i).blocks = 10 := by omega
  obtain ⟨b, hb⟩ := firstFree_of_count hfree
  constructor
  · rw [← rfsReadBy_any, rfsReadBy_behind (by rw [hten]) (by rw [hsize]; rfl), readBlockBy, hten]
    exact bind_undefined (bind_undefined rfl)
  · rw [← rfsWriteBy_any, rfsWriteBy, bind_done (getVinode_eq hs.vinode), if_neg (by rw [hsize]; norm_num)]
    refine bind_undefined ?_
    have hindex : 40960 / 4096 = 10 := by norm_num
    have hnone : [x].length / 4096 = 0 := by
      rw [List.length_singleton]
    rw [writeDataBy_nat, if_pos (by norm_num), hindex, hnone, writeBlocksBy, if_neg (by simp)]
    rcases writeBlockBy_cases (k := 10) anyAddr_good hs hten.ge with ⟨h10, -⟩ | ⟨-, hfull, -⟩ | ⟨-, -, hrun⟩
    · omega
    · rw [hb] at hfull
      cases hfull
    · exact hrun

theorem full_file_overruns : ∃ s t j, Reached FsOp.Allowed s ∧
    rfsWrite 6 (List.replicate 40960 0) (0 : ℕ) s = .done 40960 t ∧ t.vinode 6 = some j ∧ j.size = 40960 ∧
    rfsRead j (1 : ℕ) (40960 : ℕ) t = .undefined ∧ rfsWrite 6 [1] (40960 : ℕ) t = .undefined := by
  obtain ⟨s, i, hs, hi, hsize, hblocks, hfree⟩ := created_file
  have hlen : (List.replicate 40960 (0 : UInt8)).length = 40960 := List.length_replicate
  have hten : blocksFor (0 + (List.replicate 40960 (0 : UInt8)).length) = 10 := by
    rw [hlen, blocksFor]
  have hnone : (s.space i).blocks = 0 := by
    change i.blocks.toNat = 0
    rw [hblocks]
    rfl
  obtain ⟨a, ha⟩ := Stored.extends (o := 0) hi (by rw [hlen]) (by rw [hten, hnone]; omega)
  obtain ⟨D, io, hwrite, -⟩ := rfsWriteBy_done anyAddr_good hi (by omega) ha
  have hfull := hi.written D io ha
  have hcount := Space.extend_count ha
  rw [hten, hnone] at hcount
  have hleft : 0 < freeCount (s.filled 6 (i.reaching (0 + 40960)) D io a).freemap := by
    change freeCount a.free + 10 = freeCount s.freemap at hcount
    change 0 < freeCount a.free
    omega
  have hend : ((i.reaching (0 + 40960)).withSpace a).size = 40960 := by
    change (if i.size < 0 + 40960 then 0 + 40960 else i.size) = 40960
    rw [hsize]
    rfl
  rw [rfsWriteBy_any, hlen] at hwrite
  rw [hlen] at hfull
  exact ⟨s, _, _, hs, hwrite, hfull.vinode, hend, hfull.overrun hend hleft 1 1⟩

end Pke.Files
