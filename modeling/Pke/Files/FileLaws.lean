import Pke.Files.FileWrites
import Pke.Files.TreeLaws

namespace Pke.Files

open Lib Flow Function

variable {s t : Vfs} {w n o : ℕ} {i j : Vinode} {a : Space} {data : List UInt8}

lemma Reached.stored (h : Reached FsOp.Allowed s) (hw : s.held n = some w) : ∃ i, Stored s w i := by
  obtain ⟨V, hV⟩ := h.sound
  obtain ⟨i, hi, -, -, hc, -⟩ := hV.shown.held n w hw
  obtain ⟨hlive, hahead⟩ := hV.ok.tree.cached n _ hc
  have hbounds := hV.ok.tree.bounds n hlive
  have hblocks := hahead.blocks
  have hlast : ((s.space i).blocks : ℤ) = i.blocks := s.space_blocks (by omega)
  have hholds : ∀ k : Fin 10, (k : ℕ) < (s.space i).blocks → V.Holds n k (i.addrs k) := by
    intro k hk
    refine ⟨hlive, ?_, ?_⟩
    · rw [Vol.cur_cached hc]
      omega
    · rw [Vol.cur_cached hc]
  refine ⟨i, hi, hV.shown.nblocks, by omega, ⟨by omega, ?_, ?_⟩, hahead.size⟩
  · intro k hk
    have hused := hV.ok.blocks.taken (hholds k hk)
    obtain ⟨hge, hlt⟩ := hV.ok.range hused
    have hnum : i.addrs k = (12 + (i.addrs k - 12).toNat : ℕ) := by omega
    rw [hnum] at hused
    exact ⟨(i.addrs k - 12).toNat, by omega, hnum, ((hV.shown.used _).mp hused).2⟩
  · intro k l hk hl heq
    have hl' := hholds l hl
    rw [← show i.addrs k = i.addrs l from heq] at hl'
    exact (hV.ok.blocks.own (hholds k hk) hl').2

lemma Stored.extends (hs : Stored s w i) (hfit : o + data.length ≤ 40960)
    (hfree : blocksFor (o + data.length) ≤ (s.space i).blocks + freeCount s.freemap) :
    ∃ a, (s.space i).extend (blocksFor (o + data.length) - (s.space i).blocks) = some a := by
  have hfor := blocksFor_bounds (o + data.length)
  have hle := hs.owns.le
  exact Space.extend_of_count (by change _ ≤ freeCount s.freemap; omega) (by omega)

lemma contents_written {D : ℕ → ℕ → UInt8} (io : ℕ → UInt8) (hs : Stored s w i) (ho : (o : ℤ) ≤ i.size)
    (ha : (s.space i).extend (blocksFor (o + data.length) - (s.space i).blocks) = some a)
    (hbytes : ∀ p < 4096 * a.blocks, Space.byte D a p = newByte (Space.byte s.disk (s.space i)) s.iobuffer o data p) :
    (s.filled w (i.reaching (o + data.length)) D io a).contents ((i.reaching (o + data.length)).withSpace a) =
        splice (s.contents i) o data ↔
      ∀ p : ℕ, (p : ℤ) < i.size → Spills o data.length p →
        leftover (Space.byte s.disk (s.space i)) s.iobuffer o data (p % 4096) = Space.byte s.disk (s.space i) p := by
  have hblocks := (Space.extend_spec hs.owns ha).2.1
  have hb := s.space_blocks hs.nonneg
  have hsize := hs.size
  have hfor := blocksFor_bounds (o + data.length)
  have hlen : ((i.reaching (o + data.length)).withSpace a).size.toNat = max i.size.toNat (o + data.length) := by
    change (if i.size < (o : ℤ) + data.length then (o : ℤ) + data.length else i.size).toNat = _
    split_ifs <;> omega
  rw [Vfs.contents, Vfs.contents, Vfs.filled_space, hlen, splice_range (by omega), List.map_inj_left]
  constructor
  · intro h p hp hspill
    have hat := h p (List.mem_range.mpr (by omega))
    have hout : ¬ (o ≤ p ∧ p < o + data.length) := by
      have := hspill.2.2.1
      omega
    rw [if_neg hout] at hat
    rw [← hat, ← newByte_spilled hspill]
    exact (hbytes p (by omega)).symm
  · intro h p hp
    rw [List.mem_range] at hp
    refine (hbytes p (by omega)).trans ?_
    by_cases hin : o ≤ p ∧ p < o + data.length
    · rw [newByte_inside hin, if_pos hin]
    · rw [if_neg hin]
      by_cases hspill : Spills o data.length p
      · rw [newByte_spilled hspill, h p (by omega) hspill]
      · exact newByte_outside hin hspill

/-- A write puts the data in its place. What the file has behind it in the last block is replaced by what was in the
buffer, unless that block is the one in which the write starts, and not at its start. -/
theorem write_replaces_range_iff (hs : Stored s w i) (ho : (o : ℤ) ≤ i.size) (hfit : o + data.length ≤ 40960)
    (hfree : blocksFor (o + data.length) ≤ (s.space i).blocks + freeCount s.freemap) :
    ∃ t j, rfsWrite w data o s = .done data.length t ∧ t.vinode w = some j ∧ j.size = max i.size (o + data.length) ∧
      (t.contents j = splice (s.contents i) o data ↔ ∀ p : ℕ, (p : ℤ) < i.size → Spills o data.length p →
        leftover (Space.byte s.disk (s.space i)) s.iobuffer o data (p % 4096) = Space.byte s.disk (s.space i) p) := by
  obtain ⟨a, ha⟩ := hs.extends hfit hfree
  obtain ⟨D, io, hrun, hbytes⟩ := rfsWriteBy_done anyAddr_good hs ho ha
  rw [rfsWriteBy_any] at hrun
  refine ⟨_, _, hrun, update_self _ _ _, ?_, contents_written io hs ho ha hbytes⟩
  change (if i.size < (o : ℤ) + data.length then (o : ℤ) + data.length else i.size) = _
  rw [max_def]
  split_ifs <;> omega

lemma created_file : ∃ s i, Reached FsOp.Allowed s ∧ Stored s 6 i ∧ i.size = 0 ∧ i.blocks = 0 ∧ 11 ≤ freeCount s.freemap := by
  have hrun : FsOp.leadsTo (fun s op => op.allowed s) [.opens 0 (onRamdisk [97]) 66]
      (fun s => decide (s.held 1 = some 6) && (s.vinode 6).any fun i => decide (i.size = 0 ∧ i.blocks = 0 ∧
        11 ≤ freeCount s.freemap)) = true := by decide +kernel
  obtain ⟨s, hs, htest⟩ := Reached.of_run (fun h => FsOp.allowed_of h) hrun
  rw [Bool.and_eq_true, decide_eq_true_eq] at htest
  obtain ⟨i, hi⟩ := hs.stored htest.1
  obtain ⟨i', hi', hat⟩ := (Option.any_eq_true _ _).mp htest.2
  rw [hi.vinode, Option.some.injEq] at hi'
  subst hi'
  exact ⟨s, i, hs, hi, of_decide_eq_true hat⟩

def Vfs.rewrites (s : Vfs) (w : ℕ) (data : List UInt8) (o : ℕ) (before after : List UInt8) : Bool :=
  (s.vinode w).any fun i => decide (s.contents i = before) && (rfsWrite w data o s).ends fun r t =>
    decide (r = data.length) && (t.vinode w).any fun j => decide (t.contents j = after)

lemma Vfs.rewrites_iff {before after : List UInt8} (h : s.rewrites w data o before after = true) :
    ∃ i t j, s.vinode w = some i ∧ s.contents i = before ∧ rfsWrite w data o s = .done data.length t ∧
      t.vinode w = some j ∧ t.contents j = after := by
  obtain ⟨i, hi, h⟩ := (Option.any_eq_true _ _).mp h
  rw [Bool.and_eq_true, decide_eq_true_eq] at h
  obtain ⟨r, t, hrun, h'⟩ := Outcome.ends_done h.2
  rw [Bool.and_eq_true, decide_eq_true_eq] at h'
  obtain ⟨j, hj, hafter⟩ := (Option.any_eq_true _ _).mp h'.2
  exact ⟨i, t, j, hi, h.1, h'.1 ▸ hrun, hj, of_decide_eq_true hafter⟩

theorem write_spoils_tail : ∃ s i t j, Reached FsOp.Allowed s ∧ s.vinode 6 = some i ∧ s.contents i = [1, 2] ∧
    rfsWrite 6 [9] 0 s = .done 1 t ∧ t.vinode 6 = some j ∧ t.contents j = [9, 0] := by
  have hrun : FsOp.leadsTo (fun s op => op.allowed s)
      [.opens 0 (onRamdisk [97]) 66, .write 7 [1, 2], .look 0 (onRamdisk [98])]
      (fun s => s.rewrites 6 [9] 0 [1, 2] [9, 0]) = true := by decide +kernel
  obtain ⟨s, hs, hwrite⟩ := Reached.of_run (fun h => FsOp.allowed_of h) hrun
  obtain ⟨i, t, j, h⟩ := Vfs.rewrites_iff hwrite
  exact ⟨s, i, t, j, hs, h⟩

theorem write_replaces_range_iff_created : ∃ s i t j, Stored s 6 i ∧ s.contents i = [] ∧
    rfsWrite 6 [3] (0 : ℕ) s = .done 1 t ∧ t.vinode 6 = some j ∧ t.contents j = [3] := by
  obtain ⟨s, i, -, hi, hsize, -, hfree⟩ := created_file
  have hfree' : blocksFor (0 + ([3] : List UInt8).length) ≤ (s.space i).blocks + freeCount s.freemap := by
    change 1 ≤ _
    omega
  have hempty : s.contents i = [] := by
    rw [Vfs.contents, hsize]
    rfl
  obtain ⟨t, j, hwrite, hj, -, hiff⟩ := write_replaces_range_iff hi (by omega) (by decide) hfree'
  refine ⟨s, i, t, j, hi, hempty, hwrite, hj, ?_⟩
  rw [hiff.mpr, hempty]
  · rfl
  · intro p hp
    omega

section Appending

def appendAll (f : ℕ) : List (List UInt8) → ℤ → Flow Vfs ℤ
  | [], offset => pure offset
  | data :: rest, offset => do
    let n ← rfsWrite f data offset
    appendAll f rest (offset + n)

lemma append_eq (hs : Stored s w i)
    (ha : (s.space i).extend (blocksFor (i.size.toNat + data.length) - (s.space i).blocks) = some a) :
    ∃ D io, rfsWrite w data i.size s = .done data.length (s.filled w (i.reaching (i.size + data.length)) D io a) ∧
      (s.filled w (i.reaching (i.size + data.length)) D io a).contents ((i.reaching (i.size + data.length)).withSpace a) =
        s.contents i ++ data := by
  have hcast : (i.size.toNat : ℤ) = i.size := Int.toNat_of_nonneg hs.size.1
  obtain ⟨D, io, hrun, hbytes⟩ := rfsWriteBy_done anyAddr_good hs hcast.le ha
  have hcontents := (contents_written io hs hcast.le ha hbytes).mpr (by
    intro p hp hspill
    have hbehind := hspill.2.2.1
    omega)
  have hlen : (s.contents i).length = i.size.toNat := by rw [Vfs.contents, List.length_map, List.length_range]
  rw [rfsWriteBy_any] at hrun
  rw [← hlen, splice_end, hlen, hcast] at hcontents
  rw [hcast] at hrun
  exact ⟨D, io, hrun, hcontents⟩

lemma Vinode.reaching_reaching {e e' : ℤ} (c : Space) (he : e ≤ e') :
    (((i.reaching e).withSpace c).reaching e').withSpace a = (i.reaching e').withSpace a := by
  have hsize : (if (if i.size < e then e else i.size) < e' then e' else if i.size < e then e else i.size) =
      if i.size < e' then e' else i.size := by
    split_ifs <;> omega
  change Vinode.mk (Dinode.mk (ite _ _ _) _ _ _ _) _ _ _ _ = _
  rw [show ((i.reaching e).withSpace c).size = if i.size < e then e else i.size from rfl, hsize]
  rfl

lemma Vfs.filled_again {D D' : ℕ → ℕ → UInt8} {io io' : ℕ → UInt8} {c : Space} {e e' : ℤ} (he : e ≤ e') :
    (s.filled w (i.reaching e) D io c).filled w (((i.reaching e).withSpace c).reaching e') D' io' a =
      s.filled w (i.reaching e') D' io' a := by
  change Vfs.mk _ _ _ _ _ (update (update s.vinode w _) w _) _ _ _ _ _ _ _ _ _ _ _ = _
  rw [update_idem, Vinode.reaching_reaching c he]
  rfl

lemma appendAll_eq {pieces : List (List UInt8)} (hs : Stored s w i)
    (ha : (s.space i).extend (blocksFor (i.size.toNat + pieces.flatten.length) - (s.space i).blocks) = some a) :
    ∃ D io, appendAll w pieces i.size s = .done (i.size + pieces.flatten.length)
        (s.filled w (i.reaching (i.size + pieces.flatten.length)) D io a) ∧
      (s.filled w (i.reaching (i.size + pieces.flatten.length)) D io a).contents
        ((i.reaching (i.size + pieces.flatten.length)).withSpace a) = s.contents i ++ pieces.flatten := by
  have hb := s.space_blocks hs.nonneg
  have hsize := hs.size
  induction pieces generalizing s i with
  | nil =>
    have hfor := blocksFor_bounds i.size.toNat
    have hreach : i.reaching (i.size + ([] : List UInt8).length) = i := by
      rw [Vinode.reaching, List.length_nil, Nat.cast_zero, add_zero, if_neg (lt_irrefl _)]
    have hnone : blocksFor (i.size.toNat + ([] : List (List UInt8)).flatten.length) - (s.space i).blocks = 0 := by
      change blocksFor i.size.toNat - _ = 0
      omega
    rw [hnone, Space.extend, Option.some.injEq] at ha
    subst ha
    refine ⟨s.disk, s.iobuffer, ?_, ?_⟩
    · rw [List.flatten_nil, hreach, Vfs.filled_self hs, List.length_nil, Nat.cast_zero, add_zero]
      rfl
    · rw [List.flatten_nil, hreach, Vfs.filled_self hs, Vinode.withSpace_space hs.nonneg, List.append_nil]
  | cons d rest ih =>
    have hcast : (i.size.toNat : ℤ) = i.size := Int.toNat_of_nonneg hs.size.1
    have htotal : (d :: rest).flatten.length = d.length + rest.flatten.length := by
      rw [List.flatten_cons, List.length_append]
    have hfor := blocksFor_bounds (i.size.toNat + d.length)
    have hfor' := blocksFor_bounds (i.size.toNat + (d :: rest).flatten.length)
    -- the blocks for the first piece come first
    have hsplit : blocksFor (i.size.toNat + (d :: rest).flatten.length) - (s.space i).blocks =
        blocksFor (i.size.toNat + d.length) - (s.space i).blocks + (blocksFor (i.size.toNat + (d :: rest).flatten.length) -
          max (s.space i).blocks (blocksFor (i.size.toNat + d.length))) := by
      omega
    rw [hsplit, Space.extend_add] at ha
    obtain ⟨c, hc, ha⟩ := Option.bind_eq_some_iff.mp ha
    have hmax : c.blocks = max (s.space i).blocks (blocksFor (i.size.toNat + d.length)) := by
      have hblocks := (Space.extend_spec hs.owns hc).2.1
      omega
    obtain ⟨D, io, hrun, hcontents⟩ := append_eq hs hc
    have hs' : Stored (s.filled w (i.reaching (i.size + d.length)) D io c) w
        ((i.reaching (i.size + d.length)).withSpace c) := by
      have hwritten := hs.written D io hc
      rwa [hcast] at hwritten
    have hsize' : ((i.reaching (i.size + d.length)).withSpace c).size = i.size + d.length := by
      change (if i.size < i.size + d.length then i.size + (d.length : ℤ) else i.size) = _
      split_ifs <;> omega
    have hend : ((i.reaching (i.size + d.length)).withSpace c).size + rest.flatten.length =
        i.size + (d :: rest).flatten.length := by
      rw [hsize', htotal]
      push_cast
      ring
    have hnat : ((i.reaching (i.size + d.length)).withSpace c).size.toNat + rest.flatten.length =
        i.size.toNat + (d :: rest).flatten.length := by
      omega
    obtain ⟨D', io', hrest, hcontents'⟩ := ih hs' (by rw [hnat, Vfs.filled_space, hmax]; exact ha)
      (Vfs.space_blocks hs'.nonneg) hs'.size
    rw [hend, Vfs.filled_again (by omega)] at hrest hcontents'
    rw [Vinode.reaching_reaching c (by omega), hcontents, List.append_assoc] at hcontents'
    refine ⟨D', io', ?_, hcontents'⟩
    rw [hsize'] at hrest
    rw [appendAll, bind_done hrun]
    exact hrest

/-- It does not matter in which pieces data is appended. -/
theorem append_in_pieces {pieces : List (List UInt8)} (hs : Stored s w i)
    (hfit : i.size.toNat + pieces.flatten.length ≤ 40960)
    (hfree : blocksFor (i.size.toNat + pieces.flatten.length) ≤ (s.space i).blocks + freeCount s.freemap) :
    ∃ t u j, appendAll w pieces i.size s = .done (i.size + pieces.flatten.length) t ∧
      rfsWrite w pieces.flatten i.size s = .done pieces.flatten.length u ∧
      t.vinode w = some j ∧ u.vinode w = some j ∧ j.size = i.size + pieces.flatten.length ∧ t.freemap = u.freemap ∧
      t.contents j = s.contents i ++ pieces.flatten ∧ u.contents j = s.contents i ++ pieces.flatten := by
  obtain ⟨a, ha⟩ := hs.extends hfit hfree
  obtain ⟨D, io, hrun, hcontents⟩ := appendAll_eq hs ha
  obtain ⟨D', io', hrun', hcontents'⟩ := append_eq hs ha
  refine ⟨_, _, _, hrun, hrun', update_self _ _ _, update_self _ _ _, ?_, rfl, hcontents, hcontents'⟩
  change (if i.size < i.size + pieces.flatten.length then i.size + (pieces.flatten.length : ℤ) else i.size) = _
  split_ifs <;> omega

theorem append_in_pieces_created : ∃ s t j, appendAll 6 [[1], [], [2, 3]] 0 s = .done 3 t ∧ t.vinode 6 = some j ∧
    t.contents j = [1, 2, 3] := by
  obtain ⟨s, i, -, hi, hsize, -, hfree⟩ := created_file
  have hend : i.size.toNat + ([[1], [], [2, 3]] : List (List UInt8)).flatten.length = 3 := by
    rw [hsize]
    rfl
  have hempty : s.contents i = [] := by
    rw [Vfs.contents, hsize]
    rfl
  obtain ⟨t, u, j, hrun, -, hj, -, -, -, hcontents, -⟩ := append_in_pieces hi (by rw [hend]; norm_num)
    (by rw [hend]; change 1 ≤ _; omega)
  rw [hsize] at hrun
  rw [hempty] at hcontents
  exact ⟨s, t, j, hrun, hj, hcontents⟩

end Appending

end Pke.Files
