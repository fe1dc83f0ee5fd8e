import Pke.Files.DiskViews

/-! What the functions of `rfs.c` do, where the numbers that they are given are in range. What is left in the buffer
is not said. -/

namespace Pke.Files

open Lib Flow Function

variable {s : Vfs} {v n m k len : ℕ} {i : Vinode} {d : Dinode} {nm : Name} {z : ℤ}

def overlay (block rest : ℕ → UInt8) : ℕ → UInt8 := fun x => if x < rfsBlksize then block x else rest x

lemma overlay_apply {block rest : ℕ → UInt8} {x : ℕ} (hx : x < 4096) : overlay block rest x = block x := if_pos hx

lemma overlay_overlay (b r r' : ℕ → UInt8) : overlay (overlay b r) r' = overlay b r' := by
  funext x
  by_cases hx : x < 4096
  · rw [overlay_apply hx, overlay_apply hx, overlay_apply hx]
  · exact (if_neg hx).trans (if_neg hx).symm

lemma overlay_shift (b r : ℕ → UInt8) (j : ℕ) : overlay (shiftDirentrys (overlay b r) j) b = shiftDirentrys b j := by
  funext x
  by_cases hx : x < 4096
  · rw [overlay_apply hx, shiftDirentrys_apply, shiftDirentrys_apply]
    by_cases hin : j * 32 ≤ x ∧ x < 4064
    · rw [if_pos hin, if_pos hin, overlay_apply (by omega)]
    · rw [if_neg hin, if_neg hin, overlay_apply hx]
  · rw [shiftDirentrys_apply, if_neg (by omega)]
    exact if_neg hx

lemma setVinode_eq : setVinode v i s = .done () { s with vinode := update s.vinode v (some i) } := rfl

lemma rfsR1block_eq (hn : n < 128) :
    rfsR1block n s = .done () { s with iobuffer := overlay (s.disk n) s.iobuffer } := by
  have hin : ¬ ((n : ℤ) < 0 ∨ ramdiskBlockCount ≤ (n : ℤ)) := by
    change ¬ ((n : ℤ) < 0 ∨ 128 ≤ (n : ℤ))
    omega
  rw [rfsR1block, if_neg hin]
  rfl

lemma rfsW1block_eq (hn : n < 128) :
    rfsW1block n s = .done () { s with disk := update s.disk n (overlay s.iobuffer (s.disk n)) } := by
  have hin : ¬ ((n : ℤ) < 0 ∨ ramdiskBlockCount ≤ (n : ℤ)) := by
    change ¬ ((n : ℤ) < 0 ∨ 128 ≤ (n : ℤ))
    omega
  rw [rfsW1block, if_neg hin]
  rfl

section Inodes

lemma inodeBlock_nat : inodeBlock (n : ℤ) = ((n / 32 + 1 : ℕ) : ℤ) := by
  rw [inodeBlock, Int.tdiv_eq_ediv_of_nonneg (by omega)]
  push_cast
  rfl

lemma tmod_nat : ((n : ℤ).tmod 32) = ((n % 32 : ℕ) : ℤ) := by
  rw [Int.tmod_eq_emod_of_nonneg (by omega)]
  push_cast
  rfl

lemma inode_block_lt (hn : n < ninodes) : n / 32 + 1 < 128 := by
  change n < 320 at hn
  omega

lemma dnode_overlay (disk : ℕ → ℕ → UInt8) (rest : ℕ → UInt8) :
    loadDinode (overlay (disk (n / 32 + 1)) rest) (n % 32 * 128) = dnode disk n := by
  apply loadDinode_congr
  intro i hi
  exact overlay_apply (by omega)

lemma rfsReadDinode_eq (hn : n < ninodes) :
    ∃ io, rfsReadDinode n s = .done (dnode s.disk n) { s with iobuffer := io } := by
  refine ⟨overlay (s.disk (n / 32 + 1)) s.iobuffer, ?_⟩
  rw [rfsReadDinode, inodeBlock_nat, bind_done (rfsR1block_eq (inode_block_lt hn)), tmod_nat, if_neg (by omega), get_bind]
  change Outcome.done (loadDinode (overlay (s.disk (n / 32 + 1)) s.iobuffer) (n % 32 * 128)) _ = _
  rw [dnode_overlay]

lemma overlay_storeDinode (block rest : ℕ → UInt8) :
    overlay (storeDinode (overlay block rest) (n % 32 * 128) d) block = storeDinode block (n % 32 * 128) d := by
  funext x
  by_cases hx : x < 4096
  · rw [overlay_apply hx, storeDinode, storeDinode, overlay_apply hx]
  · rw [overlay, if_neg hx, storeDinode_apply (by omega)]

lemma rfsWriteDinode_eq (hn : n < ninodes) :
    ∃ io, rfsWriteDinode d n s = .done () { s with disk := setDnode s.disk n d, iobuffer := io } := by
  refine ⟨storeDinode (overlay (s.disk (n / 32 + 1)) s.iobuffer) (n % 32 * 128) d, ?_⟩
  rw [rfsWriteDinode, inodeBlock_nat, bind_done (rfsR1block_eq (inode_block_lt hn)), tmod_nat, if_neg (by omega),
    modify_bind, rfsW1block_eq (inode_block_lt hn)]
  change Outcome.done () { s with
    disk := update s.disk (n / 32 + 1) (overlay (storeDinode (overlay (s.disk (n / 32 + 1)) s.iobuffer)
      (n % 32 * 128) d) (s.disk (n / 32 + 1))), iobuffer := _ } = _
  rw [overlay_storeDinode]
  rfl

lemma rfsWriteBackVinode_eq (hv : s.vinode v = some i) (hi : i.inum = n) (hn : n < ninodes) :
    ∃ io, rfsWriteBackVinode v s = .done () { s with disk := setDnode s.disk n i.toDinode, iobuffer := io } := by
  rw [rfsWriteBackVinode, bind_done (getVinode_eq hv), hi]
  exact rfsWriteDinode_eq hn

lemma rfsUpdateVinode_eq (hv : s.vinode v = some i) (hi : i.inum = n) (hn : n < ninodes) :
    ∃ io, rfsUpdateVinode v s = .done () { s with
      vinode := update s.vinode v (some { i with toDinode := dnode s.disk n }), iobuffer := io } := by
  obtain ⟨io, hio⟩ := rfsReadDinode_eq (s := s) hn
  refine ⟨io, ?_⟩
  rw [rfsUpdateVinode, bind_done (getVinode_eq hv), hi, bind_done hio]
  rfl

lemma alloc_and_update (hn : n < ninodes) : ∃ io, ∀ {α : Type} (f : ℕ → Flow Vfs α),
    (do let w ← rfsAllocVinode n; rfsUpdateVinode w; f w) s = f s.next { s with
      vinode := update s.vinode s.next (some ⟨dnode s.disk n, n, 0, .null, .rfs⟩), next := s.next + 1, iobuffer := io } := by
  have halloc : rfsAllocVinode n s = .done s.next { s with
    vinode := update s.vinode s.next (some ⟨⟨0, 0, 0, 0, fun _ => 0⟩, n, 0, .null, .rfs⟩), next := s.next + 1 } := rfl
  obtain ⟨io, hio⟩ := rfsUpdateVinode_eq (v := s.next) (n := n)
    (s := { s with vinode := update s.vinode s.next (some ⟨⟨0, 0, 0, 0, fun _ => 0⟩, n, 0, .null, .rfs⟩),
                   next := s.next + 1 }) (update_self _ _ _) rfl hn
  refine ⟨io, ?_⟩
  intro α f
  rw [bind_done halloc, bind_done hio]
  change f s.next { s with vinode := update (update s.vinode _ _) s.next _, next := _, iobuffer := io } = _
  rw [update_idem]

lemma findFreeDinode_eq {l : List ℕ} (hl : ∀ i ∈ l, i < ninodes) (hfree : ∃ i ∈ l, (dnode s.disk i).type = rFree) :
    ∃ k ∈ l, (dnode s.disk k).type = rFree ∧
      ∃ io, findFreeDinode l s = .done (some (k, dnode s.disk k)) { s with iobuffer := io } := by
  induction l generalizing s with
  | nil =>
    obtain ⟨i, hi, -⟩ := hfree
    cases hi
  | cons i l ih =>
    obtain ⟨io, hio⟩ := rfsReadDinode_eq (s := s) (hl i List.mem_cons_self)
    rw [findFreeDinode, bind_done hio]
    by_cases hi : (dnode s.disk i).type = rFree
    · rw [if_pos hi]
      exact ⟨i, List.mem_cons_self, hi, io, rfl⟩
    · rw [if_neg hi]
      obtain ⟨j, hj, hjf⟩ := hfree
      have hjl : j ∈ l := by
        rcases List.mem_cons.mp hj with rfl | hj
        · exact absurd hjf hi
        · exact hj
      obtain ⟨k, hk, hkf, io', hio'⟩ := ih (s := { s with iobuffer := io })
        (fun j hj => hl j (List.mem_cons_of_mem _ hj)) ⟨j, hjl, hjf⟩
      exact ⟨k, List.mem_cons_of_mem _ hk, hkf, io', hio'⟩

end Inodes

section Blocks

lemma rfsAllocBlock_eq (hn : s.nblocks = 100) :
    rfsAllocBlock s = .left s ∨ ∃ b < 100, s.freemap b = 0 ∧
      rfsAllocBlock s = .done (12 + b : ℕ) { s with freemap := update s.freemap b 1 } := by
  rw [rfsAllocBlock, get_bind]
  cases hf : (List.range s.nblocks.toNat).find? fun b => s.freemap b = 0 with
  | none => exact .inl rfl
  | some b =>
    have hb := List.mem_range.mp (List.mem_of_find?_eq_some hf)
    rw [hn] at hb
    have hz : s.freemap b = 0 := by simpa using List.find?_some hf
    refine .inr ⟨b, hb, hz, ?_⟩
    change Outcome.done (12 + (b : ℤ)) _ = Outcome.done ((12 + b : ℕ) : ℤ) _
    push_cast
    rfl

lemma rfsFreeBlock_eq : rfsFreeBlock (12 + k : ℕ) s = .done () { s with freemap := update s.freemap k 0 } := by
  have hin : ¬ (((12 + k : ℕ) : ℤ) < rfsBlkOffsetFree) := by
    change ¬ (((12 + k : ℕ) : ℤ) < 12)
    omega
  have hsub : (((12 + k : ℕ) : ℤ) - rfsBlkOffsetFree).toNat = k := by
    change (((12 + k : ℕ) : ℤ) - 12).toNat = k
    omega
  rw [rfsFreeBlock, if_neg hin, hsub]
  rfl

lemma addrAt_eq {addrs : Fin 10 → ℤ} {j : Fin 10} (hz : z = (j : ℕ)) : addrAt addrs z s = .done (addrs j) s := by
  have hin : 0 ≤ z ∧ z < 10 := by omega
  rw [addrAt, dif_pos hin]
  have hj : (⟨z.toNat, by omega⟩ : Fin 10) = j := Fin.ext (by change z.toNat = (j : ℕ); omega)
  rw [hj]
  rfl

lemma takeDinode_eq {type blocks : ℤ} (hn : s.nblocks = 100) (hfree : ∃ i < ninodes, (dnode s.disk i).type = rFree) :
    (∃ io, takeDinode type blocks s = .left { s with iobuffer := io }) ∨
      ∃ k < ninodes, (dnode s.disk k).type = rFree ∧ ∃ b < 100, s.freemap b = 0 ∧ ∃ io,
        takeDinode type blocks s = .done (k : ℤ) { s with
          disk := setDnode s.disk k ⟨0, type, 1, blocks, update (dnode s.disk k).addrs 0 (12 + b : ℕ)⟩
          freemap := update s.freemap b 1, iobuffer := io } := by
  obtain ⟨k, hk, hkf, io, hio⟩ := findFreeDinode_eq (s := s) (l := List.range ninodes)
    (fun i hi => List.mem_range.mp hi) (by simpa using hfree)
  rw [List.mem_range] at hk
  rw [takeDinode, bind_done hio]
  rcases rfsAllocBlock_eq (s := { s with iobuffer := io }) hn with hleft | ⟨b, hb, hz, hdone⟩
  · left
    refine ⟨io, ?_⟩
    change andThen rfsAllocBlock _ _ = _
    rw [andThen, hleft]
  · right
    obtain ⟨io', hio'⟩ := rfsWriteDinode_eq (n := k) (s := { s with iobuffer := io, freemap := update s.freemap b 1 })
      (d := ⟨0, type, 1, blocks, update (dnode s.disk k).addrs 0 (12 + b : ℕ)⟩) hk
    refine ⟨k, hk, hkf, b, hb, hz, io', ?_⟩
    change (rfsAllocBlock >>= _) _ = _
    rw [bind_done hdone, bind_done hio']
    rfl

end Blocks

section Entries

variable {blk : ℕ}

lemma findDirentry_from {addrs : Fin 10 → ℤ} (haddr : addrs 0 = blk) (hblk : blk < 128) (hz : (0 : UInt8) ∉ nm)
    (c j : ℕ) (hc : j + c ≤ 128) (hshort : ∀ x < j + c, (direntry (s.disk blk) x).1.length < 28)
    (hloaded : j = 0 ∨ ∀ x < 4096, s.iobuffer x = s.disk blk x) :
    ∃ io, findDirentry addrs nm (List.range' j c) s =
        .done ((List.range' j c).find? fun x => decide ((direntry (s.disk blk) x).1 = nm)) { s with iobuffer := io } ∧
      (((List.range' j c).find? fun x => decide ((direntry (s.disk blk) x).1 = nm)).isSome →
        ∀ x < 4096, io x = s.disk blk x) := by
  induction c generalizing j s with
  | zero => exact ⟨s.iobuffer, rfl, nofun⟩
  | succ c ih =>
    -- after the first entry the block is in the buffer
    obtain ⟨io, hload, hio⟩ : ∃ io, loadDirentry addrs j s = .done () { s with iobuffer := io } ∧
        ∀ x < 4096, io x = s.disk blk x := by
      rw [loadDirentry]
      by_cases hj : j = 0
      · subst hj
        rw [if_pos (Nat.zero_mod _), Nat.zero_div, bind_done (addrAt_eq (z := (0 : ℕ)) (j := 0) rfl), haddr, rfsR1block_eq hblk]
        exact ⟨_, rfl, fun x hx => overlay_apply hx⟩
      · have hmod : j % oneBlockDirentrys ≠ 0 := by
          change j % 128 ≠ 0
          omega
        rw [if_neg hmod]
        exact ⟨s.iobuffer, rfl, hloaded.resolve_left hj⟩
    have hoff : j % oneBlockDirentrys * direntrySize + 4 = j * 32 + 4 := by
      change j % 128 * 32 + 4 = j * 32 + 4
      rw [Nat.mod_eq_of_lt (by omega)]
    have hread : readString io (j * 32 + 4) 28 = (direntry (s.disk blk) j).1 := by
      apply readString_congr
      intro x hx
      exact hio _ (by omega)
    have hhas : hasString io (j * 32 + 4) nm = decide ((direntry (s.disk blk) j).1 = nm) := by
      have hlen := hshort j (by omega)
      rw [← hread] at hlen ⊢
      exact Bool.eq_iff_iff.mpr ((hasString_iff hz hlen).trans decide_eq_true_iff.symm)
    rw [List.range'_succ, findDirentry, bind_done hload, get_bind, hoff, List.find?_cons]
    change ∃ io', (if hasString io (j * 32 + 4) nm = true then (pure (some j) : Flow Vfs (Option ℕ))
      else findDirentry addrs nm (List.range' (j + 1) c)) { s with iobuffer := io } = _ ∧ _
    rw [hhas]
    cases hdec : decide ((direntry (s.disk blk) j).1 = nm) with
    | true => exact ⟨io, rfl, fun _ => hio⟩
    | false =>
      exact ih (s := { s with iobuffer := io }) (j + 1) (by omega) (fun x hx => hshort x (by omega)) (.inr hio)

lemma findDirentry_eq {addrs : Fin 10 → ℤ} (haddr : addrs 0 = blk) (hblk : blk < 128) (hz : (0 : UInt8) ∉ nm)
    (hlen : len ≤ 128) (hshort : ∀ x < len, (direntry (s.disk blk) x).1.length < 28) :
    ∃ io, findDirentry addrs nm (List.range len) s =
        .done ((List.range len).find? fun x => decide ((direntry (s.disk blk) x).1 = nm)) { s with iobuffer := io } ∧
      (((List.range len).find? fun x => decide ((direntry (s.disk blk) x).1 = nm)).isSome →
        ∀ x < 4096, io x = s.disk blk x) := by
  rw [List.range_eq_range']
  exact findDirentry_from haddr hblk hz len 0 (by omega) (fun x hx => hshort x (by omega)) (.inl rfl)

lemma totalDirentrys_eq (hsize : z = 32 * len) : totalDirentrys z = len := by
  rw [totalDirentrys, hsize]
  change (32 * (len : ℤ)).toNat / 32 = len
  omega

lemma rfsAddDirentry_eq (hv : s.vinode v = some i) (htype : i.type = dirI) (hsize : i.size = 32 * len)
    (hend : len * 32 + 4 + nm.length < 4096) (haddr : i.addrs 0 = blk) (hblk : blk < 128) (hi : i.inum = n) (hn : n < ninodes) :
    ∃ io, rfsAddDirentry v nm z s = .done 0 { s with
      disk := setDnode (update s.disk blk (putDirentry (s.disk blk) (len * 32) nm z)) n
        { i.toDinode with size := 32 * (len + 1 : ℕ) }
      vinode := update s.vinode v (some { i with size := 32 * (len + 1 : ℕ) }), iobuffer := io } := by
  have hdiv : i.size.tdiv rfsBlksize = ((0 : Fin 10) : ℕ) := by
    rw [hsize]
    change (32 * (len : ℤ)).tdiv 4096 = 0
    rw [Int.tdiv_eq_ediv_of_nonneg (by omega)]
    omega
  have hmod : i.size.tmod rfsBlksize = ((len * 32 : ℕ) : ℤ) := by
    rw [hsize]
    change (32 * (len : ℤ)).tmod 4096 = _
    rw [Int.tmod_eq_emod_of_nonneg (by omega)]
    omega
  have hfit : ¬ (((len * 32 : ℕ) : ℤ) < 0 ∨ (rfsBlksize : ℤ) < ((len * 32 : ℕ) : ℤ) + 4 + nm.length + 1) := by
    change ¬ (((len * 32 : ℕ) : ℤ) < 0 ∨ (4096 : ℤ) < ((len * 32 : ℕ) : ℤ) + 4 + nm.length + 1)
    omega
  have hnew : i.size + direntrySize = 32 * (len + 1 : ℕ) := by
    rw [hsize]
    change 32 * (len : ℤ) + 32 = _
    omega
  -- the bytes outside of the entry are those of the block
  have hput : overlay (putDirentry (overlay (s.disk blk) s.iobuffer) (len * 32) nm z) (s.disk blk) =
      putDirentry (s.disk blk) (len * 32) nm z := by
    funext x
    by_cases hx : x < 4096
    · rw [overlay_apply hx]
      exact putDirentry_congr (overlay_apply hx)
    · rw [overlay, if_neg hx, putDirentry_of_notMem (by omega)]
  rw [rfsAddDirentry, bind_done (getVinode_eq hv), if_neg (fun h => h htype), hdiv, bind_done (addrAt_eq rfl), haddr,
    bind_done (rfsR1block_eq hblk), hmod, if_neg hfit, modify_bind, bind_done (rfsW1block_eq hblk), bind_done setVinode_eq,
    hnew]
  obtain ⟨io, hio⟩ := rfsWriteBackVinode_eq (v := v) (n := n) (i := { i with size := 32 * (len + 1 : ℕ) })
    (s := { s with disk := update s.disk blk (putDirentry (s.disk blk) (len * 32) nm z)
                   iobuffer := putDirentry (overlay (s.disk blk) s.iobuffer) (len * 32) nm z
                   vinode := update s.vinode v (some { i with size := 32 * (len + 1 : ℕ) }) })
    (update_self _ _ _) hi hn
  refine ⟨io, ?_⟩
  change (rfsWriteBackVinode v >>= _) { s with
    disk := update s.disk blk (overlay (putDirentry (overlay (s.disk blk) s.iobuffer) (len * 32) nm z) (s.disk blk))
    iobuffer := putDirentry (overlay (s.disk blk) s.iobuffer) (len * 32) nm z
    vinode := update s.vinode v (some { i with size := 32 * (len + 1 : ℕ) }) } = _
  rw [hput, bind_done hio]
  rfl

lemma removeDirentry_eq (hv : s.vinode v = some i) (hblocks : i.blocks = 1) (hsize : i.size = 32 * len) (hlen : len ≤ 128)
    (hk : k < len) (haddr : i.addrs 0 = blk) (hblk : blk < 128) (hi : i.inum = n) (hn : n < ninodes) :
    ∃ io, removeDirentry v k s = .done () { s with
      disk := setDnode (update s.disk blk (shiftDirentrys (s.disk blk) k)) n
        { i.toDinode with size := 32 * (len - 1 : ℕ) }
      vinode := update s.vinode v (some { i with size := 32 * (len - 1 : ℕ) }), iobuffer := io } := by
  have hdiv : ((k / oneBlockDirentrys : ℕ) : ℤ) = ((0 : Fin 10) : ℕ) := by
    change ((k / 128 : ℕ) : ℤ) = 0
    omega
  have hmod : k % oneBlockDirentrys = k := Nat.mod_eq_of_lt (by change k < 128; omega)
  have hdrop : (List.range i.blocks.toNat).drop (k / oneBlockDirentrys + 1) = [] := by
    apply List.drop_of_length_le
    rw [hblocks, List.length_range]
    change 1 ≤ k / 128 + 1
    omega
  have hlast : i.blocks - 1 = ((0 : Fin 10) : ℕ) := by rw [hblocks]; rfl
  have hmore : ¬ ((totalDirentrys i.size - 1) % oneBlockDirentrys = 0 ∧ 1 < i.blocks) := by
    rw [hblocks]
    omega
  have hnew : i.size - direntrySize = 32 * (len - 1 : ℕ) := by
    rw [hsize]
    change 32 * (len : ℤ) - 32 = _
    omega
  rw [removeDirentry, bind_done (getVinode_eq hv), hdiv, bind_done (addrAt_eq rfl), haddr, bind_done (rfsR1block_eq hblk),
    get_bind, hdrop, hmod]
  change ∃ io, (do
    modify fun t => { t with
      iobuffer := fun x => if x < rfsBlksize then shiftDirentrys (overlay (s.disk blk) s.iobuffer) k x else t.iobuffer x }
    let final ← addrAt i.addrs (i.blocks - 1)
    rfsW1block final
    if (totalDirentrys i.size - 1) % oneBlockDirentrys = 0 ∧ 1 < i.blocks then do
      rfsFreeBlock final
      setVinode v { i with blocks := i.blocks - 1, size := i.size - direntrySize }
      rfsWriteBackVinode v
    else do
      setVinode v { i with size := i.size - direntrySize }
      rfsWriteBackVinode v : Flow Vfs Unit) { s with iobuffer := overlay (s.disk blk) s.iobuffer } = _
  rw [modify_bind, hlast, bind_done (addrAt_eq rfl), haddr, bind_done (rfsW1block_eq hblk), if_neg hmore,
    bind_done setVinode_eq, hnew]
  obtain ⟨io, hio⟩ := rfsWriteBackVinode_eq (v := v) (n := n) (i := { i with size := 32 * (len - 1 : ℕ) })
    (s := { s with
      disk := update s.disk blk (shiftDirentrys (s.disk blk) k)
      iobuffer := overlay (shiftDirentrys (overlay (s.disk blk) s.iobuffer) k) (overlay (s.disk blk) s.iobuffer)
      vinode := update s.vinode v (some { i with size := 32 * (len - 1 : ℕ) }) })
    (update_self _ _ _) hi hn
  refine ⟨io, ?_⟩
  rw [← hio]
  change rfsWriteBackVinode v { s with
    disk := update s.disk blk (overlay (overlay (shiftDirentrys (overlay (s.disk blk) s.iobuffer) k)
      (overlay (s.disk blk) s.iobuffer)) (s.disk blk))
    iobuffer := overlay (shiftDirentrys (overlay (s.disk blk) s.iobuffer) k) (overlay (s.disk blk) s.iobuffer)
    vinode := update s.vinode v (some { i with size := 32 * (len - 1 : ℕ) }) } = _
  rw [overlay_overlay, overlay_shift]

end Entries

end Pke.Files
