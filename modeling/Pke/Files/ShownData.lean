import Pke.Files.Shown

namespace Pke.Files

open Lib Flow Function

namespace Shows

variable {s t : Vfs} {h : ℕ → Option ℕ} {V : Vol} {n k v w : ℕ} {i : Vinode}

lemma congr (hs : Shows s h V) (hdisk : t.disk = s.disk) (hfree : t.freemap = s.freemap) (hnb : t.nblocks = s.nblocks)
    (hvin : ∀ n x, h n = some x → ∀ i, s.vinode x = some i → ∃ j, t.vinode x = some j ∧ j.toDinode = i.toDinode ∧
      j.inum = i.inum ∧ j.sb = i.sb) : Shows t h V where
  node n hn := by rw [hdisk, hs.node n hn]
  dir n hn := by rw [hdisk, hs.dir n hn]
  used b := by rw [hfree, hs.used b]
  nblocks := by rw [hnb, hs.nblocks]
  held n x hx := by
    obtain ⟨i, hi, hin, hsb, hc, hfits⟩ := hs.held n x hx
    obtain ⟨j, hj, hd, hjn, hjsb⟩ := hvin n x hx i hi
    refine ⟨j, hj, hjn.trans hin, hjsb.trans hsb, ?_, ?_⟩
    · rw [hd, hc]
    · rw [hd]
      exact hfits
  clear := hs.clear

lemma load (hs : Shows s h V) (hk : k < ninodes) (hi : s.vinode v = some i) (hin : i.inum = k) (hsb : i.sb = .rfs)
    (hnode : i.toDinode = V.node k) : Shows s (update h k (some v)) (V.load k) where
  node := hs.node
  dir := hs.dir
  used := hs.used
  nblocks := hs.nblocks
  held n x hx := by
    rw [Vol.load_cached]
    by_cases hnk : n = k
    · subst hnk
      rw [update_self, Option.some.injEq] at hx
      subst hx
      refine ⟨i, hi, hin, hsb, ?_, ?_⟩
      · rw [update_self, hnode]
      · rw [hnode, ← hs.node n hk]
        exact dnode_fits _ _
    · rw [update_of_ne hnk] at hx ⊢
      exact hs.held n x hx
  clear n hx := by
    rw [Vol.load_cached]
    by_cases hnk : n = k
    · subst hnk
      rw [update_self] at hx
      cases hx
    · rw [update_of_ne hnk] at hx ⊢
      exact hs.clear n hx

lemma sync (hs : Shows s h V) (hV : V.Ok) (hw : h n = some w) : ∃ disk io,
    rfsWriteBackVinode w s = .done () { s with disk := disk, iobuffer := io } ∧
      Shows { s with disk := disk, iobuffer := io } (update h n none) (V.sync n none) := by
  obtain ⟨i, hi, hin, hsb, hc, hfits⟩ := hs.held n w hw
  obtain ⟨hlive, ha⟩ := hV.tree.cached n _ hc
  obtain ⟨io, hio⟩ := rfsWriteBackVinode_eq hi hin hlive.1
  have hcur : V.cur n = i.toDinode := Vol.cur_cached hc
  refine ⟨setDnode s.disk n i.toDinode, io, hio, ⟨?_, ?_, hs.used, hs.nblocks, ?_, ?_⟩⟩
  · intro m hm
    change dnode (setDnode s.disk n i.toDinode) m = _
    rw [Vol.sync_node, hcur]
    by_cases hmn : m = n
    · subst hmn
      rw [update_self, dnode_setDnode hfits]
    · rw [update_of_ne hmn, dnode_setDnode_of_ne hmn, hs.node m hm]
  · intro m hm
    have hnode : (V.sync n none).node m = V.node m := by
      rw [Vol.sync_node]
      by_cases hmn : m = n
      · subst hmn
        have htype : (V.node m).type = dirI := by
          have hm2 := hm.2
          rw [Vol.sync_node, update_self, hcur] at hm2
          rw [← ha.type, hm2]
        rw [update_self, hV.tree.cur_dir ⟨hm.1, htype⟩]
      · rw [update_of_ne hmn]
    have hm' : V.IsDir m := ⟨hm.1, by rw [← hnode]; exact hm.2⟩
    obtain ⟨blk, hblk, hge, -, -⟩ := dir_block hV hm'
    rw [hnode, hblk, Int.toNat_natCast]
    change direntrys (setDnode s.disk n i.toDinode blk) (V.dir m).length = V.dir m
    rw [setDnode_block hlive.1 (by omega)]
    exact hs.dir_entries hm' hblk
  · intro m x hx
    rw [Vol.sync_cached]
    by_cases hmn : m = n
    · subst hmn
      rw [update_self] at hx
      cases hx
    · rw [update_of_ne hmn] at hx ⊢
      exact hs.held m x hx
  · intro m hx
    rw [Vol.sync_cached]
    by_cases hmn : m = n
    · rw [hmn, update_self]
    · rw [update_of_ne hmn] at hx ⊢
      exact hs.clear m hx

lemma data (hs : Shows s h V) (hV : V.Ok) (hfile : (V.node n).type = fileI) {j : Fin 10} {b : ℕ} (hb : V.Holds n j b)
    (block io : ℕ → UInt8) : Shows { s with disk := update s.disk b block, iobuffer := io } h V := by
  have hin := hV.range (hV.blocks.taken hb)
  rw [Set.mem_Ico] at hin
  refine ⟨?_, ?_, hs.used, hs.nblocks, hs.held, hs.clear⟩
  · intro m hm
    rw [← hs.node m hm]
    exact dnode_update_block hm (by omega) block
  · intro m hm
    obtain ⟨blk, hblk, -, -, hholds⟩ := dir_block hV hm
    have hne : blk ≠ b := by
      rintro rfl
      have hmn := (hV.blocks.own hholds hb).1
      rw [hmn] at hm
      exact absurd (hfile.symm.trans hm.2) (by decide)
    rw [hblk, Int.toNat_natCast]
    change direntrys (update s.disk b block blk) (V.dir m).length = V.dir m
    rw [update_of_ne hne]
    exact hs.dir_entries hm hblk

structure Filled (V : Vol) (n : ℕ) (W : Vol) : Prop where
  node : W.node = V.node
  dir : W.dir = V.dir
  others : ∀ m ≠ n, W.cached m = V.cached m
  used : V.used ⊆ W.used
  holds : ∀ {m i b}, W.Holds m i b → V.Holds m i b ∨ b ∉ V.used

structure Wrote (s : Vfs) (h : ℕ → Option ℕ) (V : Vol) (n : ℕ) (size k : ℤ) (t : Vfs) : Prop where
  same : SameCaches s t
  next : t.next = s.next
  beyond : ∀ x ≥ s.next, t.vinode x = s.vinode x
  volume : ∃ W c, Shows t h W ∧ W.Ok ∧ Filled V n W ∧ W.cached n = some c ∧ k ≤ c.blocks ∧ c.size = size

section Write

variable {size : ℤ} {k : ℤ} {U : Prop}

lemma Wrote.le {k' : ℤ} (hw : Wrote s h V n size k t) (hle : k' ≤ k) : Wrote s h V n size k' t := by
  obtain ⟨W, c, hshow, hok, hfill, hc, hk, hsize⟩ := hw.volume
  exact ⟨hw.same, hw.next, hw.beyond, W, c, hshow, hok, hfill, hc, hle.trans hk, hsize⟩

variable (hw : h n = some w) (hlow : w < s.next) (hfile : (V.node n).type = fileI)
include hw hlow hfile

lemma growTo_safe (ht : Wrote s h V n size k t) (hk : 0 ≤ k ∧ k < 10) :
    safe U (growTo w k) (fun _ => Wrote s h V n size (k + 1)) (Wrote s h V n size k) t := by
  obtain ⟨W, c, hshow, hok, hfill, hc, hkc, hsize⟩ := ht.volume
  obtain ⟨i, hi, hin, hsb, hc', hfits⟩ := hshow.held n w hw
  rw [hc, Option.some.injEq] at hc'
  subst hc'
  rw [growTo]
  refine safe_bind_done (getVinode_eq hi) ?_
  by_cases heq : k = i.blocks
  · rw [if_pos heq]
    rcases rfsAllocBlock_eq hshow.nblocks with hleft | ⟨b, hb, hbz, hdone⟩
    · refine safe_bind (safe_left hleft ht)
    · refine safe_bind_done hdone ?_
      rw [dif_pos hk]
      have hfile' : (W.node n).type = fileI := by rw [hfill.node, hfile]
      have hunused : ((12 + b : ℕ) : ℤ) ∉ W.used := fun hmem => ((hshow.used b).mp hmem).2 hbz
      have hlast : (((⟨k.toNat, by omega⟩ : Fin 10) : ℕ) : ℤ) = i.blocks := by
        change ((k.toNat : ℕ) : ℤ) = _
        omega
      have hok' := hok.grow hc hfile' hlast hunused ⟨by omega, by omega⟩
      have hfill' : Filled V n (W.setCached n { i.toDinode with
          addrs := update i.addrs ⟨k.toNat, by omega⟩ ((12 + b : ℕ) : ℤ), blocks := i.blocks + 1 }
          (insert ((12 + b : ℕ) : ℤ) W.used)) := by
        refine ⟨hfill.node, hfill.dir, fun m hm => (update_of_ne hm _ _).trans (hfill.others m hm),
          hfill.used.trans (Set.subset_insert _ _), ?_⟩
        intro m j b' hh
        rcases Vol.grow_holds hc hlast hh with hh | ⟨-, -, rfl⟩
        · exact hfill.holds hh
        · exact .inr fun hb' => hunused (hfill.used hb')
      refine ⟨?_, ht.next, ?_, _, _, ?_, hok', hfill', update_self _ _ _, ?_, hsize⟩
      · refine { ht.same with tag := ?_ }
        intro x hx
        rw [← ht.same.tag x hx]
        change (update t.vinode w _ x).map _ = _
        by_cases hxw : x = w
        · rw [hxw, update_self, hi]
          rfl
        · rw [update_of_ne hxw]
      · intro x hx
        rw [← ht.beyond x hx]
        exact update_of_ne (by omega) _ _
      · refine ⟨hshow.node, hshow.dir, ?_, hshow.nblocks, ?_, ?_⟩
        · intro b'
          change _ ↔ b' < 100 ∧ update t.freemap b 1 b' ≠ 0
          by_cases hbb : b' = b
          · subst hbb
            rw [update_self]
            exact iff_of_true (Set.mem_insert _ _) ⟨hb, one_ne_zero⟩
          · rw [update_of_ne hbb, ← hshow.used b']
            exact Set.mem_insert_iff.trans (or_iff_right fun e => hbb (by omega))
        · intro m x hx
          by_cases hmn : m = n
          · subst hmn
            rw [hw, Option.some.injEq] at hx
            subst hx
            refine ⟨_, update_self _ _ _, hin, hsb, update_self _ _ _, ?_⟩
            refine Dinode.fits_of (hfits 0) (hfits 1) (hfits 2) ?_ ?_
            · change -2 ^ 31 ≤ i.blocks + 1 ∧ i.blocks + 1 < 2 ^ 31
              omega
            · intro j
              change -2 ^ 31 ≤ update i.addrs _ ((12 + b : ℕ) : ℤ) j ∧ update i.addrs _ ((12 + b : ℕ) : ℤ) j < 2 ^ 31
              by_cases hj : j = ⟨k.toNat, by omega⟩
              · rw [hj, update_self]
                omega
              · rw [update_of_ne hj]
                exact hfits.addrs j
          · have hxw : x ≠ w := by
              rintro rfl
              exact hmn (hshow.held_inj hx hw)
            obtain ⟨i', hi', hin', hsb', hc', hfits'⟩ := hshow.held m x hx
            exact ⟨i', (update_of_ne hxw _ _).trans hi', hin', hsb', (update_of_ne hmn _ _).trans hc', hfits'⟩
        · intro m hx
          have hmn : m ≠ n := by
            rintro rfl
            rw [hw] at hx
            cases hx
          exact (update_of_ne hmn _ _).trans (hshow.clear m hx)
      · change k + 1 ≤ i.blocks + 1
        omega
  · rw [if_neg heq]
    refine safe_pure ⟨ht.same, ht.next, ht.beyond, W, i.toDinode, hshow, hok, hfill, hc, ?_, hsize⟩
    change k ≤ i.blocks at hkc
    omega

omit hlow in
lemma putBlock (ht : Wrote s h V n size (k + 1) t) (hk : 0 ≤ k ∧ k < 10) : ∃ (i : Vinode) (b : ℕ), b < 128 ∧ t.vinode w = some i ∧
    (∀ u, addrAt i.addrs k u = .done (b : ℤ) u) ∧
    ∀ io, rfsW1block b { t with iobuffer := io } =
        .done () { t with disk := update t.disk b (overlay io (t.disk b)), iobuffer := io } ∧
      Wrote s h V n size (k + 1) { t with disk := update t.disk b (overlay io (t.disk b)), iobuffer := io } := by
  obtain ⟨W, c, hshow, hok, hfill, hc, hkc, hsize⟩ := ht.volume
  obtain ⟨i, hi, hin, hsb, hc', hfits⟩ := hshow.held n w hw
  rw [hc, Option.some.injEq] at hc'
  subst hc'
  have hholds : W.Holds n ⟨k.toNat, by omega⟩ (i.addrs ⟨k.toNat, by omega⟩) := by
    refine ⟨(hok.tree.cached n _ hc).1, ?_, ?_⟩
    · rw [Vol.cur_cached hc]
      change ((k.toNat : ℕ) : ℤ) < i.blocks
      change k + 1 ≤ i.blocks at hkc
      omega
    · rw [Vol.cur_cached hc]
  have hrange := hok.range (hok.blocks.taken hholds)
  rw [Set.mem_Ico] at hrange
  obtain ⟨b, hb⟩ := Int.eq_ofNat_of_zero_le (le_trans (by norm_num) hrange.1)
  rw [hb] at hholds hrange
  refine ⟨i, b, by omega, hi, ?_, ?_⟩
  · intro u
    rw [addrAt_eq (j := ⟨k.toNat, by omega⟩) (by change k = ((k.toNat : ℕ) : ℤ); omega), hb]
  · intro io
    have hfile' : (W.node n).type = fileI := by rw [hfill.node, hfile]
    refine ⟨rfsW1block_eq (by omega), { ht.same with }, ht.next, ht.beyond, W, _, ?_, hok, hfill, hc, hkc, hsize⟩
    exact hshow.data hok hfile' hholds _ _

lemma writeBlock_safe (ht : Wrote s h V n size k t) (hk : 0 ≤ k ∧ k < 10) (data : List UInt8) :
    safe U (writeBlock w k data) (fun _ => Wrote s h V n size (k + 1)) (Wrote s h V n size 0) t := by
  rw [writeBlock]
  apply safe_bind
  refine safe_mono (growTo_safe hw hlow hfile ht hk) ?_ (fun _ h => h.le hk.1)
  intro _ t ht
  obtain ⟨i, b, -, hi, haddr, hput⟩ := putBlock hw hfile ht hk
  obtain ⟨hwrite, ht'⟩ := hput (putBytes t.iobuffer 0 data)
  refine safe_bind_done rfl ?_
  refine safe_bind_done (getVinode_eq (s := { t with iobuffer := putBytes t.iobuffer 0 data }) hi) ?_
  exact safe_bind_done (haddr _) (safe_done hwrite ht')

omit hlow in
lemma writeInside_safe (ht : Wrote s h V n size (k + 1) t) (hk : 0 ≤ k ∧ k < 10) (align : ℕ) (data : List UInt8) :
    safe U (writeInside w k align data) (fun _ => Wrote s h V n size (k + 1)) (Wrote s h V n size 0) t := by
  obtain ⟨i, b, hb, hi, haddr, hput⟩ := putBlock hw hfile ht hk
  obtain ⟨hwrite, ht'⟩ := hput (putBytes (overlay (t.disk b) t.iobuffer) align data)
  rw [writeInside]
  refine safe_bind_done (getVinode_eq hi) ?_
  refine safe_bind_done (haddr _) ?_
  refine safe_bind_done (rfsR1block_eq hb) ?_
  refine safe_bind_done rfl ?_
  exact safe_bind_done (haddr _) (safe_done hwrite ht')

lemma writeBlocks_safe (m : ℕ) (data : List UInt8) (ht : Wrote s h V n size k t) (hk : 0 ≤ k)
    (hmin : 4096 * m ≤ data.length) (hmax : data.length < 4096 * m + 4096) (hfit : 4096 * k + data.length ≤ 40960) :
    safe U (writeBlocks w m k data) (fun _ t => ∃ k', Wrote s h V n size k' t ∧ 4096 * k + data.length ≤ 4096 * k')
      (Wrote s h V n size 0) t := by
  induction m generalizing k data t with
  | zero =>
    rw [writeBlocks]
    by_cases hd : data = []
    · rw [if_pos hd]
      refine safe_pure ⟨k, ht, ?_⟩
      rw [hd]
      simp
    · rw [if_neg hd]
      have hpos := List.length_pos_iff.mpr hd
      refine safe_mono (writeBlock_safe hw hlow hfile ht (by omega) data) ?_ (fun _ h => h)
      intro _ u hu
      exact ⟨k + 1, hu, by omega⟩
  | succ m ih =>
    rw [writeBlocks]
    apply safe_bind
    refine safe_mono (writeBlock_safe hw hlow hfile ht (by omega) _) ?_ (fun _ h => h)
    intro _ u hu
    have hdrop : (data.drop rfsBlksize).length = data.length - 4096 := List.length_drop
    refine safe_mono (ih (data.drop rfsBlksize) hu (by omega) (by omega) (by omega) (by omega)) ?_ (fun _ h => h)
    rintro _ u' ⟨k', hk', hle⟩
    exact ⟨k', hk', by omega⟩

lemma writeData_safe {offset : ℤ} (data : List UInt8) (ht : Wrote s h V n size 0 t) (h0 : 0 ≤ offset)
    (hsize : offset ≤ size) (hfit : offset + data.length ≤ 40960) :
    safe U (rfsWrite.writeData w data offset)
      (fun _ t => ∃ k', Wrote s h V n size k' t ∧ offset + data.length ≤ 4096 * k') (Wrote s h V n size 0) t := by
  obtain ⟨W, c, hshow, hok, hfill, hc, -, hcs⟩ := ht.volume
  have hbound := (hok.tree.cached n c hc).2.size
  have hdiv : offset.tdiv rfsBlksize = offset / 4096 := Int.tdiv_eq_ediv_of_nonneg h0
  have hmod : offset.tmod rfsBlksize = offset % 4096 := Int.tmod_eq_emod_of_nonneg h0
  have hold : ∀ k', k' ≤ c.blocks → Wrote s h V n size k' t := fun k' hk' =>
    ⟨ht.same, ht.next, ht.beyond, W, c, hshow, hok, hfill, hc, hk', hcs⟩
  rw [rfsWrite.writeData, hdiv, hmod]
  change safe U (if offset % 4096 < 0 then undef
    else if offset % 4096 = 0 then writeBlocks w (((offset % 4096).toNat + data.length) / 4096) (offset / 4096) data
    else if ((offset % 4096).toNat + data.length) / 4096 = 0 then writeInside w (offset / 4096) (offset % 4096).toNat data
    else do
      writeInside w (offset / 4096) (offset % 4096).toNat (data.take (4096 - (offset % 4096).toNat))
      writeBlocks w (((offset % 4096).toNat + data.length) / 4096 - 1) (offset / 4096 + 1)
        (data.drop (4096 - (offset % 4096).toNat))) _ _ t
  rw [if_neg (by omega)]
  by_cases halign : offset % 4096 = 0
  · rw [if_pos halign]
    refine safe_mono (writeBlocks_safe hw hlow hfile _ data (hold (offset / 4096) (by omega)) (by omega) (by omega)
      (by omega) (by omega)) ?_ (fun _ h => h)
    rintro _ u ⟨k', hk', hle⟩
    exact ⟨k', hk', by omega⟩
  · rw [if_neg halign]
    -- the offset is inside of a block that the file has
    have hinside := hold (offset / 4096 + 1) (by omega)
    by_cases hone : ((offset % 4096).toNat + data.length) / 4096 = 0
    · rw [if_pos hone]
      refine safe_mono (writeInside_safe hw hfile hinside (by omega) _ _) ?_ (fun _ h => h)
      intro _ u hu
      exact ⟨offset / 4096 + 1, hu, by omega⟩
    · rw [if_neg hone]
      apply safe_bind
      refine safe_mono (writeInside_safe hw hfile hinside (by omega) _ _) ?_ (fun _ h => h)
      intro _ u hu
      have hdrop : (data.drop (4096 - (offset % 4096).toNat)).length = data.length - (4096 - (offset % 4096).toNat) :=
        List.length_drop
      refine safe_mono (writeBlocks_safe hw hlow hfile _ _ hu (by omega) (by omega) (by omega) (by omega)) ?_
        (fun _ h => h)
      rintro _ u' ⟨k', hk', hle⟩
      exact ⟨k', hk', by omega⟩

end Write

structure Written (s : Vfs) (h : ℕ → Option ℕ) (V : Vol) (n : ℕ) (z : ℤ) (t : Vfs) : Prop where
  same : SameCaches s t
  next : t.next = s.next
  beyond : ∀ x ≥ s.next, t.vinode x = s.vinode x
  volume : ∃ W c, Shows t h W ∧ W.Ok ∧ Filled V n W ∧ W.cached n = some c ∧ z ≤ c.size

lemma Wrote.written {size k : ℤ} (hw : Wrote s h V n size k t) : Written s h V n size t := by
  obtain ⟨W, c, hshow, hok, hfill, hc, -, hsize⟩ := hw.volume
  exact ⟨hw.same, hw.next, hw.beyond, W, c, hshow, hok, hfill, hc, hsize.ge⟩

lemma write (hs : Shows s h V) (hV : V.Ok) (hw : h n = some w) (hlow : w < s.next) (hfile : (V.node n).type = fileI)
    (hi : s.vinode w = some i) {data : List UInt8} {offset : ℤ} (h0 : 0 ≤ offset)
    (hfit : offset + data.length ≤ 40960) {U : Prop} : safe U (rfsWrite w data offset)
      (fun a t => a = data.length ∧ Written s h V n (max i.size (offset + data.length)) t) (Written s h V n i.size) s := by
  obtain ⟨i', hi', hin, hsb, hc, hfits⟩ := hs.held n w hw
  rw [hi, Option.some.injEq] at hi'
  subst hi'
  have ha := (hV.tree.cached n _ hc).2
  have hb0 := (hV.tree.bounds n (hV.tree.cached n _ hc).1).1
  have hstart : Wrote s h V n i.size 0 s :=
    ⟨⟨rfl, rfl, rfl, rfl, rfl, rfl, fun _ _ => rfl⟩, rfl, fun _ _ => rfl, V, _, hs, hV,
      ⟨rfl, rfl, fun _ _ => rfl, subset_rfl, .inl⟩, hc, hb0.trans ha.blocks.1, rfl⟩
  rw [rfsWrite]
  refine safe_bind_done (getVinode_eq hi) ?_
  by_cases hbig : i.size < offset
  · rw [if_pos hbig]
    exact hstart.written
  · rw [if_neg hbig]
    apply safe_bind
    refine safe_mono (writeData_safe hw hlow hfile data hstart h0 (by omega) hfit) ?_ (fun _ h => h.written)
    rintro _ t ⟨k, ht, hle⟩
    obtain ⟨W, c, hshow, hok, hfill, hcW, hk, hsize⟩ := ht.volume
    obtain ⟨j, hj, hjn, hjsb, hcj, hfits'⟩ := hshow.held n w hw
    rw [hcW, Option.some.injEq] at hcj
    subst hcj
    refine safe_bind_done (getVinode_eq hj) ?_
    have hbound := (hok.tree.cached n _ hcW).2.size
    have hz : 0 ≤ (if j.size < offset + data.length then offset + data.length else j.size) ∧
        (if j.size < offset + data.length then offset + data.length else j.size) ≤ 4096 * j.blocks := by
      change 0 ≤ j.size ∧ j.size ≤ 4096 * j.blocks at hbound
      change k ≤ j.blocks at hk
      split <;> omega
    have hblocks := (hok.tree.cached n _ hcW).2.blocks.2
    change j.blocks ≤ 10 at hblocks
    have hok' := hok.resize hcW (by rw [hfill.node, hfile]) hz
    have hfill' : Filled V n (W.setCached n { j.toDinode with
        size := if j.size < offset + data.length then offset + data.length else j.size } W.used) := by
      refine ⟨hfill.node, hfill.dir, fun m hm => (update_of_ne hm _ _).trans (hfill.others m hm), hfill.used, ?_⟩
      rintro m l b ⟨hm, hl, hb⟩
      refine hfill.holds ⟨hm, ?_⟩
      by_cases hmn : m = n
      · subst hmn
        rw [Vol.cur_setCached] at hl hb
        rw [Vol.cur_cached hcW]
        exact ⟨hl, hb⟩
      · rw [Vol.cur_setCached_of_ne hmn] at hl hb
        exact ⟨hl, hb⟩
    refine safe_bind_done setVinode_eq (safe_pure ⟨rfl, ?_⟩)
    refine ⟨{ ht.same with tag := ?_ }, ht.next, ?_, W.setCached n _ W.used, _,
      ⟨hshow.node, hshow.dir, hshow.used, hshow.nblocks, ?_, ?_⟩, hok', hfill', update_self _ _ _, ?_⟩
    · intro x hx
      rw [← ht.same.tag x hx]
      change (update t.vinode w _ x).map _ = _
      by_cases hxw : x = w
      · rw [hxw, update_self, hj]
        rfl
      · rw [update_of_ne hxw]
    · intro x hx
      rw [← ht.beyond x hx]
      exact update_of_ne (by omega) _ _
    · intro m x hx
      by_cases hmn : m = n
      · subst hmn
        rw [hw, Option.some.injEq] at hx
        subst hx
        refine ⟨_, update_self _ _ _, hjn, hjsb, update_self _ _ _, hfits'.withSize ?_⟩
        omega
      · have hxw : x ≠ w := by
          rintro rfl
          exact hmn (hshow.held_inj hx hw)
        obtain ⟨i', hi', hin', hsb', hc', hfits''⟩ := hshow.held m x hx
        exact ⟨i', (update_of_ne hxw _ _).trans hi', hin', hsb', (update_of_ne hmn _ _).trans hc', hfits''⟩
    · intro m hx
      have hmn : m ≠ n := by
        rintro rfl
        rw [hw] at hx
        cases hx
      exact (update_of_ne hmn _ _).trans (hshow.clear m hx)
    · change max i.size (offset + data.length) ≤ if j.size < offset + data.length then offset + data.length else j.size
      change j.size = i.size at hsize
      split <;> omega

end Shows

end Pke.Files
