import Pke.Files.ShownNames

namespace Pke.Files

open Lib Flow Function

lemma Vol.Tree.links_le {V : Vol} (h : V.Tree) (n : ℕ) : V.links n ≤ 40960 := by
  have hcount : ∀ d ∈ Finset.range ninodes, V.count n d ≤ 128 := by
    intro d hd
    by_cases hdir : (V.node d).type = dirI
    · rw [Vol.count_of_dir hdir]
      exact List.countP_le_length.trans (h.isDir d ⟨Finset.mem_range.mp hd, hdir⟩).2.2.2
    · rw [Vol.count_of_ne hdir]
      omega
  have hsum := Finset.sum_le_card_nsmul _ _ _ hcount
  rw [Finset.card_range] at hsum
  exact hsum

namespace Shows

variable {s : Vfs} {h : ℕ → Option ℕ} {V : Vol} {d k v w : ℕ} {nm : Name}

lemma update_held (hw : h k = some w) : update h k (some w) = h := by
  rw [← hw]
  exact update_eq_self k h

lemma file_vinode (hs : Shows s h V) (hV : V.Ok) (hd : V.IsDir d) (hv : h d = some v) (hw : h k = some w)
    (hfile : (V.node k).type = fileI) : ∃ i, s.vinode w = some i ∧ i.inum = k ∧ i.sb = .rfs ∧
      V.cached k = some i.toDinode ∧ i.toDinode.Fits ∧ k ∈ V.live ∧ i.toDinode.Ahead (V.node k) ∧ d ≠ k ∧ v ≠ w := by
  obtain ⟨i, hi, hin, hsb, hc, hfits⟩ := hs.held k w hw
  obtain ⟨hlive, ha⟩ := hV.tree.cached k _ hc
  have hne : d ≠ k := by
    rintro rfl
    exact absurd (hfile.symm.trans hd.2) (by decide)
  refine ⟨i, hi, hin, hsb, hc, hfits, hlive, ha, hne, ?_⟩
  rintro rfl
  exact hne (hs.held_inj hv hw)

lemma link (hs : Shows s h V) (hV : V.Ok) (hd : V.IsDir d) (hv : h d = some v) (hlen : (V.dir d).length < 128)
    (hnm : nm.length < 28) (hz : (0 : UInt8) ∉ nm) (hw : h k = some w) (hfile : (V.node k).type = fileI)
    (hold : ∀ n x, h n = some x → x < s.next) :
    ∃ t c, rfsLink v nm w s = .done 0 t ∧ V.cached k = some c ∧
      Shows t h (V.append d nm k { c with nlinks := c.nlinks + 1 } V.used) ∧ SameCaches s t ∧ t.next = s.next ∧
        ∀ x ≥ s.next, t.vinode x = s.vinode x := by
  obtain ⟨i, hi, hin, -, hnode⟩ := hs.dir_vinode hV hd hv
  obtain ⟨blk, hblk, hge, hlt, -⟩ := dir_block hV hd
  obtain ⟨j, hj, hjn, hjsb, hc, hfits, hlive, ha, hne, hvw⟩ := hs.file_vinode hV hd hv hw hfile
  obtain ⟨-, -, hsize, -⟩ := hV.tree.isDir d hd
  have hlowv := hold d v hv
  have hloww := hold k w hw
  have htype : (V.node k).type ≠ dirI := by rw [hfile]; decide
  have hk0 : k ≠ 0 := by
    rintro rfl
    exact htype hV.tree.root
  have hki : -2 ^ 31 ≤ (k : ℤ) ∧ (k : ℤ) < 2 ^ 31 := by
    have hlt' := hlive.1
    change k < 320 at hlt'
    norm_num
    omega
  have hsize' : -2 ^ 31 ≤ 32 * (((V.dir d).length + 1 : ℕ) : ℤ) ∧ 32 * (((V.dir d).length + 1 : ℕ) : ℤ) < 2 ^ 31 := by
    norm_num
    omega
  -- the number of links is bounded by that of the entries
  have hfits' : ({ j.toDinode with nlinks := j.nlinks + 1 } : Dinode).Fits := by
    apply hfits.withNlinks
    have hle := hV.tree.links_le k
    rw [ha.nlinks, hV.tree.links k hlive hk0]
    omega
  have hset : setVinode w { j with nlinks := j.nlinks + 1 } s =
    .done () { s with vinode := update s.vinode w (some { j with nlinks := j.nlinks + 1 }) } := rfl
  have hend : (V.dir d).length * 32 + 4 + nm.length < 4096 := by omega
  obtain ⟨io, hio⟩ := rfsAddDirentry_eq (z := j.inum) (n := d) (i := i)
    (s := { s with vinode := update s.vinode w (some { j with nlinks := j.nlinks + 1 }) })
    ((update_of_ne hvw _ _).trans hi) (by rw [hnode]; exact hd.2) (by rw [hnode, hsize]) hend (by rw [hnode, hblk])
    (by omega) hin hd.1
  obtain ⟨io', hio'⟩ := rfsWriteBackVinode_eq (v := w) (n := k) (i := { j with nlinks := j.nlinks + 1 })
    (s := { s with
      disk := setDnode (update s.disk blk (putDirentry (s.disk blk) ((V.dir d).length * 32) nm j.inum)) d
        { i.toDinode with size := 32 * ((V.dir d).length + 1 : ℕ) }
      vinode := update (update s.vinode w (some { j with nlinks := j.nlinks + 1 })) v
        (some { i with size := 32 * ((V.dir d).length + 1 : ℕ) })
      iobuffer := io }) ((update_of_ne hvw.symm _ _).trans (update_self _ _ _)) hjn hlive.1
  have hval : rfsLink v nm w s = .done 0 { s with
      disk := setDnode (setDnode (update s.disk blk (putDirentry (s.disk blk) ((V.dir d).length * 32) nm k)) d
        { i.toDinode with size := 32 * ((V.dir d).length + 1 : ℕ) }) k { j.toDinode with nlinks := j.nlinks + 1 }
      vinode := update (update s.vinode w (some { j with nlinks := j.nlinks + 1 })) v
        (some { i with size := 32 * ((V.dir d).length + 1 : ℕ) })
      iobuffer := io' } := by
    rw [rfsLink, bind_done (getVinode_eq hj), bind_done hset, bind_done hio, bind_done hio', hjn]
    rfl
  refine ⟨_, j.toDinode, hval, hc, ?_, ?_, ?_, ?_⟩
  · have hlength : (V.dir d ++ [(nm, (k : ℤ))]).length = (V.dir d).length + 1 := by
      rw [List.length_append, List.length_singleton]
    rw [← update_held hw]
    refine hs.relist hV hd hv hi hlive.1 htype hblk ?_ ?_ ?_ ?_ ?_ ?_ ?_ ?_ ?_
      (.inr ⟨w, { j with nlinks := j.nlinks + 1 }, rfl, rfl, ?_, hjn, hjsb, hfits'⟩)
    · rw [hlength]
      change direntrys (setDnode (setDnode _ d _) k _ blk) _ = _
      rw [setDnode_block hlive.1 (by omega), setDnode_block hd.1 (by omega), update_self,
        direntrys_putDirentry hnm hz hki, hs.dir_entries hd hblk]
    · intro b' hb' hne'
      change setDnode (setDnode _ d _) k _ b' = _
      rw [setDnode_block hlive.1 (by omega), setDnode_block hd.1 (by omega), update_of_ne hne']
    · rw [hlength]
      change dnode (setDnode (setDnode _ d _) k _) d = _
      rw [dnode_setDnode_of_ne hne, hnode]
      exact dnode_setDnode ((hs.node_fits hd.1).withSize hsize')
    · exact dnode_setDnode hfits'
    · intro n hn hnd hnk
      change dnode (setDnode (setDnode _ d _) k _) n = _
      rw [dnode_setDnode_of_ne hnk, dnode_setDnode_of_ne hnd, dnode_update_block hn (by omega)]
    · exact hs.used
    · exact hs.nblocks
    · rw [hlength]
      change update _ v _ v = _
      rw [update_self, Vol.withLength, ← hnode]
    · intro n x hnd hnk hx
      have hxv : x ≠ v := by
        rintro rfl
        exact hnd (hs.held_inj hx hv)
      have hxw : x ≠ w := by
        rintro rfl
        exact hnk (hs.held_inj hx hw)
      exact (update_of_ne hxv _ _).trans (update_of_ne hxw _ _)
    · exact (update_of_ne hvw.symm _ _).trans (update_self _ _ _)
  · refine ⟨rfl, rfl, rfl, rfl, rfl, rfl, ?_⟩
    intro x hx
    change (update (update s.vinode w _) v _ x).map _ = _
    by_cases hxv : x = v
    · rw [hxv, update_self, hi]
      rfl
    · rw [update_of_ne hxv]
      by_cases hxw : x = w
      · rw [hxw, update_self, hj]
        rfl
      · rw [update_of_ne hxw]
  · rfl
  · intro x hx
    exact (update_of_ne (by omega) _ _).trans (update_of_ne (by omega) _ _)

section Unlink

lemma freeBlocks_eq {addrs : Fin 10 → ℤ} (c j : ℕ) (hc : j + c ≤ 10)
    (haddr : ∀ x : Fin 10, (x : ℕ) < j + c → ∃ b : ℕ, addrs x = (12 + b : ℕ)) :
    ∃ F, each (fun k : ℕ => do rfsFreeBlock (← addrAt addrs k)) (List.range' j c) s = .done () { s with freemap := F } ∧
      ∀ b : ℕ, (∃ x : Fin 10, j ≤ (x : ℕ) ∧ (x : ℕ) < j + c ∧ addrs x = (12 + b : ℕ)) ∧ F b = 0 ∨
        (¬ ∃ x : Fin 10, j ≤ (x : ℕ) ∧ (x : ℕ) < j + c ∧ addrs x = (12 + b : ℕ)) ∧ F b = s.freemap b := by
  induction c generalizing j s with
  | zero =>
    refine ⟨s.freemap, rfl, fun b => .inr ⟨?_, rfl⟩⟩
    rintro ⟨x, hx, hx', -⟩
    omega
  | succ c ih =>
    obtain ⟨b₀, hb₀⟩ := haddr ⟨j, by omega⟩ (by change j < j + (c + 1); omega)
    obtain ⟨F, hF, hb⟩ := ih (s := { s with freemap := update s.freemap b₀ 0 }) (j + 1) (by omega)
      (fun x hx => haddr x (by omega))
    refine ⟨F, ?_, ?_⟩
    · have hfirst : (do rfsFreeBlock (← addrAt addrs (j : ℕ)) : Flow Vfs Unit) s =
          .done () { s with freemap := update s.freemap b₀ 0 } := by
        rw [bind_done (addrAt_eq (j := ⟨j, by omega⟩) rfl), hb₀, rfsFreeBlock_eq]
      rw [List.range'_succ, each, bind_done hfirst]
      exact hF
    · intro b
      rcases hb b with ⟨⟨x, hx, hx', hxb⟩, hz⟩ | ⟨hno, heq⟩
      · exact .inl ⟨⟨x, by omega, by omega, hxb⟩, hz⟩
      · change F b = update s.freemap b₀ 0 b at heq
        by_cases hbb : b = b₀
        · subst hbb
          rw [update_self] at heq
          exact .inl ⟨⟨⟨j, by omega⟩, le_rfl, by change j < j + (c + 1); omega, hb₀⟩, heq⟩
        · rw [update_of_ne hbb] at heq
          refine .inr ⟨?_, heq⟩
          rintro ⟨x, hx, hx', hxb⟩
          by_cases hxj : (x : ℕ) = j
          · have hxj' : x = ⟨j, by omega⟩ := Fin.ext hxj
            rw [hxj', hb₀] at hxb
            exact hbb (by omega)
          · exact hno ⟨x, by omega, by omega, hxb⟩

structure Dropped (V : Vol) (k : ℕ) (c new : Dinode) (o : Option Dinode) (used : Set ℤ) : Prop where
  fits : new.Fits
  kind : (V.node k).nlinks = 1 ∧ new.type = rFree ∧ o = none ∧
      used = {b ∈ V.used | ¬ ∃ i : Fin 10, (i : ℤ) < (V.node k).blocks ∧ (V.node k).addrs i = b} ∨
    (V.node k).nlinks ≠ 1 ∧ new = { V.node k with nlinks := (V.node k).nlinks - 1 } ∧
      o = some { c with nlinks := c.nlinks - 1 } ∧ used = V.used

lemma dropLink_eq (hs : Shows s h V) (hV : V.Ok) {i : Vinode} (hi : s.vinode w = some i)
    (hc : V.cached k = some i.toDinode) :
    ∃ new o used F io, dropLink w k s = .done () { s with
        disk := setDnode s.disk k new, freemap := F, iobuffer := io
        vinode := update s.vinode w (some { i with nlinks := i.nlinks - 1 }) } ∧
      Dropped V k i.toDinode new o used ∧ ∀ b : ℕ, ((12 + b : ℕ) : ℤ) ∈ used ↔ b < 100 ∧ F b ≠ 0 := by
  obtain ⟨hlive, ha⟩ := hV.tree.cached k _ hc
  obtain ⟨io, hio⟩ := rfsReadDinode_eq (s := s) hlive.1
  rw [hs.node k hlive.1] at hio
  have hnl : i.nlinks = (V.node k).nlinks := ha.nlinks
  have hfits := hs.node_fits hlive.1
  have hset : setVinode w { i with nlinks := i.nlinks - 1 } { s with iobuffer := io } = .done () { s with
    iobuffer := io, vinode := update s.vinode w (some { i with nlinks := i.nlinks - 1 }) } := rfl
  rw [dropLink, bind_done hio,
    bind_done (getVinode_eq (s := { s with iobuffer := io }) hi), if_neg (fun hne => hne hnl), bind_done hset]
  by_cases hone : i.nlinks - 1 = 0
  · obtain ⟨hb0, hb10, -⟩ := hV.tree.bounds k hlive
    -- the blocks on the disk are among those that the volume counts
    have haddr : ∀ x : Fin 10, (x : ℕ) < 0 + (V.node k).blocks.toNat → ∃ b : ℕ, (V.node k).addrs x = (12 + b : ℕ) := by
      intro x hx
      have hxb : (x : ℤ) < (V.node k).blocks := by omega
      have hholds : V.Holds k x ((V.node k).addrs x) := by
        refine ⟨hlive, ?_, ?_⟩
        · rw [Vol.cur_cached hc]
          exact hxb.trans_le ha.blocks.1
        · rw [Vol.cur_cached hc]
          exact ha.addrs x hxb
      have hin := hV.range (hV.blocks.taken hholds)
      rw [Set.mem_Ico] at hin
      exact ⟨((V.node k).addrs x - 12).toNat, by omega⟩
    obtain ⟨F, hF, hFb⟩ := freeBlocks_eq (s := { s with
      iobuffer := io, vinode := update s.vinode w (some { i with nlinks := i.nlinks - 1 }) })
      (V.node k).blocks.toNat 0 (by omega) haddr
    obtain ⟨io', hio'⟩ := rfsWriteDinode_eq (n := k) (d := { V.node k with nlinks := 0, type := rFree }) (s := { s with
      iobuffer := io, freemap := F, vinode := update s.vinode w (some { i with nlinks := i.nlinks - 1 }) }) hlive.1
    refine ⟨{ V.node k with nlinks := 0, type := rFree }, none, _, F, io', ?_, ⟨?_, .inl ⟨by omega, rfl, rfl, rfl⟩⟩, ?_⟩
    · rw [if_pos hone, List.range_eq_range', bind_done hF, hio']
    · exact Dinode.fits_of (hfits 0) (by norm_num) (by norm_num) (hfits 3) hfits.addrs
    · intro b
      change _ ∧ _ ↔ _
      rw [hs.used b]
      rcases hFb b with ⟨⟨x, -, hx, hxb⟩, hz⟩ | ⟨hno, heq⟩
      · refine iff_of_false ?_ (fun hh => hh.2 hz)
        rintro ⟨-, hno⟩
        exact hno ⟨x, by omega, hxb⟩
      · rw [heq]
        refine and_iff_left ?_
        rintro ⟨x, hx, hxb⟩
        exact hno ⟨x, by omega, by omega, hxb⟩
  · obtain ⟨io', hio'⟩ := rfsWriteDinode_eq (n := k) (d := { V.node k with nlinks := i.nlinks - 1 }) (s := { s with
      iobuffer := io, vinode := update s.vinode w (some { i with nlinks := i.nlinks - 1 }) }) hlive.1
    refine ⟨{ V.node k with nlinks := i.nlinks - 1 }, some { i.toDinode with nlinks := i.nlinks - 1 }, V.used, s.freemap,
      io', ?_, ⟨?_, .inr ⟨by omega, by rw [hnl], rfl, rfl⟩⟩, hs.used⟩
    · rw [if_neg hone, hio']
    · apply hfits.withNlinks
      have hfit := hfits 2
      have hpos := hV.tree.linked k hlive
      change -2 ^ 31 ≤ (V.node k).nlinks ∧ (V.node k).nlinks < 2 ^ 31 at hfit
      omega

lemma Dropped.ok (hV : V.Ok) (hd : V.IsDir d) (hfile : (V.node k).type = fileI) {c new : Dinode} {o : Option Dinode}
    {used : Set ℤ} (hc : V.cached k = some c) (hdrop : Dropped V k c new o used) {j : ℕ}
    (hj : (V.dir d)[j]? = some (nm, (k : ℤ))) : (V.remove d j k new o used).Ok := by
  rcases hdrop.kind with ⟨hone, hfree, rfl, rfl⟩ | ⟨hmore, rfl, rfl, rfl⟩
  · refine hV.delete hd hfile (hV.tree.cached k c hc).1 hj rfl hone hfree (fun b hb => hb.1) ?_
    intro b hb
    by_cases hin : ∃ i : Fin 10, (i : ℤ) < (V.node k).blocks ∧ (V.node k).addrs i = b
    · exact .inr hin
    · exact .inl ⟨hb, hin⟩
  · exact hV.unlink hd hfile hc hj rfl hmore

lemma unlink (hs : Shows s h V) (hV : V.Ok) (hd : V.IsDir d) (hv : h d = some v) (hw : h k = some w)
    (hfile : (V.node k).type = fileI) (hz : (0 : UInt8) ∉ nm) (hent : (nm, (k : ℤ)) ∈ V.dir d)
    (hold : ∀ n x, h n = some x → x < s.next) :
    ∃ t j c new o used x, rfsUnlink v nm w s = .done 0 t ∧ V.cached k = some c ∧
      (V.dir d)[j]? = some (nm, (k : ℤ)) ∧ Dropped V k c new o used ∧
      Shows t (update h k x) (V.remove d j k new o used) ∧ SameCaches s t ∧ t.next = s.next ∧
      (∀ x ≥ s.next, t.vinode x = s.vinode x) ∧
      ∃ i, t.vinode w = some i ∧ (i.nlinks = 0 ∧ x = none ∧ o = none ∨ i.nlinks ≠ 0 ∧ x = some w) := by
  obtain ⟨i, hi, hin, -, hnode⟩ := hs.dir_vinode hV hd hv
  obtain ⟨blk, hblk, hge, hlt, -⟩ := dir_block hV hd
  obtain ⟨j, hj, hjn, hjsb, hc, hfits, hlive, ha, hne, hvw⟩ := hs.file_vinode hV hd hv hw hfile
  obtain ⟨hone, -, hsize, hlen⟩ := hV.tree.isDir d hd
  have hlowv := hold d v hv
  have hloww := hold k w hw
  have htype : (V.node k).type ≠ dirI := by rw [hfile]; decide
  have hpos : 0 < (V.dir d).length := List.length_pos_of_mem hent
  have htotal : totalDirentrys i.size = (V.dir d).length := totalDirentrys_eq (by rw [hnode, hsize])
  -- the entry that is found is the one with the number of the file
  obtain ⟨e, io, hget, hio, hnum⟩ : ∃ e io, (V.dir d)[e]? = some (nm, (k : ℤ)) ∧
      findDirentry i.addrs nm (List.range (totalDirentrys i.size)) s = .done (some e) { s with iobuffer := io } ∧
        direntryInum io e = k := by
    rcases hs.find hV hd hnode hz with ⟨hno, -⟩ | ⟨e, k', -, -, hget, io, hio, hnum⟩
    · exact absurd (List.mem_map_of_mem (f := Prod.fst) hent) hno
    · have heq := hV.tree.entry_inj hd (List.mem_of_getElem? hget) hent rfl
      have hkk : (k' : ℤ) = k := congrArg Prod.snd heq
      rw [hkk] at hget hnum
      exact ⟨e, io, hget, hio, hnum⟩
  have hlte : e < (V.dir d).length := (List.getElem?_eq_some_iff.mp hget).1
  have hs' : Shows { s with iobuffer := io } h V := ⟨hs.node, hs.dir, hs.used, hs.nblocks, hs.held, hs.clear⟩
  obtain ⟨new, o, used, F, io₁, hdrop, hdropped, hused⟩ := hs'.dropLink_eq hV hj hc
  obtain ⟨io₂, hrem⟩ := removeDirentry_eq (v := v) (i := i) (k := e) (n := d) (s := { s with
    disk := setDnode s.disk k new, freemap := F, iobuffer := io₁
    vinode := update s.vinode w (some { j with nlinks := j.nlinks - 1 }) })
    ((update_of_ne hvw _ _).trans hi) (by rw [hnode, hone]) (by rw [hnode, hsize]) hlen hlte (by rw [hnode, hblk])
    (by omega) hin hd.1
  have hval : rfsUnlink v nm w s = .done 0 { s with
      disk := setDnode (update (setDnode s.disk k new) blk (shiftDirentrys (s.disk blk) e)) d
        { i.toDinode with size := 32 * ((V.dir d).length - 1 : ℕ) }
      freemap := F, iobuffer := io₂
      vinode := update (update s.vinode w (some { j with nlinks := j.nlinks - 1 })) v
        (some { i with size := 32 * ((V.dir d).length - 1 : ℕ) }) } := by
    dsimp only at hrem
    rw [setDnode_block hlive.1 (by omega)] at hrem
    rw [rfsUnlink, bind_done (getVinode_eq hi), if_neg (by omega), bind_done hio]
    change (do dropLink w (direntryInum io e); removeDirentry v e; pure 0 : Flow Vfs ℤ) _ = _
    rw [hnum, bind_done hdrop, bind_done hrem]
    rfl
  have hlength : ((V.dir d).eraseIdx e).length = (V.dir d).length - 1 := List.length_eraseIdx_of_lt hlte
  have hsize' : -2 ^ 31 ≤ 32 * (((V.dir d).length - 1 : ℕ) : ℤ) ∧ 32 * (((V.dir d).length - 1 : ℕ) : ℤ) < 2 ^ 31 := by
    norm_num
    omega
  -- the volume, once it is known whether the vinode stays
  have hshow : ∀ x, (o = none ∧ x = none ∨ o = some { j.toDinode with nlinks := j.nlinks - 1 } ∧ x = some w) →
      Shows { s with
        disk := setDnode (update (setDnode s.disk k new) blk (shiftDirentrys (s.disk blk) e)) d
          { i.toDinode with size := 32 * ((V.dir d).length - 1 : ℕ) }
        freemap := F, iobuffer := io₂
        vinode := update (update s.vinode w (some { j with nlinks := j.nlinks - 1 })) v
          (some { i with size := 32 * ((V.dir d).length - 1 : ℕ) }) } (update h k x) (V.remove d e k new o used) := by
    intro x hx
    refine hs.relist hV hd hv hi hlive.1 htype hblk ?_ ?_ ?_ ?_ ?_ ?_ ?_ ?_ ?_ ?_
    · rw [hlength]
      change direntrys (setDnode _ d _ blk) _ = _
      rw [setDnode_block hd.1 (by omega), update_self, direntrys_shift hlte hlen, hs.dir_entries hd hblk]
    · intro b' hb' hne'
      change setDnode _ d _ b' = _
      rw [setDnode_block hd.1 (by omega), update_of_ne hne', setDnode_block hlive.1 (by omega)]
    · rw [hlength]
      change dnode (setDnode _ d _) d = _
      rw [hnode]
      exact dnode_setDnode ((hs.node_fits hd.1).withSize hsize')
    · change dnode (setDnode _ d _) k = _
      rw [dnode_setDnode_of_ne hne.symm, dnode_update_block hlive.1 (by omega), dnode_setDnode hdropped.fits]
    · intro n hn hnd hnk
      change dnode (setDnode _ d _) n = _
      rw [dnode_setDnode_of_ne hnd, dnode_update_block hn (by omega), dnode_setDnode_of_ne hnk]
    · exact hused
    · exact hs.nblocks
    · rw [hlength]
      change update _ v _ v = _
      rw [update_self, Vol.withLength, ← hnode]
    · intro n y hnd hnk hy
      have hyv : y ≠ v := by
        rintro rfl
        exact hnd (hs.held_inj hy hv)
      have hyw : y ≠ w := by
        rintro rfl
        exact hnk (hs.held_inj hy hw)
      exact (update_of_ne hyv _ _).trans (update_of_ne hyw _ _)
    · rcases hx with hx | ⟨ho, rfl⟩
      · exact .inl hx
      · refine .inr ⟨w, { j with nlinks := j.nlinks - 1 }, rfl, ho, ?_, hjn, hjsb, ?_⟩
        · exact (update_of_ne hvw.symm _ _).trans (update_self _ _ _)
        · apply hfits.withNlinks
          have hfit := hs.node_fits hlive.1 2
          have hlink := hV.tree.linked k hlive
          have hnl : j.nlinks = (V.node k).nlinks := ha.nlinks
          change -2 ^ 31 ≤ (V.node k).nlinks ∧ (V.node k).nlinks < 2 ^ 31 at hfit
          omega
  have hsame : SameCaches s { s with
      disk := setDnode (update (setDnode s.disk k new) blk (shiftDirentrys (s.disk blk) e)) d
        { i.toDinode with size := 32 * ((V.dir d).length - 1 : ℕ) }
      freemap := F, iobuffer := io₂
      vinode := update (update s.vinode w (some { j with nlinks := j.nlinks - 1 })) v
        (some { i with size := 32 * ((V.dir d).length - 1 : ℕ) }) } := by
    refine ⟨rfl, rfl, rfl, rfl, rfl, rfl, ?_⟩
    intro x hx
    change (update (update s.vinode w _) v _ x).map _ = _
    by_cases hxv : x = v
    · rw [hxv, update_self, hi]
      rfl
    · rw [update_of_ne hxv]
      by_cases hxw : x = w
      · rw [hxw, update_self, hj]
        rfl
      · rw [update_of_ne hxw]
  have hvin : update (update s.vinode w (some { j with nlinks := j.nlinks - 1 })) v
      (some { i with size := 32 * ((V.dir d).length - 1 : ℕ) }) w = some { j with nlinks := j.nlinks - 1 } :=
    (update_of_ne hvw.symm _ _).trans (update_self _ _ _)
  have hbeyond : ∀ x ≥ s.next, update (update s.vinode w (some { j with nlinks := j.nlinks - 1 })) v
      (some { i with size := 32 * ((V.dir d).length - 1 : ℕ) }) x = s.vinode x := by
    intro x hx
    exact (update_of_ne (by omega) _ _).trans (update_of_ne (by omega) _ _)
  have hnl : j.nlinks = (V.node k).nlinks := ha.nlinks
  rcases hdropped.kind with ⟨hone', -, ho, -⟩ | ⟨hmore, -, ho, -⟩
  · refine ⟨_, e, _, new, o, used, none, hval, hc, hget, hdropped, hshow none (.inl ⟨ho, rfl⟩), hsame, rfl, hbeyond, _,
      hvin, .inl ⟨?_, rfl, ho⟩⟩
    change j.nlinks - 1 = 0
    omega
  · refine ⟨_, e, _, new, o, used, some w, hval, hc, hget, hdropped, hshow (some w) (.inr ⟨ho, rfl⟩), hsame, rfl, hbeyond,
      _, hvin, .inr ⟨?_, rfl⟩⟩
    change j.nlinks - 1 ≠ 0
    omega

end Unlink

end Shows

end Pke.Files
