import Pke.Files.TreeLaws
import Pke.Files.Unlinks

/-! A directory of one block as a map from names to inodes: `rfs_lookup` reads it and `rfs_add_direntry` extends it. -/

namespace Pke.Files

open Lib Flow Function

variable {s t u : Vfs} {v n blk len k : ℕ} {z : ℤ} {i : Vinode} {l : List (Name × ℤ)} {nm : Name}

def Finds (s : Vfs) (v : ℕ) (nm : Name) : Option ℤ → Prop
  | none => ∃ t, rfsLookup v nm s = .done none t
  | some z => ∃ w t j, rfsLookup v nm s = .done (some w) t ∧ t.vinode w = some j ∧ j.inum = z

namespace Finds

lemma unique {r r' : Option ℤ} (h : Finds s v nm r) (h' : Finds s v nm r') : r = r' := by
  cases r with
  | none =>
    obtain ⟨t, ht⟩ := h
    cases r' with
    | none => rfl
    | some z =>
      obtain ⟨w, t', j, ht', -⟩ := h'
      rw [ht] at ht'
      cases ht'
  | some z =>
    obtain ⟨w, t, j, ht, hj, hz⟩ := h
    cases r' with
    | none =>
      obtain ⟨t', ht'⟩ := h'
      rw [ht] at ht'
      cases ht'
    | some z' =>
      obtain ⟨w', t', j', ht', hj', hz'⟩ := h'
      rw [ht] at ht'
      cases ht'
      rw [hj] at hj'
      cases hj'
      rw [← hz, ← hz']

lemma of_scan_none (hv : s.vinode v = some i)
    (hfind : findDirentry i.addrs nm (List.range (totalDirentrys i.size)) s = .done none t) : Finds s v nm none :=
  ⟨t, by rw [rfsLookup, bind_done (getVinode_eq hv), bind_done hfind]; rfl⟩

lemma of_scan_some {x : ℕ} (hv : s.vinode v = some i)
    (hfind : findDirentry i.addrs nm (List.range (totalDirentrys i.size)) s = .done (some x) t)
    (hinum : direntryInum t.iobuffer x = k) (hk : k < ninodes) : Finds s v nm (some (k : ℤ)) := by
  obtain ⟨io, hio⟩ := alloc_and_update (s := t) hk
  have hlookup : rfsLookup v nm s =
      (do let w ← rfsAllocVinode (direntryInum t.iobuffer x); rfsUpdateVinode w; pure (some w) : Flow Vfs (Option ℕ)) t := by
    rw [rfsLookup, bind_done (getVinode_eq hv), bind_done hfind]
    rfl
  rw [hinum, hio (fun w => pure (some w))] at hlookup
  exact ⟨t.next, _, _, hlookup, update_self _ _ _, rfl⟩

end Finds

structure Directory (s : Vfs) (v n blk len : ℕ) (l : List (Name × ℤ)) : Prop where
  vinode : ∃ i, s.vinode v = some i ∧ i.type = dirI ∧ i.blocks = 1 ∧ i.size = 32 * len ∧ i.addrs 0 = blk ∧ i.inum = n
  inode : n < ninodes
  data : 12 ≤ blk ∧ blk < 128
  fits : l.length ≤ len ∧ len ≤ 128
  entries : direntrys (s.disk blk) l.length = l
  short : ∀ e ∈ l, e.1.length < 28 ∧ ∃ k : ℕ, e.2 = k ∧ k < ninodes

section OneBlock

variable {d : Dinode}

lemma Dense.of_oneBlock (hsize : d.size = 32 * len) (hblocks : d.blocks = 1) (haddr : d.addrs 0 = blk) (hlen : len ≤ 128)
    (hdata : 12 ≤ blk ∧ blk < 128) : Dense d len := by
  have hone : dirBlocks len = 1 := by
    rw [dirBlocks]
    omega
  refine ⟨hsize, by rw [hone, hblocks]; rfl, by omega, fun j hj => ?_, fun j j' hj hj' _ => Fin.ext (by omega)⟩
  obtain rfl : j = 0 := Fin.ext (by rw [hone] at hj; exact Nat.lt_one_iff.mp hj)
  omega

lemma block_zero (haddr : d.addrs 0 = blk) : d.block 0 = blk := by
  rw [Dinode.block, dif_pos (by norm_num)]
  change (d.addrs 0).toNat = blk
  omega

lemma entryNamed_iff {x : ℕ} (haddr : d.addrs 0 = blk) (hx : x < 128) :
    EntryNamed s d x nm ↔ hasString (overlay (s.disk blk) s.iobuffer) (x * 32 + 4) nm = true := by
  rw [EntryNamed, Nat.div_eq_of_lt hx, Nat.mod_eq_of_lt hx, block_zero haddr]

lemma recordInum_oneBlock {x : ℕ} (haddr : d.addrs 0 = blk) (hx : x < 128) :
    recordInum s.disk d x = (direntry (s.disk blk) x).2 := by
  apply load32_congr
  intro y hy
  have hdiv : (32 * x + y) / 4096 = 0 := by omega
  have hmod : (32 * x + y) % 4096 = x * 32 + y := by omega
  rw [stream, hdiv, hmod, block_zero haddr]

end OneBlock

namespace Directory

lemma entry (h : Directory s v n blk len l) {x : ℕ} (hx : x < l.length) :
    l[x]? = some (direntry (s.disk blk) x) ∧ (direntry (s.disk blk) x).1.length < 28 := by
  have hget := direntrys_get (b := s.disk blk) hx
  rw [h.entries] at hget
  exact ⟨hget, (h.short _ (List.mem_of_getElem? hget)).1⟩

lemma named (h : Directory s v n blk len l) (haddr : i.addrs 0 = blk) (hz : (0 : UInt8) ∉ nm) {x : ℕ} (hx : x < l.length) :
    EntryNamed s i.toDinode x nm ↔ (direntry (s.disk blk) x).1 = nm := by
  have hlt : x < 128 := hx.trans_le (h.fits.1.trans h.fits.2)
  have hread : readString (overlay (s.disk blk) s.iobuffer) (x * 32 + 4) 28 = (direntry (s.disk blk) x).1 := by
    apply readString_congr
    intro y hy
    exact overlay_apply (by omega)
  rw [entryNamed_iff haddr hlt, hasString_iff hz (by rw [hread]; exact (h.entry hx).2), hread]

lemma finds_some (h : Directory s v n blk len l) (hz : (0 : UInt8) ∉ nm) (hl : l.lookup nm = some z) :
    Finds s v nm (some z) := by
  obtain ⟨i, hv, -, hblocks, hsize, haddr, -⟩ := h.vinode
  obtain ⟨l₁, l₂, rfl, hfirst⟩ := List.lookup_eq_some_iff.mp hl
  have hx : l₁.length < (l₁ ++ (nm, z) :: l₂).length := by simp
  have hdense := Dense.of_oneBlock hsize hblocks haddr h.fits.2 h.data
  have hget := (h.entry hx).1
  rw [List.getElem?_append_right le_rfl, Nat.sub_self] at hget
  obtain ⟨hname, hinum⟩ : nm = (direntry (s.disk blk) l₁.length).1 ∧ z = (direntry (s.disk blk) l₁.length).2 :=
    Prod.ext_iff.mp (Option.some.inj hget)
  obtain ⟨k, rfl, hk⟩ := (h.short (nm, z) (by simp)).2
  have hfind : findDirentry i.addrs nm (List.range (totalDirentrys i.size)) s = .done (some l₁.length) (atEntry s i.toDinode l₁.length) := by
    rw [totalDirentrys_eq hsize, List.range_eq_range']
    refine findDirentry_first hdense (hx.trans_le h.fits.1) ((h.named haddr hz hx).mpr hname.symm) (Nat.zero_le _) ?_ ?_
      ⟨fun _ => rfl, .inl rfl⟩
    · exact (hx.trans_le h.fits.1).trans_le (by omega)
    · intro y _ hy hyn
      have hmem : direntry (s.disk blk) y ∈ l₁ := by
        have hget := (h.entry (hy.trans hx)).1
        rw [List.getElem?_append_left hy] at hget
        exact List.mem_of_getElem? hget
      have hne := hfirst _ hmem
      rw [(h.named haddr hz (hy.trans hx)).mp hyn] at hne
      exact absurd hne (by simp)
  refine Finds.of_scan_some hv hfind (recordInum_eq ?_) hk
  rw [recordInum_oneBlock haddr (hx.trans_le (h.fits.1.trans h.fits.2)), hinum]

lemma finds_none (h : Directory s v n blk len l) (hv : s.vinode v = some i) (hno : ∀ x < len, ¬ EntryNamed s i.toDinode x nm) :
    Finds s v nm none := by
  obtain ⟨j, hj, -, hblocks, hsize, haddr, -⟩ := h.vinode
  obtain rfl : i = j := Option.some.inj (hv.symm.trans hj)
  have hdense := Dense.of_oneBlock hsize hblocks haddr h.fits.2 h.data
  have hready : Ready s i.toDinode 0 s.iobuffer := ⟨fun _ => rfl, .inl rfl⟩
  obtain ⟨io, hio⟩ := findDirentry_none hdense (Nat.zero_add len).le hno hready
  refine Finds.of_scan_none hv (t := { s with iobuffer := io }) ?_
  rw [totalDirentrys_eq hsize, List.range_eq_range']
  exact hio

lemma finds (h : Directory s v n blk l.length l) (hz : (0 : UInt8) ∉ nm) : Finds s v nm (l.lookup nm) := by
  cases hl : l.lookup nm with
  | some z => exact h.finds_some hz hl
  | none =>
    obtain ⟨i, hv, -, -, -, haddr, -⟩ := h.vinode
    apply h.finds_none hv
    intro x hx hname
    have hne := List.lookup_eq_none_iff.mp hl _ (List.mem_of_getElem? (h.entry hx).1)
    rw [(h.named haddr hz hx).mp hname] at hne
    exact absurd hne (by simp)

end Directory

structure Grown (s t : Vfs) (v n blk len : ℕ) (nm : Name) (z : ℤ) : Prop where
  room : len * 32 + 4 + nm.length < 4096
  vinode : ∀ i, s.vinode v = some i → t.vinode v = some { i with size := 32 * (len + 1 : ℕ) }
  disk : ∃ d, t.disk = setDnode (update s.disk blk (putDirentry (s.disk blk) (len * 32) nm z)) n d

lemma rfsAddDirentry_room (hv : s.vinode v = some i) (htype : i.type = dirI) (hsize : i.size = 32 * len) (hlen : len < 128) :
    yields (rfsAddDirentry v nm z) (fun _ _ => len * 32 + 4 + nm.length < 4096) s := by
  have hmod : i.size.tmod rfsBlksize = ((len * 32 : ℕ) : ℤ) := by
    rw [hsize]
    change (32 * (len : ℤ)).tmod 4096 = _
    rw [Int.tmod_eq_emod_of_nonneg (by omega)]
    omega
  have hall {α : Type} (m : Flow Vfs α) (Q : α → Vfs → Prop) (w : Vfs) (h : ∀ r t, Q r t) : yields m Q w := fun r t _ => h r t
  refine yields_bind_done (getVinode_eq hv) ?_
  rw [if_neg (fun hno => hno htype)]
  refine yields_bind (hall _ _ _ fun a w => yields_bind (hall _ _ _ fun _ w => ?_))
  dsimp only
  rw [hmod]
  split_ifs with hfit
  · exact yields_undef
  · apply hall
    intro _ _
    change ¬ (((len * 32 : ℕ) : ℤ) < 0 ∨ (4096 : ℤ) < ((len * 32 : ℕ) : ℤ) + 4 + nm.length + 1) at hfit
    omega

namespace Directory

lemma grown (h : Directory s v n blk len l) (hlen : len < 128) {r : ℤ} (hret : rfsAddDirentry v nm z s = .done r t) :
    Grown s t v n blk len nm z := by
  obtain ⟨i, hv, htype, -, hsize, haddr, hin⟩ := h.vinode
  have hroom := rfsAddDirentry_room hv htype hsize hlen r t hret
  obtain ⟨io, hio⟩ := rfsAddDirentry_eq (z := z) hv htype hsize hroom haddr h.data.2 hin h.inode
  rw [hio] at hret
  cases hret
  refine ⟨hroom, fun j hj => ?_, _, rfl⟩
  rw [hv] at hj
  cases hj
  exact update_self _ _ _

end Directory

namespace Grown

lemma block (h : Grown s t v n blk len nm z) (hn : n < ninodes) (hblk : 12 ≤ blk) :
    t.disk blk = putDirentry (s.disk blk) (len * 32) nm z := by
  obtain ⟨d, hd⟩ := h.disk
  rw [hd, setDnode_block hn (by omega), update_self]

lemma frame (h : Grown s t v n blk len nm z) {b : ℕ} (hb : b ≠ blk) (hinode : b ≠ n / 32 + 1) : t.disk b = s.disk b := by
  obtain ⟨d, hd⟩ := h.disk
  rw [hd, setDnode, update_of_ne hinode, update_of_ne hb]

lemma directory (h : Grown s t v n blk len nm z) (hd : Directory s v n blk len l) {l' : List (Name × ℤ)}
    (hl : l'.length ≤ len + 1) (hentries : direntrys (putDirentry (s.disk blk) (len * 32) nm z) l'.length = l')
    (hshort : ∀ e ∈ l', e.1.length < 28 ∧ ∃ k : ℕ, e.2 = k ∧ k < ninodes) : Directory t v n blk (len + 1) l' := by
  obtain ⟨i, hv, htype, hblocks, -, haddr, hin⟩ := hd.vinode
  have hroom := h.room
  refine ⟨⟨_, h.vinode i hv, htype, hblocks, rfl, haddr, hin⟩, hd.inode, hd.data, ⟨hl, by omega⟩, ?_, hshort⟩
  rw [h.block hd.inode hd.data.1, hentries]

lemma keeps (h : Grown s t v n blk len nm z) (hd : Directory s v n blk len l) : Directory t v n blk (len + 1) l := by
  apply h.directory hd (hd.fits.1.trans (Nat.le_succ len)) _ hd.short
  rw [← hd.entries, direntrys, direntrys, List.length_map, List.length_range]
  apply List.map_congr_left
  intro x hx
  rw [List.mem_range] at hx
  have hlen := hd.fits.1
  apply direntry_congr
  intro y hy
  exact putDirentry_of_notMem (by omega)

lemma append (h : Grown s t v n blk l.length nm k) (hd : Directory s v n blk l.length l) (hnm : nm.length < 28)
    (hz : (0 : UInt8) ∉ nm) (hk : k < ninodes) : Directory t v n blk (l.length + 1) (l ++ [(nm, (k : ℤ))]) := by
  have hlen : (l ++ [(nm, (k : ℤ))]).length = l.length + 1 := by simp
  have hfits : -2 ^ 31 ≤ (k : ℤ) ∧ (k : ℤ) < 2 ^ 31 := by
    change k < 320 at hk
    omega
  apply h.directory hd hlen.le
  · rw [hlen, direntrys_putDirentry hnm hz hfits, hd.entries]
  · intro e he
    rcases List.mem_append.mp he with he | he
    · exact hd.short e he
    · obtain rfl := List.mem_singleton.mp he
      exact ⟨hnm, k, rfl, hk⟩

end Grown

def addDirentrys (v : ℕ) (l : List (Name × ℤ)) : Flow Vfs Unit := each (fun e => do let _ ← rfsAddDirentry v e.1 e.2) l

lemma Directory.addDirentrys (h : Directory s v n blk len l) {later : List (Name × ℤ)} (hlen : len + later.length ≤ 128) :
    yields (addDirentrys v later) (fun _ u => Directory u v n blk (len + later.length) l) s := by
  induction later generalizing s len with
  | nil => exact yields_pure h
  | cons e later ih =>
    rw [List.length_cons] at hlen ⊢
    refine yields_bind (yields_bind ?_)
    intro r t hret
    apply yields_pure
    have hnext := (h.grown (by omega) hret).keeps h
    rw [Nat.add_comm later.length 1, ← Nat.add_assoc]
    exact ih hnext (by omega)

structure Inserts (s t : Vfs) (v n blk len : ℕ) (nm : Name) (k : ℕ) : Prop where
  found : Finds t v nm (some (k : ℤ))
  kept : ∀ later u, (∀ e ∈ later, e.1 ≠ nm) → len + 1 + later.length ≤ 128 → addDirentrys v later t = .done () u →
    Finds u v nm (some (k : ℤ))
  others : ∀ nm' ≠ nm, (0 : UInt8) ∉ nm' → ∀ r, Finds t v nm' r ↔ Finds s v nm' r
  frame : ∀ b, b ≠ blk → b ≠ n / 32 + 1 → t.disk b = s.disk b

namespace Grown

lemma lost (h : Grown s t v n blk l.length nm z) (hd : Directory s v n blk l.length l) (hz : (0 : UInt8) ∉ nm)
    (hlong : 28 ≤ nm.length) {c : UInt8} {k : ℕ} (hk : byte32 k 0 ≠ nm.getD 28 0)
    (hnext : Grown t u v n blk (l.length + 1) [c] k) : Finds u v nm none := by
  have ht := h.keeps hd
  have hu := hnext.keeps ht
  obtain ⟨i, hv, -, -, -, haddr, -⟩ := hu.vinode
  have hroom := h.room
  have hblock : ∀ x < 4096, overlay (u.disk blk) u.iobuffer x = putDirentry (t.disk blk) ((l.length + 1) * 32) [c] k x := by
    intro x hx
    rw [overlay_apply hx, hnext.block hd.inode hd.data.1]
  apply hu.finds_none hv
  intro x hx hname
  by_cases hold : x < l.length
  · have heq := (hu.named haddr hz hold).mp hname
    have hshort := (hu.entry hold).2
    rw [heq] at hshort
    omega
  rw [entryNamed_iff haddr (by omega)] at hname
  by_cases hlast : x = l.length
  · -- the number of the next inode stands where the name goes on or ends
    subst hlast
    have hbyte := hasString_byte hname hlong
    rw [hblock _ (by omega), putDirentry, putString_apply (by omega), store32, if_pos (by omega)] at hbyte
    have hzero : l.length * 32 + 4 + 28 - (l.length + 1) * 32 = 0 := by omega
    rw [hzero] at hbyte
    exact hk hbyte
  · -- the next name is of one character
    obtain rfl : x = l.length + 1 := by omega
    have hbyte := hasString_byte hname (i := 1) (by omega)
    rw [hblock _ (by omega), putDirentry, putString, putString, update_of_ne (by omega), update_self,
      List.getD_eq_getElem?_getD, List.getElem?_eq_getElem (by omega), Option.getD_some] at hbyte
    exact hz (hbyte ▸ List.getElem_mem _)

end Grown

lemma exists_byte32_ne (b : UInt8) : ∃ k : ℕ, byte32 k 0 ≠ b := by
  by_cases hb : b = 1
  · exact ⟨2, by rw [hb]; decide⟩
  · exact ⟨1, fun he => hb (he.symm.trans (by decide))⟩

namespace Directory

lemma inserts_iff (h : Directory s v n blk l.length l) (hlen : l.length < 128) (hz : (0 : UInt8) ∉ nm) (hk : k < ninodes)
    (hret : rfsAddDirentry v nm k s = .done 0 t) :
    Inserts s t v n blk l.length nm k ↔ nm.length < 28 ∧ ∀ z, l.lookup nm = some z → z = k := by
  have hg := h.grown hlen hret
  have hroom := hg.room
  constructor
  · intro hins
    constructor
    · by_contra hlong
      have ht := hg.keeps h
      obtain ⟨k', hk'⟩ := exists_byte32_ne (nm.getD 28 0)
      obtain ⟨i, hv, htype, -, hsize, haddr, hin⟩ := ht.vinode
      have hend : (l.length + 1) * 32 + 4 + ([98] : Name).length < 4096 := by
        rw [List.length_singleton]
        omega
      obtain ⟨io, hadd⟩ := rfsAddDirentry_eq (z := (k' : ℤ)) hv htype hsize hend haddr h.data.2 hin h.inode
      have hne : ∀ e ∈ [(([98] : Name), (k' : ℤ))], e.1 ≠ nm := by
        rintro e he rfl
        obtain rfl := List.mem_singleton.mp he
        exact hlong (by norm_num)
      have hfound := hins.kept _ _ hne (by rw [List.length_singleton]; omega) (bind_done (bind_done hadd))
      cases hfound.unique (hg.lost h hz (by omega) hk' (ht.grown (by omega) hadd))
    · intro z hl
      exact Option.some.inj (((hg.keeps h).finds_some hz hl).unique hins.found)
  · rintro ⟨hnm, hold⟩
    have ht := hg.append h hnm hz hk
    have hnew : (l ++ [(nm, (k : ℤ))]).lookup nm = some (k : ℤ) := by
      rw [List.lookup_append]
      cases hl : l.lookup nm with
      | none => simp
      | some z => rw [hold z hl]; rfl
    refine ⟨ht.finds_some hz hnew, ?_, ?_, fun b hb hinode => hg.frame hb hinode⟩
    · intro later u _ hlater hu
      exact (ht.addDirentrys hlater () u hu).finds_some hz hnew
    · intro nm' hne hz' r
      have hsame : (l ++ [(nm, (k : ℤ))]).lookup nm' = l.lookup nm' := by
        have hno : (nm' == nm) = false := beq_false_of_ne hne
        rw [List.lookup_append, List.lookup_cons, hno, List.lookup_nil]
        exact Option.or_none
      have hlist : (l ++ [(nm, (k : ℤ))]).length = l.length + 1 := by simp
      have hafter := (hlist ▸ ht : Directory t v n blk (l ++ [(nm, (k : ℤ))]).length _).finds hz'
      rw [hsame] at hafter
      constructor
      · intro hr
        rw [hr.unique hafter]
        exact h.finds hz'
      · intro hr
        rw [hr.unique (h.finds hz')]
        exact hafter

end Directory

lemma Reached.directory (h : Reached FsOp.Allowed s) (hdir : s.vol.IsDir n) (hv : s.held n = some v) :
    Directory s v n ((s.vol.node n).addrs 0).toNat (s.vol.dir n).length (s.vol.dir n) := by
  obtain ⟨V, hV⟩ := h.sound
  have hok := hV.agree.ok hV.ok
  have hd : V.IsDir n := hV.agree.isDir.mp hdir
  obtain ⟨i, hi, hin, -, hnode⟩ := hV.shown.dir_vinode hV.ok hd hv
  have hsame : s.vol.node n = V.node n := hV.agree.node n hd.1
  obtain ⟨blk, hblk, hge, hlt, -⟩ := Shows.dir_block hok hdir
  obtain ⟨hone, -, hsize, hlen⟩ := hok.tree.isDir n hdir
  rw [hblk, Int.toNat_natCast]
  rw [← hsame] at hnode
  refine ⟨⟨i, hi, ?_, ?_, ?_, ?_, hin⟩, hdir.1, ⟨hge, by omega⟩, ⟨le_rfl, hlen⟩, ?_, ?_⟩
  · rw [hnode]
    exact hdir.2
  · rw [hnode, hone]
  · rw [hnode, hsize]
  · rw [hnode, hblk]
  · rw [hV.agree.dir n hd]
    exact hV.shown.dir_entries hd (hsame ▸ hblk)
  · intro e he
    obtain ⟨hshort, k, hk, -, hlive⟩ := hok.tree.entry n hdir e he
    exact ⟨hshort, k, hk, hlive.1⟩

/-- In a directory with room, a name that ends within its entry is added to the map, if it is not there for another inode. -/
theorem name_is_added_iff (h : Reached FsOp.Allowed s) (hdir : s.vol.IsDir n) (hv : s.held n = some v)
    (hroom : (s.vol.dir n).length < 128) (hz : (0 : UInt8) ∉ nm) (hk : k < ninodes)
    (hret : rfsAddDirentry v nm k s = .done 0 t) :
    Inserts s t v n ((s.vol.node n).addrs 0).toNat (s.vol.dir n).length nm k ↔
      nm.length < 28 ∧ ∀ z, (s.vol.dir n).lookup nm = some z → z = k :=
  (h.directory hdir hv).inserts_iff hroom hz hk hret

instance : Decidable (s.vol.IsDir n) := inferInstanceAs (Decidable (n < ninodes ∧ (s.vol.node n).type = dirI))

theorem name_is_added_to_root : ∃ s t, Reached FsOp.Allowed s ∧ (s.vol.dir 0).length = 1 ∧
    Inserts s t 2 0 ((s.vol.node 0).addrs 0).toNat (s.vol.dir 0).length [98] 2 := by
  have hrun : FsOp.leadsTo (fun s op => op.allowed s) [.opens 0 (onRamdisk [97]) 66]
      (fun s => decide (s.vol.IsDir 0 ∧ s.held 0 = some 2 ∧ s.vol.dir 0 = [([97], 1)]) &&
        (rfsAddDirentry 2 [98] (2 : ℕ) s).ends fun r _ => decide (r = 0)) = true := by decide +kernel
  obtain ⟨s, hs, hend⟩ := Reached.of_run (fun h => FsOp.allowed_of h) hrun
  rw [Bool.and_eq_true, decide_eq_true_eq] at hend
  obtain ⟨⟨hdir, hv, hone⟩, hadd⟩ := hend
  obtain ⟨r, t, ht, hr⟩ := Outcome.ends_done hadd
  obtain rfl : r = 0 := of_decide_eq_true hr
  refine ⟨s, t, hs, by rw [hone]; rfl, (name_is_added_iff hs hdir hv (by rw [hone]; decide) (by decide) (by decide) ht).mpr ?_⟩
  rw [hone]
  exact ⟨by decide, fun z hno => absurd hno nofun⟩

theorem long_name_is_lost : ∃ s t u w, Reached FsOp.Allowed s ∧ s.vol.IsDir 0 ∧ s.held 0 = some 2 ∧ s.vol.dir 0 = [] ∧
    rfsAddDirentry 2 longName 1 s = .done 0 t ∧ rfsAddDirentry 2 [98] 2 t = .done 0 u ∧ rfsLookup 2 longName u = .done none w := by
  have hrun : FsOp.leadsTo (fun s op => op.allowed s) []
      (fun s => decide (s.vol.IsDir 0 ∧ s.held 0 = some 2 ∧ s.vol.dir 0 = []) &&
        (rfsAddDirentry 2 longName 1 s).ends fun r t => decide (r = 0) &&
          (rfsAddDirentry 2 [98] 2 t).ends fun r u => decide (r = 0) &&
            (rfsLookup 2 longName u).ends fun r _ => decide (r = none)) = true := by decide +kernel
  obtain ⟨s, hs, hend⟩ := Reached.of_run (fun h => FsOp.allowed_of h) hrun
  rw [Bool.and_eq_true, decide_eq_true_eq] at hend
  obtain ⟨⟨hdir, hv, hnone⟩, hadd⟩ := hend
  obtain ⟨r, t, ht, hend⟩ := Outcome.ends_done hadd
  rw [Bool.and_eq_true, decide_eq_true_eq] at hend
  obtain ⟨rfl, hadd⟩ := hend
  obtain ⟨r, u, hu, hend⟩ := Outcome.ends_done hadd
  rw [Bool.and_eq_true, decide_eq_true_eq] at hend
  obtain ⟨rfl, hlook⟩ := hend
  obtain ⟨r, w, hw, hr⟩ := Outcome.ends_done hlook
  obtain rfl : r = none := of_decide_eq_true hr
  exact ⟨s, t, u, w, hs, hdir, hv, hnone, ht, hu, hw⟩

end Pke.Files
