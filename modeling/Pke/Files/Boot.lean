import Pke.Files.Lookups

/-! `fs_init`: the host is mounted as the root, the RAM disk is formatted and mounted below it. -/

namespace Pke.Files

open Lib Flow Function

variable {s : Vfs} {rest : Fin 10 → ℤ}

section Format

lemma load32_clearDinode (b : ℕ → UInt8) (o : ℕ) : load32 (clearDinode b o) (o + 4) = rFree := by
  rw [clearDinode]
  have hfar : ∀ i < 4, store32 (store32 (store32 (store32 b o 0) (o + 4) rFree) (o + 8) 0) (o + 12) 0 (o + 4 + i) =
      store32 (store32 b o 0) (o + 4) rFree (o + 4 + i) := by
    intro i hi
    rw [store32_apply (by omega), store32_apply (by omega)]
  rw [load32_congr hfar]
  exact load32_store32 (by decide)

lemma clearDinode_apply (b : ℕ → UInt8) {o x : ℕ} (h : x < o ∨ o + 16 ≤ x) : clearDinode b o x = b x := by
  rw [clearDinode, store32_apply (by omega), store32_apply (by omega), store32_apply (by omega), store32_apply (by omega)]

lemma load32_cleared (b : ℕ → UInt8) (n : ℕ) : ∀ i < n,
    load32 ((List.range n).foldl (fun b i => clearDinode b (i * 128)) b) (i * 128 + 4) = rFree := by
  induction n with
  | zero => intro i hi; omega
  | succ n ih =>
    intro i hi
    rw [List.range_succ, List.foldl_append]
    change load32 (clearDinode ((List.range n).foldl (fun b i => clearDinode b (i * 128)) b) (n * 128)) _ = _
    by_cases hin : i = n
    · rw [hin]
      exact load32_clearDinode _ _
    · rw [← ih i (by omega)]
      exact load32_congr fun x hx => clearDinode_apply _ (by omega)

lemma writeInodes_eq (c a : ℕ) (h : a + c ≤ 10) : each (fun k : ℕ => rfsW1block (1 + k)) (List.range' a c) s =
    .done () { s with disk := fun b => if 1 + a ≤ b ∧ b < 1 + a + c then overlay s.iobuffer (s.disk b) else s.disk b } := by
  induction c generalizing s a with
  | zero =>
    have hdisk : (fun b => if 1 + a ≤ b ∧ b < 1 + a + 0 then overlay s.iobuffer (s.disk b) else s.disk b) = s.disk := by
      funext b
      rw [if_neg (by omega)]
    rw [hdisk]
    rfl
  | succ c ih =>
    have hcast : (1 + (a : ℤ)) = ((1 + a : ℕ) : ℤ) := by omega
    rw [List.range'_succ, each, hcast, bind_done (rfsW1block_eq (by omega)), ih (a + 1) (by omega)]
    congr 2
    funext b
    dsimp only
    by_cases hb : b = 1 + a
    · rw [hb, if_neg (by omega), if_pos (by omega), update_self]
    · rw [update_of_ne hb]
      by_cases hin : 1 + a ≤ b ∧ b < 1 + a + (c + 1)
      · rw [if_pos hin, if_pos (by omega)]
      · rw [if_neg hin, if_neg (by omega)]

def rootDinode (rest : Fin 10 → ℤ) : Dinode := ⟨0, dirI, 1, 1, update rest 0 rfsBlkOffsetFree⟩

structure Formatted (rest : Fin 10 → ℤ) (D : ℕ → ℕ → UInt8) : Prop where
  magic : load32 (D 0) 0 = 0xBEAF
  nblocks : load32 (D 0) 8 = 100
  root : dnode D 0 = rootDinode rest
  free : ∀ n < ninodes, n ≠ 0 → (dnode D n).type = rFree
  bitmap : ∀ b < 100, load32 (D 11) (4 * b) = if b = 0 then 1 else 0

lemma rootDinode_fits (hrest : ∀ i, -2 ^ 31 ≤ rest i ∧ rest i < 2 ^ 31) : (rootDinode rest).Fits := by
  have hsmall : ∀ z : ℤ, 0 ≤ z → z ≤ 1 → -2 ^ 31 ≤ z ∧ z < 2 ^ 31 := by
    intro z h0 h1
    omega
  refine Dinode.fits_of (hsmall 0 (by decide) (by decide)) (hsmall 1 (by decide) (by decide))
    (hsmall 1 (by decide) (by decide)) (hsmall 1 (by decide) (by decide)) fun i => ?_
  change -2 ^ 31 ≤ update rest 0 rfsBlkOffsetFree i ∧ update rest 0 rfsBlkOffsetFree i < 2 ^ 31
  by_cases hi : i = 0
  · rw [hi, update_self]
    decide
  · rw [update_of_ne hi]
    exact hrest i

lemma load32_overlay {b r : ℕ → UInt8} {a : ℕ} (h : a + 4 ≤ 4096) : load32 (overlay b r) a = load32 b a :=
  load32_congr fun _ _ => overlay_apply (by omega)

lemma rfsFormatDev_eq (hrest : ∀ i, -2 ^ 31 ≤ rest i ∧ rest i < 2 ^ 31) :
    ∃ D io, rfsFormatDev rest s = .done () { s with disk := D, iobuffer := io } ∧ Formatted rest D := by
  let super := store32 (store32 (store32 (store32 s.iobuffer 0 0xBEAF) 4 112) 8 100) 12 320
  let clear := (List.range 32).foldl (fun b i => clearDinode b (i * 128)) super
  let D₁ := update s.disk 0 (overlay super (s.disk 0))
  let D₂ : ℕ → ℕ → UInt8 := fun b => if 1 + 0 ≤ b ∧ b < 1 + 0 + 10 then overlay clear (D₁ b) else D₁ b
  let D₃ := setDnode D₂ 0 (rootDinode rest)
  obtain ⟨io, hio⟩ := rfsWriteDinode_eq (n := 0) (d := rootDinode rest) (s := { s with disk := D₂, iobuffer := clear })
    (by norm_num)
  let bitmap := store32 (fun x => if x < rfsBlksize then 0 else io x) 0 1
  have h₀ : rfsW1block 0 { s with iobuffer := super } = .done () { s with iobuffer := super, disk := D₁ } :=
    rfsW1block_eq (n := 0) (by omega)
  have h₁ : each (fun k : ℕ => rfsW1block (1 + k)) (List.range 10) { s with iobuffer := clear, disk := D₁ } =
      .done () { s with iobuffer := clear, disk := D₂ } := by
    rw [List.range_eq_range']
    exact writeInodes_eq 10 0 (by omega)
  have h₂ : rfsW1block rfsBlkOffsetBitmap { s with disk := D₃, iobuffer := bitmap } =
      .done () { s with disk := update D₃ 11 (overlay bitmap (D₃ 11)), iobuffer := bitmap } :=
    rfsW1block_eq (n := 11) (by omega)
  refine ⟨update D₃ 11 (overlay bitmap (D₃ 11)), bitmap, ?_, ?_⟩
  · rw [rfsFormatDev, modify_bind, bind_done h₀, modify_bind, bind_done h₁]
    change (rfsWriteDinode (rootDinode rest) (0 : ℕ) >>= _) { s with disk := D₂, iobuffer := clear } = _
    rw [bind_done hio, modify_bind, h₂]
  · have hzero : update D₃ 11 (overlay bitmap (D₃ 11)) 0 = overlay super (s.disk 0) := by
      rw [update_of_ne (by decide)]
      change update D₂ (0 / 32 + 1) _ 0 = _
      rw [update_of_ne (by decide)]
      change (if 1 + 0 ≤ 0 ∧ 0 < 1 + 0 + 10 then overlay clear (D₁ 0) else D₁ 0) = _
      rw [if_neg (by omega)]
      exact update_self _ _ _
    refine ⟨?_, ?_, ?_, ?_, ?_⟩
    · rw [hzero, load32_overlay (by omega), ← load32_store32 (b := s.iobuffer) (a := 0) (v := 0xBEAF) (by decide)]
      refine load32_congr fun i hi => ?_
      change store32 (store32 (store32 (store32 s.iobuffer 0 0xBEAF) 4 112) 8 100) 12 320 (0 + i) = _
      rw [store32_apply (by omega), store32_apply (by omega), store32_apply (by omega)]
    · rw [hzero, load32_overlay (by omega),
        ← load32_store32 (b := store32 (store32 s.iobuffer 0 0xBEAF) 4 112) (a := 8) (v := 100) (by decide)]
      exact load32_congr fun i hi => store32_apply (by omega)
    · rw [dnode_update_block (by norm_num) (by omega)]
      exact dnode_setDnode (rootDinode_fits hrest)
    · intro n hn hn0
      change n < 320 at hn
      rw [dnode_update_block hn (by omega), dnode_setDnode_of_ne hn0]
      change (loadDinode (if 1 + 0 ≤ n / 32 + 1 ∧ n / 32 + 1 < 1 + 0 + 10 then overlay clear (D₁ (n / 32 + 1))
        else D₁ (n / 32 + 1)) (n % 32 * 128)).word 1 = rFree
      rw [if_pos (by omega), loadDinode_word _ _ _ (by omega), load32_overlay (by omega)]
      exact load32_cleared _ 32 (n % 32) (by omega)
    · intro b hb
      rw [update_self, load32_overlay (by omega)]
      split_ifs with hb0
      · rw [hb0]
        exact load32_store32 (by decide)
      · refine load32_bytes (by decide) fun i hi => ?_
        change store32 (fun x => if x < rfsBlksize then 0 else io x) 0 1 _ = _
        rw [store32_apply (by omega)]
        change (if _ < 4096 then (0 : UInt8) else _) = _
        rw [if_pos (by omega)]
        interval_cases i <;> rfl

end Format

section Mount

def withHost (s : Vfs) : Vfs := { s with
  dentry := update s.dentry (s.next + 1) (some ⟨[47], 0, some s.next, none⟩)
  vinode := update s.vinode s.next (some ⟨⟨0, dirI, 0, 0, fun _ => 0⟩, -1, 1, .null, .hostfs⟩)
  dentryHash := update (fun _ => none) (none, [47]) (some (s.next + 1)), vinodeHash := fun _ => none
  root := s.next + 1, cwd := fun _ => s.next + 1, next := s.next + 2 }

lemma mountHostfs_eq (hd : s.dentryHash = fun _ => none) (hv : s.vinodeHash = fun _ => none) :
    mountHostfs s = .done () (withHost s) := by
  rw [mountHostfs, get_bind, modify_bind, bind_done setVinode_eq, bind_done (allocVfsDentry_some (update_self _ _ _)),
    modify_bind, hashPutDentry_eq (e := ⟨[47], 0, some s.next, none⟩) (update_self _ _ _) (by dsimp only; rw [hd]),
    withHost]
  dsimp only
  rw [update_idem, hd, hv]
  rfl

def withRam (s : Vfs) (D : ℕ → ℕ → UInt8) (io : ℕ → UInt8) (free : ℕ → ℤ) : Vfs := { s with
  disk := D, iobuffer := io, nblocks := 100, freemap := free
  dentry := update s.dentry (s.next + 1) (some ⟨ramdisk0, 0, some s.next, some s.root⟩)
  vinode := update s.vinode s.next (some ⟨dnode D 0, 0, 1, .null, .rfs⟩)
  dentryHash := update s.dentryHash (some s.root, ramdisk0) (some (s.next + 1))
  vinodeHash := update s.vinodeHash (.rfs, 0) (some s.next), next := s.next + 2 }

lemma mountRfs_eq (hD : Formatted rest s.disk) (hkey : s.dentryHash (some s.root, ramdisk0) = none)
    (hno : s.vinodeHash (.rfs, 0) = none) : ∃ io free, mountRfs s = .done () (withRam s s.disk io free) ∧
      ∀ b < 100, free b = if b = 0 then 1 else 0 := by
  let io₀ := overlay (s.disk 0) s.iobuffer
  have hnb : load32 io₀ 8 = 100 := (load32_overlay (by omega)).trans hD.nblocks
  have hmagic : load32 io₀ 0 = 0xBEAF := (load32_overlay (by omega)).trans hD.magic
  obtain ⟨io₁, h₁⟩ := alloc_and_update (n := 0) (s := { s with iobuffer := io₀, nblocks := 100 }) (by norm_num)
  let io₂ := overlay (s.disk 11) io₁
  let free : ℕ → ℤ := fun b => load32 io₂ (4 * b)
  have h₂ : rfsGetSuperblock s = .done (s.next + 1) { s with
      iobuffer := io₂, nblocks := 100, freemap := free
      dentry := update s.dentry (s.next + 1) (some ⟨[47], 0, some s.next, none⟩)
      vinode := update s.vinode s.next (some ⟨dnode s.disk 0, 0, 1, .null, .rfs⟩), next := s.next + 2 } := by
    rw [rfsGetSuperblock]
    change (rfsR1block (0 : ℕ) >>= _) s = _
    rw [bind_done (rfsR1block_eq (by omega)), modify_bind, get_bind]
    change (if load32 io₀ 0 ≠ 0xBEAF then leave else _ : Flow Vfs ℕ) { s with
      iobuffer := io₀, nblocks := load32 io₀ 8 } = _
    rw [if_neg (by rw [hmagic]; decide), hnb]
    refine (h₁ _).trans ?_
    rw [bind_done (allocVfsDentry_some (update_self _ _ _))]
    change (rfsR1block (11 : ℕ) >>= _) _ = _
    rw [bind_done (rfsR1block_eq (by omega)), modify_bind]
    dsimp only
    rw [update_idem]
    rfl
  refine ⟨io₂, free, ?_, ?_⟩
  · rw [mountRfs, bind_done h₂, bind_done (inodeOf_eq (e := ⟨[47], 0, some s.next, none⟩) (update_self _ _ _) rfl),
      bind_done (hashPutVinode_eq (n := 0) (update_self _ _ _) rfl (by exact hno)), get_bind,
      bind_done (getDentry_eq (e := ⟨[47], 0, some s.next, none⟩) (update_self _ _ _))]
    change (hashPutDentry (s.next + 1)) _ = _
    rw [hashPutDentry_eq (e := ⟨ramdisk0, 0, some s.next, some s.root⟩) (update_self _ _ _) (by exact hkey), withRam]
    dsimp only
    rw [update_idem]
    rfl
  · intro b hb
    change load32 io₂ (4 * b) = _
    rw [load32_overlay (by omega)]
    exact hD.bitmap b hb

end Mount

def emptyVol (D : ℕ → ℕ → UInt8) : Vol where
  node := dnode D
  cached := update (fun _ => none) 0 (some (dnode D 0))
  dir _ := []
  used := {12}

section Empty

variable {D : ℕ → ℕ → UInt8} {n : ℕ}

lemma Formatted.live (hD : Formatted rest D) (hn : n ∈ (emptyVol D).live) : n = 0 := by
  by_contra hne
  exact hn.2 (hD.free n hn.1 hne)

lemma Formatted.node (hD : Formatted rest D) : (emptyVol D).node 0 = rootDinode rest := hD.root

lemma emptyVol_cached : (emptyVol D).cached 0 = some (dnode D 0) := by
  change update (fun _ => none) 0 (some (dnode D 0)) 0 = _
  rw [update_self]

lemma Formatted.cur (hD : Formatted rest D) : (emptyVol D).cur 0 = rootDinode rest :=
  (Vol.cur_cached emptyVol_cached).trans hD.root

lemma Formatted.tree (hD : Formatted rest D) : (emptyVol D).Tree where
  root := by
    rw [hD.node]
    rfl
  kind n hn := by
    by_cases hn0 : n = 0
    · rw [hn0, hD.node]
      exact .inr (.inl rfl)
    · exact .inr (.inr (hD.free n hn hn0))
  isDir n hn := by
    rw [hD.live hn.live, hD.node]
    exact ⟨rfl, rfl, rfl, by norm_num [emptyVol]⟩
  bounds n hn := by
    rw [hD.live hn, hD.node]
    norm_num [rootDinode]
  names _ _ := List.nodup_nil
  entry _ _ e he := by cases he
  links n hn hn0 := absurd (hD.live hn) hn0
  linked n hn := by
    rw [hD.live hn, hD.node]
    exact Int.one_pos
  cached n c hc := by
    by_cases hn : n = 0
    · subst hn
      change update (fun _ => none) 0 (some (dnode D 0)) 0 = some c at hc
      rw [update_self, Option.some.injEq] at hc
      subst hc
      have hlive : (0 : ℕ) ∈ (emptyVol D).live := by
        refine ⟨by norm_num, ?_⟩
        rw [hD.node]
        change dirI ≠ rFree
        decide
      refine ⟨hlive, rfl, rfl, fun _ => rfl, ?_, fun _ _ => rfl, ?_⟩
      · change (dnode D 0).blocks ≤ (dnode D 0).blocks ∧ (dnode D 0).blocks ≤ 10
        rw [hD.root]
        norm_num [rootDinode]
      · rw [hD.root]
        norm_num [rootDinode]
    · change update (fun _ => none) 0 (some (dnode D 0)) n = some c at hc
      rw [update_of_ne hn] at hc
      cases hc

lemma Formatted.ok (hD : Formatted rest D) : (emptyVol D).Ok where
  tree := hD.tree
  blocks := by
    have hholds : ∀ {n i b}, (emptyVol D).Holds n i b → n = 0 ∧ i = 0 ∧ b = 12 := by
      rintro n i b ⟨hn, hi, hb⟩
      rw [hD.live hn, hD.cur] at hi hb
      have hi0 : i = 0 := by
        change ((i : ℕ) : ℤ) < 1 at hi
        ext
        change (i : ℕ) = 0
        omega
      rw [hi0] at hb
      change update rest 0 rfsBlkOffsetFree 0 = b at hb
      rw [update_self] at hb
      exact ⟨hD.live hn, hi0, hb.symm⟩
    refine ⟨?_, ?_, fun _ => 12, fun _ _ => rfl, ?_, ?_⟩
    · intro n m i j b hn hm
      obtain ⟨hn0, hi0, -⟩ := hholds hn
      obtain ⟨hm0, hj0, -⟩ := hholds hm
      exact ⟨hn0.trans hm0.symm, hi0.trans hj0.symm⟩
    · exact fun hn => (hholds hn).2.2
    · exact fun n hn m hm _ => (hD.live hn).trans (hD.live hm).symm
    · exact fun n hn m i hm => (hholds hm).1.trans (hD.live hn).symm
  range := by
    rintro b rfl
    norm_num

end Empty

structure Vfs.Blank (s : Vfs) : Prop where
  dentry : ∀ x, s.dentry x = none
  vinode : ∀ x, s.vinode x = none
  file : ∀ x, s.file x = none

section Booted

variable {D : ℕ → ℕ → UInt8} {io : ℕ → UInt8} {free : ℕ → ℤ}

abbrev booted (s : Vfs) (D : ℕ → ℕ → UInt8) (io : ℕ → UInt8) (free : ℕ → ℤ) : Vfs := withRam (withHost s) D io free

lemma booted_table {k : Option ℕ × Name} {d : ℕ} (h : (booted s D io free).dentryHash k = some d) :
    k = (none, [47]) ∧ d = s.next + 1 ∨ k = (some (s.next + 1), ramdisk0) ∧ d = s.next + 3 := by
  change update (update (fun _ => none) (none, [47]) (some (s.next + 1))) (some (s.next + 1), ramdisk0)
    (some (s.next + 3)) k = some d at h
  by_cases hk : k = (some (s.next + 1), ramdisk0)
  · rw [hk, update_self, Option.some.injEq] at h
    exact .inr ⟨hk, h.symm⟩
  · rw [update_of_ne hk] at h
    by_cases hk' : k = (none, [47])
    · rw [hk', update_self, Option.some.injEq] at h
      exact .inl ⟨hk', h.symm⟩
    · rw [update_of_ne hk'] at h
      cases h

lemma booted_root : (booted s D io free).dentryHash (none, [47]) = some (s.next + 1) := by
  change update (update (fun _ => none) (none, [47]) (some (s.next + 1))) (some (s.next + 1), ramdisk0)
    (some (s.next + 3)) (none, [47]) = _
  rw [update_of_ne (by simp), update_self]

lemma booted_ram : (booted s D io free).dentryHash (some (s.next + 1), ramdisk0) = some (s.next + 3) := update_self _ _ _

lemma booted_hostDentry : (booted s D io free).dentry (s.next + 1) = some ⟨[47], 0, some s.next, none⟩ := by
  change update (update s.dentry (s.next + 1) _) (s.next + 2 + 1) _ (s.next + 1) = _
  rw [update_of_ne (by omega), update_self]

lemma booted_ramDentry :
    (booted s D io free).dentry (s.next + 3) = some ⟨ramdisk0, 0, some (s.next + 2), some (s.next + 1)⟩ :=
  update_self _ _ _

lemma booted_hostVinode :
    (booted s D io free).vinode s.next = some ⟨⟨0, dirI, 0, 0, fun _ => 0⟩, -1, 1, .null, .hostfs⟩ := by
  change update (update s.vinode s.next _) (s.next + 2) _ s.next = _
  rw [update_of_ne (by omega), update_self]

lemma booted_ramVinode : (booted s D io free).vinode (s.next + 2) = some ⟨dnode D 0, 0, 1, .null, .rfs⟩ :=
  update_self _ _ _

lemma booted_hash {k : FsType × ℤ} {v : ℕ} (h : (booted s D io free).vinodeHash k = some v) :
    k = (.rfs, 0) ∧ v = s.next + 2 := by
  change update (fun _ => none) (.rfs, 0) (some (s.next + 2)) k = some v at h
  by_cases hk : k = (.rfs, 0)
  · rw [hk, update_self, Option.some.injEq] at h
    exact ⟨hk, h.symm⟩
  · rw [update_of_ne hk] at h
    cases h

lemma booted_heldRam : (booted s D io free).vinodeHash (.rfs, 0) = some (s.next + 2) := by
  change update (fun _ => none) (FsType.rfs, (0 : ℤ)) (some (s.next + 2)) (.rfs, 0) = _
  rw [update_self]

lemma booted_numRoot : (booted s D io free).num (s.next + 1) = none :=
  (Cache.num_eq booted_hostDentry rfl booted_hostVinode).trans (if_neg (by decide))

lemma booted_numRam : (booted s D io free).num (s.next + 3) = some 0 :=
  (Cache.num_eq booted_ramDentry rfl booted_ramVinode).trans (if_pos rfl)

lemma booted_held {n v : ℕ} (h : (booted s D io free).held n = some v) : n = 0 ∧ v = s.next + 2 := by
  obtain ⟨hk, hv⟩ := booted_hash h
  have hn : (n : ℤ) = 0 := congrArg Prod.snd hk
  exact ⟨by omega, hv⟩

lemma booted_shows (hfree : ∀ b < 100, free b = if b = 0 then 1 else 0) :
    Shows (booted s D io free) (booted s D io free).held (emptyVol D) where
  node _ _ := rfl
  dir _ _ := rfl
  used b := by
    change ((12 + b : ℕ) : ℤ) = 12 ↔ b < 100 ∧ free b ≠ 0
    constructor
    · intro hb
      have hb0 : b = 0 := by omega
      rw [hb0, hfree 0 (by omega)]
      exact ⟨by omega, one_ne_zero⟩
    · rintro ⟨hb, hz⟩
      rw [hfree b hb] at hz
      by_cases hb0 : b = 0
      · rw [hb0]
        rfl
      · rw [if_neg hb0] at hz
        exact absurd rfl hz
  nblocks := rfl
  held n v hv := by
    obtain ⟨rfl, rfl⟩ := booted_held hv
    exact ⟨_, booted_ramVinode, rfl, rfl, emptyVol_cached, dnode_fits D 0⟩
  clear n hv := by
    have hn : n ≠ 0 := by
      rintro rfl
      exact nomatch booted_heldRam.symm.trans hv
    change update (fun _ => none) 0 (some (dnode D 0)) n = none
    rw [update_of_ne hn]

lemma booted_named :
    Named (booted s D io free).dentryHash (booted s D io free).num (booted s D io free).root (emptyVol D) where
  inj hk hk' := by
    rcases booted_table hk with ⟨rfl, hd⟩ | ⟨rfl, hd⟩ <;> rcases booted_table hk' with ⟨rfl, hd'⟩ | ⟨rfl, hd'⟩
    · rfl
    · omega
    · omega
    · rfl
  bottom := ⟨[47], booted_root⟩
  top hd := by
    rcases booted_table hd with ⟨-, rfl⟩ | ⟨hk, -⟩
    · rfl
    · cases hk
  host := booted_numRoot
  mount := ⟨s.next + 3, booted_ram, booted_numRam⟩
  child hd := by
    rcases booted_table hd with ⟨hk, -⟩ | ⟨hk, -⟩
    · cases hk
    · cases hk
      exact .inl ⟨rfl, rfl⟩
  unique := by
    rintro d d' n ⟨k, hk⟩ ⟨k', hk'⟩ hd hd' -
    rcases booted_table hk with ⟨-, rfl⟩ | ⟨-, rfl⟩
    · rw [booted_numRoot] at hd
      cases hd
    · rcases booted_table hk' with ⟨-, rfl⟩ | ⟨-, rfl⟩
      · rw [booted_numRoot] at hd'
        cases hd'
      · rfl

lemma booted_cache (hs : s.Blank) : Cache (booted s D io free) (emptyVol D) := by
  have hfiles : ∀ f, (booted s D io free).fileUse f = none := by
    intro f
    rw [Vfs.fileUse]
    change (s.file f).bind _ = none
    rw [hs.file f]
    rfl
  refine ⟨booted_named, ?_, ?_, ?_, ?_, ?_, ?_, ?_⟩
  · intro k d hk
    rcases booted_table hk with ⟨rfl, rfl⟩ | ⟨rfl, rfl⟩
    · exact ⟨_, _, _, booted_hostDentry, rfl, rfl, booted_hostVinode, .inl ⟨rfl, rfl, rfl⟩⟩
    · exact ⟨_, _, _, booted_ramDentry, rfl, rfl, booted_ramVinode, .inr ⟨rfl, booted_heldRam⟩⟩
  · intro k v hk
    obtain ⟨rfl, rfl⟩ := booted_hash hk
    exact ⟨0, rfl, _, booted_ramVinode, rfl, rfl⟩
  · intro k v i hk hi
    obtain ⟨rfl, rfl⟩ := booted_hash hk
    rw [booted_ramVinode, Option.some.injEq] at hi
    subst hi
    have huse : (booted s D io free).inodeUse (some (s.next + 1), ramdisk0) = some (s.next + 2) := by
      rw [Vfs.inodeUse, booted_ram, Option.bind_some, booted_ramDentry]
      rfl
    have hone : ∀ k, (booted s D io free).inodeUse k = some (s.next + 2) → k = (some (s.next + 1), ramdisk0) := by
      intro k hk'
      rw [Vfs.inodeUse] at hk'
      cases hx : (booted s D io free).dentryHash k with
      | none =>
        rw [hx] at hk'
        cases hk'
      | some x =>
        rcases booted_table hx with ⟨rfl, rfl⟩ | ⟨rfl, rfl⟩
        · rw [hx, Option.bind_some, booted_hostDentry, Option.bind_some, Option.some.injEq] at hk'
          omega
        · rfl
    have hnone : Tally (fun _ : Option ℕ × Name => (none : Option ℕ)) (s.next + 2) 0 := Tally.zero fun _ => by simp
    exact hnone.gain (by simp) huse fun k hk' => ⟨fun h => absurd (hone k h) hk', by simp⟩
  · intro d e he
    have hz : e.dRef = 0 := by
      change update (update s.dentry (s.next + 1) _) (s.next + 2 + 1) _ d = some e at he
      by_cases hd : d = s.next + 3
      · rw [hd, update_self, Option.some.injEq] at he
        rw [← he]
      · rw [update_of_ne hd] at he
        by_cases hd' : d = s.next + 1
        · rw [hd', update_self, Option.some.injEq] at he
          rw [← he]
        · rw [update_of_ne hd', hs.dentry] at he
          cases he
    rw [hz]
    refine Tally.zero fun f => ?_
    rw [hfiles f]
    simp
  · intro f F hF
    change s.file f = some F at hF
    rw [hs.file f] at hF
    cases hF
  · intro x hx
    change s.next + 2 + 2 ≤ x at hx
    refine ⟨?_, ?_, hs.file x⟩
    · change update (update s.dentry (s.next + 1) _) (s.next + 2 + 1) _ x = none
      rw [update_of_ne (by omega), update_of_ne (by omega), hs.dentry]
    · change update (update s.vinode s.next _) (s.next + 2) _ x = none
      rw [update_of_ne (by omega), update_of_ne (by omega), hs.vinode]
  · intro p
    refine ⟨⟨_, booted_root⟩, ?_⟩
    intro n hn
    change (booted s D io free).num (s.next + 1) = some n at hn
    rw [booted_numRoot] at hn
    cases hn

end Booted

lemma fsInit_eq (hs : s.Blank) (hrest : ∀ i, -2 ^ 31 ≤ rest i ∧ rest i < 2 ^ 31) :
    ∃ t D, fsInit rest s = .done () t ∧ Sound t (emptyVol D) ∧ Formatted rest D ∧ ∀ f, t.file f = none := by
  obtain ⟨D, io, hformat, hD⟩ := rfsFormatDev_eq (s := withHost s) hrest
  obtain ⟨io', free, hmount, hfree⟩ := mountRfs_eq (s := { withHost s with disk := D, iobuffer := io }) hD
    (by
      change update (fun _ => none) (none, [47]) (some (s.next + 1)) (some (s.next + 1), ramdisk0) = none
      rw [update_of_ne (by simp)])
    rfl
  refine ⟨booted s D io' free, D, ?_, ⟨booted_shows hfree, hD.ok, booted_cache hs⟩, hD, hs.file⟩
  rw [fsInit, modify_bind, bind_done (mountHostfs_eq rfl rfl)]
  change (rfsFormatDev rest >>= _) (withHost s) = _
  rw [bind_done hformat, hmount]
  rfl

end Pke.Files
