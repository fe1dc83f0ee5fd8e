import Pke.Files.Runs

/-! What holds of the disk in every run: each block has one owner, every name stands for an inode, and a block is lost
with every file that is made. -/

namespace Pke.Files

open Lib Flow Function

variable {s t : Vfs} {V W : Vol} {n m k : ℕ}

instance {i : Fin 10} {b : ℤ} : Decidable (V.Holds n i b) :=
  inferInstanceAs (Decidable ((n < ninodes ∧ (V.node n).type ≠ rFree) ∧ (i : ℤ) < (V.cur n).blocks ∧ (V.cur n).addrs i = b))

def here (nm : Name) : Name := [46, 47] ++ nm

def onRamdisk (nm : Name) : Name := [47] ++ ramdisk0 ++ [47] ++ nm

/-- Blocks have one owner each, and only those that nobody has are given out. -/
theorem blocks_are_owned (h : Reached FsOp.Allowed s) :
    (∀ {n m i j b}, s.vol.Holds n i b → s.vol.Holds m j b → n = m ∧ i = j) ∧
    (∀ {n i b}, s.vol.Holds n i b → 12 ≤ b ∧ b < 12 + s.nblocks ∧ s.freemap (b - 12).toNat ≠ 0) ∧
    ∀ {b t}, rfsAllocBlock s = .done b t → ∀ n i, ¬ s.vol.Holds n i b := by
  obtain ⟨V, hV⟩ := h.sound
  have hagree := hV.agree
  have hblocks := hV.ok.blocks
  have hmarked : ∀ {n i b}, V.Holds n i b → 12 ≤ b ∧ b < 112 ∧ s.freemap (b - 12).toNat ≠ 0 := by
    intro n i b hb
    obtain ⟨hge, hlt⟩ := hV.ok.range (hblocks.taken hb)
    refine ⟨hge, hlt, ((hV.shown.used (b - 12).toNat).mp ?_).2⟩
    have hb' : ((12 + (b - 12).toNat : ℕ) : ℤ) = b := by omega
    rw [hb']
    exact hblocks.taken hb
  refine ⟨?_, ?_, ?_⟩
  · intro n m i j b hn hm
    exact hblocks.own (hagree.holds.mp hn) (hagree.holds.mp hm)
  · intro n i b hb
    rw [hV.shown.nblocks]
    exact hmarked (hagree.holds.mp hb)
  · intro b t hb n i hn
    rcases rfsAllocBlock_eq hV.shown.nblocks with hleft | ⟨k, hk, hz, hdone⟩
    · rw [hleft] at hb
      cases hb
    · rw [hdone] at hb
      cases hb
      obtain ⟨-, -, hne⟩ := hmarked (hagree.holds.mp hn)
      refine hne ?_
      have hk' : (((12 + k : ℕ) : ℤ) - 12).toNat = k := by omega
      rw [hk', hz]

theorem blocks_are_owned_written : ∃ s b, Reached FsOp.Allowed s ∧ s.vol.Holds 1 0 b ∧ b < 12 + s.nblocks := by
  have hrun : FsOp.leadsTo (fun s op => op.allowed s) [.opens 0 (onRamdisk [97]) 66, .write 7 [5]]
      (fun s => decide (s.vol.Holds 1 0 14)) = true := by decide +kernel
  obtain ⟨s, hs, hholds⟩ := Reached.of_run (fun h => FsOp.allowed_of h) hrun
  rw [decide_eq_true_eq] at hholds
  exact ⟨s, 14, hs, hholds, ((blocks_are_owned hs).2.1 hholds).2.1⟩

def longName : Name := List.replicate 28 97

/-- The long name is the name of inode 1 and, read on into the entry of `p`, that of inode 1 with a 2 behind it. It then
becomes the name of inode 3 as well, which file 20 is open on, and the entry that follows is made to be of inode 2: so the
longer name removes the entry of inode 3, and the disk inode is freed. -/
def mixedUp : List FsOp :=
  [.ccwd 0 (47 :: ramdisk0), .opens 0 (here longName) 66, .close 7, .opens 0 (here [112]) 66, .close 11,
    .look 0 (here (longName ++ [2])), .opens 0 (here longName) 66, .write 17 [7], .close 17, .opens 0 (here longName) 2,
    .unlink 0 (here [112]), .opens 0 (here [113]) 66, .unlink 0 (here (longName ++ [2]))]

theorem block_owned_twice : ∃ s, Reached (fun _ _ => True) s ∧ s.vol.Holds 2 0 16 ∧ s.vol.Holds 3 0 16 := by
  have hrun : FsOp.leadsTo (fun _ _ => true) (mixedUp ++ [.write 26 [1], .opens 0 (here [114]) 66])
      (fun s => decide (s.vol.Holds 2 0 16 ∧ s.vol.Holds 3 0 16)) = true := by decide +kernel
  obtain ⟨s, hs, hholds⟩ := Reached.of_run (fun _ => trivial) hrun
  rw [decide_eq_true_eq] at hholds
  exact ⟨s, hs, hholds⟩

/-- Names stand for inodes, and the links of an inode are its names. -/
theorem links_are_names (h : Reached FsOp.Allowed s) :
    (∀ {d}, s.vol.IsDir d → (∀ e ∈ s.vol.dir d, ∃ k : ℕ, e.2 = k ∧ k ∈ s.vol.live) ∧ ((s.vol.dir d).map Prod.fst).Nodup) ∧
    (∀ {n}, n < ninodes → (s.vol.node n).type = fileI → (s.vol.node n).nlinks = s.vol.links n) ∧
    ∀ {n}, n < ninodes → n ≠ 0 → ((s.vol.node n).type = rFree ↔ s.vol.links n = 0) := by
  obtain ⟨V, hV⟩ := h.sound
  have htree := hV.agree.tree hV.ok.tree
  refine ⟨?_, ?_, ?_⟩
  · intro d hd
    refine ⟨?_, htree.names d hd⟩
    intro e he
    obtain ⟨-, k, hk, -, hlive⟩ := htree.entry d hd e he
    exact ⟨k, hk, hlive⟩
  · intro n hn hfile
    have hlive : n ∈ s.vol.live := ⟨hn, by rw [hfile]; decide⟩
    refine htree.links n hlive ?_
    rintro rfl
    exact absurd (hfile.symm.trans htree.root) (by decide)
  · intro n hn hn0
    constructor
    · intro hfree
      exact htree.links_eq_zero (.inl fun hlive => hlive.2 hfree)
    · intro hzero
      by_contra hne
      have hlinks := htree.links n ⟨hn, hne⟩ hn0
      have hpos := htree.linked n ⟨hn, hne⟩
      omega

theorem links_are_names_linked : ∃ s, Reached FsOp.Allowed s ∧ (s.vol.node 1).nlinks = 2 ∧ s.vol.links 1 = 2 := by
  have hrun : FsOp.leadsTo (fun s op => op.allowed s)
      [.opens 0 (onRamdisk [97]) 66, .close 7, .mkdir 0 (onRamdisk [100]), .link 0 (onRamdisk [97]) (onRamdisk [100, 47, 98])]
      (fun s => decide ((s.vol.node 1).type = fileI ∧ (s.vol.node 1).nlinks = 2)) = true := by decide +kernel
  obtain ⟨s, hs, htwo⟩ := Reached.of_run (fun h => FsOp.allowed_of h) hrun
  rw [decide_eq_true_eq] at htwo
  have hlinks := (links_are_names hs).2.1 (by norm_num) htwo.1
  exact ⟨s, hs, htwo.2, by omega⟩

def Vol.Creates (V W : Vol) : Prop := ∃ n < ninodes, (V.node n).type = rFree ∧ (W.node n).type = fileI

inductive Traced : Prop → Vfs → Prop
  | boot {s t : Vfs} {rest : Fin 10 → ℤ} (hs : s.Blank) (hrest : ∀ i, -2 ^ 31 ≤ rest i ∧ rest i < 2 ^ 31)
      (h : fsInit rest s = .done () t) : Traced False t
  | step {made : Prop} {s t : Vfs} {op : FsOp} (hs : Traced made s) (hop : op.Allowed s) (h : op.Ends s t) :
      Traced (made ∨ s.vol.Creates t.vol) t

def Vol.NoneLost (V : Vol) : Prop := ∀ b ∈ V.used, ∃ n i, V.Holds n i b

def Vol.Accounted (V : Vol) (made : Prop) : Prop :=
  (made → ∃ b, V.Lost b) ∧ (¬ made → (∀ n ∈ V.live, (V.node n).type = dirI) ∧ V.NoneLost)

namespace Vol

lemma not_creates (h : ∀ n, (W.node n).type ≠ (V.node n).type → (W.node n).type = dirI) : ¬ V.Creates W := by
  rintro ⟨n, -, hfree, hfile⟩
  have hne : (W.node n).type ≠ (V.node n).type := by
    rw [hfree, hfile]
    decide
  exact absurd (hfile.symm.trans (h n hne)) (by decide)

lemma lost_of_file {new : Dinode} {b : ℤ} (h : V.Ok) (hb : b ∉ V.used) (hused : W.used = insert b V.used)
    (hfile : new.blocks = 0) (hcur : W.cur k = new) (htype : ∀ n ≠ k, (W.node n).type = (V.node n).type)
    (hheld : ∀ n ≠ k, (W.cur n).blocks = (V.cur n).blocks ∧ (W.cur n).addrs = (V.cur n).addrs) : W.Lost b := by
  refine ⟨hused ▸ Set.mem_insert _ _, ?_⟩
  rintro n i ⟨⟨hn, hne⟩, hi, haddr⟩
  by_cases hnk : n = k
  · rw [hnk, hcur, hfile] at hi
    omega
  · rw [htype n hnk] at hne
    rw [(hheld n hnk).1] at hi
    rw [(hheld n hnk).2] at haddr
    exact hb (h.blocks.taken ⟨⟨hn, hne⟩, hi, haddr⟩)

lemma noneLost_of_dir {new : Dinode} {b : ℤ} (h : V.NoneLost) (hlt : k < ninodes) (hdead : k ∉ V.live)
    (hused : W.used = insert b V.used) (htype' : (W.node k).type ≠ rFree) (hone : new.blocks = 1)
    (hblock : new.addrs 0 = b) (hcur : W.cur k = new) (htype : ∀ n ≠ k, (W.node n).type = (V.node n).type)
    (hheld : ∀ n ≠ k, (W.cur n).blocks = (V.cur n).blocks ∧ (W.cur n).addrs = (V.cur n).addrs) : W.NoneLost := by
  intro b' hb'
  rw [hused] at hb'
  rcases hb' with rfl | hb'
  · refine ⟨k, 0, ⟨hlt, htype'⟩, ?_, ?_⟩
    · rw [hcur, hone]
      decide
    · rw [hcur, hblock]
  · obtain ⟨n, i, ⟨hn, hne⟩, hi, haddr⟩ := h b' hb'
    have hnk : n ≠ k := by
      rintro rfl
      exact hdead ⟨hn, hne⟩
    refine ⟨n, i, ⟨hn, ?_⟩, ?_, ?_⟩
    · rwa [htype n hnk]
    · rwa [(hheld n hnk).1]
    · rwa [(hheld n hnk).2]

lemma Accounted.change {made : Prop} {own : Set ℕ} (h : V.Accounted made) (hV : V.Ok) (hch : V.Change W)
    (hkeep : V.Keeps own W) : W.Accounted (made ∨ V.Creates W) := by
  have hlost : made → ∃ b, W.Lost b := fun hm => (h.1 hm).imp fun _ => hkeep.lost
  cases hch with
  | caches node cur used =>
    have hno : ¬ V.Creates W := not_creates fun n hne => absurd (by rw [node]) hne
    have hlive : W.live = V.live := by rw [live, live, node]
    refine ⟨fun hm => hlost (hm.resolve_right hno), fun hm => ?_⟩
    obtain ⟨hdirs, hnone⟩ := h.2 fun hmade => hm (.inl hmade)
    rw [hlive, node]
    refine ⟨hdirs, fun b hb => ?_⟩
    rw [used] at hb
    obtain ⟨n, i, hn⟩ := hnone b hb
    exact ⟨n, i, (holds_iff hlive cur).mpr hn⟩
  | file n live type =>
    -- a file that is worked on has been made
    have hmade : made := by
      by_contra hm
      exact absurd (type.symm.trans ((h.2 hm).1 n live)) (by decide)
    exact ⟨fun _ => hlost hmade, fun hm => absurd (.inl hmade) hm⟩
  | makes k new b dead lt fresh unused used node cur type held =>
    rcases fresh.kind with ⟨hfile, hblocks⟩ | ⟨hdir, hblocks⟩
    · have hfree : (V.node k).type = rFree := by
        by_contra hne
        exact dead ⟨lt, hne⟩
      have hcr : V.Creates W := ⟨k, lt, hfree, by rw [node, hfile]⟩
      exact ⟨fun _ => ⟨b, lost_of_file hV unused used hblocks cur type held⟩, fun hm => absurd (.inr hcr) hm⟩
    · have hkdir : (W.node k).type = dirI := by rw [node, hdir]
      have hno : ¬ V.Creates W := by
        refine not_creates fun n hne => ?_
        by_cases hnk : n = k
        · rw [hnk, hkdir]
        · exact absurd (type n hnk) hne
      refine ⟨fun hm => hlost (hm.resolve_right hno), fun hm => ?_⟩
      obtain ⟨hdirs, hnone⟩ := h.2 fun hmade => hm (.inl hmade)
      refine ⟨?_, noneLost_of_dir hnone lt dead used (by rw [hkdir]; decide) hblocks fresh.block cur type held⟩
      intro n hn
      by_cases hnk : n = k
      · rw [hnk, hkdir]
      · rw [type n hnk]
        exact hdirs n ⟨hn.1, by rw [← type n hnk]; exact hn.2⟩

lemma Agree.creates {V' W' : Vol} (hV : V.Agree V') (hW : W.Agree W') : V'.Creates W' ↔ V.Creates W := by
  refine exists_congr fun n => and_congr_right fun hn => ?_
  rw [hV.node n hn, hW.node n hn]

end Vol

lemma Formatted.accounted {D : ℕ → ℕ → UInt8} {rest : Fin 10 → ℤ} (hD : Formatted rest D) :
    (emptyVol D).Accounted False := by
  refine ⟨nofun, fun _ => ⟨?_, ?_⟩⟩
  · intro n hn
    rw [hD.live hn, hD.node]
    rfl
  · rintro b rfl
    refine ⟨0, 0, hD.tree.zero_live, ?_, ?_⟩
    · rw [hD.cur]
      exact Int.one_pos
    · rw [hD.cur]
      change update rest 0 rfsBlkOffsetFree 0 = 12
      rw [update_self]

lemma Traced.accounted {made : Prop} (h : Traced made s) : ∃ V, Sound s V ∧ V.Accounted made := by
  induction h with
  | boot hs hrest h =>
    obtain ⟨D, hsound, hD, -⟩ := Reached.booted hs hrest h
    exact ⟨_, hsound, hD.accounted⟩
  | step hs hop h ih =>
    obtain ⟨V, hV, hacc⟩ := ih
    obtain ⟨W, hW⟩ := hV.step hop h
    refine ⟨W, hW.sound, ?_⟩
    rw [hV.agree.creates hW.sound.agree]
    exact hacc.change hV.ok hW.change hW.vol

theorem none_lost_iff {made : Prop} (h : Traced made s) : s.vol.NoneLost ↔ ¬ made := by
  obtain ⟨V, hV, hacc⟩ := h.accounted
  have hagree := hV.agree
  constructor
  · intro hnone hm
    obtain ⟨b, hb, hno⟩ := hacc.1 hm
    rw [← hagree.used] at hb
    obtain ⟨n, i, hn⟩ := hnone b hb
    exact hno n i (hagree.holds.mp hn)
  · intro hm b hb
    rw [hagree.used] at hb
    obtain ⟨n, i, hn⟩ := (hacc.2 hm).2 b hb
    exact ⟨n, i, hagree.holds.mpr hn⟩

lemma Reached.traced (h : Reached FsOp.Allowed s) : ∃ made, Traced made s := by
  induction h with
  | boot hs hrest h => exact ⟨False, .boot hs hrest h⟩
  | step _ hop h ih =>
    obtain ⟨made, hmade⟩ := ih
    exact ⟨_, hmade.step hop h⟩

theorem none_lost_iff_directory : ∃ s made, Traced made s ∧ s.vol.Holds 1 0 13 ∧ ¬ made := by
  have hrun : FsOp.leadsTo (fun s op => op.allowed s) [.mkdir 0 (onRamdisk [100])]
      (fun s => decide (s.vol.Holds 0 0 12 ∧ s.vol.Holds 1 0 13 ∧ ∀ k : ℕ, k < 100 → k < 2 ∨ s.freemap k = 0)) = true := by
    decide +kernel
  obtain ⟨s, hs, hholds⟩ := Reached.of_run (fun h => FsOp.allowed_of h) hrun
  rw [decide_eq_true_eq] at hholds
  obtain ⟨hroot, hdir, hrest⟩ := hholds
  obtain ⟨made, hmade⟩ := hs.traced
  refine ⟨s, made, hmade, hdir, (none_lost_iff hmade).mp ?_⟩
  rintro b ⟨k, hk, rfl, hf⟩
  have hk1 : k ≤ 1 := by
    by_contra hlt
    exact hf ((hrest k hk).resolve_left (by omega))
  interval_cases k
  · exact ⟨0, 0, hroot⟩
  · exact ⟨1, 0, hdir⟩

def firstFile : FsOp := .opens 0 (onRamdisk [97]) 66

theorem created_file_loses_block : ∃ s t b, Reached FsOp.Allowed s ∧ firstFile.Ends s t ∧ t.vol.Lost b := by
  have hrun : (fsInit (fun _ => 0) blank).ends (fun _ s => firstFile.allowed s && (firstFile.perform s).ends fun _ t =>
      decide ((s.vol.node 1).type = rFree ∧ (t.vol.node 1).type = fileI)) = true := by decide +kernel
  obtain ⟨_, s, hs, hstep⟩ := Outcome.ends_done hrun
  rw [Bool.and_eq_true] at hstep
  obtain ⟨_, t, ht, htypes⟩ := Outcome.ends_done hstep.2
  rw [decide_eq_true_eq] at htypes
  have hop : firstFile.Allowed s := FsOp.allowed_of hstep.1
  have hbits : ∀ _ : Fin 10, (-2 ^ 31 : ℤ) ≤ 0 ∧ (0 : ℤ) < 2 ^ 31 := fun _ => by norm_num
  obtain ⟨V, hV, hacc⟩ := ((Traced.boot blank_blank hbits hs).step hop (.inl ht)).accounted
  obtain ⟨b, hb, hno⟩ := hacc.1 (.inr ⟨1, by norm_num, htypes⟩)
  refine ⟨s, t, b, .boot blank_blank hbits hs, .inl ht, ?_, ?_⟩
  · rwa [hV.agree.used]
  · exact fun n i hn => hno n i (hV.agree.holds.mp hn)

end Pke.Files
