import Pke.Files.TreeLaws

/-! What holds of the caches and of the open files in every run: the counters count, offsets stay in their files, and
the inode of a file that nobody has open is on the disk. -/

namespace Pke.Files

open Lib Flow Function

variable {s t : Vfs} {V W : Vol} {own : Scope} {op : FsOp} {f d n : ℕ} {F : File}

/-- The counters of the caches are the numbers of what they count, and no assertion fails. -/
theorem counters_are_counts (h : Reached FsOp.Allowed s) :
    (∀ {d e}, s.dentry d = some e → Tally s.fileUse d e.dRef) ∧
    (∀ {k v i}, s.vinodeHash k = some v → s.vinode v = some i →
      Tally s.inodeUse v i.ref ∧ k = (i.sb, i.inum) ∧ i.nlinks = (dnode s.disk i.inum.toNat).nlinks) ∧
    (∀ {f F}, s.file f = some F → F.opened = true → Listed s.dentryHash F.dentry ∧
      ∃ e v i, s.dentry F.dentry = some e ∧ e.inode = some v ∧ s.vinode v = some i) ∧
    ∀ {op : FsOp}, op.Allowed s → op.perform s ≠ .halted := by
  obtain ⟨V, hV⟩ := h.sound
  refine ⟨fun he => hV.cache.opens _ _ he, ?_, ?_, ?_⟩
  · intro k v i hk hi
    obtain ⟨n, hkn, j, hj, hin, hsb⟩ := hV.cache.inodes k v hk
    rw [hi, Option.some.injEq] at hj
    subst hj
    refine ⟨hV.cache.refs k v i hk hi, by rw [hkn, hsb, hin], ?_⟩
    obtain ⟨j, hj, -, -, hc, -⟩ := hV.shown.held n v (by rw [Vfs.held, ← hkn]; exact hk)
    rw [hi, Option.some.injEq] at hj
    subst hj
    obtain ⟨hlive, ha⟩ := hV.ok.tree.cached n _ hc
    rw [hin, Int.toNat_natCast, hV.shown.node n hlive.1]
    exact ha.nlinks
  · intro f F hF ho
    obtain ⟨hl, -⟩ := hV.cache.opened f F hF ho
    obtain ⟨e, v, i, he, hev, hi, -⟩ := hV.listed hl
    exact ⟨hl, e, v, i, he, hev, hi⟩
  · intro op hop hhalt
    have hsafe := hV.step_safe hop
    rwa [safe, hhalt] at hsafe

theorem counters_are_counts_linked : ∃ s e, Reached FsOp.Allowed s ∧ s.dentry 5 = some e ∧ e.dRef = 2 ∧
    Tally s.fileUse 5 2 := by
  have hrun : FsOp.leadsTo (fun s op => op.allowed s) [.opens 0 (onRamdisk [97]) 66, .opens 0 (onRamdisk [97]) 0]
      (fun s => (s.dentry 5).any fun e => e.dRef == 2) = true := by decide +kernel
  obtain ⟨s, hs, htwo⟩ := Reached.of_run (fun h => FsOp.allowed_of h) hrun
  obtain ⟨e, he, htwo⟩ := (Option.any_eq_true _ _).mp htwo
  rw [beq_iff_eq] at htwo
  exact ⟨s, e, hs, he, htwo, htwo ▸ (counters_are_counts hs).1 he⟩

theorem directory_closed_twice : ∃ s e, Reached (fun _ _ => True) s ∧ s.dentry 3 = some e ∧ e.dRef = -1 := by
  have hrun : FsOp.leadsTo (fun _ _ => true) [.opendir 0 (47 :: ramdisk0), .closedir 4, .closedir 4]
      (fun s => (s.dentry 3).any fun e => e.dRef == -1) = true := by decide +kernel
  obtain ⟨s, hs, hone⟩ := Reached.of_run (fun _ => trivial) hrun
  obtain ⟨e, he, hone⟩ := (Option.any_eq_true _ _).mp hone
  exact ⟨s, e, hs, he, beq_iff_eq.mp hone⟩

def OffsetsIn (s : Vfs) (V : Vol) : Prop := ∀ {f F n c}, s.file f = some F → F.opened = true → s.num F.dentry = some n →
  V.cached n = some c → F.offset = 0 ∨ (V.node n).type = fileI ∧ F.offset ≤ c.size

namespace Follows

lemma stays_open (h : Follows own s V t W) (hF : s.file f = some F) (ho : F.opened = true) :
    (∃ F', t.file f = some F' ∧ F'.opened = true ∧ F'.dentry = F.dentry) ∨
      f ∈ own.closes ∧ t.file = update s.file f (some { F with opened := false }) := by
  have hother : ∀ {g o}, t.file = update s.file g o → f ≠ g →
      ∃ F', t.file f = some F' ∧ F'.opened = true ∧ F'.dentry = F.dentry := by
    intro g o hfile hfg
    exact ⟨F, by rw [hfile, update_of_ne hfg, hF], ho, rfl⟩
  cases h.files with
  | same hfile => exact .inl ⟨F, hfile ▸ hF, ho, rfl⟩
  | opens g d r w hnew hfile =>
    refine .inl (hother hfile ?_)
    rintro rfl
    rw [hnew] at hF
    cases hF
  | moves g G o hG hfile _ =>
    by_cases hfg : f = g
    · subst hfg
      rw [hF, Option.some.injEq] at hG
      subst hG
      exact .inl ⟨{ F with offset := o }, by rw [hfile, update_self], ho, rfl⟩
    · exact .inl (hother hfile hfg)
  | closes g G hown hG hfile =>
    by_cases hfg : f = g
    · subst hfg
      rw [hF, Option.some.injEq] at hG
      subst hG
      exact .inr ⟨hown, hfile⟩
    · exact .inl (hother hfile hfg)

variable (hs : Sound s V) (h : Follows own s V t W)
include hs h

lemma num_open (hF : s.file f = some F) (ho : F.opened = true) {F' : File} (hF' : t.file f = some F')
    (ho' : F'.opened = true) (hd : F'.dentry = F.dentry) : t.num F.dentry = s.num F.dentry := by
  refine h.num F.dentry (hs.cache.opened f F hF ho).1 ?_
  rw [← hd]
  exact (h.sound.cache.opened f F' hF' ho').1

lemma offset_same (hin : OffsetsIn s V) (hF : s.file f = some F) (ho : F.opened = true) (hF' : t.file f = some F)
    (hn : t.num F.dentry = some n) {c : Dinode} (hc : W.cached n = some c) :
    F.offset = 0 ∨ (W.node n).type = fileI ∧ F.offset ≤ c.size := by
  rw [h.num_open hs hF ho hF' ho rfl] at hn
  obtain ⟨hl, -⟩ := hs.cache.opened f F hF ho
  obtain ⟨-, v, -, -, -, -, -, -, hheld, -⟩ := hs.cache.ram hl hn
  obtain ⟨i, -, -, -, hcV, -⟩ := hs.shown.held n v hheld
  obtain ⟨hliveV, -⟩ := hs.ok.tree.cached n _ hcV
  obtain ⟨hliveW, -⟩ := h.sound.ok.tree.cached n _ hc
  refine (hin hF ho hn hcV).imp id ?_
  rintro ⟨htype, hle⟩
  exact ⟨(h.vol.types hliveV hliveW).trans htype, hle.trans (h.vol.sizes htype hcV hc)⟩

lemma offsetsIn (hin : OffsetsIn s V) : OffsetsIn t W := by
  intro f F n c hF ho hn hc
  cases h.files with
  | same hfile =>
    rw [hfile] at hF
    exact h.offset_same hs hin hF ho (hfile ▸ hF) hn hc
  | opens g d r w hnew hfile =>
    by_cases hfg : f = g
    · rw [hfile, hfg, update_self, Option.some.injEq] at hF
      rw [← hF]
      exact .inl rfl
    · have hold : t.file f = s.file f := by rw [hfile, update_of_ne hfg]
      exact h.offset_same hs hin (hold ▸ hF) ho hF hn hc
  | moves g G o hG hfile hmoved =>
    by_cases hfg : f = g
    · rw [hfile, hfg, update_self, Option.some.injEq] at hF
      subst hF
      exact .inr (hmoved n c hn hc)
    · have hold : t.file f = s.file f := by rw [hfile, update_of_ne hfg]
      exact h.offset_same hs hin (hold ▸ hF) ho hF hn hc
  | closes g G hown hG hfile =>
    by_cases hfg : f = g
    · rw [hfile, hfg, update_self, Option.some.injEq] at hF
      rw [← hF] at ho
      cases ho
    · have hold : t.file f = s.file f := by rw [hfile, update_of_ne hfg]
      exact h.offset_same hs hin (hold ▸ hF) ho hF hn hc

end Follows

/-- The offset of an open file on the RAM disk is in the file. -/
theorem offset_in_file (h : Reached FsOp.Allowed s) (hF : s.file f = some F) (ho : F.opened = true) :
    ∃ e v i, s.dentry F.dentry = some e ∧ e.inode = some v ∧ s.vinode v = some i ∧
      (i.sb = .rfs → 0 ≤ F.offset ∧ F.offset ≤ i.size) := by
  obtain ⟨V, hV, hin⟩ := h.invariant (I := OffsetsIn) id
    (fun _ _ hno _ _ _ _ hF => nomatch (hno _).symm.trans hF) (fun hs hin _ hW _ => hW.offsetsIn hs hin)
  obtain ⟨hl, hoff, -⟩ := hV.cache.opened f F hF ho
  obtain ⟨e, v, i, he, hev, hi, hcase⟩ := hV.listed hl
  refine ⟨e, v, i, he, hev, hi, fun hsb => ⟨hoff, ?_⟩⟩
  rcases hcase with ⟨-, hhost, -⟩ | ⟨-, -, n, hn, -, -, -, -, hc⟩
  · exact absurd (hsb.symm.trans hhost) (by decide)
  · rcases hin hF ho hn hc with hz | ⟨-, hle⟩
    · rw [hz]
      exact (hV.ok.tree.cached n _ hc).2.size.1
    · exact hle

theorem offset_in_file_written : ∃ s F i, Reached FsOp.Allowed s ∧ s.file 7 = some F ∧ s.vinode 6 = some i ∧
    F.offset = 2 ∧ F.offset ≤ i.size := by
  have hrun : FsOp.leadsTo (fun s op => op.allowed s) [.opens 0 (onRamdisk [97]) 66, .write 7 [5, 6, 7], .lseek 7 2 0]
      (fun s => (s.file 7).any fun F => F.opened && decide (F.offset = 2) &&
        ((s.dentry F.dentry).bind Dentry.inode).any fun v => decide (v = 6) && (s.vinode v).any fun i =>
          decide (i.sb = .rfs)) = true := by decide +kernel
  obtain ⟨s, hs, hfile⟩ := Reached.of_run (fun h => FsOp.allowed_of h) hrun
  obtain ⟨F, hF, hfile⟩ := (Option.any_eq_true _ _).mp hfile
  rw [Bool.and_eq_true, Bool.and_eq_true, decide_eq_true_eq] at hfile
  obtain ⟨⟨ho, htwo⟩, hinode⟩ := hfile
  obtain ⟨v, hv, hinode⟩ := (Option.any_eq_true _ _).mp hinode
  rw [Bool.and_eq_true, decide_eq_true_eq] at hinode
  obtain ⟨rfl, hinode⟩ := hinode
  obtain ⟨i, hi, hsb⟩ := (Option.any_eq_true _ _).mp hinode
  obtain ⟨e, v, i', he, hev, hi', hin⟩ := offset_in_file hs hF ho
  rw [he, Option.bind_some, hev, Option.some.injEq] at hv
  subst hv
  rw [hi, Option.some.injEq] at hi'
  subst hi'
  exact ⟨s, F, i, hs, hF, hi, htwo, (hin (of_decide_eq_true hsb)).2⟩

def forged : List UInt8 :=
  [0xE1, 1, 0, 0, 122, 0] ++ List.replicate 122 0 ++ [255, 255, 255, 255, 0, 0, 0, 0, 1, 0, 0, 0, 0, 0, 0, 0]

theorem offset_beyond_file : ∃ s F e v i, Reached (fun _ _ => True) s ∧ s.file 36 = some F ∧ F.opened = true ∧
    s.dentry F.dentry = some e ∧ e.inode = some v ∧ s.vinode v = some i ∧ i.sb = .rfs ∧ i.size < F.offset := by
  have hrun : FsOp.leadsTo (fun _ _ => true) (mixedUp ++ [.mkdir 0 (here [100]), .opens 0 (here [100, 47, 121]) 66,
      .write 20 forged, .opens 0 (here [100, 47, 122]) 0]) (fun s => (s.file 36).any fun F => F.opened &&
        (s.dentry F.dentry).any fun e => e.inode.any fun v => (s.vinode v).any fun i =>
          decide (i.sb = .rfs ∧ i.size < F.offset)) = true := by decide +kernel
  obtain ⟨s, hs, hfile⟩ := Reached.of_run (fun _ => trivial) hrun
  obtain ⟨F, hF, hfile⟩ := (Option.any_eq_true _ _).mp hfile
  rw [Bool.and_eq_true] at hfile
  obtain ⟨e, he, hinode⟩ := (Option.any_eq_true _ _).mp hfile.2
  obtain ⟨v, hv, hinode⟩ := (Option.any_eq_true _ _).mp hinode
  obtain ⟨i, hi, hinode⟩ := (Option.any_eq_true _ _).mp hinode
  rw [decide_eq_true_eq] at hinode
  exact ⟨s, F, e, v, i, hs, hF, hfile.1, he, hv, hi, hinode⟩

def Vfs.Idle (s : Vfs) (n : ℕ) : Prop := ∀ {f F}, s.file f = some F → F.opened = true → s.num F.dentry ≠ some n

def FsOp.Flushes (s : Vfs) : FsOp → Prop
  | close f => ∀ {F e v i}, s.file f = some F → s.dentry F.dentry = some e → e.inode = some v → s.vinode v = some i →
      (∀ {g G}, g ≠ f → s.file g = some G → G.opened = true → s.num G.dentry ≠ s.num F.dentry) →
        i.ref = 1 ∨ i.toDinode = dnode s.disk i.inum.toNat
  | _ => True

def Synced (s : Vfs) (V : Vol) : Prop := ∀ {n}, n ∈ V.live → s.Idle n → V.cur n = V.node n

lemma Sound.cur_eq (h : Sound s V) (h' : Sound s W) (hn : n < ninodes) : W.cur n = V.cur n ∧ W.node n = V.node n :=
  ⟨(h'.agree.cur hn).symm.trans (h.agree.cur hn), (h'.agree.node n hn).symm.trans (h.agree.node n hn)⟩

lemma Sound.close_last (h : Sound s V) (hop : FsOp.Allowed s (.close f)) (hflush : FsOp.Flushes s (.close f))
    (hends : FsOp.Ends (.close f) s t) (hW : Follows ⟨∅, {f}⟩ s V t W) (hF : s.file f = some F) (hlive : n ∈ W.live)
    (hn : s.num F.dentry = some n) (hclosed : t.file = update s.file f (some { F with opened := false }))
    (hidle : t.Idle n) : W.cur n = W.node n := by
  obtain ⟨F', hF', ho⟩ := hop
  rw [hF, Option.some.injEq] at hF'
  subst hF'
  have hothers : ∀ {g G}, g ≠ f → s.file g = some G → G.opened = true → s.num G.dentry ≠ some n := by
    intro g G hg hG hoG hnG
    have hG' : t.file g = some G := by rw [hclosed, update_of_ne hg, hG]
    refine hidle hG' hoG ?_
    rw [hW.num_open h hG hoG hG' hoG rfl, hnG]
  obtain ⟨hl, -⟩ := h.cache.opened f F hF ho
  obtain ⟨e, v, i, he, hev, hi, hin, -, hheld, -⟩ := h.cache.ram hl hn
  rcases hflush hF he hev hi (fun hg hG hoG => hn ▸ hothers hg hG hoG) with href | hdisk
  · have hone : e.dRef = 1 := by
      refine (h.cache.opens _ e he).eq_one (Cache.fileUse_eq hF ho) ?_
      intro g hg
      obtain ⟨G, hG, hoG, hd⟩ := Cache.fileUse_inv hg
      by_contra hgf
      exact hothers hgf hG hoG (hd ▸ hn)
    have hsafe : safe True (silent (vfsClose f)) (fun _ => Sound.Closed ⟨∅, {f}⟩ s V F.dentry) (fun _ => False) s :=
      silent_safe (h.vfsClose_safe rfl hF ho)
    rw [safe] at hsafe
    have hpost : Sound.Closed ⟨∅, {f}⟩ s V F.dentry t := by
      rcases hends with hdone | hleft
      · rwa [show silent (vfsClose f) s = _ from hdone] at hsafe
      · rw [show silent (vfsClose f) s = _ from hleft] at hsafe
        exact hsafe.elim
    obtain ⟨X, hX, hsame | hsync⟩ := hpost
    · have hFt : t.file f = some F := by rw [hsame, hF]
      rw [hclosed, update_self, Option.some.injEq] at hFt
      rw [← hFt] at ho
      cases ho
    · obtain ⟨hcur, hnode⟩ := hX.sound.cur_eq hW.sound hlive.1
      rw [hcur, hnode]
      exact hsync he hev hi hn hone href
  · refine hW.vol.synced hlive (Set.notMem_empty n) fun hliveV => ?_
    obtain ⟨j, hj, -, -, hc, -⟩ := h.shown.held n v hheld
    rw [hi, Option.some.injEq] at hj
    subst hj
    rw [Vol.cur_cached hc, hdisk, hin, Int.toNat_natCast, h.shown.node n hliveV.1]

lemma Sound.closedir_last (h : Sound s V) (ho : F.opened = true) (hends : FsOp.Ends (.closedir f) s t) (hs : Sound t W)
    (hF : s.file f = some F) (hlive : n ∈ W.live) (hn : s.num F.dentry = some n)
    (hclosed : t.file = update s.file f (some { F with opened := false })) : W.cur n = W.node n := by
  have hsafe : safe True (silent (vfsClosedir f)) (fun _ t => ∃ X, Follows ⟨∅, {f}⟩ s V t X ∧
      (t.file = s.file ∨ ∀ {n}, s.num F.dentry = some n → X.cur n = X.node n)) (fun _ => False) s :=
    silent_safe (h.vfsClosedir_safe rfl hF ho)
  rw [safe] at hsafe
  have hpost : ∃ X, Follows ⟨∅, {f}⟩ s V t X ∧
      (t.file = s.file ∨ ∀ {n}, s.num F.dentry = some n → X.cur n = X.node n) := by
    rcases hends with hdone | hleft
    · rwa [show silent (vfsClosedir f) s = _ from hdone] at hsafe
    · rw [show silent (vfsClosedir f) s = _ from hleft] at hsafe
      exact hsafe.elim
  obtain ⟨X, hX, hsame | hsync⟩ := hpost
  · have hFt : t.file f = some F := by rw [hsame, hF]
    rw [hclosed, update_self, Option.some.injEq] at hFt
    rw [← hFt] at ho
    cases ho
  · obtain ⟨hcur, hnode⟩ := hX.sound.cur_eq hs hlive.1
    rw [hcur, hnode]
    exact hsync hn

lemma FsOp.scope_open (hop : op.Allowed s) (hn : n ∈ (op.scope s).writes) :
    ∃ f F, s.file f = some F ∧ F.opened = true ∧ s.num F.dentry = some n := by
  cases op with
  | write f data =>
    obtain ⟨F, hF, ho, -⟩ := hop
    obtain ⟨F', hF', hn⟩ := hn
    rw [hF, Option.some.injEq] at hF'
    exact ⟨f, F, hF, ho, hF' ▸ hn⟩
  | _ => exact hn.elim

lemma Sound.synced_step (h : Sound s V) (hsync : Synced s V) (hop : op.Allowed s) (hflush : op.Flushes s)
    (hends : op.Ends s t) (hW : Follows (op.scope s) s V t W) : Synced t W := by
  intro n hlive hidle
  by_cases hidle' : s.Idle n
  · refine hW.vol.synced hlive ?_ fun hl => hsync hl hidle'
    intro hown
    obtain ⟨f, F, hF, ho, hn⟩ := FsOp.scope_open hop hown
    exact hidle' hF ho hn
  · -- some file was open on the inode, so it was this one that was closed
    rw [Vfs.Idle] at hidle'
    push Not at hidle'
    obtain ⟨f, F, hF, ho, hn⟩ := hidle'
    rcases hW.stays_open hF ho with ⟨F', hF', ho', hd⟩ | ⟨hown, hfile⟩
    · refine absurd ?_ (hidle hF' ho')
      rw [hd, hW.num_open h hF ho hF' ho' hd, hn]
    · cases op with
      | close g =>
        rw [Set.mem_singleton_iff.mp hown] at hF hfile
        exact h.close_last hop hflush hends hW hF hlive hn hfile hidle
      | closedir g =>
        rw [Set.mem_singleton_iff.mp hown] at hF hfile
        exact h.closedir_last ho hends hW.sound hF hlive hn hfile
      | _ => exact hown.elim

inductive Tracked (C : Vfs → FsOp → Prop) : Vfs → (ℕ → Dinode) → Prop
  | boot {s t : Vfs} {rest : Fin 10 → ℤ} (hs : s.Blank) (hrest : ∀ i, -2 ^ 31 ≤ rest i ∧ rest i < 2 ^ 31)
      (h : fsInit rest s = .done () t) : Tracked C t t.vol.cur
  | step {s t : Vfs} {op : FsOp} {last : ℕ → Dinode} (hs : Tracked C s last) (hop : C s op) (h : op.Ends s t) :
      Tracked C t fun n => (t.vol.cached n).getD (last n)

namespace Tracked

variable {C : Vfs → FsOp → Prop} {last : ℕ → Dinode}

lemma reached (h : Tracked C s last) : Reached C s := by
  induction h with
  | boot hs hrest h => exact .boot hs hrest h
  | step _ hop h ih => exact ih.step hop h

lemma last_eq (hC : ∀ {s op}, C s op → op.Allowed s) (h : Tracked C s last) :
    ∃ V, Sound s V ∧ ∀ n ∈ V.live, last n = V.cur n := by
  induction h with
  | boot hs hrest h =>
    obtain ⟨D, hsound, -⟩ := Reached.booted hs hrest h
    exact ⟨_, hsound, fun n hn => hsound.agree.cur hn.1⟩
  | step hs hop h ih =>
    obtain ⟨V, hV, hlast⟩ := ih
    obtain ⟨W, hW⟩ := hV.step (hC hop) h
    refine ⟨W, hW.sound, ?_⟩
    intro n hn
    dsimp only
    rw [hW.sound.agree.cached]
    cases hc : W.cached n with
    | some c => exact (Vol.cur_cached hc).symm
    | none =>
      obtain ⟨hlive, hnode⟩ := hW.vol.kept hn hc
      rw [Option.getD_none, hlast n hlive, Vol.cur_uncached hc, hnode]

lemma last_cur (hC : ∀ {s op}, C s op → op.Allowed s) (h : Tracked C s last) (hn : n ∈ s.vol.live) :
    last n = s.vol.cur n := by
  obtain ⟨V, hV, hlast⟩ := h.last_eq hC
  rw [hV.agree.live] at hn
  rw [hlast n hn, hV.agree.cur hn.1]

end Tracked

lemma Reached.tracked {C : Vfs → FsOp → Prop} (h : Reached C s) : ∃ last, Tracked C s last := by
  induction h with
  | boot hs hrest h => exact ⟨_, .boot hs hrest h⟩
  | step _ hop h ih =>
    obtain ⟨last, hlast⟩ := ih
    exact ⟨_, hlast.step hop h⟩

def FsOp.Careful (s : Vfs) (op : FsOp) : Prop := op.Allowed s ∧ op.Flushes s

/-- In runs that flush, an inode that nobody has open is on the disk as it last was in memory, and with its last name
all its blocks are freed. -/
theorem closed_inode_is_current {last : ℕ → Dinode} (h : Tracked FsOp.Careful s last) :
    (∀ {n}, n ∈ s.vol.live → s.Idle n → s.vol.node n = last n) ∧
    ∀ {p path t}, FsOp.Allowed s (.unlink p path) → FsOp.Ends (.unlink p path) s t →
      ∀ {n i b}, s.vol.Holds n i b → n ∉ t.vol.live → b ∉ t.vol.used := by
  obtain ⟨V, hV, hsync⟩ := h.reached.invariant (I := Synced) And.left
    (fun {_ _ _} _ hD _ n hn _ => by rw [hD.live hn, hD.cur, hD.node])
    (fun hs hsync hop hW hends => hs.synced_step hsync hop.1 hop.2 hends hW)
  have hagree := hV.agree
  constructor
  · intro n hn hidle
    rw [h.last_cur And.left hn]
    rw [hagree.live] at hn
    rw [hagree.node n hn.1, hagree.cur hn.1, hsync hn hidle]
  · intro p path t hop hends n i b hb hgone
    obtain ⟨W, hW⟩ := hV.step hop hends
    have hagree' := hW.sound.agree
    rw [hagree.holds] at hb
    rw [hagree'.live] at hgone
    rw [hagree'.used]
    refine hW.vol.freed hgone (hsync hb.1 ?_) hb
    -- a file that is open on the inode stays open, so the inode would still be there
    intro f F hF ho hn
    obtain ⟨F', hF', ho', hd⟩ := (hW.stays_open hF ho).resolve_right fun hcl => hcl.1
    obtain ⟨hl, -⟩ := hW.sound.cache.opened f F' hF' ho'
    refine hgone (hW.sound.num_live hl ?_)
    rw [hd, hW.num_open hV hF ho hF' ho' hd, hn]

def Vfs.allClosed (s : Vfs) : Bool := (List.range s.next).all fun f => !s.isOpen f

lemma Sound.idle_of (h : Sound s V) (hcl : s.allClosed = true) (n : ℕ) : s.Idle n := by
  intro f F hF ho
  have hf := List.all_eq_true.mp hcl f (List.mem_range.mpr (h.cache.file_lt hF))
  rw [Vfs.isOpen, hF, Option.any_some, ho] at hf
  cases hf

def FsOp.flushes (s : Vfs) : FsOp → Bool
  | close f => (s.file f).any fun F => ((s.dentry F.dentry).bind Dentry.inode).any fun v =>
      (s.vinode v).any fun i => i.ref == 1
  | _ => true

def FsOp.careful (s : Vfs) (op : FsOp) : Bool := op.allowed s && op.flushes s

lemma FsOp.careful_of (h : op.careful s = true) : op.Careful s := by
  rw [careful, Bool.and_eq_true] at h
  refine ⟨allowed_of h.1, ?_⟩
  cases op with
  | close f =>
    intro F e v i hF he hev hi _
    obtain ⟨F', hF', hone⟩ := (Option.any_eq_true _ _).mp h.2
    rw [hF, Option.some.injEq] at hF'
    subst hF'
    rw [he, Option.bind_some, hev, Option.any_some, hi, Option.any_some, beq_iff_eq] at hone
    exact .inl hone
  | _ => trivial

theorem closed_inode_is_current_written : ∃ s last, Tracked FsOp.Careful s last ∧ (s.vol.node 1).size = 2 ∧
    s.vol.node 1 = last 1 := by
  have hrun : FsOp.leadsTo (fun s op => op.careful s) [.opens 0 (onRamdisk [97]) 66, .write 7 [5, 6], .close 7]
      (fun s => s.allClosed && decide ((s.vol.node 1).type = fileI ∧ (s.vol.node 1).size = 2)) = true := by decide +kernel
  obtain ⟨s, hs, hend⟩ := Reached.of_run (fun h => FsOp.careful_of h) hrun
  rw [Bool.and_eq_true, decide_eq_true_eq] at hend
  obtain ⟨last, hlast⟩ := hs.tracked
  obtain ⟨V, hV, -⟩ := hlast.last_eq And.left
  have hlive : 1 ∈ s.vol.live := ⟨by norm_num, by rw [hend.2.1]; decide⟩
  exact ⟨s, last, hlast, hend.2.2, (closed_inode_is_current hlast).1 hlive (hV.idle_of hend.1 1)⟩

theorem closed_inode_is_stale : ∃ s last, Tracked FsOp.Allowed s last ∧ 1 ∈ s.vol.live ∧ s.Idle 1 ∧
    (s.vol.node 1).size = 0 ∧ (last 1).size = 1 := by
  have hrun : FsOp.leadsTo (fun s op => op.allowed s) [.opens 0 (onRamdisk [97]) 66, .close 7,
      .link 0 (onRamdisk [97]) (onRamdisk [98]), .opens 0 (onRamdisk [97]) 2, .write 12 [5], .close 12]
      (fun s => s.allClosed && decide ((s.vol.node 1).type = fileI ∧ (s.vol.node 1).size = 0 ∧ (s.vol.cur 1).size = 1)) =
        true := by decide +kernel
  obtain ⟨s, hs, hend⟩ := Reached.of_run (fun h => FsOp.allowed_of h) hrun
  rw [Bool.and_eq_true, decide_eq_true_eq] at hend
  obtain ⟨last, hlast⟩ := hs.tracked
  obtain ⟨V, hV, -⟩ := hlast.last_eq id
  have hlive : 1 ∈ s.vol.live := ⟨by norm_num, by rw [hend.2.1]; decide⟩
  refine ⟨s, last, hlast, hlive, hV.idle_of hend.1 1, hend.2.2.1, ?_⟩
  rw [hlast.last_cur id hlive]
  exact hend.2.2.2

end Pke.Files
