import Pke.Files.VfsSteps
import Pke.Files.RfsReads

namespace Pke.Files

open Lib Flow Function

lemma Vol.Tree.sync_isDir {V : Vol} {n m : ℕ} {o : Option Dinode} (h : V.Tree) (hn : n ∈ V.live) :
    (V.sync n o).IsDir m ↔ V.IsDir m := by
  rw [Vol.IsDir, Vol.IsDir, Vol.sync_node]
  by_cases hm : m = n
  · subst hm
    rw [update_self, (h.cur_ahead hn).type]
  · rw [update_of_ne hm]

lemma allocVfsFile_eq {s : Vfs} {d : ℕ} {e : Dentry} (he : s.dentry d = some e) (r w : Bool) :
    allocVfsFile d r w s = .done s.next { s with
      dentry := update s.dentry d (some { e with dRef := e.dRef + 1 })
      file := update s.file s.next (some ⟨true, r, w, 0, d⟩), next := s.next + 1 } := by
  rw [allocVfsFile, get_bind, modify_bind, bind_done (addDRef_eq (e := e) (by exact he))]
  rfl

lemma rfsLseek_bounds {i : Vinode} {offset whence old o : ℤ} (h : rfsLseek i offset whence old = some o) :
    0 ≤ o ∧ o ≤ i.size := by
  rw [rfsLseek] at h
  split_ifs at h with hset hout hcur hout <;> cases h <;> omega

lemma Found.listed {s : Vfs} {V : Vol} {adds : Bool} {r : Lookup} {d : ℕ} (h : Found s V adds r)
    (hd : r.dentry = some d) : Listed s.dentryHash d := by
  cases h with
  | hit d' hd' hl =>
    rw [hd, Option.some.injEq] at hd'
    exact hd' ▸ hl
  | miss q m tok hd' =>
    rw [hd] at hd'
    cases hd'

namespace Sound

variable {own : Scope} {s t : Vfs} {V W : Vol} {d f k m n p q v : ℕ} {nm path : Name} {e : Dentry} {i : Vinode} {F : File} {U : Prop}

lemma listed (h : Sound s V) (hd : Listed s.dentryHash d) : ∃ e v i, s.dentry d = some e ∧ e.inode = some v ∧
    s.vinode v = some i ∧ (d = s.root ∧ i.sb = .hostfs ∧ i.type = dirI ∨
      d ≠ s.root ∧ i.sb = .rfs ∧ ∃ n : ℕ, s.num d = some n ∧ s.held n = some v ∧ i.inum = n ∧ n ∈ V.live ∧
        i.type = (V.node n).type ∧ V.cached n = some i.toDinode) := by
  by_cases hroot : d = s.root
  · subst hroot
    obtain ⟨e, v, i, he, hev, hi, hsb, htype, -⟩ := h.cache.at_root
    exact ⟨e, v, i, he, hev, hi, .inl ⟨rfl, hsb, htype⟩⟩
  · obtain ⟨n, hn⟩ := h.cache.named.num_of_ne hd hroot
    obtain ⟨e, v, i, he, hev, hi, hin, hsb, hhash, -⟩ := h.cache.ram hd hn
    obtain ⟨i', hi', -, -, hc, -⟩ := h.shown.held n v hhash
    rw [hi, Option.some.injEq] at hi'
    subst hi'
    obtain ⟨hlive, ha⟩ := h.ok.tree.cached n _ hc
    exact ⟨e, v, i, he, hev, hi, .inr ⟨hroot, hsb, n, hn, hhash, hin, hlive, ha.type, hc⟩⟩

lemma marked_of_eq (h : t.vinode = s.vinode) : Cache.Marked s t := fun _ j hj => ⟨j, h ▸ hj, rfl⟩

lemma opened (h : Sound s V) (hd : Listed s.dentryHash d) (he : s.dentry d = some e) (hev : e.inode = some v)
    (hi : s.vinode v = some i) (hdir : i.DirCached) (r w : Bool) : SameNames own s V { s with
      dentry := update s.dentry d (some { e with dRef := e.dRef + 1 })
      file := update s.file s.next (some ⟨true, r, w, 0, d⟩), next := s.next + 1 } := by
  refine ⟨⟨h.shown.congr rfl rfl rfl fun _ _ _ i hi => ⟨i, hi, rfl, rfl, rfl⟩, h.ok, ?_⟩, rfl, ?_, ?_⟩
  · refine h.cache.openFile hd he le_rfl (Nat.lt_succ_self _) rfl rfl rfl rfl rfl rfl
      (fun x j hj => ⟨j, hj, rfl, rfl, id⟩) ?_ ?_
    · intro v' j hv' hj
      rw [hev, Option.some.injEq] at hv'
      subst hv'
      change s.vinode v = some j at hj
      rw [hi, Option.some.injEq] at hj
      exact hj ▸ hdir
    · intro x hx
      change s.next + 1 ≤ x at hx
      exact (h.cache.below x (by omega)).2.1
  · exact fun x hx => h.cache.num_core (fun y _ => Cache.core_update he _ y) (marked_of_eq rfl) hx
  · exact .opens s.next d r w (h.cache.below s.next le_rfl).2.2 rfl

lemma openDentry_safe (h : Sound s V) (hd : Listed s.dentryHash d) (flags : ℕ) :
    safe U (openDentry d flags) (fun _ => SameNames own s V) (SameNames own s V) s := by
  obtain ⟨e, v, i, he, hev, hi, hcase⟩ := h.listed hd
  have hsame : SameNames own s V s := ⟨h, rfl, fun _ _ => rfl, .same rfl⟩
  rw [openDentry]
  refine safe_bind_done (inodeOf_eq he hev) (safe_bind_done (getVinode_eq hi) ?_)
  by_cases htype : i.type ≠ fileI
  · rw [if_pos htype]
    exact hsame
  · rw [if_neg htype]
    by_cases hflags : flags % 4 = 3
    · rw [if_pos hflags]
      exact hsame
    · rw [if_neg hflags]
      rw [not_not] at htype
      have hsb : i.sb = .rfs := by
        rcases hcase with ⟨-, -, hdir⟩ | ⟨-, hsb, -⟩
        · exact absurd (htype.symm.trans hdir) (by decide)
        · exact hsb
      refine safe_bind_done (allocVfsFile_eq he _ _) ?_
      rw [hsb]
      refine h.opened hd he hev hi ?_ _ _
      intro _ hdir
      exact absurd (htype.symm.trans hdir) (by decide)

lemma vfsOpen_safe (h : Sound s V) {flags : ℕ} {rest : Name}
    (hon : s.OnRam V (decide (flags / 64 % 2 = 1)) (s.start p path) q rest) :
    safe (maxPathLen ≤ rest.length) (vfsOpen p path flags) (fun _ => Kept own s V) (Kept own s V) s := by
  obtain ⟨hstart, hbase⟩ := h.startOf_eq p path
  rw [vfsOpen]
  refine safe_bind_done hstart (safe_bind ?_)
  refine safe_mono (h.final hbase hon) ?_ (fun _ hf => hf.elim)
  rintro r t ⟨hne, W, hlook, hfound⟩
  cases hd : r.dentry with
  | some d =>
    exact safe_mono (hlook.sound.openDentry_safe (hfound.listed hd) flags) (fun _ _ hs => hs.kept.after hlook)
      (fun _ hs => hs.kept.after hlook)
  | none =>
    by_cases hcreat : flags / 64 % 2 = 1
    · rw [decide_eq_true hcreat] at hfound
      change safe _ (if flags / 64 % 2 = 1 then _ else _) _ _ t
      rw [if_pos hcreat]
      apply safe_bind
      refine safe_mono (hlook.sound.createFile_safe hfound hd (hne hd)) ?_ (fun _ hk => hk.after hlook)
      rintro o u ⟨hnone, hsome⟩
      cases o with
      | none => exact (hnone rfl).after hlook
      | some d =>
        obtain ⟨X, hfollows, hfile, hl⟩ := hsome d rfl
        have hopened : safe (maxPathLen ≤ rest.length) (openDentry d flags) (fun _ => SameNames own u X)
            (SameNames own u X) u :=
          hfollows.sound.openDentry_safe hl flags
        refine safe_mono hopened ?_ ?_
        · exact fun _ u' hs => Kept.after hlook ⟨X, hfollows.then hfile hs⟩
        · exact fun u' hs => Kept.after hlook ⟨X, hfollows.then hfile hs⟩
    · change safe _ (if flags / 64 % 2 = 1 then _ else _) _ _ t
      rw [if_neg hcreat]
      exact hlook.kept

lemma vfsMkdir_safe (h : Sound s V) {rest : Name} (hon : s.OnRam V true (s.start p path) q rest) :
    safe (maxPathLen ≤ rest.length) (vfsMkdir p path) (fun _ => Kept own s V) (Kept own s V) s := by
  obtain ⟨hstart, hbase⟩ := h.startOf_eq p path
  rw [vfsMkdir]
  refine safe_bind_done hstart (safe_bind ?_)
  refine safe_mono (h.final hbase hon) ?_ (fun _ hf => hf.elim)
  rintro r t ⟨hne, W, hlook, hfound⟩
  cases hd : r.dentry with
  | some d => exact hlook.kept
  | none =>
    exact safe_mono (hlook.sound.makeDir_safe hfound hd (hne hd)) (fun _ _ hk => hk.after hlook)
      (fun _ hk => hk.after hlook)

lemma rfsHookOpendir_eq (hi : s.vinode v = some i) (hone : i.blocks = 1) {blk : ℕ} (haddr : i.addrs 0 = blk)
    (hlt : blk < 128) : ∃ io b, (∀ x < 4096, b x = s.disk blk x) ∧ rfsHookOpendir v s = .done () { s with
      iobuffer := io, vinode := update s.vinode v (some { i with info := .dirCache 1 b }) } := by
  let io := overlay (s.disk blk) s.iobuffer
  have hread : readDirBlocks i.addrs (fun _ => 0) (List.range i.blocks.toNat).reverse s =
      .done (fun x => if 0 * rfsBlksize ≤ x ∧ x < (0 + 1) * rfsBlksize then io (x - 0 * rfsBlksize) else 0)
        { s with iobuffer := io } := by
    rw [hone]
    change readDirBlocks i.addrs (fun _ => 0) [0] s = _
    rw [readDirBlocks, bind_done (addrAt_eq (z := (0 : ℕ)) (j := 0) rfl), haddr, bind_done (rfsR1block_eq hlt)]
    rfl
  refine ⟨io, fun x => if 0 * rfsBlksize ≤ x ∧ x < (0 + 1) * rfsBlksize then io (x - 0 * rfsBlksize) else 0, fun x hx => ?_, ?_⟩
  · change (if 0 * 4096 ≤ x ∧ x < (0 + 1) * 4096 then io (x - 0 * 4096) else 0) = _
    rw [if_pos (by omega), Nat.zero_mul, Nat.sub_zero]
    exact overlay_apply hx
  rw [rfsHookOpendir, bind_done (getVinode_eq hi), get_bind, if_neg (by rw [hone]; omega), bind_done hread,
    bind_done (getVinode_eq (s := { s with iobuffer := io }) hi), ← hone]
  rfl

lemma vfsOpendir_safe (h : Sound s V) {rest : Name} {adds : Bool} (hon : s.OnRam V adds (s.start p path) q rest) :
    safe (maxPathLen ≤ rest.length) (vfsOpendir p path) (fun _ => Kept own s V) (Kept own s V) s := by
  obtain ⟨hstart, hbase⟩ := h.startOf_eq p path
  rw [vfsOpendir]
  refine safe_bind_done hstart (safe_bind ?_)
  refine safe_mono (h.final hbase hon) ?_ (fun _ hf => hf.elim)
  rintro r t ⟨-, W, hlook, hfound⟩
  have ht := hlook.sound
  cases hd : r.dentry with
  | none => exact hlook.kept
  | some d =>
    have hl := hfound.listed hd
    obtain ⟨e, v, i, he, hev, hi, hcase⟩ := ht.listed hl
    refine safe_bind_done (inodeOf_eq he hev) (safe_bind_done (getVinode_eq hi) ?_)
    by_cases htype : i.type ≠ dirI
    · rw [if_pos htype]
      exact hlook.kept
    · rw [if_neg htype]
      rw [not_not] at htype
      refine safe_bind_done (allocVfsFile_eq he _ _) ?_
      rcases hcase with ⟨-, hsb, -⟩ | ⟨-, hsb, n, hn, hheld, hin, hlive, hkind, -⟩
      · rw [hsb]
        refine (ht.opened hl he hev hi ?_ _ _).kept.after hlook
        intro hrfs
        rw [hsb] at hrfs
        cases hrfs
      · rw [hsb]
        have hdir : W.IsDir n := ⟨hlive.1, hkind ▸ htype⟩
        obtain ⟨i', hi', -, -, hnode⟩ := ht.shown.dir_vinode ht.ok hdir hheld
        rw [hi, Option.some.injEq] at hi'
        subst hi'
        obtain ⟨blk, hblk, -, hlt, -⟩ := Shows.dir_block ht.ok hdir
        have hone : i.blocks = 1 := by rw [hnode, (ht.ok.tree.isDir n hdir).1]
        have haddr : i.addrs 0 = blk := by rw [hnode, hblk]
        obtain ⟨io, b, -, hio⟩ := rfsHookOpendir_eq (s := { t with
          dentry := update t.dentry d (some { e with dRef := e.dRef + 1 })
          file := update t.file t.next (some ⟨true, true, false, 0, d⟩), next := t.next + 1 }) hi hone haddr (by omega)
        refine safe_bind_done hio (safe_pure (Kept.after hlook (SameNames.kept ⟨⟨?_, ht.ok, ?_⟩, rfl, ?_, ?_⟩)))
        · refine ht.shown.congr rfl rfl rfl ?_
          intro n' x _ j hj
          by_cases hx : x = v
          · subst hx
            rw [hi, Option.some.injEq] at hj
            subst hj
            exact ⟨_, update_self _ _ _, rfl, rfl, rfl⟩
          · exact ⟨j, (update_of_ne hx _ _).trans hj, rfl, rfl, rfl⟩
        · refine ht.cache.openFile hl he le_rfl (Nat.lt_succ_self _) rfl rfl rfl rfl rfl rfl ?_ ?_ ?_
          · intro x j hj
            by_cases hx : x = v
            · subst hx
              rw [hi, Option.some.injEq] at hj
              subst hj
              exact ⟨_, update_self _ _ _, rfl, rfl, fun _ _ _ => ⟨1, b, rfl⟩⟩
            · exact ⟨j, (update_of_ne hx _ _).trans hj, rfl, rfl, id⟩
          · intro v' j hv' hj
            rw [hev, Option.some.injEq] at hv'
            subst hv'
            change update t.vinode v (some { i with info := .dirCache 1 b }) v = some j at hj
            rw [update_self, Option.some.injEq] at hj
            subst hj
            exact fun _ _ => ⟨1, b, rfl⟩
          · intro x hx
            change t.next + 1 ≤ x at hx
            have hvlt := ht.cache.vinode_lt hi
            exact (update_of_ne (by omega) _ _).trans (ht.cache.below x (by omega)).2.1
        · intro x hx
          refine ht.cache.num_core (fun y _ => Cache.core_update he _ y) ?_ hx
          intro y j hj
          by_cases hy : y = v
          · subst hy
            rw [hi, Option.some.injEq] at hj
            subst hj
            exact ⟨_, update_self _ _ _, rfl⟩
          · exact ⟨j, (update_of_ne hy _ _).trans hj, rfl⟩
        · exact .opens t.next d true false (ht.cache.below t.next le_rfl).2.2 rfl

lemma closed_sound (h : Sound s V) (hF : s.file f = some F) (ho : F.opened = true) (he : s.dentry F.dentry = some e) :
    Sound { s with
      dentry := update s.dentry F.dentry (some { e with dRef := e.dRef - 1 })
      file := update s.file f (some { F with opened := false }) } V :=
  ⟨h.shown.congr rfl rfl rfl fun _ _ _ i hi => ⟨i, hi, rfl, rfl, rfl⟩, h.ok,
    h.cache.closeFile hF ho he rfl rfl rfl rfl rfl rfl rfl rfl⟩

lemma closed_num (h : Sound s V) (he : s.dentry d = some e) {x : ℕ} (hx : Listed s.dentryHash x) (z : ℤ)
    (files : ℕ → Option File) :
    ({ s with dentry := update s.dentry d (some { e with dRef := z }), file := files } : Vfs).num x = s.num x :=
  h.cache.num_core (fun y _ => Cache.core_update he z y) (marked_of_eq rfl) hx

lemma closed (h : Sound s V) (hown : f ∈ own.closes) (hF : s.file f = some F) (ho : F.opened = true)
    (he : s.dentry F.dentry = some e) :
    SameNames own s V { s with
      dentry := update s.dentry F.dentry (some { e with dRef := e.dRef - 1 })
      file := update s.file f (some { F with opened := false }) } where
  sound := h.closed_sound hF ho he
  table := rfl
  num _ hx := h.closed_num he hx _ _
  files := .closes f F hown hF rfl

def Closed (own : Scope) (s : Vfs) (V : Vol) (d : ℕ) (t : Vfs) : Prop :=
  ∃ W, Follows own s V t W ∧ (t.file = s.file ∨ ∀ {e v i n}, s.dentry d = some e → e.inode = some v →
    s.vinode v = some i → s.num d = some n → e.dRef = 1 → i.ref = 1 → W.cur n = W.node n)

lemma not_closed (h : Sound s V) : Closed own s V d s := ⟨V, (Looked.refl h).follows, .inl rfl⟩

lemma vfsClosedir_safe (h : Sound s V) (hown : f ∈ own.closes) (hF : s.file f = some F) (ho : F.opened = true) :
    safe U (vfsClosedir f) (fun _ t => ∃ W, Follows own s V t W ∧
      (t.file = s.file ∨ ∀ {n}, s.num F.dentry = some n → W.cur n = W.node n)) (fun _ => False) s := by
  obtain ⟨hl, -, hcached⟩ := h.cache.opened f F hF ho
  obtain ⟨e, v, i, he, hev, hi, hcase⟩ := h.listed hl
  rw [vfsClosedir]
  refine safe_bind_done (getFile_eq hF) (safe_bind_done (inodeOf_eq he hev) (safe_bind_done (getVinode_eq hi) ?_))
  by_cases htype : i.type ≠ dirI
  · rw [if_pos htype]
    exact ⟨V, (Looked.refl h).follows, .inl rfl⟩
  · rw [if_neg htype]
    rw [not_not] at htype
    have hclosed := (h.closed hown hF ho he).follows
    -- directories are always as on the disk
    have hsync : ∀ {n}, s.num F.dentry = some n → V.cur n = V.node n := by
      intro n hn
      rcases hcase with ⟨hroot, -⟩ | ⟨-, -, n', hn', -, -, hlive, hkind, -⟩
      · rw [hroot, h.cache.named.host] at hn
        cases hn
      · rw [hn', Option.some.injEq] at hn
        subst hn
        exact h.ok.tree.cur_dir ⟨hlive.1, hkind.symm.trans htype⟩
    refine safe_bind_done (addDRef_eq he) (safe_bind_done rfl ?_)
    cases hsb : i.sb with
    | hostfs => exact ⟨V, hclosed, .inr hsync⟩
    | rfs =>
      obtain ⟨c, b, hinfo⟩ := hcached e v i he hev hi hsb htype
      refine safe_bind_done (a := ()) ?_ (safe_pure ⟨V, hclosed, .inr hsync⟩)
      rw [rfsHookClosedir, bind_done (getVinode_eq (i := i) (by exact hi)), hinfo]
      rfl

lemma dropDentry_eq (h : Sound s V) (hkey : s.dentryHash (some q, nm) = some d) (he : s.dentry d = some e)
    (hz : e.dRef = 0) (hev : e.inode = some v) (hi : s.vinode v = some i) (hn : s.num d = some n)
    (htype : (V.node n).type = fileI) (files : ℕ → Option File) :
    ∃ t W, dropDentry d v { s with file := files } = .done () { t with file := files } ∧ Follows own s V t W ∧
      t.file = s.file ∧ (i.ref = 1 → W.cur n = W.node n) := by
  have hl : Listed s.dentryHash d := ⟨_, hkey⟩
  obtain ⟨e', v', i', he', hev', hi', hin, hsb, hhash, hkey'⟩ := h.cache.ram hl hn
  rw [he, Option.some.injEq] at he'
  subst he'
  rw [hev, Option.some.injEq] at hev'
  subst hev'
  rw [hi, Option.some.injEq] at hi'
  subst hi'
  have hek : (e.parent, e.name) = (some q, nm) := h.cache.named.inj hkey' hkey
  have hnodir : ¬ V.IsDir n := fun hd => absurd (htype.symm.trans hd.2) (by decide)
  have hnum : ∀ n', s.num d = some n' → ¬ V.IsDir n' := by
    intro n' hn'
    rw [hn, Option.some.injEq] at hn'
    exact hn' ▸ hnodir
  have hN := h.cache.named.leave h.ok.tree hkey hnum
  have hlive := h.num_live hl hn
  let u : Vfs := { s with
    dentryHash := update s.dentryHash (some q, nm) none, dentry := update s.dentry d none
    vinode := update s.vinode v (some { i with ref := i.ref + -1 }) }
  have hvu : u.vinode v = some { i with ref := i.ref + -1 } := update_self _ _ _
  have hother : ∀ x, x ≠ v → u.vinode x = s.vinode x := fun x hx => update_of_ne hx _ _
  have hsu : Shows u s.held V := by
    refine h.shown.congr rfl rfl rfl ?_
    intro n' x _ j hj
    by_cases hx : x = v
    · subst hx
      rw [hi, Option.some.injEq] at hj
      subst hj
      exact ⟨_, hvu, rfl, rfl, rfl⟩
    · exact ⟨j, (hother x hx).trans hj, rfl, rfl, rfl⟩
  have hrun : dropDentry d v { s with file := files } =
      (if i.ref + -1 = 0 then do
        viopWriteBackVinode v
        hashEraseVinode v
        freeVinode v
      else pure ()) { u with file := files } := by
    have herase : hashEraseDentry d { s with file := files } = .done () { s with
        file := files, dentryHash := update s.dentryHash (some q, nm) none } := by
      rw [hashEraseDentry_eq (e := e) (by exact he), hek]
    rw [dropDentry, bind_done herase, bind_done (freeVfsDentry_eq (e := e) (by exact he) hz),
      bind_done (addRef_eq (i := i) (by exact hi)), bind_done (getVinode_eq (s := { u with file := files }) hvu)]
  have hleft : ∀ x, Listed u.dentryHash x → x ≠ d := by
    rintro x ⟨k, hk⟩ rfl
    change update s.dentryHash (some q, nm) none k = some x at hk
    by_cases hkk : k = (some q, nm)
    · rw [hkk, update_self] at hk
      cases hk
    · rw [update_of_ne hkk] at hk
      exact hkk (h.cache.named.inj hk hkey)
  have hvlt := h.cache.vinode_lt hi
  have hbelow : ∀ x, s.next ≤ x → s.vinode x = none := fun x hx => (h.cache.below x hx).2.1
  by_cases hlast : i.ref + -1 = 0
  · have hsf : Shows { u with file := files } s.held V := hsu.congr rfl rfl rfl fun _ _ _ j hj => ⟨j, hj, rfl, rfl, rfl⟩
    obtain ⟨disk, io, hio, hsync⟩ := hsf.sync h.ok (n := n) (w := v) hhash
    let w : Vfs := { u with
      disk := disk, iobuffer := io, vinode := update u.vinode v none
      vinodeHash := update s.vinodeHash (.rfs, (n : ℤ)) none }
    have hcache : Cache w (V.sync n none) := by
      refine h.cache.leave (V := V) (i := i) ?_ ?_ hkey he hev hn hnodir (h.cache.not_used he hz) hi rfl rfl rfl rfl rfl rfl
        ?_ ?_ (.inr ⟨by omega, rfl⟩)
      · refine hN.revolume ?_ fun _ _ hdir => (h.ok.tree.sync_isDir hlive).mp hdir
        exact fun _ _ _ hdir hent => ⟨(h.ok.tree.sync_isDir hlive).mpr hdir, hent⟩
      · exact fun p n' hn' => (h.ok.tree.sync_isDir hlive).mpr ((h.cache.cwd p).2 n' hn')
      · intro x j hx hj
        exact ⟨j, (update_of_ne hx _ _).trans ((hother x hx).trans hj), rfl⟩
      · intro x hx
        change s.next ≤ x at hx
        exact (update_of_ne (by omega) _ _).trans ((hother x (by omega)).trans (hbelow x hx))
    refine ⟨w, V.sync n none, ?_, ⟨⟨?_, h.ok.sync hlive (.inl rfl), hcache⟩, .file n hlive htype, .sync h.ok.tree hlive, ?_,
      .same rfl⟩, rfl, fun _ => Vol.cur_uncached (update_self _ _ _)⟩
    · have hback : viopWriteBackVinode v { u with file := files } =
          .done () { u with file := files, disk := disk, iobuffer := io } := by
        rw [viopWriteBackVinode, bind_done (getVinode_eq (s := { u with file := files }) hvu)]
        dsimp only
        rw [hsb]
        exact hio
      rw [hrun, if_pos hlast, bind_done hback,
        bind_done (hashEraseVinode_eq (n := n) (i := { i with ref := i.ref + -1 }) (by exact hvu) hin), freeVinode_eq]
      dsimp only
      rw [hsb]
    · rw [held_update (s := s) (o := none) (k := n) rfl]
      refine hsync.congr rfl rfl rfl ?_
      intro n' x hx j hj
      by_cases hn' : n' = n
      · rw [hn', update_self] at hx
        cases hx
      · rw [update_of_ne hn'] at hx
        have hxv : x ≠ v := by
          rintro rfl
          exact hn' (h.shown.held_inj hx hhash)
        exact ⟨j, (update_of_ne hxv _ _).trans hj, rfl, rfl, rfl⟩
    · intro x _ hx
      refine (Cache.Marked.num (s := w) (t := s) ?_ hcache hx (update_of_ne (hleft x hx) _ _).symm).symm
      intro y j hj
      by_cases hy : y = v
      · rw [hy] at hj
        change update u.vinode v none v = some j at hj
        rw [update_self] at hj
        cases hj
      · exact ⟨j, (hother y hy).symm.trans ((update_of_ne hy _ _).symm.trans hj), rfl⟩
  · have hcache : Cache u V := by
      refine h.cache.leave (i := i) hN (fun p => (h.cache.cwd p).2) hkey he hev hn hnodir (h.cache.not_used he hz)
        hi rfl rfl rfl rfl rfl rfl ?_ ?_ (.inl ⟨rfl, _, hvu, rfl, rfl, rfl⟩)
      · intro x j hx hj
        exact ⟨j, (hother x hx).trans hj, rfl⟩
      · intro x hx
        change s.next ≤ x at hx
        exact (hother x (by omega)).trans (hbelow x hx)
    refine ⟨u, V, ?_, ⟨⟨hsu, h.ok, hcache⟩, .caches rfl (fun _ => rfl) rfl, .refl, ?_, .same rfl⟩, rfl, fun hone => absurd hone (by omega)⟩
    · rw [hrun, if_neg hlast]
      rfl
    · intro x _ hx
      refine (Cache.Marked.num (s := u) (t := s) ?_ hcache hx (update_of_ne (hleft x hx) _ _).symm).symm
      intro y j hj
      by_cases hy : y = v
      · subst hy
        rw [hvu, Option.some.injEq] at hj
        subst hj
        exact ⟨i, hi, rfl⟩
      · exact ⟨j, (hother y hy).symm.trans hj, rfl⟩

lemma vfsClose_safe (h : Sound s V) (hown : f ∈ own.closes) (hF : s.file f = some F) (ho : F.opened = true) :
    safe U (vfsClose f) (fun _ => Closed own s V F.dentry) (fun _ => False) s := by
  obtain ⟨hl, -, -⟩ := h.cache.opened f F hF ho
  obtain ⟨e, v, i, he, hev, hi, hcase⟩ := h.listed hl
  rw [vfsClose]
  refine safe_bind_done (getFile_eq hF) (safe_bind_done (inodeOf_eq he hev) (safe_bind_done (getVinode_eq hi) ?_))
  by_cases htype : i.type ≠ fileI
  · rw [if_pos htype]
    exact h.not_closed
  · rw [if_neg htype]
    rw [not_not] at htype
    rcases hcase with ⟨-, -, hdir⟩ | ⟨hroot, hsb, n, hn, -, -, -, hkind, -⟩
    · exact absurd (htype.symm.trans hdir) (by decide)
    · rw [hsb, closeDentry]
      refine safe_bind_done rfl ?_
      apply safe_bind
      refine safe_bind_done (addDRef_eq he) (safe_bind_done (getDentry_eq (update_self _ _ _)) ?_)
      by_cases hz : e.dRef + -1 = 0
      · rw [if_pos hz]
        obtain ⟨k, hk⟩ := hl
        obtain ⟨q, nm⟩ := k
        cases q with
        | none => exact absurd (h.cache.named.top hk) hroot
        | some q =>
          -- the state with the file closed is the one that the dentry leaves
          have hnum := Cache.num_eq (d := F.dentry) (e := { e with dRef := e.dRef - 1 }) (s := { s with
            dentry := update s.dentry F.dentry (some { e with dRef := e.dRef - 1 })
            file := update s.file f (some { F with opened := false }) }) (update_self _ _ _) hev hi
          rw [← Cache.num_eq he hev hi, hn] at hnum
          obtain ⟨t, W, ht, hfollows, hfile, hsync⟩ := (h.closed_sound hF ho he).dropDentry_eq (q := q)
            (e := { e with dRef := e.dRef - 1 }) hk (update_self _ _ _) hz hev hi hnum (hkind.symm.trans htype) s.file
          have hset : setFile f { F with opened := false } { t with file := s.file } = .done () t := by
            change t.file = update s.file f (some { F with opened := false }) at hfile
            change Outcome.done () { t with file := update s.file f (some { F with opened := false }) } = _
            rw [← hfile]
          refine safe_done ht (safe_bind_done hset (safe_pure ?_))
          refine ⟨W, ⟨hfollows.sound, hfollows.change, hfollows.vol, ?_, .closes f F hown hF hfile⟩, .inr ?_⟩
          · exact fun x hx hx' => (hfollows.num x hx hx').trans (h.closed_num he hx _ _)
          · intro e' v' i' n' he' hev' hi' hn' _ href
            rw [he, Option.some.injEq] at he'
            subst he'
            rw [hev, Option.some.injEq] at hev'
            subst hev'
            rw [hi, Option.some.injEq] at hi'
            subst hi'
            rw [hn, Option.some.injEq] at hn'
            subst hn'
            exact hsync href
      · rw [if_neg hz]
        refine ⟨V, (h.closed hown hF ho he).follows, .inr ?_⟩
        intro e' _ _ _ he' _ _ _ hone
        rw [he, Option.some.injEq] at he'
        subst he'
        omega

lemma seeked (h : Sound s V) (hF : s.file f = some F) {o : ℤ} (ho : 0 ≤ o)
    (hin : ∀ n c, s.num F.dentry = some n → V.cached n = some c → (V.node n).type = fileI ∧ o ≤ c.size) :
    SameNames own s V { s with file := update s.file f (some { F with offset := o }) } where
  sound := ⟨h.shown.congr rfl rfl rfl fun _ _ _ i hi => ⟨i, hi, rfl, rfl, rfl⟩, h.ok, h.cache.seek hF ho⟩
  table := rfl
  num _ _ := rfl
  files := .moves f F o hF rfl hin

lemma vfsLseek_safe (h : Sound s V) (hF : s.file f = some F) (ho : F.opened = true) (offset whence : ℤ) :
    safe U (vfsLseek f offset whence) (fun _ => Kept own s V) (Kept own s V) s := by
  obtain ⟨hl, -, -⟩ := h.cache.opened f F hF ho
  obtain ⟨e, v, i, he, hev, hi, hcase⟩ := h.listed hl
  rw [vfsLseek]
  refine safe_bind_done (getFile_eq hF) (safe_bind_done (inodeOf_eq he hev) (safe_bind_done (getVinode_eq hi) ?_))
  by_cases htype : i.type ≠ fileI
  · rw [if_pos htype]
    exact h.kept
  · rw [if_neg htype]
    rw [not_not] at htype
    rcases hcase with ⟨-, -, hdir⟩ | ⟨-, hsb, n, hn, -, -, -, hkind, hc⟩
    · exact absurd (htype.symm.trans hdir) (by decide)
    · rw [hsb]
      cases hseek : rfsLseek i offset whence F.offset with
      | none => exact h.kept
      | some o =>
        obtain ⟨hnn, hle⟩ := rfsLseek_bounds hseek
        refine (h.seeked hF hnn ?_).kept
        intro n' c hn' hc'
        rw [hn, Option.some.injEq] at hn'
        subst hn'
        rw [hc, Option.some.injEq] at hc'
        exact ⟨hkind.symm.trans htype, hc' ▸ hle⟩

lemma rfsRead_safe (i : Vinode) (len offset : ℤ) : safe True (rfsRead i len offset)
    (fun r t => (0 ≤ r.2 ∧ r.2 = if i.size < offset + len then i.size - offset else len) ∧ ∃ io, t = { s with iobuffer := io })
    (fun t => ∃ io, t = { s with iobuffer := io }) s := by
  cases rfsRead_reads (i := i) (D := s.disk) len offset with
  | done a ha h =>
    obtain ⟨io, hio⟩ := h s rfl
    exact safe_done hio ⟨ha, io, rfl⟩
  | left h =>
    obtain ⟨io, hio⟩ := h s rfl
    exact safe_left hio ⟨io, rfl⟩
  | undefined h =>
    rw [safe, h s rfl]
    trivial

lemma vfsRead_safe (h : Sound s V) (hF : s.file f = some F) (ho : F.opened = true) (count : ℕ) :
    safe True (vfsRead f count) (fun _ => Kept own s V) (Kept own s V) s := by
  obtain ⟨hl, hoff, -⟩ := h.cache.opened f F hF ho
  obtain ⟨e, v, i, he, hev, hi, hcase⟩ := h.listed hl
  rw [vfsRead]
  refine safe_bind_done (getFile_eq hF) ?_
  by_cases hr : F.readable = false
  · rw [if_pos hr]
    exact h.kept
  · rw [if_neg hr]
    refine safe_bind_done (inodeOf_eq he hev) (safe_bind_done (getVinode_eq hi) ?_)
    by_cases htype : i.type ≠ fileI
    · rw [if_pos htype]
      exact h.kept
    · rw [if_neg htype]
      rw [not_not] at htype
      rcases hcase with ⟨-, -, hdir⟩ | ⟨-, hsb, n, hn, -, -, -, hkind, hc⟩
      · exact absurd (htype.symm.trans hdir) (by decide)
      · rw [hsb]
        apply safe_bind
        refine safe_mono (rfsRead_safe i count F.offset) ?_ ?_
        · rintro r t ⟨⟨hlen, heq⟩, io, rfl⟩
          refine Kept.after (h.idle io 0) ((h.idle io 0).sound.seeked (o := F.offset + r.2) hF (by omega) ?_).kept
          intro n' c hn' hc'
          change s.num F.dentry = some n' at hn'
          rw [hn, Option.some.injEq] at hn'
          subst hn'
          rw [hc, Option.some.injEq] at hc'
          subst hc'
          refine ⟨hkind.symm.trans htype, ?_⟩
          split at heq <;> omega
        · rintro t ⟨io, rfl⟩
          exact (h.idle io 0).kept

lemma written (h : Sound s V) (hheld : s.held n = some v) (hi : s.vinode v = some i) (hfile : (V.node n).type = fileI)
    {z : ℤ} (hz : i.size ≤ z) (ht : Shows.Written s s.held V n z t) :
    ∃ W c, Follows ⟨{n}, ∅⟩ s V t W ∧ t.file = s.file ∧ W.cached n = some c ∧ z ≤ c.size := by
  obtain ⟨W, c, hshown, hok, hfill, hc, hsize⟩ := ht.volume
  obtain ⟨i', hi', -, -, hcV, -⟩ := h.shown.held n v hheld
  rw [hi, Option.some.injEq] at hi'
  subst hi'
  have hisdir : ∀ {m}, W.IsDir m ↔ V.IsDir m := by
    intro m
    rw [Vol.IsDir, Vol.IsDir, hfill.node]
  have hheld' : t.held = s.held := by
    funext m
    rw [Vfs.held, Vfs.held, ht.same.vinodeHash]
  have hcache : Cache t W := by
    refine h.cache.volume ht.same ht.next.ge ?_ (h.cache.named.revolume ?_ fun _ _ hd => hisdir.mp hd) ?_
    · intro x hx
      rw [ht.next] at hx
      rw [ht.beyond x hx]
      exact (h.cache.below x hx).2.1
    · intro _ _ _ _ _ _ _ _ hd hent
      rw [hfill.dir]
      exact ⟨hisdir.mpr hd, hent⟩
    · exact fun p m hm => hisdir.mpr ((h.cache.cwd p).2 m hm)
  refine ⟨W, c, ⟨⟨hheld' ▸ hshown, hok, hcache⟩, .file n (h.held_live hheld) hfile, ?_, ?_, .same ht.same.file⟩, ht.same.file,
    hc, hsize⟩
  · exact .wrote hfill.node hfill.others hcV hc (hz.trans hsize) hfill.used hfill.holds
  · intro x hx _
    refine Cache.Marked.num ?_ h.cache hx (by rw [ht.same.dentry])
    intro y j hj
    obtain ⟨j', hj', htag⟩ := Cache.Marked.of_tags h.cache ht.same.tag y j hj
    exact ⟨j', hj', (Cache.mark_of_tag htag).1⟩

lemma vfsWrite_safe (h : Sound s V) (hF : s.file f = some F) (ho : F.opened = true) {data : List UInt8}
    (hfit : F.offset + data.length ≤ 40960) : safe U (vfsWrite f data)
      (fun _ => Kept ⟨{n | s.num F.dentry = some n}, ∅⟩ s V) (Kept ⟨{n | s.num F.dentry = some n}, ∅⟩ s V) s := by
  obtain ⟨hl, hoff, -⟩ := h.cache.opened f F hF ho
  obtain ⟨e, v, i, he, hev, hi, hcase⟩ := h.listed hl
  rw [vfsWrite]
  refine safe_bind_done (getFile_eq hF) ?_
  by_cases hw : F.writable = false
  · rw [if_pos hw]
    exact h.kept
  · rw [if_neg hw]
    refine safe_bind_done (inodeOf_eq he hev) (safe_bind_done (getVinode_eq hi) ?_)
    by_cases htype : i.type ≠ fileI
    · rw [if_pos htype]
      exact h.kept
    · rw [if_neg htype]
      rw [not_not] at htype
      rcases hcase with ⟨-, -, hdir⟩ | ⟨-, hsb, n, hn, hheld, -, -, hkind, -⟩
      · exact absurd (htype.symm.trans hdir) (by decide)
      · rw [hsb]
        have hown : {n | s.num F.dentry = some n} = {n} := by
          ext m
          rw [Set.mem_ofPred, hn, Option.some.injEq, Set.mem_singleton_iff]
          exact eq_comm
        rw [hown]
        have hfile : (V.node n).type = fileI := hkind.symm.trans htype
        apply safe_bind
        refine safe_mono (h.shown.write h.ok hheld (h.cache.vinode_lt hi) hfile hi hoff hfit) ?_ ?_
        · rintro a t ⟨rfl, ht⟩
          obtain ⟨W, c, hfollows, hfiles, hc, hle⟩ := h.written hheld hi hfile (le_max_left _ _) ht
          have hnum : t.num F.dentry = some n :=
            (hfollows.num F.dentry hl (by rw [ht.same.dentryHash]; exact hl)).trans hn
          refine ⟨W, hfollows.then hfiles (hfollows.sound.seeked (hfiles ▸ hF) (by omega) ?_)⟩
          intro n' c' hn' hc'
          rw [hnum, Option.some.injEq] at hn'
          subst hn'
          rw [hc, Option.some.injEq] at hc'
          subst hc'
          refine ⟨?_, (le_max_right _ _).trans hle⟩
          have hlive := h.num_live hl hn
          rw [hfollows.vol.types hlive (hfollows.sound.ok.tree.cached n c hc).1, hfile]
        · intro t ht
          obtain ⟨W, -, hfollows, -⟩ := h.written hheld hi hfile le_rfl ht
          exact ⟨W, hfollows⟩

def ccwdStart (s : Vfs) (p : ℕ) (path : Name) : Option ℕ × Name :=
  (some (if path.head? = some 47 then s.root else s.cwd p), path)

lemma vfsCcwd_safe (h : Sound s V) {rest : Name} {adds : Bool} (hon : s.OnRam V adds (ccwdStart s p path) q rest) :
    safe (maxPathLen ≤ rest.length) (vfsCcwd p path) (fun _ => Kept own s V) (Kept own s V) s := by
  have hbase : ∀ q, (ccwdStart s p path).1 = some q → Base s V q := by
    rintro q ⟨⟩
    split_ifs
    · exact h.base_root
    · exact h.cache.cwd p
  rw [vfsCcwd]
  refine safe_bind_done rfl (safe_bind ?_)
  refine safe_mono (h.final hbase hon) ?_ (fun _ hf => hf.elim)
  rintro r t ⟨-, W, hlook, hfound⟩
  have ht := hlook.sound
  cases hd : r.dentry with
  | none => exact hlook.kept
  | some d =>
    have hl := hfound.listed hd
    obtain ⟨e, v, i, he, hev, hi, hcase⟩ := ht.listed hl
    refine safe_bind_done (inodeOf_eq he hev) (safe_bind_done (getVinode_eq hi) ?_)
    by_cases htype : i.type ≠ dirI
    · rw [if_pos htype]
      exact hlook.kept
    · rw [if_neg htype]
      rw [not_not] at htype
      refine Kept.after (u := { t with cwd := update t.cwd p d }) hlook
        (SameNames.kept ⟨⟨?_, ht.ok, ?_⟩, rfl, fun _ _ => rfl, .same rfl⟩)
      · exact ht.shown.congr rfl rfl rfl fun _ _ _ i hi => ⟨i, hi, rfl, rfl, rfl⟩
      · refine ht.cache.refile rfl rfl rfl (fun _ _ => rfl) (fun x j hj => ⟨j, hj, rfl, rfl⟩) ht.cache.opens
          ht.cache.opened ht.cache.below ?_
        intro p'
        by_cases hp : p' = p
        · subst hp
          change Listed t.dentryHash (update t.cwd p' d p') ∧ ∀ n, t.num (update t.cwd p' d p') = some n → W.IsDir n
          rw [update_self]
          refine ⟨hl, fun n hn => ?_⟩
          rcases hcase with ⟨rfl, -, -⟩ | ⟨-, -, n', hn', -, -, hlive, hkind, -⟩
          · rw [ht.cache.named.host] at hn
            cases hn
          · rw [hn', Option.some.injEq] at hn
            exact hn ▸ ⟨hlive.1, hkind ▸ htype⟩
        · change Listed t.dentryHash (update t.cwd p d p') ∧ ∀ n, t.num (update t.cwd p d p') = some n → W.IsDir n
          rw [update_of_ne hp]
          exact ht.cache.cwd p'

end Sound

end Pke.Files
