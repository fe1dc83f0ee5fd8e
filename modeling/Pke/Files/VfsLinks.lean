import Pke.Files.VfsFiles

namespace Pke.Files

open Lib Flow Function

lemma Looked.onRam {s t : Vfs} {V W : Vol} {adds : Bool} {b q : ℕ} {path rest : Name} (h : Looked s V t W) (hs : Sound s V)
    (hb : Listed s.dentryHash b) (hon : s.OnRam V adds (some b, path) q rest) : t.OnRam W adds (some b, path) q rest := by
  obtain ⟨e, he, hup, hcase⟩ := hs.base_up hb
  have hup' : t.up b = s.up b := by rw [Vfs.up, Vfs.up, he, h.dentry b e he]
  have hbase : t.base (some b, path) = s.base (some b, path) := by
    rw [Vfs.base, Vfs.base]
    change (if _ then (t.up b, _) else _) = if _ then (s.up b, _) else _
    rw [hup']
  have hq : Listed s.dentryHash q := by
    have hbq := congrArg Prod.fst hon.base
    have hfst : (s.base (some b, path)).1 = s.up b ∨ (s.base (some b, path)).1 = some b := by
      rw [Vfs.base]
      dsimp only
      split_ifs
      exacts [.inl rfl, .inr rfl, .inl rfl, .inr rfl]
    rcases hfst with hfst | hfst
    · rw [hfst, hup] at hbq
      rcases hcase with ⟨-, hnone⟩ | ⟨-, q', hq', hlisted, -⟩
      · rw [hnone] at hbq
        cases hbq
      · rw [hq', Option.some.injEq] at hbq
        exact hbq ▸ hlisted
    · rw [hfst, Option.some.injEq] at hbq
      exact hbq ▸ hb
  refine ⟨hbase.trans hon.base, hon.string, ?_⟩
  rw [h.root]
  rcases hon.walks with hdot | hdd | ⟨h1, h2, hw⟩
  · exact .inl hdot
  · exact .inr (.inl hdd)
  · refine .inr (.inr ⟨h1, h2, ?_⟩)
    rcases hw with ⟨hroot, hrest⟩ | ⟨m, hm, hw⟩
    · refine .inl ⟨h.root ▸ hroot, ?_⟩
      rcases hrest with hnil | ⟨r, hr, hw⟩
      · exact .inl hnil
      · exact .inr ⟨r, hr, hw.congr h.node h.dir⟩
    · exact .inr ⟨m, (h.num q hq).trans hm, hw.congr h.node h.dir⟩

namespace Sound

variable {own : Scope} {s t : Vfs} {V W : Vol} {d f k m n p q v : ℕ} {nm path : Name} {e : Dentry} {i : Vinode} {U : Prop}

lemma newLink_safe (h : Sound s V) (hq : Listed s.dentryHash q) (hqm : s.num q = some m) (hm : V.IsDir m)
    (hno : nm ∉ (V.dir m).map Prod.fst) (hroom : (V.dir m).length < 128) (hlen : nm.length < 28)
    (hstr : (0 : UInt8) ∉ nm) (hv : s.held k = some v) (hfile : (V.node k).type = fileI) :
    safe U (do
      let d ← allocVfsDentry nm (some v) (some q)
      if (← viopLink (← inodeOf (← deref (some q))) nm v) ≠ 0 then pure (-1)
      else do
        hashPutDentry d
        pure (0 : ℤ)) (fun _ => Kept own s V) (fun _ => False) s := by
  obtain ⟨i, hi, hin, hsb, hc, -⟩ := h.shown.held k v hv
  obtain ⟨e, w, j, he, hew, hj, -, hjsb, hheld, -⟩ := h.cache.ram hq hqm
  have hqlt := h.cache.listed_lt hq
  have hvlt := h.cache.vinode_lt hi
  let s₁ : Vfs := { s with
    dentry := update s.dentry s.next (some ⟨nm, 0, some v, some q⟩)
    vinode := update s.vinode v (some { i with ref := i.ref + 1 }), next := s.next + 1 }
  have hvin : ∀ x j, s.vinode x = some j → ∃ j', s₁.vinode x = some j' ∧ j'.toDinode = j.toDinode ∧ j'.inum = j.inum ∧
      j'.sb = j.sb ∧ (x ≠ v → j' = j) := by
    intro x j hj
    by_cases hx : x = v
    · subst hx
      rw [hi, Option.some.injEq] at hj
      subst hj
      exact ⟨_, update_self _ _ _, rfl, rfl, rfl, fun hne => absurd rfl hne⟩
    · exact ⟨j, (update_of_ne hx _ _).trans hj, rfl, rfl, rfl, fun _ => rfl⟩
  have hs₁ : Shows s₁ s.held V := by
    refine h.shown.congr rfl rfl rfl ?_
    intro n x _ j hj
    obtain ⟨j', hj', hd, hn, hb, -⟩ := hvin x j hj
    exact ⟨j', hj', hd, hn, hb⟩
  obtain ⟨t, c, hlink, hc', hshows, hsame, hnext, hbeyond⟩ := hs₁.link h.ok hm hheld hroom hlen hstr hv hfile (by
    intro n x hx
    have hlt := h.cache.held_lt n x hx
    change x < s.next + 1
    omega)
  rw [hc, Option.some.injEq] at hc'
  subst hc'
  obtain ⟨j₁, hj₁, -, -, hsb₁, -⟩ := hvin w j hj
  refine safe_bind_done (allocVfsDentry_some hi) ?_
  change safe U (inodeOf q >>= _) _ _ s₁
  refine safe_bind_done (inodeOf_eq (s := s₁) (e := e) ((update_of_ne (by omega) _ _).trans he) hew) ?_
  refine safe_bind_done ((viopLink_eq hj₁ (hsb₁.trans hjsb)).trans hlink) ?_
  rw [if_neg (by decide)]
  have hkey := h.not_listed hqm hno
  have hdentry : t.dentry = update s.dentry s.next (some ⟨nm, 0, some v, some q⟩) := hsame.dentry
  have hput : hashPutDentry s.next t =
      .done () { t with dentryHash := update s.dentryHash (some q, nm) (some s.next) } := by
    have htable : t.dentryHash = s.dentryHash := hsame.dentryHash
    rw [hashPutDentry_eq (e := ⟨nm, 0, some v, some q⟩) (by rw [hdentry, update_self]) (by rw [htable]; exact hkey), htable]
  refine safe_bind_done hput (safe_pure ?_)
  have hlive := h.held_live hv
  have htype : (V.node k).type ≠ dirI := by rw [hfile]; decide
  have hok := h.ok.link hm hroom hlen hno hfile hc
  have hdiff : Vol.Differs V (V.append m nm k { i.toDinode with nlinks := i.nlinks + 1 } V.used) m k :=
    Vol.relist_differs hm hlive.1 htype
  have hnewtype : i.type ≠ dirI := by
    rw [(h.ok.tree.cached k _ hc).2.type]
    exact htype
  obtain ⟨hN, hcwd⟩ : Named s.dentryHash s.num s.root (V.append m nm k { i.toDinode with nlinks := i.nlinks + 1 } V.used) ∧ _ := h.named_append hm
    hlive.1 htype fun _ => hnewtype
  have hhash : t.vinodeHash = s.vinodeHash := hsame.vinodeHash
  -- the vinodes keep their tags, but for the count of the file
  have htags : ∀ x j, x ≠ v → s.vinode x = some j → ∃ j', t.vinode x = some j' ∧ j'.tag = j.tag := by
    intro x j hx hj
    have hlt := h.cache.vinode_lt hj
    have htag := hsame.tag x (by change x < s.next + 1; omega)
    change (t.vinode x).map Vinode.tag = (update s.vinode v _ x).map Vinode.tag at htag
    rw [update_of_ne hx, hj, Option.map_some] at htag
    exact Option.map_eq_some_iff.mp htag
  obtain ⟨j', hj', htag⟩ : ∃ j', t.vinode v = some j' ∧ j'.tag = ({ i with ref := i.ref + 1 } : Vinode).tag := by
    have htag := hsame.tag v (by change v < s.next + 1; omega)
    change (t.vinode v).map Vinode.tag = (update s.vinode v _ v).map Vinode.tag at htag
    rw [update_self, Option.map_some] at htag
    exact Option.map_eq_some_iff.mp htag
  obtain ⟨hmark, -, hin', hsb', href, hinfo⟩ := Cache.mark_of_tag htag
  refine ⟨V.append m nm k { i.toDinode with nlinks := i.nlinks + 1 } V.used, ⟨?_, hok, ?_⟩, .file k hlive hfile, ?_, ?_,
    .same hsame.file⟩
  · have hheld' : Vfs.held { t with dentryHash := update s.dentryHash (some q, nm) (some s.next) } = s.held := by
      funext n
      rw [Vfs.held, Vfs.held, hhash]
    rw [hheld']
    exact hshows.congr rfl rfl rfl fun _ _ _ j hj => ⟨j, hj, rfl, rfl, rfl⟩
  · refine h.cache.enter (d := s.next) (v := v) (n := k) (i := j') hok.tree hN hcwd hkey hq hqm hdiff.isDir' ?_ le_rfl ?_
      hdentry rfl hsame.file hsame.root hsame.cwd hj' (hin'.trans hin) (hsb'.trans hsb) ?_ ?_ ?_ htags ?_ ?_ ?_
    · have hlist : (V.append m nm k { i.toDinode with nlinks := i.nlinks + 1 } V.used).dir m =
          V.dir m ++ [(nm, (k : ℤ))] := Vol.relist_dir_self
      rw [hlist]
      exact List.mem_append_right _ (List.mem_singleton_self _)
    · change s.next < t.next
      rw [hnext]
      exact Nat.lt_succ_self _
    · change t.vinodeHash _ = _
      rw [hhash]
      exact hv
    · intro l x hx
      change t.vinodeHash l = _
      rwa [hhash]
    · intro l x hx
      change t.vinodeHash l = _ at hx
      rw [hhash] at hx
      exact .inl hx
    · intro j hj
      rw [hi, Option.some.injEq] at hj
      subst hj
      exact ⟨hmark, hinfo⟩
    · have hcount : j'.ref - 1 = i.ref := by
        rw [href]
        exact add_sub_cancel_right _ _
      rw [hcount]
      exact h.cache.refs _ v i hv hi
    · intro x hx
      change t.next ≤ x at hx
      rw [hnext] at hx
      change s.next + 1 ≤ x at hx
      refine (hbeyond x hx).trans ((update_of_ne (by omega) _ _).trans ?_)
      exact (h.cache.below x (by omega)).2.1
  · refine .relist h.ok.tree hm hlive.1 htype ?_ ?_ ?_ ?_ (fun _ _ => rfl) (by simp)
    · exact fun _ _ => (h.ok.tree.cached k _ hc).2.type
    · exact fun hfree => absurd (hfree.symm.trans ((h.ok.tree.cached k _ hc).2.type.trans hfile)) (by decide)
    · intro b hb
      refine ⟨hb.1, ?_⟩
      intro _ x hx haddr
      refine hb.2 k x ⟨hlive, ?_, ?_⟩
      · rw [Vol.cur_cached hc]
        exact hx
      · rw [Vol.cur_cached hc]
        exact haddr
    · intro c c' _ hc₁ hc₂
      rw [hc, Option.some.injEq] at hc₁
      rw [Option.some.injEq] at hc₂
      rw [← hc₁, ← hc₂]
  · intro x hx _
    have hlt := h.cache.listed_lt hx
    refine Cache.Marked.num ?_ h.cache hx ?_
    · intro y j hj
      by_cases hy : y = v
      · subst hy
        rw [hi, Option.some.injEq] at hj
        subst hj
        exact ⟨j', hj', hmark⟩
      · obtain ⟨j₂, hj₂, htag₂⟩ := htags y j hy hj
        exact ⟨j₂, hj₂, (Cache.mark_of_tag htag₂).1⟩
    · change t.dentry x = _
      rw [hdentry, update_of_ne (by omega)]

lemma linkAt_safe (h : Sound s V) (hv : s.held k = some v) (hfile : (V.node k).type = fileI) {rest : Name}
    (hon : s.OnRam V true (some s.root, path) q rest) :
    safe (maxPathLen ≤ rest.length) (linkAt v path) (fun _ => Kept own s V) (Kept own s V) s := by
  rw [linkAt]
  refine safe_bind_done rfl (safe_bind ?_)
  refine safe_mono (h.final ?_ hon) ?_ (fun _ hf => hf.elim)
  · rintro b ⟨⟩
    exact h.base_root
  rintro r t ⟨hne, W, hlook, hfound⟩
  have ht := hlook.sound
  cases hd : r.dentry with
  | some d => exact hlook.kept
  | none =>
    cases hfound with
    | hit d hd' =>
      rw [hd] at hd'
      cases hd'
    | miss q' m tok _ hmiss hp hl hqm hdir hno hstr hlen hroom =>
      obtain ⟨base, hbase⟩ := getBaseName_eq (s := t) (hne hd)
      refine safe_bind_done hbase ?_
      have hmissed : missedLast r base t = .done (tok == base) t := by
        rw [missedLast, hmiss]
        rfl
      refine safe_bind_done hmissed ?_
      by_cases heq : (tok == base) = true
      · rw [if_pos heq]
        rw [beq_iff_eq] at heq
        subst heq
        rw [hp]
        have hheld : t.held k = some v := hlook.hash _ _ hv
        exact safe_mono (ht.newLink_safe hl hqm hdir hno (hroom rfl) hlen hstr hheld (hlook.node ▸ hfile))
          (fun _ _ hk => hk.after hlook) (fun _ hf => hf.elim)
      · rw [if_neg heq]
        exact hlook.kept

lemma vfsLink_safe (h : Sound s V) {old new rest rest' : Name} {q' : ℕ} {adds : Bool}
    (hon : s.OnRam V adds (s.start p old) q rest) (hon' : s.OnRam V true (some s.root, new) q' rest') :
    safe (maxPathLen ≤ rest.length ∨ maxPathLen ≤ rest'.length) (vfsLink p old new) (fun _ => Kept own s V)
      (Kept own s V) s := by
  obtain ⟨hstart, hbase⟩ := h.startOf_eq p old
  rw [vfsLink]
  refine safe_bind_done hstart (safe_bind ?_)
  refine safe_mono (safe_weaken (h.final hbase hon) .inl) ?_ (fun _ hf => hf.elim)
  rintro r t ⟨-, W, hlook, hfound⟩
  have ht := hlook.sound
  cases hd : r.dentry with
  | none => exact hlook.kept
  | some d =>
    obtain ⟨e, v, i, he, hev, hi, hcase⟩ := ht.listed (hfound.listed hd)
    refine safe_bind_done (inodeOf_eq he hev) (safe_bind_done (getVinode_eq hi) ?_)
    by_cases htype : i.type ≠ fileI
    · rw [if_pos htype]
      exact hlook.kept
    · rw [if_neg htype]
      rw [not_not] at htype
      rcases hcase with ⟨-, -, hdir⟩ | ⟨-, -, n, -, hheld, -, -, hkind, -⟩
      · exact absurd (htype.symm.trans hdir) (by decide)
      · have hon'' : t.OnRam W true (some t.root, new) q' rest' := by
          rw [hlook.root]
          exact hlook.onRam h h.base_root.1 hon'
        exact safe_mono (safe_weaken (ht.linkAt_safe hheld (hkind.symm.trans htype) hon'') .inr)
          (fun _ _ hk => hk.after hlook) (fun _ hk => hk.after hlook)

lemma ref_one (h : Sound s V) (hlinks : V.links k = 1) (hkey : s.dentryHash (some q, nm) = some d)
    (hq : Listed s.dentryHash q) (hqm : s.num q = some m) (hm : V.IsDir m) (hent : (nm, (k : ℤ)) ∈ V.dir m)
    (he : s.dentry d = some e) (hev : e.inode = some v) (hi : s.vinode v = some i) (hsb : i.sb = .rfs)
    (hin : i.inum = k) (hheld : s.held k = some v) : i.ref = 1 := by
  have hk0 : k ≠ 0 := by
    rintro rfl
    rw [h.ok.tree.links_eq_zero (.inr rfl)] at hlinks
    omega
  refine (h.cache.refs _ v i hheld hi).eq_one (h := (some q, nm)) ?_ ?_
  · rw [Vfs.inodeUse, hkey, Option.bind_some, he, Option.bind_some, hev]
  · rintro ⟨q', nm'⟩ huse
    rw [Vfs.inodeUse] at huse
    cases hx : s.dentryHash (q', nm') with
    | none =>
      rw [hx] at huse
      cases huse
    | some x =>
      obtain ⟨e', v', i', he', -, hev', hi', -⟩ := h.cache.key _ x hx
      rw [hx, Option.bind_some, he', Option.bind_some, hev', Option.some.injEq] at huse
      subst huse
      have hnum := Cache.num_eq he' hev' hi
      rw [if_pos hsb, hin, Int.toNat_natCast] at hnum
      cases q' with
      | none =>
        rw [h.cache.named.top hx, h.cache.named.host] at hnum
        cases hnum
      | some q' =>
        rcases h.cache.named.child hx with ⟨rfl, rfl⟩ | ⟨m', n', hq', hqm', hm', hn', hent'⟩
        · obtain ⟨x', hx', hnum'⟩ := h.cache.named.mount
          rw [hx, Option.some.injEq] at hx'
          rw [← hx', hnum, Option.some.injEq] at hnum'
          exact absurd hnum' hk0
        · rw [hnum, Option.some.injEq] at hn'
          subst hn'
          obtain ⟨rfl, rfl⟩ := Vol.name_of_link hlinks hm hm' hent hent'
          rw [h.cache.named.unique hq' hq hqm' hqm hm]

lemma named_remove (h : Sound s V) (hkey : s.dentryHash (some q, nm) = some d) (hq : Listed s.dentryHash q)
    (hqm : s.num q = some m) (hm : V.IsDir m) (hn : s.num d = some k) (hlive : k ∈ V.live)
    (hfile : (V.node k).type = fileI) {j : ℕ} (hj : (V.dir m)[j]? = some (nm, (k : ℤ))) {new : Dinode}
    (o : Option Dinode) (used : Set ℤ) (hnew : new.type ≠ dirI) :
    Named (update s.dentryHash (some q, nm) none) s.num s.root (V.remove m j k new o used) ∧
      ∀ p n, s.num (s.cwd p) = some n → (V.remove m j k new o used).IsDir n := by
  have htype : (V.node k).type ≠ dirI := by rw [hfile]; decide
  have hdiff : Vol.Differs V (V.remove m j k new o used) m k := Vol.relist_differs hm hlive.1 htype
  have hisdir : ∀ {n}, V.IsDir n → (V.remove m j k new o used).IsDir n := by
    intro n hd
    have hne : n ≠ k := by
      rintro rfl
      exact htype hd.2
    exact ⟨hd.1, (hdiff.type_eq hne).trans hd.2⟩
  have hnum : ∀ n, s.num d = some n → ¬ V.IsDir n := by
    intro n hn' hd
    rw [hn, Option.some.injEq] at hn'
    subst hn'
    exact htype hd.2
  refine ⟨(h.cache.named.leave h.ok.tree hkey hnum).revolume ?_ ?_, fun p n hn' => hisdir ((h.cache.cwd p).2 n hn')⟩
  · intro q' nm' d' m' n' hk' hq' hd' hdir hent
    refine ⟨hisdir hdir, ?_⟩
    have hne : (some q', nm') ≠ (some q, nm) := by
      intro heq
      rw [heq, update_self] at hk'
      cases hk'
    rw [update_of_ne hne] at hk'
    by_cases hmm : m' = m
    · subst hmm
      have hlist : (V.remove m' j k new o used).dir m' = (V.dir m').eraseIdx j := Vol.relist_dir_self
      have hqq := h.cache.named.unique (h.cache.named.parent_listed hk') hq hq' hqm hdir
      rw [hlist, List.mem_eraseIdx_iff_getElem?]
      obtain ⟨x, hx⟩ := List.mem_iff_getElem?.mp hent
      refine ⟨x, ?_, hx⟩
      rintro rfl
      rw [hj, Option.some.injEq, Prod.mk.injEq] at hx
      exact hne (by rw [hqq, hx.1])
    · have hmk : m' ≠ k := by
        rintro rfl
        exact htype hdir.2
      rw [(hdiff.other m' hmm hmk).2.2]
      exact hent
  · intro d' n' _ _ hdir
    by_cases hnk : n' = k
    · subst hnk
      have hnode : (V.remove m j n' new o used).node n' = new := Vol.relist_node_self hdiff.ne
      rw [Vol.IsDir, hnode] at hdir
      exact absurd hdir.2 hnew
    · exact ⟨hdir.1, (hdiff.type_eq hnk).symm.trans hdir.2⟩

lemma removeLink_safe (h : Sound s V) (hkey : s.dentryHash (some q, nm) = some d) (hq : Listed s.dentryHash q)
    (hqm : s.num q = some m) (hm : V.IsDir m) (hn : s.num d = some k) (hent : (nm, (k : ℤ)) ∈ V.dir m)
    (hstr : (0 : UInt8) ∉ nm) (he : s.dentry d = some e) (hz : e.dRef = 0) (hev : e.inode = some v)
    (hfile : (V.node k).type = fileI) :
    safe U (do
      if (← viopUnlink (← inodeOf (← deref (some q))) nm v) ≠ 0 then pure (-1)
      else do
        forget d v
        pure (0 : ℤ)) (fun _ => Kept own s V) (fun _ => False) s := by
  obtain ⟨e', v', i, he', hev', hi, hin, hsb, hheld, hkey'⟩ := h.cache.ram ⟨_, hkey⟩ hn
  rw [he, Option.some.injEq] at he'
  subst he'
  rw [hev, Option.some.injEq] at hev'
  subst hev'
  obtain ⟨eq, w, jw, heq, hew, hjw, -, hwsb, hwheld, -⟩ := h.cache.ram hq hqm
  have hlive := h.num_live ⟨_, hkey⟩ hn
  have htype : (V.node k).type ≠ dirI := by rw [hfile]; decide
  have hk0 : k ≠ 0 := by
    rintro rfl
    exact htype h.ok.tree.root
  obtain ⟨t, j, c, new, o, used, x, hrun, hc, hj, hdrop, hshows, hsame, hnext, hbeyond, i', hi', hcase⟩ :=
    h.shown.unlink h.ok hm hwheld hheld hfile hstr hent h.cache.held_lt
  have hok : (V.remove m j k new o used).Ok := Shows.Dropped.ok h.ok hm hfile hc hdrop hj
  have hnew : new.type ≠ dirI := by
    rcases hdrop.kind with ⟨-, hfree, -⟩ | ⟨-, rfl, -⟩
    · rw [hfree]
      decide
    · exact htype
  obtain ⟨hN, hcwd⟩ := h.named_remove hkey hq hqm hm hn hlive hfile hj o used hnew
  have htags := Cache.Marked.of_tags h.cache hsame.tag
  obtain ⟨i₂, hi₂, htag⟩ := htags v i hi
  rw [hi', Option.some.injEq] at hi₂
  subst hi₂
  obtain ⟨hmark, -, hin', hsb', href, hinfo⟩ := Cache.mark_of_tag htag
  have hek : (e.parent, e.name) = (some q, nm) := h.cache.named.inj hkey' hkey
  have hvlt := h.cache.vinode_lt hi
  let u : Vfs := { t with
    dentryHash := update s.dentryHash (some q, nm) none, dentry := update s.dentry d none
    vinode := update t.vinode v (some { i' with ref := i'.ref + -1 }) }
  have hvu : u.vinode v = some { i' with ref := i'.ref + -1 } := update_self _ _ _
  have hother : ∀ x, x ≠ v → u.vinode x = t.vinode x := fun x hx => update_of_ne hx _ _
  have hforget : forget d v t =
      (if i'.nlinks = 0 then
        if i'.ref + -1 ≠ 0 then halt
        else do
          hashEraseVinode v
          freeVinode v
      else pure ()) u := by
    have herase : hashEraseDentry d t = .done () { t with dentryHash := update s.dentryHash (some q, nm) none } := by
      rw [hashEraseDentry_eq (e := e) (by rw [hsame.dentry]; exact he), hek, hsame.dentryHash]
    have hfree : freeVfsDentry d { t with dentryHash := update s.dentryHash (some q, nm) none } = .done () { t with
        dentryHash := update s.dentryHash (some q, nm) none, dentry := update s.dentry d none } := by
      rw [freeVfsDentry_eq (e := e) (by change t.dentry d = _; rw [hsame.dentry]; exact he) hz]
      dsimp only
      rw [hsame.dentry]
    rw [forget, bind_done herase, bind_done hfree, bind_done (addRef_eq (i := i') (by exact hi')),
      bind_done (getVinode_eq (s := u) hvu)]
  change safe U (inodeOf q >>= _) _ _ s
  refine safe_bind_done (inodeOf_eq heq hew) (safe_bind_done ((viopUnlink_eq hjw hwsb).trans hrun) ?_)
  rw [if_neg (by decide)]
  have hnodir : ¬ V.IsDir k := fun hd => htype hd.2
  have hkeeps : V.Keeps own.writes (V.remove m j k new o used) := by
    refine .relist h.ok.tree hm hlive.1 htype ?_ ?_ ?_ ?_ ?_ ?_
    · intro _ hnf
      rcases hdrop.kind with ⟨-, hfree, -⟩ | ⟨-, hnode, -⟩
      · exact absurd hfree hnf
      · rw [hnode]
    · intro hfree hsync x b hb
      rcases hdrop.kind with ⟨-, -, -, hused⟩ | ⟨-, hnode, -⟩
      · rw [hused]
        rintro ⟨-, hno⟩
        refine hno ⟨x, ?_⟩
        rw [← hsync]
        exact hb.2
      · rw [hnode] at hfree
        exact absurd (hfree.symm.trans hfile) (by decide)
    · intro b hb
      rcases hdrop.kind with ⟨-, hfree, -, hused⟩ | ⟨-, -, ho, hused⟩
      · rw [hused]
        refine ⟨⟨hb.1, ?_⟩, fun hnf => absurd hfree hnf⟩
        rintro ⟨x, hx, haddr⟩
        have ha := h.ok.tree.cur_ahead hlive
        exact hb.2 k x ⟨hlive, hx.trans_le ha.blocks.1, (ha.addrs x hx).trans haddr⟩
      · rw [hused, ho]
        refine ⟨hb.1, ?_⟩
        intro _ x hx haddr
        refine hb.2 k x ⟨hlive, ?_, ?_⟩
        · rw [Vol.cur_cached hc]
          exact hx
        · rw [Vol.cur_cached hc]
          exact haddr
    · intro c₁ c₂ _ hc₁ hc₂
      rw [hc, Option.some.injEq] at hc₁
      rcases hdrop.kind with ⟨-, -, ho, -⟩ | ⟨-, -, ho, -⟩
      · rw [ho] at hc₂
        cases hc₂
      · rw [ho, Option.some.injEq] at hc₂
        rw [← hc₁, ← hc₂]
    · intro hnf hsync
      rcases hdrop.kind with ⟨-, hfree, -⟩ | ⟨-, hnode, ho, -⟩
      · exact absurd hfree hnf
      · have hcur := hsync hlive
        rw [Vol.cur_cached hc] at hcur
        rw [ho, hnode, hcur]
        rfl
    · intro hnone
      rcases hdrop.kind with ⟨-, hfree, -⟩ | ⟨-, -, ho, -⟩
      · exact hfree
      · rw [ho] at hnone
        cases hnone
  have hleft : ∀ x, Listed u.dentryHash x → x ≠ d := by
    rintro x ⟨l, hl⟩ rfl
    change update s.dentryHash (some q, nm) none l = some x at hl
    by_cases hll : l = (some q, nm)
    · rw [hll, update_self] at hl
      cases hl
    · rw [update_of_ne hll] at hl
      exact hll (h.cache.named.inj hl hkey)
  have hback : ∀ y j, t.vinode y = some j → ∃ j', s.vinode y = some j' ∧ j'.tag = j.tag := by
    intro y j hj
    by_cases hy : y < s.next
    · have htag' := hsame.tag y hy
      rw [hj, Option.map_some] at htag'
      exact Option.map_eq_some_iff.mp htag'.symm
    · rw [hbeyond y (by omega)] at hj
      exact ⟨j, hj, rfl⟩
  have hfollows : ∀ {w : Vfs}, w.dentry = u.dentry → w.dentryHash = u.dentryHash → w.file = u.file →
      (∀ y ≠ v, w.vinode y = t.vinode y) → (∀ j, w.vinode v = some j → j.mark = i.mark) →
      Sound w (V.remove m j k new o used) → Kept own s V w := by
    intro w hd ht hf hv hv' hw
    refine ⟨_, hw, .file k hlive hfile, hkeeps, ?_, .same (hf.trans hsame.file)⟩
    intro x _ hx
    refine (Cache.Marked.num (s := w) (t := s) ?_ hw.cache hx ?_).symm
    · intro y j hj
      by_cases hy : y = v
      · subst hy
        exact ⟨i, hi, (hv' j hj).symm⟩
      · rw [hv y hy] at hj
        obtain ⟨j', hj', htag'⟩ := hback y j hj
        exact ⟨j', hj', (Cache.mark_of_tag htag').1⟩
    · rw [hd]
      exact (update_of_ne (hleft x (ht ▸ hx)) _ _).symm
  rcases hcase with ⟨hzero, hx, ho⟩ | ⟨hmore, hx⟩
  · have hone : i.ref = 1 := by
      have hlinks := h.ok.tree.links k hlive hk0
      rcases hdrop.kind with ⟨hnl, -⟩ | ⟨-, -, ho', -⟩
      · refine h.ref_one ?_ hkey hq hqm hm hent he hev hi hsb hin hheld
        omega
      · rw [ho] at ho'
        cases ho'
    have hdone : forget d v t = .done () { u with
        vinode := update u.vinode v none, vinodeHash := update s.vinodeHash (.rfs, (k : ℤ)) none } := by
      have hin₂ : ({ i' with ref := i'.ref + -1 } : Vinode).inum = k := hin'.trans hin
      rw [hforget, if_pos hzero, if_neg (by rw [href, hone]; decide), bind_done (hashEraseVinode_eq hvu hin₂), freeVinode_eq]
      dsimp only
      rw [hsb', hsb, hsame.vinodeHash]
    refine safe_bind_done hdone (safe_pure (hfollows rfl rfl rfl ?_ ?_ ⟨?_, hok, ?_⟩))
    · exact fun y hy => (update_of_ne hy _ _).trans (hother y hy)
    · intro j hj
      change update u.vinode v none v = some j at hj
      rw [update_self] at hj
      cases hj
    · rw [held_update (s := s) (o := none) (k := k) rfl, ← hx]
      refine hshows.congr rfl rfl rfl ?_
      intro n y hy j hj
      have hyv : y ≠ v := by
        rintro rfl
        by_cases hnk : n = k
        · rw [hnk, update_self, hx] at hy
          cases hy
        · rw [update_of_ne hnk] at hy
          exact hnk (h.shown.held_inj hy hheld)
      exact ⟨j, (update_of_ne hyv _ _).trans ((hother y hyv).trans hj), rfl, rfl, rfl⟩
    · refine h.cache.leave (i := i) hN hcwd hkey he hev hn hnodir (h.cache.not_used he hz) hi rfl rfl hsame.file hsame.root
        hsame.cwd hnext ?_ ?_ (.inr ⟨hone, rfl⟩)
      · intro y j hy hj
        obtain ⟨j', hj', htag'⟩ := htags y j hj
        exact ⟨j', (update_of_ne hy _ _).trans ((hother y hy).trans hj'), htag'⟩
      · intro y hy
        change t.next ≤ y at hy
        rw [hnext] at hy
        refine (update_of_ne (by omega) _ _).trans ((hother y (by omega)).trans ((hbeyond y hy).trans ?_))
        exact (h.cache.below y hy).2.1
  · have hdone : forget d v t = .done () u := by
      rw [hforget, if_neg hmore]
      rfl
    refine safe_bind_done hdone (safe_pure (hfollows rfl rfl rfl hother ?_ ⟨?_, hok, ?_⟩))
    · intro j hj
      rw [hvu, Option.some.injEq] at hj
      exact hj ▸ hmark
    · have hheld' : u.held = s.held := by
        funext n
        rw [Vfs.held, Vfs.held]
        change t.vinodeHash _ = _
        rw [hsame.vinodeHash]
      rw [hx, Shows.update_held hheld] at hshows
      rw [hheld']
      refine hshows.congr rfl rfl rfl ?_
      intro n y _ j hj
      by_cases hyv : y = v
      · subst hyv
        rw [hi', Option.some.injEq] at hj
        subst hj
        exact ⟨_, hvu, rfl, rfl, rfl⟩
      · exact ⟨j, (hother y hyv).trans hj, rfl, rfl, rfl⟩
    · refine h.cache.leave (i := i) hN hcwd hkey he hev hn hnodir (h.cache.not_used he hz) hi rfl rfl hsame.file hsame.root
        hsame.cwd hnext ?_ ?_ (.inl ⟨hsame.vinodeHash, _, hvu, hmark, hinfo, ?_⟩)
      · intro y j hy hj
        obtain ⟨j', hj', htag'⟩ := htags y j hj
        exact ⟨j', (hother y hy).trans hj', htag'⟩
      · intro y hy
        change t.next ≤ y at hy
        rw [hnext] at hy
        exact (hother y (by omega)).trans ((hbeyond y hy).trans (h.cache.below y hy).2.1)
      · change i'.ref + -1 = i.ref - 1
        rw [href]
        rfl

lemma vfsUnlink_safe (h : Sound s V) {rest : Name} {adds : Bool} (hon : s.OnRam V adds (s.start p path) q rest) :
    safe (maxPathLen ≤ rest.length) (vfsUnlink p path) (fun _ => Kept own s V) (Kept own s V) s := by
  obtain ⟨hstart, hbase⟩ := h.startOf_eq p path
  rw [vfsUnlink]
  refine safe_bind_done hstart (safe_bind ?_)
  refine safe_mono (h.final hbase hon) ?_ (fun _ hf => hf.elim)
  rintro r t ⟨-, W, hlook, hfound⟩
  have ht := hlook.sound
  cases hd : r.dentry with
  | none => exact hlook.kept
  | some d =>
    cases hfound with
    | miss q' m tok hd' =>
      rw [hd] at hd'
      cases hd'
    | hit d' hd' hl hparent =>
      rw [hd, Option.some.injEq] at hd'
      subst hd'
      obtain ⟨e, v, i, he, hev, hi, hcase⟩ := ht.listed hl
      refine safe_bind_done (getDentry_eq he) (safe_bind_done (inodeOf_eq he hev) (safe_bind_done (getVinode_eq hi) ?_))
      by_cases htype : i.type ≠ fileI
      · rw [if_pos htype]
        exact hlook.kept
      · rw [if_neg htype]
        rw [not_not] at htype
        by_cases hopen : 0 < e.dRef
        · rw [if_pos hopen]
          exact hlook.kept
        · rw [if_neg hopen]
          have hz : e.dRef = 0 := le_antisymm (not_lt.mp hopen) (ht.cache.opens d e he).nonneg
          rcases hcase with ⟨-, -, hdir⟩ | ⟨hroot, -, n, hn, -, -, -, hkind, -⟩
          · exact absurd (htype.symm.trans hdir) (by decide)
          · have hfile : (W.node n).type = fileI := hkind.symm.trans htype
            have hnodir : ¬ W.IsDir n := fun hdir => absurd (hfile.symm.trans hdir.2) (by decide)
            obtain ⟨q', nm, hp, hkey⟩ := hparent.resolve_right fun hdir => hnodir (hdir n hn)
            have hname : e.name = nm := by
              obtain ⟨e', v', i', he', -, -, -, -, -, hkey'⟩ := ht.cache.ram hl hn
              rw [he, Option.some.injEq] at he'
              subst he'
              exact congrArg Prod.snd (ht.cache.named.inj hkey' hkey)
            rcases ht.cache.named.child hkey with ⟨rfl, rfl⟩ | ⟨m, n', hq, hqm, hm, hn', hent⟩
            · obtain ⟨x, hx, hnum⟩ := ht.cache.named.mount
              rw [hkey, Option.some.injEq] at hx
              subst hx
              rw [hn, Option.some.injEq] at hnum
              rw [hnum] at hnodir
              exact absurd ⟨by norm_num, ht.ok.tree.root⟩ hnodir
            · rw [hn, Option.some.injEq] at hn'
              subst hn'
              rw [hp, hname]
              exact safe_mono
                (ht.removeLink_safe hkey hq hqm hm hn hent (ht.shown.dir_string hm hent) he hz hev hfile)
                (fun _ _ hk => hk.after hlook) (fun _ hf => hf.elim)

end Sound

end Pke.Files
