import Pke.Files.Walks
import Pke.Files.Follows
import Pke.Files.ShownLinks

namespace Pke.Files

open Lib Flow Function

namespace Sound

variable {own : Scope} {s t : Vfs} {V W : Vol} {d f k m n p q v : ℕ} {nm path : Name} {e : Dentry} {i : Vinode} {F : File}

lemma not_listed (h : Sound s V) (hqm : s.num q = some m) (hno : nm ∉ (V.dir m).map Prod.fst) :
    s.dentryHash (some q, nm) = none := by
  cases hkey : s.dentryHash (some q, nm) with
  | none => rfl
  | some d =>
    have hne : q ≠ s.root := by
      rintro rfl
      rw [h.cache.named.host] at hqm
      cases hqm
    obtain ⟨m', n, -, hqm', -, -, hent⟩ := (h.cache.named.child hkey).resolve_left fun hr => hne hr.1
    rw [hqm, Option.some.injEq] at hqm'
    subst hqm'
    exact absurd (List.mem_map_of_mem (f := Prod.fst) hent) hno

lemma held_live (h : Sound s V) (hv : s.held n = some v) : n ∈ V.live := by
  obtain ⟨i, -, -, -, hc, -⟩ := h.shown.held n v hv
  exact (h.ok.tree.cached n _ hc).1

lemma num_live (h : Sound s V) (hd : Listed s.dentryHash d) (hn : s.num d = some n) : n ∈ V.live := by
  obtain ⟨-, v, -, -, -, -, -, -, hhash, -⟩ := h.cache.ram hd hn
  exact h.held_live hhash

lemma named_append (h : Sound s V) (hm : V.IsDir m) (hk : k < ninodes) (htype : (V.node k).type ≠ dirI)
    {new : Dinode} {used : Set ℤ}
    (hnew : (V.node k).type ≠ rFree → new.type ≠ dirI) :
    Named s.dentryHash s.num s.root (V.append m nm k new used) ∧
      ∀ p n, s.num (s.cwd p) = some n → (V.append m nm k new used).IsDir n := by
  have hdiff : Vol.Differs V (V.append m nm k new used) m k := Vol.relist_differs hm hk htype
  have hnode : (V.append m nm k new used).node k = new := Vol.relist_node_self hdiff.ne
  have hisdir : ∀ {n}, V.IsDir n → (V.append m nm k new used).IsDir n := by
    intro n hn
    have hnk : n ≠ k := by
      rintro rfl
      exact htype hn.2
    exact ⟨hn.1, (hdiff.type_eq hnk).trans hn.2⟩
  refine ⟨h.cache.named.revolume ?_ ?_, fun p n hn => hisdir ((h.cache.cwd p).2 n hn)⟩
  · intro q' nm' d' m' n' hkey hq' hd' hdir hent
    refine ⟨hisdir hdir, ?_⟩
    by_cases hmm : m' = m
    · subst hmm
      have hlist : (V.append m' nm k new used).dir m' = V.dir m' ++ [(nm, (k : ℤ))] := Vol.relist_dir_self
      rw [hlist]
      exact List.mem_append_left _ hent
    · have hmk : m' ≠ k := by
        rintro rfl
        exact htype hdir.2
      rw [(hdiff.other m' hmm hmk).2.2]
      exact hent
  · intro d' n' hl hn' hdir
    have hlive := h.num_live hl hn'
    by_cases hnk : n' = k
    · subst hnk
      rw [Vol.IsDir, hnode] at hdir
      exact absurd hdir.2 (hnew hlive.2)
    · exact ⟨hdir.1, (hdiff.type_eq hnk).symm.trans hdir.2⟩

def withDentry (s : Vfs) (nm : Name) (q : ℕ) : Vfs :=
  { s with dentry := update s.dentry s.next (some ⟨nm, 0, none, some q⟩), next := s.next + 1 }

lemma shown_withDentry (h : Sound s V) : Shows (withDentry s nm q) s.held V :=
  h.shown.congr rfl rfl rfl fun _ _ _ i hi => ⟨i, hi, rfl, rfl, rfl⟩

lemma publish_eq (h : Sound s V) (hq : Listed s.dentryHash q) (hqm : s.num q = some m) (hm : V.IsDir m)
    (hno : nm ∉ (V.dir m).map Prod.fst) (hlen : (V.dir m).length < 128) (hnm : nm.length < 28) {type : ℤ}
    {new : Dinode} {b : ℤ} (hmade : Shows.Made (withDentry s nm q) s.held V m nm type t k new b) :
    ∃ u W, publish s.next (s.next + 1) t = .done () u ∧ Follows own s V u W ∧
      u.dentryHash (some q, nm) = some s.next ∧ u.file = s.file := by
  have hc := h.cache
  have hkey := h.not_listed hqm hno
  have hdead : k ∉ V.live := fun hl => hl.2 hmade.free
  have hheld : s.held k = none := by
    cases hv : s.held k with
    | none => rfl
    | some v => exact absurd (h.held_live hv) hdead
  have hok : (V.append m nm k new (insert b V.used)).Ok :=
    h.ok.make hm hlen hnm hno hmade.lt hmade.free hmade.fresh hmade.unused hmade.range
  have htype : (V.node k).type ≠ dirI := by rw [hmade.free]; decide
  have hdiff : Vol.Differs V (V.append m nm k new (insert b V.used)) m k := Vol.relist_differs hm hmade.lt htype
  obtain ⟨hN, hcwd⟩ := h.named_append hm hmade.lt htype
    (fun hne => absurd hmade.free hne)
  have hdentry : t.dentry = update s.dentry s.next (some ⟨nm, 0, none, some q⟩) := hmade.same.dentry
  have hvt : t.vinode (s.next + 1) = some ⟨new, k, 0, .null, .rfs⟩ := hmade.vinode
  have hnext : t.next = s.next + 2 := hmade.next
  have htable : t.dentryHash = s.dentryHash := hmade.same.dentryHash
  have hhash : t.vinodeHash = s.vinodeHash := hmade.same.vinodeHash
  have htags : ∀ x j, s.vinode x = some j → ∃ j', t.vinode x = some j' ∧ j'.tag = j.tag := by
    intro x j hj
    have hlt := hc.vinode_lt hj
    have htag := hmade.same.tag x (by change x < s.next + 1; omega)
    change (t.vinode x).map Vinode.tag = (s.vinode x).map Vinode.tag at htag
    rw [hj, Option.map_some] at htag
    exact Option.map_eq_some_iff.mp htag
  let u : Vfs := { t with
    dentry := update s.dentry s.next (some ⟨nm, 0, some (s.next + 1), some q⟩)
    vinode := update t.vinode (s.next + 1) (some ⟨new, k, 1, .null, .rfs⟩)
    dentryHash := update s.dentryHash (some q, nm) (some s.next)
    vinodeHash := update s.vinodeHash (.rfs, (k : ℤ)) (some (s.next + 1)) }
  have hval : publish s.next (s.next + 1) t = .done () u := by
    have hhash' : t.vinodeHash (.rfs, (k : ℤ)) = none := by rw [hhash]; exact hheld
    rw [publish, bind_done (setInode_eq (e := ⟨nm, 0, none, some q⟩) (by rw [hdentry, update_self])),
      bind_done (addRef_eq (i := ⟨new, k, 0, .null, .rfs⟩) (by exact hvt)),
      bind_done (hashPutDentry_eq (e := ⟨nm, 0, some (s.next + 1), some q⟩) (update_self _ _ _)
        (by change t.dentryHash _ = none; rw [htable]; exact hkey)),
      hashPutVinode_eq (n := k) (update_self _ _ _) rfl (by exact hhash')]
    dsimp only
    rw [hdentry, update_idem, htable, hhash]
    rfl
  have hcache : Cache u (V.append m nm k new (insert b V.used)) := by
    refine hc.enter (d := s.next) (v := s.next + 1) (n := k) hok.tree hN hcwd hkey hq hqm hdiff.isDir' ?_ le_rfl ?_ rfl rfl
      hmade.same.file hmade.same.root hmade.same.cwd (update_self _ _ _) rfl rfl (update_self _ _ _) ?_ ?_ ?_ ?_ ?_ ?_
    · have hlist : (V.append m nm k new (insert b V.used)).dir m = V.dir m ++ [(nm, (k : ℤ))] := Vol.relist_dir_self
      rw [hlist]
      exact List.mem_append_right _ (List.mem_singleton_self _)
    · change s.next < t.next
      omega
    · intro l x hx
      have hne : l ≠ (.rfs, (k : ℤ)) := by
        rintro rfl
        rw [Vfs.held] at hheld
        rw [hheld] at hx
        cases hx
      exact (update_of_ne hne _ _).trans hx
    · intro l x hx
      change update s.vinodeHash (.rfs, (k : ℤ)) (some (s.next + 1)) l = some x at hx
      by_cases hl : l = (.rfs, (k : ℤ))
      · rw [hl, update_self, Option.some.injEq] at hx
        exact .inr ⟨hl, hx.symm⟩
      · rw [update_of_ne hl] at hx
        exact .inl hx
    · intro x j hx hj
      obtain ⟨j', hj', htag⟩ := htags x j hj
      exact ⟨j', (update_of_ne hx _ _).trans hj', htag⟩
    · intro j hj
      rw [(hc.below (s.next + 1) (by omega)).2.1] at hj
      cases hj
    · change Tally s.inodeUse (s.next + 1) (1 - 1)
      rw [sub_self]
      exact hc.unused_inode (by omega)
    · intro x hx
      change t.next ≤ x at hx
      refine (update_of_ne (by omega) _ _).trans ?_
      rw [hmade.others x (by change s.next + 1 < x; omega)]
      exact (hc.below x (by omega)).2.1
  have hshown : Shows u u.held (V.append m nm k new (insert b V.used)) := by
    rw [held_update (s := s) (o := some (s.next + 1)) (k := k) rfl]
    refine hmade.shows'.congr rfl rfl rfl ?_
    intro n x _ j hj
    by_cases hx : x = s.next + 1
    · subst hx
      rw [hvt, Option.some.injEq] at hj
      subst hj
      exact ⟨_, update_self _ _ _, rfl, rfl, rfl⟩
    · exact ⟨j, (update_of_ne hx _ _).trans hj, rfl, rfl, rfl⟩
  refine ⟨u, _, hval, ⟨⟨hshown, hok, hcache⟩, ?_, ?_, ?_, .same hmade.same.file⟩, update_self _ _ _, hmade.same.file⟩
  · refine .makes k new b hdead hmade.lt hmade.fresh hmade.unused rfl (Vol.relist_node_self hdiff.ne)
      (Vol.relist_cur_self hdiff.ne) (fun n hn => hdiff.type_eq hn) ?_
    intro n hn
    by_cases hnm : n = m
    · subst hnm
      rw [hok.tree.cur_dir hdiff.isDir', h.ok.tree.cur_dir hm, hdiff.node]
      exact ⟨rfl, rfl⟩
    · rw [Vol.cur, Vol.cur, (hdiff.other n hnm hn).1, (hdiff.other n hnm hn).2.1]
      exact ⟨rfl, rfl⟩
  · refine .relist h.ok.tree hm hmade.lt htype (fun hlive => absurd hlive hdead) ?_ ?_ ?_ (fun _ _ => rfl) (by simp)
    · intro _ _ i b' hb'
      exact absurd hb'.1 hdead
    · intro b' hb'
      refine ⟨Set.mem_insert_of_mem _ hb'.1, ?_⟩
      intro _ i hi
      rcases hmade.fresh.kind with ⟨-, hblocks⟩ | ⟨-, hblocks⟩
      · rw [Option.getD_some, hblocks] at hi
        omega
      · rw [Option.getD_some, hblocks] at hi
        have hi0 : i = 0 := Fin.ext (by change (i : ℕ) = 0; omega)
        rw [Option.getD_some, hi0, hmade.fresh.block]
        rintro rfl
        exact hmade.unused hb'.1
    · intro c c' hfile
      exact absurd (hfile.symm.trans hmade.free) (by decide)
  · intro x hx _
    have hlt := hc.listed_lt hx
    refine Cache.Marked.num ?_ hc hx (update_of_ne (by omega) _ _)
    intro y j hj
    have hy := hc.vinode_lt hj
    obtain ⟨j', hj', htag⟩ := htags y j hj
    exact ⟨j', (update_of_ne (by omega) _ _).trans hj', (Cache.mark_of_tag htag).1⟩

lemma getBaseName_eq (hne : tokens path ≠ []) : ∃ b, getBaseName path s = .done b s := by
  rw [getBaseName, List.getLast?_eq_getLast_of_ne_nil hne]
  exact ⟨_, rfl⟩

lemma kept_spare (h : Sound s V) (io : ℕ → UInt8) : Kept own s V { withDentry s nm q with iobuffer := io } := by
  refine SameNames.kept ⟨⟨?_, h.ok, h.cache.spare rfl io⟩, rfl, ?_, .same rfl⟩
  · exact h.shown.congr rfl rfl rfl fun _ _ _ i hi => ⟨i, hi, rfl, rfl, rfl⟩
  · intro x hx
    have hlt := h.cache.listed_lt hx
    exact Cache.num_congr (update_of_ne (by omega) _ _) fun _ _ _ _ => rfl

lemma make_safe (h : Sound s V) {l : Lookup} (hfound : Found s V true l) (hnone : l.dentry = none)
    (hne : tokens path ≠ []) {U : Prop} {α : Type} (make : ℕ → ℕ → Name → Flow Vfs (Option ℕ)) (type : ℤ)
    {no : Flow Vfs α} {rest : ℕ → Option ℕ → Flow Vfs α} (yes : Flow Vfs α) {Q : α → Vfs → Prop}
    (hmake : ∀ {q m v nm}, Listed s.dentryHash q → s.num q = some m → V.IsDir m → s.held m = some v →
      nm ∉ (V.dir m).map Prod.fst → (V.dir m).length < 128 → nm.length < 28 → (0 : UInt8) ∉ nm →
      (∃ io, make v s.next nm (withDentry s nm q) = .left { withDentry s nm q with iobuffer := io }) ∨
        ∃ t k new b, make v s.next nm (withDentry s nm q) = .done (some (s.next + 1)) t ∧
          Shows.Made (withDentry s nm q) s.held V m nm type t k new b)
    (hno : safe U no Q (Kept own s V) s)
    (hrest : rest s.next (some (s.next + 1)) = do publish s.next (s.next + 1); yes)
    (hyes : ∀ t W nm q, Follows own s V t W → t.dentryHash (some q, nm) = some s.next → t.file = s.file →
      safe U yes Q (Kept own s V) t) :
    safe U (do
      let base ← getBaseName path
      if ← missedLast l base then do
        let d ← allocVfsDentry base none l.parent
        rest d (← make (← inodeOf (← deref l.parent)) d base)
      else no) Q (Kept own s V) s := by
  cases hfound with
  | hit d hd =>
    rw [hd] at hnone
    cases hnone
  | miss q m tok hd hmiss hp hl hqm hdir hnm hstr hlen hroom =>
    obtain ⟨base, hbase⟩ := getBaseName_eq (s := s) hne
    refine safe_bind_done hbase ?_
    have hmissed : missedLast l base s = .done (tok == base) s := by
      rw [missedLast, hmiss]
      rfl
    refine safe_bind_done hmissed ?_
    by_cases heq : (tok == base) = true
    · rw [if_pos heq]
      rw [beq_iff_eq] at heq
      subst heq
      rw [hp]
      obtain ⟨e, v, i, he, hev, hi, -, hsb, hhash, -⟩ := h.cache.ram hl hqm
      have hqlt := h.cache.listed_lt hl
      refine safe_bind_done allocVfsDentry_eq ?_
      change safe U (inodeOf q >>= _) Q (Kept own s V) (withDentry s tok q)
      refine safe_bind_done (inodeOf_eq (s := withDentry s tok q) (e := e)
        ((update_of_ne (by omega) _ _).trans he) hev) ?_
      rcases hmake hl hqm hdir hhash hnm (hroom rfl) hlen hstr with ⟨io, hleft⟩ | ⟨t, k, new, b, hdone, hmade⟩
      · exact safe_bind (safe_left hleft (h.kept_spare io))
      · refine safe_bind_done hdone ?_
        obtain ⟨u, W, hu, hfollows, hkey, hfile⟩ := h.publish_eq hl hqm hdir hnm (hroom rfl) hlen hmade
        rw [hrest]
        exact safe_bind_done hu (hyes u W tok q hfollows hkey hfile)
    · rw [if_neg heq]
      exact hno

lemma viopCreate_eq (hi : s.vinode v = some i) (hsb : i.sb = .rfs) : viopCreate v d nm s = rfsCreate v nm s := by
  rw [viopCreate, bind_done (getVinode_eq hi), hsb]

lemma viopMkdir_eq (hi : s.vinode v = some i) (hsb : i.sb = .rfs) : viopMkdir v nm s = rfsMkdir v nm s := by
  rw [viopMkdir, bind_done (getVinode_eq hi), hsb]

lemma viopLink_eq (hi : s.vinode v = some i) (hsb : i.sb = .rfs) : viopLink v nm n s = rfsLink v nm n s := by
  rw [viopLink, bind_done (getVinode_eq hi), hsb]

lemma viopUnlink_eq (hi : s.vinode v = some i) (hsb : i.sb = .rfs) : viopUnlink v nm n s = rfsUnlink v nm n s := by
  rw [viopUnlink, bind_done (getVinode_eq hi), hsb]

lemma held_below (h : Sound s V) : ∀ n x, s.held n = some x → x < (withDentry s nm q).next := by
  intro n x hx
  have hlt := h.cache.held_lt n x hx
  change x < s.next + 1
  omega

lemma createFile_safe (h : Sound s V) {l : Lookup} (hfound : Found s V true l) (hnone : l.dentry = none)
    (hne : tokens path ≠ []) {U : Prop} : safe U (createFile l path)
      (fun r t => (r = none → Kept own s V t) ∧
        ∀ d, r = some d → ∃ W, Follows own s V t W ∧ t.file = s.file ∧ Listed t.dentryHash d)
      (Kept own s V) s := by
  refine h.make_safe hfound hnone hne viopCreate fileI (pure (some s.next)) ?_ ?_ rfl ?_
  · intro q m v nm hl hqm hdir hv hnm hroom hlen hstr
    obtain ⟨i, hi, -, hsb, -⟩ := h.shown.held m v hv
    rw [viopCreate_eq (s := withDentry s nm q) hi hsb]
    exact h.shown_withDentry.create h.ok hdir hv hroom hlen hstr h.held_below
  · exact ⟨fun _ => h.kept, nofun⟩
  · intro t W nm q hfollows hkey hfile
    refine safe_pure ⟨nofun, ?_⟩
    rintro d ⟨⟩
    exact ⟨W, hfollows, hfile, _, hkey⟩

lemma makeDir_safe (h : Sound s V) {l : Lookup} (hfound : Found s V true l) (hnone : l.dentry = none)
    (hne : tokens path ≠ []) {U : Prop} : safe U (makeDir l path) (fun _ => Kept own s V) (Kept own s V) s := by
  refine h.make_safe hfound hnone hne (fun v _ nm => viopMkdir v nm) dirI (pure 0) ?_ ?_ rfl ?_
  · intro q m v nm hl hqm hdir hv hnm hroom hlen hstr
    obtain ⟨i, hi, -, hsb, -⟩ := h.shown.held m v hv
    rw [viopMkdir_eq (s := withDentry s nm q) hi hsb]
    exact h.shown_withDentry.mkdir h.ok hdir hv hroom hlen hstr h.held_below
  · exact h.kept
  · intro t W nm q hfollows _ _
    exact ⟨W, hfollows⟩

end Sound

end Pke.Files
