import Pke.Files.Cache

namespace Pke.Files

open Lib Flow Function

def Dentry.core (e : Dentry) : Name × Option ℕ × Option ℕ := (e.name, e.inode, e.parent)

namespace Cache

variable {s t : Vfs} {V W : Vol} {d f n m q v : ℕ} {e : Dentry} {i : Vinode} {F : File} {nm : Name}

lemma core_update (he : s.dentry d = some e) (z : ℤ) (x : ℕ) :
    (update s.dentry d (some { e with dRef := z }) x).map Dentry.core = (s.dentry x).map Dentry.core := by
  by_cases hx : x = d
  · rw [hx, update_self, he]
    rfl
  · rw [update_of_ne hx]

lemma num_core (hc : Cache s V)
    (hdentry : ∀ x, Listed s.dentryHash x → (t.dentry x).map Dentry.core = (s.dentry x).map Dentry.core)
    (hvin : Marked s t) (hd : Listed s.dentryHash d) : t.num d = s.num d := by
  have hx := hdentry d hd
  obtain ⟨k, hk⟩ := hd
  obtain ⟨e, v, i, he, -, hev, hi, -⟩ := hc.key k d hk
  rw [he, Option.map_some] at hx
  obtain ⟨e', he', hee⟩ := Option.map_eq_some_iff.mp hx
  obtain ⟨j, hj, hji⟩ := hvin v i hi
  have hev' : e'.inode = some v := (congrArg (fun x : Name × Option ℕ × Option ℕ => x.2.1) hee).trans hev
  have hin : j.inum = i.inum := congrArg (fun x : ℤ × ℤ × FsType => x.2.1) hji
  have hsb : j.sb = i.sb := congrArg (fun x : ℤ × ℤ × FsType => x.2.2) hji
  rw [num_eq he hev hi, num_eq he' hev' hj, hin, hsb]

lemma refile (hc : Cache s V) (htable : t.dentryHash = s.dentryHash) (hhash : t.vinodeHash = s.vinodeHash)
    (hroot : t.root = s.root)
    (hdentry : ∀ x, Listed s.dentryHash x → (t.dentry x).map Dentry.core = (s.dentry x).map Dentry.core)
    (hvin : ∀ x j, s.vinode x = some j → ∃ j', t.vinode x = some j' ∧ j'.mark = j.mark ∧ j'.ref = j.ref)
    (hopens : ∀ d e, t.dentry d = some e → Tally t.fileUse d e.dRef)
    (hopened : ∀ f F, t.file f = some F → F.opened = true → Listed s.dentryHash F.dentry ∧ 0 ≤ F.offset ∧
      ∀ e v i, t.dentry F.dentry = some e → e.inode = some v → t.vinode v = some i → i.DirCached)
    (hbelow : ∀ x, t.next ≤ x → t.dentry x = none ∧ t.vinode x = none ∧ t.file x = none)
    (hcwd : ∀ p, Listed s.dentryHash (t.cwd p) ∧ ∀ n, s.num (t.cwd p) = some n → V.IsDir n) : Cache t V := by
  have hcore : ∀ {k x e}, s.dentryHash k = some x → s.dentry x = some e →
      ∃ e', t.dentry x = some e' ∧ e'.core = e.core := by
    intro k x e hk he
    have hx := hdentry x ⟨k, hk⟩
    rw [he, Option.map_some] at hx
    exact Option.map_eq_some_iff.mp hx
  have hmark : Marked s t := fun x j hj =>
    let ⟨j', hj', hm, _⟩ := hvin x j hj
    ⟨j', hj', hm⟩
  have hnum : ∀ d, Listed s.dentryHash d → t.num d = s.num d := fun d hd => hc.num_core hdentry hmark hd
  have huse : t.inodeUse = s.inodeUse := by
    funext k
    rw [Vfs.inodeUse, Vfs.inodeUse, htable]
    cases hk : s.dentryHash k with
    | none => rfl
    | some d =>
      obtain ⟨e, v, i, he, -⟩ := hc.key k d hk
      obtain ⟨e', he', hee⟩ := hcore hk he
      rw [Option.bind_some, Option.bind_some, he, he']
      exact congrArg (fun x : Name × Option ℕ × Option ℕ => x.2.1) hee
  refine ⟨?_, ?_, ?_, ?_, hopens, ?_, hbelow, ?_⟩
  · rw [htable, hroot]
    exact hc.named.renum hnum
  · intro k d hk
    rw [htable] at hk
    obtain ⟨e, v, i, he, hkey, hev, hi, hcase⟩ := hc.key k d hk
    obtain ⟨e', he', hee⟩ := hcore hk he
    obtain ⟨j, hj, hji, -⟩ := hvin v i hi
    have hname : e'.name = e.name := congrArg (fun x : Name × Option ℕ × Option ℕ => x.1) hee
    have hev' : e'.inode = some v := (congrArg (fun x : Name × Option ℕ × Option ℕ => x.2.1) hee).trans hev
    have hpar : e'.parent = e.parent := congrArg (fun x : Name × Option ℕ × Option ℕ => x.2.2) hee
    have htype : j.type = i.type := congrArg (fun x : ℤ × ℤ × FsType => x.1) hji
    have hin : j.inum = i.inum := congrArg (fun x : ℤ × ℤ × FsType => x.2.1) hji
    have hsb : j.sb = i.sb := congrArg (fun x : ℤ × ℤ × FsType => x.2.2) hji
    refine ⟨e', v, j, he', by rw [hname, hpar, hkey], hev', hj, ?_⟩
    rw [hsb, htype, hin, hroot, hhash]
    exact hcase
  · intro k v hk
    rw [hhash] at hk
    obtain ⟨n, hkn, i, hi, hin, hsb⟩ := hc.inodes k v hk
    obtain ⟨j, hj, hji, -⟩ := hvin v i hi
    have hin' : j.inum = i.inum := congrArg (fun x : ℤ × ℤ × FsType => x.2.1) hji
    have hsb' : j.sb = i.sb := congrArg (fun x : ℤ × ℤ × FsType => x.2.2) hji
    exact ⟨n, hkn, j, hj, hin'.trans hin, hsb'.trans hsb⟩
  · intro k v j hk hj
    rw [hhash] at hk
    obtain ⟨n, -, i, hi, -⟩ := hc.inodes k v hk
    obtain ⟨j', hj', -, href⟩ := hvin v i hi
    rw [hj, Option.some.injEq] at hj'
    subst hj'
    rw [href, huse]
    exact hc.refs k v i hk hi
  · intro f F hF ho
    rw [htable]
    exact hopened f F hF ho
  · intro p
    obtain ⟨hl, hdir⟩ := hcwd p
    rw [htable]
    refine ⟨hl, ?_⟩
    intro n hn
    rw [hnum _ hl] at hn
    exact hdir n hn

lemma openFile (hc : Cache s V) (hd : Listed s.dentryHash d) (he : s.dentry d = some e) (hf : s.next ≤ f)
    (hfn : f < t.next) {r w : Bool} (hfile : t.file = update s.file f (some ⟨true, r, w, 0, d⟩))
    (hdentry : t.dentry = update s.dentry d (some { e with dRef := e.dRef + 1 })) (htable : t.dentryHash = s.dentryHash)
    (hhash : t.vinodeHash = s.vinodeHash) (hroot : t.root = s.root) (hcwd : t.cwd = s.cwd)
    (hvin : ∀ x j, s.vinode x = some j → ∃ j', t.vinode x = some j' ∧ j'.mark = j.mark ∧ j'.ref = j.ref ∧
      (j.DirCached → j'.DirCached))
    (hdir : ∀ v j, e.inode = some v → t.vinode v = some j → j.DirCached)
    (hbeyond : ∀ x, t.next ≤ x → t.vinode x = none) : Cache t V := by
  have hdlt := hc.dentry_lt he
  have hdent : ∀ x, x ≠ d → t.dentry x = s.dentry x := fun x hx => by rw [hdentry, update_of_ne hx]
  have hdd : t.dentry d = some { e with dRef := e.dRef + 1 } := by rw [hdentry, update_self]
  have huse : ∀ x, x ≠ f → t.fileUse x = s.fileUse x := fun x hx => by
    rw [Vfs.fileUse, Vfs.fileUse, hfile, update_of_ne hx]
  have huseold : s.fileUse f = none := by
    rw [Vfs.fileUse, (hc.below f hf).2.2]
    rfl
  have husenew : t.fileUse f = some d := by
    rw [Vfs.fileUse, hfile, update_self]
    rfl
  refine hc.refile htable hhash hroot ?_ ?_ ?_ ?_ ?_ ?_
  · intro x _
    by_cases hx : x = d
    · rw [hx, hdd, he]
      rfl
    · rw [hdent x hx]
  · intro x j hj
    obtain ⟨j', hj', hm, hr, -⟩ := hvin x j hj
    exact ⟨j', hj', hm, hr⟩
  · intro x e' he'
    by_cases hx : x = d
    · rw [hx, hdd, Option.some.injEq] at he'
      subst he'
      rw [hx]
      exact (hc.opens d e he).gain (h := f) (by simp [huseold]) husenew (fun y hy => by rw [huse y hy])
    · rw [hdent x hx] at he'
      refine (hc.opens x e' he').congr ?_
      intro y
      by_cases hy : y = f
      · rw [hy, husenew, huseold]
        exact iff_of_false (fun h => hx (Option.some.inj h).symm) (by simp)
      · rw [huse y hy]
  · intro x G hG ho
    by_cases hx : x = f
    · rw [hx, hfile, update_self, Option.some.injEq] at hG
      subst hG
      refine ⟨hd, le_rfl, ?_⟩
      intro e' v j he' hev hj
      change t.dentry d = some e' at he'
      rw [hdd, Option.some.injEq] at he'
      subst he'
      exact hdir v j hev hj
    · rw [hfile, update_of_ne hx] at hG
      obtain ⟨hl, hoff, hdirs⟩ := hc.opened x G hG ho
      refine ⟨hl, hoff, ?_⟩
      intro e' v j he' hev hj
      obtain ⟨k, hk⟩ := hl
      obtain ⟨e₀, v₀, i₀, he₀, -, hev₀, hi₀, -⟩ := hc.key k _ hk
      have hev' : e₀.inode = some v := by
        by_cases hGd : G.dentry = d
        · rw [hGd, hdd, Option.some.injEq] at he'
          rw [hGd, he, Option.some.injEq] at he₀
          rw [← he₀]
          rw [← he'] at hev
          exact hev
        · rw [hdent _ hGd, he₀, Option.some.injEq] at he'
          rw [he']
          exact hev
      rw [hev', Option.some.injEq] at hev₀
      subst hev₀
      obtain ⟨j', hj', -, -, hdc⟩ := hvin v i₀ hi₀
      rw [hj, Option.some.injEq] at hj'
      subst hj'
      exact hdc (hdirs e₀ v i₀ he₀ hev' hi₀)
  · intro x hx
    obtain ⟨hxd, -, hxf⟩ := hc.below x (by omega)
    refine ⟨by rw [hdent x (by omega), hxd], hbeyond x hx, ?_⟩
    rw [hfile, update_of_ne (by omega), hxf]
  · intro p
    rw [hcwd]
    exact hc.cwd p

lemma closeFile (hc : Cache s V) (hF : s.file f = some F) (ho : F.opened = true) (he : s.dentry F.dentry = some e)
    (hfile : t.file = update s.file f (some { F with opened := false }))
    (hdentry : t.dentry = update s.dentry F.dentry (some { e with dRef := e.dRef - 1 }))
    (htable : t.dentryHash = s.dentryHash) (hhash : t.vinodeHash = s.vinodeHash) (hroot : t.root = s.root)
    (hcwd : t.cwd = s.cwd) (hvin : t.vinode = s.vinode) (hnext : t.next = s.next) : Cache t V := by
  have hdlt := hc.dentry_lt he
  have hflt := hc.file_lt hF
  have hdent : ∀ x, x ≠ F.dentry → t.dentry x = s.dentry x := fun x hx => by rw [hdentry, update_of_ne hx]
  have hdd : t.dentry F.dentry = some { e with dRef := e.dRef - 1 } := by rw [hdentry, update_self]
  have huse : ∀ x, x ≠ f → t.fileUse x = s.fileUse x := fun x hx => by
    rw [Vfs.fileUse, Vfs.fileUse, hfile, update_of_ne hx]
  have huseold : s.fileUse f = some F.dentry := fileUse_eq hF ho
  have husenew : t.fileUse f = none := by
    rw [Vfs.fileUse, hfile, update_self]
    rfl
  refine hc.refile htable hhash hroot ?_ ?_ ?_ ?_ ?_ ?_
  · intro x _
    by_cases hx : x = F.dentry
    · rw [hx, hdd, he]
      rfl
    · rw [hdent x hx]
  · intro x j hj
    exact ⟨j, by rw [hvin, hj], rfl, rfl⟩
  · intro x e' he'
    by_cases hx : x = F.dentry
    · rw [hx, hdd, Option.some.injEq] at he'
      subst he'
      rw [hx]
      exact (hc.opens _ e he).lose (h := f) huseold (by simp [husenew]) (fun y hy => by rw [huse y hy])
    · rw [hdent x hx] at he'
      refine (hc.opens x e' he').congr ?_
      intro y
      by_cases hy : y = f
      · rw [hy, husenew, huseold]
        exact iff_of_false (by simp) (fun h => hx (Option.some.inj h).symm)
      · rw [huse y hy]
  · intro x G hG hGo
    have hx : x ≠ f := by
      rintro rfl
      rw [hfile, update_self, Option.some.injEq] at hG
      rw [← hG] at hGo
      cases hGo
    rw [hfile, update_of_ne hx] at hG
    obtain ⟨hl, hoff, hdirs⟩ := hc.opened x G hG hGo
    refine ⟨hl, hoff, ?_⟩
    intro e' v j he' hev hj
    rw [hvin] at hj
    by_cases hGd : G.dentry = F.dentry
    · rw [hGd, hdd, Option.some.injEq] at he'
      rw [← he'] at hev
      exact hdirs e v j (by rw [hGd, he]) hev hj
    · rw [hdent _ hGd] at he'
      exact hdirs e' v j he' hev hj
  · intro x hx
    obtain ⟨hxd, hxv, hxf⟩ := hc.below x (by omega)
    refine ⟨by rw [hdent x (by omega), hxd], by rw [hvin, hxv], ?_⟩
    rw [hfile, update_of_ne (by omega), hxf]
  · intro p
    rw [hcwd]
    exact hc.cwd p

lemma seek (hc : Cache s V) (hF : s.file f = some F) {o : ℤ} (hoff : 0 ≤ o) :
    Cache { s with file := update s.file f (some { F with offset := o }) } V := by
  have hflt := hc.file_lt hF
  have huse : Vfs.fileUse { s with file := update s.file f (some { F with offset := o }) } = s.fileUse := by
    funext x
    rw [Vfs.fileUse, Vfs.fileUse]
    change (update s.file f _ x).bind _ = _
    by_cases hx : x = f
    · rw [hx, update_self, hF]
      rfl
    · rw [update_of_ne hx]
  refine hc.refile rfl rfl rfl (fun _ _ => rfl) (fun x j hj => ⟨j, hj, rfl, rfl⟩) ?_ ?_ ?_ hc.cwd
  · intro x e he
    rw [huse]
    exact hc.opens x e he
  · intro x G hG ho
    change update s.file f _ x = some G at hG
    by_cases hx : x = f
    · rw [hx, update_self, Option.some.injEq] at hG
      subst hG
      obtain ⟨hl, -, hdirs⟩ := hc.opened f F hF ho
      exact ⟨hl, hoff, hdirs⟩
    · rw [update_of_ne hx] at hG
      exact hc.opened x G hG ho
  · intro x hx
    obtain ⟨hxd, hxv, hxf⟩ := hc.below x hx
    refine ⟨hxd, hxv, ?_⟩
    change update s.file f _ x = none
    rw [update_of_ne (by change s.next ≤ x at hx; omega), hxf]

lemma spare (hc : Cache s V) (he : e.dRef = 0) (io : ℕ → UInt8) :
    Cache { s with dentry := update s.dentry s.next (some e), next := s.next + 1, iobuffer := io } V := by
  have hdent : ∀ x, x ≠ s.next → update s.dentry s.next (some e) x = s.dentry x := fun x hx => update_of_ne hx _ _
  refine hc.refile rfl rfl rfl ?_ (fun x j hj => ⟨j, hj, rfl, rfl⟩) ?_ ?_ ?_ hc.cwd
  · intro x hx
    have hlt := hc.listed_lt hx
    change (update s.dentry s.next (some e) x).map _ = _
    rw [hdent x (by omega)]
  · intro x e' he'
    change update s.dentry s.next (some e) x = some e' at he'
    by_cases hx : x = s.next
    · rw [hx, update_self, Option.some.injEq] at he'
      rw [← he', he, hx]
      refine Tally.zero ?_
      intro f hf
      obtain ⟨F, hF, ho, hFd⟩ := fileUse_inv (s := s) hf
      have hlt := hc.listed_lt (hc.opened f F hF ho).1
      omega
    · rw [hdent x hx] at he'
      exact hc.opens x e' he'
  · intro f F hF ho
    obtain ⟨hl, hoff, hdirs⟩ := hc.opened f F hF ho
    have hlt := hc.listed_lt hl
    refine ⟨hl, hoff, ?_⟩
    intro e' v i he' hev hi
    change update s.dentry s.next (some e) F.dentry = some e' at he'
    rw [hdent _ (by omega)] at he'
    exact hdirs e' v i he' hev hi
  · intro x hx
    change s.next + 1 ≤ x at hx
    obtain ⟨hxd, hxv, hxf⟩ := hc.below x (by omega)
    exact ⟨(hdent x (by omega)).trans hxd, hxv, hxf⟩

lemma leave (hc : Cache s V) (hN : Named (update s.dentryHash (some q, nm) none) s.num s.root W)
    (hcwd : ∀ p n, s.num (s.cwd p) = some n → W.IsDir n) (hkey : s.dentryHash (some q, nm) = some d)
    (he : s.dentry d = some e) (hev : e.inode = some v) (hn : s.num d = some n) (hfile : ¬ V.IsDir n)
    (hunused : ∀ f, s.fileUse f ≠ some d) (hi : s.vinode v = some i)
    (hdentry : t.dentry = update s.dentry d none) (htable : t.dentryHash = update s.dentryHash (some q, nm) none)
    (hfiles : t.file = s.file) (hroot : t.root = s.root) (hcwd' : t.cwd = s.cwd) (hnext : t.next = s.next)
    (hother : ∀ x j, x ≠ v → s.vinode x = some j → ∃ j', t.vinode x = some j' ∧ j'.tag = j.tag)
    (hbeyond : ∀ x, t.next ≤ x → t.vinode x = none)
    (hstay : t.vinodeHash = s.vinodeHash ∧ (∃ j, t.vinode v = some j ∧ j.mark = i.mark ∧ j.info = i.info ∧ j.ref = i.ref - 1) ∨
      i.ref = 1 ∧ t.vinodeHash = update s.vinodeHash (.rfs, (n : ℤ)) none) : Cache t W := by
  have hdl : Listed s.dentryHash d := ⟨_, hkey⟩
  obtain ⟨e', v', i', he', hev', hi', hin, hsb, hhash, -⟩ := hc.ram hdl hn
  rw [he, Option.some.injEq] at he'
  subst he'
  rw [hev, Option.some.injEq] at hev'
  subst hev'
  rw [hi, Option.some.injEq] at hi'
  subst hi'
  have hdent : ∀ {x}, x ≠ d → t.dentry x = s.dentry x := fun hx => by rw [hdentry, update_of_ne hx]
  have hinv : ∀ {k x}, t.dentryHash k = some x → k ≠ (some q, nm) ∧ s.dentryHash k = some x ∧ x ≠ d := by
    intro k x hk
    rw [htable] at hk
    have hne : k ≠ (some q, nm) := by
      rintro rfl
      rw [update_self] at hk
      cases hk
    rw [update_of_ne hne] at hk
    refine ⟨hne, hk, ?_⟩
    rintro rfl
    exact hne (hc.named.inj hk hkey)
  have hlisted : ∀ {x}, Listed s.dentryHash x → x ≠ d → Listed t.dentryHash x := by
    rintro x ⟨k, hk⟩ hx
    refine ⟨k, ?_⟩
    rw [htable, update_of_ne, hk]
    rintro rfl
    rw [hkey, Option.some.injEq] at hk
    exact hx hk.symm
  have huse : ∀ k, k ≠ (some q, nm) → t.inodeUse k = s.inodeUse k := by
    intro k hk
    rw [Vfs.inodeUse, Vfs.inodeUse, htable, update_of_ne hk]
    cases hx : s.dentryHash k with
    | none => rfl
    | some x =>
      have hxd : x ≠ d := by
        rintro rfl
        exact hk (hc.named.inj hx hkey)
      rw [Option.bind_some, Option.bind_some, hdent hxd]
  have husenew : t.inodeUse (some q, nm) = none := by
    rw [Vfs.inodeUse, htable, update_self]
    rfl
  have huseold : s.inodeUse (some q, nm) = some v := by
    rw [Vfs.inodeUse, hkey, Option.bind_some, he, Option.bind_some, hev]
  have hfuse : t.fileUse = s.fileUse := by
    funext f
    rw [Vfs.fileUse, Vfs.fileUse, hfiles]
  have hless : Tally t.inodeUse v (i.ref - 1) :=
    (hc.refs _ v i hhash hi).lose huseold (by simp [husenew]) (fun k hk => by rw [huse k hk])
  -- the vinodes that are still used are still there
  have hvin : ∀ k, ∀ x j, t.inodeUse k = some x → s.vinode x = some j → ∃ j', t.vinode x = some j' ∧
      j'.mark = j.mark ∧ j'.info = j.info ∧ ∀ l, s.vinodeHash l = some x → t.vinodeHash l = some x := by
    intro k x j hk hj
    have hrest : ∀ l, s.vinodeHash l = some x → x ≠ v → l ≠ (.rfs, (n : ℤ)) := by
      rintro l hl hx rfl
      rw [hhash, Option.some.injEq] at hl
      exact hx hl.symm
    rcases hstay with ⟨hsame, j', hj', hm, hinfo, -⟩ | ⟨hone, hgone⟩
    · by_cases hx : x = v
      · subst hx
        rw [hi, Option.some.injEq] at hj
        subst hj
        exact ⟨j', hj', hm, hinfo, fun l hl => by rw [hsame, hl]⟩
      · obtain ⟨j', hj', htag⟩ := hother x j hx hj
        obtain ⟨hm, -, -, -, -, hinfo⟩ := mark_of_tag htag
        exact ⟨j', hj', hm, hinfo, fun l hl => by rw [hsame, hl]⟩
    · have hx : x ≠ v := by
        rintro rfl
        exact hless.unused (by omega) k hk
      obtain ⟨j', hj', htag⟩ := hother x j hx hj
      obtain ⟨hm, -, -, -, -, hinfo⟩ := mark_of_tag htag
      exact ⟨j', hj', hm, hinfo, fun l hl => by rw [hgone, update_of_ne (hrest l hl hx), hl]⟩
  have hkeyed : ∀ k x, t.dentryHash k = some x → ∃ e v j j', t.dentry x = some e ∧ s.dentry x = some e ∧
      k = (e.parent, e.name) ∧ e.inode = some v ∧ s.vinode v = some j ∧ t.vinode v = some j' ∧ j'.mark = j.mark ∧
      j'.info = j.info ∧
        (x = s.root ∧ j.sb = .hostfs ∧ j.type = dirI ∨ j.sb = .rfs ∧ t.vinodeHash (.rfs, j.inum) = some v) := by
    intro k x hk
    obtain ⟨hne, hk', hxd⟩ := hinv hk
    obtain ⟨e', w, j, he', hkey', hew, hj, hcase⟩ := hc.key k x hk'
    have husek : t.inodeUse k = some w := by
      rw [huse k hne, Vfs.inodeUse, hk', Option.bind_some, he', Option.bind_some, hew]
    obtain ⟨j', hj', hm, hinfo, hkeep⟩ := hvin k w j husek hj
    exact ⟨e', w, j, j', by rw [hdent hxd, he'], he', hkey', hew, hj, hj', hm, hinfo,
      hcase.imp_right fun hr => ⟨hr.1, hkeep _ hr.2⟩⟩
  have hnum : ∀ x, Listed t.dentryHash x → t.num x = s.num x := by
    rintro x ⟨k, hk⟩
    obtain ⟨e', w, j, j', het, hes, -, hew, hj, hj', hm, -⟩ := hkeyed k x hk
    have hin' : j'.inum = j.inum := congrArg (fun x : ℤ × ℤ × FsType => x.2.1) hm
    have hsb' : j'.sb = j.sb := congrArg (fun x : ℤ × ℤ × FsType => x.2.2) hm
    rw [num_eq hes hew hj, num_eq het hew hj', hin', hsb']
  have hcd : ∀ p, s.cwd p ≠ d := by
    intro p hp
    have hdir := (hc.cwd p).2 n
    rw [hp] at hdir
    exact hfile (hdir hn)
  refine ⟨?_, ?_, ?_, ?_, ?_, ?_, ?_, ?_⟩
  · rw [hroot]
    refine Named.renum ?_ hnum
    rw [htable]
    exact hN
  · intro k x hk
    obtain ⟨e', w, j, j', het, -, hkey', hew, -, hj', hm, -, hcase⟩ := hkeyed k x hk
    have htype : j'.type = j.type := congrArg (fun x : ℤ × ℤ × FsType => x.1) hm
    have hin' : j'.inum = j.inum := congrArg (fun x : ℤ × ℤ × FsType => x.2.1) hm
    have hsb' : j'.sb = j.sb := congrArg (fun x : ℤ × ℤ × FsType => x.2.2) hm
    refine ⟨e', w, j', het, hkey', hew, hj', ?_⟩
    rw [htype, hin', hsb', hroot]
    exact hcase
  · intro k x hk
    have hold : s.vinodeHash k = some x ∧ (x = v → ∃ j, t.vinode v = some j ∧ j.mark = i.mark) := by
      rcases hstay with ⟨hsame, j, hj, hm, -⟩ | ⟨-, hgone⟩
      · rw [hsame] at hk
        exact ⟨hk, fun _ => ⟨j, hj, hm⟩⟩
      · rw [hgone] at hk
        have hne : k ≠ (.rfs, (n : ℤ)) := by
          rintro rfl
          rw [update_self] at hk
          cases hk
        rw [update_of_ne hne] at hk
        refine ⟨hk, ?_⟩
        rintro rfl
        obtain ⟨n', hkn, j, hj, hjn, -⟩ := hc.inodes k x hk
        rw [hi, Option.some.injEq] at hj
        rw [← hj, hin] at hjn
        exact absurd (by rw [hkn, ← hjn]) hne
    obtain ⟨n', hkn, j, hj, hjn, hjsb⟩ := hc.inodes k x hold.1
    have hmark : ∃ j', t.vinode x = some j' ∧ j'.mark = j.mark := by
      by_cases hx : x = v
      · obtain ⟨j', hj', hm⟩ := hold.2 hx
        rw [hx, hi, Option.some.injEq] at hj
        exact ⟨j', by rw [hx, hj'], by rw [hm, hj]⟩
      · obtain ⟨j', hj', htag⟩ := hother x j hx hj
        exact ⟨j', hj', (mark_of_tag htag).1⟩
    obtain ⟨j', hj', hm⟩ := hmark
    have hin' : j'.inum = j.inum := congrArg (fun x : ℤ × ℤ × FsType => x.2.1) hm
    have hsb' : j'.sb = j.sb := congrArg (fun x : ℤ × ℤ × FsType => x.2.2) hm
    exact ⟨n', hkn, j', hj', hin'.trans hjn, hsb'.trans hjsb⟩
  · intro k x j hk hj
    by_cases hx : x = v
    · subst hx
      rcases hstay with ⟨-, j', hj', -, -, href⟩ | ⟨-, hgone⟩
      · rw [hj, Option.some.injEq] at hj'
        rw [hj', href]
        exact hless
      · rw [hgone] at hk
        have hne : k ≠ (.rfs, (n : ℤ)) := by
          rintro rfl
          rw [update_self] at hk
          cases hk
        rw [update_of_ne hne] at hk
        obtain ⟨n', hkn, j', hj', hjn, -⟩ := hc.inodes k x hk
        rw [hi, Option.some.injEq] at hj'
        rw [← hj', hin] at hjn
        exact absurd (by rw [hkn, ← hjn]) hne
    · have hk' : s.vinodeHash k = some x := by
        rcases hstay with ⟨hsame, -⟩ | ⟨-, hgone⟩
        · rw [hsame] at hk
          exact hk
        · rw [hgone] at hk
          have hne : k ≠ (.rfs, (n : ℤ)) := by
            rintro rfl
            rw [update_self] at hk
            cases hk
          rwa [update_of_ne hne] at hk
      obtain ⟨n', -, j₀, hj₀, -⟩ := hc.inodes k x hk'
      obtain ⟨j', hj', htag⟩ := hother x j₀ hx hj₀
      rw [hj, Option.some.injEq] at hj'
      subst hj'
      rw [(mark_of_tag htag).2.2.2.2.1]
      refine (hc.refs k x j₀ hk' hj₀).congr ?_
      intro k'
      by_cases hkk : k' = (some q, nm)
      · rw [hkk, husenew, huseold]
        exact iff_of_false (by simp) (fun h => hx (Option.some.inj h).symm)
      · rw [huse k' hkk]
  · intro x e' he'
    have hx : x ≠ d := by
      rintro rfl
      rw [hdentry, update_self] at he'
      cases he'
    rw [hdent hx] at he'
    rw [hfuse]
    exact hc.opens x e' he'
  · intro f F hF ho
    rw [hfiles] at hF
    obtain ⟨hl, hoff, hdirs⟩ := hc.opened f F hF ho
    have hFd : F.dentry ≠ d := by
      intro hFd
      exact hunused f (by rw [fileUse_eq hF ho, hFd])
    refine ⟨hlisted hl hFd, hoff, ?_⟩
    intro e' w j' he' hew hj'
    obtain ⟨k, hk⟩ := hlisted hl hFd
    obtain ⟨e₀, w₀, j₀, j₀', het, hes, -, hew₀, hj₀, hj₀', hm, hinfo, -⟩ := hkeyed k _ hk
    rw [he', Option.some.injEq] at het
    subst het
    rw [hew, Option.some.injEq] at hew₀
    subst hew₀
    rw [hj', Option.some.injEq] at hj₀'
    subst hj₀'
    have htype : j'.type = j₀.type := congrArg (fun x : ℤ × ℤ × FsType => x.1) hm
    have hsb' : j'.sb = j₀.sb := congrArg (fun x : ℤ × ℤ × FsType => x.2.2) hm
    rw [Vinode.DirCached, htype, hsb', hinfo]
    exact hdirs e' w j₀ hes hew hj₀
  · intro x hx
    obtain ⟨hxd, -, hxf⟩ := hc.below x (by omega)
    refine ⟨?_, hbeyond x hx, by rw [hfiles, hxf]⟩
    rw [hdentry]
    by_cases hxx : x = d
    · rw [hxx, update_self]
    · rw [update_of_ne hxx, hxd]
  · intro p
    rw [hcwd']
    have hl := hlisted (hc.cwd p).1 (hcd p)
    refine ⟨hl, ?_⟩
    intro n' hn'
    rw [hnum _ hl] at hn'
    exact hcwd p n' hn'

end Cache

end Pke.Files
