import Pke.Files.Shown
import Pke.Files.DentryTable
import Pke.Lib.Tally

/-! The caches of `vfs.c` in order: the table names what the volume holds, and the counters of vinodes and dentries
are the numbers of dentries in the table and of open files. -/

namespace Pke.Files

open Lib Flow Function

def Vfs.num (s : Vfs) (d : ℕ) : Option ℕ :=
  (s.dentry d).bind fun e => e.inode.bind fun v => (s.vinode v).bind fun i =>
    if i.sb = .rfs then some i.inum.toNat else none

def Vfs.inodeUse (s : Vfs) (k : Option ℕ × Name) : Option ℕ :=
  (s.dentryHash k).bind fun d => (s.dentry d).bind Dentry.inode

def Vfs.fileUse (s : Vfs) (f : ℕ) : Option ℕ := (s.file f).bind fun F => if F.opened then some F.dentry else none

def Vinode.DirCached (i : Vinode) : Prop := i.sb = .rfs → i.type = dirI → ∃ c b, i.info = .dirCache c b

structure Cache (s : Vfs) (V : Vol) : Prop where
  named : Named s.dentryHash s.num s.root V
  key : ∀ k d, s.dentryHash k = some d → ∃ e v i, s.dentry d = some e ∧ k = (e.parent, e.name) ∧ e.inode = some v ∧
    s.vinode v = some i ∧ (d = s.root ∧ i.sb = .hostfs ∧ i.type = dirI ∨ i.sb = .rfs ∧ s.vinodeHash (.rfs, i.inum) = some v)
  inodes : ∀ k v, s.vinodeHash k = some v → ∃ n : ℕ, k = (.rfs, (n : ℤ)) ∧
    ∃ i, s.vinode v = some i ∧ i.inum = n ∧ i.sb = .rfs
  refs : ∀ k v i, s.vinodeHash k = some v → s.vinode v = some i → Tally s.inodeUse v i.ref
  opens : ∀ d e, s.dentry d = some e → Tally s.fileUse d e.dRef
  opened : ∀ f F, s.file f = some F → F.opened = true → Listed s.dentryHash F.dentry ∧ 0 ≤ F.offset ∧
    ∀ e v i, s.dentry F.dentry = some e → e.inode = some v → s.vinode v = some i → i.DirCached
  below : ∀ x, s.next ≤ x → s.dentry x = none ∧ s.vinode x = none ∧ s.file x = none
  cwd : ∀ p, Listed s.dentryHash (s.cwd p) ∧ ∀ n, s.num (s.cwd p) = some n → V.IsDir n

namespace Cache

variable {s t : Vfs} {V W : Vol} {d f n m q v : ℕ} {e : Dentry} {i : Vinode} {F : File} {nm : Name}

lemma dentry_lt (hc : Cache s V) (hd : s.dentry d = some e) : d < s.next := by
  by_contra hge
  rw [(hc.below d (by omega)).1] at hd
  cases hd

lemma vinode_lt (hc : Cache s V) (hv : s.vinode v = some i) : v < s.next := by
  by_contra hge
  rw [(hc.below v (by omega)).2.1] at hv
  cases hv

lemma file_lt (hc : Cache s V) (hf : s.file f = some F) : f < s.next := by
  by_contra hge
  rw [(hc.below f (by omega)).2.2] at hf
  cases hf

lemma listed_lt (hc : Cache s V) (hd : Listed s.dentryHash d) : d < s.next := by
  obtain ⟨k, hk⟩ := hd
  obtain ⟨e, -, -, he, -⟩ := hc.key k d hk
  exact hc.dentry_lt he

lemma held_lt (hc : Cache s V) : ∀ n x : ℕ, s.vinodeHash (.rfs, (n : ℤ)) = some x → x < s.next := by
  intro n x hx
  obtain ⟨-, -, i, hi, -⟩ := hc.inodes _ x hx
  exact hc.vinode_lt hi

lemma num_eq (he : s.dentry d = some e) (hv : e.inode = some v) (hi : s.vinode v = some i) :
    s.num d = if i.sb = .rfs then some i.inum.toNat else none := by
  rw [Vfs.num, he, Option.bind_some, hv, Option.bind_some, hi, Option.bind_some]

lemma ram (hc : Cache s V) (hd : Listed s.dentryHash d) (hn : s.num d = some n) : ∃ e v i, s.dentry d = some e ∧
    e.inode = some v ∧ s.vinode v = some i ∧ i.inum = n ∧ i.sb = .rfs ∧ s.vinodeHash (.rfs, (n : ℤ)) = some v ∧
      s.dentryHash (e.parent, e.name) = some d := by
  obtain ⟨k, hk⟩ := hd
  obtain ⟨e, v, i, he, hkey, hev, hi, hcase⟩ := hc.key k d hk
  rw [num_eq he hev hi] at hn
  rcases hcase with ⟨-, hsb, -⟩ | ⟨hsb, hhash⟩
  · rw [hsb, if_neg (by decide)] at hn
    cases hn
  · rw [if_pos hsb, Option.some.injEq] at hn
    obtain ⟨n', hn', -⟩ := hc.inodes _ v hhash
    have hinum : i.inum = n' := congrArg Prod.snd hn'
    have hnn : i.inum = n := by omega
    rw [hnn] at hhash
    exact ⟨e, v, i, he, hev, hi, hnn, hsb, hhash, hkey ▸ hk⟩

lemma at_root (hc : Cache s V) : ∃ e v i, s.dentry s.root = some e ∧ e.inode = some v ∧ s.vinode v = some i ∧
    i.sb = .hostfs ∧ i.type = dirI ∧ e.parent = none := by
  obtain ⟨nm, hroot⟩ := hc.named.bottom
  obtain ⟨e, v, i, he, hkey, hev, hi, hcase⟩ := hc.key _ _ hroot
  have hpar : e.parent = none := (congrArg Prod.fst hkey).symm
  rcases hcase with ⟨-, hsb, htype⟩ | ⟨hsb, -⟩
  · exact ⟨e, v, i, he, hev, hi, hsb, htype, hpar⟩
  · have hnum := num_eq he hev hi
    rw [hc.named.host, if_pos hsb] at hnum
    cases hnum

lemma not_used (hc : Cache s V) (he : s.dentry d = some e) (hz : e.dRef = 0) (f : ℕ) : s.fileUse f ≠ some d :=
  (hc.opens d e he).unused hz f

lemma fileUse_eq (hF : s.file f = some F) (ho : F.opened = true) : s.fileUse f = some F.dentry := by
  rw [Vfs.fileUse, hF, Option.bind_some, if_pos ho]

lemma fileUse_inv (hu : s.fileUse f = some d) : ∃ F, s.file f = some F ∧ F.opened = true ∧ F.dentry = d := by
  rw [Vfs.fileUse] at hu
  cases hF : s.file f with
  | none =>
    rw [hF] at hu
    cases hu
  | some F =>
    rw [hF, Option.bind_some] at hu
    by_cases ho : F.opened = true
    · rw [if_pos ho, Option.some.injEq] at hu
      exact ⟨F, rfl, ho, hu⟩
    · rw [if_neg ho] at hu
      cases hu

lemma unused_inode (hc : Cache s V) (hv : s.next ≤ v) : Tally s.inodeUse v 0 := by
  apply Tally.zero
  intro k hk
  rw [Vfs.inodeUse] at hk
  cases hx : s.dentryHash k with
  | none =>
    rw [hx] at hk
    cases hk
  | some x =>
    obtain ⟨e, w, j, he, -, hew, hj, -⟩ := hc.key k x hx
    rw [hx, Option.bind_some, he, Option.bind_some, hew, Option.some.injEq] at hk
    have hlt := hc.vinode_lt hj
    omega

lemma num_congr (he : t.dentry d = s.dentry d)
    (hv : ∀ e v, s.dentry d = some e → e.inode = some v → (t.vinode v).map Vinode.mark = (s.vinode v).map Vinode.mark) :
    t.num d = s.num d := by
  rw [Vfs.num, Vfs.num, he]
  cases hd : s.dentry d with
  | none => rfl
  | some e =>
    rw [Option.bind_some, Option.bind_some]
    cases hev : e.inode with
    | none => rfl
    | some v =>
      rw [Option.bind_some, Option.bind_some]
      have hmark := hv e v hd hev
      cases hs : s.vinode v with
      | none =>
        rw [hs, Option.map_none, Option.map_eq_none_iff] at hmark
        rw [hmark]
      | some i =>
        rw [hs, Option.map_some] at hmark
        obtain ⟨j, hj, hji⟩ := Option.map_eq_some_iff.mp hmark
        have hsb : j.sb = i.sb := congrArg (fun x : ℤ × ℤ × FsType => x.2.2) hji
        have hin : j.inum = i.inum := congrArg (fun x : ℤ × ℤ × FsType => x.2.1) hji
        rw [hj, Option.bind_some, Option.bind_some, hsb, hin]

def Marked (s t : Vfs) : Prop := ∀ x j, s.vinode x = some j → ∃ j', t.vinode x = some j' ∧ j'.mark = j.mark

lemma Marked.num (hmark : Marked s t) (hc : Cache s V) (hd : Listed s.dentryHash d) (he : t.dentry d = s.dentry d) :
    t.num d = s.num d := by
  apply num_congr he
  intro e v hd' hev
  obtain ⟨k, hk⟩ := hd
  obtain ⟨e', v', i, he', -, hev', hi, -⟩ := hc.key k d hk
  rw [hd', Option.some.injEq] at he'
  subst he'
  rw [hev, Option.some.injEq] at hev'
  subst hev'
  obtain ⟨j, hj, hji⟩ := hmark v i hi
  rw [hi, hj, Option.map_some, Option.map_some, hji]

lemma Marked.of_tags (hc : Cache s V) (htag : ∀ x < s.next, (t.vinode x).map Vinode.tag = (s.vinode x).map Vinode.tag) :
    ∀ x j, s.vinode x = some j → ∃ j', t.vinode x = some j' ∧ j'.tag = j.tag := by
  intro x j hj
  have hx := htag x (hc.vinode_lt hj)
  rw [hj, Option.map_some] at hx
  exact Option.map_eq_some_iff.mp hx

lemma mark_of_tag {i j : Vinode} (h : j.tag = i.tag) :
    j.mark = i.mark ∧ j.type = i.type ∧ j.inum = i.inum ∧ j.sb = i.sb ∧ j.ref = i.ref ∧ j.info = i.info := by
  have hmark : j.mark = i.mark := congrArg Prod.fst h
  have hrest : (j.ref, j.info) = (i.ref, i.info) := congrArg Prod.snd h
  exact ⟨hmark, congrArg (fun x : ℤ × ℤ × FsType => x.1) hmark, congrArg (fun x : ℤ × ℤ × FsType => x.2.1) hmark,
    congrArg (fun x : ℤ × ℤ × FsType => x.2.2) hmark, congrArg Prod.fst hrest, congrArg Prod.snd hrest⟩

lemma volume (hc : Cache s V) (same : SameCaches s t) (hnext : s.next ≤ t.next)
    (hbeyond : ∀ x, t.next ≤ x → t.vinode x = none) (hN : Named s.dentryHash s.num s.root W)
    (hcwd : ∀ p n, s.num (s.cwd p) = some n → W.IsDir n) : Cache t W := by
  have htags := Marked.of_tags hc same.tag
  have hmark : Marked s t := by
    intro x j hj
    obtain ⟨j', hj', htag⟩ := htags x j hj
    exact ⟨j', hj', (mark_of_tag htag).1⟩
  have hnum : ∀ d, Listed s.dentryHash d → t.num d = s.num d := fun d hd => hmark.num hc hd (by rw [same.dentry])
  have huse : t.inodeUse = s.inodeUse := by
    funext k
    rw [Vfs.inodeUse, Vfs.inodeUse, same.dentryHash, same.dentry]
  have hfuse : t.fileUse = s.fileUse := by
    funext f
    rw [Vfs.fileUse, Vfs.fileUse, same.file]
  refine ⟨?_, ?_, ?_, ?_, ?_, ?_, ?_, ?_⟩
  · rw [same.dentryHash, same.root]
    exact hN.renum hnum
  · intro k d hk
    rw [same.dentryHash] at hk
    obtain ⟨e, v, i, he, hkey, hev, hi, hcase⟩ := hc.key k d hk
    obtain ⟨j, hj, htag⟩ := htags v i hi
    obtain ⟨-, htype, hin, hsb, -⟩ := mark_of_tag htag
    refine ⟨e, v, j, by rw [same.dentry, he], hkey, hev, hj, ?_⟩
    rw [hsb, htype, hin, same.root, same.vinodeHash]
    exact hcase
  · intro k v hk
    rw [same.vinodeHash] at hk
    obtain ⟨n, hkn, i, hi, hin, hsb⟩ := hc.inodes k v hk
    obtain ⟨j, hj, htag⟩ := htags v i hi
    obtain ⟨-, -, hin', hsb', -⟩ := mark_of_tag htag
    exact ⟨n, hkn, j, hj, hin'.trans hin, hsb'.trans hsb⟩
  · intro k v j hk hj
    rw [same.vinodeHash] at hk
    obtain ⟨n, hkn, i, hi, -⟩ := hc.inodes k v hk
    obtain ⟨j', hj', htag⟩ := htags v i hi
    rw [hj, Option.some.injEq] at hj'
    subst hj'
    rw [(mark_of_tag htag).2.2.2.2.1, huse]
    exact hc.refs k v i hk hi
  · intro d e he
    rw [same.dentry] at he
    rw [hfuse]
    exact hc.opens d e he
  · intro f F hF ho
    rw [same.file] at hF
    obtain ⟨hlisted, hoff, hdirs⟩ := hc.opened f F hF ho
    refine ⟨by rwa [same.dentryHash], hoff, ?_⟩
    intro e v j he hev hj
    rw [same.dentry] at he
    obtain ⟨k, hk⟩ := hlisted
    obtain ⟨e', v', i, he', -, hev', hi, -⟩ := hc.key k _ hk
    rw [he, Option.some.injEq] at he'
    subst he'
    rw [hev, Option.some.injEq] at hev'
    subst hev'
    obtain ⟨j', hj', htag⟩ := htags v i hi
    rw [hj, Option.some.injEq] at hj'
    subst hj'
    obtain ⟨-, htype, -, hsb, -, hinfo⟩ := mark_of_tag htag
    have hdir := hdirs e v i he hev hi
    rw [Vinode.DirCached, ← htype, ← hsb, ← hinfo] at hdir
    exact hdir
  · intro x hx
    obtain ⟨hd, -, hf⟩ := hc.below x (by omega)
    exact ⟨by rw [same.dentry, hd], hbeyond x hx, by rw [same.file, hf]⟩
  · intro p
    rw [same.cwd, same.dentryHash]
    refine ⟨(hc.cwd p).1, ?_⟩
    intro n hn
    rw [hnum _ (hc.cwd p).1] at hn
    exact hcwd p n hn

lemma enter (hc : Cache s V) (hW : W.Tree) (hN : Named s.dentryHash s.num s.root W)
    (hcwd : ∀ p n, s.num (s.cwd p) = some n → W.IsDir n) (hkey : s.dentryHash (some q, nm) = none)
    (hq : Listed s.dentryHash q) (hqm : s.num q = some m) (hm : W.IsDir m) (hent : (nm, (n : ℤ)) ∈ W.dir m)
    (hd : s.next ≤ d) (hdn : d < t.next) (hdentry : t.dentry = update s.dentry d (some ⟨nm, 0, some v, some q⟩))
    (htable : t.dentryHash = update s.dentryHash (some q, nm) (some d)) (hfile : t.file = s.file) (hroot : t.root = s.root)
    (hcwd' : t.cwd = s.cwd) (hi : t.vinode v = some i) (hin : i.inum = n) (hsb : i.sb = .rfs)
    (hhash : t.vinodeHash (.rfs, (n : ℤ)) = some v)
    (hold : ∀ k x, s.vinodeHash k = some x → t.vinodeHash k = some x)
    (hnew : ∀ k x, t.vinodeHash k = some x → s.vinodeHash k = some x ∨ k = (.rfs, (n : ℤ)) ∧ x = v)
    (hother : ∀ x j, x ≠ v → s.vinode x = some j → ∃ j', t.vinode x = some j' ∧ j'.tag = j.tag)
    (hsame : ∀ j, s.vinode v = some j → i.mark = j.mark ∧ i.info = j.info) (hz : Tally s.inodeUse v (i.ref - 1))
    (hbeyond : ∀ x, t.next ≤ x → t.vinode x = none) : Cache t W := by
  have hne : ∀ {x}, Listed s.dentryHash x → x ≠ d := by
    rintro x hx rfl
    have hlt := hc.listed_lt hx
    omega
  have hdent : ∀ {x}, x ≠ d → t.dentry x = s.dentry x := fun hx => by rw [hdentry, update_of_ne hx]
  have hmark : Marked s t := by
    intro x j hj
    by_cases hx : x = v
    · subst hx
      exact ⟨i, hi, (hsame j hj).1⟩
    · obtain ⟨j', hj', htag⟩ := hother x j hx hj
      exact ⟨j', hj', (mark_of_tag htag).1⟩
  have hnum : ∀ x, Listed s.dentryHash x → t.num x = s.num x := fun x hx => hmark.num hc hx (hdent (hne hx))
  have hnumd : t.num d = some n := by
    rw [num_eq (e := ⟨nm, 0, some v, some q⟩) (v := v) (by rw [hdentry, update_self]) rfl hi, if_pos hsb, hin]
    rfl
  have hkeyne : ∀ {k x}, s.dentryHash k = some x → k ≠ (some q, nm) := by
    rintro k x hx rfl
    rw [hkey] at hx
    cases hx
  -- the places of the table that were taken use what they did
  have huse : ∀ k, k ≠ (some q, nm) → t.inodeUse k = s.inodeUse k := by
    intro k hk
    rw [Vfs.inodeUse, Vfs.inodeUse, htable, update_of_ne hk]
    cases hx : s.dentryHash k with
    | none => rfl
    | some x =>
      rw [Option.bind_some, Option.bind_some, hdent (hne ⟨k, hx⟩)]
  have husenew : t.inodeUse (some q, nm) = some v := by
    rw [Vfs.inodeUse, htable, update_self, Option.bind_some, hdentry, update_self]
    rfl
  have huseold : s.inodeUse (some q, nm) = none := by
    rw [Vfs.inodeUse, hkey]
    rfl
  have hfuse : t.fileUse = s.fileUse := by
    funext f
    rw [Vfs.fileUse, Vfs.fileUse, hfile]
  have hlisted : ∀ {x}, Listed s.dentryHash x → Listed t.dentryHash x := by
    rintro x ⟨k, hk⟩
    exact ⟨k, by rw [htable, update_of_ne (hkeyne hk), hk]⟩
  refine ⟨?_, ?_, ?_, ?_, ?_, ?_, ?_, ?_⟩
  · rw [htable, hroot]
    refine (hN.renum hnum).enter hW hkey hq ((hnum q hq).trans hqm) hm hent (fun hl => hne hl rfl) hnumd
  · intro k x hk
    rw [htable] at hk
    by_cases hkk : k = (some q, nm)
    · subst hkk
      rw [update_self, Option.some.injEq] at hk
      subst hk
      refine ⟨⟨nm, 0, some v, some q⟩, v, i, by rw [hdentry, update_self], rfl, rfl, hi, .inr ⟨hsb, ?_⟩⟩
      rw [hin, hhash]
    · rw [update_of_ne hkk] at hk
      obtain ⟨e, w, j, he, hkey', hew, hj, hcase⟩ := hc.key k x hk
      obtain ⟨j', hj', hjm⟩ := hmark w j hj
      have htype : j'.type = j.type := congrArg (fun x : ℤ × ℤ × FsType => x.1) hjm
      have hin' : j'.inum = j.inum := congrArg (fun x : ℤ × ℤ × FsType => x.2.1) hjm
      have hsb' : j'.sb = j.sb := congrArg (fun x : ℤ × ℤ × FsType => x.2.2) hjm
      refine ⟨e, w, j', by rw [hdent (hne ⟨k, hk⟩), he], hkey', hew, hj', ?_⟩
      rw [hsb', htype, hin', hroot]
      exact hcase.imp_right fun hr => ⟨hr.1, hold _ _ hr.2⟩
  · intro k x hk
    rcases hnew k x hk with hk | ⟨rfl, rfl⟩
    · obtain ⟨n', hkn, j, hj, hjn, hjsb⟩ := hc.inodes k x hk
      obtain ⟨j', hj', hjm⟩ := hmark x j hj
      have hin' : j'.inum = j.inum := congrArg (fun x : ℤ × ℤ × FsType => x.2.1) hjm
      have hsb' : j'.sb = j.sb := congrArg (fun x : ℤ × ℤ × FsType => x.2.2) hjm
      exact ⟨n', hkn, j', hj', hin'.trans hjn, hsb'.trans hjsb⟩
    · exact ⟨n, rfl, i, hi, hin, hsb⟩
  · intro k x j hk hj
    by_cases hx : x = v
    · subst hx
      rw [hi, Option.some.injEq] at hj
      subst hj
      have hgain := hz.gain (h := (some q, nm)) (by rw [huseold]; nofun) husenew
        (fun k hk => by rw [huse k hk])
      rwa [sub_add_cancel] at hgain
    · have hk' : s.vinodeHash k = some x := (hnew k x hk).resolve_right fun hh => hx hh.2
      obtain ⟨n', -, j₀, hj₀, -⟩ := hc.inodes k x hk'
      obtain ⟨j', hj', htag⟩ := hother x j₀ hx hj₀
      rw [hj, Option.some.injEq] at hj'
      subst hj'
      rw [(mark_of_tag htag).2.2.2.2.1]
      refine (hc.refs k x j₀ hk' hj₀).congr ?_
      intro k'
      by_cases hkk : k' = (some q, nm)
      · rw [hkk, husenew, huseold]
        refine iff_of_false ?_ nofun
        intro he
        exact hx (Option.some.inj he).symm
      · rw [huse k' hkk]
  · intro x e he
    rw [hfuse]
    by_cases hx : x = d
    · rw [hx, hdentry, update_self, Option.some.injEq] at he
      subst he
      rw [hx]
      refine Tally.zero ?_
      intro f hf
      obtain ⟨F, hF, ho, hFd⟩ := fileUse_inv hf
      exact hne (hc.opened f F hF ho).1 hFd
    · rw [hdent hx] at he
      exact hc.opens x e he
  · intro f F hF ho
    rw [hfile] at hF
    obtain ⟨hl, hoff, hdirs⟩ := hc.opened f F hF ho
    refine ⟨hlisted hl, hoff, ?_⟩
    intro e w j he hew hj
    rw [hdent (hne hl)] at he
    obtain ⟨k, hk⟩ := hl
    obtain ⟨e', w', j₀, he', -, hew', hj₀, -⟩ := hc.key k _ hk
    rw [he, Option.some.injEq] at he'
    subst he'
    rw [hew, Option.some.injEq] at hew'
    subst hew'
    have hdir := hdirs e w j₀ he hew hj₀
    by_cases hw : w = v
    · subst hw
      rw [hi, Option.some.injEq] at hj
      subst hj
      obtain ⟨hjm, hinfo⟩ := hsame j₀ hj₀
      have htype : i.type = j₀.type := congrArg (fun x : ℤ × ℤ × FsType => x.1) hjm
      have hsb' : i.sb = j₀.sb := congrArg (fun x : ℤ × ℤ × FsType => x.2.2) hjm
      rw [Vinode.DirCached, htype, hsb', hinfo]
      exact hdir
    · obtain ⟨j', hj', htag⟩ := hother w j₀ hw hj₀
      rw [hj, Option.some.injEq] at hj'
      subst hj'
      obtain ⟨-, htype, -, hsb', -, hinfo⟩ := mark_of_tag htag
      rw [Vinode.DirCached, htype, hsb', hinfo]
      exact hdir
  · intro x hx
    obtain ⟨hxd, -, hxf⟩ := hc.below x (by omega)
    exact ⟨by rw [hdent (by omega), hxd], hbeyond x hx, by rw [hfile, hxf]⟩
  · intro p
    rw [hcwd']
    refine ⟨hlisted (hc.cwd p).1, ?_⟩
    intro n' hn'
    rw [hnum _ (hc.cwd p).1] at hn'
    exact hcwd p n' hn'

end Cache

end Pke.Files
