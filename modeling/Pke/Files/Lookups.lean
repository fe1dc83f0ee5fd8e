import Pke.Files.CacheSteps
import Pke.Files.ShownData

namespace Pke.Files

open Lib Flow Function

section Primitives

variable {s : Vfs} {d v : ℕ} {e : Dentry} {i : Vinode} {nm : Name} {p : Option ℕ}

lemma freeVinode_eq : freeVinode v s = .done () { s with vinode := update s.vinode v none } := rfl
lemma allocVfsDentry_eq : allocVfsDentry nm none p s = .done s.next { s with
    dentry := update s.dentry s.next (some ⟨nm, 0, none, p⟩), next := s.next + 1 } := rfl

lemma viopLookup_eq (hi : s.vinode v = some i) (hsb : i.sb = .rfs) : viopLookup v d nm s = rfsLookup v nm s := by
  rw [viopLookup, bind_done (getVinode_eq hi), hsb]

lemma inodeOf_eq (he : s.dentry d = some e) (hv : e.inode = some v) : inodeOf d s = .done v s := by
  rw [inodeOf, bind_done (getDentry_eq he), hv]
  rfl

lemma setInode_eq (he : s.dentry d = some e) :
    setInode d v s = .done () { s with dentry := update s.dentry d (some { e with inode := some v }) } := by
  rw [setInode, bind_done (getDentry_eq he)]
  rfl

lemma addRef_eq {z : ℤ} (hi : s.vinode v = some i) :
    addRef v z s = .done () { s with vinode := update s.vinode v (some { i with ref := i.ref + z }) } := by
  rw [addRef, bind_done (getVinode_eq hi)]
  rfl

lemma addDRef_eq {z : ℤ} (he : s.dentry d = some e) :
    addDRef d z s = .done () { s with dentry := update s.dentry d (some { e with dRef := e.dRef + z }) } := by
  rw [addDRef, bind_done (getDentry_eq he)]
  rfl

lemma allocVfsDentry_some (hi : s.vinode v = some i) :
    allocVfsDentry nm (some v) p s = .done s.next { s with
      dentry := update s.dentry s.next (some ⟨nm, 0, some v, p⟩)
      vinode := update s.vinode v (some { i with ref := i.ref + 1 }), next := s.next + 1 } := by
  rw [allocVfsDentry, get_bind, modify_bind]
  change (addRef v 1 >>= fun _ => pure s.next) { s with
    dentry := update s.dentry s.next (some ⟨nm, 0, some v, p⟩), next := s.next + 1 } = _
  rw [bind_done (addRef_eq (i := i) (by exact hi))]
  rfl

lemma hashPutDentry_eq (he : s.dentry d = some e) (hno : s.dentryHash (e.parent, e.name) = none) :
    hashPutDentry d s = .done () { s with dentryHash := update s.dentryHash (e.parent, e.name) (some d) } := by
  rw [hashPutDentry, bind_done (getDentry_eq he)]
  change Outcome.done () (if (s.dentryHash (e.parent, e.name)).isSome = true then s else _) = _
  rw [hno, if_neg (by decide)]

lemma hashEraseDentry_eq (he : s.dentry d = some e) :
    hashEraseDentry d s = .done () { s with dentryHash := update s.dentryHash (e.parent, e.name) none } := by
  rw [hashEraseDentry, bind_done (getDentry_eq he)]
  rfl

lemma freeVfsDentry_eq (he : s.dentry d = some e) (hz : e.dRef = 0) :
    freeVfsDentry d s = .done () { s with dentry := update s.dentry d none } := by
  rw [freeVfsDentry, bind_done (getDentry_eq he), if_neg (by omega)]
  rfl

lemma hashPutVinode_eq (hi : s.vinode v = some i) {n : ℕ} (hn : i.inum = n) (hno : s.vinodeHash (i.sb, (n : ℤ)) = none) :
    hashPutVinode v s = .done () { s with vinodeHash := update s.vinodeHash (i.sb, (n : ℤ)) (some v) } := by
  rw [hashPutVinode, bind_done (getVinode_eq hi)]
  change Outcome.done () (if i.inum < 0 ∨ (s.vinodeHash (i.sb, i.inum)).isSome = true then s else _) = _
  rw [hn, hno, if_neg (by rw [not_or]; exact ⟨by omega, by decide⟩)]

lemma hashEraseVinode_eq (hi : s.vinode v = some i) {n : ℕ} (hn : i.inum = n) :
    hashEraseVinode v s = .done () { s with vinodeHash := update s.vinodeHash (i.sb, (n : ℤ)) none } := by
  rw [hashEraseVinode, bind_done (getVinode_eq hi)]
  change Outcome.done () (if i.inum < 0 then s else _) = _
  rw [hn, if_neg (by omega)]

end Primitives

def Vfs.held (s : Vfs) (n : ℕ) : Option ℕ := s.vinodeHash (.rfs, (n : ℤ))

structure Sound (s : Vfs) (V : Vol) : Prop where
  shown : Shows s s.held V
  ok : V.Ok
  cache : Cache s V

structure Looked (s : Vfs) (V : Vol) (t : Vfs) (W : Vol) : Prop where
  sound : Sound t W
  node : W.node = V.node
  dir : W.dir = V.dir
  used : W.used = V.used
  table : ∀ k x, s.dentryHash k = some x → t.dentryHash k = some x
  dentry : ∀ x e, s.dentry x = some e → t.dentry x = some e
  hash : ∀ k x, s.vinodeHash k = some x → t.vinodeHash k = some x
  num : ∀ d, Listed s.dentryHash d → t.num d = s.num d
  root : t.root = s.root
  cwd : t.cwd = s.cwd
  file : t.file = s.file
  loaded : ∀ n, W.cached n = V.cached n ∨ V.cached n = none ∧ W.cached n = some (V.node n)

namespace Looked

variable {s t u : Vfs} {V W X : Vol} {d : ℕ}

lemma refl (h : Sound s V) : Looked s V s V :=
  ⟨h, rfl, rfl, rfl, fun _ _ h => h, fun _ _ h => h, fun _ _ h => h, fun _ _ => rfl, rfl, rfl, rfl, fun _ => .inl rfl⟩

lemma listed (h : Looked s V t W) (hd : Listed s.dentryHash d) : Listed t.dentryHash d :=
  let ⟨k, hk⟩ := hd
  ⟨k, h.table k d hk⟩

lemma trans (h : Looked s V t W) (h' : Looked t W u X) : Looked s V u X where
  sound := h'.sound
  node := h'.node.trans h.node
  dir := h'.dir.trans h.dir
  used := h'.used.trans h.used
  table k x hx := h'.table k x (h.table k x hx)
  dentry x e hx := h'.dentry x e (h.dentry x e hx)
  hash k x hx := h'.hash k x (h.hash k x hx)
  num d hd := (h'.num d (h.listed hd)).trans (h.num d hd)
  root := h'.root.trans h.root
  cwd := h'.cwd.trans h.cwd
  file := h'.file.trans h.file
  loaded n := by
    rcases h'.loaded n with heq | ⟨hnone, hsome⟩
    · rw [heq]
      exact h.loaded n
    · rcases h.loaded n with heq | ⟨-, hsome'⟩
      · exact .inr ⟨heq ▸ hnone, h.node ▸ hsome⟩
      · rw [hnone] at hsome'
        cases hsome'

lemma isDir (h : Looked s V t W) {n : ℕ} : W.IsDir n ↔ V.IsDir n := by rw [Vol.IsDir, Vol.IsDir, h.node]

end Looked

namespace Sound

variable {s t : Vfs} {V W : Vol} {d k m n q v x : ℕ} {e : Dentry} {i : Vinode} {tok : Name}

lemma held_update {o : Option ℕ} (hv : t.vinodeHash = update s.vinodeHash (.rfs, (k : ℤ)) o) :
    t.held = update s.held k o := by
  funext n
  rw [Vfs.held, hv]
  by_cases hnk : n = k
  · rw [hnk, update_self, update_self]
  · rw [update_of_ne hnk, update_of_ne]
    · rfl
    · intro he
      have hne := congrArg Prod.snd he
      change (n : ℤ) = k at hne
      exact hnk (by omega)

lemma idle (h : Sound s V) (io : ℕ → UInt8) (c : ℕ) : Looked s V { s with iobuffer := io, next := s.next + c } V := by
  have hsame : SameCaches s { s with iobuffer := io, next := s.next + c } :=
    ⟨rfl, rfl, rfl, rfl, rfl, rfl, fun _ _ => rfl⟩
  have hshown : Shows { s with iobuffer := io, next := s.next + c } s.held V :=
    h.shown.congr rfl rfl rfl fun n x _ i hi => ⟨i, hi, rfl, rfl, rfl⟩
  have hcache : Cache { s with iobuffer := io, next := s.next + c } V :=
    h.cache.volume hsame (Nat.le_add_right _ _)
      (fun x hx => (h.cache.below x ((Nat.le_add_right _ _).trans hx)).2.1) h.cache.named (fun p => (h.cache.cwd p).2)
  exact ⟨⟨hshown, h.ok, hcache⟩, rfl, rfl, rfl, fun _ _ h => h, fun _ _ h => h, fun _ _ h => h, fun _ _ => rfl,
    rfl, rfl, rfl, fun _ => .inl rfl⟩

lemma lookup_missing (h : Sound s V) (e : Dentry) (io : ℕ → UInt8) : Looked s V { s with
    dentry := update (update s.dentry s.next (some e)) s.next none, next := s.next + 1, iobuffer := io } V := by
  have hdentry : update (update s.dentry s.next (some e)) s.next none = s.dentry := by
    rw [update_idem, ← (h.cache.below s.next le_rfl).1]
    exact update_eq_self _ _
  rw [hdentry]
  exact h.idle io 1

lemma adopt_same (h : Sound s V) (hkey : s.dentryHash (some q, tok) = none) (hq : Listed s.dentryHash q)
    (hqm : s.num q = some m) (hm : V.IsDir m) (hent : (tok, (k : ℤ)) ∈ V.dir m) (hv : s.held k = some v)
    (hi : s.vinode v = some i) (io : ℕ → UInt8) : Looked s V { s with
      dentry := update s.dentry s.next (some ⟨tok, 0, some v, some q⟩)
      dentryHash := update s.dentryHash (some q, tok) (some s.next)
      vinode := update s.vinode v (some { i with ref := i.ref + 1 }), next := s.next + 2, iobuffer := io } V := by
  have hc := h.cache
  obtain ⟨i', hi', hin, hsb, -⟩ := h.shown.held k v hv
  rw [hi, Option.some.injEq] at hi'
  subst hi'
  have hvlt := hc.vinode_lt hi
  have hmarks : ∀ x j, s.vinode x = some j → ∃ j',
      update s.vinode v (some { i with ref := i.ref + 1 }) x = some j' ∧ j'.toDinode = j.toDinode ∧ j'.mark = j.mark := by
    intro x j hj
    by_cases hx : x = v
    · subst hx
      rw [hi, Option.some.injEq] at hj
      subst hj
      exact ⟨_, update_self _ _ _, rfl, rfl⟩
    · exact ⟨j, (update_of_ne hx _ _).trans hj, rfl, rfl⟩
  have hcache : Cache { s with
      dentry := update s.dentry s.next (some ⟨tok, 0, some v, some q⟩)
      dentryHash := update s.dentryHash (some q, tok) (some s.next)
      vinode := update s.vinode v (some { i with ref := i.ref + 1 }), next := s.next + 2, iobuffer := io } V := by
    refine hc.enter (v := v) (n := k) h.ok.tree hc.named (fun p => (hc.cwd p).2) hkey hq hqm hm hent le_rfl
      (by change s.next < s.next + 2; omega) rfl rfl rfl rfl rfl (update_self _ _ _) hin hsb hv (fun _ _ hx => hx)
      (fun _ _ hx => .inl hx) ?_ ?_ ?_ ?_
    · intro x j hx hj
      exact ⟨j, (update_of_ne hx _ _).trans hj, rfl⟩
    · intro j hj
      rw [hi, Option.some.injEq] at hj
      subst hj
      exact ⟨rfl, rfl⟩
    · change Tally s.inodeUse v (i.ref + 1 - 1)
      rw [add_sub_cancel_right]
      exact hc.refs _ v i hv hi
    · intro x hx
      change s.next + 2 ≤ x at hx
      exact (update_of_ne (by omega) _ _).trans (hc.below x (by omega)).2.1
  refine ⟨⟨?_, h.ok, hcache⟩, rfl, rfl, rfl, ?_, ?_, fun _ _ hx => hx, ?_, rfl, rfl, rfl, fun _ => .inl rfl⟩
  · refine h.shown.congr rfl rfl rfl ?_
    intro n x _ j hj
    obtain ⟨j', hj', hd, hmark⟩ := hmarks x j hj
    exact ⟨j', hj', hd, congrArg (fun x : ℤ × ℤ × FsType => x.2.1) hmark, congrArg (fun x : ℤ × ℤ × FsType => x.2.2) hmark⟩
  · intro l x hl
    have hne : l ≠ (some q, tok) := by
      rintro rfl
      rw [hkey] at hl
      cases hl
    exact (update_of_ne hne _ _).trans hl
  · intro x e he
    have hx := hc.dentry_lt he
    exact (update_of_ne (by omega) _ _).trans he
  · intro x hx
    have hlt := hc.listed_lt hx
    refine Cache.Marked.num (s := s) ?_ hc hx (update_of_ne (by omega) _ _)
    intro y j hj
    obtain ⟨j', hj', -, hmark⟩ := hmarks y j hj
    exact ⟨j', hj', hmark⟩

lemma adopt_new (h : Sound s V) (hkey : s.dentryHash (some q, tok) = none) (hq : Listed s.dentryHash q)
    (hqm : s.num q = some m) (hm : V.IsDir m) (hent : (tok, (k : ℤ)) ∈ V.dir m) (hk : k ∈ V.live)
    (hno : s.held k = none) (io : ℕ → UInt8) : Looked s V { s with
      dentry := update s.dentry s.next (some ⟨tok, 0, some (s.next + 1), some q⟩)
      dentryHash := update s.dentryHash (some q, tok) (some s.next)
      vinode := update s.vinode (s.next + 1) (some ⟨V.node k, k, 1, .null, .rfs⟩)
      vinodeHash := update s.vinodeHash (.rfs, (k : ℤ)) (some (s.next + 1))
      next := s.next + 2, iobuffer := io } (V.load k) := by
  have hc := h.cache
  have hfresh := (hc.below (s.next + 1) (by omega)).2.1
  have hcached := h.shown.clear k hno
  have hok := h.ok.load hk hcached
  have hold : ∀ l x, s.vinodeHash l = some x →
      update s.vinodeHash (.rfs, (k : ℤ)) (some (s.next + 1)) l = some x := by
    intro l x hx
    have hne : l ≠ (.rfs, (k : ℤ)) := by
      rintro rfl
      rw [Vfs.held] at hno
      rw [hno] at hx
      cases hx
    rw [update_of_ne hne, hx]
  have hvin : ∀ x j, s.vinode x = some j →
      update s.vinode (s.next + 1) (some ⟨V.node k, k, 1, .null, .rfs⟩) x = some j := by
    intro x j hj
    have hx := hc.vinode_lt hj
    rw [update_of_ne (by omega), hj]
  have hcache : Cache { s with
      dentry := update s.dentry s.next (some ⟨tok, 0, some (s.next + 1), some q⟩)
      dentryHash := update s.dentryHash (some q, tok) (some s.next)
      vinode := update s.vinode (s.next + 1) (some ⟨V.node k, k, 1, .null, .rfs⟩)
      vinodeHash := update s.vinodeHash (.rfs, (k : ℤ)) (some (s.next + 1))
      next := s.next + 2, iobuffer := io } (V.load k) := by
    refine hc.enter (v := s.next + 1) (n := k) hok.tree ?_ (fun p => (hc.cwd p).2) hkey hq hqm hm hent le_rfl
      (by change s.next < s.next + 2; omega) rfl rfl rfl rfl rfl (update_self _ _ _) rfl rfl (update_self _ _ _) hold
      ?_ ?_ ?_ ?_ ?_
    · exact hc.named.revolume (fun _ _ _ hd he => ⟨hd, he⟩) (fun _ _ hd => hd)
    · intro l x hx
      change update s.vinodeHash (.rfs, (k : ℤ)) (some (s.next + 1)) l = some x at hx
      by_cases hl : l = (.rfs, (k : ℤ))
      · rw [hl, update_self, Option.some.injEq] at hx
        exact .inr ⟨hl, hx.symm⟩
      · rw [update_of_ne hl] at hx
        exact .inl hx
    · intro x j _ hj
      exact ⟨j, hvin x j hj, rfl⟩
    · intro j hj
      rw [hfresh] at hj
      cases hj
    · change Tally s.inodeUse (s.next + 1) (1 - 1)
      rw [sub_self]
      exact hc.unused_inode (by omega)
    · intro x hx
      change s.next + 2 ≤ x at hx
      exact (update_of_ne (by omega) _ _).trans (hc.below x (by omega)).2.1
  refine ⟨⟨?_, hok, hcache⟩, rfl, rfl, rfl, ?_, ?_, hold, ?_, rfl, rfl, rfl, ?_⟩
  · rw [held_update (s := s) (o := some (s.next + 1)) (k := k) rfl]
    refine Shows.load (V := V) (h := s.held) ?_ hk.1 (update_self _ _ _) rfl rfl rfl
    refine h.shown.congr rfl rfl rfl ?_
    intro n x _ j hj
    exact ⟨j, hvin x j hj, rfl, rfl, rfl⟩
  · intro l x hl
    have hne : l ≠ (some q, tok) := by
      rintro rfl
      rw [hkey] at hl
      cases hl
    exact (update_of_ne hne _ _).trans hl
  · intro x e he
    have hx := hc.dentry_lt he
    exact (update_of_ne (by omega) _ _).trans he
  · intro x hx
    have hlt := hc.listed_lt hx
    refine Cache.Marked.num (s := s) ?_ hc hx (update_of_ne (by omega) _ _)
    intro y j hj
    exact ⟨j, hvin y j hj, rfl⟩
  · intro n
    by_cases hn : n = k
    · subst hn
      exact .inr ⟨hcached, update_self _ _ _⟩
    · exact .inl (update_of_ne hn _ _)

lemma adopt_some {s : Vfs} {d found same : ℕ} {i : Vinode} (hi : s.vinode found = some i)
    (hv : hashGetVinode s i.sb i.inum = some same) :
    adopt d found s = (do setInode d same; addRef same 1; freeVinode found; hashPutDentry d : Flow Vfs Unit) s := by
  rw [adopt, bind_done (getVinode_eq hi), get_bind, hv]

lemma adopt_none {s : Vfs} {d found : ℕ} {i : Vinode} (hi : s.vinode found = some i) (hv : hashGetVinode s i.sb i.inum = none) :
    adopt d found s = (do setInode d found; addRef found 1; hashPutVinode found; hashPutDentry d : Flow Vfs Unit) s := by
  rw [adopt, bind_done (getVinode_eq hi), get_bind, hv]

lemma adopt_eq (h : Sound s V) (hkey : s.dentryHash (some q, tok) = none) (hq : Listed s.dentryHash q)
    (hqm : s.num q = some m) (hm : V.IsDir m) (hent : (tok, (k : ℤ)) ∈ V.dir m) (hk : k ∈ V.live) (io : ℕ → UInt8) :
    ∃ t W, adopt s.next (s.next + 1) { s with
        dentry := update s.dentry s.next (some ⟨tok, 0, none, some q⟩)
        vinode := update s.vinode (s.next + 1) (some ⟨V.node k, k, 0, .null, .rfs⟩)
        next := s.next + 2, iobuffer := io } = .done () t ∧
      Looked s V t W ∧ t.dentryHash (some q, tok) = some s.next := by
  have hc := h.cache
  have hfresh := (hc.below (s.next + 1) (by omega)).2.1
  have hnn : ¬ (k : ℤ) < 0 := by omega
  cases hv : s.vinodeHash (.rfs, (k : ℤ)) with
  | some v =>
    obtain ⟨-, -, i, hi, -⟩ := hc.inodes _ v hv
    have hvlt := hc.vinode_lt hi
    have hvin : update (update (update s.vinode (s.next + 1) (some ⟨V.node k, k, 0, .null, .rfs⟩)) v
        (some { i with ref := i.ref + 1 })) (s.next + 1) none = update s.vinode v (some { i with ref := i.ref + 1 }) := by
      rw [update_comm (by omega : s.next + 1 ≠ v), update_idem]
      conv_rhs => rw [← update_eq_self (s.next + 1) (update s.vinode v (some { i with ref := i.ref + 1 }))]
      rw [update_of_ne (by omega : s.next + 1 ≠ v), hfresh]
    refine ⟨_, V, ?_, h.adopt_same hkey hq hqm hm hent hv hi io, update_self _ _ _⟩
    rw [adopt_some (i := ⟨V.node k, k, 0, .null, .rfs⟩) (by exact update_self _ _ _) (by exact (if_neg hnn).trans hv), bind_done (setInode_eq (update_self _ _ _)),
      bind_done (addRef_eq (i := i) ((update_of_ne (by omega) _ _).trans hi))]
    rw [bind_done freeVinode_eq, hashPutDentry_eq (e := ⟨tok, 0, some v, some q⟩) (update_self _ _ _) (by exact hkey)]
    dsimp only
    rw [hvin, update_idem]
  | none =>
    refine ⟨_, _, ?_, h.adopt_new hkey hq hqm hm hent hk hv io, update_self _ _ _⟩
    rw [adopt_none (i := ⟨V.node k, k, 0, .null, .rfs⟩) (by exact update_self _ _ _) (by exact (if_neg hnn).trans hv), bind_done (setInode_eq (update_self _ _ _)), bind_done (addRef_eq (update_self _ _ _)),
      bind_done (hashPutVinode_eq (n := k) (update_self _ _ _) rfl hv),
      hashPutDentry_eq (e := ⟨tok, 0, some (s.next + 1), some q⟩) (update_self _ _ _) (by exact hkey)]
    dsimp only
    rw [update_idem, update_idem]
    rfl

lemma lookupToken_missing {s : Vfs} {q v : ℕ} {tok : Name} {e : Dentry} {i : Vinode} (hkey : s.dentryHash (some q, tok) = none)
    (hq : q ≠ s.next) (he : s.dentry q = some e) (hev : e.inode = some v) (hi : s.vinode v = some i) (hsb : i.sb = .rfs) :
    Files.lookupToken (some q) tok s = (do
      match ← rfsLookup v tok with
      | none => do
        freeDentry s.next
        pure none
      | some found => do
        adopt s.next found
        pure (some s.next) : Flow Vfs (Option ℕ)) { s with
        dentry := update s.dentry s.next (some ⟨tok, 0, none, some q⟩), next := s.next + 1 } := by
  rw [Files.lookupToken, get_bind, hkey]
  change (allocVfsDentry tok none (some q) >>= _) s = _
  rw [bind_done allocVfsDentry_eq]
  change (inodeOf q >>= _) _ = _
  rw [bind_done (inodeOf_eq (e := e) ((update_of_ne hq _ _).trans he) hev)]
  exact bind_congr_at (viopLookup_eq hi hsb)

lemma lookupToken (h : Sound s V) (hq : Listed s.dentryHash q) (hqm : s.num q = some m) (hm : V.IsDir m)
    (hz : (0 : UInt8) ∉ tok) : ∃ r t W, Files.lookupToken (some q) tok s = .done r t ∧ Looked s V t W ∧
      (r = none ∧ tok ∉ (V.dir m).map Prod.fst ∨ ∃ d, r = some d ∧ t.dentryHash (some q, tok) = some d) := by
  have hc := h.cache
  cases hkey : s.dentryHash (some q, tok) with
  | some d =>
    refine ⟨some d, s, V, ?_, Looked.refl h, .inr ⟨d, rfl, hkey⟩⟩
    rw [Files.lookupToken, get_bind, hkey]
    rfl
  | none =>
    obtain ⟨e, v, i, he, hev, hi, hin, hsb, hhash, -⟩ := hc.ram hq hqm
    have hqlt := hc.listed_lt hq
    have hshown : Shows { s with
        dentry := update s.dentry s.next (some ⟨tok, 0, none, some q⟩), next := s.next + 1 } s.held V :=
      h.shown.congr rfl rfl rfl fun n x _ i hi => ⟨i, hi, rfl, rfl, rfl⟩
    have hstart := lookupToken_missing hkey (ne_of_lt hqlt) he hev hi hsb
    rcases hshown.lookup h.ok hm hhash hz with ⟨hno, io, hio⟩ | ⟨k, hk, -, hent, io, hio⟩
    · refine ⟨none, _, V, ?_, h.lookup_missing ⟨tok, 0, none, some q⟩ io, .inl ⟨rfl, hno⟩⟩
      rw [hstart, bind_done hio]
      rfl
    · obtain ⟨t, W, ht, hlooked, htable⟩ := h.adopt_eq hkey hq hqm hm hent hk io
      refine ⟨some s.next, t, W, ?_, hlooked, .inr ⟨s.next, rfl, htable⟩⟩
      rw [hstart, bind_done hio]
      change (adopt s.next (s.next + 1) >>= _) _ = _
      rw [bind_done ht]
      rfl

end Sound

end Pke.Files
