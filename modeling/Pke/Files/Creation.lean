import Pke.Files.TreeLaws

/-! Where `vfs_open`, `vfs_mkdir` and `vfs_link` make a new name. -/

namespace Pke.Files

open Lib Flow Function

variable {s t u : Vfs} {v d n q : ℕ} {nm tok : Name} {z : ℤ}

def Vfs.names (s : Vfs) : Set (Option ℕ × Name) := {k | s.dentryHash k ≠ none}

structure Reading (s t : Vfs) : Prop where
  disk : t.disk = s.disk
  freemap : t.freemap = s.freemap
  table : t.dentryHash = s.dentryHash
  dentry : t.dentry = s.dentry

namespace Reading

lemma refl (s : Vfs) : Reading s s := ⟨rfl, rfl, rfl, rfl⟩

lemma trans (s t u : Vfs) (h : Reading s t) (h' : Reading t u) : Reading s u :=
  ⟨h'.disk.trans h.disk, h'.freemap.trans h.freemap, h'.table.trans h.table, h'.dentry.trans h.dentry⟩

lemma getVinode : Carries Reading (getVinode v) := by
  refine .get fun s => ?_
  cases s.vinode v with
  | none => exact .undef
  | some i => exact .pure refl i

lemma getDentry : Carries Reading (getDentry d) := by
  refine .get fun s => ?_
  cases s.dentry d with
  | none => exact .undef
  | some e => exact .pure refl e

lemma deref {q : Option ℕ} : Carries Reading (deref q) := by
  cases q with
  | none => exact .undef
  | some q => exact .pure refl q

lemma setVinode {i : Vinode} : Carries Reading (setVinode v i) := .modify fun _ => ⟨rfl, rfl, rfl, rfl⟩

lemma inodeOf : Carries Reading (inodeOf d) := .bind trans getDentry fun _ => deref

lemma addRef : Carries Reading (addRef v z) := .bind trans getVinode fun _ => setVinode

lemma rfsR1block : Carries Reading (rfsR1block z) := .ite .leave (.modify fun _ => ⟨rfl, rfl, rfl, rfl⟩)

lemma addrAt {addrs : Fin 10 → ℤ} : Carries Reading (addrAt addrs z) := by
  unfold Files.addrAt
  split_ifs
  · exact .pure refl _
  · exact .undef

lemma rfsReadDinode : Carries Reading (rfsReadDinode z) :=
  .bind trans rfsR1block fun _ => .ite .undef (.get fun _ => .pure refl _)

lemma rfsUpdateVinode : Carries Reading (rfsUpdateVinode v) :=
  .bind trans getVinode fun _ => .bind trans rfsReadDinode fun _ => setVinode

lemma rfsAllocVinode : Carries Reading (rfsAllocVinode z) :=
  .get fun _ => .bind trans (.modify fun _ => ⟨rfl, rfl, rfl, rfl⟩) fun _ => .bind trans setVinode fun _ => .pure refl _

lemma findDirentry {addrs : Fin 10 → ℤ} (l : List ℕ) : Carries Reading (findDirentry addrs nm l) := by
  induction l with
  | nil => exact .pure refl none
  | cons i l ih =>
    refine .bind trans ?_ fun _ => .get fun _ => .ite (.pure refl _) ih
    exact .ite (.bind trans addrAt fun _ => rfsR1block) (.pure refl ())

lemma rfsLookup : Carries Reading (rfsLookup v nm) := by
  refine .bind trans getVinode fun _ => .bind trans (findDirentry _) fun r => ?_
  cases r with
  | none => exact .pure refl none
  | some i =>
    exact .get fun _ => .bind trans rfsAllocVinode fun _ => .bind trans rfsUpdateVinode fun _ => .pure refl _

lemma pathBacktrack (n : ℕ) : ∀ d, Carries Reading (pathBacktrack n d) := by
  induction n with
  | zero => exact fun _ => .undef
  | succ n ih =>
    intro d
    refine .bind trans getDentry fun e => ?_
    cases e.parent with
    | none => exact .pure refl _
    | some p => exact .bind trans (ih p) fun _ => .pure refl _

lemma getPathString : Carries Reading (getPathString d) :=
  .bind trans (pathBacktrack _ _) fun _ => .ite .undef (.pure refl _)

lemma spikeFileOpen : Carries Reading (spikeFileOpen nm) := by
  refine .get fun s => ?_
  cases s.host.entry nm with
  | none => exact .pure refl _
  | some e => exact .bind trans (.modify fun _ => ⟨rfl, rfl, rfl, rfl⟩) fun _ => .pure refl _

lemma hostfsVinode {info : FsInfo} : Carries Reading (hostfsVinode nm info) :=
  .get fun _ => .bind trans (.modify fun _ => ⟨rfl, rfl, rfl, rfl⟩) fun _ => .bind trans setVinode fun _ => .pure refl _

lemma hostfsLookup : Carries Reading (hostfsLookup d) :=
  .bind trans getPathString fun _ => .bind trans spikeFileOpen fun _ => .bind trans hostfsVinode fun _ => .pure refl _

lemma viopLookup : Carries Reading (viopLookup v d nm) := by
  refine .bind trans getVinode fun i => ?_
  cases i.sb with
  | rfs => exact rfsLookup
  | hostfs => exact hostfsLookup

end Reading

def SameDentries (s t : Vfs) : Prop := t.dentryHash = s.dentryHash ∧ t.dentry = s.dentry

namespace SameDentries

lemma reads {α : Type} {m : Flow Vfs α} (h : Carries Reading m) : Carries SameDentries m := h.mono fun _ _ h => ⟨h.table, h.dentry⟩

lemma refl (s : Vfs) : SameDentries s s := ⟨rfl, rfl⟩
lemma trans (s t u : Vfs) (h : SameDentries s t) (h' : SameDentries t u) : SameDentries s u := ⟨h'.1.trans h.1, h'.2.trans h.2⟩

lemma rfsW1block : Carries SameDentries (rfsW1block z) := .ite .leave (.modify fun _ => ⟨rfl, rfl⟩)

lemma rfsWriteDinode {i : Dinode} : Carries SameDentries (rfsWriteDinode i z) :=
  .bind trans (reads Reading.rfsR1block) fun _ => .ite .undef (.bind trans (.modify fun _ => ⟨rfl, rfl⟩) fun _ => rfsW1block)

lemma rfsAllocBlock : Carries SameDentries rfsAllocBlock := by
  refine .get fun s => ?_
  cases (List.range s.nblocks.toNat).find? fun b => s.freemap b = 0 with
  | none => exact .leave
  | some b => exact .bind trans (.modify fun _ => ⟨rfl, rfl⟩) fun _ => .pure refl _

lemma findFreeDinode (l : List ℕ) : Carries SameDentries (findFreeDinode l) := by
  induction l with
  | nil => exact .pure refl none
  | cons i l ih => exact .bind trans (reads Reading.rfsReadDinode) fun _ => .ite (.pure refl _) ih

lemma takeDinode {type blocks : ℤ} : Carries SameDentries (takeDinode type blocks) := by
  refine .bind trans (findFreeDinode _) fun r => ?_
  cases r with
  | none => exact .undef
  | some r => exact .bind trans rfsAllocBlock fun _ => .bind trans rfsWriteDinode fun _ => .pure refl _

lemma rfsWriteBackVinode : Carries SameDentries (rfsWriteBackVinode v) :=
  .bind trans (reads Reading.getVinode) fun _ => rfsWriteDinode

lemma rfsAddDirentry : Carries SameDentries (rfsAddDirentry v nm z) := by
  refine .bind trans (reads Reading.getVinode) fun _ => .ite (.pure refl _) ?_
  refine .bind trans (reads Reading.addrAt) fun _ => .bind trans (reads Reading.rfsR1block) fun _ => .ite .undef ?_
  refine .bind trans (.modify fun _ => ⟨rfl, rfl⟩) fun _ => .bind trans rfsW1block fun _ => ?_
  exact .bind trans (reads Reading.setVinode) fun _ => .bind trans rfsWriteBackVinode fun _ => .pure refl _

lemma rfsCreate : Carries SameDentries (rfsCreate v nm) := by
  refine .bind trans takeDinode fun _ => .bind trans (reads Reading.rfsAllocVinode) fun _ => ?_
  refine .bind trans (reads Reading.rfsUpdateVinode) fun _ => .bind trans rfsAddDirentry fun _ => ?_
  exact .ite (.pure refl _) (.pure refl _)

lemma hostfsCreate : Carries SameDentries (hostfsCreate d) := by
  refine .bind trans (reads Reading.getPathString) fun path => .bind trans ?_ fun _ => .bind trans (reads Reading.spikeFileOpen) fun r => ?_
  · exact .get fun _ => .ite (.modify fun _ => ⟨rfl, rfl⟩) (.pure refl _)
  · cases r with
    | handle h => exact .bind trans (reads Reading.hostfsVinode) fun _ => .pure refl _
    | null => exact .pure refl _
    | dirCache => exact .pure refl _
    | error => exact .pure refl _

lemma viopCreate : Carries SameDentries (viopCreate v d nm) := by
  refine .bind trans (reads Reading.getVinode) fun i => ?_
  cases i.sb with
  | rfs => exact rfsCreate
  | hostfs => exact hostfsCreate

lemma hostfsHookOpen : Carries SameDentries (hostfsHookOpen v d) := by
  refine .bind trans (reads Reading.getVinode) fun i => ?_
  cases i.info with
  | null =>
    refine .bind trans (reads Reading.getPathString) fun _ => .bind trans (reads Reading.spikeFileOpen) fun r => ?_
    cases r with
    | handle h => exact (reads Reading.setVinode)
    | null => exact .pure refl _
    | dirCache => exact .pure refl _
    | error => exact .pure refl _
  | handle h => exact .pure refl _
  | dirCache => exact .pure refl _
  | error => exact .pure refl _

end SameDentries

def Labelled (n : ℕ) (k : Option ℕ × Name) (s : Vfs) : Prop := ∃ e, s.dentry n = some e ∧ (e.parent, e.name) = k

def Labels (n : ℕ) (k : Option ℕ × Name) (s t : Vfs) : Prop :=
  (Labelled n k s → Labelled n k t) ∧ (k ∈ s.names → k ∈ t.names)

namespace Labels

variable {k : Option ℕ × Name}

lemma refl (s : Vfs) : Labels n k s s := ⟨id, id⟩
lemma trans (s t u : Vfs) (h : Labels n k s t) (h' : Labels n k t u) : Labels n k s u := ⟨h'.1 ∘ h.1, h'.2 ∘ h.2⟩

lemma dentries {α : Type} {m : Flow Vfs α} (h : Carries SameDentries m) : Carries (Labels n k) m := by
  refine h.mono fun s t h => ⟨fun ⟨e, he, hk⟩ => ⟨e, by rw [h.2]; exact he, hk⟩, fun hin => ?_⟩
  change t.dentryHash k ≠ none
  rw [h.1]
  exact hin

lemma reads {α : Type} {m : Flow Vfs α} (h : Carries Reading m) : Carries (Labels n k) m := dentries (SameDentries.reads h)

lemma rewrites {f : Dentry → Dentry} (hf : ∀ e, (f e).parent = e.parent ∧ (f e).name = e.name) :
    Carries (Labels n k) (do let e ← getDentry d; setDentry d (f e)) := by
  intro s
  refine yields_bind (yields_mono getDentry_yields ?_)
  rintro e _ ⟨hd, rfl⟩
  refine yields_modify ⟨?_, id⟩
  rintro ⟨e', he', hk⟩
  by_cases hn : n = d
  · subst hn
    obtain rfl : e = e' := Option.some.inj (hd.symm.trans he')
    exact ⟨f e, update_self _ _ _, by rw [(hf e).1, (hf e).2]; exact hk⟩
  · exact ⟨e', (update_of_ne hn _ _).trans he', hk⟩

lemma setInode : Carries (Labels n k) (setInode d v) := rewrites fun _ => ⟨rfl, rfl⟩
lemma addDRef : Carries (Labels n k) (addDRef d z) := rewrites fun _ => ⟨rfl, rfl⟩

lemma hashPutVinode : Carries (Labels n k) (hashPutVinode v) := by
  refine dentries (.bind SameDentries.trans (SameDentries.reads Reading.getVinode) fun i => .modify fun s => ?_)
  split_ifs
  · exact .refl s
  · exact ⟨rfl, rfl⟩

lemma openDentry {flags : ℕ} : Carries (Labels n k) (openDentry d flags) := by
  refine .bind trans (reads Reading.inodeOf) fun _ => .bind trans (reads Reading.getVinode) fun i => ?_
  refine .ite (.pure refl _) (.ite .leave (.bind trans ?_ fun f => ?_))
  · exact .get fun _ => .bind trans (dentries (.modify fun _ => ⟨rfl, rfl⟩)) fun _ => .bind trans addDRef fun _ =>
      .bind trans (dentries (.modify fun _ => ⟨rfl, rfl⟩)) fun _ => .pure refl _
  · cases i.sb with
    | rfs => exact .pure refl _
    | hostfs => exact .bind trans (dentries SameDentries.hostfsHookOpen) fun _ => .pure refl _

end Labels

def Publishes {α : Type} (n : ℕ) (k : Option ℕ × Name) (m : Flow Vfs α) : Prop :=
  ∀ s, yields m (fun _ t => Labelled n k s → k ∈ t.names) s

namespace Publishes

variable {α β : Type} {k : Option ℕ × Name} {m : Flow Vfs α} {f : α → Flow Vfs β}

lemma after (hm : Carries (Labels n k) m) (hf : ∀ a, Publishes n k (f a)) : Publishes n k (m >>= f) := fun s =>
  yields_bind (yields_mono (hm s) fun a t ht => yields_mono (hf a t) fun _ _ hu hs => hu (ht.1 hs))

lemma before (hm : Publishes n k m) (hf : ∀ a, Carries (Labels n k) (f a)) : Publishes n k (m >>= f) := fun s =>
  yields_bind (yields_mono (hm s) fun a t ht => yields_mono (hf a t) fun _ _ hu hs => hu.2 (ht hs))

lemma leave : Publishes n k (Flow.leave : Flow Vfs α) := fun _ => yields_leave

lemma hashPutDentry : Publishes n k (hashPutDentry n) := by
  intro s
  refine yields_bind (yields_mono getDentry_yields ?_)
  rintro e u ⟨hd, rfl⟩
  refine yields_modify ?_
  rintro ⟨e', he', rfl⟩
  obtain rfl : e = e' := Option.some.inj (hd.symm.trans he')
  split_ifs with hin
  · exact Option.isSome_iff_ne_none.mp hin
  · change update u.dentryHash (e.parent, e.name) (some n) (e.parent, e.name) ≠ none
    rw [update_self]
    exact Option.some_ne_none n

lemma publish : Publishes n k (publish n v) :=
  after Labels.setInode fun _ => after (Labels.reads Reading.addRef) fun _ => before hashPutDentry fun _ => Labels.hashPutVinode

end Publishes

section Walk

variable {this parent : Option ℕ} {pre post l : List Name}

structure Walked (s t : Vfs) : Prop where
  disk : t.disk = s.disk
  freemap : t.freemap = s.freemap
  names : s.names ⊆ t.names

namespace Walked

lemma refl (s : Vfs) : Walked s s := ⟨rfl, rfl, subset_rfl⟩

lemma trans (s t u : Vfs) (h : Walked s t) (h' : Walked t u) : Walked s u :=
  ⟨h'.disk.trans h.disk, h'.freemap.trans h.freemap, h.names.trans h'.names⟩

lemma reads {α : Type} {m : Flow Vfs α} (h : Carries Reading m) : Carries Walked m := by
  refine h.mono fun s t h => ⟨h.disk, h.freemap, ?_⟩
  rw [Vfs.names, Vfs.names, h.table]

lemma change {f : Vfs → Vfs} (hd : ∀ s, (f s).disk = s.disk) (hf : ∀ s, (f s).freemap = s.freemap)
    (ht : ∀ s, (f s).dentryHash = s.dentryHash) : Carries Walked (modify f) := by
  refine .modify fun s => ⟨hd s, hf s, ?_⟩
  rw [Vfs.names, Vfs.names, ht]

lemma setInode : Carries Walked (setInode d v) :=
  .bind trans (reads Reading.getDentry) fun _ => change (fun _ => rfl) (fun _ => rfl) fun _ => rfl

lemma hashPutVinode : Carries Walked (hashPutVinode v) := by
  refine .bind trans (reads Reading.getVinode) fun i => .modify fun s => ?_
  split_ifs
  · exact refl s
  · exact ⟨rfl, rfl, subset_rfl⟩

lemma hashPutDentry : Carries Walked (hashPutDentry d) := by
  refine .bind trans (reads Reading.getDentry) fun e => .modify fun s => ?_
  split_ifs
  · exact refl s
  · refine ⟨rfl, rfl, fun k hk => ?_⟩
    change update s.dentryHash (e.parent, e.name) (some d) k ≠ none
    rw [update_apply]
    split_ifs
    · exact Option.some_ne_none d
    · exact hk

lemma adopt : Carries Walked (adopt d v) := by
  refine .bind trans (reads Reading.getVinode) fun i => .get fun s => ?_
  cases hashGetVinode s i.sb i.inum with
  | some same =>
    refine .bind trans setInode fun _ => .bind trans (reads Reading.addRef) fun _ => .bind trans ?_ fun _ => hashPutDentry
    exact change (fun _ => rfl) (fun _ => rfl) fun _ => rfl
  | none =>
    exact .bind trans setInode fun _ => .bind trans (reads Reading.addRef) fun _ =>
      .bind trans hashPutVinode fun _ => hashPutDentry

end Walked

lemma Publishes.adopt {k : Option ℕ × Name} : Publishes d k (adopt d v) := by
  refine after (Labels.reads Reading.getVinode) fun i => ?_
  refine after (m := Flow.get) (fun s => yields_done rfl (Labels.refl s)) fun s => ?_
  cases hashGetVinode s i.sb i.inum with
  | some same =>
    refine after Labels.setInode fun _ => after (Labels.reads Reading.addRef) fun _ => after ?_ fun _ => hashPutDentry
    exact Labels.dentries (.modify fun _ => ⟨rfl, rfl⟩)
  | none =>
    exact after Labels.setInode fun _ => after (Labels.reads Reading.addRef) fun _ => after Labels.hashPutVinode fun _ => hashPutDentry

def Vfs.Cached (s : Vfs) : Option ℕ → List Name → Prop
  | _, [] => True
  | q, tok :: rest => ∃ d, s.dentryHash (q, tok) = some d ∧ s.Cached (some d) rest

lemma walkTokens_missing {r : Option ℕ} (hwalk : walkTokens this parent pre s = .done ⟨some d, r, none⟩ u)
    (hmiss : lookupToken (some d) tok u = .done none t) :
    walkTokens this parent (pre ++ tok :: post) s = .done ⟨none, some d, some tok⟩ t := by
  induction pre generalizing this parent s with
  | nil =>
    cases hwalk
    exact bind_done hmiss
  | cons tok' pre ih =>
    obtain ⟨o, w, ho, hrest⟩ := bind_eq_done hwalk
    cases o with
    | none => cases hrest
    | some d' => exact (bind_done ho).trans (ih hrest)

end Walk

section Paths

variable {p : ℕ} {path : Name}

lemma parentOf_up (h : s.up d = some q) : parentOf (some d) s = .done (some q) s := by
  obtain ⟨e, he, hq⟩ := Option.bind_eq_some_iff.mp h
  exact (bind_done (getDentry_eq he)).trans (by rw [hq]; rfl)

lemma lookupFinalDentry_base {q' : ℕ} {rest : Name} (h : s.base (some q', path) = (some q, rest)) :
    lookupFinalDentry path (some q') s = lookupPath rest (some q) s := by
  rw [lookupFinalDentry]
  change (if dotDotSlash _ then _ else _) = _ at h
  by_cases hdots : dotDotSlash (if dotSlash path then path.drop 2 else path) = true
  · rw [if_pos hdots, Prod.mk.injEq] at h
    rw [if_pos hdots, bind_done (parentOf_up h.1), h.2]
  · rw [if_neg hdots, Prod.mk.injEq, Option.some.injEq] at h
    rw [if_neg hdots, h.1, h.2]

lemma lookupPath_walk {rest : Name} {o : Option ℕ} (h : 2 ≤ (tokens rest).length) (hlen : rest.length < maxPathLen) :
    lookupPath rest o = walkTokens o o (tokens rest) := by
  have hdot : rest ≠ [46] := by
    rintro rfl
    exact absurd h (by decide)
  have hdots : rest ≠ [46, 46] := by
    rintro rfl
    exact absurd h (by decide)
  rw [lookupPath, if_neg hdot, if_neg hdots, if_neg (not_le.mpr hlen)]

end Paths

inductive Maker where
  | create (flags : ℕ)
  | directory
  | link (old : Name) (node : ℕ)

namespace Maker

variable {p : ℕ} {path : Name}

def run (p : ℕ) (path : Name) : Maker → Flow Vfs Bool
  | create flags => do
    let r ← vfsOpen p path flags
    pure r.isNone
  | directory => do
    let r ← vfsMkdir p path
    pure (r == -1)
  | link old _ => do
    let r ← vfsLink p old path
    pure (r == -1)

variable {op : Maker} {rest base : Name} {w : Vfs}

lemma getBaseName_eq (h : (tokens path).getLast? = some base) : getBaseName path s = .done base s := by
  rw [getBaseName, h]
  rfl

def Refuses (p : ℕ) (path : Name) (op : Maker) (s : Vfs) : Prop :=
  ∃ t, op.run p path s = .done true t ∧ t.disk = s.disk ∧ t.freemap = s.freemap ∧ t.names = s.names

end Maker

structure Missing (s : Vfs) (q : ℕ) (path : Name) (pre : List Name) (d : ℕ) (tok : Name) (post : List Name) (t : Vfs) : Prop where
  components : tokens path = pre ++ tok :: post
  walk : ∃ r u, walkTokens (some q) (some q) pre s = .done ⟨some d, r, none⟩ u ∧ lookupToken (some d) tok u = .done none t

namespace Missing

variable {p q' : ℕ} {path rest rest' : Name} {pre post : List Name} {op : Maker} {w : Vfs}

lemma lookup (h : Missing t q rest pre d tok post w) (hb : t.base (some q', rest') = (some q, rest))
    (htwo : 2 ≤ (tokens rest).length) (hlen : rest.length < maxPathLen) :
    lookupFinalDentry rest' (some q') t = .done ⟨none, some d, some tok⟩ w := by
  obtain ⟨r, u, hwalk, hmiss⟩ := h.walk
  rw [lookupFinalDentry_base hb, lookupPath_walk htwo hlen, h.components]
  exact walkTokens_missing hwalk hmiss

end Missing

end Pke.Files
