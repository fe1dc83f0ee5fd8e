import Pke.Files.Quiet
import Pke.Files.TreeLaws

/-! The descriptors of one process under `do_open`, `do_opendir`, `do_close` and `do_closedir`. -/

namespace Pke.Files

open Lib Flow Function

variable {s t u : Vfs} {p f d c : ℕ} {r : Option ℕ} {z fd : ℤ} {path : Name}

structure Opens (s : Vfs) (r : Option ℕ) (t : Vfs) : Prop where
  same : SameTable s t
  fresh : ∀ f, r = some f → s.next ≤ f ∧ f < t.next ∧ (t.file f).any File.opened = true

lemma SameTable.opens (h : SameTable s t) : Opens s none t := ⟨h, nofun⟩

lemma Opens.after (h : SameTable s t) (h' : Opens t r u) : Opens s r u :=
  ⟨h.trans h'.same, fun f hf => ⟨h.next.trans (h'.fresh f hf).1, (h'.fresh f hf).2⟩⟩

lemma Opens.later (h : Opens s r t) (h' : SameTable t u) : Opens s r u := by
  refine ⟨h.same.trans h', fun f hf => ?_⟩
  obtain ⟨hge, hlt, hopen⟩ := h.fresh f hf
  exact ⟨hge, hlt.trans_le h'.next, by rwa [h'.file f hlt]⟩

lemma Quiet.opens {α : Type} {m : Flow Vfs α} {g : α → Flow Vfs (Option ℕ)} (hm : Quiet m)
    (hg : ∀ a t, safe True (g a) (Opens t) (SameTable t) t) (s : Vfs) : safe True (m >>= g) (Opens s) (SameTable s) s := by
  refine safe_bind (safe_mono (hm s) ?_ fun _ h => h)
  intro a t ht
  exact safe_mono (hg a t) (fun _ _ h => .after ht h) fun _ h => ht.trans h

lemma allocVfsFile_opens {readable writable : Bool} (s : Vfs) :
    safe True (allocVfsFile d readable writable) (fun f => Opens s (some f)) (SameTable s) s := by
  have hfresh : SameTable s { s with next := s.next + 1 } := Quiet.fresh s
  change safe True (addDRef d 1 >>= fun _ => setFile s.next ⟨true, readable, writable, 0, d⟩ >>= fun _ =>
    (pure s.next : Flow Vfs ℕ)) _ _ { s with next := s.next + 1 }
  refine safe_bind (safe_mono (Quiet.addDRef _) ?_ fun _ h => hfresh.trans h)
  intro _ t ht
  have hst := hfresh.trans ht
  have hnext : s.next < t.next := ht.next
  change Opens s (some s.next) { t with file := update t.file s.next _ }
  refine ⟨⟨hst.slots, hst.nfiles, fun f hf => ?_, hst.next⟩, ?_⟩
  · rw [← hst.file f hf]
    exact update_of_ne hf.ne _ _
  · rintro _ ⟨rfl⟩
    refine ⟨le_rfl, hnext, ?_⟩
    change (update t.file s.next _ s.next).any File.opened = true
    rw [update_self]
    rfl

lemma openDentry_opens {flags : ℕ} (s : Vfs) : safe True (openDentry d flags) (Opens s) (SameTable s) s := by
  refine Quiet.inodeOf.opens (fun v s => ?_) s
  refine Quiet.getVinode.opens (fun i s => ?_) s
  split_ifs
  · exact safe_pure (SameTable.refl s).opens
  · exact safe_leave (.refl s)
  · refine safe_bind (safe_mono (allocVfsFile_opens s) ?_ fun _ h => h)
    intro f t ht
    cases i.sb with
    | rfs => exact safe_pure ht
    | hostfs =>
      refine safe_bind (safe_mono (Quiet.hostfsHookOpen t) ?_ fun _ h => ht.same.trans h)
      intro _ u hu
      exact safe_pure (ht.later hu)

lemma vfsOpen_opens {flags : ℕ} (s : Vfs) : safe True (vfsOpen p path flags) (Opens s) (SameTable s) s := by
  refine Quiet.startOf.opens (fun start s => ?_) s
  refine Quiet.lookupFinalDentry.opens (fun l s => ?_) s
  cases l.dentry with
  | some d => exact openDentry_opens s
  | none =>
    by_cases hcreate : flags / 64 % 2 = 1
    · change safe True (if flags / 64 % 2 = 1 then _ else _) _ _ s
      rw [if_pos hcreate]
      refine Quiet.createFile.opens (fun q s => ?_) s
      cases q with
      | none => exact safe_pure (SameTable.refl s).opens
      | some d => exact openDentry_opens s
    · change safe True (if flags / 64 % 2 = 1 then _ else _) _ _ s
      rw [if_neg hcreate]
      exact safe_pure (SameTable.refl s).opens

lemma vfsOpendir_opens (s : Vfs) : safe True (vfsOpendir p path) (Opens s) (SameTable s) s := by
  refine Quiet.startOf.opens (fun start s => ?_) s
  refine Quiet.lookupFinalDentry.opens (fun l s => ?_) s
  cases l.dentry with
  | none => exact safe_pure (SameTable.refl s).opens
  | some d =>
    refine Quiet.inodeOf.opens (fun v s => ?_) s
    refine Quiet.getVinode.opens (fun i s => ?_) s
    split_ifs
    · exact safe_pure (SameTable.refl s).opens
    · refine safe_bind (safe_mono (allocVfsFile_opens s) ?_ fun _ h => h)
      intro f t ht
      cases i.sb with
      | hostfs => exact safe_pure ht
      | rfs =>
        refine safe_bind (safe_mono (Quiet.rfsHookOpendir t) ?_ fun _ h => ht.same.trans h)
        intro _ u hu
        exact safe_pure (ht.later hu)

structure Closes (s : Vfs) (f : ℕ) (t : Vfs) : Prop where
  slots : t.slots = s.slots
  nfiles : t.nfiles = s.nfiles
  next : s.next ≤ t.next
  others : ∀ g < s.next, g ≠ f → t.file g = s.file g
  file : t.file f = s.file f ∨ ∃ F, t.file f = some F ∧ F.opened = false

lemma SameTable.closes (h : SameTable s t) (hf : f < s.next) : Closes s f t :=
  ⟨h.slots, h.nfiles, h.next, fun g hg _ => h.file g hg, .inl (h.file f hf)⟩

lemma SameTable.clear {F : File} (h : SameTable s t) (hF : F.opened = false) :
    Closes s f { t with file := update t.file f (some F) } :=
  ⟨h.slots, h.nfiles, h.next, fun g hg hne => (update_of_ne hne _ _).trans (h.file g hg), .inr ⟨F, update_self _ _ _, hF⟩⟩

lemma Closes.later (h : Closes s f t) (h' : SameTable t u) (hf : f < s.next) : Closes s f u := by
  refine ⟨h'.slots.trans h.slots, h'.nfiles.trans h.nfiles, h.next.trans h'.next, ?_, ?_⟩
  · intro g hg hne
    rw [h'.file g (hg.trans_le h.next), h.others g hg hne]
  · rw [h'.file f (hf.trans_le h.next)]
    exact h.file

lemma Quiet.closes {α β : Type} {m : Flow Vfs α} {g : α → Flow Vfs β} (hm : Quiet m) (h : SameTable s t)
    (hg : ∀ a u, SameTable s u → safe True (g a) (fun _ => Closes s f) (Closes s f) u) (hf : f < s.next) :
    safe True (m >>= g) (fun _ => Closes s f) (Closes s f) t :=
  safe_bind (safe_mono (hm t) (fun a u hu => hg a u (h.trans hu)) fun _ hu => (h.trans hu).closes hf)

lemma vfsClose_closes (hf : f < s.next) : safe True (vfsClose f) (fun _ => Closes s f) (Closes s f) s := by
  refine Quiet.getFile.closes (.refl s) (fun F t ht => ?_) hf
  refine Quiet.fileInode.closes ht (fun v t ht => ?_) hf
  refine Quiet.getVinode.closes ht (fun i t ht => ?_) hf
  split_ifs
  · exact safe_pure (ht.closes hf)
  · refine Quiet.hookClose.closes ht (fun _ t ht => ?_) hf
    refine Quiet.closeDentry.closes ht (fun _ t ht => ?_) hf
    have hclear : Closes s f { t with file := update t.file f (some { F with opened := false }) } := ht.clear rfl
    exact hclear

lemma vfsClosedir_closes (hf : f < s.next) : safe True (vfsClosedir f) (fun _ => Closes s f) (Closes s f) s := by
  refine Quiet.getFile.closes (.refl s) (fun F t ht => ?_) hf
  refine Quiet.fileInode.closes ht (fun v t ht => ?_) hf
  refine Quiet.getVinode.closes ht (fun i t ht => ?_) hf
  split_ifs
  · exact safe_pure (ht.closes hf)
  · refine Quiet.addDRef.closes ht (fun _ t ht => ?_) hf
    have hclear : Closes s f { t with file := update t.file f (some { F with opened := false }) } := ht.clear rfl
    cases i.sb with
    | hostfs => exact hclear
    | rfs =>
      refine safe_bind_done rfl (safe_bind (safe_mono (Quiet.rfsHookClosedir _) ?_ fun _ h => hclear.later h hf))
      intro _ u hu
      exact safe_pure (hclear.later hu hf)

structure Tabled (s : Vfs) (p : ℕ) : Prop where
  file : ∀ k f, s.slots p k = some f → f < s.next ∧ ∃ F, s.file f = some F
  inj : ∀ k l f, s.slots p k = some f → s.slots p l = some f → k = l

def openCount (s : Vfs) (p : ℕ) : ℕ := ((Finset.range maxFiles).filter fun k => isNone s p k = false).card

def SameEntry (s t : Vfs) (p k : ℕ) : Prop :=
  t.slots p k = s.slots p k ∧ ∀ f, s.slots p k = some f → t.file f = s.file f

lemma SameEntry.isNone {k : ℕ} (h : SameEntry s t p k) : isNone t p k = isNone s p k := by
  cases hf : s.slots p k with
  | none => rw [Files.isNone, Files.isNone, h.1, hf]
  | some f => rw [isNone_of_slots (h.1.trans hf), isNone_of_slots hf, h.2 f hf]

lemma SameTable.entry (h : SameTable s t) (hs : Tabled s p) (k : ℕ) : SameEntry s t p k :=
  ⟨by rw [h.slots], fun f hf => h.file f (hs.file k f hf).1⟩

lemma openCount_congr (h : ∀ k < maxFiles, SameEntry s t p k) : openCount t p = openCount s p := by
  rw [openCount, openCount]
  congr 1
  refine Finset.filter_congr fun k hk => ?_
  rw [(h k (Finset.mem_range.mp hk)).isNone]

lemma openCount_succ {k : ℕ} (hk : k < maxFiles) (hs : isNone s p k = true) (ht : isNone t p k = false)
    (h : ∀ l, l ≠ k → SameEntry s t p l) : openCount t p = openCount s p + 1 := by
  have hnot : k ∉ (Finset.range maxFiles).filter fun k => isNone s p k = false := by
    rw [Finset.mem_filter, hs]
    simp
  rw [openCount, openCount, ← Finset.card_insert_of_notMem hnot]
  congr 1
  ext l
  rw [Finset.mem_insert, Finset.mem_filter, Finset.mem_filter]
  by_cases hl : l = k
  · subst hl
    simp [Finset.mem_range.mpr hk, ht]
  · rw [(h l hl).isNone]
    simp [hl]

lemma exists_isNone (h : openCount s p < maxFiles) : ∃ k, (List.range maxFiles).find? (isNone s p) = some k := by
  cases hfind : (List.range maxFiles).find? (isNone s p) with
  | some k => exact ⟨k, rfl⟩
  | none =>
    rw [List.find?_eq_none] at hfind
    have hall : ((Finset.range maxFiles).filter fun k => isNone s p k = false) = Finset.range maxFiles := by
      refine Finset.filter_true_of_mem fun k hk => ?_
      have hk' := hfind k (List.mem_range.mpr (Finset.mem_range.mp hk))
      simpa using hk'
    rw [openCount, hall, Finset.card_range] at h
    exact absurd h (lt_irrefl _)

inductive TableOp where
  | opens (path : Name) (flags : ℕ)
  | opendir (path : Name)
  | close (fd : ℤ)
  | closedir (fd : ℤ)

namespace TableOp

def perform (p : ℕ) : TableOp → Flow Vfs ℤ
  | opens path flags => doOpen p path flags
  | opendir path => doOpendir p path
  | close fd => doClose p fd
  | closedir fd => doClosedir p fd

def Opening : TableOp → Prop
  | opens _ _ | opendir _ => True
  | close _ | closedir _ => False

def Ends (p : ℕ) (op : TableOp) (s t : Vfs) : Prop := (∃ r, op.perform p s = .done r t) ∨ op.perform p s = .left t

end TableOp

inductive TableRun (p : ℕ) : ℕ → Vfs → Prop
  | start {s : Vfs} (hslots : ∀ k, s.slots p k = none) (hnone : s.nfiles p = 0) : TableRun p 0 s
  | step {c : ℕ} {s t : Vfs} {op : TableOp} (hs : TableRun p c s) (h : op.Ends p s t) :
      TableRun p (c + (openCount s p - openCount t p)) t

structure Placed (p : ℕ) (s : Vfs) (r : ℤ) (t : Vfs) : Prop where
  entry : ∃ k < maxFiles, r = k ∧ isNone s p k = true ∧ isNone t p k = false ∧ ∀ l, l ≠ k → SameEntry s t p l
  tabled : Tabled t p
  nfiles : t.nfiles p = s.nfiles p + 1

lemma isNone_of_slot {k : ℕ} (hk : s.slots p k = some f) (hopen : (s.file f).any File.opened = true) : isNone s p k = false := by
  obtain ⟨F, hF, ho⟩ := (Option.any_eq_true _ _).mp hopen
  rw [isNone_of_slots hk, hF]
  dsimp only
  rw [ho]
  rfl

lemma placeFile_placed (hs : Tabled s p) (ht : Opens s (some f) t) {k : ℕ}
    (hk : (List.range maxFiles).find? (isNone t p) = some k) : ∃ u, placeFile p f t = .done (k : ℤ) u ∧ Placed p s k u := by
  obtain ⟨hge, hlt, hopen⟩ := ht.fresh f rfl
  have hkmax : k < maxFiles := List.mem_range.mp (List.mem_of_find?_eq_some hk)
  have hmin : min k (maxFiles - 1) = k := by omega
  have hnone : isNone s p k = true := by
    rw [← (ht.same.entry hs k).isNone]
    exact List.find?_some hk
  refine ⟨{ t with slots := update t.slots p (update (t.slots p) k (some f)), nfiles := update t.nfiles p (t.nfiles p + 1) },
    ?_, ?_⟩
  · rw [placeFile, get_bind, hk, modify_bind, Option.getD_some, hmin]
    rfl
  · have hslot : ∀ l, update t.slots p (update (t.slots p) k (some f)) p l = if l = k then some f else s.slots p l := by
      intro l
      rw [update_self, update_apply, ht.same.slots]
    have hold : ∀ l g, s.slots p l = some g → g ≠ f := fun l g hg => by
      have := (hs.file l g hg).1
      omega
    refine ⟨⟨k, hkmax, rfl, hnone, ?_, ?_⟩, ⟨?_, ?_⟩, ?_⟩
    · exact isNone_of_slot ((hslot k).trans (if_pos rfl)) hopen
    · exact fun l hl => ⟨(hslot l).trans (if_neg hl), (ht.same.entry hs l).2⟩
    · intro l g hg
      change update t.slots p _ p l = some g at hg
      change g < t.next ∧ ∃ F, t.file g = some F
      rw [hslot] at hg
      by_cases hl : l = k
      · rw [if_pos hl, Option.some.injEq] at hg
        subst hg
        obtain ⟨F, hF, -⟩ := (Option.any_eq_true _ _).mp hopen
        exact ⟨hlt, F, hF⟩
      · rw [if_neg hl] at hg
        obtain ⟨hg', F, hF⟩ := hs.file l g hg
        exact ⟨hg'.trans_le ht.same.next, F, (ht.same.file g hg').trans hF⟩
    · intro l m g hl hm
      change update t.slots p _ p l = some g at hl
      change update t.slots p _ p m = some g at hm
      rw [hslot] at hl hm
      by_cases hlk : l = k
      · rw [if_pos hlk, Option.some.injEq] at hl
        by_cases hmk : m = k
        · rw [hlk, hmk]
        · rw [if_neg hmk] at hm
          exact absurd hl.symm (hold m g hm)
      · rw [if_neg hlk] at hl
        by_cases hmk : m = k
        · rw [if_pos hmk, Option.some.injEq] at hm
          exact absurd hm.symm (hold l g hl)
        · rw [if_neg hmk] at hm
          exact hs.inj l m g hl hm
    · change update t.nfiles p (t.nfiles p + 1) p = _
      rw [update_self, ht.same.nfiles]

inductive OpensTo (p : ℕ) (s : Vfs) : Outcome Vfs ℤ → Prop
  | undefined : OpensTo p s .undefined
  | left {t : Vfs} (h : SameTable s t) : OpensTo p s (.left t)
  | failed {t : Vfs} (h : SameTable s t) : OpensTo p s (.done (-1) t)
  | placed {r : ℤ} {t : Vfs} (h : Placed p s r t) : OpensTo p s (.done r t)
  | halted (h : maxFiles ≤ s.nfiles p) : OpensTo p s .halted

lemma OpensTo.ends {out : Outcome Vfs ℤ} (h : OpensTo p s out) (hends : (∃ r, out = .done r t) ∨ out = .left t) :
    SameTable s t ∨ ∃ r, Placed p s r t := by
  rcases hends with ⟨r, rfl⟩ | rfl
  · cases h with
    | failed h => exact .inl h
    | placed h => exact .inr ⟨r, h⟩
  · cases h with
    | left h => exact .inl h

lemma OpensTo.bind {m : Flow Vfs (Option ℕ)} {g : Option ℕ → Flow Vfs ℤ} (hm : safe True m (Opens s) (SameTable s) s)
    (hnone : ∀ t, g none t = .done (-1) t) (hsome : ∀ f t, Opens s (some f) t → OpensTo p s (g (some f) t)) :
    OpensTo p s ((m >>= g) s) := by
  rw [safe] at hm
  cases hrun : m s with
  | undefined =>
    rw [bind_undefined hrun]
    exact .undefined
  | halted =>
    rw [hrun] at hm
    exact hm.elim
  | left t =>
    rw [hrun] at hm
    rw [bind_left hrun]
    exact .left hm
  | done q t =>
    rw [hrun] at hm
    rw [bind_done hrun]
    cases q with
    | none =>
      rw [hnone]
      exact .failed hm.same
    | some f => exact hsome f t hm

lemma opening_cases (hs : Tabled s p) (hcount : (openCount s p : ℤ) ≤ s.nfiles p) {op : TableOp} (hop : op.Opening) :
    OpensTo p s (op.perform p s) := by
  -- an entry is free as long as the count does not say that all are taken
  have hfree : ∀ t, SameTable s t → ¬ maxFiles ≤ s.nfiles p → ∃ k, (List.range maxFiles).find? (isNone t p) = some k := by
    intro t ht hlt
    refine exists_isNone ?_
    rw [openCount_congr fun k _ => ht.entry hs k]
    omega
  cases op with
  | close fd => exact hop.elim
  | closedir fd => exact hop.elim
  | opens path flags =>
    refine .bind (vfsOpen_opens s) (fun _ => rfl) fun f t ht => ?_
    change OpensTo p s ((if maxFiles ≤ t.nfiles p then halt else placeFile p f) t)
    rw [ht.same.nfiles]
    by_cases hfull : maxFiles ≤ s.nfiles p
    · rw [if_pos hfull]
      exact .halted hfull
    · obtain ⟨k, hk⟩ := hfree t ht.same hfull
      obtain ⟨u, hu, hplaced⟩ := placeFile_placed hs ht hk
      rw [if_neg hfull, hu]
      exact .placed hplaced
  | opendir path =>
    refine .bind (vfsOpendir_opens s) (fun _ => rfl) fun f t ht => ?_
    change OpensTo p s ((if ((List.range maxFiles).find? (isNone t p)).isNone then halt else placeFile p f) t)
    cases hk : (List.range maxFiles).find? (isNone t p) with
    | some k =>
      obtain ⟨u, hu, hplaced⟩ := placeFile_placed hs ht hk
      rw [if_neg (by simp), hu]
      exact .placed hplaced
    | none =>
      rw [if_pos (by rfl)]
      refine .halted ?_
      by_contra hlt
      obtain ⟨k, hk'⟩ := hfree t ht.same hlt
      rw [hk] at hk'
      cases hk'

lemma closing_cases (hs : Tabled s p) {op : TableOp} (hop : ¬ op.Opening) (h : op.Ends p s t) :
    ∃ k f, s.slots p k = some f ∧ Closes s f t := by
  have hcase : ∀ (fd : ℤ) (m : ℕ → Flow Vfs ℤ), (∀ f, f < s.next → safe True (m f) (fun _ => Closes s f) (Closes s f) s) →
      ((∃ r, (getOpenedFile p fd >>= m) s = .done r t) ∨ (getOpenedFile p fd >>= m) s = .left t) →
      ∃ k f, s.slots p k = some f ∧ Closes s f t := by
    intro fd m hm hends
    cases hslot : s.slots p (if 0 ≤ fd ∧ fd < maxFiles then fd.toNat else maxFiles - 1) with
    | none =>
      have hno : (getOpenedFile p fd >>= m) s = .undefined := bind_undefined (by rw [getOpenedFile, get_bind, hslot]; rfl)
      rw [hno] at hends
      rcases hends with ⟨r, hr⟩ | hr <;> cases hr
    | some f =>
      have hrun : (getOpenedFile p fd >>= m) s = m f s := bind_done (by rw [getOpenedFile, get_bind, hslot]; rfl)
      have hsafe := hm f (hs.file _ f hslot).1
      rw [hrun] at hends
      refine ⟨_, f, hslot, ?_⟩
      rw [safe] at hsafe
      rcases hends with ⟨r, hr⟩ | hr
      · rwa [hr] at hsafe
      · rwa [hr] at hsafe
  cases op with
  | opens path flags => exact absurd trivial hop
  | opendir path => exact absurd trivial hop
  | close fd => exact hcase fd vfsClose (fun _ => vfsClose_closes) h
  | closedir fd => exact hcase fd vfsClosedir (fun _ => vfsClosedir_closes) h

lemma Closes.tabled (h : Closes s f t) (hs : Tabled s p) : Tabled t p := by
  refine ⟨fun k g hg => ?_, fun k l g => ?_⟩
  · rw [h.slots] at hg
    obtain ⟨hlt, F, hF⟩ := hs.file k g hg
    refine ⟨hlt.trans_le h.next, ?_⟩
    by_cases hgf : g = f
    · rw [hgf] at hF ⊢
      rcases h.file with hsame | ⟨F', hF', -⟩
      · exact ⟨F, hsame.trans hF⟩
      · exact ⟨F', hF'⟩
    · exact ⟨F, (h.others g hlt hgf).trans hF⟩
  · rw [h.slots]
    exact hs.inj k l g

lemma Closes.openCount_le (h : Closes s f t) (hs : Tabled s p) : openCount t p ≤ openCount s p := by
  refine Finset.card_le_card fun k hk => ?_
  rw [Finset.mem_filter] at hk ⊢
  refine ⟨hk.1, ?_⟩
  by_contra hnone
  rw [Bool.not_eq_false] at hnone
  -- an entry that was free is free still
  have hstill : isNone t p k = true := by
    have hslots : t.slots p k = s.slots p k := by rw [h.slots]
    cases hslot : s.slots p k with
    | none => rw [isNone, hslots, hslot]
    | some g =>
      rw [isNone_of_slots hslot] at hnone
      rw [isNone_of_slots (hslots.trans hslot)]
      by_cases hgf : g = f
      · rw [hgf] at hnone ⊢
        rcases h.file with hsame | ⟨F, hF, ho⟩
        · rwa [hsame]
        · rw [hF]
          exact decide_eq_true ho
      · rwa [h.others g (hs.file k g hslot).1 hgf]
  rw [hstill] at hk
  exact absurd hk.2 (by decide)

lemma SameTable.tabled (h : SameTable s t) (hs : Tabled s p) : Tabled t p := by
  refine ⟨fun k g hg => ?_, fun k l g => ?_⟩
  · rw [h.slots] at hg
    obtain ⟨hlt, F, hF⟩ := hs.file k g hg
    exact ⟨hlt.trans_le h.next, F, (h.file g hlt).trans hF⟩
  · rw [h.slots]
    exact hs.inj k l g

lemma TableRun.invariant (h : TableRun p c s) : Tabled s p ∧ s.nfiles p = openCount s p + c := by
  induction h with
  | @start s hslots hnone =>
    have hzero : openCount s p = 0 := by
      rw [openCount, Finset.card_eq_zero, Finset.filter_eq_empty_iff]
      intro k _
      rw [isNone, hslots]
      simp
    refine ⟨⟨fun k f hf => ?_, fun k l f hf => ?_⟩, ?_⟩
    · rw [hslots] at hf
      cases hf
    · rw [hslots] at hf
      cases hf
    · rw [hnone, hzero]
      rfl
  | @step c s t op hs h ih =>
    obtain ⟨htab, hcount⟩ := ih
    by_cases hop : op.Opening
    · rcases (opening_cases htab (by omega) hop).ends h with hsame | ⟨r, hplaced⟩
      · have heq := openCount_congr fun k _ => hsame.entry htab k
        refine ⟨hsame.tabled htab, ?_⟩
        rw [hsame.nfiles]
        omega
      · obtain ⟨k, hk, -, hnone, hopen, hothers⟩ := hplaced.entry
        have heq := openCount_succ hk hnone hopen hothers
        refine ⟨hplaced.tabled, ?_⟩
        rw [hplaced.nfiles]
        omega
    · obtain ⟨k, f, -, hcloses⟩ := closing_cases htab hop h
      have hle := hcloses.openCount_le htab
      refine ⟨hcloses.tabled htab, ?_⟩
      rw [hcloses.nfiles]
      omega

structure TableLaw (s : Vfs) (p : ℕ) : Prop where
  count : s.nfiles p = openCount s p
  opens : ∀ {op : TableOp}, op.Opening → ∀ {r t}, op.perform p s = .done r t → 0 ≤ r →
    ∃ k < maxFiles, r = k ∧ isNone s p k = true ∧ ∀ l, l ≠ k → SameEntry s t p l
  panics : ∀ {op : TableOp}, op.Opening → openCount s p < maxFiles → op.perform p s ≠ .halted

/-- The table is in order as long as no descriptor has been closed. -/
theorem table_law_iff (h : TableRun p c s) : TableLaw s p ↔ c = 0 := by
  obtain ⟨htab, hcount⟩ := h.invariant
  constructor
  · intro hlaw
    have := hlaw.count
    omega
  · rintro rfl
    refine ⟨by omega, ?_, ?_⟩
    · intro op hop r t hrun hr
      have hcases := opening_cases htab (by omega) hop
      rw [hrun] at hcases
      cases hcases with
      | failed => omega
      | placed h =>
        obtain ⟨k, hk, hrk, hnone, -, hothers⟩ := h.entry
        exact ⟨k, hk, hrk, hnone, hothers⟩
    · intro op hop hlt hhalt
      have hcases := opening_cases htab (by omega) hop
      rw [hhalt] at hcases
      cases hcases with
      | halted hfull => omega

def TableOp.play (p : ℕ) : List TableOp → Vfs → Option Vfs
  | [], s => some s
  | op :: rest, s =>
    match op.perform p s with
    | .done _ t => play p rest t
    | _ => none

lemma TableRun.play {ops : List TableOp} (h : TableRun p c s) (hrun : TableOp.play p ops s = some t) :
    ∃ c', TableRun p c' t := by
  induction ops generalizing s c with
  | nil =>
    cases hrun
    exact ⟨c, h⟩
  | cons op rest ih =>
    rw [TableOp.play] at hrun
    cases hperf : op.perform p s with
    | done r u =>
      rw [hperf] at hrun
      exact ih (h.step (.inl ⟨r, hperf⟩)) hrun
    | left u =>
      rw [hperf] at hrun
      cases hrun
    | halted =>
      rw [hperf] at hrun
      cases hrun
    | undefined =>
      rw [hperf] at hrun
      cases hrun

lemma table_run {ops : List TableOp} {test : Vfs → Bool}
    (h : ((fsInit (fun _ => 0) blank).ends fun _ t => (TableOp.play 0 ops t).any test) = true) :
    ∃ c s, TableRun 0 c s ∧ test s = true := by
  obtain ⟨_, s, hboot, hplay⟩ := Outcome.ends_done h
  obtain ⟨t, hrun, htest⟩ := (Option.any_eq_true _ _).mp hplay
  have hsame : SameTable blank s := Stays.done (Quiet.fsInit _) hboot
  have hstart : TableRun 0 0 s := .start (fun k => by rw [hsame.slots]; rfl) (by rw [hsame.nfiles]; rfl)
  obtain ⟨c, hc⟩ := hstart.play hrun
  exact ⟨c, t, hc, htest⟩

theorem table_law_iff_opened : ∃ s, TableRun 0 0 s ∧ openCount s 0 = 1 ∧ TableLaw s 0 := by
  have hrun : ((fsInit (fun _ => 0) blank).ends fun _ t => (TableOp.play 0 [.opens (onRamdisk [97]) 66] t).any fun s =>
      decide (s.nfiles 0 = 1 ∧ openCount s 0 = 1)) = true := by decide +kernel
  obtain ⟨c, s, hs, htest⟩ := table_run hrun
  obtain ⟨hn, hopen⟩ := of_decide_eq_true htest
  obtain ⟨-, hcount⟩ := hs.invariant
  obtain rfl : c = 0 := by omega
  exact ⟨s, hs, hopen, (table_law_iff hs).mpr rfl⟩

theorem closed_descriptor_counted : ∃ s, TableRun 0 1 s ∧ openCount s 0 = 0 ∧ s.nfiles 0 = 1 := by
  have hrun : ((fsInit (fun _ => 0) blank).ends fun _ t =>
      (TableOp.play 0 [.opens (onRamdisk [97]) 66, .close 0] t).any fun s =>
        decide (s.nfiles 0 = 1 ∧ openCount s 0 = 0)) = true := by decide +kernel
  obtain ⟨c, s, hs, htest⟩ := table_run hrun
  obtain ⟨hn, hopen⟩ := of_decide_eq_true htest
  obtain ⟨-, hcount⟩ := hs.invariant
  obtain rfl : c = 1 := by omega
  exact ⟨s, hs, hopen, hn⟩

end Pke.Files
