import Pke.Files.VfsLinks
import Pke.Files.View
import Pke.Files.Boot

/-! Runs of the file system: the operations of `vfs.c` one after another, from the state that `fs_init` leaves. -/

namespace Pke.Files

open Lib Flow Function

inductive FsOp
  | look (p : ℕ) (path : Name)
  | opens (p : ℕ) (path : Name) (flags : ℕ)
  | close (f : ℕ)
  | read (f count : ℕ)
  | write (f : ℕ) (data : List UInt8)
  | lseek (f : ℕ) (offset whence : ℤ)
  | link (p : ℕ) (old new : Name)
  | unlink (p : ℕ) (path : Name)
  | mkdir (p : ℕ) (path : Name)
  | opendir (p : ℕ) (path : Name)
  | closedir (f : ℕ)
  | ccwd (p : ℕ) (path : Name)

def silent {α : Type} (m : Flow Vfs α) : Flow Vfs Unit := m >>= fun _ => pure ()

namespace FsOp

def perform : FsOp → Flow Vfs Unit
  | look p path => silent (startOf p path >>= fun start => lookupFinalDentry start.2 start.1)
  | opens p path flags => silent (vfsOpen p path flags)
  | close f => silent (vfsClose f)
  | read f count => silent (vfsRead f count)
  | write f data => silent (vfsWrite f data)
  | lseek f offset whence => silent (vfsLseek f offset whence)
  | link p old new => silent (vfsLink p old new)
  | unlink p path => silent (vfsUnlink p path)
  | mkdir p path => silent (vfsMkdir p path)
  | opendir p path => silent (vfsOpendir p path)
  | closedir f => silent (vfsClosedir f)
  | ccwd p path => silent (vfsCcwd p path)

def Ends (op : FsOp) (s t : Vfs) : Prop := op.perform s = .done () t ∨ op.perform s = .left t

end FsOp

def Vfs.IsOpen (s : Vfs) (f : ℕ) : Prop := ∃ F, s.file f = some F ∧ F.opened = true

def Vfs.Leads (s : Vfs) (adds : Bool) (start : Option ℕ × Name) : Prop := ∃ q rest, s.OnRam s.vol adds start q rest

namespace FsOp

def Allowed (s : Vfs) : FsOp → Prop
  | opens p path flags => s.Leads (decide (flags / 64 % 2 = 1)) (s.start p path)
  | mkdir p path => s.Leads true (s.start p path)
  | link p old new => s.Leads false (s.start p old) ∧ s.Leads true (some s.root, new)
  | look p path | unlink p path | opendir p path => s.Leads false (s.start p path)
  | ccwd p path => s.Leads false (Sound.ccwdStart s p path)
  | close f | closedir f | read f _ | lseek f _ _ => s.IsOpen f
  | write f data => ∃ F, s.file f = some F ∧ F.opened = true ∧ F.offset + data.length ≤ 40960

def scope (s : Vfs) : FsOp → Scope
  | write f _ => ⟨{n | ∃ F, s.file f = some F ∧ s.num F.dentry = some n}, ∅⟩
  | close f | closedir f => ⟨∅, {f}⟩
  | _ => ⟨∅, ∅⟩

end FsOp

variable {s t : Vfs} {V W : Vol} {op : FsOp}

lemma silent_safe {α : Type} {U : Prop} {m : Flow Vfs α} {P E : Vfs → Prop} (h : safe U m (fun _ => P) E s) :
    safe U (silent m) (fun _ => P) E s := safe_bind h

lemma Vfs.Leads.onRam {adds : Bool} {start : Option ℕ × Name} (h : s.Leads adds start) (hs : Sound s V) :
    ∃ q rest, s.OnRam V adds start q rest := by
  obtain ⟨q, rest, hon⟩ := h
  exact ⟨q, rest, hs.onRam hon⟩

lemma Sound.step_safe (h : Sound s V) (hop : op.Allowed s) :
    safe True op.perform (fun _ => Kept (op.scope s) s V) (Kept (op.scope s) s V) s := by
  cases op with
  | look p path =>
    obtain ⟨q, rest, hon⟩ := hop.onRam h
    obtain ⟨hstart, hbase⟩ := h.startOf_eq p path
    have hfinal := safe_weaken (h.final hbase hon) fun _ => trivial
    refine silent_safe (safe_bind_done hstart (safe_mono hfinal ?_ fun _ hf => hf.elim))
    rintro _ u ⟨-, W, hlook, -⟩
    exact hlook.kept
  | opens p path flags =>
    obtain ⟨q, rest, hon⟩ := hop.onRam h
    exact silent_safe (safe_weaken (h.vfsOpen_safe hon) fun _ => trivial)
  | mkdir p path =>
    obtain ⟨q, rest, hon⟩ := hop.onRam h
    exact silent_safe (safe_weaken (h.vfsMkdir_safe hon) fun _ => trivial)
  | link p old new =>
    obtain ⟨q, rest, hon⟩ := hop.1.onRam h
    obtain ⟨q', rest', hon'⟩ := hop.2.onRam h
    exact silent_safe (safe_weaken (h.vfsLink_safe hon hon') fun _ => trivial)
  | unlink p path =>
    obtain ⟨q, rest, hon⟩ := hop.onRam h
    exact silent_safe (safe_weaken (h.vfsUnlink_safe hon) fun _ => trivial)
  | opendir p path =>
    obtain ⟨q, rest, hon⟩ := hop.onRam h
    exact silent_safe (safe_weaken (h.vfsOpendir_safe hon) fun _ => trivial)
  | ccwd p path =>
    obtain ⟨q, rest, hon⟩ := hop.onRam h
    exact silent_safe (safe_weaken (h.vfsCcwd_safe hon) fun _ => trivial)
  | close f =>
    obtain ⟨F, hF, ho⟩ := hop
    have hclose := h.vfsClose_safe (U := True) (show f ∈ (FsOp.scope s (.close f)).closes from rfl) hF ho
    exact silent_safe (safe_mono hclose (fun _ _ ⟨W, hW, _⟩ => ⟨W, hW⟩) (fun _ hf => hf.elim))
  | closedir f =>
    obtain ⟨F, hF, ho⟩ := hop
    have hclose := h.vfsClosedir_safe (U := True) (show f ∈ (FsOp.scope s (.closedir f)).closes from rfl) hF ho
    exact silent_safe (safe_mono hclose (fun _ _ ⟨W, hW, _⟩ => ⟨W, hW⟩) (fun _ hf => hf.elim))
  | read f count =>
    obtain ⟨F, hF, ho⟩ := hop
    exact silent_safe (h.vfsRead_safe hF ho count)
  | lseek f offset whence =>
    obtain ⟨F, hF, ho⟩ := hop
    exact silent_safe (h.vfsLseek_safe hF ho offset whence)
  | write f data =>
    obtain ⟨F, hF, ho, hfit⟩ := hop
    have hown : {n | ∃ F, s.file f = some F ∧ s.num F.dentry = some n} = {n | s.num F.dentry = some n} := by
      ext n
      rw [Set.mem_ofPred, Set.mem_ofPred, hF]
      exact ⟨fun ⟨F', hF', hn⟩ => Option.some.inj hF' ▸ hn, fun hn => ⟨F, rfl, hn⟩⟩
    rw [FsOp.scope, hown]
    exact silent_safe (h.vfsWrite_safe hF ho hfit)

lemma FsOp.Ends.of_safe {P : Vfs → Prop} (h : op.Ends s t) (hs : safe True op.perform (fun _ => P) P s) : P t := by
  rw [safe] at hs
  rcases h with h | h
  · rwa [h] at hs
  · rwa [h] at hs

lemma Sound.step (h : Sound s V) (hop : op.Allowed s) (hends : op.Ends s t) : Kept (op.scope s) s V t :=
  hends.of_safe (h.step_safe hop)

inductive Reached (C : Vfs → FsOp → Prop) : Vfs → Prop
  | boot {s t : Vfs} {rest : Fin 10 → ℤ} (hs : s.Blank) (hrest : ∀ i, -2 ^ 31 ≤ rest i ∧ rest i < 2 ^ 31)
      (h : fsInit rest s = .done () t) : Reached C t
  | step {s t : Vfs} {op : FsOp} (hs : Reached C s) (hop : C s op) (h : op.Ends s t) : Reached C t

namespace Reached

variable {C : Vfs → FsOp → Prop}

lemma booted {rest : Fin 10 → ℤ} (hs : s.Blank) (hrest : ∀ i, -2 ^ 31 ≤ rest i ∧ rest i < 2 ^ 31)
    (h : fsInit rest s = .done () t) :
    ∃ D, Sound t (emptyVol D) ∧ Formatted rest D ∧ ∀ f, t.file f = none := by
  obtain ⟨t', D, ht', hsound, hD, hfile⟩ := fsInit_eq hs hrest
  rw [h] at ht'
  cases ht'
  exact ⟨D, hsound, hD, hfile⟩

lemma invariant {I : Vfs → Vol → Prop} (hC : ∀ {s op}, C s op → op.Allowed s)
    (hboot : ∀ {s D rest}, Sound s (emptyVol D) → Formatted rest D → (∀ f, s.file f = none) → I s (emptyVol D))
    (hstep : ∀ {s t V W op}, Sound s V → I s V → C s op → Follows (op.scope s) s V t W → op.Ends s t → I t W)
    (h : Reached C s) : ∃ V, Sound s V ∧ I s V := by
  induction h with
  | boot hs hrest h =>
    obtain ⟨D, hsound, hD, hfile⟩ := booted hs hrest h
    exact ⟨_, hsound, hboot hsound hD hfile⟩
  | step hs hop h ih =>
    obtain ⟨V, hsound, hI⟩ := ih
    obtain ⟨W, hW⟩ := hsound.step (hC hop) h
    exact ⟨W, hW.sound, hstep hsound hI hop hW h⟩

lemma sound (h : Reached FsOp.Allowed s) : ∃ V, Sound s V := by
  obtain ⟨V, hV, -⟩ := h.invariant (I := fun _ _ => True) id (fun _ _ _ => trivial) (fun _ _ _ _ _ => trivial)
  exact ⟨V, hV⟩

end Reached

/-! Runs that can be computed, with the tests that go with the conditions. -/

def blank : Vfs where
  disk _ _ := 0
  iobuffer _ := 0
  nblocks := 0
  freemap _ := 0
  dentry _ := none
  vinode _ := none
  file _ := none
  handle _ := none
  next := 0
  dentryHash _ := none
  vinodeHash _ := none
  root := 0
  cwd _ := 0
  slots _ _ := none
  nfiles _ := 0
  host := ⟨fun _ => none, fun _ => [], fun _ => false, 0⟩
  discontinuous := true

lemma blank_blank : blank.Blank := ⟨fun _ => rfl, fun _ => rfl, fun _ => rfl⟩

def Vol.walks (V : Vol) (adds : Bool) : ℕ → List Name → Bool
  | _, [] => true
  | m, tok :: rest => decide (m < ninodes ∧ (V.node m).type = dirI ∧ tok.length < rfsMaxFileNameLen ∧
      (adds = true → tok ∉ (V.dir m).map Prod.fst → (V.dir m).length < oneBlockDirentrys)) &&
    (V.dir m).all fun e => e.1 != tok || V.walks adds e.2.toNat rest

lemma Vol.walks_iff {adds : Bool} {m : ℕ} {l : List Name} (h : V.walks adds m l = true) : V.Walks adds m l := by
  induction l generalizing m with
  | nil => trivial
  | cons tok rest ih =>
    rw [Vol.walks, Bool.and_eq_true, decide_eq_true_eq, List.all_eq_true] at h
    obtain ⟨⟨hm, htype, hlen, hroom⟩, hall⟩ := h
    refine ⟨⟨hm, htype⟩, hlen, hroom, ?_⟩
    intro k hk
    have hnext := hall _ hk
    rw [bne_self_eq_false, Bool.false_or, Int.toNat_natCast] at hnext
    exact ih hnext

def Vfs.leads (s : Vfs) (adds : Bool) (start : Option ℕ × Name) : Bool :=
  match s.base start with
  | (some q, path) => decide ((0 : UInt8) ∉ path ∧ path ≠ [46] ∧ path ≠ [46, 46]) &&
    (decide (q = s.root) && (match tokens path with
      | [] => true
      | tok :: rest => tok == ramdisk0 && s.vol.walks adds 0 rest) ||
    (s.num q).any fun m => s.vol.walks adds m (tokens path))
  | (none, _) => false

lemma Vfs.leads_of {adds : Bool} {start : Option ℕ × Name} (h : s.leads adds start = true) : s.Leads adds start := by
  rw [Vfs.leads] at h
  obtain ⟨⟨q, path⟩, hbase⟩ : ∃ b, s.base start = b := ⟨_, rfl⟩
  rw [hbase] at h
  cases q with
  | none => cases h
  | some q =>
    rw [Bool.and_eq_true, decide_eq_true_eq, Bool.or_eq_true, Bool.and_eq_true, decide_eq_true_eq] at h
    obtain ⟨⟨hstr, hdot, hdots⟩, hwalk⟩ := h
    refine ⟨q, path, hbase, hstr, .inr (.inr ⟨hdot, hdots, ?_⟩)⟩
    rcases hwalk with ⟨hq, hwalk⟩ | hwalk
    · refine .inl ⟨hq, ?_⟩
      cases htok : tokens path with
      | nil => exact .inl rfl
      | cons tok rest =>
        rw [htok, Bool.and_eq_true, beq_iff_eq] at hwalk
        exact .inr ⟨rest, by rw [hwalk.1], Vol.walks_iff hwalk.2⟩
    · obtain ⟨m, hm, hwalk⟩ := (Option.any_eq_true _ _).mp hwalk
      exact .inr ⟨m, hm, Vol.walks_iff hwalk⟩

def Vfs.isOpen (s : Vfs) (f : ℕ) : Bool := (s.file f).any File.opened

lemma Vfs.isOpen_iff {f : ℕ} (h : s.isOpen f = true) : s.IsOpen f := (Option.any_eq_true _ _).mp h

namespace FsOp

def allowed (s : Vfs) : FsOp → Bool
  | opens p path flags => s.leads (decide (flags / 64 % 2 = 1)) (s.start p path)
  | mkdir p path => s.leads true (s.start p path)
  | link p old new => s.leads false (s.start p old) && s.leads true (some s.root, new)
  | look p path | unlink p path | opendir p path => s.leads false (s.start p path)
  | ccwd p path => s.leads false (Sound.ccwdStart s p path)
  | close f | closedir f | read f _ | lseek f _ _ => s.isOpen f
  | write f data => (s.file f).any fun F => F.opened && decide (F.offset + (data.length : ℤ) ≤ 40960)

lemma allowed_of (h : op.allowed s = true) : op.Allowed s := by
  cases op with
  | link p old new =>
    rw [allowed, Bool.and_eq_true] at h
    exact ⟨Vfs.leads_of h.1, Vfs.leads_of h.2⟩
  | write f data =>
    obtain ⟨F, hF, hfit⟩ := (Option.any_eq_true _ _).mp h
    rw [Bool.and_eq_true, decide_eq_true_eq] at hfit
    exact ⟨F, hF, hfit⟩
  | look p path => exact Vfs.leads_of h
  | opens p path flags => exact Vfs.leads_of h
  | mkdir p path => exact Vfs.leads_of h
  | unlink p path => exact Vfs.leads_of h
  | opendir p path => exact Vfs.leads_of h
  | ccwd p path => exact Vfs.leads_of h
  | close f => exact Vfs.isOpen_iff h
  | closedir f => exact Vfs.isOpen_iff h
  | read f count => exact Vfs.isOpen_iff h
  | lseek f offset whence => exact Vfs.isOpen_iff h

def play (test : Vfs → FsOp → Bool) : List FsOp → Vfs → Option Vfs
  | [], s => some s
  | op :: rest, s => if test s op then
      match op.perform s with
      | .done () t => play test rest t
      | _ => none
    else none

def leadsTo (test : Vfs → FsOp → Bool) (ops : List FsOp) (p : Vfs → Bool) : Bool :=
  (fsInit (fun _ => 0) blank).ends fun _ t => (play test ops t).any p

end FsOp

lemma Reached.play {C : Vfs → FsOp → Prop} {test : Vfs → FsOp → Bool} (htest : ∀ {s op}, test s op = true → C s op)
    {ops : List FsOp} (h : Reached C s) (hrun : FsOp.play test ops s = some t) : Reached C t := by
  induction ops generalizing s with
  | nil =>
    cases hrun
    exact h
  | cons op rest ih =>
    rw [FsOp.play] at hrun
    by_cases hop : test s op = true
    · rw [if_pos hop] at hrun
      cases hperf : op.perform s with
      | done a u =>
        rw [hperf] at hrun
        exact ih (h.step (htest hop) (.inl hperf)) hrun
      | left u =>
        rw [hperf] at hrun
        cases hrun
      | halted =>
        rw [hperf] at hrun
        cases hrun
      | undefined =>
        rw [hperf] at hrun
        cases hrun
    · rw [if_neg hop] at hrun
      cases hrun

lemma Reached.of_run {C : Vfs → FsOp → Prop} {test : Vfs → FsOp → Bool} (htest : ∀ {s op}, test s op = true → C s op)
    {ops : List FsOp} {p : Vfs → Bool} (h : FsOp.leadsTo test ops p = true) : ∃ t, Reached C t ∧ p t = true := by
  obtain ⟨_, s, hs, hrun⟩ := Outcome.ends_done h
  obtain ⟨t, ht, hp⟩ := (Option.any_eq_true _ _).mp hrun
  refine ⟨t, Reached.play htest (.boot blank_blank ?_ hs) ht, hp⟩
  intro i
  norm_num

end Pke.Files
