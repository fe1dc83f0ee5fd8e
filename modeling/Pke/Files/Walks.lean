import Pke.Files.Lookups

namespace Pke.Files

open Lib Flow Function

def Vol.Walks (V : Vol) (adds : Bool) : ℕ → List Name → Prop
  | _, [] => True
  | m, tok :: rest => V.IsDir m ∧ tok.length < rfsMaxFileNameLen ∧
    (adds = true → tok ∉ (V.dir m).map Prod.fst → (V.dir m).length < oneBlockDirentrys) ∧
    ∀ k : ℕ, (tok, (k : ℤ)) ∈ V.dir m → V.Walks adds k rest

lemma Vol.Walks.congr {V W : Vol} {adds : Bool} (hnode : W.node = V.node) (hdir : W.dir = V.dir) {m : ℕ} {l : List Name}
    (h : V.Walks adds m l) : W.Walks adds m l := by
  induction l generalizing m with
  | nil => trivial
  | cons tok rest ih =>
    obtain ⟨hm, hlen, hroom, hrest⟩ := h
    refine ⟨?_, hlen, ?_, ?_⟩
    · rw [Vol.IsDir, hnode]
      exact hm
    · rw [hdir]
      exact hroom
    · intro k hk
      rw [hdir] at hk
      exact ih (hrest k hk)

def Vfs.WalksFrom (s : Vfs) (V : Vol) (adds : Bool) (q : ℕ) (l : List Name) : Prop :=
  q = s.root ∧ (l = [] ∨ ∃ rest, l = ramdisk0 :: rest ∧ V.Walks adds 0 rest) ∨ ∃ m, s.num q = some m ∧ V.Walks adds m l

def Vfs.up (s : Vfs) (d : ℕ) : Option ℕ := (s.dentry d).bind Dentry.parent

def Vfs.base (s : Vfs) (start : Option ℕ × Name) : Option ℕ × Name :=
  let path := if dotSlash start.2 then start.2.drop 2 else start.2
  if dotDotSlash path then (start.1.bind s.up, path.drop 3) else (start.1, path)

def Vfs.start (s : Vfs) (p : ℕ) (path : Name) : Option ℕ × Name :=
  let parent := if dotSlash path then s.cwd p else s.root
  let path := if dotSlash path then path.drop 2 else path
  if dotDotSlash path then (s.up (s.cwd p), path.drop 3) else (some parent, path)

structure Vfs.OnRam (s : Vfs) (V : Vol) (adds : Bool) (start : Option ℕ × Name) (q : ℕ) (path : Name) : Prop where
  base : s.base start = (some q, path)
  string : (0 : UInt8) ∉ path
  walks : path = [46] ∨ path = [46, 46] ∧ q ≠ s.root ∨ path ≠ [46] ∧ path ≠ [46, 46] ∧ s.WalksFrom V adds q (tokens path)

section Tokens

lemma mem_of_mem_tokens {c : UInt8} {t path : Name} (ht : t ∈ tokens path) (hc : c ∈ t) : c ∈ path := by
  induction path generalizing t with
  | nil => cases ht
  | cons x rest ih =>
    rw [tokens.eq_def] at ht
    dsimp only at ht
    by_cases hx : x = 47
    · rw [if_pos hx] at ht
      exact List.mem_cons_of_mem _ (ih ht hc)
    · rw [if_neg hx] at ht
      cases rest with
      | nil =>
        rw [List.mem_singleton.mp ht] at hc
        exact hc
      | cons y ys =>
        dsimp only at ht
        by_cases hy : y = 47
        · rw [if_pos hy] at ht
          rcases List.mem_cons.mp ht with rfl | ht
          · rw [List.mem_singleton.mp hc]
            exact List.mem_cons_self
          · exact List.mem_cons_of_mem _ (ih ht hc)
        · rw [if_neg hy] at ht
          cases hts : tokens (y :: ys) with
          | nil =>
            rw [hts, List.mem_singleton] at ht
            rw [ht, List.mem_singleton] at hc
            rw [hc]
            exact List.mem_cons_self
          | cons t' ts =>
            rw [hts] at ht ih
            rcases List.mem_cons.mp ht with rfl | ht
            · rcases List.mem_cons.mp hc with rfl | hc
              · exact List.mem_cons_self
              · exact List.mem_cons_of_mem _ (ih List.mem_cons_self hc)
            · exact List.mem_cons_of_mem _ (ih (List.mem_cons_of_mem _ ht) hc)

lemma tokens_slash (path : Name) : tokens (47 :: path) = tokens path := by
  rw [tokens.eq_def]
  exact if_pos rfl

lemma tokens_dotSlash {path : Name} (h : dotSlash path = true) : tokens path = [46] :: tokens (path.drop 2) := by
  have hpath := List.take_append_drop 2 path
  rw [beq_iff_eq.mp h] at hpath
  conv_lhs => rw [← hpath]
  rw [List.cons_append, tokens.eq_def]
  dsimp only
  rw [if_neg (by decide)]
  exact congrArg _ (tokens_slash _)

lemma tokens_dotDotSlash {path : Name} (h : dotDotSlash path = true) : tokens path = [46, 46] :: tokens (path.drop 3) := by
  have hpath := List.take_append_drop 3 path
  rw [beq_iff_eq.mp h] at hpath
  have hrest : tokens ([46, 47] ++ path.drop 3) = [46] :: tokens (path.drop 3) := tokens_dotSlash rfl
  conv_lhs => rw [← hpath]
  rw [List.cons_append, tokens.eq_def]
  dsimp only
  rw [if_neg (by decide)]
  simp only [List.cons_append] at hrest ⊢
  rw [if_neg (by decide), hrest]

lemma tokens_of_base {s : Vfs} {start : Option ℕ × Name} {q : Option ℕ} {path : Name} (hb : s.base start = (q, path))
    (h : tokens path ≠ []) : tokens start.2 ≠ [] := by
  by_cases hd : dotSlash start.2 = true
  · rw [tokens_dotSlash hd]
    exact nofun
  · by_cases hdd : dotDotSlash start.2 = true
    · rw [tokens_dotDotSlash hdd]
      exact nofun
    · rw [Vfs.base, if_neg hd, if_neg hdd, Prod.mk.injEq] at hb
      rw [hb.2]
      exact h

end Tokens

inductive Found (s : Vfs) (V : Vol) (adds : Bool) (l : Lookup) : Prop
  | hit (d : ℕ) (hd : l.dentry = some d) (hl : Listed s.dentryHash d)
      (hp : (∃ q nm, l.parent = some q ∧ s.dentryHash (some q, nm) = some d) ∨ ∀ n, s.num d = some n → V.IsDir n)
  | miss (q m : ℕ) (tok : Name) (hd : l.dentry = none) (hm : l.miss = some tok) (hp : l.parent = some q)
      (hl : Listed s.dentryHash q) (hq : s.num q = some m) (hdir : V.IsDir m) (hno : tok ∉ (V.dir m).map Prod.fst)
      (hstr : (0 : UInt8) ∉ tok) (hlen : tok.length < rfsMaxFileNameLen)
      (hroom : adds = true → (V.dir m).length < oneBlockDirentrys)

namespace Sound

variable {s t : Vfs} {V W : Vol} {d k m n p q v : ℕ} {tok path : Name} {adds : Bool} {l : List Name}

lemma mount (h : Sound s V) : ∃ d, s.dentryHash (some s.root, ramdisk0) = some d ∧ s.num d = some 0 := h.cache.named.mount

lemma walk_ram (h : Sound s V) (hq : Listed s.dentryHash q) (hqm : s.num q = some m) (hw : V.Walks adds m l)
    (hz : ∀ tok ∈ l, (0 : UInt8) ∉ tok) (parent : Option ℕ)
    (hparent : (∃ q' nm, parent = some q' ∧ s.dentryHash (some q', nm) = some q) ∨ l ≠ [] ∨ V.IsDir m) :
    ∃ r t W, walkTokens (some q) parent l s = .done r t ∧ Looked s V t W ∧ Found t W adds r := by
  induction l generalizing s V q m parent with
  | nil =>
    refine ⟨⟨some q, parent, none⟩, s, V, rfl, Looked.refl h, .hit q rfl hq ?_⟩
    rcases hparent with ⟨q', nm, hp, hk⟩ | hne | hdir
    · exact .inl ⟨q', nm, hp, hk⟩
    · exact absurd rfl hne
    · refine .inr ?_
      intro n hn
      rw [hqm, Option.some.injEq] at hn
      exact hn ▸ hdir
  | cons tok rest ih =>
    obtain ⟨hm, hlen, hroom, hrest⟩ := hw
    have hstr := hz tok List.mem_cons_self
    obtain ⟨r, t, W, ht, hlook, hcase⟩ := h.lookupToken hq hqm hm hstr
    rw [walkTokens, bind_done ht]
    have hqm' : t.num q = some m := (hlook.num q hq).trans hqm
    rcases hcase with ⟨rfl, hno⟩ | ⟨d, rfl, hkey⟩
    · refine ⟨_, t, W, rfl, hlook, .miss q m tok rfl rfl rfl (hlook.listed hq) hqm' (hlook.isDir.mpr hm) ?_ hstr hlen ?_⟩
      · rw [hlook.dir]
        exact hno
      · intro hadds
        rw [hlook.dir]
        exact hroom hadds hno
    · -- the name is an entry of the directory, so that the walk may go on from there
      have hne : q ≠ t.root := by
        rintro rfl
        rw [hlook.sound.cache.named.host] at hqm'
        cases hqm'
      obtain ⟨m', k, -, hqm'', -, hk, hent⟩ := (hlook.sound.cache.named.child hkey).resolve_left fun hr => hne hr.1
      rw [hqm', Option.some.injEq] at hqm''
      subst hqm''
      rw [hlook.dir] at hent
      have hwalk := (hrest k hent).congr hlook.node hlook.dir
      obtain ⟨r, u, X, hu, hlook', hfound⟩ := ih hlook.sound ⟨_, hkey⟩ hk hwalk
        (fun tok' htok => hz tok' (List.mem_cons_of_mem _ htok)) (some q) (.inl ⟨q, tok, rfl, hkey⟩)
      exact ⟨r, u, X, hu, hlook.trans hlook', hfound⟩

lemma walk (h : Sound s V) (hq : Listed s.dentryHash q) (hbase : ∀ n, s.num q = some n → V.IsDir n)
    (hw : s.WalksFrom V adds q l) (hz : ∀ tok ∈ l, (0 : UInt8) ∉ tok) :
    ∃ r t W, walkTokens (some q) (some q) l s = .done r t ∧ Looked s V t W ∧ Found t W adds r := by
  rcases hw with ⟨rfl, rfl | ⟨rest, rfl, hw⟩⟩ | ⟨m, hqm, hw⟩
  · refine ⟨⟨some s.root, some s.root, none⟩, s, V, rfl, Looked.refl h, .hit s.root rfl hq (.inr hbase)⟩
  · obtain ⟨d, hkey, hnum⟩ := h.mount
    have htok : Files.lookupToken (some s.root) ramdisk0 s = .done (some d) s := by
      rw [Files.lookupToken, get_bind, hkey]
      rfl
    rw [walkTokens, bind_done htok]
    exact h.walk_ram ⟨_, hkey⟩ hnum hw (fun tok' htok => hz tok' (List.mem_cons_of_mem _ htok)) (some s.root)
      (.inl ⟨s.root, ramdisk0, rfl, hkey⟩)
  · exact h.walk_ram hq hqm hw hz (some q) (.inr (.inr (hbase m hqm)))

def Base (s : Vfs) (V : Vol) (q : ℕ) : Prop := Listed s.dentryHash q ∧ ∀ n, s.num q = some n → V.IsDir n

lemma base_root (h : Sound s V) : Base s V s.root := by
  refine ⟨h.cache.named.root_listed, ?_⟩
  intro n hn
  rw [h.cache.named.host] at hn
  cases hn

lemma base_up (h : Sound s V) (hq : Listed s.dentryHash q) : ∃ e, s.dentry q = some e ∧ s.up q = e.parent ∧
    (q = s.root ∧ e.parent = none ∨ q ≠ s.root ∧ ∃ q', e.parent = some q' ∧ Base s V q') := by
  obtain ⟨⟨par, nm⟩, hk⟩ := hq
  obtain ⟨e, v, i, he, hkey, -⟩ := h.cache.key _ q hk
  have hpar : par = e.parent := congrArg Prod.fst hkey
  subst hpar
  refine ⟨e, he, by rw [Vfs.up, he]; rfl, ?_⟩
  cases hp : e.parent with
  | none =>
    rw [hp] at hk
    exact .inl ⟨h.cache.named.top hk, rfl⟩
  | some q' =>
    rw [hp] at hk
    have hne : q ≠ s.root := by
      rintro rfl
      obtain ⟨nm', hr⟩ := h.cache.named.bottom
      cases h.cache.named.inj hk hr
    refine .inr ⟨hne, q', rfl, ?_⟩
    rcases h.cache.named.child hk with ⟨rfl, -⟩ | ⟨m', n, hq', hqm, hm, -⟩
    · exact h.base_root
    · refine ⟨hq', ?_⟩
      intro n' hn'
      rw [hqm, Option.some.injEq] at hn'
      exact hn' ▸ hm

lemma parentOf_eq {e : Dentry} (he : s.dentry q = some e) : parentOf (some q) s = .done e.parent s := by
  rw [parentOf]
  change (getDentry q >>= _) s = _
  rw [bind_done (getDentry_eq he)]
  rfl

lemma final (h : Sound s V) {start : Option ℕ × Name} (hstart : ∀ q, start.1 = some q → Base s V q)
    (hon : s.OnRam V adds start q path) : safe (maxPathLen ≤ path.length) (lookupFinalDentry start.2 start.1)
      (fun r t => (r.dentry = none → tokens start.2 ≠ []) ∧ ∃ W, Looked s V t W ∧ Found t W adds r) (fun _ => False) s := by
  -- behind the prefixes
  have hbase : lookupFinalDentry start.2 start.1 s = lookupPath path (some q) s ∧ Base s V q := by
    have hb := hon.base
    rw [Vfs.base] at hb
    rw [lookupFinalDentry]
    obtain ⟨st, pa⟩ := start
    dsimp only at hb hstart ⊢
    by_cases hdd : dotDotSlash (if dotSlash pa then pa.drop 2 else pa) = true
    · rw [if_pos hdd] at hb ⊢
      rw [Prod.mk.injEq] at hb
      obtain ⟨hup, hpath⟩ := hb
      cases st with
      | none => cases hup
      | some b =>
        rw [Option.bind_some] at hup
        obtain ⟨e, he, hupe, hcase⟩ := h.base_up (hstart b rfl).1
        rw [hup] at hupe
        rw [bind_done (parentOf_eq he), ← hupe, hpath]
        refine ⟨rfl, ?_⟩
        rcases hcase with ⟨-, hnone⟩ | ⟨-, q', hq', hbase⟩
        · rw [hnone] at hupe
          cases hupe
        · rw [hq', Option.some.injEq] at hupe
          exact hupe ▸ hbase
    · rw [if_neg hdd] at hb ⊢
      rw [Prod.mk.injEq] at hb
      obtain ⟨rfl, rfl⟩ := hb
      exact ⟨rfl, hstart q rfl⟩
  obtain ⟨heq, hq⟩ := hbase
  rw [safe, heq]
  change safe _ (lookupPath path (some q)) _ _ s
  rcases hon.walks with rfl | ⟨rfl, hne⟩ | ⟨hdot, hdots, hw⟩
  · exact ⟨by simp, V, Looked.refl h, .hit q rfl hq.1 (.inr hq.2)⟩
  · obtain ⟨e, he, -, hcase⟩ := h.base_up hq.1
    obtain ⟨q', hq', hbase'⟩ := (hcase.resolve_left fun hr => hne hr.1).2
    have hval : lookupPath [46, 46] (some q) s = .done ⟨some q', some q', none⟩ s := by
      rw [lookupPath, if_neg (by decide), if_pos rfl, bind_done (parentOf_eq he), hq']
      rfl
    exact safe_done hval ⟨by simp, V, Looked.refl h, .hit q' rfl hbase'.1 (.inr hbase'.2)⟩
  · rw [lookupPath, if_neg hdot, if_neg hdots]
    by_cases hlong : maxPathLen ≤ path.length
    · rw [if_pos hlong]
      exact safe_undef hlong
    · rw [if_neg hlong]
      obtain ⟨r, t, W, ht, hlook, hfound⟩ := h.walk hq.1 hq.2 hw (fun tok htok h0 => hon.string (mem_of_mem_tokens htok h0))
      refine safe_done ht ⟨?_, W, hlook, hfound⟩
      intro hnone
      apply tokens_of_base hon.base
      intro hnil
      rw [hnil, walkTokens] at ht
      cases ht
      cases hnone

lemma startOf_eq (h : Sound s V) (p : ℕ) (path : Name) : startOf p path s = .done (s.start p path) s ∧
    ∀ q, (s.start p path).1 = some q → Base s V q := by
  have hcwd : Base s V (s.cwd p) := h.cache.cwd p
  obtain ⟨e, he, hup, hcase⟩ := h.base_up hcwd.1
  rw [startOf, get_bind, Vfs.start]
  by_cases hdd : dotDotSlash (if dotSlash path then path.drop 2 else path) = true
  · rw [if_pos hdd, if_pos hdd, bind_done (parentOf_eq he), hup]
    refine ⟨rfl, ?_⟩
    intro q hq
    change e.parent = some q at hq
    rcases hcase with ⟨-, hnone⟩ | ⟨-, q', hq', hbase⟩
    · rw [hnone] at hq
      cases hq
    · rw [hq', Option.some.injEq] at hq
      exact hq ▸ hbase
  · rw [if_neg hdd, if_neg hdd]
    refine ⟨rfl, ?_⟩
    rintro q ⟨⟩
    split
    · exact hcwd
    · exact h.base_root

end Sound

end Pke.Files
