import Pke.Files.Vfs
import Pke.Files.VolumeNames

/-! The table of dentries as names over the volume: below the root is the mounted disk, and below that every dentry
is an entry of the directory that its parent stands for. -/

namespace Pke.Files

open Lib Function

abbrev Table := Option ℕ × Name → Option ℕ

def Listed (T : Table) (d : ℕ) : Prop := ∃ k, T k = some d

structure Named (T : Table) (num : ℕ → Option ℕ) (root : ℕ) (V : Vol) : Prop where
  inj : ∀ {k k' d}, T k = some d → T k' = some d → k = k'
  bottom : ∃ nm, T (none, nm) = some root
  top : ∀ {nm d}, T (none, nm) = some d → d = root
  host : num root = none
  mount : ∃ d, T (some root, ramdisk0) = some d ∧ num d = some 0
  child : ∀ {q nm d}, T (some q, nm) = some d → (q = root ∧ nm = ramdisk0) ∨
    ∃ m n : ℕ, Listed T q ∧ num q = some m ∧ V.IsDir m ∧ num d = some n ∧ (nm, (n : ℤ)) ∈ V.dir m
  unique : ∀ {d d' n}, Listed T d → Listed T d' → num d = some n → num d' = some n → V.IsDir n → d = d'

lemma Vol.Tree.linked_once {V : Vol} (h : V.Tree) {n : ℕ} (hn : V.IsDir n) (hn0 : n ≠ 0) : V.links n = 1 := by
  have hlinks := h.links n hn.live hn0
  rw [(h.isDir n hn).2.1] at hlinks
  exact_mod_cast hlinks.symm

lemma Vol.name_of_link {V : Vol} {n m m' : ℕ} {nm nm' : Name} (hone : V.links n = 1) (hm : V.IsDir m)
    (hm' : V.IsDir m') (he : (nm, (n : ℤ)) ∈ V.dir m) (he' : (nm', (n : ℤ)) ∈ V.dir m') : m = m' ∧ nm = nm' := by
  have hpos : ∀ {m nm}, V.IsDir m → (nm, (n : ℤ)) ∈ V.dir m → 0 < V.count n m := by
    intro m nm hm he
    rw [Vol.count_of_dir hm.2, List.countP_pos_iff]
    exact ⟨_, he, decide_eq_true rfl⟩
  have hmm : m = m' := by
    by_contra hne
    have hsum := Finset.add_le_sum (f := V.count n) (fun _ _ => Nat.zero_le _) (Finset.mem_range.mpr hm.1)
      (Finset.mem_range.mpr hm'.1) hne
    have hm1 := hpos hm he
    have hm2 := hpos hm' he'
    rw [Vol.links] at hone
    omega
  subst hmm
  refine ⟨rfl, ?_⟩
  have hle : V.count n m ≤ 1 :=
    hone ▸ Finset.single_le_sum (f := V.count n) (fun _ _ => Nat.zero_le _) (Finset.mem_range.mpr hm.1)
  rw [Vol.count_of_dir hm.2, List.countP_eq_length_filter] at hle
  have hfirst : (nm, (n : ℤ)) ∈ (V.dir m).filter (fun e : Name × ℤ => e.2 = (n : ℤ)) :=
    List.mem_filter.mpr ⟨he, decide_eq_true rfl⟩
  have hsecond : (nm', (n : ℤ)) ∈ (V.dir m).filter (fun e : Name × ℤ => e.2 = (n : ℤ)) :=
    List.mem_filter.mpr ⟨he', decide_eq_true rfl⟩
  obtain ⟨e, hl⟩ := List.length_eq_one_iff.mp (le_antisymm hle (List.length_pos_of_mem hfirst))
  rw [hl, List.mem_singleton] at hfirst hsecond
  exact congrArg Prod.fst (hfirst.trans hsecond.symm)

lemma Vol.Tree.name_unique {V : Vol} (h : V.Tree) {n m m' : ℕ} {nm nm' : Name} (hn : V.IsDir n) (hm : V.IsDir m)
    (hm' : V.IsDir m') (he : (nm, (n : ℤ)) ∈ V.dir m) (he' : (nm', (n : ℤ)) ∈ V.dir m') : m = m' ∧ nm = nm' := by
  have hn0 : n ≠ 0 := by
    obtain ⟨-, k, hk, hpos, -⟩ := h.entry m hm _ he
    change (n : ℤ) = k at hk
    omega
  exact Vol.name_of_link (h.linked_once hn hn0) hm hm' he he'

namespace Named

variable {T : Table} {num num' : ℕ → Option ℕ} {root q d m n : ℕ} {V W : Vol} {nm : Name}

lemma root_listed (h : Named T num root V) : Listed T root :=
  let ⟨nm, hroot⟩ := h.bottom
  ⟨(none, nm), hroot⟩

lemma parent_listed (h : Named T num root V) (hd : T (some q, nm) = some d) : Listed T q := by
  rcases h.child hd with ⟨rfl, -⟩ | ⟨-, -, hq, -⟩
  · exact h.root_listed
  · exact hq

lemma num_of_ne (h : Named T num root V) (hd : Listed T d) (hne : d ≠ root) : ∃ n, num d = some n := by
  obtain ⟨⟨p, nm⟩, hkey⟩ := hd
  cases p with
  | none => exact absurd (h.top hkey) hne
  | some q =>
    rcases h.child hkey with ⟨rfl, rfl⟩ | ⟨-, n, -, -, -, hn, -⟩
    · obtain ⟨d', hd', hnum⟩ := h.mount
      rw [hkey, Option.some.injEq] at hd'
      exact ⟨0, hd' ▸ hnum⟩
    · exact ⟨n, hn⟩

lemma renum (h : Named T num root V) (hsame : ∀ d, Listed T d → num' d = num d) : Named T num' root V where
  inj := h.inj
  bottom := h.bottom
  top := h.top
  host := (hsame _ h.root_listed).trans h.host
  mount := by
    obtain ⟨d, hd, hnum⟩ := h.mount
    exact ⟨d, hd, (hsame d ⟨_, hd⟩).trans hnum⟩
  child := by
    intro q nm d hd
    rcases h.child hd with hm | ⟨m, n, hq, hqm, hm, hn, he⟩
    · exact .inl hm
    · exact .inr ⟨m, n, hq, (hsame q hq).trans hqm, hm, (hsame d ⟨_, hd⟩).trans hn, he⟩
  unique := by
    intro d d' n hd hd' hn hn' hdir
    rw [hsame d hd] at hn
    rw [hsame d' hd'] at hn'
    exact h.unique hd hd' hn hn' hdir

lemma revolume (h : Named T num root V)
    (hkeep : ∀ {q nm d m n}, T (some q, nm) = some d → num q = some m → num d = some n → V.IsDir m →
      (nm, (n : ℤ)) ∈ V.dir m → W.IsDir m ∧ (nm, (n : ℤ)) ∈ W.dir m)
    (hdirs : ∀ {d n}, Listed T d → num d = some n → W.IsDir n → V.IsDir n) : Named T num root W where
  inj := h.inj
  bottom := h.bottom
  top := h.top
  host := h.host
  mount := h.mount
  child := by
    intro q nm d hd
    rcases h.child hd with hm | ⟨m, n, hq, hqm, hm, hn, he⟩
    · exact .inl hm
    · obtain ⟨hm', he'⟩ := hkeep hd hqm hn hm he
      exact .inr ⟨m, n, hq, hqm, hm', hn, he'⟩
  unique := by
    intro d d' n hd hd' hn hn' hdir
    exact h.unique hd hd' hn hn' (hdirs hd hn hdir)

lemma enter (h : Named T num root V) (hV : V.Tree) (hkey : T (some q, nm) = none) (hq : Listed T q)
    (hqm : num q = some m) (hm : V.IsDir m) (hent : (nm, (n : ℤ)) ∈ V.dir m) (hd : ¬ Listed T d) (hn : num d = some n) :
    Named (update T (some q, nm) (some d)) num root V := by
  have hold : ∀ {k x}, T k = some x → update T (some q, nm) (some d) k = some x := by
    intro k x hx
    have hne : k ≠ (some q, nm) := by
      rintro rfl
      rw [hkey] at hx
      cases hx
    rw [update_of_ne hne, hx]
  have hlisted : ∀ {x}, Listed T x → Listed (update T (some q, nm) (some d)) x := fun ⟨k, hk⟩ => ⟨k, hold hk⟩
  have hinv : ∀ {k x}, update T (some q, nm) (some d) k = some x → T k = some x ∨ k = (some q, nm) ∧ x = d := by
    intro k x hx
    by_cases hk : k = (some q, nm)
    · rw [hk, update_self, Option.some.injEq] at hx
      exact .inr ⟨hk, hx.symm⟩
    · rw [update_of_ne hk] at hx
      exact .inl hx
  have hinvl : ∀ {x}, Listed (update T (some q, nm) (some d)) x → Listed T x ∨ x = d := by
    rintro x ⟨k, hk⟩
    rcases hinv hk with hk | ⟨-, hk⟩
    · exact .inl ⟨k, hk⟩
    · exact .inr hk
  have hn0 : n ≠ 0 := by
    obtain ⟨-, k, hk, hpos, -⟩ := hV.entry m hm _ hent
    change (n : ℤ) = k at hk
    omega
  -- no other dentry stands for the same directory: it would have the same parent and name
  have hsole : ∀ {x}, Listed T x → num x = some n → V.IsDir n → False := by
    rintro x ⟨⟨p, nm'⟩, hx⟩ hxn hdir
    cases p with
    | none =>
      rw [h.top hx, h.host] at hxn
      cases hxn
    | some q' =>
      rcases h.child hx with ⟨rfl, rfl⟩ | ⟨m', n', hq', hqm', hm', hn', he'⟩
      · obtain ⟨x', hx', h0⟩ := h.mount
        rw [hx, Option.some.injEq] at hx'
        rw [← hx', hxn, Option.some.injEq] at h0
        exact hn0 h0
      · rw [hxn, Option.some.injEq] at hn'
        subst hn'
        obtain ⟨rfl, rfl⟩ := hV.name_unique hdir hm hm' hent he'
        rw [h.unique hq' hq hqm' hqm hm, hkey] at hx
        cases hx
  refine ⟨?_, ?_, ?_, h.host, ?_, ?_, ?_⟩
  · intro k k' x hk hk'
    rcases hinv hk with hk | ⟨rfl, rfl⟩ <;> rcases hinv hk' with hk' | ⟨rfl, hx⟩
    · exact h.inj hk hk'
    · exact absurd ⟨k, hx ▸ hk⟩ hd
    · exact absurd ⟨k', hk'⟩ hd
    · rfl
  · obtain ⟨nm', hroot⟩ := h.bottom
    exact ⟨nm', hold hroot⟩
  · intro nm' x hx
    rcases hinv hx with hx | ⟨he, -⟩
    · exact h.top hx
    · cases he
  · obtain ⟨x, hx, hnum⟩ := h.mount
    exact ⟨x, hold hx, hnum⟩
  · intro q' nm' x hx
    rcases hinv hx with hx | ⟨he, rfl⟩
    · rcases h.child hx with hm' | ⟨m', n', hq', hqm', hrest⟩
      · exact .inl hm'
      · exact .inr ⟨m', n', hlisted hq', hqm', hrest⟩
    · cases he
      exact .inr ⟨m, n, hlisted hq, hqm, hm, hn, hent⟩
  · intro x x' n' hx hx' hxn hxn' hdir
    rcases hinvl hx with hin | hxd <;> rcases hinvl hx' with hin' | hxd'
    · exact h.unique hin hin' hxn hxn' hdir
    · rw [hxd', hn, Option.some.injEq] at hxn'
      subst hxn'
      exact (hsole hin hxn hdir).elim
    · rw [hxd, hn, Option.some.injEq] at hxn
      subst hxn
      exact (hsole hin' hxn' hdir).elim
    · rw [hxd, hxd']

lemma leave (h : Named T num root V) (hV : V.Tree) (hkey : T (some q, nm) = some d)
    (hfile : ∀ n, num d = some n → ¬ V.IsDir n) : Named (update T (some q, nm) none) num root V := by
  have hinv : ∀ {k x}, update T (some q, nm) none k = some x → k ≠ (some q, nm) ∧ T k = some x := by
    intro k x hx
    have hk : k ≠ (some q, nm) := by
      rintro rfl
      rw [update_self] at hx
      cases hx
    rw [update_of_ne hk] at hx
    exact ⟨hk, hx⟩
  have hold : ∀ {k x}, T k = some x → x ≠ d → update T (some q, nm) none k = some x := by
    intro k x hx hne
    have hk : k ≠ (some q, nm) := by
      rintro rfl
      rw [hkey, Option.some.injEq] at hx
      exact hne hx.symm
    rw [update_of_ne hk, hx]
  have hroot : root ≠ d := by
    rintro rfl
    obtain ⟨nm', hr⟩ := h.bottom
    cases h.inj hkey hr
  refine ⟨?_, ?_, ?_, h.host, ?_, ?_, ?_⟩
  · intro k k' x hk hk'
    exact h.inj (hinv hk).2 (hinv hk').2
  · obtain ⟨nm', hr⟩ := h.bottom
    exact ⟨nm', hold hr hroot⟩
  · intro nm' x hx
    exact h.top (hinv hx).2
  · obtain ⟨x, hx, hnum⟩ := h.mount
    refine ⟨x, hold hx ?_, hnum⟩
    rintro rfl
    exact hfile 0 hnum ⟨by norm_num, hV.root⟩
  · intro q' nm' x hx
    rcases h.child (hinv hx).2 with hm | ⟨m, n, ⟨k, hk⟩, hqm, hm, hrest⟩
    · exact .inl hm
    · refine .inr ⟨m, n, ⟨k, hold hk ?_⟩, hqm, hm, hrest⟩
      rintro rfl
      exact hfile m hqm hm
  · rintro x x' n ⟨k, hk⟩ ⟨k', hk'⟩ hxn hxn' hdir
    exact h.unique ⟨k, (hinv hk).2⟩ ⟨k', (hinv hk').2⟩ hxn hxn' hdir

end Named

end Pke.Files
