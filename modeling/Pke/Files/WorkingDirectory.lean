import Pke.Files.Walks
import Pke.Files.Runs

/-! `vfs_rcwd` against `vfs_ccwd`: the name of a directory leads back to it. -/

namespace Pke.Files

open Lib Flow Function

def rcwdFrom : ℕ → ℕ → Name → Flow Vfs Name
  | 0, _, _ => undef
  | n + 1, cur, temp => do
    let s ← get
    if cur = s.root then pure temp
    else do
      let e ← getDentry cur
      let new := 47 :: e.name ++ temp
      if maxPathLen ≤ new.length then undef
      else rcwdFrom n (← deref e.parent) new

def vfsRcwd (fuel cwd : ℕ) : Flow Vfs Name := do
  let s ← get
  if cwd = s.root then pure [47] else rcwdFrom fuel cwd []

section Tokens

def strtok : Option Name → Option Name × Option Name
  | none => (none, none)
  | some str =>
    let start := str.dropWhile (· == 47)
    if start = [] then (none, none)
    else
      let rest := start.dropWhile (· != 47)
      (some (start.takeWhile (· != 47)), if rest = [] then none else some rest.tail)

def strtokAll : ℕ → Option Name → List Name
  | 0, _ => []
  | n + 1, current =>
    match strtok current with
    | (none, _) => []
    | (some token, current) => token :: strtokAll n current

variable {nm rest path : Name}

lemma tokens_append (hne : nm ≠ []) (hno : 47 ∉ nm) (hrest : rest = [] ∨ ∃ r, rest = 47 :: r) :
    tokens (nm ++ rest) = nm :: tokens rest := by
  induction nm with
  | nil => exact absurd rfl hne
  | cons c nm ih =>
    rw [List.mem_cons, not_or] at hno
    have hc : c ≠ 47 := Ne.symm hno.1
    cases nm with
    | nil =>
      rcases hrest with rfl | ⟨r, rfl⟩
      · simp [tokens, hc]
      · rw [List.cons_append, List.nil_append, tokens.eq_def]
        simp [hc]
    | cons c' nm =>
      have hc' : c' ≠ 47 := fun h => hno.2 (by simp [h])
      have htail := ih (by simp) hno.2
      rw [List.cons_append] at htail ⊢
      rw [List.cons_append, tokens.eq_def]
      simp [hc, hc', htail]

lemma tokens_dropWhile (path : Name) : tokens (path.dropWhile (· == 47)) = tokens path := by
  induction path with
  | nil => rfl
  | cons c path ih =>
    by_cases hc : c = 47
    · subst hc
      rw [tokens_slash]
      simpa using ih
    · simp [hc]

lemma dropWhile_slash (path : Name) : path.dropWhile (· != 47) = [] ∨ ∃ r, path.dropWhile (· != 47) = 47 :: r := by
  induction path with
  | nil => exact .inl rfl
  | cons c path ih =>
    by_cases hc : c = 47
    · exact .inr ⟨path, by simp [hc]⟩
    · simpa [hc] using ih

/-- The calls of `strtok` with its static variable give the tokens, however many slashes there are. -/
theorem strtokAll_eq {n : ℕ} (hn : path.length < n) : strtokAll n (some path) = tokens path := by
  induction n generalizing path with
  | zero => cases hn
  | succ n ih =>
    rw [← tokens_dropWhile, strtokAll, strtok]
    have hlen : (path.dropWhile (· == 47)).length ≤ path.length := (List.dropWhile_suffix _).length_le
    have hhead : ∀ c l, path.dropWhile (· == 47) = c :: l → c ≠ 47 := by
      rintro c l hl rfl
      have hnot := List.head_dropWhile_not (· == (47 : UInt8)) (show path.dropWhile (· == 47) ≠ [] by simp [hl])
      simp [hl] at hnot
    generalize path.dropWhile (· == 47) = start at hlen hhead
    dsimp only
    cases start with
    | nil => rfl
    | cons c l =>
      have hc : c ≠ 47 := hhead c l rfl
      have htoken : (c :: l).takeWhile (· != 47) ≠ [] := by simp [hc]
      have hno : 47 ∉ (c :: l).takeWhile (· != 47) := by
        intro h
        have hall := List.all_eq_true.mp (List.all_takeWhile (p := (· != (47 : UInt8))) (l := c :: l)) 47 h
        simp at hall
      have hsplit := tokens_append htoken hno (dropWhile_slash (c :: l))
      rw [List.takeWhile_append_dropWhile] at hsplit
      rw [if_neg (by simp), hsplit]
      dsimp only
      congr 1
      rcases dropWhile_slash (c :: l) with hrest | ⟨r, hrest⟩
      · rw [hrest, if_pos rfl]
        cases n with
        | zero => rfl
        | succ n => rfl
      · have hshort : r.length < n := by
          have hsum := congrArg List.length (List.takeWhile_append_dropWhile (p := (· != (47 : UInt8))) (l := c :: l))
          have hpos := List.length_pos_iff.mpr htoken
          rw [hrest, List.length_append, List.length_cons] at hsum
          omega
        rw [hrest, if_neg (by simp), List.tail_cons, tokens_slash]
        exact ih hshort

theorem strtokAll_eq_two : strtokAll 9 (some [47, 47, 97, 47, 98, 99, 47]) = tokens [47, 47, 97, 47, 98, 99, 47] :=
  strtokAll_eq (by decide)

end Tokens

inductive Located (s : Vfs) : ℕ → List Name → Prop
  | root : Located s s.root []
  | child {q d path e} (h : Located s q path) (hne : d ≠ s.root) (he : s.dentry d = some e) (hparent : e.parent = some q)
      (hname : e.name ≠ [] ∧ 47 ∉ e.name) (htable : s.dentryHash (some q, e.name) = some d) : Located s d (path ++ [e.name])

def slashed (path : List Name) : Name := (path.map (List.cons 47)).flatten

def pathname (path : List Name) : Name := if path = [] then [47] else slashed path

section Locations

variable {s : Vfs} {d : ℕ} {path : List Name}

lemma slashed_cons (nm : Name) (path : List Name) : slashed (nm :: path) = 47 :: (nm ++ slashed path) := rfl

lemma slashed_concat (path : List Name) (nm : Name) : slashed (path ++ [nm]) = slashed path ++ 47 :: nm := by
  simp [slashed]

lemma Located.names (h : Located s d path) : ∀ nm ∈ path, nm ≠ [] ∧ 47 ∉ nm := by
  induction h with
  | root => simp
  | child _ _ _ _ hname _ ih =>
    intro nm hnm
    rcases List.mem_append.mp hnm with hold | hnew
    · exact ih nm hold
    · rw [List.mem_singleton.mp hnew]
      exact hname

lemma Located.eq_root (h : Located s d path) : d = s.root ↔ path = [] := by
  cases h with
  | root => simp
  | child _ hne => simp [hne]

lemma Located.rcwdFrom (h : Located s d path) {n : ℕ} {temp : Name} (hn : path.length < n)
    (hfits : (slashed path ++ temp).length < maxPathLen) : rcwdFrom n d temp s = .done (slashed path ++ temp) s := by
  induction h generalizing n temp with
  | root =>
    obtain ⟨n, rfl⟩ := Nat.exists_eq_add_of_lt hn
    rw [Files.rcwdFrom, get_bind, if_pos rfl]
    rfl
  | @child q d path e _ hne he hparent _ _ ih =>
    rw [List.length_append, List.length_singleton] at hn
    obtain ⟨n, rfl⟩ : ∃ m, n = m + 1 := ⟨n - 1, by omega⟩
    rw [slashed_concat, List.append_assoc] at hfits ⊢
    have hnew : ¬ maxPathLen ≤ (47 :: e.name ++ temp).length := by
      rw [List.length_append] at hfits
      omega
    rw [Files.rcwdFrom, get_bind, if_neg hne, bind_done (getDentry_eq he), if_neg hnew, hparent]
    exact ih (by omega) hfits

lemma tokens_slashed (h : ∀ nm ∈ path, nm ≠ [] ∧ 47 ∉ nm) : tokens (slashed path) = path := by
  induction path with
  | nil => rfl
  | cons nm path ih =>
    have hnm := h nm (by simp)
    have hrest : slashed path = [] ∨ ∃ r, slashed path = 47 :: r := by
      cases path with
      | nil => exact .inl rfl
      | cons nm' path => exact .inr ⟨_, slashed_cons nm' path⟩
    rw [slashed_cons, tokens_slash, tokens_append hnm.1 hnm.2 hrest, ih fun nm' h' => h nm' (by simp [h'])]

lemma Located.walk (h : Located s d path) (parent : Option ℕ) (rest : List Name) :
    ∃ parent', walkTokens (some s.root) parent (path ++ rest) s = walkTokens (some d) parent' rest s := by
  induction h generalizing rest with
  | root => exact ⟨parent, rfl⟩
  | @child q d path e _ _ _ _ _ htable ih =>
    obtain ⟨parent', hwalk⟩ := ih (e.name :: rest)
    have hhit : lookupToken (some q) e.name s = .done (some d) s := by
      rw [lookupToken, get_bind, htable]
      rfl
    refine ⟨some q, ?_⟩
    rw [List.append_assoc, List.singleton_append, hwalk, walkTokens, bind_done hhit]

lemma Located.lookup (h : Located s d path) (hfits : (pathname path).length < maxPathLen) :
    ∃ parent, lookupFinalDentry (pathname path) (some s.root) s = .done ⟨some d, parent, none⟩ s := by
  obtain ⟨r, hr⟩ : ∃ r, pathname path = 47 :: r := by
    rw [pathname]
    cases path with
    | nil => exact ⟨[], rfl⟩
    | cons nm path => exact ⟨_, slashed_cons nm path⟩
  have htokens : tokens (pathname path) = path := by
    rw [pathname]
    split_ifs with hnil
    · rw [hnil]
      rfl
    · exact tokens_slashed h.names
  obtain ⟨parent, hwalk⟩ := h.walk (some s.root) []
  rw [List.append_nil] at hwalk
  refine ⟨parent, ?_⟩
  -- none of the prefixes of `lookup_final_dentry` begins with a slash
  have hdot : dotSlash (pathname path) = false := by
    rw [hr]
    simp [dotSlash]
  have hdots : dotDotSlash (pathname path) = false := by
    rw [hr]
    simp [dotDotSlash]
  have hsame : (if dotSlash (pathname path) = true then (pathname path).drop 2 else pathname path) = pathname path :=
    if_neg (by simp [hdot])
  rw [lookupFinalDentry, hsame, hdots, if_neg (by decide), lookupPath, if_neg (by simp [hr]), if_neg (by simp [hr]), if_neg (by omega), htokens, hwalk]
  rfl

end Locations

def IsDirectory (s : Vfs) (d : ℕ) : Prop := ∃ e v i, s.dentry d = some e ∧ e.inode = some v ∧ s.vinode v = some i ∧ i.type = dirI

theorem cwd_name_leads_back (s : Vfs) (p d : ℕ) (path : List Name) (h : Located s d path) (hdir : IsDirectory s d)
    (hfits : (pathname path).length < maxPathLen) :
    (∃ N, ∀ n ≥ N, vfsRcwd n d s = .done (pathname path) s) ∧
      vfsCcwd p (pathname path) s = .done 0 { s with cwd := update s.cwd p d } := by
  constructor
  · refine ⟨path.length + 1, fun n hn => ?_⟩
    rw [vfsRcwd, get_bind]
    by_cases hroot : d = s.root
    · rw [if_pos hroot, pathname, if_pos (h.eq_root.mp hroot)]
      rfl
    · have hne : path ≠ [] := fun hnil => hroot (h.eq_root.mpr hnil)
      rw [pathname, if_neg hne] at hfits
      rw [if_neg hroot, pathname, if_neg hne, h.rcwdFrom hn (by rwa [List.append_nil]), List.append_nil]
  · have hhead : (pathname path).head? = some 47 := by
      rw [pathname]
      cases path with
      | nil => rfl
      | cons nm path => rfl
    obtain ⟨e, v, i, he, hv, hi, htype⟩ := hdir
    obtain ⟨parent, hlookup⟩ := h.lookup hfits
    rw [vfsCcwd, get_bind, hhead, if_pos rfl, bind_done hlookup]
    dsimp only
    rw [bind_done (inodeOf_eq he hv), bind_done (getVinode_eq hi), if_neg (not_not.mpr htype)]
    rfl

def nested : Vfs := { blank with
  dentry := fun d =>
    if d = 0 then some ⟨[47], 0, some 10, none⟩ else if d = 1 then some ⟨[82, 65], 0, some 11, some 0⟩
    else if d = 2 then some ⟨[100], 0, some 12, some 1⟩ else none
  vinode := fun v => if v = 10 ∨ v = 11 ∨ v = 12 then some ⟨⟨0, dirI, 1, 1, fun _ => 0⟩, v, 1, .null, .rfs⟩ else none
  dentryHash := fun k => if k = (some 0, [82, 65]) then some 1 else if k = (some 1, [100]) then some 2 else none
  cwd := fun _ => 1 }

theorem cwd_name_leads_back_two_levels : nested.cwd 0 = 1 ∧ vfsCcwd 0 [47, 82, 65, 47, 100] nested = .done 0 { nested with cwd := update nested.cwd 0 2 } := by
  have hone : Located nested 1 ([] ++ [[82, 65]]) :=
    .child .root (by decide) (e := ⟨[82, 65], 0, some 11, some 0⟩) rfl rfl (by decide) rfl
  have htwo : Located nested 2 ([] ++ [[82, 65]] ++ [[100]]) :=
    .child hone (by decide) (e := ⟨[100], 0, some 12, some 1⟩) rfl rfl (by decide) rfl
  have hdir : IsDirectory nested 2 := ⟨_, _, _, rfl, rfl, rfl, rfl⟩
  exact ⟨rfl, (cwd_name_leads_back nested 0 2 _ htwo hdir (by decide)).2⟩

end Pke.Files
