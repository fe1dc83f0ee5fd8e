import Pke.Memory.ForkRegions

namespace Pke.Memory

open Lib Flow Function Processes

variable {live : Finset Pid} {hand : ℕ → Option ℕ} {n : ℕ} {s t u : Vm} {p c : Pid} {va pa v f : ℕ}

lemma wp_incPageRef {Q : Unit → Vm → Prop} {E : Vm → Prop} (hal : pa % 4096 = 0) :
    wp (incPageRef pa) Q E s ↔
      (s.pmm.Managed pa → Q () { s with pmm := s.pmm.setRef pa ((s.pmm.ref pa + 1) % 2 ^ 16) }) ∧
        (¬ s.pmm.Managed pa → Q () s) := by
  unfold incPageRef
  rw [wp_bind, wp_get, wp_ite]
  have hm : s.pmm.Covers pa ∧ s.pmm.index pa < s.pmm.maxPages ↔ s.pmm.Managed pa := by simp [Pmm.Managed, hal]
  rw [hm]
  refine and_congr_left fun _ => forall_congr' fun h => ?_
  rw [wp_modify, Pmm.ref, if_pos h]

def Pte.shared (e : Pte) : Pte := { e with w := false, cow := true }

lemma wp_userVmSetCow {Q : Unit → Vm → Prop} {E : Vm → Prop} (hlt : va < maxva)
    (hv : (s.entry p (va / 4096)).v = true) :
    wp (userVmSetCow p va) Q E s ↔
      Q () (s.setTable p (·.setPte (va / 4096) (s.entry p (va / 4096)).shared)) := by
  have hhas : (s.space p).pagetable.Has (va / 4096) := PageTable.has_of_valid hv
  have hpte : (s.space p).pagetable.pte (va / 4096) = s.entry p (va / 4096) := (PageTable.entry_of_has hhas).symm
  unfold userVmSetCow
  rw [wp_bind, wp_pageWalk_false, PageTable.walk_eq, if_pos hhas]
  simp only [not_le.mpr hlt, false_implies, true_and, hlt, true_implies, wp_bind, wp_get, hpte]
  rw [if_pos hv]
  exact Iff.rfl

structure Sharing (live : Finset Pid) (n : ℕ) (p c : Pid) (s : Vm) (rest : List ℕ) (u : Vm) : Prop where
  owned : Owned live noHand (n + 1) u
  same : s.SameFields u
  others : ∀ q, q ≠ p → q ≠ c → u.space q = s.space q
  room : ∀ b ∈ rest, ∀ f, usesOf live noHand u (.spot p (.leaf (b / 4096))) = some f →
    u.pmm.ref f ≤ n ∧ ∀ w, usesOf live noHand u (.spot c (.leaf w)) ≠ some f

lemma Sharing.next {rest : List ℕ} {b : ℕ} (h : Sharing live n p c s (b :: rest) u) (hp : p ∈ live)
    (hrest : ∀ b' ∈ rest, b' / 4096 ≠ b / 4096)
    (howned : (u.entry p (b / 4096)).owned = some (u.entry p (b / 4096)).pa) (o : Owned live noHand (n + 1) t)
    (hsame : u.SameFields t) (hothers : ∀ q, q ≠ p → q ≠ c → t.space q = u.space q)
    (hparent : ∀ x, x ≠ b / 4096 → t.entry p x = u.entry p x)
    (hchild : ∀ x, t.entry c x = u.entry c x ∨ (t.entry c x).pa = (u.entry p (b / 4096)).pa)
    (href : ∀ f, f ≠ (u.entry p (b / 4096)).pa → 0 < u.pmm.ref f → t.pmm.ref f = u.pmm.ref f) :
    Sharing live n p c s rest t := by
  refine ⟨o, h.same.trans hsame, fun q hq hq' => (hothers q hq hq').trans (h.others q hq hq'), ?_⟩
  intro b' hb' f hf
  rw [usesOf_leaf (hparent _ (hrest b' hb')) hsame.bounds] at hf
  -- the frame of another block is another one
  have hne : f ≠ (u.entry p (b / 4096)).pa := by
    rintro rfl
    have hm := (usesOf_eq_some.mp hf).2.2
    exact hrest b' hb' (h.owned.once p hp _ _ _ hf (usesOf_eq_some.mpr ⟨hp, howned, hm⟩))
  obtain ⟨hle, hfree⟩ := h.room b' (by simp [hb']) f hf
  refine ⟨by rwa [href f hne (h.owned.counted.pos_of_uses hf)], fun x hx => ?_⟩
  rcases hchild x with hsame' | hpa
  · rw [usesOf_leaf hsame' hsame.bounds] at hx
    exact hfree x hx
  · obtain ⟨-, hframe, -⟩ := usesOf_eq_some.mp hx
    change (t.entry c x).owned = some f at hframe
    unfold Pte.owned at hframe
    split_ifs at hframe
    exact hne ((Option.some.inj hframe).symm.trans hpa)

lemma Owned.raised_bound (o : Owned live hand (n + 1) s) (hf : s.pmm.Managed f) (hle : s.pmm.ref f ≤ n) (g : ℕ) :
    (s.pmm.setRef f (s.pmm.ref f + 1)).ref g ≤ n + 1 := by
  rw [Pmm.ref_setRef hf]
  by_cases hg : g = f
  · rw [hg, update_self]
    omega
  · rw [update_of_ne hg]
    exact o.bound g

lemma Vm.setTable_comm (s : Vm) (h : c ≠ p) (F G : PageTable → PageTable) :
    (s.setTable c F).setTable p G = (s.setTable p G).setTable c F := by
  unfold Vm.setTable Vm.setSpace
  simp only [update_of_ne h, update_of_ne h.symm]
  rw [update_comm h]

lemma Sharing.share {rest : List ℕ} {b : ℕ} (h : Sharing live n p c s (b :: rest) u) (hp : p ∈ live) (hc : c ∈ live)
    (hpc : c ≠ p) (hn : n + 1 < 2 ^ 16) (hrest : ∀ b' ∈ rest, b' / 4096 ≠ b / 4096) (hlt : b < maxva)
    (hhigh : 1024 ≤ b / 4096) (howns : (u.entry p (b / 4096)).owns = true) {w : Vm}
    (hw : Grown live noHand (n + 1) u w ∨
      Filled live noHand (n + 1) u c (b / 4096) (Pte.leaf (u.entry p (b / 4096)).pa cowPerm) w)
    (hlocal : ∀ q, q ≠ c → w.space q = u.space q) :
    wp (do userVmSetCow p b; incPageRef (u.entry p (b / 4096)).pa) (fun _ => Sharing live n p c s rest)
      (Owned live noHand (n + 1)) w := by
  generalize hv : b / 4096 = v at *
  generalize he : u.entry p v = e at *
  have hflags : e.v = true ∧ e.u = true ∧ e.x = false := by
    simpa [Pte.owns, and_assoc] using howns
  have howned : e.owned = some e.pa := by rw [Pte.owned, if_pos howns]
  have hal : e.pa % 4096 = 0 := by
    unfold Pte.pa
    omega
  have hshared : e.shared.owned = e.owned := by simp [Pte.shared, Pte.owned, Pte.owns, Pte.pa]
  have hroom : u.pmm.Managed e.pa → 0 < u.pmm.ref e.pa ∧ u.pmm.ref e.pa ≤ n ∧
      ∀ x, usesOf live noHand u (.spot c (.leaf x)) ≠ some e.pa := by
    intro hm
    have huse : usesOf live noHand u (.spot p (.leaf (b / 4096))) = some e.pa := by
      rw [hv, usesOf_eq_some]
      refine ⟨hp, ?_, hm⟩
      change (u.entry p v).owned = _
      rw [he, howned]
    exact ⟨h.owned.counted.pos_of_uses huse, h.room b (by simp) _ huse⟩
  obtain ⟨g, hg, hwg⟩ : ∃ g, Grown live noHand (n + 1) u g ∧ (w = g ∨ (g.space c).pagetable.Has v ∧
      (u.entry c v).v = false ∧ w = g.setTable c (·.setPte v (Pte.leaf e.pa cowPerm))) := by
    rcases hw with hw | ⟨g, hg, hhas, hinv, rfl⟩
    · exact ⟨w, hw, .inl rfl⟩
    · exact ⟨g, hg, .inr ⟨hhas, hinv, rfl⟩⟩
  have hge : g.entry p v = e := (hg.entry p v).trans he
  have hwe : w.entry p v = e := by
    rcases hwg with rfl | ⟨-, -, rfl⟩
    · exact hge
    · rw [(g.setTable_becomes c _).entry_of_ne hpc.symm, hge]
  have hwpmm : w.pmm = g.pmm := by
    rcases hwg with rfl | ⟨-, -, rfl⟩ <;> rfl
  -- the parent's entry is rewritten first, then the child's mapping counts
  have hcp := g.setTable_becomes p (·.setPte v e.shared)
  have og : Owned live noHand (n + 1) (g.setTable p (·.setPte v e.shared)) := by
    refine hg.owned.rewrite hp (by rw [hge]; exact hflags.1) (by rw [hge, hshared]) ?_ hflags.2.1 (fun _ => hhigh)
    simp [Pte.borrows, Pte.shared, hflags]
  have hpentry : ∀ x, x ≠ v → (g.setTable p (·.setPte v e.shared)).entry p x = u.entry p x := by
    intro x hx
    have hhas : (g.space p).pagetable.Has v := PageTable.has_of_valid (by
      change (g.entry p v).v = true
      rw [hge]
      exact hflags.1)
    rw [hcp.entry_self, PageTable.entry_setPte hhas, update_of_ne hx]
    exact hg.entry p x
  have hcentry : ∀ x, (g.setTable p (·.setPte v e.shared)).entry c x = u.entry c x := fun x => by
    rw [hcp.entry_of_ne hpc, hg.entry]
  have hsame : u.SameFields (g.setTable p (·.setPte v e.shared)) := hg.same.setTable p _
  rw [wp_bind, wp_userVmSetCow hlt (by rw [hv, hwe]; exact hflags.1), hv, hwe, wp_incPageRef hal]
  have hwpmm' : (w.setTable p (·.setPte v e.shared)).pmm = g.pmm := hwpmm
  have hG : w.setTable p (·.setPte v e.shared) = g.setTable p (·.setPte v e.shared) ∨
      (g.space c).pagetable.Has v ∧ (u.entry c v).v = false ∧ w.setTable p (·.setPte v e.shared) =
        (g.setTable p (·.setPte v e.shared)).setTable c (·.setPte v (Pte.leaf e.pa cowPerm)) := by
    rcases hwg with rfl | ⟨hhas, hinv, rfl⟩
    · exact .inl rfl
    · exact .inr ⟨hhas, hinv, g.setTable_comm hpc _ _⟩
  have hothers : ∀ q, q ≠ p → q ≠ c → (w.setTable p (·.setPte v e.shared)).space q = u.space q := by
    intro q hq hq'
    rw [Vm.setTable, Vm.setSpace_of_ne _ hq, hlocal q hq']
  generalize hGd : g.setTable p (·.setPte v e.shared) = G at *
  generalize w.setTable p (·.setPte v e.shared) = W at *
  have hGpmm : G.pmm = g.pmm := by rw [← hGd]; rfl
  have hleafpa : (Pte.leaf e.pa cowPerm).pa = e.pa := Pte.leaf_pa hal cowPerm
  have hleafowned : (Pte.leaf e.pa cowPerm).owned = some e.pa := by
    have howns : (Pte.leaf e.pa cowPerm).owns = true := rfl
    rw [Pte.owned, if_pos howns, hleafpa]
  have hhasG : (g.space c).pagetable.Has v → (G.space c).pagetable.Has v := by
    rw [← hGd, Vm.setTable, Vm.setSpace_of_ne _ hpc]
    exact id
  have hnext : ∀ t, Owned live noHand (n + 1) t → t.space = W.space → u.SameFields t →
      (∀ f, f ≠ e.pa → 0 < u.pmm.ref f → t.pmm.ref f = u.pmm.ref f) → Sharing live n p c s rest t := by
    intro t ot hspace hst href
    refine h.next hp (hv ▸ hrest) ?_ ot hst ?_ ?_ ?_ ?_
    · rw [hv, he, howned]
    · intro q hq hq'
      rw [hspace, hothers q hq hq']
    · intro x hx
      rw [Vm.entry, hspace]
      rcases hG with rfl | ⟨-, -, rfl⟩
      · exact hpentry x (hv ▸ hx)
      · rw [← hpentry x (hv ▸ hx)]
        exact (G.setTable_becomes c _).entry_of_ne hpc.symm x
    · intro x
      rw [hv, he, Vm.entry, hspace]
      rcases hG with rfl | ⟨hhas, -, rfl⟩
      · exact .inl (hcentry x)
      · by_cases hx : x = v
        · right
          have := (G.setTable_becomes c (·.setPte v (Pte.leaf e.pa cowPerm))).entry_self x
          rw [PageTable.entry_setPte (hhasG hhas), hx, update_self] at this
          rw [hx]
          exact (congrArg Pte.pa this).trans hleafpa
        · left
          have := (G.setTable_becomes c (·.setPte v (Pte.leaf e.pa cowPerm))).entry_self x
          rw [PageTable.entry_setPte (hhasG hhas), update_of_ne hx] at this
          exact this.trans (hcentry x)
    · rw [hv, he]
      exact href
  have hsameW : u.SameFields W := by
    rcases hG with rfl | ⟨-, -, rfl⟩
    · exact hsame
    · exact hsame.setTable c _
  refine ⟨fun hm => ?_, fun hm => ?_⟩
  · rw [hwpmm'] at hm ⊢
    rw [hg.same.bounds.managed] at hm
    obtain ⟨hpos, hle, hnouse⟩ := hroom hm
    have href : G.pmm.ref e.pa = u.pmm.ref e.pa := by rw [hGpmm, hg.ref _ hpos]
    have hmG : G.pmm.Managed e.pa := (hsame.bounds.managed _).mpr hm
    have hmod : (g.pmm.ref e.pa + 1) % 2 ^ 16 = G.pmm.ref e.pa + 1 := by
      rw [hGpmm, Nat.mod_eq_of_lt]
      rw [hGpmm] at href
      omega
    rw [hmod, ← hGpmm]
    refine hnext _ ?_ rfl ⟨hsame.bounds, hsameW.trap, hsameW.fields⟩ ?_
    · rcases hG with rfl | ⟨hhas, hinv, rfl⟩
      · exact og.raise rfl rfl (by omega) rfl (by simp [noHand]) (og.raised_bound hmG (by omega))
      · have hhas' := hhasG hhas
        have hcG : G.Becomes { G.setTable c (·.setPte v (Pte.leaf e.pa cowPerm)) with
            pmm := G.pmm.setRef e.pa (G.pmm.ref e.pa + 1) } c
            { G.space c with pagetable := (G.space c).pagetable.setPte v (Pte.leaf e.pa cowPerm) } :=
          ⟨rfl, ⟨rfl, rfl⟩, rfl⟩
        refine og.share (f := e.pa) (v := v) hc hcG ?_ (by omega) rfl (by simp [noHand]) ?_
          (og.raised_bound hmG (by omega)) ?_ ?_
        · rw [Space.frameAt_setPte hhas', hleafowned]
        · intro f hf
          rcases borrowed_setPte hhas' hcG hf with hf | ⟨hb, -⟩
          · exact hf
          · exact absurd hb (by simp [Pte.borrows, Pte.leaf, cowPerm])
        · intro x _ hx
          rw [usesOf_leaf (hcentry x) hsame.bounds] at hx
          exact hnouse x hx
        · exact (og.tidy c hc).setPte hhas' _ (fun _ hu => absurd hu (by simp [Pte.leaf, cowPerm]))
            (fun hb => absurd hb (by simp [Pte.borrows, Pte.leaf, cowPerm])) (fun _ _ => hhigh)
    · intro f hf hfpos
      change (G.pmm.setRef e.pa (G.pmm.ref e.pa + 1)).ref f = _
      rw [Pmm.ref_setRef hmG, update_of_ne hf, hGpmm, hg.ref f hfpos]
  · rw [hwpmm', hg.same.bounds.managed] at hm
    refine hnext W ?_ rfl hsameW fun f _ hfpos => by rw [hwpmm', hg.ref f hfpos]
    rcases hG with rfl | ⟨hhas, hinv, rfl⟩
    · exact og
    · have hfill : Filled live noHand (n + 1) G c v (Pte.leaf e.pa cowPerm)
          (G.setTable c (·.setPte v (Pte.leaf e.pa cowPerm))) :=
        ⟨G, .refl og, hhasG hhas, by rw [hcentry]; exact hinv, rfl⟩
      refine hfill.keep hc ?_ (fun _ hu => absurd hu (by simp [Pte.leaf, cowPerm]))
        (fun hb => absurd hb (by simp [Pte.borrows, Pte.leaf, cowPerm])) (fun _ => hhigh)
      intro f hf
      rw [hleafowned] at hf
      rw [← Option.some.inj hf, hsame.bounds.managed]
      exact hm

end Pke.Memory
