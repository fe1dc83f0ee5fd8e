import Pke.Memory.PageEffects

namespace Pke.Memory

open Lib Flow Function Processes

variable {live : Finset Pid} {hand : ℕ → Option ℕ} {n : ℕ} {s t u : Vm} {p q : Pid} {va pa k v f : ℕ}
  {rest : List ℕ}

def hold (hand : ℕ → Option ℕ) (k pa : ℕ) : ℕ → Option ℕ := if pa = 0 then hand else update hand k (some pa)

lemma Owned.unhold (o : Owned live (hold hand k pa) n s) (hk : hand k = none) : Owned live hand n s := by
  refine o.forget fun j g hj => ?_
  unfold hold
  split_ifs
  · exact hj
  · rw [update_of_ne (fun e => by simp [e, hk] at hj), hj]

lemma Grown.unhold (h : Grown live (hold hand k pa) n s t) (hk : hand k = none) : Grown live hand n s t :=
  { h with owned := h.owned.unhold hk }

lemma Owned.pop_hold (o : Owned live hand n s) (hn : 1 ≤ n) (hl : s.pmm.gFreeMemList = f :: rest) (k : ℕ) :
    Owned live (hold hand k f) n (s.pop f rest) := by
  have hf : f ≠ 0 := fun h => o.null_unmanaged (h ▸ o.managed f (by simp [hl]))
  rw [hold, if_neg hf]
  exact o.take_hand hn hl k

lemma allocOrNull_hold (o : Owned live hand n s) (hn : 1 ≤ n) (k : ℕ) {E : Vm → Prop} :
    wp allocOrNull (fun pa t => Owned live (hold hand k pa) n t ∧
      (pa = 0 ∧ t = s ∨ ∃ rest, s.pmm.gFreeMemList = pa :: rest ∧ t = s.pop pa rest)) E s := by
  unfold allocOrNull
  rw [wp_bind, wp_allocPage o.managed]
  exact ⟨fun _ => ⟨o, .inl ⟨rfl, rfl⟩⟩, fun f rest hl => ⟨o.pop_hold hn hl k, .inr ⟨rest, hl, rfl⟩⟩⟩

lemma Owned.hold_aligned (o : Owned live (hold hand k pa) n s) : pa % 4096 = 0 := by
  by_cases hpa : pa = 0
  · simp [hpa]
  · have := o.sole k pa (by simp [hold, hpa])
    exact (Pmm.managed_of_ref (m := s.pmm) (f := pa) (by omega)).1

lemma Pte.leaf_pa (h : pa % 4096 = 0) (perm : Pte) : (Pte.leaf pa perm).pa = pa := by
  unfold Pte.leaf Pte.pa
  dsimp only
  omega

lemma owned_userRw (h : pa % 4096 = 0) : (Pte.leaf pa userRw).owned = some pa := by
  have howns : (Pte.leaf pa userRw).owns = true := rfl
  rw [Pte.owned, if_pos howns, Pte.leaf_pa h]

lemma Filled.owned_rw (h : Filled live (hold hand k pa) n s p v (Pte.leaf pa userRw) t)
    (o : Owned live (hold hand k pa) n s) (hk : hand k = none) (hp : p ∈ live) : Owned live hand n t := by
  by_cases hpa : pa = 0
  · subst hpa
    have : Owned live (hold hand k 0) n t := h.keep hp
      (fun f hf => by
        rw [owned_userRw rfl] at hf
        exact Option.some.inj hf ▸ o.null_unmanaged)
      (fun _ hu => absurd hu (by decide)) (fun hb => absurd hb (by simp [Pte.borrows, Pte.leaf, userRw, protToType]))
      (fun hc => absurd hc (by decide))
    exact this.unhold hk
  · have hheld : hold hand k pa k = some pa := by simp [hold, hpa]
    refine (h.install hp hheld (owned_userRw o.hold_aligned) rfl).forget ?_
    intro j g hj
    have hjk : j ≠ k := fun e => by simp [e, hk] at hj
    simp [hold, hpa, hjk, hj]

lemma userVmMap_rw (o : Owned live (hold hand k pa) n s) (hk : hand k = none) (hp : p ∈ live) (hn : 1 ≤ n)
    (hva : va % 4096 = 0) :
    wp (userVmMap p va 4096 pa userRw) (fun _ t => Owned live hand n t ∧
      (Grown live (hold hand k pa) n s t ∧ 2 ^ 64 ≤ va ∨
        va < maxva ∧ Filled live (hold hand k pa) n s p (va / 4096) (Pte.leaf pa userRw) t))
      (Owned live hand n) s := by
  refine wp_mono (userVmMap_page o hp hn hva pa userRw) ?_ (fun t ht => (ht.unhold hk).owned)
  intro _ t ht
  refine ⟨?_, ht⟩
  rcases ht with ⟨ht, -⟩ | ⟨-, ht⟩
  · exact (ht.unhold hk).owned
  · exact ht.owned_rw o hk hp

def Private (live : Finset Pid) (s : Vm) (p : Pid) (v : ℕ) : Prop :=
  (s.entry p v).v = true → (s.entry p v).owns = true ∧ (s.entry p v).pa ∉ borrowed live s

lemma Grown.borrowed_eq (h : Grown live hand n s t) : borrowed live t = borrowed live s := by
  ext f
  simp only [borrowed, h.entry, h.same.bounds.managed]

lemma Filled.borrowed_subset {e : Pte} (h : Filled live hand n s p v e t) (he : e.borrows = false) :
    borrowed live t ⊆ borrowed live s := by
  obtain ⟨u, hu, hv, -, rfl⟩ := h
  intro f hf
  rcases borrowed_setPte hv (u.setTable_becomes p _) hf with hf | ⟨hb, -⟩
  · rwa [hu.borrowed_eq] at hf
  · simp [he] at hb

lemma Filled.isPrivate (h : Filled live (hold hand k pa) n s p v (Pte.leaf pa userRw) t)
    (o : Owned live (hold hand k pa) n s) (hpa : pa ∉ borrowed live s) (w : ℕ) (hw : w = v ∨ Private live s p w) :
    Private live t p w := by
  have hsub := h.borrowed_subset (e := Pte.leaf pa userRw) rfl
  intro hval
  rw [h.entry_self] at hval ⊢
  by_cases hwv : w = v
  · rw [hwv, update_self, Pte.leaf_pa o.hold_aligned]
    exact ⟨rfl, fun hb => hpa (hsub hb)⟩
  · rw [update_of_ne hwv] at hval ⊢
    obtain ⟨h₁, h₂⟩ := hw.resolve_left hwv hval
    exact ⟨h₁, fun hb => h₂ (hsub hb)⟩

lemma Owned.fresh_not_borrowed (o : Owned live hand n s) (hl : s.pmm.gFreeMemList = f :: rest) :
    f ∉ borrowed live (s.pop f rest) := fun hb =>
  o.counted.not_free_of_pinned (i := f) hb (by simp [hl])

structure Reworked (live : Finset Pid) (hand : ℕ → Option ℕ) (n : ℕ) (p : Pid) (s t : Vm) : Prop where
  owned : Owned live hand n t
  same : s.SameFields t
  borrowed : borrowed live t ⊆ borrowed live s
  keeps : ∀ w, Private live s p w → Private live t p w

namespace Reworked

lemma refl (o : Owned live hand n s) : Reworked live hand n p s s := ⟨o, .refl s, subset_rfl, fun _ h => h⟩

lemma trans (h : Reworked live hand n p s t) (h' : Reworked live hand n p t u) : Reworked live hand n p s u :=
  ⟨h'.owned, h.same.trans h'.same, h'.borrowed.trans h.borrowed, fun w hw => h'.keeps w (h.keeps w hw)⟩

end Reworked

lemma mapFresh_owned (o : Owned live hand n s) (hk : hand k = none) (hp : p ∈ live) (hn : 1 ≤ n)
    (hva : va % 4096 = 0) :
    wp (mapFresh p va) (fun b t => Reworked live hand n p s t ∧
      (b = true → va < maxva → Private live t p (va / 4096))) (Owned live hand n) s := by
  unfold mapFresh
  rw [wp_bind, wp_allocPage o.managed]
  refine ⟨fun _ => ⟨.refl o, by simp⟩, fun f rest hl => ?_⟩
  have hpop := o.pop_hold hn hl k
  have hsame : s.SameFields (s.pop f rest) := ⟨⟨rfl, rfl⟩, rfl, fun _ => rfl⟩
  dsimp only
  rw [wp_bind]
  refine wp_mono (userVmMap_rw hpop hk hp hn hva) ?_ (fun _ h => h)
  rintro _ t ⟨ht, hcase⟩
  rw [wp_pure]
  have hkeep : ∀ w, Private live s p w → Private live (s.pop f rest) p w := fun _ h => h
  rcases hcase with ⟨hg, hle⟩ | ⟨hlt, hfill⟩
  · refine ⟨⟨ht, hsame.trans hg.same, ?_, fun w hw hval => ?_⟩, fun _ h => absurd h (by unfold maxva; omega)⟩
    · rw [hg.borrowed_eq]
      exact subset_rfl
    · rw [hg.entry] at hval ⊢
      rw [hg.borrowed_eq]
      exact hkeep w hw hval
  · have hfresh := o.fresh_not_borrowed hl
    refine ⟨⟨ht, hsame.trans hfill.same, hfill.borrowed_subset rfl, fun w hw => ?_⟩, fun _ _ => ?_⟩
    · exact hfill.isPrivate hpop hfresh w (.inr (hkeep w hw))
    · exact hfill.isPrivate hpop hfresh _ (.inl rfl)

def Releasable (live : Finset Pid) (s : Vm) (p : Pid) (v : ℕ) : Prop :=
  (s.entry p v).v = true → s.pmm.Managed (s.entry p v).pa → (s.entry p v).u = true ∧
    (∀ q ∈ live, ∀ w, (s.entry q w).borrows = true → (s.entry q w).pa = (s.entry p v).pa → q = p ∧ w = v) ∧
    ((s.entry p v).x = true → ∀ q ∈ live, ∀ w, (s.space q).frameAt w ≠ some (s.entry p v).pa)

lemma Private.releasable (h : Private live s p v) : Releasable live s p v := by
  intro hval hm
  obtain ⟨howns, hfree⟩ := h hval
  have hown : (s.entry p v).u = true ∧ (s.entry p v).x = false := by
    simp only [Pte.owns, Bool.and_eq_true, Bool.not_eq_true'] at howns
    exact ⟨howns.1.2, howns.2⟩
  refine ⟨hown.1, fun q hq w hb hpa => ?_, fun hx => ?_⟩
  · exact absurd ⟨hm, q, hq, w, hb, hpa⟩ hfree
  · exact absurd hx (by simp [hown.2])

def Vm.unmapped (s : Vm) (p : Pid) (v : ℕ) : Vm := (s.release (s.entry p v).pa).setTable p (·.setPte v {})

lemma Vm.unmapped_becomes (s : Vm) (p : Pid) (v : ℕ) : s.Becomes (s.unmapped p v) p
    { s.space p with pagetable := (s.space p).pagetable.setPte v {} } := ⟨rfl, ⟨rfl, rfl⟩, rfl⟩

lemma Vm.unmapped_entry (hv : (s.entry p v).v = true) : (s.unmapped p v).entry p = update (s.entry p) v {} := by
  funext w
  rw [(s.unmapped_becomes p v).entry_self]
  exact congrFun (PageTable.entry_setPte (PageTable.has_of_valid hv) {}) w

lemma Vm.unmapped_same (s : Vm) (p : Pid) (v : ℕ) : s.SameFields (s.unmapped p v) := by
  have : s.SameFields (s.release (s.entry p v).pa) := ⟨⟨rfl, rfl⟩, rfl, fun _ => rfl⟩
  exact this.setTable p _

lemma borrowed_unmapped (hv : (s.entry p v).v = true) : borrowed live (s.unmapped p v) ⊆ borrowed live s := by
  intro f hf
  rcases borrowed_setPte (PageTable.has_of_valid hv) (s.unmapped_becomes p v) hf with h | ⟨h, -⟩
  · exact h
  · exact absurd h (by decide)

lemma Owned.covered_owned (o : Owned live hand n s) (hp : p ∈ live) (howns : (s.entry p v).owns = true)
    (hm : s.pmm.Managed (s.entry p v).pa) :
    0 < s.pmm.ref (s.entry p v).pa ∧
      {u | update (usesOf live hand s) (.spot p (.leaf v)) none u = some (s.entry p v).pa}.encard + 1 ≤
        s.pmm.ref (s.entry p v).pa := by
  have howned : (s.entry p v).owned = some (s.entry p v).pa := by rw [Pte.owned, if_pos howns]
  have huse : usesOf live hand s (.spot p (.leaf v)) = some (s.entry p v).pa :=
    usesOf_eq_some.mpr ⟨hp, howned, hm⟩
  refine ⟨o.counted.pos_of_uses huse, ?_⟩
  have := Counted.encard_update_none _ _ _ (s.entry p v).pa huse
  rw [if_pos rfl] at this
  rw [this]
  exact o.counted.covered _

lemma Owned.covered_without (o : Owned live hand n s) (hp : p ∈ live) (hr : Releasable live s p v)
    (hv : (s.entry p v).v = true) (hm : s.pmm.Managed (s.entry p v).pa)
    (hh : ∀ k, hand k ≠ some (s.entry p v).pa) :
    0 < s.pmm.ref (s.entry p v).pa ∧
      {u | update (usesOf live hand s) (.spot p (.leaf v)) none u = some (s.entry p v).pa}.encard + 1 ≤
        s.pmm.ref (s.entry p v).pa := by
  obtain ⟨hu, -, hx⟩ := hr hv hm
  cases hex : (s.entry p v).x with
  | false => exact o.covered_owned hp (by simp [Pte.owns, hv, hu, hex]) hm
  | true =>
    have hpos : 0 < s.pmm.ref (s.entry p v).pa :=
      o.counted.pinned _ ⟨hm, p, hp, v, by simp [Pte.borrows, hv, hu, hex], rfl⟩
    have hnone : {u | update (usesOf live hand s) (.spot p (.leaf v)) none u = some (s.entry p v).pa} = ∅ := by
      rw [Set.eq_empty_iff_forall_notMem]
      intro w hw
      have hw' : usesOf live hand s w = some (s.entry p v).pa := by
        by_cases hwv : w = .spot p (.leaf v)
        · rw [Set.mem_ofPred_eq, hwv, update_self] at hw
          exact absurd hw (by simp)
        · rwa [Set.mem_ofPred_eq, update_of_ne hwv] at hw
      cases w with
      | hand k => exact hh k hw'
      | spot q w =>
        obtain ⟨hq, hframe, -⟩ := usesOf_eq_some.mp hw'
        exact hx hex q hq w hframe
    rw [hnone, Set.encard_empty, zero_add]
    exact ⟨hpos, by exact_mod_cast hpos⟩

lemma Owned.unmapped_of_covered (o : Owned live hand n s) (hp : p ∈ live) (hv : (s.entry p v).v = true)
    (hm : s.pmm.Managed (s.entry p v).pa) (hh : ∀ k, hand k ≠ some (s.entry p v).pa)
    (hcov : 0 < s.pmm.ref (s.entry p v).pa ∧
      {u | update (usesOf live hand s) (.spot p (.leaf v)) none u = some (s.entry p v).pa}.encard + 1 ≤
        s.pmm.ref (s.entry p v).pa)
    (hpin : (s.entry p v).pa ∈ borrowed live (s.unmapped p v) → 1 < s.pmm.ref (s.entry p v).pa) :
    Owned live hand n (s.unmapped p v) := by
  have hhas := PageTable.has_of_valid hv
  refine o.release_leaf hp hm (s.unmapped_becomes p v) rfl (Space.frameAt_setPte hhas {}) hcov.1 hh hcov.2
    (borrowed_unmapped hv) hpin ?_
  refine (o.tidy p hp).setPte hhas {} ?_ ?_ ?_ <;> intro h <;> exact absurd h (by decide)

lemma Owned.unmapped (o : Owned live hand n s) (hp : p ∈ live) (hr : Releasable live s p v)
    (hv : (s.entry p v).v = true) (hm : s.pmm.Managed (s.entry p v).pa)
    (hh : ∀ k, hand k ≠ some (s.entry p v).pa) : Owned live hand n (s.unmapped p v) := by
  refine o.unmapped_of_covered hp hv hm hh (o.covered_without hp hr hv hm hh) ?_
  rintro ⟨-, q, hq, w, hb, hpa⟩
  by_cases hqp : q = p
  · subst hqp
    rw [Vm.unmapped_entry hv] at hb hpa
    by_cases hw : w = v
    · rw [hw, update_self] at hb
      exact absurd hb (by decide)
    · rw [update_of_ne hw] at hb hpa
      exact absurd ((hr hv hm).2.1 q hq w hb hpa).2 hw
  · rw [(s.unmapped_becomes p v).entry_of_ne hqp] at hb hpa
    exact absurd ((hr hv hm).2.1 q hq w hb hpa).1 hqp

structure Vm.Shrinks (s t : Vm) : Prop where
  same : s.SameFields t
  entry : ∀ q v, t.entry q v = s.entry q v ∨ t.entry q v = {}
  frame : ∀ q w f, (t.space q).frameAt w = some f → (s.space q).frameAt w = some f

lemma Vm.unmapped_shrinks (hv : (s.entry p v).v = true) : s.Shrinks (s.unmapped p v) := by
  have hc := s.unmapped_becomes p v
  refine ⟨s.unmapped_same p v, fun q w => ?_, fun q w f hf => ?_⟩
  · by_cases hq : q = p
    · subst hq
      rw [Vm.unmapped_entry hv]
      by_cases hw : w = v
      · simp [hw]
      · simp [hw]
    · exact .inl (hc.entry_of_ne hq w)
  · rw [hc.space] at hf
    by_cases hq : q = p
    · subst hq
      rw [update_self, Space.frameAt_setPte (PageTable.has_of_valid hv)] at hf
      by_cases hw : w = .leaf v
      · rw [hw, update_self] at hf
        exact absurd hf (by simp [Pte.owned, Pte.owns])
      · rwa [update_of_ne hw] at hf
    · rwa [update_of_ne hq] at hf

lemma Vm.Shrinks.entry_of_valid (h : s.Shrinks t) (hv : (t.entry q v).v = true) :
    t.entry q v = s.entry q v := by
  refine (h.entry q v).resolve_right fun he => ?_
  rw [he] at hv
  exact absurd hv (by decide)

lemma Vm.Shrinks.borrowed (h : s.Shrinks t) : borrowed live t ⊆ borrowed live s := by
  rintro f ⟨hm, q, hq, w, hb, hpa⟩
  have hv : (t.entry q w).v = true := by
    unfold Pte.borrows at hb
    simp only [Bool.and_eq_true] at hb
    exact hb.1.1
  rw [h.entry_of_valid hv] at hb hpa
  exact ⟨(h.same.bounds.managed f).mp hm, q, hq, w, hb, hpa⟩

lemma Private.mono (hr : Private live s p v) (h : s.Shrinks t) : Private live t p v := by
  intro hv
  have he := h.entry_of_valid hv
  rw [he] at hv ⊢
  exact ⟨(hr hv).1, fun hb => (hr hv).2 (h.borrowed hb)⟩

lemma Releasable.mono (hr : Releasable live s p v) (h : s.Shrinks t) : Releasable live t p v := by
  intro hv hm
  have he := h.entry_of_valid hv
  rw [he] at hv hm ⊢
  obtain ⟨h₁, h₂, h₃⟩ := hr hv ((h.same.bounds.managed _).mp hm)
  refine ⟨h₁, fun q hq w hb hpa => ?_, fun hx q hq w hf => h₃ hx q hq w (h.frame q w _ hf)⟩
  have hvq : (t.entry q w).v = true := by
    unfold Pte.borrows at hb
    simp only [Bool.and_eq_true] at hb
    exact hb.1.1
  rw [h.entry_of_valid hvq] at hb hpa
  exact h₂ q hq w hb hpa

lemma userVmUnmap_owned (o : Owned live hand n s) (hp : p ∈ live) (hr : va < maxva → Releasable live s p (va / 4096))
    (hh : va < maxva → (s.entry p (va / 4096)).v = true → ∀ k, hand k ≠ some (s.entry p (va / 4096)).pa) :
    wp (userVmUnmap p va 4096 true) (fun _ t => Owned live hand n t ∧ s.Shrinks t ∧ va % 4096 = 0)
      (fun t => t = s) s := by
  refine wp_userVmUnmap rfl ?_ ?_
  · exact fun hva _ => ⟨o, ⟨.refl s, fun _ _ => .inl rfl, fun _ _ _ h => h⟩, hva⟩
  · intro hva hlt hv hm
    exact ⟨o.unmapped hp (hr hlt) hv hm (hh hlt hv), Vm.unmapped_shrinks hv, hva⟩

lemma Owned.hand_ne_private (o : Owned live hand n s) (hp : p ∈ live) (hr : Private live s p v)
    (hv : (s.entry p v).v = true) (k : ℕ) : hand k ≠ some (s.entry p v).pa := by
  intro hk
  have howned : (s.entry p v).owned = some (s.entry p v).pa := by rw [Pte.owned, if_pos (hr hv).1]
  have hm : s.pmm.Managed (s.entry p v).pa := Pmm.managed_of_ref (by rw [o.sole k _ hk]; omega)
  exact Use.noConfusion (o.only_hand hk (usesOf_eq_some (w := .leaf v) |>.mpr ⟨hp, howned, hm⟩))

lemma unmapPrivate_owned (o : Owned live hand n s) (hp : p ∈ live) (hr : va < maxva → Private live s p (va / 4096)) :
    wp (userVmUnmap p va 4096 true) (fun _ t => Reworked live hand n p s t) (fun t => t = s) s := by
  refine wp_mono (userVmUnmap_owned o hp (fun h => (hr h).releasable)
    (fun h hv => o.hand_ne_private hp (hr h) hv)) ?_ (fun _ h => h)
  rintro _ t ⟨ht, hshrink, -⟩
  exact ⟨ht, hshrink.same, hshrink.borrowed, fun w hw => hw.mono hshrink⟩

end Pke.Memory
