import Pke.Memory.SpaceCalls

namespace Pke.Memory

open Lib Flow Function Processes

variable {live : Finset Pid} {hand : ℕ → Option ℕ} {m n : ℕ} {s t u : Vm} {p c : Pid} {va pa k v f : ℕ}
  {garbage : ℕ → Bool}

def Fresh (live : Finset Pid) (c : Pid) (t : Vm) : Prop :=
  ∀ v f, usesOf live noHand t (.spot c (.leaf v)) = some f → t.pmm.ref f = 1

lemma Owned.lookup_in_use (o : Owned live hand n s) (hp : p ∈ live) (hlow : va < 0x80000000)
    (hm : s.pmm.Managed (lookupPa s p va)) : 0 < s.pmm.ref (lookupPa s p va) := by
  have hne : lookupPa s p va ≠ 0 := fun h => o.null_unmanaged (h ▸ hm)
  obtain ⟨-, hv, hpa⟩ := lookupPa_ne_zero hne
  rw [hpa] at hm ⊢
  have hu : (s.entry p (va / 4096)).u = true := by
    by_contra h
    have := ((o.tidy p hp).kernelLeaf _ hv (Bool.eq_false_of_not_eq_true h)).2.1
    omega
  cases hx : (s.entry p (va / 4096)).x with
  | true => exact o.counted.pinned _ ⟨hm, p, hp, va / 4096, by simp [Pte.borrows, hv, hu, hx], rfl⟩
  | false =>
    have howned : (s.entry p (va / 4096)).owned = some (s.entry p (va / 4096)).pa := by
      simp [Pte.owned, Pte.owns, hv, hu, hx]
    have huse : usesOf live hand s (.spot p (.leaf (va / 4096))) = some (s.entry p (va / 4096)).pa :=
      usesOf_eq_some.mpr ⟨hp, howned, hm⟩
    exact o.counted.pos_of_uses huse

lemma usesOf_leaf {live : Finset Pid} {hand : ℕ → Option ℕ} (h : t.entry c v = s.entry c v)
    (hb : s.pmm.SameBounds t.pmm) :
    usesOf live hand t (.spot c (.leaf v)) = usesOf live hand s (.spot c (.leaf v)) := by
  have hframe : (t.space c).frameAt (.leaf v) = (s.space c).frameAt (.leaf v) := by
    change (t.entry c v).owned = (s.entry c v).owned
    rw [h]
  simp only [usesOf, hframe, Vm.managed, hb.managed]

lemma Fresh.congr (h : Fresh live c s) (hpmm : t.pmm = s.pmm) (he : ∀ w, t.entry c w = s.entry c w) :
    Fresh live c t := by
  intro w f hf
  rw [usesOf_leaf (he w) (hpmm ▸ ⟨rfl, rfl⟩)] at hf
  rw [hpmm]
  exact h w f hf

lemma Fresh.grown (h : Fresh live c s) (o : Owned live noHand n s) (hd : s.Draws t)
    (he : ∀ w, t.entry c w = s.entry c w) : Fresh live c t := by
  intro w f hf
  rw [usesOf_leaf (he w) hd.bounds] at hf
  rw [hd.ref f (o.counted.pos_of_uses hf)]
  exact h w f hf

lemma Fresh.filled {e : Pte} (h : Fresh live c s) (o : Owned live noHand n s)
    (hf : Filled live hand m s c v e t)
    (he : ∀ f, e.owned = some f → s.pmm.Managed f → s.pmm.ref f = 1) : Fresh live c t := by
  intro w f hw
  have hb := hf.same.bounds
  by_cases hwv : w = v
  · subst hwv
    obtain ⟨-, hframe, hm⟩ := usesOf_eq_some.mp hw
    have howned : e.owned = some f := by
      rw [← hframe]
      change _ = (t.entry c w).owned
      rw [hf.entry_self, update_self]
    have := he f howned ((hb.managed f).mp hm)
    rw [hf.ref (by omega), this]
  · have hsame : t.entry c w = s.entry c w := by rw [hf.entry_self, update_of_ne hwv]
    rw [usesOf_leaf hsame hb] at hw
    rw [hf.ref (o.counted.pos_of_uses hw)]
    exact h w f hw

def Grafted (live : Finset Pid) (m : ℕ) (c : Pid) (s t : Vm) : Prop :=
  Owned live noHand m t ∧ (Fresh live c s → Fresh live c t) ∧
    (4 ≤ (s.space c).totalMappedRegion → 4 ≤ (t.space c).totalMappedRegion)

lemma registerRegion_grafted (o : Owned live noHand m s) (hc : c ∈ live) (htotal : 4 ≤ (s.space c).totalMappedRegion)
    {r : Region} (hr : ∀ i, i ≠ 3 → Fits i r) {E : Vm → Prop} :
    wp (registerRegion c r) (fun _ => Grafted live m c s) E s := by
  unfold registerRegion setRegion
  rw [wp_bind, wp_get, wp_bind, wp_modify, wp_modify]
  have o₁ := o.setFields hc (fun a => { a with regions := update a.regions (s.space c).totalMappedRegion r })
    rfl rfl rfl rfl fun i => by
      by_cases hi : i = (s.space c).totalMappedRegion
      · subst hi
        right
        simpa using hr _ (by omega)
      · exact .inl (by simp [hi])
  refine ⟨o₁.setFields hc _ rfl rfl rfl rfl fun _ => .inl rfl, ?_, ?_⟩
  · exact fun hf => hf.congr rfl fun w => by simp [Vm.entry]
  · intro _
    simp only [Vm.setSpace_self]
    omega

lemma copyDataPage_grafted (o : Owned live noHand m s) (hc : c ∈ live) (hm : 1 ≤ m) (hva : va % 4096 = 0) :
    wp (copyDataPage p c va) (fun _ => Grafted live m c s) (Owned live noHand m) s := by
  unfold copyDataPage memcpyPage
  rw [wp_bind, wp_get, wp_bind]
  refine wp_mono (allocOrNull_draws o hm 0) ?_ (fun _ h => h)
  rintro pa t ⟨ht, hspace, hd, -⟩
  rw [wp_bind, wp_ite]
  refine ⟨fun _ => wp_halt, fun hnull => ?_⟩
  push Not at hnull
  rw [wp_modify]
  set t₁ : Vm := { t with mem := fun a => if pa ≤ a ∧ a < pa + 4096 then t.mem (lookupPa s p va + (a - pa)) else t.mem a }
  have o₁ : Owned live (hold noHand 0 pa) m t₁ := ht.congr rfl rfl rfl
  have hfresh₁ : Fresh live c s → Fresh live c t₁ := fun hf =>
    (hf.grown o hd fun w => by rw [Vm.entry, Vm.entry, hspace]).congr (t := t₁) rfl fun _ => rfl
  have hsame : s.SameFields t₁ := ⟨hd.bounds, hd.trap, fun q => by rw [show t₁.space = s.space from hspace]⟩
  refine wp_mono (userVmMap_rw o₁ rfl hc hm hva) ?_ (fun _ h => h)
  rintro _ u ⟨ou, hcase⟩
  refine ⟨ou, fun hf => ?_, fun htotal => ?_⟩
  · rcases hcase with ⟨hg, -⟩ | ⟨-, hfill⟩
    · exact (hfresh₁ hf).grown (o₁.unhold rfl) hg.draws fun w => hg.entry c w
    · refine (hfresh₁ hf).filled (o₁.unhold rfl) hfill fun f howned hman => ?_
      rw [owned_userRw o₁.hold_aligned] at howned
      rw [← Option.some.inj howned]
      exact o₁.sole 0 pa (by simp [hold, hnull.1])
  · have hu : s.SameFields u := by
      rcases hcase with ⟨hg, -⟩ | ⟨-, hfill⟩
      · exact hsame.trans hg.same
      · exact hsame.trans hfill.same
    rw [hu.fields c]
    exact htotal

lemma forkRegion_grafted (o : Owned live noHand m s) (hp : p ∈ live) (hc : c ∈ live) (hm : 1 ≤ m) {i : ℕ}
    (hheap : ((s.space p).regions i).segType ≠ .heap) (htotal : 4 ≤ (s.space c).totalMappedRegion) :
    wp (forkRegion p c garbage i) (fun _ => Grafted live m c s) (Owned live noHand m) s := by
  have himage := (o.tidy p hp).imageRegion i
  unfold forkRegion
  rw [wp_bind, wp_get]
  dsimp only
  generalize hr : (s.space p).regions i = r at hheap himage
  cases hseg : r.segType with
  | context =>
    rw [wp_modify]
    refine ⟨o.setFields hc _ rfl rfl rfl rfl fun _ => .inl rfl, ?_, ?_⟩
    · exact fun hf => hf.congr rfl fun w => by simp [Vm.entry]
    · simp
  | stack =>
    unfold memcpyPage
    rw [wp_ite]
    refine ⟨fun _ => wp_halt, fun _ => ?_⟩
    rw [wp_modify]
    exact ⟨o.congr rfl rfl rfl, fun hf => hf.congr rfl fun _ => rfl, id⟩
  | heap => exact absurd hseg hheap
  | system => exact ⟨o, id, id⟩
  | code =>
    obtain ⟨-, hal, hlow, hone⟩ := himage (.inl hseg)
    have hlow' : r.va < 0x80000000 := lt_trans hlow (by decide)
    rw [hone, wp_bind, Nat.one_mul]
    refine wp_mono (userVmMap_page o hc hm hal _ userRx) ?_ (fun _ h => h.owned)
    intro _ t hcase
    have hpa : lookupPa s p r.va % 4096 = 0 := by
      rw [lookupPa_eq]
      split_ifs
      · unfold Pte.pa
        omega
      · rfl
    have hgraft : Grafted live m c s t := by
      rcases hcase with ⟨hg, -⟩ | ⟨-, hfill⟩
      · refine ⟨hg.owned, fun hf => hf.grown o hg.draws fun w => hg.entry c w, fun h => ?_⟩
        rw [hg.same.fields c]
        exact h
      · refine ⟨hfill.keep hc ?_ ?_ ?_ (fun h => absurd h (by simp [Pte.leaf, userRx, protToType])), fun hf => hf.filled o hfill ?_, fun h => ?_⟩
        · intro g hg
          simp [Pte.owned, Pte.owns, Pte.leaf, userRx, protToType] at hg
        · intro _ hu
          exact absurd hu (by simp [Pte.leaf, userRx, protToType])
        · intro _
          rw [Pte.leaf_pa hpa]
          exact ⟨by unfold userFreeAddressStart at hlow; omega, o.lookup_in_use hp hlow'⟩
        · intro g hg
          simp [Pte.owned, Pte.owns, Pte.leaf, userRx, protToType] at hg
        · rw [hfill.same.fields c]
          exact h
    refine wp_mono (registerRegion_grafted (r := ⟨r.va, 1, .code⟩) hgraft.1 hc (hgraft.2.2 htotal) fun i hi => ⟨hi, hal, hlow, rfl⟩) ?_
      (fun _ h => h)
    exact fun _ u hu => ⟨hu.1, fun hf => hu.2.1 (hgraft.2.1 hf), fun h => hu.2.2 (hgraft.2.2 h)⟩
  | data =>
    obtain ⟨-, hal, hlow, hone⟩ := himage (.inr hseg)
    rw [hone, wp_bind]
    change wp (each _ [0]) _ _ _
    simp only [each, wp_bind]
    refine wp_mono (copyDataPage_grafted o hc hm (by simpa using hal)) ?_ (fun _ h => h)
    intro _ t hgraft
    rw [wp_pure]
    refine wp_mono (registerRegion_grafted (r := ⟨r.va, 1, .data⟩) hgraft.1 hc (hgraft.2.2 htotal) fun i hi => ⟨hi, hal, hlow, rfl⟩) ?_
      (fun _ h => h)
    exact fun _ u hu => ⟨hu.1, fun hf => hu.2.1 (hgraft.2.1 hf), fun h => hu.2.2 (hgraft.2.2 h)⟩

end Pke.Memory
