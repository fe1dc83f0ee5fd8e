import Pke.Memory.Birth

namespace Pke.Memory

open Lib Flow Function Processes

variable {live : Finset Pid} {hand : ℕ → Option ℕ} {n : ℕ} {s t u : Vm} {p c : Pid} {va pa k v f : ℕ}

lemma Owned.cow_owns (o : Owned live hand n s) (hp : p ∈ live) (hv : (s.entry p v).v = true)
    (hcow : (s.entry p v).cow = true) : (s.entry p v).owns = true := by
  have ht := o.tidy p hp
  have hu : (s.entry p v).u = true := by
    by_contra h
    have := (ht.kernelLeaf v hv (Bool.eq_false_of_not_eq_true h)).1
    exact absurd hcow (by simp [Vm.entry, this])
  have hx : (s.entry p v).x = false := by
    by_contra h
    have hb : (s.entry p v).borrows = true := by simp [Pte.borrows, hv, hu, Bool.eq_true_of_not_eq_false h]
    exact absurd (ht.cowHigh v hv hcow) (not_le.mpr (ht.codeLow v hb))
  simp [Pte.owns, hv, hu, hx]

lemma Owned.rewrite (o : Owned live hand n s) (hp : p ∈ live) {e : Pte} (hv : (s.entry p v).v = true)
    (howned : e.owned = (s.entry p v).owned) (hb : e.borrows = false) (hu : e.u = true)
    (hcow : e.cow = true → 1024 ≤ v) : Owned live hand n (s.setTable p (·.setPte v e)) := by
  have hhas := PageTable.has_of_valid hv
  have hc := s.setTable_becomes p (·.setPte v e)
  refine o.respace hp hc rfl (Space.frameAt_setPte hhas e) ?_ ?_ ?_
  · intro f hf
    rw [howned] at hf
    exact (managed_eq_some.mp hf).1
  · intro f hf
    rcases borrowed_setPte hhas hc hf with h | ⟨h, -⟩
    · exact o.counted.pinned f h
    · simp [hb] at h
  · exact (o.tidy p hp).setPte hhas e (by simp [hu]) (by simp [hb]) (fun _ => hcow)

lemma Owned.replaced (o : Owned live (hold hand k pa) n s) (hk : hand k = none) (hp : p ∈ live) (hpa : pa ≠ 0)
    (hv : (s.entry p v).v = true) (howns : (s.entry p v).owns = true) (href : 1 < s.pmm.ref (s.entry p v).pa) :
    Owned live hand n ((s.setTable p (·.setPte v (Pte.leaf pa userRw))).release (s.entry p v).pa) := by
  have hm := Pmm.managed_of_ref (Nat.lt_of_succ_lt href)
  have hheld : hold hand k pa k = some pa := by simp [hold, hpa]
  have hcov := o.covered_owned hp howns hm
  have hh : ∀ j, hold hand k pa j ≠ some (s.entry p v).pa := by
    intro j hj
    have := o.sole j _ hj
    omega
  have ho := o.unmapped_of_covered hp hv hm hh hcov (fun _ => href)
  have hhas : ((s.unmapped p v).space p).pagetable.Has v := by
    have : (s.space p).pagetable.Has v := PageTable.has_of_valid hv
    rw [(s.unmapped_becomes p v).space, update_self]
    exact this
  have hfill : Filled live (hold hand k pa) n (s.unmapped p v) p v (Pte.leaf pa userRw)
      ((s.unmapped p v).setTable p (·.setPte v (Pte.leaf pa userRw))) := by
    refine ⟨s.unmapped p v, .refl ho, hhas, ?_, rfl⟩
    rw [Vm.unmapped_entry hv, update_self]
  refine (hfill.owned_rw ho hk hp).congr rfl ?_ rfl
  simp [Vm.release, Vm.unmapped, Vm.setTable, Vm.setSpace, PageTable.setPte, update_idem]

lemma growSpace_owned (o : Owned live noHand n s) (hp : p ∈ live) (hn : 1 ≤ n) (hva : va % 4096 = 0) :
    wp (growSpace p va) (fun _ => Owned live noHand n) (Owned live noHand n) s := by
  unfold growSpace
  rw [wp_bind]
  refine wp_mono (allocOrNull_hold o hn 0) ?_ (fun _ h => h)
  rintro pa t ⟨ht, -⟩
  exact wp_mono (userVmMap_rw ht rfl hp hn hva) (fun _ _ h => h.1) (fun _ h => h)

lemma breakCow_owned (o : Owned live noHand n s) (hp : p ∈ live) (hn : 1 ≤ n) (hv : (s.entry p v).v = true)
    (hcow : (s.entry p v).cow = true) :
    wp (breakCow p v (s.entry p v)) (fun _ => Owned live noHand n) (Owned live noHand n) s := by
  have howns := o.cow_owns hp hv hcow
  have hal : (s.entry p v).pa % 4096 = 0 := by
    unfold Pte.pa
    omega
  unfold breakCow
  rw [wp_bind, wp_get, Pmm.getPageRef_eq hal, wp_ite]
  refine ⟨fun href => ?_, fun _ => ?_⟩
  · rw [wp_bind]
    refine wp_mono (allocOrNull_draws o hn 0) ?_ (fun _ h => h)
    rintro pa t ⟨ht, hspace, hd, -⟩
    have hentry : t.entry p v = s.entry p v := by rw [Vm.entry, Vm.entry, hspace]
    have href' : 1 < t.pmm.ref (s.entry p v).pa := by rwa [hd.ref _ (by omega)]
    unfold memcpyPage setPte decPageRef
    rw [wp_bind, wp_ite]
    refine ⟨fun _ => wp_halt, fun hnull => ?_⟩
    push Not at hnull
    rw [wp_modify, wp_bind, wp_modify]
    apply wp_freePage
    intro _
    set t' : Vm := { t with mem := fun a => if pa ≤ a ∧ a < pa + 4096 then t.mem ((s.entry p v).pa + (a - pa)) else t.mem a }
    have ht' : Owned live (hold noHand 0 pa) n t' := ht.congr rfl rfl rfl
    have hentry' : t'.entry p v = s.entry p v := hentry
    have := ht'.replaced rfl hp hnull.1 (by rw [hentry', hv]) (by rw [hentry', howns]) (by rw [hentry']; exact href')
    rwa [hentry'] at this
  · unfold setPte
    rw [wp_modify]
    simp only [Pte.owns, Bool.and_eq_true, Bool.not_eq_true'] at howns
    obtain ⟨⟨-, hu⟩, hx⟩ := howns
    refine o.rewrite hp hv ?_ ?_ hu (by simp)
    · simp [Pte.owned, Pte.owns, Pte.pa]
    · simp [Pte.borrows, hx]

lemma storePageFault_owned (o : Owned live noHand n s) (hp : p ∈ live) (hn : 1 ≤ n) (va : ℕ) :
    wp (storePageFault p va) (fun _ => Owned live noHand n) (Owned live noHand n) s := by
  have hal : roundDown va % 4096 = 0 := by
    unfold roundDown
    omega
  exact wp_storePageFault o (fun hv hc => breakCow_owned o hp hn hv hc) (growSpace_owned o hp hn hal)

def ProgHeader.Placed (ph : ProgHeader) : Prop := ph.vaddr % 4096 = 0 ∧ ph.vaddr < userFreeAddressStart ∧ ph.vaddr ≠ 0

structure Loading (live : Finset Pid) (n : ℕ) (c : Pid) (s : Vm) (k : ℕ) (t : Vm) : Prop where
  owned : Owned live noHand n t
  others : ∀ q, q ≠ c → t.space q = s.space q
  ready : Ready (t.space c)
  placed : ∀ i, ((t.space c).regions i).va = 0 ↔ (t.space c).totalMappedRegion ≤ i
  room : (t.space c).totalMappedRegion + k ≤ maxRegions

namespace Loading

lemma of_fields (h : Loading live n c s k t) (o : Owned live noHand n u) (hl : Local Ready c t u)
    (hr : (u.space c).regions = (t.space c).regions)
    (ht : (u.space c).totalMappedRegion = (t.space c).totalMappedRegion) : Loading live n c s k u :=
  ⟨o, fun q hq => (hl.others q hq).trans (h.others q hq), hl.keeps h.ready, by rw [hr, ht]; exact h.placed,
    by rw [ht]; exact h.room⟩

lemma find_region (h : Loading live n c s (k + 1) t) :
    (List.range maxRegions).find? (fun j => ((t.space c).regions j).va = 0) = some (t.space c).totalMappedRegion := by
  have hroom := h.room
  rw [List.find?_range_eq_some]
  refine ⟨?_, by rw [List.mem_range]; omega, fun j hj => ?_⟩
  · simpa using (h.placed _).mpr le_rfl
  · simpa using mt (h.placed j).mp (not_le.mpr hj)

lemma push (h : Loading live n c s (k + 1) t) (hc : c ∈ live) {r : Region} (hr : r.segType = .code ∨ r.segType = .data)
    (hfits : ∀ i, i ≠ 3 → Fits i r) (hva : r.va ≠ 0) {E : Vm → Prop} :
    wp (do
      Memory.setRegion c (t.space c).totalMappedRegion r
      Flow.modify fun s => s.setSpace c fun a => { a with totalMappedRegion := a.totalMappedRegion + 1 })
      (fun _ => Loading live n c s k) E t := by
  have htotal := h.ready.formed.total
  have hroom := h.room
  rw [wp_bind, Memory.setRegion, wp_modify, wp_modify]
  have o₁ := h.owned.setFields hc (fun a => { a with regions := update a.regions (t.space c).totalMappedRegion r })
    rfl rfl rfl rfl fun i => by
      by_cases hi : i = (t.space c).totalMappedRegion
      · subst hi
        right
        simpa using hfits _ (by omega)
      · exact .inl (by simp [hi])
  refine ⟨o₁.setFields hc _ rfl rfl rfl rfl fun _ => .inl rfl, fun q hq => ?_, ?_, fun i => ?_, ?_⟩
  · rw [Vm.setSpace_of_ne _ hq, Vm.setSpace_of_ne _ hq, h.others q hq]
  · simp only [Vm.setSpace_self]
    exact ⟨h.ready.bottom, h.ready.recorded, h.ready.formed.push hr, h.ready.readable⟩
  · simp only [Vm.setSpace_self]
    by_cases hi : i = (t.space c).totalMappedRegion
    · rw [hi, update_self]
      exact ⟨fun h => absurd h hva, fun h => absurd h (by omega)⟩
    · rw [update_of_ne hi, h.placed i]
      omega
  · simp only [Vm.setSpace_self]
    omega

end Loading

lemma elfAllocMb_owned (o : Owned live noHand n s) (hc : c ∈ live) (hn : 1 ≤ n) (hva : va % 4096 = 0)
    (hlow : va < userFreeAddressStart) (size : ℕ) :
    wp (elfAllocMb c va size) (fun _ t => Owned live noHand n t ∧ s.SameFields t) (fun _ => True) s := by
  unfold elfAllocMb
  rw [wp_ite]
  refine ⟨fun _ => wp_halt, fun _ => ?_⟩
  rw [wp_bind, wp_allocPage o.managed]
  refine ⟨fun _ => trivial, fun f rest hl => ?_⟩
  have hf := o.managed f (by simp [hl])
  have ho := o.pop_hold hn hl 0
  have hf0 : f ≠ 0 := fun h => o.null_unmanaged (h ▸ hf)
  dsimp only
  unfold memsetPage
  rw [if_neg hf0, wp_bind, wp_modify, wp_bind]
  set s₁ : Vm := { s.pop f rest with mem := fun a => if f ≤ a ∧ a < f + 4096 then 0 else (s.pop f rest).mem a } with hs₁
  have o₁ : Owned live (hold noHand 0 f) n s₁ := ho.congr rfl rfl rfl
  have hsame : s.SameFields s₁ := ⟨⟨rfl, rfl⟩, rfl, fun _ => rfl⟩
  refine wp_mono (userVmMap_page o₁ hc hn hva f userRwx) ?_ (fun _ _ => trivial)
  rintro _ t (⟨hg, -⟩ | ⟨-, hfill⟩)
  · exact ⟨(hg.unhold rfl).owned, hsame.trans hg.same⟩
  · refine ⟨?_, hsame.trans hfill.same⟩
    have hpa : (Pte.leaf f userRwx).pa = f := Pte.leaf_pa hf.1 userRwx
    have : Owned live (hold noHand 0 f) n t := by
      refine hfill.keep hc ?_ ?_ ?_ (fun h => absurd h (by simp [Pte.leaf, userRwx, protToType]))
      · intro g hg
        simp [Pte.owned, Pte.owns, Pte.leaf, userRwx, protToType] at hg
      · intro _ hu
        exact absurd hu (by simp [Pte.leaf, userRwx, protToType])
      · intro _
        refine ⟨by unfold userFreeAddressStart at hlow; omega, fun _ => ?_⟩
        rw [hpa, o₁.sole 0 f (by simp [hold, hf0])]
        omega
    exact this.unhold rfl

lemma elfLoadSegment_loading (h : Loading live n c s (k + 1) t) (hc : c ∈ live) (hn : 1 ≤ n) {ph : ProgHeader}
    (hph : ph.Placed) :
    wp (elfLoadSegment c ph) (fun _ => Loading live n c s k) (fun _ => True) t := by
  unfold elfLoadSegment
  rw [wp_ite]
  refine ⟨fun _ => trivial, fun _ => ?_⟩
  rw [wp_bind]
  have hlocal : Keeps (Local Ready c) (elfAllocMb c ph.vaddr ph.memsz) := Local.elfAllocMb ready_stable _ _
  refine wp_mono (wp_and (elfAllocMb_owned h.owned hc hn hph.1 hph.2.1 ph.memsz) (hlocal t)) ?_ (fun _ _ => trivial)
  rintro dest u ⟨⟨hu, hsame⟩, hl⟩
  have h₁ : Loading live n c s (k + 1) u := h.of_fields hu hl (by rw [hsame.fields c]) (by rw [hsame.fields c])
  rw [wp_bind, wp_modify, wp_bind, wp_get]
  set u₁ : Vm := { u with mem := fun a => if dest ≤ a ∧ a < dest + ph.memsz then ph.bytes (a - dest) else u.mem a }
  have h₂ : Loading live n c s (k + 1) u₁ := h₁.of_fields (hu.congr rfl rfl rfl) (Local.of_space rfl) rfl rfl
  dsimp only
  rw [h₂.find_region]
  cases hseg : ph.segType with
  | none => exact trivial
  | some seg =>
    have hkind : seg = .code ∨ seg = .data := by
      unfold ProgHeader.segType at hseg
      split_ifs at hseg <;> simp_all
    refine h₂.push hc (r := ⟨ph.vaddr, 1, seg⟩) hkind (fun i hi => ?_) hph.2.2
    rcases hkind with rfl | rfl <;> exact ⟨hi, hph.1, hph.2.1, rfl⟩

lemma loadUserProgram_owned (o : Owned live noHand n s) (hc : c ∈ live) (hn : 1 ≤ n) (hblank : s.space c = {})
    {image : List ProgHeader} (himage : ∀ ph ∈ image, ph.Placed) (hlen : image.length + 4 ≤ maxRegions) (entry : UInt64) :
    wp (loadUserProgram c image entry) (fun _ t => Owned live noHand n t ∧ Ready (t.space c) ∧
      ∀ q, q ≠ c → t.space q = s.space q) (fun _ => True) s := by
  unfold loadUserProgram
  rw [wp_bind]
  refine wp_mono (allocProcess_ready o hc hn hblank) ?_ (fun _ _ => trivial)
  rintro _ t ⟨hready, st, tf, ks, mi, files, htf, hborn⟩
  have hfields := hborn.fields
  have hstart : Loading live n c s image.length t := by
    refine ⟨hborn.owned, hborn.others, hready, fun i => ?_, ?_⟩
    · have hpos := o.pos_of_managed htf
      have htrap := o.layout.1
      rw [hfields]
      simp only [newborn]
      rcases lt_or_ge i 4 with hi | hi
      · interval_cases i <;> simp <;> omega
      · simp [show i ≠ 0 by omega, show i ≠ 1 by omega, show i ≠ 2 by omega, show i ≠ 3 by omega, hi]
    · rw [hfields]
      change 4 + _ ≤ _
      omega
  rw [wp_bind]
  refine wp_each (fun l u => Loading live n c s l.length u ∧ ∀ ph ∈ l, ph.Placed) ⟨hstart, himage⟩ ?_ ?_
  · rintro ph l u ⟨hu, hl⟩
    refine wp_mono (elfLoadSegment_loading hu hc hn (hl ph (by simp))) ?_ (fun _ h => h)
    exact fun _ w hw => ⟨hw, fun ph' h' => hl ph' (by simp [h'])⟩
  · rintro u ⟨hu, -⟩
    rw [wp_modify]
    refine ⟨hu.owned.setFields hc _ rfl rfl rfl rfl fun _ => .inl rfl, ?_, fun q hq => ?_⟩
    · rw [Vm.setSpace_self]
      exact ⟨hu.ready.bottom, hu.ready.recorded, hu.ready.formed.congr rfl rfl, hu.ready.readable⟩
    · rw [Vm.setSpace_of_ne _ hq, hu.others q hq]

end Pke.Memory
