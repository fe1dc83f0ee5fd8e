import Pke.Memory.HeapCalls
import Pke.Memory.Locality

namespace Pke.Memory

open Lib Flow Function Processes

variable {live : Finset Pid} {hand : ℕ → Option ℕ} {n : ℕ} {s t u : Vm} {p c : Pid} {va pa k v f : ℕ}
  {a : Space} {w : Spot}

structure Vm.Draws (s t : Vm) : Prop where
  bounds : s.pmm.SameBounds t.pmm
  trap : t.trapSecStart = s.trapSecStart
  mem : t.mem = s.mem
  free : t.pmm.gFreeMemList <:+ s.pmm.gFreeMemList
  ref : ∀ f, 0 < s.pmm.ref f → t.pmm.ref f = s.pmm.ref f

namespace Vm.Draws

lemma refl (s : Vm) : s.Draws s := ⟨⟨rfl, rfl⟩, rfl, rfl, List.suffix_refl _, fun _ _ => rfl⟩

lemma trans (h : s.Draws t) (h' : t.Draws u) : s.Draws u where
  bounds := h.bounds.trans h'.bounds
  trap := h'.trap.trans h.trap
  mem := h'.mem.trans h.mem
  free := h'.free.trans h.free
  ref f hf := by
    have := h.ref f hf
    rw [h'.ref f (this ▸ hf), this]

lemma setSpace (h : s.Draws t) (p : Pid) (g : Space → Space) : s.Draws (t.setSpace p g) :=
  ⟨h.bounds, h.trap, h.mem, h.free, h.ref⟩

lemma pop (o : Owned live hand n s) {rest : List ℕ} (hl : s.pmm.gFreeMemList = f :: rest) :
    s.Draws (s.pop f rest) := by
  refine ⟨⟨rfl, rfl⟩, rfl, rfl, ?_, fun g hg => ?_⟩
  · rw [hl]
    exact List.suffix_cons f rest
  · change (s.pmm.pop f rest).ref g = _
    rw [Pmm.ref_pop (o.managed f (by simp [hl])), update_of_ne]
    rintro rfl
    rw [o.counted.zero g (by simp [hl])] at hg
    exact hg.false

end Vm.Draws

lemma Grown.draws (h : Grown live hand n s t) : s.Draws t := ⟨h.same.bounds, h.same.trap, h.mem, h.free, h.ref⟩

lemma Filled.draws {e : Pte} (h : Filled live hand n s p v e t) : s.Draws t :=
  ⟨h.same.bounds, h.same.trap, h.mem, h.free, fun _ hf => h.ref hf⟩

lemma Owned.place (o : Owned live (hold hand k pa) n s) (hk : hand k = none) (hp : p ∈ live)
    (hc : s.Becomes t p a) (ht : t.pmm = s.pmm) (ha : a.frameAt = update (s.space p).frameAt w (some pa))
    (hb : ∀ v, a.pagetable.entry v = s.entry p v) (htidy : Tidy s.pmm a) : Owned live hand n t := by
  have hsub : borrowed live t ⊆ borrowed live s := by
    refine borrowed_subset hc fun v hv => ?_
    rw [hb] at hv ⊢
    exact ⟨hv, rfl⟩
  by_cases hpa : pa = 0
  · refine (o.respace hp hc ht ha ?_ (fun f hf => o.counted.pinned f (hsub hf)) htidy).unhold hk
    intro f hf
    rw [managed_eq_some] at hf
    obtain ⟨hf, hm⟩ := hf
    rw [← Option.some.inj hf, hpa] at hm
    exact absurd hm o.null_unmanaged
  · have hheld : hold hand k pa k = some pa := by simp [hold, hpa]
    refine (o.install hp hheld hc ht ha hsub htidy).forget fun j g hj => ?_
    have hjk : j ≠ k := fun e => by simp [e, hk] at hj
    simp [hold, hpa, hjk, hj]

lemma allocOrNull_draws (o : Owned live hand n s) (hn : 1 ≤ n) (k : ℕ) {E : Vm → Prop} :
    wp allocOrNull (fun pa t => Owned live (hold hand k pa) n t ∧ t.space = s.space ∧ s.Draws t ∧
      (pa ≠ 0 → pa ∈ s.pmm.gFreeMemList)) E s := by
  refine wp_mono (allocOrNull_hold o hn k) ?_ (fun _ h => h)
  rintro pa t ⟨ht, ⟨rfl, rfl⟩ | ⟨rest, hl, rfl⟩⟩
  · exact ⟨ht, rfl, .refl t, fun h => absurd rfl h⟩
  · exact ⟨ht, rfl, .pop o hl, fun _ => by simp [hl]⟩

lemma allocOrNull_place (g : ℕ → Space → Space) (w : Spot) (o : Owned live hand n s) (hk : hand k = none)
    (hc : c ∈ live) (hn : 1 ≤ n)
    (hframe : ∀ pa, (g pa (s.space c)).frameAt = update (s.space c).frameAt w (some pa))
    (hentry : ∀ pa v, (g pa (s.space c)).pagetable.entry v = s.entry c v)
    (htidy : ∀ pa, Tidy s.pmm (g pa (s.space c))) {E : Vm → Prop} :
    wp allocOrNull (fun pa t => Owned live hand n (t.setSpace c (g pa)) ∧
      (t.setSpace c (g pa)).space = update s.space c (g pa (s.space c)) ∧ s.Draws (t.setSpace c (g pa)) ∧
        (pa ≠ 0 → s.pmm.Managed pa)) E s := by
  refine wp_mono (allocOrNull_draws o hn k) ?_ (fun _ h => h)
  rintro pa t ⟨ht, hspace, hd, hfree⟩
  have hspace' : (t.setSpace c (g pa)).space = update s.space c (g pa (s.space c)) := by simp [Vm.setSpace, hspace]
  have hbounds := hd.bounds
  refine ⟨ht.place hk hc (t := t.setSpace c (g pa)) (a := g pa (s.space c)) (w := w) ⟨?_, ⟨rfl, rfl⟩, rfl⟩ rfl ?_ ?_ ?_,
    hspace', hd.setSpace c _, fun h => o.managed _ (hfree h)⟩
  · rw [hspace', hspace]
  · rw [hspace, hframe]
  · intro v
    rw [hentry, Vm.entry, Vm.entry, hspace]
  · exact { htidy pa with
      kernelLeaf := fun v hv hu => by
        obtain ⟨h₁, h₂, h₃⟩ := (htidy pa).kernelLeaf v hv hu
        exact ⟨h₁, h₂, h₃.imp_right fun h => mt (hbounds.managed _).mp h⟩ }

lemma Tidy.of_empty {m : Pmm} (h : ∀ v, a.pagetable.entry v = {}) (hr : ∀ i, (a.regions i).segType = .stack) :
    Tidy m a := by
  refine ⟨fun v hv => ?_, fun v hv => ?_, fun v hv => ?_, fun i hi => ?_, fun i hi => ?_⟩
  · rw [h v] at hv
    exact absurd hv (by decide)
  · rw [h v] at hv
    exact absurd hv (by decide)
  · rw [h v] at hv
    exact absurd hv (by decide)
  · simp [hr i] at hi
  · simp [hr i] at hi

def embryo (tf dir kstack info : ℕ) : Space :=
  { kstack := kstack + 4096, pagetable := { dir := dir }, trapframe := tf, mappedInfo := info,
    frame := Trapframe.set {} .sp (.ofNat userStackTop) }

lemma wp_deref {Q : Unit → Vm → Prop} {E : Vm → Prop} : wp (deref pa) Q E s ↔ (pa ≠ 0 → Q () s) := by
  unfold deref
  rw [wp_ite]
  simp

lemma allocFrames (o : Owned live noHand n s) (hc : c ∈ live) (hn : 1 ≤ n) (hblank : s.space c = {})
    {m : ℕ → Flow Vm Unit} {Q : Unit → Vm → Prop} {E : Vm → Prop}
    (h : ∀ st t tf d ks mi, Owned live (hold noHand 0 st) n t → s.Draws t → s.pmm.Managed tf →
      (st ≠ 0 → st ∈ s.pmm.gFreeMemList) → t.space = update s.space c (embryo tf d ks mi) → wp (m st) Q E t) :
    wp (do
      allocTrapframe c
      allocPagetable c
      allocKstack c
      let userStack ← allocOrNull
      Flow.modify fun s => s.setSpace c fun a => { a with frame := a.frame.set .sp (.ofNat userStackTop) }
      allocMappedInfo c
      m userStack) Q E s := by
  have htidy : ∀ (t : Vm) (a : Space) (d : ℕ), a.pagetable = { dir := d } → a.regions = (fun _ => {}) →
      Tidy t.pmm a := by
    intro t a d ha hr
    exact Tidy.of_empty (fun v => by rw [ha, PageTable.entry_dir]) (fun i => by rw [hr])
  simp only [allocTrapframe, allocPagetable, allocKstack, allocMappedInfo, wp_bind]
  refine wp_mono (allocOrNull_place (k := 0) (fun pa a => { a with trapframe := pa, frame := {} }) .trapframe o rfl
    hc hn ?_ (fun _ _ => rfl) (fun pa => htidy s _ 0 (by rw [hblank]) (by rw [hblank]))) ?_ (fun _ h => h)
  · intro pa
    funext w
    cases w <;> simp [Space.frameAt]
  rintro tf s₁ ⟨o₁, hs₁, d₁, htf⟩
  simp only [wp_bind, wp_modify, wp_deref]
  intro htf0
  rw [hblank] at hs₁
  generalize s₁.setSpace c _ = t₁ at *
  have hc₁ : t₁.space c = { trapframe := tf } := by rw [hs₁, update_self]
  refine wp_mono (allocOrNull_place (k := 0) (fun pa a => { a with pagetable := { dir := pa } }) .dir o₁ rfl
    hc hn ?_ ?_ (fun pa => htidy t₁ _ pa rfl (by rw [hc₁]))) ?_ (fun _ h => h)
  · intro pa
    rw [hc₁]
    funext w
    cases w <;> simp [Space.frameAt, PageTable.lowAt, PageTable.entry, PageTable.walk]
  · intro pa v
    simp [Vm.entry, hc₁]
  rintro d s₂ ⟨o₂, hs₂, d₂, -⟩
  simp only [wp_bind, wp_modify, wp_deref]
  rintro -
  rw [hs₁, update_self, update_idem] at hs₂
  generalize s₂.setSpace c _ = t₂ at *
  have hc₂ : t₂.space c = { trapframe := tf, pagetable := { dir := d } } := by rw [hs₂, update_self]
  refine wp_mono (allocOrNull_place (k := 0) (fun pa a => { a with kstack := pa + 4096 }) .kstack o₂ rfl
    hc hn ?_ (fun _ _ => rfl) (fun pa => htidy t₂ _ d (by rw [hc₂]) (by rw [hc₂]))) ?_ (fun _ h => h)
  · intro pa
    funext w
    cases w <;> simp [Space.frameAt]
  rintro ks s₃ ⟨o₃, hs₃, d₃, -⟩
  simp only [wp_bind, wp_modify]
  rw [hs₂, update_self, update_idem] at hs₃
  generalize s₃.setSpace c _ = t₃ at *
  refine wp_mono (allocOrNull_draws o₃ hn 0) ?_ (fun _ h => h)
  rintro st s₄ ⟨o₄, hs₄, d₄, hst⟩
  simp only [wp_bind, wp_modify]
  have o₄' := o₄.setFields hc (fun a => { a with frame := a.frame.set .sp (.ofNat userStackTop) })
    rfl rfl rfl rfl fun _ => .inl rfl
  set t₄ : Vm := s₄.setSpace c fun a => { a with frame := a.frame.set .sp (.ofNat userStackTop) } with ht₄
  have hs₄' : t₄.space = update s.space c (embryo tf d ks 0) := by
    rw [ht₄, Vm.setSpace, hs₄, hs₃, update_self, update_idem]
    rfl
  have hc₄ : t₄.space c = embryo tf d ks 0 := by rw [hs₄', update_self]
  have hfree : hold noHand 0 st 1 = none := by
    unfold hold
    split_ifs <;> rfl
  refine wp_mono (allocOrNull_place (k := 1) (fun pa a => { a with mappedInfo := pa, regions := fun _ => {} })
    .mappedInfo o₄' hfree hc hn ?_ (fun _ _ => rfl) (fun pa => htidy t₄ _ d (by rw [hc₄]; rfl) rfl)) ?_ (fun _ h => h)
  · intro pa
    funext w
    cases w <;> simp [Space.frameAt]
  rintro mi s₅ ⟨o₅, hs₅, d₅, -⟩
  simp only [wp_bind, wp_modify, wp_deref]
  rintro -
  rw [hs₄', update_self, update_idem] at hs₅
  have d₃' := (d₁.trans d₂).trans d₃
  exact h st _ tf d ks mi o₅ ((d₃'.trans (d₄.setSpace c _)).trans d₅) (htf htf0) (fun h => d₃'.free.subset (hst h)) hs₅

abbrev stackPage : ℕ := 0x7fffe

structure Nascent (live : Finset Pid) (n : ℕ) (c : Pid) (s : Vm) (st : ℕ) (a : Space) (t : Vm) : Prop where
  owned : Owned live noHand n t
  draws : s.Draws t
  others : ∀ q, q ≠ c → t.space q = s.space q
  fields : t.space c = { a with pagetable := (t.space c).pagetable }
  stack : t.entry c stackPage = Pte.leaf st userRw
  user : ∀ v, (t.entry c v).v = true → (t.entry c v).u = true → v = stackPage
  fresh : s.pmm.Managed st → t.pmm.ref st = 1
  aligned : st % 4096 = 0
  origin : st ≠ 0 → st ∈ s.pmm.gFreeMemList

namespace Nascent

variable {st : ℕ}

lemma setFields (h : Nascent live n c s st a t) (hc : c ∈ live) (g : Space → Space)
    (hg : ∀ b T, g { b with pagetable := T } = { g b with pagetable := T })
    (htf : (g (t.space c)).trapframe = (t.space c).trapframe) (hks : (g (t.space c)).kstack = (t.space c).kstack)
    (hmi : (g (t.space c)).mappedInfo = (t.space c).mappedInfo)
    (hreg : ∀ i, (g (t.space c)).regions i = (t.space c).regions i ∨ Fits i ((g (t.space c)).regions i)) :
    Nascent live n c s st (g a) (t.setSpace c g) := by
  have htable : (g (t.space c)).pagetable = (t.space c).pagetable := by rw [h.fields, hg]
  have hentry : ∀ v, (t.setSpace c g).entry c v = t.entry c v := by
    intro v
    rw [Vm.entry, Vm.entry, Vm.setSpace_self, htable]
  refine ⟨h.owned.setFields hc g htable htf hks hmi hreg, h.draws.setSpace c g, ?_, ?_, ?_, ?_, h.fresh, h.aligned, h.origin⟩
  · intro q hq
    rw [Vm.setSpace_of_ne _ hq, h.others q hq]
  · rw [Vm.setSpace_self, htable, h.fields, hg]
  · rw [hentry, h.stack]
  · simpa only [hentry] using h.user

lemma setRegion (h : Nascent live n c s st a t) (hc : c ∈ live) (i : ℕ) (r : Region)
    (hr : Fits i r) :
    Nascent live n c s st { a with regions := update a.regions i r }
      (t.setSpace c fun b => { b with regions := update b.regions i r }) := by
  refine h.setFields hc (fun b => { b with regions := update b.regions i r }) (fun _ _ => rfl) rfl rfl rfl fun j => ?_
  by_cases hj : j = i
  · subst hj
    right
    simpa using hr
  · exact .inl (by simp [hj])

lemma drawn (h : Nascent live n c s st a t) (o : Owned live noHand n u) (hu : u.space = t.space) (d : t.Draws u) :
    Nascent live n c s st a u := by
  refine ⟨o, h.draws.trans d, ?_, ?_, ?_, ?_, ?_, h.aligned, h.origin⟩
  · rw [hu]
    exact h.others
  · rw [hu]
    exact h.fields
  · rw [Vm.entry, hu]
    exact h.stack
  · simp only [Vm.entry, hu]
    exact h.user
  · intro hm
    have := h.fresh hm
    rw [d.ref st (by omega), this]

lemma kernelMap (h : Nascent live n c s st a t) (hc : c ∈ live) (hn : 1 ≤ n) (perm : Pte)
    (hr : perm.r = true) (hu : perm.u = false) (hcow : perm.cow = false) (hva : va % 4096 = 0) (hdram : 0x80000000 ≤ va)
    (hpa : va = a.trapframe ∨ ¬ t.pmm.Managed va) :
    wp (userVmMap c va 4096 va perm) (fun _ => Nascent live n c s st a) (Owned live noHand n) t := by
  have hlocal : Keeps (Local Legible c) (userVmMap c va 4096 va perm) := Local.userVmMap legible_stable _ _ _ hr
  refine wp_mono (wp_and (userVmMap_page h.owned hc hn hva va perm) (hlocal t)) ?_ (fun _ h => h.1.owned)
  rintro _ u ⟨hcase, hother⟩
  have hothers : ∀ q, q ≠ c → u.space q = s.space q := fun q hq => (hother.others q hq).trans (h.others q hq)
  have hfresh : t.Draws u → s.pmm.Managed st → u.pmm.ref st = 1 := by
    intro hd hm
    have := h.fresh hm
    rw [hd.ref st (by omega), this]
  rcases hcase with ⟨hgrown, -⟩ | ⟨-, hfill⟩
  · refine ⟨hgrown.owned, h.draws.trans hgrown.draws, hothers, ?_, ?_, ?_, hfresh hgrown.draws, h.aligned, h.origin⟩
    · rw [hgrown.same.fields c, h.fields]
    · rw [hgrown.entry, h.stack]
    · simpa only [hgrown.entry] using h.user
  · have htf : (t.space c).trapframe = a.trapframe := by rw [h.fields]
    have hne : stackPage ≠ va / 4096 := by
      unfold stackPage
      omega
    have hleaf : (Pte.leaf va perm).u = false := hu
    refine ⟨?_, h.draws.trans hfill.draws, hothers, ?_, ?_, ?_, hfresh hfill.draws, h.aligned, h.origin⟩
    · have hleafcow : (Pte.leaf va perm).cow = false := hcow
      refine hfill.keep hc ?_ ?_ ?_ (by simp [hleafcow])
      · intro f hf
        simp [Pte.owned, Pte.owns, hleaf] at hf
      · intro _ _
        rw [Pte.leaf_pa hva, htf]
        exact ⟨hcow, by omega, hpa⟩
      · intro hb
        simp [Pte.borrows, hleaf] at hb
    · rw [hfill.same.fields c, h.fields]
    · rw [hfill.entry_self, update_of_ne hne, h.stack]
    · intro v hv huser
      rw [hfill.entry_self] at hv huser
      by_cases hveq : v = va / 4096
      · rw [hveq, update_self, hleaf] at huser
        exact absurd huser (by simp)
      · rw [update_of_ne hveq] at hv huser
        exact h.user v hv huser

end Nascent

def newborn (tf kstack info trapSec files : ℕ) : Space :=
  { embryo tf 0 kstack info with
    regions := update (update (update (update (fun _ => {}) 0 ⟨userStackTop - 4096, 1, .stack⟩)
      1 ⟨tf, 1, .context⟩) 2 ⟨trapSec, 1, .system⟩) 3 ⟨userFreeAddressStart, 0, .heap⟩
    totalMappedRegion := 4
    userHeap := { heapTop := userFreeAddressStart, heapBottom := userFreeAddressStart }
    pfiles := files }

def Born (live : Finset Pid) (n : ℕ) (c : Pid) (s : Vm) (st tf ks mi files : ℕ) (t : Vm) : Prop :=
  s.pmm.Managed tf ∧ Nascent live n c s st (newborn tf ks mi s.trapSecStart files) t

lemma newborn_formed (tf ks mi trapSec files : ℕ) : Formed (newborn tf ks mi trapSec files) :=
  ⟨rfl, rfl, rfl, rfl, le_refl 4, fun _ h₁ h₂ => absurd h₁ (not_le.mpr h₂)⟩

lemma allocProcess_born (o : Owned live noHand n s) (hc : c ∈ live) (hn : 1 ≤ n) (hblank : s.space c = {}) :
    wp (allocProcess c) (fun _ t => ∃ st tf ks mi files, Born live n c s st tf ks mi files t) (Owned live noHand n) s := by
  unfold allocProcess
  refine allocFrames o hc hn hblank fun st t tf d ks mi ot dt htf hst hspace => ?_
  have hlocal : Keeps (Local Legible c) (userVmMap c (userStackTop - 4096) 4096 st userRw) :=
    Local.userVmMap legible_stable _ _ _ rfl
  have hself : t.space c = embryo tf d ks mi := by rw [hspace, update_self]
  have hempty : ∀ v, t.entry c v = {} := by
    intro v
    rw [Vm.entry, hself]
    exact PageTable.entry_dir d v
  rw [wp_bind]
  refine wp_mono (wp_and (userVmMap_rw ot rfl hc hn (by decide)) (hlocal t)) ?_ (fun _ h => h.1)
  rintro _ t₁ ⟨⟨ot₁, hfill⟩, hother⟩
  replace hfill := (hfill.resolve_left fun h => absurd h.2 (by decide)).2
  have hpage : (userStackTop - 4096) / 4096 = stackPage := rfl
  rw [hpage] at hfill
  have h₁ : Nascent live n c s st (embryo tf 0 ks mi) t₁ := by
    refine ⟨ot₁, dt.trans hfill.draws, ?_, ?_, ?_, ?_, ?_, ot.hold_aligned, hst⟩
    · intro q hq
      rw [hother.others q hq, hspace, update_of_ne hq]
    · rw [hfill.same.fields c, hself]
      rfl
    · rw [hfill.entry_self]
      exact update_self _ _ _
    · intro v hv _
      rw [hfill.entry_self] at hv
      by_contra hne
      rw [update_of_ne hne, hempty] at hv
      exact absurd hv (by decide)
    · intro hm
      have hst : st ≠ 0 := by
        rintro rfl
        exact o.null_unmanaged hm
      have := ot.sole 0 st (by simp [hold, hst])
      rw [hfill.ref (by omega), this]
  have htf' : tf % 4096 = 0 ∧ 0x80000000 ≤ tf := ⟨htf.1, (o.pos_of_managed htf).le⟩
  simp only [Memory.setRegion, wp_bind, wp_modify, wp_get]
  have h₂ := h₁.setRegion hc 0 ⟨userStackTop - 4096, 1, .stack⟩ trivial
  have hread : ∀ {b u}, Nascent live n c s st b u → (u.space c).trapframe = b.trapframe := by
    intro b u h
    rw [h.fields]
  rw [hread h₂]
  refine wp_mono (h₂.kernelMap hc hn kernelRw rfl rfl rfl htf'.1 htf'.2 (.inl rfl)) ?_ (fun _ h => h)
  intro _ t₃ h₃
  have h₄ := h₃.setRegion hc 1 ⟨tf, 1, .context⟩ trivial
  simp only [wp_bind, wp_modify, wp_get, Vm.setSpace_trapSecStart, h₃.draws.trap]
  obtain ⟨hl₁, hl₂, hl₃⟩ := o.layout
  have hunmanaged : ¬ (t₃.setSpace c fun b =>
      { b with regions := update b.regions 1 ⟨tf, 1, .context⟩ }).pmm.Managed s.trapSecStart := by
    rw [h₄.draws.bounds.managed]
    exact fun h => absurd h.2.1.1 (by omega)
  refine wp_mono (h₄.kernelMap hc hn kernelRx rfl rfl rfl hl₂ hl₁ (.inr hunmanaged)) ?_ (fun _ h => h)
  intro _ t₅ h₅
  simp only [wp_bind, wp_modify]
  have h₆ := h₅.setRegion hc 2 ⟨s.trapSecStart, 1, .system⟩ trivial
  have h₇ := h₆.setFields hc (fun a => { a with userHeap := { a.userHeap with
    heapTop := userFreeAddressStart, heapBottom := userFreeAddressStart, freePagesCount := 0 } })
    (fun _ _ => rfl) rfl rfl rfl fun _ => .inl rfl
  have h₈ := h₇.setRegion hc 3 ⟨userFreeAddressStart, 0, .heap⟩ rfl
  have h₉ := h₈.setFields hc (fun a => { a with totalMappedRegion := 4 }) (fun _ _ => rfl) rfl rfl rfl
    fun _ => .inl rfl
  unfold initProcFileManagement
  rw [wp_bind]
  refine wp_mono (allocOrNull_draws h₉.owned hn 0) ?_ (fun _ h => h)
  rintro files u ⟨ou, hu, du, -⟩
  simp only [wp_bind, wp_modify, wp_deref]
  intro _
  refine ⟨st, tf, ks, mi, files, htf, ?_⟩
  exact (h₉.drawn (ou.unhold rfl) hu du).setFields hc (fun a => { a with pfiles := files }) (fun _ _ => rfl) rfl rfl rfl fun _ => .inl rfl

lemma allocProcess_ready (o : Owned live noHand n s) (hc : c ∈ live) (hn : 1 ≤ n) (hblank : s.space c = {}) :
    wp (allocProcess c) (fun _ t => Ready (t.space c) ∧ ∃ st tf ks mi files, Born live n c s st tf ks mi files t)
      (Owned live noHand n) s := by
  have hlocal : Keeps (Local Legible c) (allocProcess c) := Local.allocProcess
  refine wp_mono (wp_and (allocProcess_born o hc hn hblank) (hlocal s)) ?_ (fun _ h => h.1)
  rintro _ t ⟨⟨st, tf, ks, mi, files, hborn⟩, hlegible⟩
  refine ⟨?_, st, tf, ks, mi, files, hborn⟩
  have hread : Legible (t.space c) := hlegible.keeps fun v hv => by
    rw [hblank] at hv
    exact absurd hv Bool.false_ne_true
  rw [hborn.2.fields]
  exact ⟨rfl, fun i hi => absurd hi (Nat.not_lt_zero i), (newborn_formed tf ks mi s.trapSecStart files).congr rfl rfl, hread⟩

end Pke.Memory
