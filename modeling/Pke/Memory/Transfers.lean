import Pke.Memory.Ownership

namespace Pke.Memory

open Lib Flow Function Processes

section

variable {live : Finset Pid} {hand hand' : ℕ → Option ℕ} {n n' : ℕ} {s t : Vm} {p : Pid} {a : Space}
  {w : Spot} {x : Option ℕ} {f k v : ℕ} {rest : List ℕ}

structure Vm.Becomes (s t : Vm) (p : Pid) (a : Space) : Prop where
  space : t.space = update s.space p a
  bounds : s.pmm.SameBounds t.pmm
  trap : t.trapSecStart = s.trapSecStart

namespace Owned

lemma forget (o : Owned live hand n s) (h : ∀ k f, hand' k = some f → hand k = some f) :
    Owned live hand' n s where
  counted := by
    refine o.counted.forget ?_ subset_rfl
    intro u i hu
    cases u with
    | spot p w => exact hu
    | hand k => exact h k i hu
  managed := o.managed
  sole k f hk := o.sole k f (h k f hk)
  bound := o.bound
  once := o.once
  tidy := o.tidy
  layout := o.layout

lemma congr (o : Owned live hand n s) (hp : t.pmm = s.pmm) (hs : t.space = s.space)
    (ht : t.trapSecStart = s.trapSecStart) : Owned live hand n t := by
  obtain ⟨pmm, mem, space, trap⟩ := s
  obtain ⟨pmm', mem', space', trap'⟩ := t
  subst hp hs ht
  exact ⟨o.counted, o.managed, o.sole, o.bound, o.once, o.tidy, o.layout⟩

lemma mono (o : Owned live hand n s) (h : n ≤ n') : Owned live hand n' s :=
  { o with bound := fun f => (o.bound f).trans h }

lemma pos_of_managed (o : Owned live hand n s) (h : s.pmm.Managed f) : 0x80000000 < f := by
  obtain ⟨h₁, -, h₂⟩ := o.layout
  have := h.2.1.1
  omega

lemma null_unmanaged (o : Owned live hand n s) : ¬ s.pmm.Managed 0 := fun h =>
  absurd (o.pos_of_managed h) (by omega)

lemma only_hand (o : Owned live hand n s) (hk : hand k = some f) {u : Use}
    (hu : usesOf live hand s u = some f) : u = .hand k :=
  o.counted.sole (o.sole k f hk) hu (show usesOf live hand s (.hand k) = some f from hk)

lemma rebuild (o : Owned live hand n s) (hp : p ∈ live) (hc : s.Becomes t p a)
    (ha : a.frameAt = update (s.space p).frameAt w x)
    (hcount : Counted (update (usesOf live hand' s) (.spot p w) (s.managed x)) (borrowed live t) t.pmm.ref
      t.pmm.gFreeMemList)
    (hlist : ∀ f ∈ t.pmm.gFreeMemList, s.pmm.Managed f) (hsole : ∀ k f, hand' k = some f → t.pmm.ref f = 1)
    (hbound : ∀ f, t.pmm.ref f ≤ n')
    (honce : ∀ v f, w = .leaf v → s.managed x = some f → ∀ u, u ≠ v →
      usesOf live hand s (.spot p (.leaf u)) ≠ some f)
    (htidy : Tidy s.pmm a) : Owned live hand' n' t := by
  have huses : usesOf live hand' t = update (usesOf live hand' s) (.spot p w) (s.managed x) :=
    usesOf_update hp hc.space hc.bounds ha
  have htidy' : ∀ b, Tidy s.pmm b → Tidy t.pmm b := fun b hb =>
    { hb with
      kernelLeaf := fun v hv hu => by
        obtain ⟨h₁, h₂, h₃⟩ := hb.kernelLeaf v hv hu
        exact ⟨h₁, h₂, h₃.imp_right fun h => mt (hc.bounds.managed _).mp h⟩ }
  refine ⟨huses ▸ hcount, fun f hf => (hc.bounds.managed f).mpr (hlist f hf), hsole, hbound, ?_, ?_, ?_⟩
  · intro q hq v u f hv hu
    rw [huses] at hv hu
    by_cases hqp : q = p
    · subst hqp
      by_cases hvw : Spot.leaf v = w
      · rw [← hvw, update_self] at hv
        by_contra hne
        have huv : Use.spot q (.leaf u) ≠ .spot q w := by
          rw [← hvw]
          simpa using Ne.symm hne
        rw [update_of_ne huv] at hu
        exact honce v f hvw.symm hv u (Ne.symm hne) hu
      · rw [update_of_ne (by simpa using hvw)] at hv
        by_cases huw : Spot.leaf u = w
        · rw [← huw, update_self] at hu
          by_contra hne
          exact honce u f huw.symm hu v hne hv
        · rw [update_of_ne (by simpa using huw)] at hu
          exact o.once q hq v u f hv hu
    · rw [update_of_ne (by simp [hqp])] at hv hu
      exact o.once q hq v u f hv hu
  · intro q hq
    apply htidy'
    rw [hc.space]
    by_cases hqp : q = p
    · rw [hqp, update_self]
      exact htidy
    · rw [update_of_ne hqp]
      exact o.tidy q hq
  · obtain ⟨h₁, h₂, h₃⟩ := o.layout
    rw [Vm.Layout, hc.trap, hc.bounds.1]
    exact ⟨h₁, h₂, h₃⟩

end Owned

lemma Vm.Becomes.entry_of_ne (hc : s.Becomes t p a) {q : Pid} (hq : q ≠ p) (v : ℕ) :
    t.entry q v = s.entry q v := by
  rw [Vm.entry, Vm.entry, hc.space, update_of_ne hq]

lemma Vm.Becomes.entry_self (hc : s.Becomes t p a) (v : ℕ) : t.entry p v = a.pagetable.entry v := by
  rw [Vm.entry, hc.space, update_self]

lemma borrowed_becomes (hc : s.Becomes t p a) (hf : f ∈ borrowed live t) : s.pmm.Managed f ∧
    ((∃ q ∈ live, q ≠ p ∧ ∃ v, (s.entry q v).borrows = true ∧ (s.entry q v).pa = f) ∨
      p ∈ live ∧ ∃ v, (a.pagetable.entry v).borrows = true ∧ (a.pagetable.entry v).pa = f) := by
  obtain ⟨hm, q, hq, v, hb, hpa⟩ := hf
  refine ⟨(hc.bounds.managed f).mp hm, ?_⟩
  by_cases hqp : q = p
  · subst hqp
    rw [hc.entry_self] at hb hpa
    exact Or.inr ⟨hq, v, hb, hpa⟩
  · rw [hc.entry_of_ne hqp] at hb hpa
    exact Or.inl ⟨q, hq, hqp, v, hb, hpa⟩

lemma borrowed_subset (hc : s.Becomes t p a)
    (ha : ∀ v, (a.pagetable.entry v).borrows = true →
      (s.entry p v).borrows = true ∧ (s.entry p v).pa = (a.pagetable.entry v).pa) :
    borrowed live t ⊆ borrowed live s := by
  intro f hf
  obtain ⟨hm, ⟨q, hq, -, v, hb, hpa⟩ | ⟨hp, v, hb, hpa⟩⟩ := borrowed_becomes hc hf
  · exact ⟨hm, q, hq, v, hb, hpa⟩
  · obtain ⟨hb', hpa'⟩ := ha v hb
    exact ⟨hm, p, hp, v, hb', hpa'.trans hpa⟩

def Fits (i : ℕ) (r : Region) : Prop :=
  match r.segType with
  | .heap => i = 3
  | .code | .data => i ≠ 3 ∧ r.va % 4096 = 0 ∧ r.va < userFreeAddressStart ∧ r.npages = 1
  | _ => True

namespace Owned

lemma respace (o : Owned live hand n s) (hp : p ∈ live) (hc : s.Becomes t p a) (ht : t.pmm = s.pmm)
    (ha : a.frameAt = update (s.space p).frameAt w x)
    (hx : ∀ f, s.managed x = some f → (s.space p).frameAt w = some f)
    (hb : ∀ f ∈ borrowed live t, 0 < s.pmm.ref f) (htidy : Tidy s.pmm a) : Owned live hand n t := by
  have hle : ∀ u f, update (usesOf live hand s) (.spot p w) (s.managed x) u = some f →
      usesOf live hand s u = some f := by
    intro u f hu
    by_cases huw : u = .spot p w
    · rw [huw, update_self] at hu
      rw [huw, usesOf_eq_some]
      exact ⟨hp, hx f hu, (managed_eq_some.mp hu).2⟩
    · rwa [update_of_ne huw] at hu
  refine o.rebuild hp hc ha ?_ (ht ▸ o.managed) (ht ▸ o.sole) (ht ▸ o.bound) ?_ htidy
  · rw [ht]
    exact { o.counted.forget hle subset_rfl with pinned := hb }
  · rintro v f rfl hf u hu huse
    have hv : usesOf live hand s (.spot p (.leaf v)) = some f := hle _ _ (by rw [update_self, hf])
    exact hu (o.once p hp u v f huse hv)

lemma take_spot (o : Owned live hand n s) (hp : p ∈ live) (hn : 1 ≤ n) (hl : s.pmm.gFreeMemList = f :: rest)
    (hc : s.Becomes t p a) (ht : t.pmm = s.pmm.pop f rest)
    (ha : a.frameAt = update (s.space p).frameAt w (some f)) (hw : ∀ v, w ≠ .leaf v)
    (hb : ∀ v, a.pagetable.entry v = s.entry p v) (htidy : Tidy s.pmm a) : Owned live hand n t := by
  have hf : s.pmm.Managed f := o.managed f (by simp [hl])
  have href : t.pmm.ref = update s.pmm.ref f 1 := by rw [ht, Pmm.ref_pop hf]
  have hlist : t.pmm.gFreeMemList = rest := by rw [ht]; rfl
  have hcount := o.counted
  rw [hl] at hcount
  refine o.rebuild hp hc ha ?_ ?_ ?_ ?_ (fun v _ h => absurd h (hw v)) htidy
  · rw [managed_eq_some.mpr ⟨rfl, hf⟩, href, hlist]
    refine (hcount.take (.spot p w)).forget (fun _ _ h => h) (borrowed_subset hc fun v hv => ?_)
    rw [hb v] at hv ⊢
    exact ⟨hv, rfl⟩
  · intro g hg
    rw [hlist] at hg
    exact o.managed g (by simp [hl, hg])
  · intro k g hk
    have hg := o.sole k g hk
    have hne : g ≠ f := by
      rintro rfl
      rw [o.counted.zero g (by simp [hl])] at hg
      exact absurd hg (by omega)
    rw [href, update_of_ne hne]
    exact hg
  · intro g
    rw [href]
    by_cases hg : g = f
    · rw [hg, update_self]
      exact hn
    · rw [update_of_ne hg]
      exact o.bound g

lemma repmm (o : Owned live hand n s) (hs : t.space = s.space) (hb : s.pmm.SameBounds t.pmm)
    (htrap : t.trapSecStart = s.trapSecStart)
    (hcount : Counted (usesOf live hand' s) (borrowed live s) t.pmm.ref t.pmm.gFreeMemList)
    (hlist : ∀ f ∈ t.pmm.gFreeMemList, s.pmm.Managed f) (hsole : ∀ k f, hand' k = some f → t.pmm.ref f = 1)
    (hbound : ∀ f, t.pmm.ref f ≤ n') : Owned live hand' n' t := by
  have huses : ∀ h, usesOf live h t = usesOf live h s := by
    intro h
    funext u
    cases u with
    | hand k => rfl
    | spot p w => simp [usesOf, Vm.managed, hs, hb.managed]
  have hborrow : borrowed live t = borrowed live s := by
    ext f
    simp [borrowed, Vm.entry, hs, hb.managed]
  refine ⟨by rwa [huses, hborrow], fun f hf => (hb.managed f).mpr (hlist f hf), hsole, hbound, ?_, ?_, ?_⟩
  · intro p hp v w f hv hw
    rw [huses] at hv hw
    exact o.once p hp v w f hv hw
  · intro p hp
    rw [hs]
    exact { o.tidy p hp with
      kernelLeaf := fun v hv hu => by
        obtain ⟨h₁, h₂, h₃⟩ := (o.tidy p hp).kernelLeaf v hv hu
        exact ⟨h₁, h₂, h₃.imp_right fun h => mt (hb.managed _).mp h⟩ }
  · obtain ⟨h₁, h₂, h₃⟩ := o.layout
    rw [Vm.Layout, htrap, hb.1]
    exact ⟨h₁, h₂, h₃⟩

lemma take_hand (o : Owned live hand n s) (hn : 1 ≤ n) (hl : s.pmm.gFreeMemList = f :: rest) (k : ℕ) :
    Owned live (update hand k (some f)) n { s with pmm := s.pmm.pop f rest } := by
  have hf : s.pmm.Managed f := o.managed f (by simp [hl])
  have hcount := o.counted
  rw [hl] at hcount
  refine o.repmm rfl ⟨rfl, rfl⟩ rfl ?_ ?_ ?_ ?_
  · rw [usesOf_hand]
    change Counted _ _ (s.pmm.pop f rest).ref rest
    rw [Pmm.ref_pop hf]
    exact hcount.take (.hand k)
  · exact fun g hg => o.managed g (by rw [hl]; exact List.mem_cons_of_mem f hg)
  · intro j g hj
    change (s.pmm.pop f rest).ref g = 1
    rw [Pmm.ref_pop hf]
    by_cases hg : g = f
    · rw [hg, update_self]
    · have hjk : j ≠ k := by
        rintro rfl
        rw [update_self] at hj
        exact hg (Option.some.inj hj).symm
      rw [update_of_ne hjk] at hj
      rw [update_of_ne hg]
      exact o.sole j g hj
  · intro g
    change (s.pmm.pop f rest).ref g ≤ n
    rw [Pmm.ref_pop hf]
    by_cases hg : g = f
    · rw [hg, update_self]
      exact hn
    · rw [update_of_ne hg]
      exact o.bound g

lemma install (o : Owned live hand n s) (hp : p ∈ live) (hk : hand k = some f) (hc : s.Becomes t p a)
    (ht : t.pmm = s.pmm) (ha : a.frameAt = update (s.space p).frameAt w (some f))
    (hb : borrowed live t ⊆ borrowed live s) (htidy : Tidy s.pmm a) :
    Owned live (update hand k none) n t := by
  have hf : s.pmm.Managed f := Pmm.managed_of_ref (by rw [o.sole k f hk]; omega)
  refine o.rebuild hp hc ha ?_ (ht ▸ o.managed) ?_ (ht ▸ o.bound) ?_ htidy
  · rw [managed_eq_some.mpr ⟨rfl, hf⟩, ht, usesOf_hand]
    have hk' : usesOf live hand s (.hand k) = some f := hk
    exact (o.counted.move hk' (.spot p w)).forget (fun _ _ h => h) hb
  · intro j g hj
    rw [ht]
    by_cases hjk : j = k
    · simp [hjk] at hj
    · rw [update_of_ne hjk] at hj
      exact o.sole j g hj
  · rintro v g rfl hg u - hu
    rw [managed_eq_some] at hg
    rw [← Option.some.inj hg.1] at hu
    exact Use.noConfusion (o.only_hand hk hu)

lemma release_bound (o : Owned live hand n s) (hf : s.pmm.Managed f) (g : ℕ) :
    (s.pmm.release f).ref g ≤ n := by
  rw [Pmm.ref_release hf]
  by_cases hg : g = f
  · rw [hg, update_self]
    exact (Nat.sub_le _ _).trans (o.bound f)
  · rw [update_of_ne hg]
    exact o.bound g

lemma release_managed (o : Owned live hand n s) (hf : s.pmm.Managed f) :
    ∀ g ∈ (s.pmm.release f).gFreeMemList, s.pmm.Managed g := Pmm.managed_release hf o.managed

lemma release_sole (o : Owned live hand n s) (hf : s.pmm.Managed f) (hh : ∀ k, hand k ≠ some f) :
    ∀ k g, hand k = some g → (s.pmm.release f).ref g = 1 := by
  intro k g hk
  have hne : g ≠ f := fun e => hh k (by rw [hk, e])
  rw [Pmm.ref_release hf, update_of_ne hne]
  exact o.sole k g hk

lemma release_hand (o : Owned live hand n s) (hk : hand k = some f) (hs : t.space = s.space)
    (htrap : t.trapSecStart = s.trapSecStart) (ht : t.pmm = s.pmm.release f)
    (hb : f ∉ borrowed live s) : Owned live (update hand k none) n t := by
  have hf : s.pmm.Managed f := Pmm.managed_of_ref (by rw [o.sole k f hk]; omega)
  have hk' : usesOf live hand s (.hand k) = some f := hk
  refine o.repmm hs (ht ▸ ⟨rfl, rfl⟩) htrap ?_ (ht ▸ o.release_managed hf) ?_ (ht ▸ o.release_bound hf)
  · rw [ht, usesOf_hand, Pmm.ref_release hf]
    exact o.counted.drop hk' subset_rfl (fun h => absurd h hb)
  · intro j g hj
    have hjk : j ≠ k := by
      rintro rfl
      simp at hj
    rw [update_of_ne hjk] at hj
    have hne : g ≠ f := by
      rintro rfl
      exact hjk (Use.hand.inj (o.only_hand hk (u := .hand j) hj))
    rw [ht, Pmm.ref_release hf, update_of_ne hne]
    exact o.sole j g hj

lemma release_leaf (o : Owned live hand n s) (hp : p ∈ live) (hf : s.pmm.Managed f) (hc : s.Becomes t p a)
    (ht : t.pmm = s.pmm.release f) (ha : a.frameAt = update (s.space p).frameAt (.leaf v) none)
    (hpos : 0 < s.pmm.ref f) (hh : ∀ k, hand k ≠ some f)
    (hcov : {u | update (usesOf live hand s) (.spot p (.leaf v)) none u = some f}.encard + 1 ≤ s.pmm.ref f)
    (hb : borrowed live t ⊆ borrowed live s) (hpin : f ∈ borrowed live t → 1 < s.pmm.ref f)
    (htidy : Tidy s.pmm a) : Owned live hand n t := by
  refine o.rebuild hp hc ha ?_ (ht ▸ o.release_managed hf) (ht ▸ o.release_sole hf hh)
    (ht ▸ o.release_bound hf) ?_ htidy
  · rw [ht, Pmm.ref_release hf]
    refine o.counted.lower hpos ?_ hb hcov hpin
    intro u g hu
    by_cases huv : u = .spot p (.leaf v)
    · rw [huv, update_self] at hu
      exact absurd hu (by simp [Vm.managed])
    · rwa [update_of_ne huv] at hu
  · intro _ g _ hg
    exact absurd hg (by simp [Vm.managed])

lemma raise (o : Owned live hand n s) (hs : t.space = s.space) (htrap : t.trapSecStart = s.trapSecStart)
    (hpos : 0 < s.pmm.ref f) (ht : t.pmm = s.pmm.setRef f (s.pmm.ref f + 1)) (hh : ∀ k, hand k ≠ some f)
    (hbound : ∀ g, t.pmm.ref g ≤ n') : Owned live hand n' t := by
  have hf := Pmm.managed_of_ref hpos
  have href : t.pmm.ref = update s.pmm.ref f (s.pmm.ref f + 1) := by rw [ht, Pmm.ref_setRef hf]
  have hlist : t.pmm.gFreeMemList = s.pmm.gFreeMemList := by rw [ht]; rfl
  refine o.repmm hs (ht ▸ ⟨rfl, rfl⟩) htrap ?_ (hlist ▸ o.managed) ?_ hbound
  · rw [href, hlist]
    exact o.counted.raise hpos
  · intro k g hk
    have hne : g ≠ f := fun e => hh k (by rw [hk, e])
    rw [href, update_of_ne hne]
    exact o.sole k g hk

lemma share (o : Owned live hand n s) (hp : p ∈ live) (hc : s.Becomes t p a)
    (ha : a.frameAt = update (s.space p).frameAt (.leaf v) (some f)) (hpos : 0 < s.pmm.ref f)
    (ht : t.pmm = s.pmm.setRef f (s.pmm.ref f + 1)) (hh : ∀ k, hand k ≠ some f)
    (hb : borrowed live t ⊆ borrowed live s) (hbound : ∀ g, t.pmm.ref g ≤ n')
    (honce : ∀ u, u ≠ v → usesOf live hand s (.spot p (.leaf u)) ≠ some f) (htidy : Tidy s.pmm a) :
    Owned live hand n' t := by
  have hf := Pmm.managed_of_ref hpos
  have href : t.pmm.ref = update s.pmm.ref f (s.pmm.ref f + 1) := by rw [ht, Pmm.ref_setRef hf]
  have hlist : t.pmm.gFreeMemList = s.pmm.gFreeMemList := by rw [ht]; rfl
  refine o.rebuild hp hc ha ?_ (hlist ▸ o.managed) ?_ hbound ?_ htidy
  · rw [managed_eq_some.mpr ⟨rfl, hf⟩, href, hlist]
    exact (o.counted.share (.spot p (.leaf v)) hpos).forget (fun _ _ h => h) hb
  · intro k g hk
    have hne : g ≠ f := fun e => hh k (by rw [hk, e])
    rw [href, update_of_ne hne]
    exact o.sole k g hk
  · intro v' g hv' hg u hu
    obtain rfl := Spot.leaf.inj hv'
    rw [managed_eq_some] at hg
    rw [← Option.some.inj hg.1]
    exact honce u hu

lemma setFields (o : Owned live hand n s) (hp : p ∈ live) (g : Space → Space)
    (htable : (g (s.space p)).pagetable = (s.space p).pagetable)
    (htf : (g (s.space p)).trapframe = (s.space p).trapframe)
    (hks : (g (s.space p)).kstack = (s.space p).kstack)
    (hmi : (g (s.space p)).mappedInfo = (s.space p).mappedInfo)
    (hreg : ∀ i, (g (s.space p)).regions i = (s.space p).regions i ∨ Fits i ((g (s.space p)).regions i)) :
    Owned live hand n (s.setSpace p g) := by
  have hframe : (g (s.space p)).frameAt = (s.space p).frameAt := by
    funext w
    cases w <;> simp [Space.frameAt, htable, htf, hks, hmi]
  have hc : s.Becomes (s.setSpace p g) p (g (s.space p)) := ⟨rfl, ⟨rfl, rfl⟩, rfl⟩
  have htidy := o.tidy p hp
  refine o.respace (w := .dir) (x := (s.space p).frameAt .dir) hp hc rfl ?_ ?_ ?_ ?_
  · rw [hframe, update_eq_self]
  · exact fun f hf => (managed_eq_some.mp hf).1
  · intro f hf
    refine o.counted.pinned f (borrowed_subset hc (fun v hv => ?_) hf)
    rw [htable] at hv ⊢
    exact ⟨hv, rfl⟩
  · refine ⟨?_, ?_, ?_, fun i hi => ?_, fun i hi => ?_⟩
    · simpa only [htable, htf] using htidy.kernelLeaf
    · simpa only [htable] using htidy.codeLow
    · simpa only [htable] using htidy.cowHigh
    · rcases hreg i with h | h
      · exact htidy.heapRegion i (h ▸ hi)
      · simpa [Fits, hi] using h
    · rcases hreg i with h | h
      · rw [h] at hi ⊢
        exact htidy.imageRegion i hi
      · rcases hi with hi | hi <;> simpa [Fits, hi] using h

lemma setHeap (o : Owned live hand n s) (hp : p ∈ live) (g : HeapManager → HeapManager) :
    Owned live hand n (s.setHeap p g) :=
  o.setFields hp _ rfl rfl rfl rfl fun _ => .inl rfl

end Owned

end

end Pke.Memory
