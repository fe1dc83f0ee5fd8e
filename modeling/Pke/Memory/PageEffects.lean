import Pke.Memory.Transfers

namespace Pke.Memory

open Lib Flow Function Processes

namespace Vm

def pop (s : Vm) (f : ℕ) (rest : List ℕ) : Vm := { s with pmm := s.pmm.pop f rest }

def release (s : Vm) (f : ℕ) : Vm :=
  { s with
    pmm := s.pmm.release f
    mem := if s.pmm.ref f - 1 = 0 then linkNode s.mem f (s.pmm.gFreeMemList.headD 0) else s.mem }

structure SameFields (s t : Vm) : Prop where
  bounds : s.pmm.SameBounds t.pmm
  trap : t.trapSecStart = s.trapSecStart
  fields : ∀ q, t.space q = { s.space q with pagetable := (t.space q).pagetable }

variable {s t u : Vm}

lemma SameFields.refl (s : Vm) : s.SameFields s := ⟨⟨rfl, rfl⟩, rfl, fun _ => rfl⟩

lemma SameFields.trans (h : s.SameFields t) (h' : t.SameFields u) : s.SameFields u where
  bounds := h.bounds.trans h'.bounds
  trap := h'.trap.trans h.trap
  fields q := by
    rw [h'.fields q, h.fields q]

lemma SameFields.setTable (h : s.SameFields t) (p : Pid) (g : PageTable → PageTable) :
    s.SameFields (t.setTable p g) := by
  refine ⟨h.bounds, h.trap, fun q => ?_⟩
  by_cases hq : q = p
  · subst hq
    simp only [Vm.setTable, setSpace_self]
    rw [h.fields q]
  · simp only [Vm.setTable, setSpace_of_ne _ hq]
    exact h.fields q

lemma setTable_becomes (s : Vm) (p : Pid) (g : PageTable → PageTable) :
    s.Becomes (s.setTable p g) p { s.space p with pagetable := g (s.space p).pagetable } :=
  ⟨rfl, ⟨rfl, rfl⟩, rfl⟩

end Vm

variable {live : Finset Pid} {hand : ℕ → Option ℕ} {n : ℕ} {s t u : Vm} {p : Pid} {va pa : ℕ}

lemma wp_allocPage {Q : Option ℕ → Vm → Prop} {E : Vm → Prop}
    (h : ∀ f ∈ s.pmm.gFreeMemList, s.pmm.Managed f) :
    wp allocPage Q E s ↔ (s.pmm.gFreeMemList = [] → Q none s) ∧
      ∀ f rest, s.pmm.gFreeMemList = f :: rest → Q (some f) (s.pop f rest) := by
  unfold allocPage
  rw [wp_bind, wp_get]
  dsimp only
  split
  next hl => simp [hl]
  next f rest hl =>
    have hf : s.pmm.index f < s.pmm.maxPages := (h f (by simp [hl])).2.2
    rw [wp_bind, wp_modify, if_pos hf, wp_bind, wp_modify, wp_pure]
    constructor
    · intro hq
      refine ⟨fun hn => absurd hn (by simp [hl]), fun g r hgr => ?_⟩
      obtain ⟨rfl, rfl⟩ := List.cons.inj (hl.symm.trans hgr)
      exact hq
    · exact fun hq => hq.2 f rest hl

lemma wp_freePage {Q : Unit → Vm → Prop} {E : Vm → Prop}
    (h : s.pmm.Managed pa → Q () (s.release pa)) : wp (freePage pa) Q E s := by
  unfold freePage
  rw [wp_bind, wp_get, wp_ite]
  refine ⟨fun _ => wp_halt, fun hc => ?_⟩
  push Not at hc
  have hm : s.pmm.Managed pa := hc
  have href : s.pmm.pageRefCount (s.pmm.index pa) = s.pmm.ref pa := by rw [Pmm.ref, if_pos hm]
  have := h hm
  unfold Vm.release Pmm.release at this
  rw [wp_bind, wp_modify, wp_ite, href]
  constructor
  · intro hz
    rw [if_pos hz, if_pos hz] at this
    rw [wp_modify]
    exact this
  · intro hz
    rw [if_neg hz, if_neg hz] at this
    exact this

structure Grown (live : Finset Pid) (hand : ℕ → Option ℕ) (n : ℕ) (s t : Vm) : Prop where
  owned : Owned live hand n t
  same : s.SameFields t
  entry : ∀ q v, t.entry q v = s.entry q v
  mem : t.mem = s.mem
  free : t.pmm.gFreeMemList <:+ s.pmm.gFreeMemList
  ref : ∀ f, 0 < s.pmm.ref f → t.pmm.ref f = s.pmm.ref f

namespace Grown

lemma refl (o : Owned live hand n s) : Grown live hand n s s :=
  ⟨o, .refl s, fun _ _ => rfl, rfl, List.suffix_refl _, fun _ _ => rfl⟩

lemma trans (h : Grown live hand n s t) (h' : Grown live hand n t u) : Grown live hand n s u where
  owned := h'.owned
  same := h.same.trans h'.same
  entry q v := (h'.entry q v).trans (h.entry q v)
  mem := h'.mem.trans h.mem
  free := h'.free.trans h.free
  ref f hf := by
    have := h.ref f hf
    rw [h'.ref f (this ▸ hf), this]

end Grown

lemma grown_add {w : Spot} {g : PageTable → PageTable} {f : ℕ} {rest : List ℕ} (o : Owned live hand n s)
    (hp : p ∈ live) (hn : 1 ≤ n) (hl : s.pmm.gFreeMemList = f :: rest) (hw : ∀ v, w ≠ .leaf v)
    (hframe : { s.space p with pagetable := g (s.space p).pagetable }.frameAt =
      update (s.space p).frameAt w (some f))
    (hentry : (g (s.space p).pagetable).entry = (s.space p).pagetable.entry) :
    Grown live hand n s ((s.pop f rest).setTable p g) := by
  have hc : s.Becomes ((s.pop f rest).setTable p g) p
      { s.space p with pagetable := g (s.space p).pagetable } := ⟨rfl, ⟨rfl, rfl⟩, rfl⟩
  have hf : s.pmm.Managed f := o.managed f (by simp [hl])
  have htidy := o.tidy p hp
  refine ⟨?_, ?_, ?_, rfl, ?_, ?_⟩
  · refine o.take_spot hp hn hl hc rfl hframe hw (fun v => congrFun hentry v) ?_
    refine ⟨?_, ?_, ?_, htidy.heapRegion, htidy.imageRegion⟩
    · simpa only [hentry] using htidy.kernelLeaf
    · simpa only [hentry] using htidy.codeLow
    · simpa only [hentry] using htidy.cowHigh
  · have hpop : s.SameFields (s.pop f rest) := ⟨⟨rfl, rfl⟩, rfl, fun _ => rfl⟩
    exact hpop.setTable p g
  · intro q v
    by_cases hq : q = p
    · subst hq
      rw [hc.entry_self]
      exact congrFun hentry v
    · exact hc.entry_of_ne hq v
  · change rest <:+ s.pmm.gFreeMemList
    rw [hl]
    exact List.suffix_cons f rest
  · intro i hi
    change (s.pmm.pop f rest).ref i = _
    rw [Pmm.ref_pop hf, update_of_ne]
    rintro rfl
    rw [o.counted.zero i (by simp [hl])] at hi
    exact hi.false

lemma walkLevel_grown {w : Spot} {find : PageTable → Option ℕ} {add : PageTable → ℕ → PageTable}
    (o : Owned live hand n s) (hp : p ∈ live) (hn : 1 ≤ n) (hw : ∀ v, w ≠ .leaf v)
    (hframe : ∀ f, find (s.space p).pagetable = none →
      { s.space p with pagetable := add (s.space p).pagetable f }.frameAt = update (s.space p).frameAt w (some f))
    (hentry : ∀ f, find (s.space p).pagetable = none →
      (add (s.space p).pagetable f).entry = (s.space p).pagetable.entry)
    (hfind : ∀ f, (find (add (s.space p).pagetable f)).isSome) (E : Vm → Prop) :
    wp (walkLevel p true find add) (fun b t => Grown live hand n s t ∧
      (t.space p = s.space p ∨ ∃ f, t.space p = { s.space p with pagetable := add (s.space p).pagetable f }) ∧
        (b = true → (find (t.space p).pagetable).isSome)) E s := by
  unfold walkLevel
  rw [wp_bind, wp_get]
  dsimp only
  split
  next f hf => exact ⟨.refl o, .inl rfl, fun _ => by simp [hf]⟩
  next hf =>
    rw [if_pos rfl, wp_bind, wp_allocPage o.managed]
    refine ⟨fun _ => ⟨.refl o, .inl rfl, fun h => absurd h (by simp)⟩, fun f rest hl => ?_⟩
    dsimp only
    rw [wp_bind, wp_modify, wp_pure]
    have hself : (((s.pop f rest).setTable p (add · f)).space p) =
        { s.space p with pagetable := add (s.space p).pagetable f } := Vm.setSpace_self _ _ _
    refine ⟨grown_add o hp hn hl hw (hframe f hf) (hentry f hf), .inr ⟨f, hself⟩, fun _ => ?_⟩
    rw [hself]
    exact hfind f

lemma pageWalk_grown (o : Owned live hand n s) (hp : p ∈ live) (hn : 1 ≤ n) (va : ℕ) :
    wp (pageWalk p va true) (fun r t => Grown live hand n s t ∧ va < maxva ∧
      ∀ v, r = some v → v = va / 4096 ∧ (t.space p).pagetable.Has v) (fun t => t = s) s := by
  have hmid : va / 2 ^ 30 = va / 4096 / 512 / 512 := by omega
  have hlow : va / 2 ^ 21 = va / 4096 / 512 := by omega
  unfold pageWalk
  rw [wp_ite, hmid, hlow]
  refine ⟨fun _ => rfl, fun hva => ?_⟩
  rw [wp_bind]
  refine wp_mono (walkLevel_grown (w := .mid (va / 4096 / 512 / 512)) o hp hn (by simp)
    (fun f h => Space.frameAt_addMid h f) (fun f h => PageTable.entry_addMid h f)
    (fun f => by simp [PageTable.addMid]) _) ?_ (fun _ h => h)
  rintro b t ⟨ht, -, hb⟩
  cases b with
  | false => exact ⟨ht, not_le.mp hva, by simp⟩
  | true =>
    rw [if_pos rfl, wp_bind]
    refine wp_mono (walkLevel_grown (w := .low (va / 4096 / 512)) ht.owned hp hn (by simp)
      (fun f h => Space.frameAt_addLow h (hb rfl) f) (fun f h => PageTable.entry_addLow h f)
      (fun f => by simp [PageTable.addLow]) (fun t => t = s)) ?_ (fun _ h => h)
    rintro b u ⟨hu, hspace, hb'⟩
    cases b with
    | false => exact ⟨ht.trans hu, not_le.mp hva, by simp⟩
    | true =>
      rw [if_pos rfl, wp_pure]
      refine ⟨ht.trans hu, not_le.mp hva, ?_⟩
      rintro v ⟨⟩
      refine ⟨rfl, ?_, hb' rfl⟩
      rcases hspace with h | ⟨f, h⟩
      · rw [h]
        exact hb rfl
      · rw [h]
        exact hb rfl

def Filled (live : Finset Pid) (hand : ℕ → Option ℕ) (n : ℕ) (s : Vm) (p : Pid) (v : ℕ) (e : Pte)
    (t : Vm) : Prop :=
  ∃ u, Grown live hand n s u ∧ (u.space p).pagetable.Has v ∧ (s.entry p v).v = false ∧
    t = u.setTable p (·.setPte v e)

lemma mapPages_page (o : Owned live hand n s) (hp : p ∈ live) (hn : 1 ≤ n) (hva : va % 4096 = 0)
    (pa : ℕ) (perm : Pte) :
    wp (mapPages p va 4096 pa perm) (fun b t =>
      (Grown live hand n s t ∧ (b = true → 2 ^ 64 ≤ va)) ∨
        (b = true ∧ va < maxva ∧ Filled live hand n s p (va / 4096) (Pte.leaf pa perm) t))
      (Grown live hand n s) s := by
  unfold mapPages
  dsimp only
  by_cases hlt : va < 2 ^ 64
  swap
  · rw [pagesBelow_beyond hva (not_lt.mp hlt)]
    exact .inl ⟨.refl o, fun _ => not_lt.mp hlt⟩
  have hfirst : roundDown va = va := by
    unfold roundDown
    omega
  rw [pagesBelow_page hva hlt, hfirst, all, wp_bind, wp_bind, Nat.sub_self, Nat.add_zero]
  refine wp_mono (pageWalk_grown o hp hn va) ?_ (fun t ht => by subst ht; exact .refl o)
  rintro r t ⟨ht, hmax, hr⟩
  cases r with
  | none => exact .inl ⟨ht, by simp⟩
  | some v =>
    obtain ⟨rfl, hhas⟩ := hr v rfl
    have hpte : (t.space p).pagetable.pte (va / 4096) = s.entry p (va / 4096) := by
      rw [← PageTable.entry_of_has hhas]
      exact ht.entry p _
    dsimp only
    rw [wp_bind, wp_get, hpte, wp_ite]
    refine ⟨fun _ => ht, fun hv => ?_⟩
    rw [wp_bind, setPte, wp_modify, wp_pure, if_pos rfl, all, wp_pure]
    exact .inr ⟨rfl, hmax, t, ht, hhas, by simpa using hv, rfl⟩

lemma userVmMap_page (o : Owned live hand n s) (hp : p ∈ live) (hn : 1 ≤ n) (hva : va % 4096 = 0)
    (pa : ℕ) (perm : Pte) :
    wp (userVmMap p va 4096 pa perm) (fun _ t =>
      (Grown live hand n s t ∧ 2 ^ 64 ≤ va) ∨
        (va < maxva ∧ Filled live hand n s p (va / 4096) (Pte.leaf pa perm) t))
      (Grown live hand n s) s := by
  unfold userVmMap
  rw [wp_bind]
  refine wp_mono (mapPages_page o hp hn hva pa perm) ?_ (fun _ h => h)
  intro b t ht
  cases b with
  | false =>
    rcases ht with ⟨ht, -⟩ | ⟨hb, -⟩
    · exact ht
    · exact absurd hb (by simp)
  | true =>
    rcases ht with ⟨ht, hle⟩ | ⟨-, ht⟩
    · exact .inl ⟨ht, hle rfl⟩
    · exact .inr ht

lemma userVmMapCow_eq (p : Pid) (va size pa : ℕ) :
    userVmMapCow p va size pa = mapPages p va size pa cowPerm >>= fun _ => pure () := rfl

lemma pagesBelow_single {va : ℕ} (hva : va % 4096 = 0) (hlt : va < maxva) :
    pagesBelow va (u64 (va + 4096)) = [va] := by
  have hend : u64 (va + 4096) = va + 4096 := by
    unfold u64
    unfold maxva at hlt
    omega
  have hone : (va + 4096 - va + 4095) / 4096 = 1 := by omega
  rw [hend, pagesBelow, hone]
  simp

lemma wp_userVmUnmap {Q : Unit → Vm → Prop} {E : Vm → Prop} (hE : E s)
    (hbig : va % 4096 = 0 → maxva ≤ va → Q () s)
    (hstep : va % 4096 = 0 → va < maxva → (s.entry p (va / 4096)).v = true →
      s.pmm.Managed (s.entry p (va / 4096)).pa →
        Q () ((s.release (s.entry p (va / 4096)).pa).setTable p (·.setPte (va / 4096) {}))) :
    wp (userVmUnmap p va 4096 true) Q E s := by
  unfold userVmUnmap
  rw [wp_ite]
  refine ⟨fun _ => hE, fun hva => ?_⟩
  rw [not_not] at hva
  by_cases hlt : va < maxva
  swap
  · -- beyond the largest address the loop has no page or ends in the walk
    refine wp_each (fun l t => t = s ∧ ∀ a ∈ l, maxva ≤ a) ⟨rfl, ?_⟩ ?_ ?_
    · intro a ha
      obtain ⟨i, -, rfl⟩ := List.mem_map.mp ha
      omega
    · rintro a r t ⟨rfl, hr⟩
      rw [wp_bind, wp_pageWalk_false]
      exact ⟨fun _ => hE, fun h => absurd h (not_lt.mpr (hr a (by simp)))⟩
    · rintro t ⟨rfl, -⟩
      exact hbig hva (not_lt.mp hlt)
  · rw [pagesBelow_single hva hlt, each, wp_bind, wp_bind, wp_pageWalk_false]
    refine ⟨fun h => absurd hlt (not_lt.mpr h), fun _ => ?_⟩
    rw [PageTable.walk_eq]
    by_cases hhas : (s.space p).pagetable.Has (va / 4096)
    swap
    · rw [if_neg hhas]
      exact hE
    · have hpte : (s.space p).pagetable.pte (va / 4096) = s.entry p (va / 4096) :=
        (PageTable.entry_of_has hhas).symm
      rw [if_pos hhas]
      dsimp only
      rw [wp_bind, wp_get, hpte, wp_ite]
      refine ⟨fun _ => hE, fun hv => ?_⟩
      have hvalid : (s.entry p (va / 4096)).v = true := by
        by_contra h
        simp [h] at hv
      rw [if_pos rfl, wp_bind]
      apply wp_freePage
      intro hm
      exact hstep hva hlt hvalid hm

lemma Tidy.setPte {m : Pmm} {a : Space} {v : ℕ} (h : Tidy m a) (hv : a.pagetable.Has v) (e : Pte)
    (hk : e.v = true → e.u = false → e.cow = false ∧ 0x80000 ≤ v ∧ (e.pa = a.trapframe ∨ ¬ m.Managed e.pa))
    (hb : e.borrows = true → v < 1024) (hcow : e.v = true → e.cow = true → 1024 ≤ v) :
    Tidy m { a with pagetable := a.pagetable.setPte v e } := by
  refine ⟨?_, ?_, ?_, h.heapRegion, h.imageRegion⟩ <;> intro w <;> dsimp only <;>
    rw [PageTable.entry_setPte hv] <;> by_cases hw : w = v
  · rw [hw, update_self]
    exact hk
  · rw [update_of_ne hw]
    exact h.kernelLeaf w
  · rw [hw, update_self]
    exact hb
  · rw [update_of_ne hw]
    exact h.codeLow w
  · rw [hw, update_self]
    exact hcow
  · rw [update_of_ne hw]
    exact h.cowHigh w

lemma borrowed_setPte {v : ℕ} {e : Pte} (hv : (s.space p).pagetable.Has v)
    (hc : s.Becomes t p { s.space p with pagetable := (s.space p).pagetable.setPte v e }) {f : ℕ}
    (hf : f ∈ borrowed live t) : f ∈ borrowed live s ∨ e.borrows = true ∧ e.pa = f ∧ s.pmm.Managed f := by
  obtain ⟨hm, ⟨q, hq, -, w, hb, hpa⟩ | ⟨hp, w, hb, hpa⟩⟩ := borrowed_becomes hc hf
  · exact .inl ⟨hm, q, hq, w, hb, hpa⟩
  · dsimp only at hb hpa
    rw [PageTable.entry_setPte hv] at hb hpa
    by_cases hw : w = v
    · rw [hw, update_self] at hb hpa
      exact .inr ⟨hb, hpa, hm⟩
    · rw [update_of_ne hw] at hb hpa
      exact .inl ⟨hm, p, hp, w, hb, hpa⟩

namespace Filled

variable {v f k : ℕ} {e : Pte}

lemma same (h : Filled live hand n s p v e t) : s.SameFields t := by
  obtain ⟨u, hu, -, -, rfl⟩ := h
  exact hu.same.setTable p _

lemma entry_self (h : Filled live hand n s p v e t) : t.entry p = update (s.entry p) v e := by
  obtain ⟨u, hu, hv, -, rfl⟩ := h
  funext w
  rw [(u.setTable_becomes p _).entry_self]
  dsimp only
  rw [PageTable.entry_setPte hv]
  by_cases hw : w = v
  · simp [hw]
  · rw [update_of_ne hw, update_of_ne hw]
    exact hu.entry p w

lemma mem (h : Filled live hand n s p v e t) : t.mem = s.mem := by
  obtain ⟨u, hu, -, -, rfl⟩ := h
  exact hu.mem

lemma free (h : Filled live hand n s p v e t) : t.pmm.gFreeMemList <:+ s.pmm.gFreeMemList := by
  obtain ⟨u, hu, -, -, rfl⟩ := h
  exact hu.free

lemma ref (h : Filled live hand n s p v e t) (hf : 0 < s.pmm.ref f) : t.pmm.ref f = s.pmm.ref f := by
  obtain ⟨u, hu, -, -, rfl⟩ := h
  exact hu.ref f hf

lemma install (h : Filled live hand n s p v e t) (hp : p ∈ live) (hk : hand k = some f)
    (he : e.owned = some f) (hcow : e.cow = false) : Owned live (update hand k none) n t := by
  obtain ⟨u, hu, hv, -, rfl⟩ := h
  have hc := u.setTable_becomes p (·.setPte v e)
  have hown : e.v = true ∧ e.u = true ∧ e.x = false := by
    unfold Pte.owned Pte.owns at he
    simpa [and_assoc] using (Option.ite_none_right_eq_some.mp he).1
  have hborrow : e.borrows = false := by simp [Pte.borrows, hown]
  refine hu.owned.install hp hk hc rfl (by rw [Space.frameAt_setPte hv, he]) ?_ ?_
  · intro g hg
    rcases borrowed_setPte hv hc hg with hg | ⟨hb, -⟩
    · exact hg
    · simp [hborrow] at hb
  · refine (hu.owned.tidy p hp).setPte hv e ?_ ?_ ?_
    · simp [hown]
    · simp [hborrow]
    · simp [hcow]

lemma keep (h : Filled live hand n s p v e t) (hp : p ∈ live)
    (he : ∀ f, e.owned = some f → ¬ s.pmm.Managed f)
    (hk : e.v = true → e.u = false →
      e.cow = false ∧ 0x80000 ≤ v ∧ (e.pa = (s.space p).trapframe ∨ ¬ s.pmm.Managed e.pa))
    (hb : e.borrows = true → v < 1024 ∧ (s.pmm.Managed e.pa → 0 < s.pmm.ref e.pa))
    (hcow : e.cow = true → 1024 ≤ v) : Owned live hand n t := by
  obtain ⟨u, hu, hv, hinv, rfl⟩ := h
  have hc := u.setTable_becomes p (·.setPte v e)
  have hmanaged := hu.same.bounds.managed
  refine hu.owned.respace hp hc rfl (Space.frameAt_setPte hv e) ?_ ?_ ?_
  · intro f hf
    rw [managed_eq_some, hmanaged] at hf
    exact absurd hf.2 (he f hf.1)
  · intro f hf
    rcases borrowed_setPte hv hc hf with hf | ⟨hb', rfl, hm⟩
    · exact hu.owned.counted.pinned f hf
    · have hpos := (hb hb').2 ((hmanaged _).mp hm)
      rw [hu.ref _ hpos]
      exact hpos
  · refine (hu.owned.tidy p hp).setPte hv e ?_ (fun h => (hb h).1) (fun _ => hcow)
    have htf : (u.space p).trapframe = (s.space p).trapframe := by rw [hu.same.fields p]
    rw [htf, hmanaged]
    exact hk

end Filled

end Pke.Memory
