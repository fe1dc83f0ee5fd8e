import Pke.Memory.HeapCalls

/-! What mapping a page changes for those who look through the page tables. No bookkeeping is
assumed: free pages only go from the list, and a table that cannot be had is not there. -/

namespace Pke.Memory

open Lib Flow Function Processes

variable {s t u : Vm} {p q : Pid} {va pa v w : ℕ} {e perm : Pte} {E : Vm → Prop}

abbrev Vm.frees (s : Vm) : List ℕ := s.pmm.gFreeMemList

structure Widened (p : Pid) (s t : Vm) : Prop where
  mem : t.mem = s.mem
  free : t.frees <:+ s.frees
  others : ∀ q, q ≠ p → t.space q = s.space q
  fields : t.space p = { s.space p with pagetable := (t.space p).pagetable }
  entry : ∀ v, t.entry p v = s.entry p v
  has : ∀ v, (s.space p).pagetable.Has v → (t.space p).pagetable.Has v
  stuck : s.frees = [] → (t.space p).pagetable = (s.space p).pagetable

namespace Widened

lemma refl (s : Vm) : Widened p s s :=
  ⟨rfl, List.suffix_refl _, fun _ _ => rfl, rfl, fun _ => rfl, fun _ h => h, fun _ => rfl⟩

lemma empty (h : Widened p s t) (hs : s.frees = []) : t.frees = [] := by
  have := h.free
  rw [hs] at this
  exact List.suffix_nil.mp this

lemma trans (h : Widened p s t) (h' : Widened p t u) : Widened p s u where
  mem := h'.mem.trans h.mem
  free := h'.free.trans h.free
  others q hq := (h'.others q hq).trans (h.others q hq)
  fields := by rw [h'.fields, h.fields]
  entry v := (h'.entry v).trans (h.entry v)
  has v hv := h'.has v (h.has v hv)
  stuck hs := (h'.stuck (h.empty hs)).trans (h.stuck hs)

end Widened

lemma allocPage_frees :
    wp allocPage (fun r t => t.mem = s.mem ∧ t.space = s.space ∧
      ((r = none ∧ s.frees = [] ∧ t.frees = []) ∨ ∃ f, r = some f ∧ s.frees = f :: t.frees)) E s := by
  unfold allocPage
  rw [wp_bind, wp_get]
  dsimp only
  split
  · next hl => exact ⟨rfl, rfl, .inl ⟨rfl, hl, hl⟩⟩
  · next f rest hl =>
    rw [wp_bind, wp_modify, wp_ite]
    refine ⟨fun _ => ?_, fun _ => ?_⟩
    · rw [wp_bind, wp_modify, wp_pure]
      exact ⟨rfl, rfl, .inr ⟨f, rfl, hl⟩⟩
    · rw [wp_pure]
      exact ⟨rfl, rfl, .inr ⟨f, rfl, hl⟩⟩

lemma walkLevel_widened {find : PageTable → Option ℕ} {add : PageTable → ℕ → PageTable}
    (hfind : ∀ T pa, (find (add T pa)).isSome)
    (hentry : ∀ T pa, find T = none → (add T pa).entry = T.entry)
    (hhas : ∀ (T : PageTable) pa v, find T = none → T.Has v → (add T pa).Has v) :
    wp (walkLevel p true find add) (fun b t => Widened p s t ∧
      ((t.space p).pagetable = (s.space p).pagetable ∨ ∃ pa, (t.space p).pagetable = add (s.space p).pagetable pa) ∧
      (find (t.space p).pagetable).isSome = b ∧ (b = false → t.frees = [])) E s := by
  unfold walkLevel
  rw [wp_bind, wp_get]
  cases hl : find (s.space p).pagetable with
  | some f => exact ⟨.refl s, .inl rfl, by rw [hl]; rfl, fun h => absurd h (by decide)⟩
  | none =>
    dsimp only
    rw [if_pos rfl, wp_bind]
    refine wp_mono allocPage_frees ?_ (fun _ h => h)
    rintro r t ⟨hmem, hspace, ⟨rfl, hempty, hempty'⟩ | ⟨f, rfl, hfree⟩⟩
    · have htable : (t.space p).pagetable = (s.space p).pagetable := by rw [hspace]
      refine ⟨⟨hmem, ?_, fun q _ => by rw [hspace], by rw [hspace], fun v => ?_, fun v hv => ?_, fun _ => htable⟩,
        .inl htable, by rw [htable, hl]; rfl, fun _ => hempty'⟩
      · rw [hempty']
        exact List.nil_suffix
      · rw [Vm.entry, htable]
        rfl
      · rwa [htable]
    · dsimp only
      rw [wp_bind, wp_modify, wp_pure]
      have htable : ((t.setTable p (add · f)).space p).pagetable = add (s.space p).pagetable f := by
        simp [Vm.setTable, hspace]
      refine ⟨⟨hmem, ?_, fun q hq => ?_, ?_, fun v => ?_, fun v hv => ?_, fun hs => ?_⟩, .inr ⟨f, htable⟩,
        by rw [htable]; exact hfind _ _, fun h => absurd h (by decide)⟩
      · rw [hfree]
        exact List.suffix_cons f _
      · simp [Vm.setTable, hq, hspace]
      · simp [Vm.setTable, hspace]
      · rw [Vm.entry, htable, hentry _ _ hl]
        rfl
      · rw [htable]
        exact hhas _ f v hl hv
      · rw [hs] at hfree
        cases hfree

lemma pageWalk_widened (hlt : va < maxva) :
    wp (pageWalk p va true) (fun r t => Widened p s t ∧
      ((r = some (va / 4096) ∧ (t.space p).pagetable.Has (va / 4096)) ∨
        (r = none ∧ t.frees = [] ∧ ¬ (t.space p).pagetable.Has (va / 4096)))) E s := by
  have hmid : va / 2 ^ 30 = va / 4096 / 512 / 512 := by omega
  have hlow : va / 2 ^ 21 = va / 4096 / 512 := by omega
  unfold pageWalk
  rw [if_neg (not_le.mpr hlt), wp_bind, hmid, hlow]
  refine wp_mono (walkLevel_widened (fun T f => by simp [PageTable.addMid])
    (fun T f h => PageTable.entry_addMid h f) (fun T f v h hv => ?_)) ?_ (fun _ h => h)
  · refine ⟨?_, ?_⟩
    · have hne : v / 512 / 512 ≠ va / 4096 / 512 / 512 := by
        intro heq
        have := hv.1
        rw [heq, h] at this
        cases this
      simpa [PageTable.addMid, hne] using hv.1
    · have hne : v / 512 / 512 ≠ va / 4096 / 512 / 512 := by
        intro heq
        have := hv.1
        rw [heq, h] at this
        cases this
      simpa [PageTable.addMid, hne] using hv.2
  rintro b t ⟨ht, -, hb, hempty⟩
  cases b with
  | false =>
    refine ⟨ht, .inr ⟨rfl, hempty rfl, fun h => ?_⟩⟩
    rw [h.1] at hb
    cases hb
  | true =>
    rw [if_pos rfl, wp_bind]
    refine wp_mono (walkLevel_widened (fun T f => by simp [PageTable.addLow])
      (fun T f h => PageTable.entry_addLow h f) (fun T f v h hv => ?_)) ?_ (fun _ h => h)
    · refine ⟨hv.1, ?_⟩
      by_cases heq : v / 512 = va / 4096 / 512
      · simp [PageTable.addLow, heq]
      · simpa [PageTable.addLow, heq] using hv.2
    rintro b u ⟨hu, htable, hb', hempty'⟩
    have hmid' : ((u.space p).pagetable.mid (va / 4096 / 512 / 512)).isSome = true := by
      rcases htable with h | ⟨f, h⟩
      · rw [h]
        exact hb
      · rw [h]
        exact hb
    cases b with
    | false =>
      refine ⟨ht.trans hu, .inr ⟨rfl, hempty' rfl, fun h => ?_⟩⟩
      rw [h.2] at hb'
      cases hb'
    | true => exact ⟨ht.trans hu, .inl ⟨rfl, hmid', hb'⟩⟩

structure Entered (p : Pid) (v : ℕ) (e : Pte) (s t : Vm) : Prop where
  mem : t.mem = s.mem
  free : t.frees <:+ s.frees
  others : ∀ q, q ≠ p → t.space q = s.space q
  fields : t.space p = { s.space p with pagetable := (t.space p).pagetable }
  entry : t.entry p = update (s.entry p) v e
  was : (s.entry p v).v = false
  stuck : s.frees = [] → ∀ w, (t.space p).pagetable.Has w → (s.space p).pagetable.Has w

lemma Widened.enter (h : Widened p s t) (hhas : (t.space p).pagetable.Has v) (hv : (s.entry p v).v = false) :
    Entered p v e s (t.setTable p (·.setPte v e)) where
  mem := h.mem
  free := h.free
  others q hq := by simp [Vm.setTable, hq, h.others q hq]
  fields := by
    simp only [Vm.setTable, Vm.setSpace_self]
    rw [h.fields]
  entry := by
    funext w
    simp only [Vm.entry, Vm.setTable, Vm.setSpace_self]
    rw [PageTable.entry_setPte hhas]
    have hentry : (t.space p).pagetable.entry = (s.space p).pagetable.entry := funext h.entry
    rw [hentry]
    rfl
  was := hv
  stuck hs w hw := by
    simp only [Vm.setTable, Vm.setSpace_self, PageTable.has_setPte] at hw
    rwa [h.stuck hs] at hw

lemma mapPages_entered (hva : va % 4096 = 0) (hlt : va < maxva) :
    wp (mapPages p va 4096 pa perm) (fun b t =>
      (b = true ∧ Entered p (va / 4096) (Pte.leaf pa perm) s t) ∨
        (b = false ∧ Widened p s t ∧ t.frees = [] ∧ ¬ (t.space p).pagetable.Has (va / 4096))) (fun _ => True) s := by
  have hfirst : roundDown va = va := by
    unfold roundDown
    omega
  unfold mapPages
  dsimp only
  rw [pagesBelow_page hva (hlt.trans (by decide)), hfirst, all, wp_bind, wp_bind, Nat.sub_self, Nat.add_zero]
  refine wp_mono (pageWalk_widened hlt) ?_ (fun _ h => h)
  rintro r t ⟨ht, ⟨rfl, hhas⟩ | ⟨rfl, hempty, hnot⟩⟩
  · have hpte : (t.space p).pagetable.pte (va / 4096) = s.entry p (va / 4096) := by
      rw [← PageTable.entry_of_has hhas]
      exact ht.entry _
    dsimp only
    rw [wp_bind, wp_get, hpte, wp_ite]
    refine ⟨fun _ => trivial, fun hv => ?_⟩
    rw [wp_bind, setPte, wp_modify, wp_pure, if_pos rfl, all, wp_pure]
    exact .inl ⟨rfl, ht.enter hhas (by simpa using hv)⟩
  · exact .inr ⟨rfl, ht, hempty, hnot⟩

lemma userVmMap_entered (hva : va % 4096 = 0) (hlt : va < maxva) :
    wp (userVmMap p va 4096 pa perm) (fun _ => Entered p (va / 4096) (Pte.leaf pa perm) s) (fun _ => True) s := by
  unfold userVmMap
  rw [wp_bind]
  refine wp_mono (mapPages_entered hva hlt) ?_ (fun _ h => h)
  rintro b t (⟨rfl, ht⟩ | ⟨rfl, -⟩)
  · exact ht
  · exact trivial

def SameBytes (t : Vm) (f : ℕ) (s : Vm) (g : ℕ) : Prop := ∀ o < 4096, t.mem (f + o) = s.mem (g + o)

namespace SameBytes

variable {f g k : ℕ}

lemma trans (h : SameBytes u f t g) (h' : SameBytes t g s k) : SameBytes u f s k :=
  fun o ho => (h o ho).trans (h' o ho)

lemma of_mem (h : t.mem = s.mem) : SameBytes t f s f := fun _ _ => by rw [h]

end SameBytes

structure Added (p : Pid) (v : ℕ) (e : Pte) (s t : Vm) : Prop where
  bytes : ∀ f, f % 4096 = 0 → f ∉ s.frees → SameBytes t f s f
  free : t.frees <:+ s.frees
  others : ∀ q, q ≠ p → t.space q = s.space q
  fields : t.space p = { s.space p with pagetable := (t.space p).pagetable }
  entry : t.entry p = update (s.entry p) v e
  was : (s.entry p v).v = false
  stuck : s.frees = [] → ∀ w, (t.space p).pagetable.Has w → (s.space p).pagetable.Has w

namespace Added

lemma entry_self (h : Added p v e s t) : t.entry p v = e := by rw [h.entry, update_self]

lemma entry_of_ne (h : Added p v e s t) (hw : w ≠ v) : t.entry p w = s.entry p w := by rw [h.entry, update_of_ne hw]

lemma entry_of_valid (h : Added p v e s t) (hw : (s.entry p w).v = true) : t.entry p w = s.entry p w := by
  refine h.entry_of_ne ?_
  rintro rfl
  rw [h.was] at hw
  cases hw

end Added

lemma allocOrNull_frees :
    wp allocOrNull (fun f t => t.mem = s.mem ∧ t.space = s.space ∧ (f ≠ 0 → s.frees = f :: t.frees)) E s := by
  unfold allocOrNull
  rw [wp_bind]
  refine wp_mono allocPage_frees ?_ (fun _ h => h)
  rintro r t ⟨hmem, hspace, ⟨rfl, -, -⟩ | ⟨f, rfl, hf⟩⟩
  · exact ⟨hmem, hspace, fun h => absurd rfl h⟩
  · exact ⟨hmem, hspace, fun _ => hf⟩

end Pke.Memory
