import Pke.Lib.Yields
import Pke.Memory.HeapEffects

namespace Pke.Memory

open Lib Flow Function Processes

variable {s t u : Vm} {p : Pid} {va v f n m pa : ℕ} {rest : List ℕ} {perm : Pte}

namespace Vm

def took (s : Vm) (f : ℕ) (rest : List ℕ) : Vm :=
  { s with pmm :=
      if s.pmm.index f < s.pmm.maxPages then { s.pmm with gFreeMemList := rest }.setRef f 1
      else { s.pmm with gFreeMemList := rest } }

lemma took_list : (s.took f rest).pmm.gFreeMemList = rest := by
  unfold took
  split_ifs <;> rfl

lemma took_bounds : s.pmm.SameBounds (s.took f rest).pmm := by
  unfold took
  split_ifs <;> exact ⟨rfl, rfl⟩

lemma took_ref (h : s.pmm.Managed f) : (s.took f rest).pmm.ref = update s.pmm.ref f 1 := by
  unfold took
  rw [if_pos h.2.2]
  exact Pmm.ref_pop h rest

end Vm

lemma allocPage_nil (h : s.pmm.gFreeMemList = []) : allocPage s = .done none s := by
  rw [allocPage, get_bind, h]
  rfl

lemma allocPage_cons (h : s.pmm.gFreeMemList = f :: rest) : allocPage s = .done (some f) (s.took f rest) := by
  rw [allocPage, get_bind, h]
  simp only [modify_bind, Vm.took]
  split_ifs <;> rfl

lemma freePage_eq (h : s.pmm.Managed pa) : freePage pa s = .done () (s.release pa) := by
  have hguard : ¬ (pa % 4096 ≠ 0 ∨ ¬ s.pmm.Covers pa ∨ s.pmm.maxPages ≤ s.pmm.index pa) := by
    rw [not_or, not_or, not_not, not_not, not_le]
    exact h
  have href : s.pmm.pageRefCount (s.pmm.index pa) = s.pmm.ref pa := by rw [Pmm.ref, if_pos h]
  rw [freePage, get_bind, if_neg hguard, href, modify_bind]
  unfold Vm.release Pmm.release
  split_ifs <;> rfl

lemma freePage_yields : yields (freePage pa) (fun _ t => s.pmm.Managed pa ∧ t = s.release pa) s :=
  yields_of_wp (E := fun _ => True) (wp_freePage fun h => ⟨h, rfl⟩)

structure Spends (p : Pid) (n : ℕ) (s t : Vm) : Prop where
  same : s.SameFields t
  other : ∀ q, q ≠ p → t.space q = s.space q
  mem : t.mem = s.mem
  le : n ≤ s.pmm.gFreeMemList.length
  free : t.pmm.gFreeMemList = s.pmm.gFreeMemList.drop n
  ref : (∀ f ∈ s.pmm.gFreeMemList, s.pmm.Managed f) → ∀ f ∉ s.pmm.gFreeMemList.take n, t.pmm.ref f = s.pmm.ref f
  has : ∀ v, (s.space p).pagetable.Has v → (t.space p).pagetable.Has v

namespace Spends

lemma refl (p : Pid) (s : Vm) : Spends p 0 s s :=
  ⟨.refl s, fun _ _ => rfl, rfl, Nat.zero_le _, rfl, fun _ _ _ => rfl, fun _ h => h⟩

lemma managed (h : Spends p n s t) (hm : ∀ f ∈ s.pmm.gFreeMemList, s.pmm.Managed f) :
    ∀ f ∈ t.pmm.gFreeMemList, t.pmm.Managed f := by
  intro f hf
  rw [h.free] at hf
  exact (h.same.bounds.managed f).mpr (hm f (List.mem_of_mem_drop hf))

lemma trans (h : Spends p n s t) (h' : Spends p m t u) : Spends p (n + m) s u where
  same := h.same.trans h'.same
  other q hq := (h'.other q hq).trans (h.other q hq)
  mem := h'.mem.trans h.mem
  le := by
    have := h.le
    have := h'.le
    rw [h.free, List.length_drop] at this
    omega
  free := by rw [h'.free, h.free, List.drop_drop]
  ref hm f hf := by
    rw [List.take_add, List.mem_append, not_or, ← h.free] at hf
    rw [h'.ref (h.managed hm) f hf.2, h.ref hm f hf.1]
  has v hv := h'.has v (h.has v hv)

lemma took (p : Pid) (h : s.pmm.gFreeMemList = f :: rest) : Spends p 1 s (s.took f rest) where
  same := ⟨Vm.took_bounds, rfl, fun _ => rfl⟩
  other _ _ := rfl
  mem := rfl
  le := by simp [h]
  free := by rw [Vm.took_list, h]; rfl
  ref hm g hg := by
    rw [h, List.take_one, List.head?_cons, Option.toList_some, List.mem_singleton] at hg
    rw [Vm.took_ref (hm f (by simp [h])), update_of_ne hg]
  has _ hv := hv

lemma setTable {g : PageTable → PageTable} (h : Spends p n s t)
    (hg : ∀ v, (t.space p).pagetable.Has v → (g (t.space p).pagetable).Has v) : Spends p n s (t.setTable p g) where
  same := h.same.setTable p g
  other q hq := (Vm.setSpace_of_ne t hq _).trans (h.other q hq)
  mem := h.mem
  le := h.le
  free := h.free
  ref := h.ref
  has v hv := by
    rw [Vm.setTable, Vm.setSpace_self]
    exact hg v (h.has v hv)

end Spends

lemma Vm.entry_setTable (s : Vm) (p : Pid) (g : PageTable → PageTable) :
    (s.setTable p g).entry p = (g (s.space p).pagetable).entry := by
  funext v
  rw [Vm.entry, Vm.setTable, Vm.setSpace_self]

def PageTable.missing (t : PageTable) (v : ℕ) : ℕ :=
  if t.mid (v / 512 / 512) = none then 2 else if t.low (v / 512) = none then 1 else 0

lemma PageTable.missing_eq_zero {t : PageTable} : t.missing v = 0 ↔ t.Has v := by
  unfold missing Has
  rw [Option.isSome_iff_ne_none, Option.isSome_iff_ne_none]
  split_ifs with hmid hlow
  · simp [hmid]
  · simp [hlow]
  · simp [hmid, hlow]

section Walk

variable {find : PageTable → Option ℕ} {add : PageTable → ℕ → PageTable}

lemma walkLevel_found (h : find (s.space p).pagetable = some f) : walkLevel p true find add s = .done true s := by
  rw [walkLevel, get_bind, h]
  rfl

lemma walkLevel_nil (h : find (s.space p).pagetable = none) (hl : s.pmm.gFreeMemList = []) :
    walkLevel p true find add s = .done false s := by
  rw [walkLevel, get_bind, h]
  simp only [if_pos]
  rw [bind_done (allocPage_nil hl)]
  rfl

lemma walkLevel_cons (h : find (s.space p).pagetable = none) (hl : s.pmm.gFreeMemList = f :: rest) :
    walkLevel p true find add s = .done true ((s.took f rest).setTable p (add · f)) := by
  rw [walkLevel, get_bind, h]
  simp only [if_pos]
  rw [bind_done (allocPage_cons hl)]
  rfl

lemma spends_mid (h : (s.space p).pagetable.mid (v / 512 / 512) = none) (hl : s.pmm.gFreeMemList = f :: rest) :
    Spends p 1 s ((s.took f rest).setTable p (·.addMid (v / 512 / 512) f)) := by
  apply (Spends.took p hl).setTable
  intro w hw
  have hne : w / 512 / 512 ≠ v / 512 / 512 := by
    intro he
    have hmid : ((s.space p).pagetable.mid (w / 512 / 512)).isSome := hw.1
    rw [he, h] at hmid
    cases hmid
  have hw' : (s.space p).pagetable.Has w := hw
  simpa [PageTable.Has, PageTable.addMid, hne, Vm.took] using hw'

lemma spends_low (hl : s.pmm.gFreeMemList = f :: rest) :
    Spends p 1 s ((s.took f rest).setTable p (·.addLow (v / 512) f)) := by
  apply (Spends.took p hl).setTable
  intro w hw
  have hw' : (s.space p).pagetable.Has w := hw
  by_cases he : w / 512 = v / 512
  · simpa [PageTable.Has, PageTable.addLow, he, Vm.took] using hw'.1
  · simpa [PageTable.Has, PageTable.addLow, he, Vm.took] using hw'

lemma walkLevel_false : walkLevel p false find add s = .done (find (s.space p).pagetable).isSome s := by
  rw [walkLevel, get_bind]
  cases find (s.space p).pagetable <;> rfl

lemma pageWalk_false (hva : va < maxva) : pageWalk p va false s = .done ((s.space p).pagetable.walk va) s := by
  rw [pageWalk, if_neg (by omega), bind_done walkLevel_false]
  cases hmid : (s.space p).pagetable.mid (va / 2 ^ 30) with
  | none =>
    rw [PageTable.walk, hmid]
    rfl
  | some f =>
    rw [Option.isSome_some, if_pos rfl, bind_done walkLevel_false, PageTable.walk, hmid]
    cases (s.space p).pagetable.low (va / 2 ^ 21) <;> rfl

lemma pageWalk_eq (hva : va < maxva) : pageWalk p va true s = (do
    if ← walkLevel p true (·.mid (va / 4096 / 512 / 512)) (·.addMid (va / 4096 / 512 / 512)) then
      if ← walkLevel p true (·.low (va / 4096 / 512)) (·.addLow (va / 4096 / 512)) then
        pure (some (va / 4096))
      else pure none
    else pure none) s := by
  have hmid : va / 2 ^ 30 = va / 4096 / 512 / 512 := by omega
  have hlow : va / 2 ^ 21 = va / 4096 / 512 := by omega
  rw [pageWalk, if_neg (by omega), hmid, hlow]

lemma pageWalk_has (hva : va < maxva) (h : (s.space p).pagetable.Has (va / 4096)) :
    pageWalk p va true s = .done (some (va / 4096)) s := by
  obtain ⟨f, hmid⟩ := Option.isSome_iff_exists.mp h.1
  obtain ⟨g, hlow⟩ := Option.isSome_iff_exists.mp h.2
  rw [pageWalk_eq hva, bind_done (walkLevel_found hmid), if_pos rfl, bind_done (walkLevel_found hlow)]
  rfl

lemma walkLow (v : ℕ) (h : (s.space p).pagetable.mid (v / 512 / 512) ≠ none) :
    let k := (s.space p).pagetable.missing v
    (k ≤ s.pmm.gFreeMemList.length → ∃ t, walkLevel p true (·.low (v / 512)) (·.addLow (v / 512)) s = .done true t ∧
      Spends p k s t ∧ t.entry p = s.entry p ∧ (t.space p).pagetable.Has v) ∧
    (s.pmm.gFreeMemList.length < k → walkLevel p true (·.low (v / 512)) (·.addLow (v / 512)) s = .done false s ∧
      s.pmm.gFreeMemList = []) := by
  intro k
  cases hlow : (s.space p).pagetable.low (v / 512) with
  | some g =>
    have hk : k = 0 := PageTable.missing_eq_zero.mpr ⟨Option.isSome_iff_ne_none.mpr h, by rw [hlow]; rfl⟩
    rw [hk]
    refine ⟨fun _ => ⟨s, walkLevel_found hlow, .refl p s, rfl, PageTable.missing_eq_zero.mp hk⟩, fun hlt => ?_⟩
    omega
  | none =>
    have hk : k = 1 := by simp [k, PageTable.missing, h, hlow]
    rw [hk]
    constructor
    · intro hle
      obtain ⟨f, rest, hl⟩ := List.exists_cons_of_length_pos hle
      refine ⟨_, walkLevel_cons hlow hl, spends_low hl, ?_, ?_⟩
      · rw [Vm.entry_setTable]
        exact PageTable.entry_addLow hlow f
      · have hmid := Option.isSome_iff_ne_none.mpr h
        simp [PageTable.Has, Vm.setTable, PageTable.addLow, Vm.took, hmid]
    · intro hlt
      have hl : s.pmm.gFreeMemList = [] := List.length_eq_zero_iff.mp (by omega)
      exact ⟨walkLevel_nil hlow hl, hl⟩

lemma pageWalk_enough (hva : va < maxva)
    (h : (s.space p).pagetable.missing (va / 4096) ≤ s.pmm.gFreeMemList.length) :
    ∃ t, pageWalk p va true s = .done (some (va / 4096)) t ∧
      Spends p ((s.space p).pagetable.missing (va / 4096)) s t ∧ t.entry p = s.entry p ∧
        (t.space p).pagetable.Has (va / 4096) := by
  rw [pageWalk_eq hva]
  generalize va / 4096 = v at h ⊢
  cases hmid : (s.space p).pagetable.mid (v / 512 / 512) with
  | some g =>
    obtain ⟨t, hrun, ht⟩ := (walkLow v (by rw [hmid]; simp)).1 h
    refine ⟨t, ?_, ht⟩
    rw [bind_done (walkLevel_found hmid), if_pos rfl, bind_done hrun]
    rfl
  | none =>
    have hk : (s.space p).pagetable.missing v = 2 := by simp [PageTable.missing, hmid]
    rw [hk] at h ⊢
    obtain ⟨f, rest, hl⟩ := List.exists_cons_of_length_pos (l := s.pmm.gFreeMemList) (by omega)
    have hspent := spends_mid hmid hl
    generalize hu : (s.took f rest).setTable p (·.addMid (v / 512 / 512) f) = u at hspent
    have hentry : u.entry p = s.entry p := by
      rw [← hu, Vm.entry_setTable]
      exact PageTable.entry_addMid hmid f
    have hmidu : (u.space p).pagetable.mid (v / 512 / 512) ≠ none := by
      simp [← hu, Vm.setTable, PageTable.addMid]
    have hku : (u.space p).pagetable.missing v = 1 := by
      have hlowu : (u.space p).pagetable.low (v / 512) = none := by simp [← hu, Vm.setTable, PageTable.addMid]
      simp [PageTable.missing, hmidu, hlowu]
    have hlen : 1 ≤ u.pmm.gFreeMemList.length := by
      rw [hspent.free, List.length_drop]
      omega
    obtain ⟨t, hrun, ht, het, hhas⟩ := (walkLow v hmidu).1 (by rw [hku]; exact hlen)
    rw [hku] at ht
    refine ⟨t, ?_, hspent.trans ht, het.trans hentry, hhas⟩
    rw [bind_done (walkLevel_cons hmid hl), if_pos rfl, hu, bind_done hrun]
    rfl

lemma pageWalk_short (hva : va < maxva)
    (h : s.pmm.gFreeMemList.length < (s.space p).pagetable.missing (va / 4096)) :
    ∃ t, pageWalk p va true s = .done none t ∧ Spends p s.pmm.gFreeMemList.length s t ∧ t.entry p = s.entry p := by
  rw [pageWalk_eq hva]
  generalize va / 4096 = v at h ⊢
  cases hmid : (s.space p).pagetable.mid (v / 512 / 512) with
  | some g =>
    obtain ⟨hrun, hl⟩ := (walkLow v (by rw [hmid]; simp)).2 h
    refine ⟨s, ?_, by rw [hl]; exact .refl p s, rfl⟩
    rw [bind_done (walkLevel_found hmid), if_pos rfl, bind_done hrun]
    rfl
  | none =>
    have hk : (s.space p).pagetable.missing v = 2 := by simp [PageTable.missing, hmid]
    rw [hk] at h
    cases hl : s.pmm.gFreeMemList with
    | nil =>
      refine ⟨s, ?_, .refl p s, rfl⟩
      rw [bind_done (walkLevel_nil hmid hl)]
      rfl
    | cons f rest =>
      have hrest : rest = [] := by
        rw [hl, List.length_cons] at h
        exact List.length_eq_zero_iff.mp (by omega)
      have hspent := spends_mid hmid hl
      generalize hu : (s.took f rest).setTable p (·.addMid (v / 512 / 512) f) = u at hspent
      have hentry : u.entry p = s.entry p := by
        rw [← hu, Vm.entry_setTable]
        exact PageTable.entry_addMid hmid f
      have hlowu : (u.space p).pagetable.low (v / 512) = none := by simp [← hu, Vm.setTable, PageTable.addMid]
      have hlu : u.pmm.gFreeMemList = [] := by rw [hspent.free, hl, hrest]; rfl
      refine ⟨u, ?_, by rw [hrest]; exact hspent, hentry⟩
      rw [bind_done (walkLevel_cons hmid hl), if_pos rfl, hu, bind_done (walkLevel_nil hlowu hlu)]
      rfl

end Walk

section Map

lemma roundDown_aligned (a : ℕ) : roundDown a % 4096 = 0 := Nat.mul_mod_left _ _
lemma roundDown_div (a : ℕ) : roundDown a / 4096 = a / 4096 := Nat.mul_div_cancel _ (by norm_num)
lemma roundDown_le (a : ℕ) : roundDown a ≤ a := Nat.div_mul_le_self a 4096

lemma maxva_lt : maxva < 2 ^ 64 := by norm_num

def mapPage (p : Pid) (va pa : ℕ) (perm : Pte) : Flow Vm Bool := do
  match ← pageWalk p va true with
  | none => pure false
  | some v =>
    if (((← get).space p).pagetable.pte v).v then leave
    else do
      setPte p v (Pte.leaf pa perm)
      pure true

lemma mapPages_single (hal : va % 4096 = 0) (hva : va < 2 ^ 64) (p : Pid) (pa : ℕ) (perm : Pte) :
    mapPages p va 4096 pa perm = mapPage p va pa perm >>= fun b => if b then pure true else pure false := by
  have hfirst : roundDown va = va := by
    unfold roundDown
    omega
  unfold mapPages
  dsimp only
  rw [pagesBelow_page hal hva, hfirst, all, Nat.sub_self, Nat.add_zero]
  rfl

lemma mapPage_valid (hva : va < maxva) (hv : (s.entry p (va / 4096)).v = true) : mapPage p va pa perm s = .left s := by
  have hhas := PageTable.has_of_valid hv
  have hpte : ((s.space p).pagetable.pte (va / 4096)).v = true := by rwa [← PageTable.entry_of_has hhas]
  rw [mapPage, bind_done (pageWalk_has hva hhas)]
  simp only []
  rw [get_bind, if_pos hpte]
  rfl

lemma mapPage_enough (hva : va < maxva) (hv : (s.entry p (va / 4096)).v = false)
    (h : (s.space p).pagetable.missing (va / 4096) ≤ s.pmm.gFreeMemList.length) (pa : ℕ) (perm : Pte) :
    ∃ t, mapPage p va pa perm s = .done true t ∧ Spends p ((s.space p).pagetable.missing (va / 4096)) s t ∧
      t.entry p = update (s.entry p) (va / 4096) (Pte.leaf pa perm) := by
  obtain ⟨u, hwalk, hspent, hentry, hhas⟩ := pageWalk_enough hva h
  have hpte : ((u.space p).pagetable.pte (va / 4096)).v = false := by
    rw [← PageTable.entry_of_has hhas]
    change (u.entry p _).v = false
    rw [hentry, hv]
  refine ⟨u.setTable p (·.setPte (va / 4096) (Pte.leaf pa perm)), ?_, hspent.setTable fun _ h => h, ?_⟩
  · rw [mapPage, bind_done hwalk]
    simp only []
    rw [get_bind, if_neg (by rw [hpte]; decide)]
    rfl
  · rw [Vm.entry_setTable, PageTable.entry_setPte hhas, ← hentry]
    rfl

lemma mapPage_short (hva : va < maxva)
    (h : s.pmm.gFreeMemList.length < (s.space p).pagetable.missing (va / 4096)) (pa : ℕ) (perm : Pte) :
    ∃ t, mapPage p va pa perm s = .done false t ∧ Spends p s.pmm.gFreeMemList.length s t ∧ t.entry p = s.entry p := by
  obtain ⟨t, hwalk, ht⟩ := pageWalk_short hva h
  refine ⟨t, ?_, ht⟩
  rw [mapPage, bind_done hwalk]
  rfl

lemma userVmMap_single (hal : va % 4096 = 0) (hva : va < 2 ^ 64) (p : Pid) (pa : ℕ) (perm : Pte) :
    userVmMap p va 4096 pa perm = mapPage p va pa perm >>= fun b => if b then pure () else leave := by
  rw [userVmMap, mapPages_single hal hva, bind_bind]
  congr
  funext b
  cases b <;> rfl

lemma userVmMap_beyond (hal : va % 4096 = 0) (hva : va < 2 ^ 64) (hmax : maxva ≤ va) :
    userVmMap p va 4096 pa perm s = .left s := by
  have hwalk : pageWalk p va true s = .left s := by
    rw [pageWalk, if_pos hmax]
    rfl
  have hpage : mapPage p va pa perm s = .left s := by rw [mapPage, bind_left hwalk]
  rw [userVmMap_single hal hva, bind_left hpage]

lemma userVmMap_valid (hal : va % 4096 = 0) (hva : va < maxva) (hv : (s.entry p (va / 4096)).v = true) :
    userVmMap p va 4096 pa perm s = .left s := by
  rw [userVmMap_single hal (hva.trans maxva_lt), bind_left (mapPage_valid hva hv)]

lemma userVmMap_enough (hal : va % 4096 = 0) (hva : va < maxva) (hv : (s.entry p (va / 4096)).v = false)
    (h : (s.space p).pagetable.missing (va / 4096) ≤ s.pmm.gFreeMemList.length) (pa : ℕ) (perm : Pte) :
    ∃ t, userVmMap p va 4096 pa perm s = .done () t ∧ Spends p ((s.space p).pagetable.missing (va / 4096)) s t ∧
      t.entry p = update (s.entry p) (va / 4096) (Pte.leaf pa perm) := by
  obtain ⟨t, hpage, ht⟩ := mapPage_enough hva hv h pa perm
  refine ⟨t, ?_, ht⟩
  rw [userVmMap_single hal (hva.trans maxva_lt), bind_done hpage]
  rfl

lemma userVmMap_has (hal : va % 4096 = 0) (hva : va < maxva) (hv : (s.entry p (va / 4096)).v = false)
    (h : (s.space p).pagetable.Has (va / 4096)) (pa : ℕ) (perm : Pte) :
    userVmMap p va 4096 pa perm s = .done () (s.setTable p (·.setPte (va / 4096) (Pte.leaf pa perm))) := by
  have hpte : ((s.space p).pagetable.pte (va / 4096)).v = false := by rwa [← PageTable.entry_of_has h]
  have hpage : mapPage p va pa perm s = .done true (s.setTable p (·.setPte (va / 4096) (Pte.leaf pa perm))) := by
    rw [mapPage, bind_done (pageWalk_has hva h)]
    simp only []
    rw [get_bind, if_neg (by rw [hpte]; decide)]
    rfl
  rw [userVmMap_single hal (hva.trans maxva_lt), bind_done hpage]
  rfl

lemma userVmMap_short (hal : va % 4096 = 0) (hva : va < maxva)
    (h : s.pmm.gFreeMemList.length < (s.space p).pagetable.missing (va / 4096)) (pa : ℕ) (perm : Pte) :
    ∃ t, userVmMap p va 4096 pa perm s = .left t ∧ Spends p s.pmm.gFreeMemList.length s t ∧ t.entry p = s.entry p := by
  obtain ⟨t, hpage, ht⟩ := mapPage_short hva h pa perm
  refine ⟨t, ?_, ht⟩
  rw [userVmMap_single hal (hva.trans maxva_lt), bind_done hpage]
  rfl

end Map

structure Adds (p : Pid) (n : ℕ) (s t : Vm) : Prop extends Spends p n s t where
  entry : ∀ v, t.entry p v = s.entry p v ∨
    (s.entry p v).v = false ∧ ∃ f ∈ s.pmm.gFreeMemList, t.entry p v = Pte.leaf f userRw

namespace Adds

lemma refl (p : Pid) (s : Vm) : Adds p 0 s s := ⟨.refl p s, fun _ => .inl rfl⟩

lemma entry_of_valid (h : Adds p n s t) (hv : (s.entry p v).v = true) : t.entry p v = s.entry p v := by
  rcases h.entry v with he | ⟨hf, -⟩
  · exact he
  · rw [hv] at hf
    cases hf

lemma valid (h : Adds p n s t) (hv : (s.entry p v).v = true) : (t.entry p v).v = true := by
  rwa [h.entry_of_valid hv]

lemma trans (h : Adds p n s t) (h' : Adds p m t u) : Adds p (n + m) s u := by
  refine ⟨h.toSpends.trans h'.toSpends, fun v => ?_⟩
  rcases h'.entry v with he | ⟨hv, f, hf, he⟩
  · rw [he]
    exact h.entry v
  · have hfs : f ∈ s.pmm.gFreeMemList := by
      rw [h.free] at hf
      exact List.mem_of_mem_drop hf
    rcases h.entry v with hs | ⟨hs, -⟩
    · exact .inr ⟨by rwa [← hs], f, hfs, he⟩
    · exact .inr ⟨hs, f, hfs, he⟩

end Adds

structure Pool (m : Pmm) : Prop where
  managed : ∀ f ∈ m.gFreeMemList, m.Managed f
  nodup : m.gFreeMemList.Nodup

lemma Spends.ref_taken (h : Spends p n s t) (h' : Spends p m t u) (hs : Pool s.pmm)
    (hf : f ∈ s.pmm.gFreeMemList.take n) : u.pmm.ref f = t.pmm.ref f := by
  apply h'.ref (h.managed hs.managed)
  intro hin
  rw [h.free] at hin
  have hnodup := hs.nodup
  rw [← List.take_append_drop n s.pmm.gFreeMemList] at hnodup
  exact List.disjoint_of_nodup_append hnodup hf (List.mem_of_mem_take hin)

structure Fills (p : Pid) (va : ℕ) (s t : Vm) : Prop where
  low : va < maxva
  unmapped : (s.entry p (va / 4096)).v = false
  adds : Adds p ((s.space p).pagetable.missing (va / 4096) + 1) s t
  entry : ∃ f rest, s.pmm.gFreeMemList = f :: rest ∧ t.entry p = update (s.entry p) (va / 4096) (Pte.leaf f userRw) ∧
    (Pool s.pmm → t.pmm.ref f = 1)
  has : (s.space p).pagetable.Has (va / 4096) → ∀ w, (t.space p).pagetable.Has w → (s.space p).pagetable.Has w

lemma fills_of_map (hal : va % 4096 = 0) (hl : s.pmm.gFreeMemList = f :: rest)
    (h : userVmMap p va 4096 f userRw (s.took f rest) = .done () t) (hva : va < maxva) : Fills p va s t := by
  have hv : (s.entry p (va / 4096)).v = false := by
    by_contra hv
    rw [userVmMap_valid hal hva (s := s.took f rest) (Bool.eq_true_of_not_eq_false hv)] at h
    cases h
  have htook := Spends.took p hl
  rcases lt_or_ge (s.took f rest).pmm.gFreeMemList.length ((s.space p).pagetable.missing (va / 4096)) with hm | hm
  · obtain ⟨u, hu, -⟩ := userVmMap_short (s := s.took f rest) hal hva hm f userRw
    cases h.symm.trans hu
  · obtain ⟨u, hu, hspent, hentry⟩ := userVmMap_enough (s := s.took f rest) hal hva hv hm f userRw
    cases h.symm.trans hu
    refine ⟨hva, hv, ⟨?_, fun v => ?_⟩, ⟨f, rest, hl, hentry, fun hs => ?_⟩, fun hhas w hw => ?_⟩
    · rw [Nat.add_comm]
      exact htook.trans hspent
    · rw [hentry]
      by_cases hvv : v = va / 4096
      · rw [hvv, update_self]
        exact .inr ⟨hv, f, by simp [hl], rfl⟩
      · rw [update_of_ne hvv]
        exact .inl rfl
    · rw [htook.ref_taken hspent hs (by simp [hl]), Vm.took_ref (hs.managed f (by simp [hl])), update_self]
    · cases h.symm.trans (userVmMap_has (s := s.took f rest) hal hva hv hhas f userRw)
      rw [Vm.setTable, Vm.setSpace_self] at hw
      exact hw

lemma mapFresh_yields (hal : va % 4096 = 0) (hva : va < 2 ^ 64) :
    yields (mapFresh p va) (fun b t => if b then Fills p va s t else t = s ∧ s.pmm.gFreeMemList = []) s := by
  cases hl : s.pmm.gFreeMemList with
  | nil =>
    refine yields_bind_done (allocPage_nil hl) ?_
    exact yields_pure ⟨rfl, rfl⟩
  | cons f rest =>
    refine yields_bind_done (allocPage_cons hl) ?_
    refine yields_bind ?_
    rcases lt_or_ge va maxva with hlt | hge
    · intro _ t ht
      exact yields_pure (fills_of_map hal hl ht hlt)
    · exact yields_left (userVmMap_beyond hal hva hge)

lemma userVmUnmap_eq (hal : va % 4096 = 0) (hva : va < maxva) (hv : (s.entry p (va / 4096)).v = true)
    (hleaf : (s.entry p (va / 4096)).onlyValid = false) (hm : s.pmm.Managed (s.entry p (va / 4096)).pa) :
    userVmUnmap p va 4096 true s = .done () (s.unmapped p (va / 4096)) := by
  have hhas := PageTable.has_of_valid hv
  have hpte : (s.space p).pagetable.pte (va / 4096) = s.entry p (va / 4096) := (PageTable.entry_of_has hhas).symm
  have hwalk : pageWalk p va false s = .done (some (va / 4096)) s := by
    rw [pageWalk_false hva, PageTable.walk_eq, if_pos hhas]
  have hguard : ¬ ((!(s.entry p (va / 4096)).v || (s.entry p (va / 4096)).onlyValid) = true) := by simp [hv, hleaf]
  rw [userVmUnmap, if_neg (by simp [hal]), pagesBelow_single hal hva, each]
  refine (bind_done (a := ()) (t := s.unmapped p (va / 4096)) ?_).trans rfl
  rw [bind_done hwalk]
  simp only []
  rw [get_bind, hpte, if_neg hguard, if_pos trivial, bind_done (freePage_eq hm)]
  rfl

lemma userVmUnmap_yields : yields (userVmUnmap p va 4096 true) (fun _ t => maxva ≤ va ∧ t = s ∨
    va % 4096 = 0 ∧ va < maxva ∧ (s.entry p (va / 4096)).v = true ∧ s.pmm.Managed (s.entry p (va / 4096)).pa ∧
      t = s.unmapped p (va / 4096)) s := by
  refine yields_of_wp (E := fun _ => True) (wp_userVmUnmap trivial ?_ ?_)
  · exact fun _ h => .inl ⟨h, rfl⟩
  · exact fun hal hlt hv hm => .inr ⟨hal, hlt, hv, hm, rfl⟩

end Pke.Memory
