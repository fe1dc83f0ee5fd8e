import Pke.Memory.HeapRuns

namespace Pke.Memory

open Lib Flow Function Processes

variable {s t u : Vm} {p : Pid} {va v size n lo hi : ℕ}

structure Grounds (p : Pid) (lo hi : ℕ) (s : Vm) : Prop where
  free : ∀ f ∈ s.pmm.gFreeMemList, s.pmm.Managed f
  null : ¬ s.pmm.Managed 0
  leaf : ∀ v, lo ≤ v → v < hi → (s.entry p v).v = true → (s.entry p v).r = true ∧ s.pmm.Managed (s.entry p v).pa

namespace Grounds

lemma withHeap {l i : List Malloc} {a : ℕ} (g : Grounds p lo hi s) : Grounds p lo hi (s.withHeap p l i a) := by
  refine ⟨g.free, g.null, fun v hlo hhi hv => ?_⟩
  rw [Vm.entry_withHeap] at hv ⊢
  exact g.leaf v hlo hhi hv

lemma adds (g : Grounds p lo hi s) (h : Adds p n s t) : Grounds p lo hi t := by
  have hb := h.same.bounds
  refine ⟨h.managed g.free, fun hm => g.null ((hb.managed 0).mp hm), fun v hlo hhi hv => ?_⟩
  rcases h.entry v with he | ⟨-, f, hf, he⟩
  · rw [he] at hv ⊢
    exact ⟨(g.leaf v hlo hhi hv).1, (hb.managed _).mpr (g.leaf v hlo hhi hv).2⟩
  · have hm := g.free f hf
    rw [he, Pte.leaf_pa hm.1]
    exact ⟨rfl, (hb.managed f).mpr hm⟩

lemma unlays {l : List ℕ} (g : Grounds p lo hi s) (h : Unlays p l s t) : Grounds p lo hi t := by
  have hb := h.same.bounds
  refine ⟨h.managed g.free, fun hm => g.null ((hb.managed 0).mp hm), fun v hlo hhi hv => ?_⟩
  by_cases hin : v ∈ l
  · rw [h.entry, if_pos hin] at hv
    cases hv
  · rw [h.entry, if_neg hin] at hv ⊢
    exact ⟨(g.leaf v hlo hhi hv).1, (hb.managed _).mpr (g.leaf v hlo hhi hv).2⟩

lemma lookup (g : Grounds p lo hi s) (hlo : lo ≤ v) (hhi : v < hi) (hmax : v * 4096 < maxva) :
    lookupPa s p (v * 4096) = 0 ↔ (s.entry p v).v = false := by
  have hdiv : v * 4096 / 4096 = v := Nat.mul_div_cancel _ (by norm_num)
  rw [lookupPa_eq, hdiv]
  constructor
  · intro h
    by_contra hv
    rw [Bool.not_eq_false] at hv
    obtain ⟨hr, hm⟩ := g.leaf v hlo hhi hv
    rw [if_pos ⟨hmax, hv, .inl hr⟩] at h
    exact g.null (h ▸ hm)
  · intro hv
    rw [if_neg fun h => by rw [hv] at h; exact Bool.false_ne_true h.2.1]

end Grounds

lemma PageTable.missing_le (t : PageTable) (v : ℕ) : t.missing v ≤ 2 := by
  rw [PageTable.missing]
  split_ifs <;> omega

lemma Adds.length (h : Adds p n s t) : t.pmm.gFreeMemList.length + n = s.pmm.gFreeMemList.length := by
  rw [h.free, List.length_drop]
  exact Nat.sub_add_cancel h.le

lemma Fills.length (h : Fills p va s t) : s.pmm.gFreeMemList.length ≤ t.pmm.gFreeMemList.length + 3 := by
  have := h.adds.length
  have := (s.space p).pagetable.missing_le (va / 4096)
  omega

lemma mapFresh_returns (hal : va % 4096 = 0) (hva : va < maxva) (hun : (s.entry p (va / 4096)).v = false)
    (hfree : 3 ≤ s.pmm.gFreeMemList.length) : returns (mapFresh p va) (fun b t => b = true ∧ Fills p va s t) s := by
  obtain ⟨f, rest, hl⟩ : ∃ f rest, s.pmm.gFreeMemList = f :: rest := List.exists_cons_of_length_pos (by omega)
  have hmiss : ((s.took f rest).space p).pagetable.missing (va / 4096) ≤ (s.took f rest).pmm.gFreeMemList.length := by
    have := (s.space p).pagetable.missing_le (va / 4096)
    rw [Vm.took_list]
    rw [hl, List.length_cons] at hfree
    exact this.trans (by omega)
  obtain ⟨t, ht, -⟩ := userVmMap_enough (s := s.took f rest) hal hva hun hmiss f userRw
  refine returns_bind_done (allocPage_cons hl) (returns_bind_done ht (returns_pure ⟨rfl, ?_⟩))
  exact fills_of_map hal hl ht hva

lemma ensurePage_returns (g : Grounds p lo hi s) (hlo : lo ≤ v) (hhi : v < hi) (hmax : v * 4096 < maxva)
    (hfree : 3 ≤ s.pmm.gFreeMemList.length) :
    returns (do if lookupPa (← get) p (v * 4096) = 0 then mapFresh p (v * 4096) else pure true)
      (fun b t => b = true ∧ Grounds p lo hi t ∧ s.pmm.gFreeMemList.length ≤ t.pmm.gFreeMemList.length + 3) s := by
  refine returns_bind_done rfl ?_
  by_cases hpa : lookupPa s p (v * 4096) = 0
  · rw [if_pos hpa]
    have hun := (g.lookup hlo hhi hmax).mp hpa
    rw [← Nat.mul_div_cancel v (show 0 < 4096 by norm_num)] at hun
    refine returns_mono (mapFresh_returns (Nat.mul_mod_left _ _) hmax hun hfree) ?_
    rintro b t ⟨rfl, ht⟩
    exact ⟨rfl, g.adds ht.adds, ht.length⟩
  · rw [if_neg hpa]
    exact returns_pure ⟨rfl, g, Nat.le_add_right _ _⟩

lemma ensureMapped_returns (g : Grounds p lo hi s) (hlo : lo ≤ va / 4096) (hhi : va + size ≤ hi * 4096)
    (hmax : hi * 4096 ≤ maxva) (hfree : 3 * (size / 4096 + 2) ≤ s.pmm.gFreeMemList.length) :
    returns (ensureMapped p va size) (fun b t => b = true ∧ Grounds p lo hi t ∧
      s.pmm.gFreeMemList.length ≤ t.pmm.gFreeMemList.length + 3 * (size / 4096 + 2)) s := by
  have hend : u64 (va + size) = va + size := Nat.mod_eq_of_lt (lt_of_le_of_lt (hhi.trans hmax) maxva_lt)
  have hcount : (va + size - roundDown va + 4095) / 4096 ≤ size / 4096 + 2 := by
    unfold roundDown
    omega
  rw [ensureMapped, hend, pagesBelow_roundDown]
  refine returns_mono (returns_all_range (fun i u => Grounds p lo hi u ∧
    s.pmm.gFreeMemList.length ≤ u.pmm.gFreeMemList.length + 3 * i) ⟨g, by omega⟩ ?_) ?_
  · rintro i hi' u ⟨hu, hlen⟩
    have hin : (va / 4096 + i) * 4096 < va + size := by
      unfold roundDown at hi'
      omega
    refine returns_mono (ensurePage_returns hu (hlo.trans (Nat.le_add_right _ _)) ?_ (hin.trans_le (hhi.trans hmax)) ?_) ?_
    · exact Nat.lt_of_mul_lt_mul_right (hin.trans_le hhi)
    · omega
    · rintro b w ⟨rfl, hw, hlen'⟩
      exact ⟨rfl, hw, by omega⟩
  · rintro b t ⟨rfl, ht, hlen⟩
    exact ⟨rfl, ht, by omega⟩

section Calls

variable {before after : List Malloc} {node reuse : Malloc}

lemma keepRemainder_returns (hfree : 1 ≤ s.pmm.gFreeMemList.length) :
    returns (keepRemainder p va size) (fun b _ => b = true) s := by
  refine returns_bind_done rfl ?_
  cases hidle : (s.space p).mallocFreeList with
  | cons rem rest => exact returns_bind_done (Vm.setFreeList_eq _) (returns_pure rfl)
  | nil =>
    obtain ⟨f, rest, hl⟩ := List.exists_cons_of_length_pos hfree
    exact returns_bind_done (allocPage_cons hl) (returns_bind_done (Vm.setFreeList_eq _) (returns_pure rfl))

lemma reuseBlock_returns (g : Grounds p lo hi s) (hlo : lo ≤ reuse.va / 4096) (hhi : reuse.va + size ≤ hi * 4096)
    (hmax : hi * 4096 ≤ maxva) (hfree : 3 * (size / 4096 + 2) + 1 ≤ s.pmm.gFreeMemList.length) :
    returns (reuseBlock p before reuse after size) (fun r _ => r = reuse.va) s := by
  refine returns_bind_done (Vm.setFreeList_eq _) ?_
  refine returns_bind (returns_mono (ensureMapped_returns g.withHeap hlo hhi hmax (Nat.le_of_succ_le hfree)) ?_)
  rintro b u ⟨rfl, -, hlen⟩
  rw [if_pos rfl]
  rw [Vm.pmm_withHeap] at hlen
  have hrest : returns (if size < reuse.size then keepRemainder p (u64 (reuse.va + size)) (reuse.size - size)
      else pure true) (fun b _ => b = true) u := by
    by_cases hlt : size < reuse.size
    · rw [if_pos hlt]
      exact keepRemainder_returns (by omega)
    · rw [if_neg hlt]
      exact returns_pure rfl
  refine returns_bind (returns_mono hrest ?_)
  rintro b w rfl
  rw [if_pos rfl]
  exact returns_bind_done (Vm.setMallocList_eq _) (returns_pure rfl)

lemma mapNewPages_returns {b : Bool} (hun : ∀ w, v < w → w ≤ v + n → (s.entry p w).v = false)
    (hmax : (v + n) * 4096 < maxva) (hfree : 3 * n ≤ s.pmm.gFreeMemList.length) :
    returns (mapNewPages p (v * 4096) b n) (fun r _ => r = true) s := by
  have hrange : List.range n = (List.range n).map id := (List.map_id _).symm
  rw [mapNewPages, hrange]
  refine returns_mono (returns_all_range (fun i u => (∀ w, v + i < w → w ≤ v + n → (u.entry p w).v = false) ∧
    s.pmm.gFreeMemList.length ≤ u.pmm.gFreeMemList.length + 3 * i) ⟨hun, by omega⟩ ?_) fun _ _ h => h.1
  rintro i hi u ⟨hu, hlen⟩
  have hpage : u64 (v * 4096 + 4096 + id i * 4096) = (v + 1 + i) * 4096 := by
    have hle : (v + 1 + i) * 4096 ≤ (v + n) * 4096 := Nat.mul_le_mul_right _ (by omega)
    rw [show v * 4096 + 4096 + id i * 4096 = (v + 1 + i) * 4096 by simp only [id]; ring]
    exact Nat.mod_eq_of_lt (lt_of_le_of_lt hle (hmax.trans maxva_lt))
  have hdiv : (v + 1 + i) * 4096 / 4096 = v + 1 + i := Nat.mul_div_cancel _ (by norm_num)
  have hlow : (v + 1 + i) * 4096 < maxva := lt_of_le_of_lt (Nat.mul_le_mul_right _ (by omega)) hmax
  rw [hpage]
  have hnew := mapFresh_returns (Nat.mul_mod_left _ _) hlow (by rw [hdiv]; exact hu _ (by omega) (by omega))
    (show 3 ≤ u.pmm.gFreeMemList.length by omega)
  refine returns_bind (returns_mono hnew ?_)
  rintro c w ⟨rfl, hw⟩
  rw [if_pos rfl]
  refine returns_pure ⟨rfl, fun x hx hxn => ?_, ?_⟩
  · obtain ⟨f, rest, -, he, -⟩ := hw.entry
    rw [he, hdiv, update_of_ne (by omega)]
    exact hu x (by omega) hxn
  · have := hw.length
    omega

def Room (s : Vm) (p : Pid) (va size : ℕ) : Prop :=
  ∀ w, va / 4096 < w → w ≤ va / 4096 + newPages va size → (s.entry p w).v = false

lemma placeBlock_returns {b : Bool} (g : Grounds p lo hi s) (hlo : lo ≤ va / 4096)
    (hhi : va / 4096 + newPages va size < hi) (hmax : hi * 4096 ≤ maxva) (hroom : Room s p va size)
    (hfree : 3 * (newPages va size + 1) ≤ s.pmm.gFreeMemList.length) :
    returns (placeBlock p va size node b) (fun r _ => r = va) s := by
  have hlast : (va / 4096 + newPages va size) * 4096 < maxva :=
    lt_of_lt_of_le (Nat.mul_lt_mul_of_pos_right hhi (by norm_num)) hmax
  have hfirst : va / 4096 * 4096 < maxva := lt_of_le_of_lt (Nat.mul_le_mul_right _ (Nat.le_add_right _ _)) hlast
  have hmap : returns (if lookupPa s p (roundDown va) ≠ 0 then pure true else mapFresh p (roundDown va))
      (fun r t => r = true ∧ Room t p va size ∧ 3 * newPages va size ≤ t.pmm.gFreeMemList.length) s := by
    by_cases hpa : lookupPa s p (roundDown va) = 0
    · rw [if_neg (not_not.mpr hpa)]
      have hun := (g.lookup hlo (by omega) hfirst).mp hpa
      rw [← roundDown_div] at hun
      refine returns_mono (mapFresh_returns (roundDown_aligned va) hfirst hun (by omega)) ?_
      rintro r t ⟨rfl, ht⟩
      refine ⟨rfl, fun w hw hwn => ?_, ?_⟩
      · obtain ⟨f, rest, -, he, -⟩ := ht.entry
        rw [he, roundDown_div, update_of_ne (by omega)]
        exact hroom w hw hwn
      · have := ht.length
        omega
    · rw [if_pos hpa]
      exact returns_pure ⟨rfl, hroom, by omega⟩
  rw [placeBlock]
  refine returns_bind_done rfl (returns_bind (returns_mono hmap ?_))
  rintro r t ⟨rfl, hroom', hfree'⟩
  rw [if_pos rfl]
  have hnext : returns (if size ≤ roundDown va + 4096 - va then pure true
      else mapNewPages p (roundDown va) (!decide (lookupPa s p (roundDown va) ≠ 0))
        (u64 (size - (roundDown va + 4096 - va) + 4095) / 4096)) (fun r _ => r = true) t := by
    by_cases hle : size ≤ roundDown va + 4096 - va
    · rw [if_pos hle]
      exact returns_pure rfl
    · have hn : newPages va size = u64 (size - (roundDown va + 4096 - va) + 4095) / 4096 := by rw [newPages, if_neg hle]
      rw [if_neg hle, ← hn]
      exact mapNewPages_returns hroom' hlast hfree'
  refine returns_bind (returns_mono hnext ?_)
  rintro r u rfl
  rw [if_pos rfl]
  exact returns_bind_done (Vm.setHeapTop_eq _) (returns_bind_done (Vm.setMallocList_eq _) (returns_pure rfl))

lemma freshBlock_returns (g : Grounds p lo hi s) (hlo : lo ≤ s.top p / 4096)
    (hhi : s.top p / 4096 + newPages (s.top p) size < hi) (hmax : hi * 4096 ≤ maxva) (hroom : Room s p (s.top p) size)
    (hfree : 3 * (newPages (s.top p) size + 1) + 1 ≤ s.pmm.gFreeMemList.length) :
    returns (freshBlock p size) (fun r _ => r = s.top p) s := by
  rw [returns_iff, freshBlock_eq, ← returns_iff]
  cases hidle : s.idle p with
  | cons node idle =>
    refine returns_bind_done (takeNode_idle hidle) (placeBlock_returns g.withHeap hlo hhi hmax ?_ (Nat.le_of_succ_le hfree))
    intro w hw hwn
    rw [Vm.entry_withHeap]
    exact hroom w hw hwn
  | nil =>
    obtain ⟨f, rest, hl⟩ : ∃ f rest, s.pmm.gFreeMemList = f :: rest := List.exists_cons_of_length_pos (by omega)
    refine returns_bind_done (takeNode_new hidle hl)
      (placeBlock_returns (g.adds (AddsIn.took p (fun _ => False) hl).toAdds) hlo hhi hmax hroom ?_)
    rw [Vm.took_list]
    rw [hl, List.length_cons] at hfree
    omega

lemma newPages_le (va size : ℕ) : newPages va size ≤ size / 4096 + 1 := by
  rw [newPages]
  split_ifs with hle
  · exact Nat.zero_le _
  · have : u64 (size - (roundDown va + 4096 - va) + 4095) ≤ size - (roundDown va + 4096 - va) + 4095 := Nat.mod_le _ _
    omega

def Inside (lo hi : ℕ) (m : Malloc) : Prop := lo ≤ m.va / 4096 ∧ m.va + m.size ≤ hi * 4096

def HasPlace (s : Vm) (p : Pid) (lo hi size : ℕ) : Prop :=
  (∀ m ∈ s.idle p, m.size < size) →
    lo ≤ s.top p / 4096 ∧ s.top p / 4096 + newPages (s.top p) size < hi ∧ Room s p (s.top p) size

def EnoughFor (s : Vm) (size : ℕ) : Prop := 3 * (size / 4096 + 2) + 1 ≤ s.pmm.gFreeMemList.length

lemma userBetterMalloc_returns (g : Grounds p lo hi s) (hidle : ∀ m ∈ s.idle p, Inside lo hi m)
    (hmax : hi * 4096 ≤ maxva) (hplace : HasPlace s p lo hi size) (hfree : EnoughFor s size) :
    returns (userBetterMalloc p size) (fun r _ => size ≠ 0 → (∀ m ∈ s.idle p, m.size < size) → r = s.top p) s := by
  by_cases hsize : size = 0
  · rw [userBetterMalloc, if_pos hsize]
    exact returns_pure fun h => absurd hsize h
  rw [returns_iff, userBetterMalloc_eq hsize, ← returns_iff]
  rcases span_cases (fun m : Malloc => decide (m.size < size)) (s.idle p) with
    ⟨hspan, hall⟩ | ⟨before, reuse, after, hspan, hlist, -, hfit⟩
  · rw [hspan]
    obtain ⟨hlo, hhi, hroom⟩ := hplace fun m hm => of_decide_eq_true (hall m hm)
    have hcount := newPages_le (s.top p) size
    refine returns_mono (freshBlock_returns g hlo hhi hmax hroom (le_trans (by omega) hfree)) ?_
    exact fun r t hr _ _ => hr
  · rw [hspan]
    have hmem : reuse ∈ s.idle p := by simp [hlist]
    have hle : size ≤ reuse.size := not_lt.mp (of_decide_eq_false hfit)
    obtain ⟨hlo, hhi⟩ := hidle reuse hmem
    refine returns_mono (reuseBlock_returns g hlo (by omega) hmax hfree) ?_
    exact fun r t _ _ hsmall => absurd (hsmall reuse hmem) (Nat.not_lt.mpr hle)

lemma Grounds.unmap (g : Grounds p lo hi s) (hlo : lo ≤ v) (hhi : v < hi) (hmax : v * 4096 < maxva)
    (hv : (s.entry p v).v = true) : userVmUnmap p (v * 4096) 4096 true s = .done () (s.unmapped p v) := by
  obtain ⟨hr, hm⟩ := g.leaf v hlo hhi hv
  have hdiv : v * 4096 / 4096 = v := Nat.mul_div_cancel _ (by norm_num)
  have hleaf : (s.entry p v).onlyValid = false := by simp [Pte.onlyValid, hr]
  have := userVmUnmap_eq (Nat.mul_mod_left v 4096) hmax (by rwa [hdiv]) (by rwa [hdiv]) (by rwa [hdiv])
  rwa [hdiv] at this

lemma Grounds.unmapped (g : Grounds p lo hi s) (hlo : lo ≤ v) (hhi : v < hi) (hv : (s.entry p v).v = true) :
    Grounds p lo hi (s.unmapped p v) := g.unlays (unlays_unmapped hv (g.leaf v hlo hhi hv).2)

lemma releasePages_returns {pages : List ℕ} (g : Grounds p lo hi s) (hn : pages.Nodup)
    (hin : ∀ v ∈ pages, lo ≤ v ∧ v < hi) (hmax : hi * 4096 ≤ maxva) (hv : ∀ v ∈ pages, (s.entry p v).v = true) :
    returns (each (fun a => do
      if pageHasOtherAllocation (← get) p a then pure ()
      else userVmUnmap p a 4096 true) (pages.map (· * 4096))) (fun _ _ => True) s := by
  induction pages generalizing s with
  | nil => exact returns_pure trivial
  | cons v pages ih =>
    obtain ⟨hnot, hn⟩ := List.nodup_cons.mp hn
    have hin' : ∀ w ∈ pages, lo ≤ w ∧ w < hi := fun w hw => hin w (by simp [hw])
    have hv' : ∀ w ∈ pages, (s.entry p w).v = true := fun w hw => hv w (by simp [hw])
    obtain ⟨hlo, hhi⟩ := hin v (by simp)
    rw [List.map_cons, each]
    refine returns_bind (returns_bind_done rfl ?_)
    cases pageHasOtherAllocation s p (v * 4096) with
    | true => exact returns_pure (ih g hn hin' hv')
    | false =>
      have hvalid := hv v (by simp)
      have hlow : v * 4096 < maxva := lt_of_lt_of_le (Nat.mul_lt_mul_of_pos_right hhi (by norm_num)) hmax
      refine returns_done (g.unmap hlo hhi hlow hvalid) (ih (g.unmapped hlo hhi hvalid) hn hin' fun w hw => ?_)
      rw [Vm.unmapped_entry hvalid, update_of_ne]
      · exact hv' w hw
      · rintro rfl
        exact hnot hw

lemma userBetterFree_returns (g : Grounds p lo hi s) (hlive : ∀ m ∈ s.live p, Inside lo hi m ∧ Backed s p m)
    (hmax : hi * 4096 ≤ maxva) : returns (userBetterFree p va) (fun _ _ => True) s := by
  rw [returns_iff, userBetterFree_eq, ← returns_iff]
  rcases span_cases (fun m : Malloc => decide (m.va ≠ va)) (s.live p) with
    ⟨hspan, -⟩ | ⟨before, cur, after, hspan, hlist, -, hcur⟩
  · rw [hspan]
    exact returns_pure trivial
  · rw [hspan]
    obtain rfl : cur.va = va := not_not.mp (of_decide_eq_false hcur)
    obtain ⟨⟨hlo, hhi⟩, hback⟩ := hlive cur (by simp [hlist])
    have hend : u64 (cur.va + cur.size) = cur.va + cur.size :=
      Nat.mod_eq_of_lt (lt_of_le_of_lt (hhi.trans hmax) maxva_lt)
    have hpages (l : List ℕ) : l.map (fun i => (cur.va / 4096 + i) * 4096) = (l.map (cur.va / 4096 + ·)).map (· * 4096) := by
      rw [List.map_map]
      rfl
    have hspans : ∀ v ∈ (List.range ((cur.va + cur.size - roundDown cur.va + 4095) / 4096)).map (cur.va / 4096 + ·),
        Spans cur.va cur.size v := by
      intro v hv
      obtain ⟨i, hi, rfl⟩ := List.mem_map.mp hv
      rw [List.mem_range] at hi
      unfold roundDown at hi
      exact ⟨Nat.le_add_right _ _, by omega⟩
    refine returns_bind_done (Vm.setMallocList_eq _) (returns_bind_done (Vm.setFreeList_eq _) ?_)
    rw [hend, pagesBelow_roundDown, hpages]
    refine releasePages_returns g.withHeap.withHeap ?_ (fun v hv => ?_) hmax fun v hv => ?_
    · exact List.Nodup.map (fun i j hij => Nat.add_left_cancel hij) List.nodup_range
    · obtain ⟨h₁, h₂⟩ := hspans v hv
      exact ⟨hlo.trans h₁, Nat.lt_of_mul_lt_mul_right (h₂.trans_le hhi)⟩
    · rw [Vm.entry_withHeap, Vm.entry_withHeap]
      exact hback v (hspans v hv)

end Calls

end Pke.Memory
