import Pke.Memory.HeapTotals
import Pke.Memory.HeapLaws

/-! The two heap allocators side by side: `sys_user_allocate_page` and `sys_user_free_page` on one hand,
`user_better_malloc` and `user_better_free` on the other. -/

namespace Pke.Memory

open Lib Flow Function Processes

variable {s t u : Vm} {p : Pid} {va v a size r n hi : ℕ} {own : List ℕ} {lost : List Malloc} {pages : List (ℕ × ℕ)}

def nextPage (s : Vm) (p : Pid) : ℕ := (s.spare p).getLastD (s.top p)

structure Allocated (p : Pid) (s : Vm) (va : ℕ) (t : Vm) : Prop where
  live : t.live p = s.live p
  idle : t.idle p = s.idle p
  top : t.top p = if s.spare p = [] then s.top p + 4096 else s.top p
  bottom : t.bottom p = s.bottom p
  spare : t.spare p = (s.spare p).dropLast
  bounds : s.pmm.SameBounds t.pmm
  free : ∀ f ∈ t.pmm.gFreeMemList, f ∈ s.pmm.gFreeMemList
  entry : ∃ f ∈ s.pmm.gFreeMemList, t.entry p = update (s.entry p) (va / 4096) (Pte.leaf f userRw)

lemma spare_eq_nil : s.spare p = [] ↔ (s.space p).userHeap.freePagesCount = 0 := by
  simp [Vm.spare]

lemma spare_snoc (h : 0 < (s.space p).userHeap.freePagesCount) : s.spare p =
    (List.range ((s.space p).userHeap.freePagesCount - 1)).map (s.space p).userHeap.freePagesAddress ++
      [(s.space p).userHeap.freePagesAddress ((s.space p).userHeap.freePagesCount - 1)] := by
  obtain ⟨k, hk⟩ := Nat.exists_eq_succ_of_ne_zero h.ne'
  rw [Vm.spare, hk, List.range_succ, List.map_append]
  rfl

lemma allocated_of_map {f : ℕ} {rest : List ℕ} {x : Vm} (hl : s.pmm.gFreeMemList = f :: rest) (hpmm : x.pmm = (s.took f rest).pmm)
    (hlive : x.live p = s.live p) (hidle : x.idle p = s.idle p) (hbottom : x.bottom p = s.bottom p)
    (htop : x.top p = if s.spare p = [] then s.top p + 4096 else s.top p) (hspare : x.spare p = (s.spare p).dropLast)
    (hentry : x.entry p = s.entry p) (hal : va % 4096 = 0) (hlow : va < maxva) (hun : (s.entry p (va / 4096)).v = false)
    (hfree : 2 ≤ rest.length) :
    returns (do userVmMap p va 4096 f userRw; pure va) (fun r t => r = va ∧ Allocated p s r t) x := by
  have hlist : x.pmm.gFreeMemList = rest := by rw [hpmm, Vm.took_list]
  have hmiss : (x.space p).pagetable.missing (va / 4096) ≤ x.pmm.gFreeMemList.length := by
    rw [hlist]
    exact (PageTable.missing_le _ _).trans hfree
  obtain ⟨t, ht, hspends, he⟩ := userVmMap_enough hal hlow (by rw [hentry]; exact hun) hmiss f userRw
  have hsame := hspends.same
  refine returns_bind_done ht (returns_pure ⟨rfl, ?_⟩)
  refine ⟨(hsame.live p).trans hlive, (hsame.idle p).trans hidle, (hsame.top p).trans htop, (hsame.bottom p).trans hbottom,
    (hsame.spare p).trans hspare, ?_, fun g hg => ?_, f, by simp [hl], by rw [he, hentry]⟩
  · exact (hpmm ▸ Vm.took_bounds : s.pmm.SameBounds x.pmm).trans hsame.bounds
  · rw [hspends.free, hlist] at hg
    rw [hl]
    exact List.mem_cons_of_mem _ (List.mem_of_mem_drop hg)

lemma sysUserAllocatePage_returns (hal : nextPage s p % 4096 = 0) (hlow : nextPage s p < maxva)
    (hspare : ∀ a ∈ s.spare p, a < s.top p) (hun : (s.entry p (nextPage s p / 4096)).v = false)
    (hfree : 3 ≤ s.pmm.gFreeMemList.length) :
    returns (sysUserAllocatePage p) (fun va t => va = nextPage s p ∧ Allocated p s va t) s := by
  obtain ⟨f, rest, hl⟩ : ∃ f rest, s.pmm.gFreeMemList = f :: rest := List.exists_cons_of_length_pos (by omega)
  have hrest : 2 ≤ rest.length := by
    rw [hl, List.length_cons] at hfree
    omega
  rw [sysUserAllocatePage]
  refine returns_bind_done (allocPage_cons hl) (returns_bind_done rfl ?_)
  dsimp only
  have hspace : (s.took f rest).space = s.space := rfl
  rw [hspace]
  by_cases hcount : 0 < (s.space p).userHeap.freePagesCount
  · have hsnoc := spare_snoc hcount
    have hnext : nextPage s p = (s.space p).userHeap.freePagesAddress ((s.space p).userHeap.freePagesCount - 1) := by
      rw [nextPage, hsnoc, List.getLastD_concat]
    have hlt : nextPage s p < (s.space p).userHeap.heapTop := hspare _ (by rw [hnext, hsnoc]; simp)
    have hne : s.spare p ≠ [] := by rw [hsnoc]; simp
    rw [if_pos hcount, ← hnext]
    refine returns_bind_done rfl ?_
    rw [if_pos hlt]
    refine returns_bind_done rfl (allocated_of_map hl rfl ?_ ?_ ?_ ?_ ?_ ?_ hal hlow hun hrest)
    · simp [Vm.live, Vm.setHeap, hspace]
    · simp [Vm.idle, Vm.setHeap, hspace]
    · simp [Vm.bottom, Vm.setHeap, hspace]
    · rw [if_neg hne]
      simp [Vm.top, Vm.setHeap, hspace]
    · rw [hsnoc, List.dropLast_concat]
      simp [Vm.spare, Vm.setHeap, hspace]
    · funext w
      simp [Vm.entry, Vm.setHeap, hspace]
  · have hnil : s.spare p = [] := spare_eq_nil.mpr (by omega)
    have hnext : nextPage s p = s.top p := by rw [nextPage, hnil]; rfl
    rw [hnext] at hal hlow hun ⊢
    rw [if_neg hcount]
    refine returns_bind_done rfl (returns_bind_done rfl (returns_bind_done rfl ?_))
    refine allocated_of_map hl rfl ?_ ?_ ?_ ?_ ?_ ?_ hal hlow hun hrest
    · simp [Vm.live, Vm.setHeap, hspace]
    · simp [Vm.idle, Vm.setHeap, hspace]
    · simp [Vm.bottom, Vm.setHeap, hspace]
    · rw [if_pos hnil]
      simp [Vm.top, Vm.setHeap, hspace]
    · rw [hnil]
      simpa [Vm.spare, Vm.setHeap, hspace] using hcount
    · funext w
      simp [Vm.entry, Vm.setHeap, hspace]

structure Freed (p : Pid) (s : Vm) (va : ℕ) (t : Vm) : Prop where
  live : t.live p = s.live p
  idle : t.idle p = s.idle p
  top : t.top p = s.top p
  bottom : t.bottom p = s.bottom p
  spare : t.spare p = s.spare p ++ [va]
  entry : t.entry p = (s.unmapped p (va / 4096)).entry p
  pmm : t.pmm = (s.unmapped p (va / 4096)).pmm

lemma freed_unmapped (s : Vm) (p : Pid) (va : ℕ) : Freed p s va ((s.unmapped p (va / 4096)).setHeap p fun h => { h with
    freePagesAddress := update h.freePagesAddress h.freePagesCount va
    freePagesCount := h.freePagesCount + 1 }) := by
  have hsame := s.unmapped_same p (va / 4096)
  refine ⟨?_, ?_, ?_, ?_, ?_, ?_, rfl⟩
  · rw [← hsame.live]
    simp [Vm.live, Vm.setHeap]
  · rw [← hsame.idle]
    simp [Vm.idle, Vm.setHeap]
  · rw [← hsame.top]
    simp [Vm.top, Vm.setHeap]
  · rw [← hsame.bottom]
    simp [Vm.bottom, Vm.setHeap]
  · rw [← hsame.spare]
    simp only [Vm.spare, Vm.setHeap, Vm.setSpace_self]
    rw [List.range_succ, List.map_append]
    congr 1
    · apply List.map_congr_left
      intro i hi
      exact update_of_ne (List.mem_range.mp hi).ne _ _
    · simp
  · funext w
    simp [Vm.entry, Vm.setHeap]

lemma sysUserFreePage_returns {lo : ℕ} (g : Grounds p lo hi s) (hal : va % 4096 = 0) (hlo : lo ≤ va / 4096)
    (hhi : va / 4096 < hi) (hmax : hi * 4096 ≤ maxva) (hv : (s.entry p (va / 4096)).v = true)
    (hcount : (s.space p).userHeap.freePagesCount < maxHeapPages) :
    returns (sysUserFreePage p va) (fun r t => r = 0 ∧ Freed p s va t) s := by
  have hva : va / 4096 * 4096 = va := by omega
  have hlow : va / 4096 * 4096 < maxva := lt_of_lt_of_le (Nat.mul_lt_mul_of_pos_right hhi (by norm_num)) hmax
  have hrun := g.unmap hlo hhi hlow hv
  rw [hva] at hrun
  have hcount' : ((s.unmapped p (va / 4096)).space p).userHeap.freePagesCount < maxHeapPages := by
    rw [(s.unmapped_same p (va / 4096)).fields]
    exact hcount
  refine returns_bind_done hrun (returns_bind_done rfl ?_)
  rw [if_pos hcount']
  exact returns_bind_done rfl (returns_pure ⟨rfl, freed_unmapped s p va⟩)

def wholePages (l : List ℕ) : List (ℕ × ℕ) := l.map (·, 4096)

structure TwoInv (p : Pid) (hi : ℕ) (own : List ℕ) (lost : List Malloc) (s : Vm) : Prop where
  heap : HeapInv p (wholePages (own ++ s.spare p)) lost s
  below : s.top p ≤ hi * 4096
  aligned : ∀ a ∈ own ++ s.spare p, a % 4096 = 0
  held : ∀ a ∈ own, (s.entry p (a / 4096)).v = true
  clear : ∀ a ∈ s.spare p, (s.entry p (a / 4096)).v = false
  above : ∀ v, s.top p ≤ v * 4096 → v < hi → (s.entry p v).v = false
  grounds : Grounds p 1024 hi s

lemma le_of_newPages (va : ℕ) (hsize : size ≠ 0) : (va / 4096 + newPages va size) * 4096 < va + size := by
  rw [newPages]
  have hround : roundDown va = va / 4096 * 4096 := rfl
  split_ifs with hle
  · omega
  · have : u64 (size - (roundDown va + 4096 - va) + 4095) ≤ size - (roundDown va + 4096 - va) + 4095 := Nat.mod_le _ _
    omega

structure PagesGrow (p : Pid) (size : ℕ) (s t : Vm) : Prop where
  spare : t.spare p = s.spare p
  top : t.top p = s.top p ∨ (∀ m ∈ s.idle p, m.size < size) ∧ t.top p = s.top p + size
  grounds : ∀ {lo hi}, Grounds p lo hi s → Grounds p lo hi t
  valid : ∀ v, (s.entry p v).v = true → (t.entry p v).v = true
  fresh : ∀ v, (s.entry p v).v = false → (t.entry p v).v = true →
    (∃ m ∈ s.idle p, Spans m.va m.size v) ∨ s.top p / 4096 ≤ v ∧ v * 4096 < t.top p

lemma PagesGrow.of_adds {P : ℕ → Prop} {l i : List Malloc} (h : AddsIn p P n s u)
    (ha : a = s.top p ∨ (∀ m ∈ s.idle p, m.size < size) ∧ a = s.top p + size)
    (hP : ∀ v, P v → (∃ m ∈ s.idle p, Spans m.va m.size v) ∨ s.top p / 4096 ≤ v ∧ v * 4096 < a) :
    PagesGrow p size s (u.withHeap p l i a) where
  spare := by rw [Vm.spare_withHeap, h.same.spare]
  top := by rwa [Vm.top_withHeap]
  grounds g := (g.adds h.toAdds).withHeap
  valid v hv := by
    rw [Vm.entry_withHeap]
    exact h.valid hv
  fresh v hs ht := by
    rw [Vm.top_withHeap]
    apply hP
    by_contra hout
    rw [Vm.entry_withHeap, h.out v hout, hs] at ht
    cases ht

lemma Restored.pagesGrow (h : Restored p size s t) : PagesGrow p size s t where
  spare := h.spare
  top := .inl h.top
  grounds g := by
    refine ⟨h.managed g.free, fun hm => g.null ((h.bounds.managed 0).mp hm), fun v hlo hhi hv => ?_⟩
    have hv' : (s.entry p v).v = true := (h.valid v).symm.trans hv
    rw [h.keep v hv']
    exact ⟨(g.leaf v hlo hhi hv').1, (h.bounds.managed _).mpr (g.leaf v hlo hhi hv').2⟩
  valid v hv := (h.valid v).trans hv
  fresh v hs ht := by
    rw [h.valid v, hs] at ht
    cases ht

lemma HeapInv.pagesGrow (h : HeapInv p pages lost s) (hfits : CountFits s p size)
    (hrun : userBetterMalloc p size s = .done r t) : PagesGrow p size s t := by
  by_cases hsize : size = 0
  · subst hsize
    cases hrun
    exact ⟨rfl, .inl rfl, id, fun _ => id, fun v hs ht => by rw [hs] at ht; cases ht⟩
  rcases userBetterMalloc_yields hsize h.idle_lt h.top_lt r t hrun with
    ⟨before, reuse, after, -, hidle, hfit, hcases⟩ | ⟨-, hsmall, hcases⟩
  · have hblock : ∀ v, Spans reuse.va size v →
        (∃ m ∈ s.idle p, Spans m.va m.size v) ∨ s.top p / 4096 ≤ v ∧ v * 4096 < s.top p :=
      fun v hv => .inl ⟨reuse, by simp [hidle], hv.1, hv.2.trans_le (by omega)⟩
    rcases hcases with ⟨-, n, u, hadds, -, rfl⟩ | ⟨-, n, u, node, hadds, -, rfl⟩
    · exact .of_adds hadds (.inl rfl) hblock
    · exact .of_adds hadds (.inl rfl) hblock
  · rcases hcases with ⟨-, hrest⟩ | ⟨-, n, u, node, hadds, hplaced, rfl⟩
    · exact hrest.pagesGrow
    · have hend : s.top p + size < 2 ^ 64 :=
        lt_of_le_of_lt (h.placed node hsize hadds.toAdds hplaced (hfits hsmall)).1 maxva_lt
      rw [show u64 (s.top p + size) = s.top p + size from Nat.mod_eq_of_lt hend]
      refine .of_adds hadds (.inr ⟨hsmall, rfl⟩) fun v hv => .inr ⟨hv.1, ?_⟩
      exact lt_of_le_of_lt (Nat.mul_le_mul_right 4096 hv.2) (le_of_newPages _ hsize)

lemma HeapInv.repaged {pages' : List (ℕ × ℕ)} (h : HeapInv p pages lost s) (hlive : t.live p = s.live p)
    (hidle : t.idle p = s.idle p) (hbottom : t.bottom p = s.bottom p) (hle : s.top p ≤ t.top p) (htop : t.top p ≤ maxva)
    (htiles : Tiles (extents (s.live p ++ s.idle p ++ lost) ++ pages') (s.bottom p) (t.top p))
    (hbacked : ∀ m ∈ s.live p, Backed t p m) : HeapInv p pages' lost t where
  bottom := by rw [hbottom, h.bottom]
  le := by rw [hbottom]; exact h.le.trans hle
  top := htop
  pos := by rw [hlive, hidle]; exact h.pos
  tiles := by rwa [hlive, hidle, hbottom]
  backed := by rwa [hlive]

namespace TwoInv

lemma positive (h : TwoInv p hi own lost s) :
    ∀ b ∈ extents (s.live p ++ s.idle p ++ lost) ++ wholePages (own ++ s.spare p), 0 < b.2 := by
  intro b hb
  rcases List.mem_append.mp hb with hb | hb
  · obtain ⟨m, hm, rfl⟩ := List.mem_map.mp hb
    exact h.heap.pos m hm
  · obtain ⟨a, -, rfl⟩ := List.mem_map.mp hb
    norm_num

lemma page_within (h : TwoInv p hi own lost s) (ha : a ∈ own ++ s.spare p) :
    userFreeAddressStart ≤ a ∧ a + 4096 ≤ s.top p := by
  have hin : (a, 4096) ∈ extents (s.live p ++ s.idle p ++ lost) ++ wholePages (own ++ s.spare p) :=
    List.mem_append_right _ (List.mem_map.mpr ⟨a, ha, rfl⟩)
  rw [← h.heap.bottom]
  exact ⟨h.heap.tiles.lower hin (by norm_num), h.heap.tiles.upper hin (by norm_num)⟩

lemma apart (h : TwoInv p hi own lost s) (ha : a ∈ own ++ s.spare p) {m : Malloc}
    (hm : m ∈ s.live p ++ s.idle p ++ lost) : a + 4096 ≤ m.va ∨ m.va + m.size ≤ a := by
  have hall := (List.pairwise_append.mp (h.heap.tiles.pairwise h.positive)).2.2
  exact (hall (m.va, m.size) (List.mem_map.mpr ⟨m, hm, rfl⟩) (a, 4096) (List.mem_map.mpr ⟨a, ha, rfl⟩)).symm

lemma nodup (h : TwoInv p hi own lost s) : (own ++ s.spare p).Nodup := by
  have hall := (List.pairwise_append.mp (h.heap.tiles.pairwise h.positive)).2.1
  refine (List.pairwise_map.mp hall).imp fun {a b} hab => ?_
  rintro rfl
  unfold Apart at hab
  dsimp only at hab
  omega

lemma not_spans (h : TwoInv p hi own lost s) (ha : a ∈ own ++ s.spare p) {m : Malloc}
    (hm : m ∈ s.live p ++ s.idle p ++ lost) : ¬ Spans m.va m.size (a / 4096) := by
  have hapart := h.apart ha hm
  have hal := h.aligned a ha
  rintro ⟨hlo, hhi⟩
  omega

lemma malloc (h : TwoInv p hi own lost s) (hfits : CountFits s p size)
    (hroom : (∀ m ∈ s.idle p, m.size < size) → s.top p + size ≤ hi * 4096)
    (hrun : userBetterMalloc p size s = .done r t) :
    TwoInv p hi own (if r = 0 then lost else forgets s p size ++ lost) t := by
  have hgrow := h.heap.pagesGrow hfits hrun
  have hle : s.top p ≤ t.top p := by
    rcases hgrow.top with he | ⟨-, he⟩ <;> omega
  refine ⟨?_, ?_, ?_, fun a ha => hgrow.valid _ (h.held a ha), fun a ha => ?_, fun v hlo hhi => ?_, hgrow.grounds h.grounds⟩
  · rw [hgrow.spare]
    exact h.heap.malloc hfits hrun
  · rcases hgrow.top with he | ⟨hsmall, he⟩
    · rw [he]
      exact h.below
    · rw [he]
      exact hroom hsmall
  · rw [hgrow.spare]
    exact h.aligned
  · rw [hgrow.spare] at ha
    have hmem : a ∈ own ++ s.spare p := List.mem_append_right _ ha
    by_contra hv
    rcases hgrow.fresh _ (h.clear a ha) (Bool.eq_true_of_not_eq_false hv) with ⟨m, hm, hspan⟩ | ⟨hlo, -⟩
    · exact h.not_spans hmem (by simp [hm]) hspan
    · have := (h.page_within hmem).2
      omega
  · by_contra hv
    rcases hgrow.fresh v (h.above v (hle.trans hlo) hhi) (Bool.eq_true_of_not_eq_false hv) with ⟨m, hm, hspan⟩ | ⟨-, hlt⟩
    · have := (h.heap.within (m := m) (by simp [hm])).2
      have := hspan.2
      omega
    · omega

lemma free (h : TwoInv p hi own lost s) (hrun : userBetterFree p va s = .done () t) : TwoInv p hi own lost t := by
  have hheap := h.heap.free hrun
  have hend : ∀ m ∈ s.live p, m.va + m.size ≤ maxva :=
    fun m hm => (h.heap.within (by simp [hm])).2.trans h.heap.top
  rcases userBetterFree_yields hend () t hrun with ⟨rfl, -⟩ | ⟨before, cur, after, u, hlive, -, -, hunlays, rfl⟩
  · exact h
  · have hcur : cur ∈ s.live p := by simp [hlive]
    have hspare : (u.withHeap p (before ++ after) (cur :: s.idle p) (s.top p)).spare p = s.spare p := by
      rw [Vm.spare_withHeap, hunlays.same.spare]
    refine ⟨by rw [hspare]; exact hheap, by rw [Vm.top_withHeap]; exact h.below, by rw [hspare]; exact h.aligned,
      fun a ha => ?_, fun a ha => ?_, fun v hlo hhi => ?_, (h.grounds.unlays hunlays).withHeap⟩
    · rw [Vm.entry_withHeap, hunlays.entry, if_neg]
      · exact h.held a ha
      · intro hin
        exact h.not_spans (List.mem_append_left _ ha) (by simp [hcur]) (mem_releasedPages.mp hin).1
    · rw [hspare] at ha
      rw [Vm.entry_withHeap, hunlays.entry]
      split_ifs
      · rfl
      · exact h.clear a ha
    · rw [Vm.top_withHeap] at hlo
      rw [Vm.entry_withHeap, hunlays.entry]
      split_ifs
      · rfl
      · exact h.above v hlo hhi

lemma allocate (h : TwoInv p hi own lost s) (hmax : hi * 4096 ≤ maxva) (hal : nextPage s p % 4096 = 0)
    (hroom : s.spare p = [] → s.top p + 4096 ≤ hi * 4096) (ht : Allocated p s (nextPage s p) t) :
    TwoInv p hi (nextPage s p :: own) lost t := by
  obtain ⟨f, hf, hentry⟩ := ht.entry
  have hvalid : ∀ v, (s.entry p v).v = true → (t.entry p v).v = true := by
    intro v hv
    rw [hentry]
    by_cases hvp : v = nextPage s p / 4096
    · rw [hvp, update_self]
      rfl
    · rwa [update_of_ne hvp]
  have hgrounds : Grounds p 1024 hi t := by
    have g := h.grounds
    refine ⟨fun f hf => (ht.bounds.managed f).mpr (g.free f (ht.free f hf)), fun hm => g.null ((ht.bounds.managed 0).mp hm),
      fun v hlo hhi hv => ?_⟩
    rw [hentry] at hv ⊢
    by_cases hvp : v = nextPage s p / 4096
    · rw [hvp, update_self, Pte.leaf_pa (g.free f hf).1]
      exact ⟨rfl, (ht.bounds.managed f).mpr (g.free f hf)⟩
    · rw [update_of_ne hvp] at hv ⊢
      exact ⟨(g.leaf v hlo hhi hv).1, (ht.bounds.managed _).mpr (g.leaf v hlo hhi hv).2⟩
  have hheld : ∀ a ∈ nextPage s p :: own, (t.entry p (a / 4096)).v = true := by
    intro a ha
    rcases List.mem_cons.mp ha with rfl | ha
    · rw [hentry, update_self]
      rfl
    · exact hvalid _ (h.held a ha)
  have hbacked : ∀ m ∈ s.live p, Backed t p m := fun m hm v hv => hvalid v (h.heap.backed m hm v hv)
  rcases List.eq_nil_or_concat (s.spare p) with hnil | ⟨init, last, hsnoc⟩
  · have hnext : nextPage s p = s.top p := by rw [nextPage, hnil]; rfl
    have htop : t.top p = s.top p + 4096 := by rw [ht.top, if_pos hnil]
    have hspare : t.spare p = [] := by rw [ht.spare, hnil]; rfl
    have hend := hroom hnil
    refine ⟨?_, by omega, ?_, hheld, by rw [hspare]; simp, fun v hlo hhi => ?_, hgrounds⟩
    · refine h.heap.repaged ht.live ht.idle ht.bottom (by omega) (by omega) ?_ hbacked
      have hgrow := h.heap.tiles.grow h.heap.le 4096
      rw [hnil] at hgrow
      rw [hspare, htop, hnext]
      exact hgrow.perm List.perm_middle
    · intro a ha
      rw [hspare, List.append_nil] at ha
      rcases List.mem_cons.mp ha with rfl | ha
      · exact hal
      · exact h.aligned a (List.mem_append_left _ ha)
    · rw [hentry, update_of_ne (by omega)]
      exact h.above v (by omega) hhi
  · have hnext : nextPage s p = last := by rw [nextPage, hsnoc, List.concat_eq_append, List.getLastD_concat]
    have hne : s.spare p ≠ [] := by rw [hsnoc]; simp
    have htop : t.top p = s.top p := by rw [ht.top, if_neg hne]
    have hspare : t.spare p = init := by rw [ht.spare, hsnoc, List.concat_eq_append, List.dropLast_concat]
    have hperm : (last :: own ++ init).Perm (own ++ s.spare p) := by
      rw [hsnoc, List.concat_eq_append, ← List.append_assoc]
      exact (List.perm_append_singleton last (own ++ init)).symm
    have hlast : last ∈ own ++ s.spare p := hperm.mem_iff.mp (by simp)
    have hwithin := h.page_within hlast
    refine ⟨?_, by rw [htop]; exact h.below, ?_, hheld, fun a ha => ?_, fun v hlo hhi => ?_, hgrounds⟩
    · refine h.heap.repaged ht.live ht.idle ht.bottom htop.ge (by rw [htop]; exact h.heap.top) ?_ hbacked
      rw [hspare, htop, hnext]
      exact h.heap.tiles.perm ((hperm.map _).append_left _)
    · intro a ha
      rw [hspare, hnext] at ha
      exact h.aligned a (hperm.mem_iff.mp ha)
    · rw [hspare] at ha
      have hnd : (last :: own ++ init).Nodup := hperm.nodup_iff.mpr h.nodup
      have hapart : a ≠ last := by
        rintro rfl
        exact (List.nodup_cons.mp hnd).1 (List.mem_append_right _ ha)
      have hmem : a ∈ own ++ s.spare p := hperm.mem_iff.mp (by simp [ha])
      have := h.aligned a hmem
      have := h.aligned last hlast
      rw [hentry, hnext, update_of_ne (by omega)]
      exact h.clear a (by rw [hsnoc]; simp [ha])
    · rw [hentry, hnext, update_of_ne (by omega)]
      exact h.above v (by omega) hhi

lemma release (h : TwoInv p hi own lost s) (hva : va ∈ own) (ht : Freed p s va t) : TwoInv p hi (own.erase va) lost t := by
  have hmem : va ∈ own ++ s.spare p := List.mem_append_left _ hva
  have hal := h.aligned va hmem
  have hwithin := h.page_within hmem
  have hlow : 0x400000 ≤ va := hwithin.1
  have hv := h.held va hva
  have hin : va / 4096 < hi := by
    have := h.below
    omega
  have hm := (h.grounds.leaf (va / 4096) (by omega) hin hv).2
  have hun := unlays_unmapped hv hm
  have hentry : ∀ v, t.entry p v = if v = va / 4096 then {} else s.entry p v := by
    intro v
    rw [ht.entry, hun.entry]
    simp
  have hperm : (own.erase va ++ (s.spare p ++ [va])).Perm (own ++ s.spare p) := by
    rw [← List.append_assoc]
    refine (List.perm_append_singleton va _).trans ?_
    exact (List.perm_cons_erase hva).symm.append_right _
  have hgrounds : Grounds p 1024 hi t := by
    have g := h.grounds.unlays hun
    refine ⟨by rw [ht.pmm]; exact g.free, by rw [ht.pmm]; exact g.null, ?_⟩
    rw [ht.entry, ht.pmm]
    exact g.leaf
  have hbacked : ∀ m ∈ s.live p, Backed t p m := by
    intro m hm v hspan
    rw [hentry, if_neg]
    · exact h.heap.backed m hm v hspan
    · rintro rfl
      exact h.not_spans hmem (by simp [hm]) hspan
  refine ⟨?_, by rw [ht.top]; exact h.below, ?_, fun a ha => ?_, fun a ha => ?_, fun v hlo hhi => ?_, hgrounds⟩
  · refine h.heap.repaged ht.live ht.idle ht.bottom ht.top.ge (by rw [ht.top]; exact h.heap.top) ?_ hbacked
    rw [ht.spare, ht.top]
    exact h.heap.tiles.perm ((hperm.map _).append_left _)
  · intro a ha
    rw [ht.spare] at ha
    exact h.aligned a (hperm.mem_iff.mp ha)
  · have hnd : own.Nodup := (List.nodup_append.mp h.nodup).1
    obtain ⟨hne, ha⟩ := hnd.mem_erase_iff.mp ha
    have := h.aligned a (List.mem_append_left _ ha)
    rw [hentry, if_neg (by omega)]
    exact h.held a ha
  · rw [hentry]
    split_ifs with hpage
    · rfl
    · rw [ht.spare] at ha
      rcases List.mem_append.mp ha with ha | ha
      · exact h.clear a ha
      · exact absurd (by rw [List.mem_singleton.mp ha]) hpage
  · rw [ht.top] at hlo
    rw [hentry]
    split_ifs
    · rfl
    · exact h.above v hlo hhi

end TwoInv

def CanAllocate (p : Pid) (hi : ℕ) (s : Vm) : Prop :=
  s.spare p = [] → s.top p % 4096 = 0 ∧ s.top p + 4096 ≤ hi * 4096

def CanMalloc (p : Pid) (hi : ℕ) (s : Vm) (size : ℕ) : Prop :=
  (∀ m ∈ s.idle p, m.size < size) → s.top p + size ≤ hi * 4096

structure TwoKept (p : Pid) (hi : ℕ) (s t : Vm) : Prop where
  live : t.live p = s.live p
  idle : t.idle p = s.idle p
  top : t.top p = s.top p
  bottom : t.bottom p = s.bottom p
  spare : t.spare p = s.spare p
  entry : ∀ v, 1024 ≤ v → v < hi → (t.entry p v).v = (s.entry p v).v
  grounds : Grounds p 1024 hi t

/-- Interleavings of the four calls by one process; `own` are the pages that `sys_user_allocate_page` has returned and
that have not been freed. Nothing but the heap has pages between `USER_FREE_ADDRESS_START` and page `hi`. -/
inductive TwoRun (p : Pid) (hi : ℕ) : List ℕ → List Malloc → Vm → Prop
  | start {s : Vm} : HeapStart p s → s.spare p = [] → Grounds p 1024 hi s → 1024 ≤ hi →
      (∀ v, 1024 ≤ v → v < hi → (s.entry p v).v = false) → TwoRun p hi [] [] s
  | others {s t : Vm} {own : List ℕ} {lost : List Malloc} : TwoRun p hi own lost s → TwoKept p hi s t → TwoRun p hi own lost t
  | allocate {s t : Vm} {own : List ℕ} {lost : List Malloc} {va : ℕ} : TwoRun p hi own lost s → CanAllocate p hi s →
      3 ≤ s.pmm.gFreeMemList.length → sysUserAllocatePage p s = .done va t → TwoRun p hi (va :: own) lost t
  | release {s t : Vm} {own : List ℕ} {lost : List Malloc} {va r : ℕ} : TwoRun p hi own lost s → va ∈ own →
      (s.space p).userHeap.freePagesCount < maxHeapPages → sysUserFreePage p va s = .done r t →
      TwoRun p hi (own.erase va) lost t
  | malloc {s t : Vm} {own : List ℕ} {lost : List Malloc} {size r : ℕ} : TwoRun p hi own lost s → CanMalloc p hi s size →
      userBetterMalloc p size s = .done r t → TwoRun p hi own (if r = 0 then lost else forgets s p size ++ lost) t
  | free {s t : Vm} {own : List ℕ} {lost : List Malloc} {va : ℕ} : TwoRun p hi own lost s →
      userBetterFree p va s = .done () t → TwoRun p hi own lost t

lemma CanMalloc.countFits (h : CanMalloc p hi s size) (hmax : hi * 4096 ≤ maxva) : CountFits s p size := by
  intro hsmall
  have hend : s.top p + size ≤ 2 ^ 38 := (h hsmall).trans hmax
  omega

namespace TwoInv

lemma start (h : HeapStart p s) (hspare : s.spare p = []) (hg : Grounds p 1024 hi s) (hhi : 1024 ≤ hi)
    (hun : ∀ v, 1024 ≤ v → v < hi → (s.entry p v).v = false) : TwoInv p hi [] [] s := by
  have htop : s.top p = 0x400000 := h.top
  refine ⟨?_, by omega, ?_, by simp, ?_, fun v hlo hhi => hun v (by omega) hhi, hg⟩
  · rw [hspare]
    exact .start h
  · rw [hspare]
    simp
  · rw [hspare]
    simp

lemma page_low (h : TwoInv p hi own lost s) (ha : a ∈ own ++ s.spare p) : 1024 ≤ a / 4096 ∧ a / 4096 < hi := by
  have hwithin := h.page_within ha
  have hlow : 0x400000 ≤ a := hwithin.1
  have := h.below
  omega

lemma block_low (h : TwoInv p hi own lost s) {m : Malloc} (hm : m ∈ s.live p ++ s.idle p ++ lost) : Inside 1024 hi m := by
  have hwithin := h.heap.within hm
  rw [h.heap.bottom] at hwithin
  have hlow : 0x400000 ≤ m.va := hwithin.1
  exact ⟨by omega, hwithin.2.trans h.below⟩

lemma kept (h : TwoInv p hi own lost s) (hk : TwoKept p hi s t) : TwoInv p hi own lost t := by
  refine ⟨?_, by rw [hk.top]; exact h.below, by rw [hk.spare]; exact h.aligned, fun a ha => ?_, fun a ha => ?_,
    fun v hlo hhi => ?_, hk.grounds⟩
  · rw [hk.spare]
    refine h.heap.repaged hk.live hk.idle hk.bottom hk.top.ge (by rw [hk.top]; exact h.heap.top) ?_ fun m hm v hv => ?_
    · rw [hk.top]
      exact h.heap.tiles
    · obtain ⟨hlo, hhi⟩ := h.block_low (m := m) (by simp [hm])
      rw [hk.entry v (hlo.trans hv.1) (Nat.lt_of_mul_lt_mul_right (hv.2.trans_le hhi))]
      exact h.heap.backed m hm v hv
  · obtain ⟨hlo, hhi⟩ := h.page_low (List.mem_append_left _ ha)
    rw [hk.entry _ hlo hhi]
    exact h.held a ha
  · rw [hk.spare] at ha
    obtain ⟨hlo, hhi⟩ := h.page_low (List.mem_append_right _ ha)
    rw [hk.entry _ hlo hhi]
    exact h.clear a ha
  · rw [hk.top] at hlo
    have hle : 0x400000 ≤ s.top p := h.heap.top_ge
    rw [hk.entry v (by omega) hhi]
    exact h.above v hlo hhi

lemma next (h : TwoInv p hi own lost s) (hcan : CanAllocate p hi s) : nextPage s p % 4096 = 0 ∧
    nextPage s p / 4096 < hi ∧ (s.entry p (nextPage s p / 4096)).v = false ∧
    ∀ m ∈ s.live p, nextPage s p + 4096 ≤ m.va ∨ m.va + m.size ≤ nextPage s p := by
  rcases List.eq_nil_or_concat (s.spare p) with hnil | ⟨init, last, hsnoc⟩
  · have hnext : nextPage s p = s.top p := by rw [nextPage, hnil]; rfl
    obtain ⟨hal, hend⟩ := hcan hnil
    rw [hnext]
    refine ⟨hal, by omega, h.above _ (by omega) (by omega), fun m hm => .inr (h.heap.within (by simp [hm])).2⟩
  · have hnext : nextPage s p = last := by rw [nextPage, hsnoc, List.concat_eq_append, List.getLastD_concat]
    have hlast : last ∈ s.spare p := by rw [hsnoc]; simp
    have hmem : last ∈ own ++ s.spare p := List.mem_append_right _ hlast
    rw [hnext]
    exact ⟨h.aligned last hmem, (h.page_low hmem).2, h.clear last hlast, fun m hm => h.apart hmem (by simp [hm])⟩

lemma allocate_returns (h : TwoInv p hi own lost s) (hmax : hi * 4096 ≤ maxva) (hcan : CanAllocate p hi s)
    (hfree : 3 ≤ s.pmm.gFreeMemList.length) :
    returns (sysUserAllocatePage p) (fun va t => va = nextPage s p ∧ Allocated p s va t) s := by
  obtain ⟨hal, hhi, hun, -⟩ := h.next hcan
  refine sysUserAllocatePage_returns hal ?_ (fun a ha => ?_) hun hfree
  · refine lt_of_lt_of_le ?_ hmax
    omega
  · have := (h.page_within (List.mem_append_right _ ha)).2
    omega

lemma release_returns (h : TwoInv p hi own lost s) (hmax : hi * 4096 ≤ maxva) (hva : va ∈ own)
    (hcount : (s.space p).userHeap.freePagesCount < maxHeapPages) :
    returns (sysUserFreePage p va) (fun r t => r = 0 ∧ Freed p s va t) s := by
  have hmem : va ∈ own ++ s.spare p := List.mem_append_left _ hva
  obtain ⟨hlo, hhi⟩ := h.page_low hmem
  exact sysUserFreePage_returns h.grounds (h.aligned va hmem) hlo hhi hmax (h.held va hva) hcount

lemma malloc_returns (h : TwoInv p hi own lost s) (hmax : hi * 4096 ≤ maxva) (hcan : CanMalloc p hi s size)
    (hfree : EnoughFor s size) : returns (userBetterMalloc p size) (fun _ _ => True) s := by
  by_cases hsize : size = 0
  · subst hsize
    exact returns_done rfl trivial
  refine returns_mono (userBetterMalloc_returns h.grounds (fun m hm => h.block_low (by simp [hm])) hmax ?_ hfree)
    fun _ _ _ => trivial
  intro hsmall
  have hend := hcan hsmall
  have hlast := le_of_newPages (s.top p) hsize
  have hle : 0x400000 ≤ s.top p := h.heap.top_ge
  refine ⟨by omega, Nat.lt_of_mul_lt_mul_right (hlast.trans_le hend), fun v hlo hhi => h.above v (by omega) ?_⟩
  exact lt_of_le_of_lt hhi (Nat.lt_of_mul_lt_mul_right (hlast.trans_le hend))

lemma free_returns (h : TwoInv p hi own lost s) (hmax : hi * 4096 ≤ maxva) :
    returns (userBetterFree p va) (fun _ _ => True) s :=
  userBetterFree_returns h.grounds (fun m hm => ⟨h.block_low (by simp [hm]), h.heap.backed m hm⟩) hmax

end TwoInv

theorem TwoRun.invariant (h : TwoRun p hi own lost s) (hmax : hi * 4096 ≤ maxva) : TwoInv p hi own lost s := by
  induction h with
  | start h hspare hg hhi hun => exact .start h hspare hg hhi hun
  | others _ hk ih => exact ih.kept hk
  | allocate _ hcan hfree hrun ih =>
    obtain ⟨va, t, hdone, rfl, ht⟩ := returns_iff.mp (ih.allocate_returns hmax hcan hfree)
    rw [hdone] at hrun
    cases hrun
    exact ih.allocate hmax (ih.next hcan).1 (fun hnil => (hcan hnil).2) ht
  | release _ hva hcount hrun ih =>
    obtain ⟨r, t, hdone, rfl, ht⟩ := returns_iff.mp (ih.release_returns hmax hva hcount)
    rw [hdone] at hrun
    cases hrun
    exact ih.release hva ht
  | malloc _ hcan hrun ih => exact ih.malloc (hcan.countFits hmax) hcan hrun
  | free _ hrun ih => exact ih.free hrun

structure Coexist (p : Pid) (hi : ℕ) (own : List ℕ) (s : Vm) : Prop where
  allocate : CanAllocate p hi s → 3 ≤ s.pmm.gFreeMemList.length → ∃ va t, sysUserAllocatePage p s = .done va t ∧
    va % 4096 = 0 ∧ (s.entry p (va / 4096)).v = false ∧ ∀ m ∈ s.live p, va + 4096 ≤ m.va ∨ m.va + m.size ≤ va
  release : ∀ va ∈ own, (s.space p).userHeap.freePagesCount < maxHeapPages → ∃ t, sysUserFreePage p va s = .done 0 t
  malloc : ∀ size, CanMalloc p hi s size → EnoughFor s size → ∃ r t, userBetterMalloc p size s = .done r t
  free : ∀ va, ∃ t, userBetterFree p va s = .done () t

/-- The two allocators coexist in every run in which pages are taken at page boundaries only, not more pages are freed
than can be recorded, and the heap stays below the pages that are mapped above it. -/
theorem heaps_coexist_when_aligned (hmax : hi * 4096 ≤ maxva) (hrun : TwoRun p hi own lost s) : Coexist p hi own s := by
  have h := hrun.invariant hmax
  refine ⟨fun hcan hfree => ?_, fun va hva hcount => ?_, fun size hcan hfree => ?_, fun va => ?_⟩
  · obtain ⟨va, t, hdone, rfl, -⟩ := returns_iff.mp (h.allocate_returns hmax hcan hfree)
    obtain ⟨hal, -, hun, hapart⟩ := h.next hcan
    exact ⟨_, t, hdone, hal, hun, hapart⟩
  · obtain ⟨r, t, hdone, rfl, -⟩ := returns_iff.mp (h.release_returns hmax hva hcount)
    exact ⟨t, hdone⟩
  · obtain ⟨r, t, hdone, -⟩ := returns_iff.mp (h.malloc_returns hmax hcan hfree)
    exact ⟨r, t, hdone⟩
  · obtain ⟨_, t, hdone, -⟩ := returns_iff.mp (h.free_returns hmax)
    exact ⟨t, hdone⟩

def heapRoom (p : Pid) (n : ℕ) (s : Vm) : Bool :=
  HeapStart.holds p s && (s.spare p).isEmpty &&
    decide ((∀ f ∈ s.pmm.gFreeMemList, s.pmm.Managed f) ∧ ¬ s.pmm.Managed 0) &&
    (List.range n).all fun i => !(s.entry p (1024 + i)).v

lemma TwoRun.of_heapRoom (h : heapRoom p n s = true) : TwoRun p (1024 + n) [] [] s := by
  simp only [heapRoom, Bool.and_eq_true, List.isEmpty_iff, decide_eq_true_eq, List.all_eq_true, List.mem_range,
    Bool.not_eq_true'] at h
  obtain ⟨⟨⟨hstart, hspare⟩, hfree, hnull⟩, hun⟩ := h
  have hun' : ∀ v, 1024 ≤ v → v < 1024 + n → (s.entry p v).v = false := by
    intro v hlo hhi
    obtain ⟨i, rfl⟩ := Nat.exists_eq_add_of_le hlo
    exact hun i (by omega)
  refine .start (.of_holds hstart) hspare ⟨hfree, hnull, fun v hlo hhi hv => ?_⟩ (Nat.le_add_right _ _) hun'
  rw [hun' v hlo hhi] at hv
  cases hv

def firstRoom (n : ℕ) (obs : Vm → Bool) : Bool :=
  (play (fun _ _ => true) [.load onePage 0x10000] smallBoot).any fun s => heapRoom 0 n s.vm && obs s.vm

lemma firstRoom_run {obs : Vm → Bool} (h : firstRoom n obs = true) : ∃ s, TwoRun 0 (1024 + n) [] [] s ∧ obs s = true := by
  obtain ⟨s, -, hs⟩ := (Option.any_eq_true _ _).mp h
  rw [Bool.and_eq_true] at hs
  exact ⟨s.vm, .of_heapRoom hs.1, hs.2⟩

theorem heaps_coexist_in_turn : ∃ s lost, TwoRun 0 1040 [0x401000] lost s ∧ s.live 0 ≠ [] ∧ Coexist 0 1040 [0x401000] s := by
  have hrun : firstRoom 16 (fun s => decide (s.top 0 = 0x400000) && (userBetterMalloc 0 4096 s).ends fun _ t =>
      decide (t.top 0 = 0x401000 ∧ 3 ≤ t.pmm.gFreeMemList.length) && (sysUserAllocatePage 0 t).ends fun va u =>
        decide (va = 0x401000) && !(u.live 0).isEmpty) = true := by decide +kernel
  obtain ⟨s, hs, hobs⟩ := firstRoom_run hrun
  rw [Bool.and_eq_true, decide_eq_true_eq] at hobs
  obtain ⟨r, t, ht, htobs⟩ := Outcome.ends_done hobs.2
  rw [Bool.and_eq_true, decide_eq_true_eq] at htobs
  obtain ⟨va, u, hu, huobs⟩ := Outcome.ends_done htobs.2
  rw [Bool.and_eq_true, decide_eq_true_eq] at huobs
  obtain ⟨rfl, hlive⟩ := huobs
  have hmalloc := hs.malloc (fun _ => by rw [hobs.1]; norm_num) ht
  have hpage := hmalloc.allocate (fun _ => by rw [htobs.1.1]; norm_num) htobs.1.2 hu
  exact ⟨u, _, hpage, by simpa using hlive, heaps_coexist_when_aligned (by norm_num) hpage⟩

theorem allocate_after_malloc_killed : ∃ s lost t, TwoRun 0 1040 [] lost s ∧ 3 ≤ s.pmm.gFreeMemList.length ∧
    (s.entry 0 (s.top 0 / 4096)).v = true ∧ sysUserAllocatePage 0 s = .left t := by
  have hrun : firstRoom 16 (fun s => decide (s.top 0 = 0x400000) && (userBetterMalloc 0 1 s).ends fun _ t =>
      decide (3 ≤ t.pmm.gFreeMemList.length) && (t.entry 0 (t.top 0 / 4096)).v && match sysUserAllocatePage 0 t with
        | .left _ => true
        | _ => false) = true := by decide +kernel
  obtain ⟨s, hs, hobs⟩ := firstRoom_run hrun
  rw [Bool.and_eq_true, decide_eq_true_eq] at hobs
  obtain ⟨r, t, ht, htobs⟩ := Outcome.ends_done hobs.2
  rw [Bool.and_eq_true, Bool.and_eq_true, decide_eq_true_eq] at htobs
  have hmalloc := hs.malloc (fun _ => by rw [hobs.1]; norm_num) ht
  cases hend : sysUserAllocatePage 0 t with
  | left u => exact ⟨t, _, u, hmalloc, htobs.1.1, htobs.1.2, hend⟩
  | done a u | halted | undefined =>
    rw [hend] at htobs
    cases htobs.2

end Pke.Memory
