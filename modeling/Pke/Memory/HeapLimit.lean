import Pke.Memory.HeapLaws
import Pke.Memory.TwoHeaps

/-! The two arrays of `MAX_HEAP_PAGES` elements: `free_pages_address` of a process and `free_block_filter` of `do_fork`. -/

namespace Pke.Memory

open Lib Flow Function Processes

variable {s t u : Vm} {p c q : Pid} {va v a n pa size : ℕ} {garbage : ℕ → Bool}

structure High (s : Vm) : Prop where
  start : 0x420000 ≤ s.pmm.freeMemStartAddr
  trap : 0x420000 ≤ s.trapSecStart
  free : ∀ f ∈ s.pmm.gFreeMemList, s.pmm.Managed f

lemma High.frame (h : High s) {f : ℕ} (hf : f ∈ s.pmm.gFreeMemList) : 0x420000 ≤ f := h.start.trans (h.free f hf).2.1.1

lemma High.congr (h : High s) (hb : s.pmm.SameBounds t.pmm) (htrap : t.trapSecStart = s.trapSecStart)
    (hfree : ∀ f ∈ t.pmm.gFreeMemList, t.pmm.Managed f) : High t :=
  ⟨by rw [hb.1]; exact h.start, by rw [htrap]; exact h.trap, hfree⟩

structure Builds (c : Pid) (X : ℕ → Prop) (s t : Vm) : Prop where
  others : ∀ q, q ≠ c → t.space q = s.space q
  clear : ∀ v, X v → (s.entry c v).v = false → (t.entry c v).v = false
  trapframe : (t.space c).trapframe = (s.space c).trapframe
  heap : (t.space c).userHeap = (s.space c).userHeap
  high : High s → High t

namespace Builds

variable {X : ℕ → Prop} {perm : Pte}

lemma refl (s : Vm) : Builds c X s s := ⟨fun _ _ => rfl, fun _ _ => id, rfl, rfl, id⟩

lemma trans (s t u : Vm) (h : Builds c X s t) (h' : Builds c X t u) : Builds c X s u where
  others q hq := (h'.others q hq).trans (h.others q hq)
  clear v hv := h'.clear v hv ∘ h.clear v hv
  trapframe := h'.trapframe.trans h.trapframe
  heap := h'.heap.trans h.heap
  high := h'.high ∘ h.high

lemma of_space (h : t.space = s.space) (hh : High s → High t) : Builds c X s t := by
  refine ⟨fun _ _ => by rw [h], fun v _ hv => ?_, by rw [h], by rw [h], hh⟩
  rwa [Vm.entry, h]

lemma setSpace (s : Vm) {f : Space → Space} (htable : ∀ a, (f a).pagetable = a.pagetable)
    (hframe : ∀ a, (f a).trapframe = a.trapframe) (hheap : ∀ a, (f a).userHeap = a.userHeap) :
    Builds c X s (s.setSpace c f) := by
  refine ⟨fun q hq => by simp [hq], fun v _ hv => ?_, by simp [hframe], by simp [hheap], fun h => ⟨h.start, h.trap, h.free⟩⟩
  rwa [Vm.entry, Vm.setSpace_self, htable]

lemma of_spends (h : Spends c n s t) (he : t.entry c = s.entry c) : Builds c X s t := by
  refine ⟨h.other, fun v _ hv => by rwa [he], by rw [h.same.fields], by rw [h.same.fields], fun hh => ?_⟩
  exact hh.congr h.same.bounds h.same.trap (h.managed hh.free)

lemma setPte (s : Vm) {e : Pte} (hv : ¬ X v) : Builds c X s (s.setTable c (·.setPte v e)) := by
  refine ⟨fun q hq => by simp [Vm.setTable, hq], fun w hw hs => ?_, by simp [Vm.setTable], by simp [Vm.setTable],
    fun h => ⟨h.start, h.trap, h.free⟩⟩
  have hne : w ≠ v := fun he => hv (he ▸ hw)
  rw [Vm.entry_setTable]
  by_cases hhas : (s.space c).pagetable.Has w
  · rw [Vm.entry, PageTable.entry_of_has hhas] at hs
    rw [PageTable.entry_of_has (by exact hhas)]
    change (update (s.space c).pagetable.pte v e w).v = false
    rwa [update_of_ne hne]
  · rw [PageTable.entry_eq, if_neg (by exact hhas)]

lemma allocPage : Carries (Builds c X) allocPage := by
  intro s
  cases hl : s.pmm.gFreeMemList with
  | nil => exact yields_done (allocPage_nil hl) (refl s)
  | cons f rest => exact yields_done (allocPage_cons hl) (of_spends (.took c hl) rfl)

lemma allocOrNull : Carries (Builds c X) allocOrNull := .bind trans allocPage fun _ => .pure refl _

lemma memcpyPage (dst src : ℕ) : Carries (Builds c X) (memcpyPage dst src) :=
  .ite .halt (.modify fun _ => of_space rfl fun h => ⟨h.start, h.trap, h.free⟩)

lemma pageWalk (X : ℕ → Prop) : yields (pageWalk c va true) (fun r t => Builds c X s t ∧ ∀ v, r = some v → v = va / 4096) s := by
  by_cases hva : va < maxva
  · rcases Nat.lt_or_ge s.pmm.gFreeMemList.length ((s.space c).pagetable.missing (va / 4096)) with hlt | hge
    · obtain ⟨t, ht, hs, he⟩ := pageWalk_short hva hlt
      exact yields_done ht ⟨of_spends hs he, fun v hv => by cases hv⟩
    · obtain ⟨t, ht, hs, he, -⟩ := pageWalk_enough hva hge
      exact yields_done ht ⟨of_spends hs he, fun v hv => (Option.some.inj hv).symm⟩
  · rw [Memory.pageWalk, if_pos (not_lt.mp hva)]
    exact yields_leave

lemma mapOne {e : Pte} (hX : ¬ X (a / 4096)) : Carries (Builds c X) (do
    match ← Memory.pageWalk c a true with
    | none => pure false
    | some v =>
      if (((← get).space c).pagetable.pte v).v then leave
      else do
        Memory.setPte c v e
        pure true) := by
  intro s
  refine yields_bind (yields_mono (pageWalk X) ?_)
  rintro r t ⟨ht, hr⟩
  cases r with
  | none => exact yields_pure ht
  | some v =>
    obtain rfl := hr v rfl
    refine yields_get_bind ?_
    split_ifs
    · exact yields_leave
    · exact yields_bind (yields_modify (yields_pure (trans _ _ _ ht (setPte t hX))))

lemma mapPages (hX : ∀ a ∈ pagesBelow (roundDown va) (roundDown (u64 (va + size + (2 ^ 64 - 1))) + 1), ¬ X (a / 4096)) :
    Carries (Builds c X) (mapPages c va size pa perm) :=
  .all_mem refl trans fun a ha => mapOne (hX a ha)

lemma userVmMap (hX : ∀ a ∈ pagesBelow (roundDown va) (roundDown (u64 (va + size + (2 ^ 64 - 1))) + 1), ¬ X (a / 4096)) :
    Carries (Builds c X) (userVmMap c va size pa perm) :=
  .bind trans (mapPages hX) fun _ => .ite (.pure refl _) .leave

lemma userVmMapCow (hX : ∀ a ∈ pagesBelow (roundDown va) (roundDown (u64 (va + size + (2 ^ 64 - 1))) + 1), ¬ X (a / 4096)) :
    Carries (Builds c X) (userVmMapCow c va size pa) :=
  .bind trans (.all_mem refl trans fun a ha => mapOne (hX a ha)) fun _ => .pure refl _

section Apart

variable (hX : ∀ v, X v → 1024 ≤ v ∧ v < 1056)
include hX

lemma userVmMap_high (h : 0x420000 ≤ va) : Carries (Builds c X) (Memory.userVmMap c va size pa perm) := by
  refine userVmMap fun a ha hin => ?_
  have hfirst := (mem_pagesBelow ha).1
  have hpage := (hX _ hin).2
  unfold roundDown at hfirst
  omega

lemma userVmMap_low (h : va + 4096 ≤ userFreeAddressStart) :
    Carries (Builds c X) (Memory.userVmMap c va 4096 pa perm) := by
  refine userVmMap fun a ha hin => ?_
  have hlast := (mem_pagesBelow ha).2.1
  have hpage := (hX _ hin).1
  have hend : va + 4096 ≤ 0x400000 := h
  unfold roundDown u64 at hlast
  omega

end Apart

lemma setRegion (i : ℕ) (r : Region) : Carries (Builds c X) (Memory.setRegion c i r) :=
  .modify fun s => setSpace s (fun _ => rfl) (fun _ => rfl) fun _ => rfl

lemma deref (pa : ℕ) : Carries (Builds c X) (Memory.deref pa) := .ite .halt (.pure refl _)

lemma registerRegion (r : Region) : Carries (Builds c X) (Memory.registerRegion c r) :=
  .get fun _ => .bind trans (setRegion _ _) fun _ =>
    .modify fun s => setSpace s (fun _ => rfl) (fun _ => rfl) fun _ => rfl

lemma incPageRef (pa : ℕ) : Carries (Builds c X) (Memory.incPageRef pa) :=
  .get fun _ => .ite (.modify fun _ => of_space rfl fun h => ⟨h.start, h.trap, h.free⟩) (.pure refl _)

lemma take {f : ℕ → Space → Space} (htable : ∀ pa a, (f pa a).pagetable = a.pagetable)
    (hframe : ∀ pa a, (f pa a).trapframe = a.trapframe) (hheap : ∀ pa a, (f pa a).userHeap = a.userHeap) :
    Carries (Builds c X) (do
      let pa ← Memory.allocOrNull
      modify fun s => s.setSpace c (f pa)
      Memory.deref pa) :=
  .bind trans allocOrNull fun _ =>
    .bind trans (.modify fun s => setSpace s (htable _) (hframe _) (hheap _)) fun _ => deref _

end Builds

section Birth

variable {X : ℕ → Prop} {f : ℕ}

structure Clean (c : Pid) (X : ℕ → Prop) (f : ℕ) (s u : Vm) : Prop where
  others : ∀ q, q ≠ c → u.space q = s.space q
  clear : ∀ v, X v → (u.entry c v).v = false
  trapframe : (u.space c).trapframe = f
  high : High u

lemma Clean.step (h : Clean c X f s u) (hb : Builds c X u t) : Clean c X f s t where
  others q hq := (hb.others q hq).trans (h.others q hq)
  clear v hv := hb.clear v hv (h.clear v hv)
  trapframe := hb.trapframe.trans h.trapframe
  high := hb.high h.high

lemma Clean.bind {α β : Type} {m : Flow Vm α} {g : α → Flow Vm β} {Q : β → Vm → Prop} (h : Clean c X f s u)
    (hm : Carries (Builds c X) m) (hg : ∀ r t, Clean c X f s t → yields (g r) Q t) : yields (m >>= g) Q u :=
  yields_bind (yields_mono (hm u) fun r t ht => hg r t (h.step ht))

lemma allocTrapframe_clean (hh : High s) : yields (allocTrapframe c) (fun _ t =>
    ∃ f, 0x420000 ≤ f ∧ (∀ q, q ≠ c → t.space q = s.space q) ∧ (t.space c).trapframe = f ∧ High t) s := by
  rw [allocTrapframe, allocOrNull]
  cases hl : s.pmm.gFreeMemList with
  | nil => exact yields_bind_done (bind_done (allocPage_nil hl)) (yields_modify_bind yields_halt)
  | cons f rest =>
    have hf := hh.frame (f := f) (by simp [hl])
    have hhigh := (Builds.of_spends (X := fun _ => False) (Spends.took c hl) rfl).high hh
    refine yields_bind_done (bind_done (allocPage_cons hl)) (yields_modify_bind ?_)
    refine yields_mono (Q := fun _ t => t = (s.took f rest).setSpace c fun a => { a with trapframe := f, frame := {} }) ?_ ?_
    · rw [Memory.deref]
      split_ifs
      · exact yields_halt
      · exact yields_pure rfl
    · rintro _ t rfl
      refine ⟨f, hf, fun q hq => by simp [hq, Vm.took], by simp, hhigh.start, hhigh.trap, hhigh.free⟩

lemma allocPagetable_clean (hothers : ∀ q, q ≠ c → u.space q = s.space q)
    (hframe : (u.space c).trapframe = f) (hh : High u) : yields (allocPagetable c) (fun _ t => Clean c X f s t) u := by
  rw [allocPagetable]
  refine yields_bind (yields_mono (Builds.allocOrNull (c := c) (X := X) u) fun pa t ht => yields_modify_bind ?_)
  rw [Memory.deref]
  split_ifs
  · exact yields_halt
  · have hhigh := ht.high hh
    refine yields_pure ⟨fun q hq => ?_, fun v _ => ?_, ?_, hhigh.start, hhigh.trap, hhigh.free⟩
    · rw [Vm.setSpace_of_ne _ hq, ht.others q hq, hothers q hq]
    · rw [Vm.entry, Vm.setSpace_self, PageTable.entry_dir]
    · rw [Vm.setSpace_self]
      exact ht.trapframe.trans hframe

lemma allocProcess_clean (hX : ∀ v, X v → 1024 ≤ v ∧ v < 1056) (hh : High s) : yields (allocProcess c) (fun _ t =>
    (∃ f, Clean c X f s t) ∧ t.top c = userFreeAddressStart ∧ t.bottom c = userFreeAddressStart ∧ t.spare c = []) s := by
  refine yields_bind (yields_mono (allocTrapframe_clean hh) ?_)
  rintro _ t₁ ⟨f, hf, hothers, hframe, hhigh⟩
  refine yields_bind (yields_mono (allocPagetable_clean (X := X) hothers hframe hhigh) fun _ t ht => ?_)
  have hkeep {g : Space → Space} (h : ∀ a, (g a).pagetable = a.pagetable ∧ (g a).trapframe = a.trapframe ∧
      (g a).userHeap = a.userHeap) : Carries (Builds c X) (modify fun s => s.setSpace c g) :=
    .modify fun s => Builds.setSpace s (fun a => (h a).1) (fun a => (h a).2.1) fun a => (h a).2.2
  refine ht.bind (.bind Builds.trans Builds.allocOrNull fun _ => hkeep fun _ => ⟨rfl, rfl, rfl⟩) fun _ t ht => ?_
  refine ht.bind Builds.allocOrNull fun _ t ht => ht.bind (hkeep fun _ => ⟨rfl, rfl, rfl⟩) fun _ t ht => ?_
  refine ht.bind (Builds.take (fun _ _ => rfl) (fun _ _ => rfl) fun _ _ => rfl) fun _ t ht => ?_
  refine ht.bind (Builds.userVmMap_high hX (by norm_num)) fun _ t ht => ht.bind (Builds.setRegion _ _) fun _ t ht => ?_
  refine yields_get_bind ?_
  rw [ht.trapframe]
  refine ht.bind (Builds.userVmMap_high hX hf) fun _ t ht => ht.bind (Builds.setRegion _ _) fun _ t ht => yields_get_bind ?_
  refine ht.bind (Builds.userVmMap_high hX ht.high.trap) fun _ t ht => ht.bind (Builds.setRegion _ _) fun _ t ht => ?_
  refine yields_modify_bind ?_
  generalize hu : t.setHeap c (fun h => { h with
    heapTop := userFreeAddressStart, heapBottom := userFreeAddressStart, freePagesCount := 0 }) = u
  have hclean : Clean c X f s u := by
    subst hu
    refine ⟨fun q hq => ?_, fun v hv => ?_, ?_, ht.high.start, ht.high.trap, ht.high.free⟩
    · rw [Vm.setHeap, Vm.setSpace_of_ne _ hq, ht.others q hq]
    · rw [Vm.entry, Vm.setHeap, Vm.setSpace_self]
      exact ht.clear v hv
    · rw [Vm.setHeap, Vm.setSpace_self]
      exact ht.trapframe
  have hlast : Carries (Builds c X) (do
      setRegion c 3 ⟨userFreeAddressStart, 0, .heap⟩
      modify fun s => s.setSpace c fun a => { a with totalMappedRegion := 4 }
      initProcFileManagement c) :=
    .bind Builds.trans (Builds.setRegion _ _) fun _ => .bind Builds.trans (hkeep fun _ => ⟨rfl, rfl, rfl⟩) fun _ =>
      Builds.take (fun _ _ => rfl) (fun _ _ => rfl) fun _ _ => rfl
  refine yields_mono (hlast u) fun _ w hw => ⟨⟨f, hclean.step hw⟩, ?_, ?_, ?_⟩
  · rw [Vm.top, hw.heap, ← hu]
    simp [Vm.setHeap]
  · rw [Vm.bottom, hw.heap, ← hu]
    simp [Vm.setHeap]
  · rw [Vm.spare, hw.heap, ← hu]
    simp [Vm.setHeap]

end Birth

structure PageInv (p : Pid) (s : Vm) : Prop where
  bottom : s.bottom p = userFreeAddressStart
  top : ∃ n ≤ 32, s.top p = userFreeAddressStart + n * 4096
  listed : ∀ a ∈ s.spare p, a % 4096 = 0 ∧ userFreeAddressStart ≤ a ∧ a < s.top p ∧ (s.entry p (a / 4096)).v = false
  nodup : (s.spare p).Nodup

def Listed (s : Vm) (p : Pid) (v : ℕ) : Prop := v * 4096 ∈ s.spare p

lemma PageInv.range (h : PageInv p s) (hv : Listed s p v) : 1024 ≤ v ∧ v < 1056 := by
  obtain ⟨n, hn, htop⟩ := h.top
  obtain ⟨-, hlo, hhi, -⟩ := h.listed _ hv
  have hlow : 0x400000 ≤ v * 4096 := hlo
  have htop' : s.top p = 0x400000 + n * 4096 := htop
  omega

lemma filterIndex_eq {h : HeapManager} {i : ℕ} (hbottom : h.heapBottom = userFreeAddressStart)
    (ha : h.freePagesAddress i = v * 4096) (hlo : 1024 ≤ v) (hhi : v < 1056) : filterIndex h i = some (v - 1024) := by
  have hk : u64 (h.freePagesAddress i + (2 ^ 64 - h.heapBottom)) / 4096 = v - 1024 := by
    rw [ha, hbottom]
    change (v * 4096 + (2 ^ 64 - 0x400000)) % 2 ^ 64 / 4096 = v - 1024
    omega
  have hint : toInt ((v - 1024 : ℕ) : ℤ) = ((v - 1024 : ℕ) : ℤ) := by
    rw [toInt, Int.bmod_eq_of_le (by omega) (by omega)]
  have hmax : ((v - 1024 : ℕ) : ℤ) < 32 := by omega
  rw [filterIndex, hk, hint, if_pos ⟨by omega, hmax⟩, Int.toNat_natCast]

lemma PageInv.filtered (h : PageInv p s) (hv : Listed s p v) : filtered (s.space p).userHeap garbage (v - 1024) = true := by
  obtain ⟨hlo, hhi⟩ := h.range hv
  obtain ⟨i, hi, ha⟩ := List.mem_map.mp hv
  have hindex := filterIndex_eq h.bottom ha hlo hhi
  rw [Memory.filtered, Bool.or_eq_true, Bool.and_eq_true, decide_eq_true_eq]
  refine .inl ⟨show v - 1024 < 32 by omega, List.any_eq_true.mpr ⟨i, hi, ?_⟩⟩
  rw [hindex]
  exact beq_self_eq_true _

def SegmentsLow (a : Space) : Prop := ∀ i < a.totalMappedRegion, (a.regions i).segType = .code ∨ (a.regions i).segType = .data →
  (a.regions i).npages = 1 ∧ (a.regions i).va + 4096 ≤ userFreeAddressStart

instance (a : Space) : Decidable (SegmentsLow a) :=
  inferInstanceAs (Decidable (∀ i < a.totalMappedRegion, _ → _))

structure Forked (p c : Pid) (s u : Vm) : Prop where
  others : ∀ q, q ≠ p → q ≠ c → u.space q = s.space q
  parent : u.space p = { s.space p with pagetable := (u.space p).pagetable }
  valid : ∀ v, (u.entry p v).v = (s.entry p v).v
  clear : ∀ v, Listed s p v → (u.entry c v).v = false
  heap : (u.top c = userFreeAddressStart ∧ u.bottom c = userFreeAddressStart ∧ u.spare c = []) ∨
    (u.space c).userHeap = (s.space p).userHeap
  high : High u

namespace Forked

lemma parent_heap (h : Forked p c s u) : (u.space p).userHeap = (s.space p).userHeap := by rw [h.parent]

lemma step (h : Forked p c s u) (hpc : c ≠ p) (hb : Builds c (Listed s p) u t) : Forked p c s t := by
  have hp := hb.others p hpc.symm
  refine ⟨fun q hqp hqc => (hb.others q hqc).trans (h.others q hqp hqc), by rw [hp]; exact h.parent, fun v => ?_,
    fun v hv => hb.clear v hv (h.clear v hv), ?_, hb.high h.high⟩
  · rw [Vm.entry, hp]
    exact h.valid v
  · rw [Vm.top, Vm.bottom, Vm.spare, hb.heap]
    exact h.heap

lemma bind {α β : Type} {m : Flow Vm α} {g : α → Flow Vm β} {Q : β → Vm → Prop} (h : Forked p c s u) (hpc : c ≠ p)
    (hm : Carries (Builds c (Listed s p)) m) (hg : ∀ r t, Forked p c s t → yields (g r) Q t) : yields (m >>= g) Q u :=
  yields_bind (yields_mono (hm u) fun r t ht => hg r t (h.step hpc ht))

lemma setCow (h : Forked p c s u) (hpc : c ≠ p) (b : ℕ) :
    yields (userVmSetCow p b) (fun _ t => Forked p c s t) u := by
  by_cases hb : b < maxva
  · refine yields_bind_done (pageWalk_false hb) ?_
    cases hw : (u.space p).pagetable.walk b with
    | none => exact yields_pure h
    | some v =>
      have hhas : (u.space p).pagetable.Has v := by
        rw [PageTable.walk_eq] at hw
        split_ifs at hw with hhas
        rwa [← Option.some.inj hw]
      refine yields_get_bind ?_
      dsimp only
      split_ifs with hv
      · refine yields_modify ⟨fun q hqp hqc => ?_, ?_, fun w => ?_, fun w hw => ?_, ?_, h.high.start, h.high.trap, h.high.free⟩
        · rw [Vm.setTable, Vm.setSpace_of_ne _ hqp, h.others q hqp hqc]
        · rw [Vm.setTable, Vm.setSpace_self, h.parent]
        · rw [← h.valid w, Vm.entry_setTable, PageTable.entry_setPte hhas, update_apply, Vm.entry]
          split_ifs with hwv
          · rw [hwv, PageTable.entry_of_has hhas]
          · rfl
        · rw [Vm.entry, Vm.setTable, Vm.setSpace_of_ne _ hpc]
          exact h.clear w hw
        · rw [Vm.top, Vm.bottom, Vm.spare, Vm.setTable, Vm.setSpace_of_ne _ hpc]
          exact h.heap
      · exact yields_pure h
  · refine yields_bind ?_
    rw [pageWalk, if_pos (not_lt.mp hb)]
    exact yields_leave

lemma shareBlock (h : Forked p c s u) (hpc : c ≠ p) (hs : PageInv p s) {b : ℕ}
    (hb : b ∈ pagesBelow userFreeAddressStart (s.top p)) :
    yields (shareBlock p c garbage b) (fun _ t => Forked p c s t) u := by
  obtain ⟨hlo, -, hal⟩ := mem_pagesBelow hb
  have hal' : b % 4096 = 0 := hal
  have hbottom : (s.space p).userHeap.heapBottom = userFreeAddressStart := hs.bottom
  refine yields_get_bind ?_
  dsimp only
  rw [h.parent_heap, hbottom]
  split_ifs with hf hpa
  · exact yields_pure h
  · exact yields_pure h
  · have hindex : (b - userFreeAddressStart) / 4096 = b / 4096 - 1024 := by
      change (b - 0x400000) / 4096 = b / 4096 - 1024
      omega
    rw [hindex] at hf
    refine h.bind hpc (Builds.userVmMapCow fun a ha hin => ?_) fun _ t ht => ?_
    · obtain ⟨hfirst, hlast, -⟩ := mem_pagesBelow ha
      have hpage : a / 4096 = b / 4096 := by
        unfold roundDown u64 at hlast
        unfold roundDown at hfirst
        omega
      rw [hpage] at hin
      exact hf (hs.filtered hin)
    · refine yields_bind (yields_mono (ht.setCow hpc b) fun _ w hw => ?_)
      exact yields_mono (Builds.incPageRef _ w) fun _ x hx => hw.step hpc hx

lemma forkHeap (h : Forked p c s u) (hpc : c ≠ p) (hs : PageInv p s) :
    yields (forkHeap p c garbage) (fun _ t => Forked p c s t) u := by
  have hbottom : (s.space p).userHeap.heapBottom = userFreeAddressStart := hs.bottom
  refine yields_get_bind ?_
  dsimp only
  rw [h.parent_heap]
  split_ifs
  · have hloop : ∀ l : List ℕ, (∀ b ∈ l, b ∈ pagesBelow userFreeAddressStart (s.top p)) → ∀ w, Forked p c s w →
        yields (each (Memory.shareBlock p c garbage) l) (fun _ t => Forked p c s t) w := by
      intro l
      induction l with
      | nil => exact fun _ w hw => yields_pure hw
      | cons b l ih =>
        intro hl w hw
        refine yields_bind (yields_mono (hw.shareBlock hpc hs (hl b (by simp))) fun _ x hx => ?_)
        exact ih (fun b' hb' => hl b' (by simp [hb'])) x hx
    rw [hbottom]
    refine yields_bind (yields_mono (hloop _ (fun b hb => hb) u h) fun _ w hw => yields_modify ?_)
    refine ⟨fun q hqp hqc => ?_, ?_, fun v => ?_, fun v hv => ?_, .inr ?_, hw.high.start, hw.high.trap, hw.high.free⟩
    · rw [Vm.setSpace_of_ne _ hqc, hw.others q hqp hqc]
    · rw [Vm.setSpace_of_ne _ hpc.symm, hw.parent]
    · rw [Vm.entry, Vm.setSpace_of_ne _ hpc.symm]
      exact hw.valid v
    · rw [Vm.entry, Vm.setSpace_self]
      exact hw.clear v hv
    · rw [Vm.setSpace_self]
      exact hw.parent_heap
  · exact yields_undef

lemma forkRegion (h : Forked p c s u) (hpc : c ≠ p) (hs : PageInv p s) (hlow : SegmentsLow (s.space p)) {i : ℕ}
    (hi : i < (s.space p).totalMappedRegion) : yields (forkRegion p c garbage i) (fun _ t => Forked p c s t) u := by
  have hreg : (u.space p).regions = (s.space p).regions := by rw [h.parent]
  have hX : ∀ v, Listed s p v → 1024 ≤ v ∧ v < 1056 := fun v hv => hs.range hv
  refine yields_get_bind ?_
  dsimp only
  rw [hreg]
  cases hseg : ((s.space p).regions i).segType with
  | context =>
    refine yields_modify (h.step hpc ?_)
    exact Builds.setSpace u (fun _ => rfl) (fun _ => rfl) fun _ => rfl
  | stack => exact yields_mono (Builds.memcpyPage _ _ u) fun _ t ht => h.step hpc ht
  | system => exact yields_pure h
  | heap => exact h.forkHeap hpc hs
  | code =>
    obtain ⟨hone, hend⟩ := hlow i hi (.inl hseg)
    dsimp only
    rw [hone, Nat.one_mul]
    refine h.bind hpc (Builds.userVmMap_low hX hend) fun _ t ht => ?_
    exact yields_mono (Builds.registerRegion _ t) fun _ w hw => ht.step hpc hw
  | data =>
    obtain ⟨hone, hend⟩ := hlow i hi (.inr hseg)
    dsimp only
    rw [hone]
    refine h.bind hpc (.each_mem Builds.refl Builds.trans fun j hj => ?_) fun _ t ht => ?_
    · obtain rfl : j = 0 := by simpa using hj
      refine .get fun _ => .bind Builds.trans Builds.allocOrNull fun _ => ?_
      refine .bind Builds.trans (Builds.memcpyPage _ _) fun _ => Builds.userVmMap_low hX ?_
      rwa [Nat.zero_mul, Nat.add_zero]
    · exact yields_mono (Builds.registerRegion _ t) fun _ w hw => ht.step hpc hw

end Forked

lemma doFork_forked (hpc : c ≠ p) (hs : PageInv p s) (hlow : SegmentsLow (s.space p)) (hh : High s) :
    yields (doFork p c garbage) (fun _ t => Forked p c s t) s := by
  refine yields_bind (yields_mono (allocProcess_clean (X := Listed s p) (fun v hv => hs.range hv) hh) ?_)
  rintro _ t ⟨⟨f, hclean⟩, htop, hbottom, hspare⟩
  have hp := hclean.others p hpc.symm
  have hstart : Forked p c s t := by
    refine ⟨fun q _ hqc => hclean.others q hqc, by rw [hp], fun v => ?_, hclean.clear, .inl ⟨htop, hbottom, hspare⟩, hclean.high⟩
    rw [Vm.entry, hp]
    rfl
  refine yields_get_bind ?_
  rw [hp]
  have hloop : ∀ l : List ℕ, (∀ i ∈ l, i < (s.space p).totalMappedRegion) → ∀ w, Forked p c s w →
      yields (each (forkRegion p c garbage) l) (fun _ t => Forked p c s t) w := by
    intro l
    induction l with
    | nil => exact fun _ w hw => yields_pure hw
    | cons i l ih =>
      intro hl w hw
      refine yields_bind (yields_mono (hw.forkRegion hpc hs hlow (hl i (by simp))) fun _ x hx => ?_)
      exact ih (fun j hj => hl j (by simp [hj])) x hx
  refine yields_bind (yields_mono (hloop _ (fun i hi => List.mem_range.mp hi) t hstart) fun _ w hw => yields_modify ?_)
  exact hw.step hpc (Builds.setSpace w (fun _ => rfl) (fun _ => rfl) fun _ => rfl)

lemma Forked.child (h : Forked p c s u) (hs : PageInv p s) : PageInv c u := by
  rcases h.heap with ⟨htop, hbottom, hspare⟩ | hheap
  · refine ⟨hbottom, ⟨0, by norm_num, htop⟩, fun a ha => ?_, by rw [hspare]; exact List.nodup_nil⟩
    rw [hspare] at ha
    cases ha
  · have htop : u.top c = s.top p := by rw [Vm.top, hheap]; rfl
    have hspare : u.spare c = s.spare p := by rw [Vm.spare, hheap]; rfl
    refine ⟨by rw [Vm.bottom, hheap]; exact hs.bottom, by rw [htop]; exact hs.top, fun a ha => ?_, by rw [hspare]; exact hs.nodup⟩
    rw [hspare] at ha
    obtain ⟨hal, hlo, hhi, -⟩ := hs.listed a ha
    refine ⟨hal, hlo, htop ▸ hhi, h.clear _ ?_⟩
    rwa [Listed, Nat.div_mul_cancel (Nat.dvd_of_mod_eq_zero hal)]

lemma PageInv.congr (h : PageInv p s) (hheap : (t.space p).userHeap = (s.space p).userHeap)
    (hvalid : ∀ v, (t.entry p v).v = (s.entry p v).v) : PageInv p t := by
  have htop : t.top p = s.top p := by rw [Vm.top, hheap]; rfl
  have hspare : t.spare p = s.spare p := by rw [Vm.spare, hheap]; rfl
  refine ⟨by rw [Vm.bottom, hheap]; exact h.bottom, by rw [htop]; exact h.top, fun a ha => ?_, by rw [hspare]; exact h.nodup⟩
  rw [hspare] at ha
  rw [htop, hvalid]
  exact h.listed a ha

lemma PageInv.of_space (h : PageInv p s) (hs : t.space p = s.space p) : PageInv p t :=
  h.congr (by rw [hs]) fun v => by rw [Vm.entry, hs]; rfl

def KeepsLimit (p : Pid) (s t : Vm) : Prop := PageInv p t ∧ High t ∧ ∀ q, q ≠ p → t.space q = s.space q

lemma KeepsLimit.of_builds {X : ℕ → Prop} (hb : Builds p X u t) (hX : ∀ a ∈ u.spare p, X (a / 4096)) (h : KeepsLimit p s u) :
    KeepsLimit p s t := by
  obtain ⟨hinv, hhigh, hothers⟩ := h
  have htop : t.top p = u.top p := by rw [Vm.top, hb.heap]; rfl
  have hspare : t.spare p = u.spare p := by rw [Vm.spare, hb.heap]; rfl
  refine ⟨⟨?_, ?_, fun a ha => ?_, ?_⟩, hb.high hhigh, fun q hq => (hb.others q hq).trans (hothers q hq)⟩
  · rw [Vm.bottom, hb.heap]
    exact hinv.bottom
  · rw [htop]
    exact hinv.top
  · rw [hspare] at ha
    obtain ⟨hal, hlo, hhi, hun⟩ := hinv.listed a ha
    exact ⟨hal, hlo, htop ▸ hhi, hb.clear _ (hX a ha) hun⟩
  · rw [hspare]
    exact hinv.nodup

def CanGrow (p : Pid) (s : Vm) : Prop := s.spare p ≠ [] ∨ s.top p < userFreeAddressStart + maxHeapPages * 4096

instance (p : Pid) (s : Vm) : Decidable (CanGrow p s) := inferInstanceAs (Decidable (_ ∨ _))

lemma PageInv.pop (h : PageInv p s) {l : List ℕ} (hl : s.spare p = l ++ [a]) (htop : t.top p = s.top p)
    (hbottom : t.bottom p = s.bottom p) (hspare : t.spare p = l) (hentry : t.entry p = s.entry p) : PageInv p t := by
  have hn := h.nodup
  rw [hl, List.nodup_append] at hn
  refine ⟨hbottom.trans h.bottom, htop ▸ h.top, fun b hb => ?_, hspare ▸ hn.1⟩
  rw [htop, hentry]
  exact h.listed b (by rw [hl, List.mem_append]; exact .inl (hspare ▸ hb))

lemma PageInv.grow (h : PageInv p s) (hnil : s.spare p = []) (hroom : CanGrow p s) (htop : t.top p = s.top p + 4096)
    (hbottom : t.bottom p = s.bottom p) (hspare : t.spare p = []) : PageInv p t := by
  obtain ⟨n, hn, hs⟩ := h.top
  have hlt : s.top p < userFreeAddressStart + 32 * 4096 := hroom.resolve_left (not_not.mpr hnil)
  have hn' : n < 32 := by
    rw [hs] at hlt
    exact Nat.lt_of_mul_lt_mul_right (Nat.lt_of_add_lt_add_left hlt)
  refine ⟨hbottom.trans h.bottom, ⟨n + 1, hn', by rw [htop, hs, Nat.succ_mul, Nat.add_assoc]⟩, fun b hb => ?_, hspare ▸ List.nodup_nil⟩
  rw [hspare] at hb
  cases hb

lemma sysUserAllocatePage_limit (h : PageInv p s) (hh : High s) (hroom : CanGrow p s) :
    yields (sysUserAllocatePage p) (fun _ t => KeepsLimit p s t) s := by
  rw [sysUserAllocatePage]
  refine yields_bind (yields_mono (Builds.allocPage (c := p) (X := fun _ => True) s) fun pa u hu => yields_get_bind ?_)
  have hu' : KeepsLimit p s u := .of_builds hu (fun _ _ => trivial) ⟨h, hh, fun _ _ => rfl⟩
  obtain ⟨hinv, hhigh, hothers⟩ := hu'
  have hheap : (u.space p).userHeap = (s.space p).userHeap := hu.heap
  have hgrow : CanGrow p u := by
    rwa [CanGrow, Vm.spare, Vm.top, hheap]
  dsimp only
  by_cases hcount : 0 < (u.space p).userHeap.freePagesCount
  · have hsnoc := spare_snoc hcount
    rw [if_pos hcount]
    refine yields_modify_bind ?_
    generalize hva : (u.space p).userHeap.freePagesAddress ((u.space p).userHeap.freePagesCount - 1) = va at hsnoc ⊢
    split_ifs
    swap
    · exact yields_bind yields_halt
    refine yields_bind (yields_pure ?_)
    have hal : va % 4096 = 0 := (hinv.listed va (by rw [hsnoc]; simp)).1
    have hkeeps : KeepsLimit p s (u.setHeap p fun h => { h with freePagesCount := h.freePagesCount - 1 }) := by
      refine ⟨hinv.pop hsnoc ?_ ?_ ?_ ?_, ⟨hhigh.start, hhigh.trap, hhigh.free⟩, fun q hq => ?_⟩
      · simp [Vm.top, Vm.setHeap]
      · simp [Vm.bottom, Vm.setHeap]
      · simp [Vm.spare, Vm.setHeap]
      · funext w
        simp [Vm.entry, Vm.setHeap]
      · rw [Vm.setHeap, Vm.setSpace_of_ne _ hq, hothers q hq]
    refine yields_bind (yields_mono (Builds.userVmMap (X := fun v => v ≠ va / 4096) ?_ _) fun _ w hw => yields_pure ?_)
    · intro b hb hne
      obtain ⟨hfirst, hlast, -⟩ := mem_pagesBelow hb
      apply hne
      unfold roundDown u64 at hlast
      unfold roundDown at hfirst
      omega
    · refine .of_builds hw (fun b hb he => ?_) hkeeps
      have hspare : b ∈ (List.range ((u.space p).userHeap.freePagesCount - 1)).map (u.space p).userHeap.freePagesAddress := by
        simpa [Vm.spare, Vm.setHeap] using hb
      have hb' := hinv.listed b (by rw [hsnoc, List.mem_append]; exact .inl hspare)
      have hn := hinv.nodup
      rw [hsnoc, List.nodup_append] at hn
      exact hn.2.2 b hspare va (by simp) (by omega)
  · have hnil : u.spare p = [] := spare_eq_nil.mpr (by omega)
    rw [if_neg hcount]
    refine yields_modify_bind (yields_modify_bind (yields_bind (yields_pure ?_)))
    refine yields_bind (yields_mono (Builds.userVmMap (X := fun _ => False) (fun _ _ => id) _) fun _ w hw => yields_pure ?_)
    have hspare : ((u.setHeap p fun h => { h with heapTop := h.heapTop + 4096 }).setSpace p fun a => { a with
        regions := update a.regions 3 { a.regions 3 with npages := (a.regions 3).npages + 1 } }).spare p = [] := by
      simpa [Vm.spare, Vm.setHeap] using hcount
    refine .of_builds hw (fun b hb => ?_) ⟨hinv.grow hnil hgrow ?_ ?_ hspare, ⟨hhigh.start, hhigh.trap, hhigh.free⟩, fun q hq => ?_⟩
    · rw [hspare] at hb
      cases hb
    · simp [Vm.top, Vm.setHeap]
    · simp [Vm.bottom, Vm.setHeap]
    · rw [Vm.setSpace_of_ne _ hq, Vm.setHeap, Vm.setSpace_of_ne _ hq, hothers q hq]

def InHeap (p : Pid) (va : ℕ) (s : Vm) : Prop := s.bottom p ≤ va ∧ va < s.top p

instance (p : Pid) (va : ℕ) (s : Vm) : Decidable (InHeap p va s) := inferInstanceAs (Decidable (_ ∧ _))

lemma length_le_of_pages {l : List ℕ} (hn : l.Nodup)
    (hl : ∀ a ∈ l, a % 4096 = 0 ∧ userFreeAddressStart ≤ a ∧ a < userFreeAddressStart + 32 * 4096) : l.length ≤ 32 := by
  have hsub : l ⊆ (List.range 32).map (0x400000 + · * 4096) := by
    intro a ha
    obtain ⟨hal, hlo, hhi⟩ := hl a ha
    have hlo' : 0x400000 ≤ a := hlo
    have hhi' : a < 0x400000 + 32 * 4096 := hhi
    refine List.mem_map.mpr ⟨a / 4096 - 1024, List.mem_range.mpr (by omega), by omega⟩
  simpa using (hn.subperm hsub).length_le

lemma PageInv.top_le (h : PageInv p s) : s.top p ≤ userFreeAddressStart + 32 * 4096 := by
  obtain ⟨n, hn, htop⟩ := h.top
  rw [htop]
  exact Nat.add_le_add_left (Nat.mul_le_mul_right _ hn) _

lemma PageInv.count_le (h : PageInv p s) : (s.space p).userHeap.freePagesCount ≤ 32 := by
  have hlen : (s.spare p).length ≤ 32 := length_le_of_pages h.nodup fun a ha =>
    ⟨(h.listed a ha).1, (h.listed a ha).2.1, (h.listed a ha).2.2.1.trans_le h.top_le⟩
  simpa [Vm.spare] using hlen

lemma PageInv.not_listed (h : PageInv p s) (hv : (s.entry p (va / 4096)).v = true) : va ∉ s.spare p := by
  intro hin
  rw [(h.listed va hin).2.2.2] at hv
  cases hv

lemma PageInv.count_lt (h : PageInv p s) (hva : InHeap p va s) (hal : va % 4096 = 0) (hv : (s.entry p (va / 4096)).v = true) :
    (s.space p).userHeap.freePagesCount < 32 := by
  have hlen : (va :: s.spare p).length ≤ 32 := by
    refine length_le_of_pages (List.nodup_cons.mpr ⟨h.not_listed hv, h.nodup⟩) fun a ha => ?_
    rcases List.mem_cons.mp ha with rfl | ha
    · exact ⟨hal, h.bottom ▸ hva.1, hva.2.trans_le h.top_le⟩
    · exact ⟨(h.listed a ha).1, (h.listed a ha).2.1, (h.listed a ha).2.2.1.trans_le h.top_le⟩
  simpa [Vm.spare] using hlen

lemma PageInv.low (h : PageInv p s) (hva : InHeap p va s) : va < maxva := by
  have hlt : va < 0x400000 + 32 * 4096 := hva.2.trans_le h.top_le
  change va < 2 ^ 38
  omega

lemma sysUserFreePage_limit (h : PageInv p s) (hh : High s) (hva : InHeap p va s) :
    yields (sysUserFreePage p va) (fun _ t => KeepsLimit p s t) s := by
  refine yields_bind (yields_mono userVmUnmap_yields ?_)
  rintro _ t (⟨hmax, -⟩ | ⟨hal, -, hv, hm, rfl⟩)
  · exact absurd (h.low hva) (not_lt.mpr hmax)
  have hun := unlays_unmapped hv hm
  have hothers : ∀ q, q ≠ p → (s.unmapped p (va / 4096)).space q = s.space q := fun q hq => by
    rw [Vm.unmapped, Vm.setTable, Vm.setSpace_of_ne _ hq]
    rfl
  refine yields_get_bind ?_
  split_ifs
  swap
  · exact yields_undef
  have hfreed := freed_unmapped s p va
  have hentry := fun w => (congrFun hfreed.entry w).trans (hun.entry w)
  refine yields_modify_bind (yields_pure ⟨⟨hfreed.bottom.trans h.bottom, ?_, fun a ha => ?_, ?_⟩, ?_, fun q hq => ?_⟩)
  · rw [hfreed.top]
    exact h.top
  · rw [hfreed.spare, List.mem_append, List.mem_singleton] at ha
    rw [hfreed.top, hentry]
    rcases ha with ha | rfl
    · obtain ⟨hal', hlo, hhi, hclear⟩ := h.listed a ha
      refine ⟨hal', hlo, hhi, ?_⟩
      split_ifs
      · rfl
      · exact hclear
    · exact ⟨hal, h.bottom ▸ hva.1, hva.2, by simp⟩
  · rw [hfreed.spare, List.nodup_append]
    refine ⟨h.nodup, List.nodup_singleton va, fun a ha b hb hab => h.not_listed hv ?_⟩
    rwa [← List.mem_singleton.mp hb, ← hab]
  · have hhigh := hh.congr hun.same.bounds hun.same.trap (hun.managed hh.free)
    exact ⟨hhigh.start, hhigh.trap, hhigh.free⟩
  · rw [Vm.setHeap, Vm.setSpace_of_ne _ hq, hothers q hq]

inductive PageCall where
  | allocate (p : Pid)
  | free (p : Pid) (va : ℕ)
  | fork (p c : Pid) (garbage : ℕ → Bool)

namespace PageCall

def run : PageCall → Flow Vm Unit
  | allocate p => do
    let _ ← sysUserAllocatePage p
  | free p va => do
    let _ ← sysUserFreePage p va
  | fork p c garbage => doFork p c garbage

def caller : PageCall → Pid
  | allocate p | free p _ | fork p _ _ => p

def Enabled (live : Finset Pid) : PageCall → Prop
  | fork p c _ => p ∈ live ∧ c ∉ live
  | call => call.caller ∈ live

def after (live : Finset Pid) : PageCall → Finset Pid
  | fork _ c _ => insert c live
  | _ => live

/-- The accesses of a call to `free_pages_address` and `free_block_filter` are within bounds, and an element of the filter
that is read is one of the eight that `memset` has cleared or one that has been marked. -/
def InBounds (s : Vm) : PageCall → Prop
  | allocate p => 0 < (s.space p).userHeap.freePagesCount → (s.space p).userHeap.freePagesCount - 1 < maxHeapPages
  | free p va => ∀ t, userVmUnmap p va 4096 true s = .done () t → (t.space p).userHeap.freePagesCount < maxHeapPages
  | fork p _ _ => (∀ i < (s.space p).userHeap.freePagesCount, i < maxHeapPages ∧ (filterIndex (s.space p).userHeap i).isSome) ∧
    ∀ b ∈ pagesBelow (s.bottom p) (s.top p), (b - s.bottom p) / 4096 < maxHeapPages ∧ ((b - s.bottom p) / 4096 < 8 ∨
      ∃ i < (s.space p).userHeap.freePagesCount, filterIndex (s.space p).userHeap i = some ((b - s.bottom p) / 4096))

def Modest (s : Vm) : PageCall → Prop
  | allocate p => CanGrow p s
  | free p va => InHeap p va s
  | fork p _ _ => SegmentsLow (s.space p) ∧ ∀ b ∈ pagesBelow (s.bottom p) (s.top p), b < s.bottom p + 8 * 4096 ∨ b ∈ s.spare p

instance (s : Vm) : (call : PageCall) → Decidable (call.Modest s)
  | allocate p => inferInstanceAs (Decidable (CanGrow p s))
  | free p va => inferInstanceAs (Decidable (InHeap p va s))
  | fork _ _ _ => inferInstanceAs (Decidable (_ ∧ _))

end PageCall

structure FreshHeap (p : Pid) (s : Vm) : Prop where
  top : s.top p = userFreeAddressStart
  bottom : s.bottom p = userFreeAddressStart
  spare : s.spare p = []

inductive PageRun (ok : Vm → PageCall → Prop) : Finset Pid → Vm → Prop
  | boot {s : Vm} (hh : High s) : PageRun ok ∅ s
  | between {s t : Vm} {live live' : Finset Pid} (h : PageRun ok live s) (hh : High t)
      (hlive : ∀ p ∈ live', p ∈ live ∧ t.space p = s.space p ∨ FreshHeap p t) : PageRun ok live' t
  | call {s t : Vm} {live : Finset Pid} {c : PageCall} (h : PageRun ok live s) (he : c.Enabled live) (hok : ok s c)
      (ht : c.run s = .done () t) : PageRun ok (c.after live) t

structure LimitKept (p : Pid) (s : Vm) : Prop where
  count : (s.space p).userHeap.freePagesCount ≤ maxHeapPages
  distinct : (s.spare p).Nodup
  listed : ∀ a ∈ s.spare p, s.bottom p ≤ a ∧ a < s.top p ∧ (s.entry p (a / 4096)).v = false
  pages : (s.top p - s.bottom p) / 4096 ≤ maxHeapPages

lemma FreshHeap.pageInv (h : FreshHeap p s) : PageInv p s := by
  refine ⟨h.bottom, ⟨0, by norm_num, h.top⟩, fun a ha => ?_, by rw [h.spare]; exact List.nodup_nil⟩
  rw [h.spare] at ha
  cases ha

lemma PageInv.limitKept (h : PageInv p s) : LimitKept p s := by
  refine ⟨h.count_le, h.nodup, fun a ha => ?_, ?_⟩
  · obtain ⟨-, hlo, hhi, hun⟩ := h.listed a ha
    exact ⟨h.bottom ▸ hlo, hhi, hun⟩
  · obtain ⟨n, hn, htop⟩ := h.top
    rw [htop, h.bottom, Nat.add_sub_cancel_left, Nat.mul_div_cancel _ (by norm_num)]
    exact hn

lemma PageInv.filterIndex (h : PageInv p s) {i : ℕ} (hi : i < (s.space p).userHeap.freePagesCount) :
    filterIndex (s.space p).userHeap i = some (((s.space p).userHeap.freePagesAddress i - s.bottom p) / 4096) := by
  have hlisted : (s.space p).userHeap.freePagesAddress i ∈ s.spare p := List.mem_map.mpr ⟨i, List.mem_range.mpr hi, rfl⟩
  obtain ⟨hal, -⟩ := h.listed _ hlisted
  have hpage := Nat.div_mul_cancel (Nat.dvd_of_mod_eq_zero hal)
  obtain ⟨hlo, hhi⟩ := h.range (v := (s.space p).userHeap.freePagesAddress i / 4096) (by rwa [Listed, hpage])
  have hindex : ((s.space p).userHeap.freePagesAddress i - 0x400000) / 4096 =
      (s.space p).userHeap.freePagesAddress i / 4096 - 1024 := by omega
  rw [filterIndex_eq h.bottom hpage.symm hlo hhi, h.bottom]
  exact congrArg some hindex.symm

lemma PageInv.inBounds (h : PageInv p s) {call : PageCall} (hp : call.caller = p) (hok : call.Modest s) : call.InBounds s := by
  subst hp
  cases call with
  | allocate p => exact fun hpos => lt_of_lt_of_le (Nat.sub_lt hpos one_pos) h.count_le
  | free p va =>
    intro t ht
    have hstep := userVmUnmap_yields () t ht
    rcases hstep with ⟨hmax, -⟩ | ⟨hal, -, hv, -, rfl⟩
    · exact absurd (h.low hok) (not_lt.mpr hmax)
    · rw [(s.unmapped_same p (va / 4096)).fields]
      exact h.count_lt hok hal hv
  | fork p c garbage =>
    change PageInv p s at h
    refine ⟨fun i hi => ⟨hi.trans_le h.count_le, ?_⟩, fun b hb => ⟨?_, ?_⟩⟩
    · rw [h.filterIndex hi]
      rfl
    · have hlt : b - s.bottom p < 32 * 4096 := by
        have htop := (mem_pagesBelow hb).2.1.trans_le h.top_le
        rw [← h.bottom] at htop
        omega
      exact Nat.div_lt_of_lt_mul (by rwa [Nat.mul_comm])
    · rcases hok.2 b hb with hearly | hlisted
      · exact .inl (by omega)
      · obtain ⟨i, hi, rfl⟩ := List.mem_map.mp hlisted
        exact .inr ⟨i, List.mem_range.mp hi, h.filterIndex (List.mem_range.mp hi)⟩

structure RunInv (live : Finset Pid) (s : Vm) : Prop where
  high : High s
  each : ∀ p ∈ live, PageInv p s

lemma RunInv.keepsLimit {live : Finset Pid} (h : RunInv live s) (hk : KeepsLimit p s t) : RunInv live t := by
  obtain ⟨hinv, hhigh, hothers⟩ := hk
  refine ⟨hhigh, fun q hq => ?_⟩
  by_cases hqp : q = p
  · rwa [hqp]
  · exact (h.each q hq).of_space (hothers q hqp)

lemma RunInv.forked {live : Finset Pid} (h : RunInv live s) (hp : p ∈ live) (hc : c ∉ live) (hf : Forked p c s t) :
    RunInv (insert c live) t := by
  refine ⟨hf.high, fun q hq => ?_⟩
  rcases Finset.mem_insert.mp hq with rfl | hlive
  · exact hf.child (h.each p hp)
  by_cases hqp : q = p
  · subst hqp
    exact (h.each q hlive).congr hf.parent_heap hf.valid
  · refine (h.each q hlive).of_space (hf.others q hqp ?_)
    rintro rfl
    exact hc hlive

lemma RunInv.call {live : Finset Pid} {call : PageCall} (h : RunInv live s) (he : call.Enabled live) (hok : call.Modest s) :
    yields call.run (fun _ t => RunInv (call.after live) t) s := by
  cases call with
  | allocate p =>
    refine yields_bind (yields_mono (sysUserAllocatePage_limit (h.each p he) h.high hok) fun _ t ht => ?_)
    exact yields_pure (h.keepsLimit ht)
  | free p va =>
    refine yields_bind (yields_mono (sysUserFreePage_limit (h.each p he) h.high hok) fun _ t ht => ?_)
    exact yields_pure (h.keepsLimit ht)
  | fork p c garbage =>
    obtain ⟨hp, hc⟩ := he
    have hpc : c ≠ p := fun hcp => hc (hcp ▸ hp)
    exact yields_mono (doFork_forked hpc (h.each p hp) hok.1 h.high) fun _ t ht => h.forked hp hc ht

lemma PageRun.invariant {live : Finset Pid} (h : PageRun (fun s call => call.Modest s) live s) : RunInv live s := by
  induction h with
  | boot hh => exact ⟨hh, fun p hp => absurd hp (Finset.notMem_empty p)⟩
  | between _ hh hlive ih =>
    refine ⟨hh, fun p hp => ?_⟩
    rcases hlive p hp with ⟨hin, hspace⟩ | hfresh
    · exact (ih.each p hin).of_space hspace
    · exact hfresh.pageInv
  | call _ he hok ht ih => exact ih.call he hok () _ ht

/-- In a run of modest calls the limit is kept, and no modest call reads or writes outside the arrays or reads an element of
the filter that has not been set. -/
theorem page_limit_of_modest_calls {live : Finset Pid} (h : PageRun (fun s call => call.Modest s) live s) (hp : p ∈ live) :
    LimitKept p s ∧ ∀ call : PageCall, call.caller = p → call.Modest s → call.InBounds s :=
  ⟨(h.invariant.each p hp).limitKept, fun _ hcall hok => (h.invariant.each p hp).inBounds hcall hok⟩

def firstFresh (obs : Vm → Bool) : Bool :=
  (play (fun _ _ => true) [.load onePage 0x10000] smallBoot).any fun s =>
    decide ((0x420000 ≤ s.vm.pmm.freeMemStartAddr ∧ 0x420000 ≤ s.vm.trapSecStart ∧ ∀ f ∈ s.vm.pmm.gFreeMemList, s.vm.pmm.Managed f) ∧
      s.vm.top 0 = 0x400000 ∧ s.vm.bottom 0 = 0x400000) && (s.vm.spare 0).isEmpty && obs s.vm

lemma firstFresh_run {obs : Vm → Bool} (h : firstFresh obs = true) :
    ∃ s, (∀ ok, PageRun ok {0} s) ∧ obs s = true := by
  obtain ⟨s, -, hs⟩ := (Option.any_eq_true _ _).mp h
  rw [Bool.and_eq_true, Bool.and_eq_true, decide_eq_true_eq, List.isEmpty_iff] at hs
  obtain ⟨⟨⟨hhigh, htop, hbottom⟩, hspare⟩, hobs⟩ := hs
  have hh : High s.vm := ⟨hhigh.1, hhigh.2.1, hhigh.2.2⟩
  refine ⟨s.vm, fun ok => (PageRun.boot hh).between hh fun p hp => .inr ?_, hobs⟩
  rw [Finset.mem_singleton.mp hp]
  exact ⟨htop, hbottom, hspare⟩

theorem page_limit_of_forked_child : ∃ s, PageRun (fun s call => call.Modest s) {1, 0} s ∧ s.spare 1 = [0x400000] ∧ LimitKept 1 s := by
  have hrun : firstFresh (fun s => decide (CanGrow 0 s) && ((PageCall.allocate 0).run s).ends fun _ t =>
      decide (InHeap 0 0x400000 t) && ((PageCall.free 0 0x400000).run t).ends fun _ u =>
        decide ((PageCall.fork 0 1 fun _ => true).Modest u) && ((PageCall.fork 0 1 fun _ => true).run u).ends fun _ w =>
          decide (w.spare 1 = [0x400000])) = true := by decide +kernel
  obtain ⟨s, hs, hobs⟩ := firstFresh_run hrun
  rw [Bool.and_eq_true, decide_eq_true_eq] at hobs
  obtain ⟨_, t, ht, hobs'⟩ := Outcome.ends_done hobs.2
  rw [Bool.and_eq_true, decide_eq_true_eq] at hobs'
  obtain ⟨_, u, hu, hobs''⟩ := Outcome.ends_done hobs'.2
  rw [Bool.and_eq_true, decide_eq_true_eq] at hobs''
  obtain ⟨_, w, hw, hspare⟩ := Outcome.ends_done hobs''.2
  have hallocate := (hs fun s call => call.Modest s).call (c := .allocate 0) (Finset.mem_singleton_self 0) hobs.1 ht
  have hfree := hallocate.call (c := .free 0 0x400000) (Finset.mem_singleton_self 0) hobs'.1 hu
  have hfork := hfree.call (c := .fork 0 1 fun _ => true) ⟨Finset.mem_singleton_self 0, by decide⟩ hobs''.1 hw
  exact ⟨w, hfork, of_decide_eq_true hspare, (page_limit_of_modest_calls hfork (by decide)).1⟩

def allocateTimes (p : Pid) : ℕ → Flow Vm Unit
  | 0 => pure ()
  | n + 1 => do
    (PageCall.allocate p).run
    allocateTimes p n

lemma PageRun.allocateTimes {live : Finset Pid} (hp : p ∈ live) : ∀ n s, PageRun (fun _ _ => True) live s →
    yields (allocateTimes p n) (fun _ t => PageRun (fun _ _ => True) live t) s
  | 0, _, h => yields_pure h
  | n + 1, _, h => yields_bind fun _ t ht => PageRun.allocateTimes hp n t (h.call (c := .allocate p) hp trivial ht)

lemma firstPages_run {obs : Vm → Bool} (h : firstFresh (fun s => (allocateTimes 0 n s).ends fun _ t => obs t) = true) :
    ∃ s, PageRun (fun _ _ => True) {0} s ∧ obs s = true := by
  obtain ⟨s, hs, hrun⟩ := firstFresh_run h
  obtain ⟨_, t, ht, hobs⟩ := Outcome.ends_done hrun
  exact ⟨t, PageRun.allocateTimes (Finset.mem_singleton_self 0) n s (hs _) _ t ht, hobs⟩

theorem page_limit_overrun : (∃ s, PageRun (fun _ _ => True) {0} s ∧ ¬ (PageCall.fork 0 1 fun _ => false).InBounds s) ∧
    ∃ s, PageRun (fun _ _ => True) {0} s ∧ ¬ LimitKept 0 s := by
  have hnine : firstFresh (fun s => (allocateTimes 0 9 s).ends fun _ t => decide (t.bottom 0 = 0x400000 ∧
      t.top 0 = 0x409000 ∧ (t.space 0).userHeap.freePagesCount = 0)) = true := by decide +kernel
  have hmany : firstFresh (fun s => (allocateTimes 0 33 s).ends fun _ t => decide (t.bottom 0 = 0x400000 ∧
      t.top 0 = 0x421000)) = true := by decide +kernel
  obtain ⟨s, hs, hobs⟩ := firstPages_run hnine
  obtain ⟨t, ht, hobs'⟩ := firstPages_run hmany
  rw [decide_eq_true_eq] at hobs hobs'
  refine ⟨⟨s, hs, fun hin => ?_⟩, t, ht, fun hlimit => ?_⟩
  · have hread := hin.2 0x408000 (by rw [hobs.1, hobs.2.1]; decide)
    rw [hobs.1, hobs.2.2] at hread
    rcases hread.2 with hlt | ⟨i, hi, -⟩
    · exact absurd hlt (by decide)
    · exact absurd hi (Nat.not_lt_zero i)
  · have hpages := hlimit.pages
    rw [hobs'.1, hobs'.2] at hpages
    exact absurd hpages (by decide)

end Pke.Memory
