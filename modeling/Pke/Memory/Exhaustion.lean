import Pke.Memory.Faults

namespace Pke.Memory

open Lib Flow Function Processes Machine

variable {s t : Vm} {p : Pid} {va pa v : ℕ} {perm : Pte} {M : Machine}

structure Spared (p : Pid) (s t : Vm) : Prop where
  mem : t.mem = s.mem
  others : ∀ q, q ≠ p → t.space q = s.space q
  entry : ∀ v, (t.entry p v).v = true → (t.entry p v).pa = 0 → t.entry p v = s.entry p v

def Contained (M : Machine) (p : Pid) (m : Flow Vm ℕ) : Prop :=
  match onVm p m M with
  | .done r t => r = 0 ∧ t.phase = M.phase ∧ t.vm.space p = M.vm.space p ∧ Spared p M.vm t.vm
  | .left t => t.phase = update M.phase p .zombie ∧ Spared p M.vm t.vm
  | .halted | .undefined => False

inductive PageTaker where
  | allocatePage
  | storeFault (va : ℕ)

namespace PageTaker

def run (p : Pid) : PageTaker → Flow Vm ℕ
  | allocatePage => sysUserAllocatePage p
  | storeFault va => do
    storePageFault p va
    pure 0

end PageTaker

def Copies (s : Vm) (p : Pid) (va : ℕ) : Prop := va < maxva ∧ (s.entry p (va / 4096)).v = true ∧ (s.entry p (va / 4096)).cow = true ∧
  1 < s.pmm.getPageRef (s.entry p (va / 4096)).pa

def Grows (s : Vm) (p : Pid) (va : ℕ) : Prop :=
  ¬ ((s.entry p (va / 4096)).v = true ∧ (s.entry p (va / 4096)).cow = true) ∧ va ≤ userStackTop ∧
    (u64 (userStackTop + (2 ^ 64 - (s.space p).size)) < va ∨ va < (s.space p).userHeap.heapTop)

def PageTaker.Takes (s : Vm) (p : Pid) : PageTaker → Prop
  | allocatePage => True
  | storeFault va => Copies s p va ∨ Grows s p va

def Unmappable (s : Vm) (p : Pid) (va : ℕ) : Prop :=
  maxva ≤ va ∨ ¬ (s.space p).pagetable.Has (va / 4096) ∨ (s.entry p (va / 4096)).v = true

def HeapManager.next (h : HeapManager) : ℕ := if 0 < h.freePagesCount then h.freePagesAddress (h.freePagesCount - 1) else h.heapTop

def PageTaker.Refused (s : Vm) (p : Pid) : PageTaker → Prop
  | allocatePage => (0 < (s.space p).userHeap.freePagesCount → (s.space p).userHeap.next < (s.space p).userHeap.heapTop) ∧
      (s.space p).userHeap.next + 4096 ≤ 2 ^ 64 ∧ Unmappable s p (s.space p).userHeap.next
  | storeFault va => ¬ Copies s p va ∧ Unmappable s p va

section Null

lemma mapPages_eq : mapPages p va 4096 pa perm = all (fun a => mapPage p a (pa + (a - roundDown va)) perm)
    (pagesBelow (roundDown va) (roundDown (u64 (va + 4096 + (2 ^ 64 - 1))) + 1)) := rfl

lemma pages_nil (hva : 2 ^ 64 < va + 4096) : pagesBelow (roundDown va) (roundDown (u64 (va + 4096 + (2 ^ 64 - 1))) + 1) = [] := by
  have hcount : (roundDown (u64 (va + 4096 + (2 ^ 64 - 1))) + 1 - roundDown va + 4095) / 4096 = 0 := by
    unfold roundDown u64
    omega
  rw [pagesBelow, hcount]
  rfl

lemma pages_cons (hva : va + 4096 ≤ 2 ^ 64) : ∃ n ≤ 1, pagesBelow (roundDown va) (roundDown (u64 (va + 4096 + (2 ^ 64 - 1))) + 1) =
    roundDown va :: List.replicate n (roundDown va + 4096) := by
  have hlast : u64 (va + 4096 + (2 ^ 64 - 1)) = va + 4095 := by
    unfold u64
    omega
  rw [hlast]
  by_cases hal : va % 4096 = 0
  · refine ⟨0, Nat.zero_le 1, ?_⟩
    have hcount : (roundDown (va + 4095) + 1 - roundDown va + 4095) / 4096 = 1 := by
      unfold roundDown
      omega
    simp [pagesBelow, hcount, List.range_succ]
  · refine ⟨1, Nat.le_refl 1, ?_⟩
    have hcount : (roundDown (va + 4095) + 1 - roundDown va + 4095) / 4096 = 2 := by
      unfold roundDown
      omega
    simp [pagesBelow, hcount, List.range_succ]

lemma userVmMap_wrapped (hva : 2 ^ 64 < va + 4096) : userVmMap p va 4096 pa perm s = .done () s := by
  rw [userVmMap, mapPages_eq, pages_nil hva]
  rfl

lemma roundDown_unmappable : Unmappable s p (roundDown va) ↔ Unmappable s p va := by
  have hmax : maxva ≤ roundDown va ↔ maxva ≤ va := by
    unfold maxva roundDown
    omega
  rw [Unmappable, Unmappable, roundDown_div, hmax]

variable (hl : s.pmm.gFreeMemList = [])
include hl

lemma missing_pos (h : ¬ (s.space p).pagetable.Has v) : s.pmm.gFreeMemList.length < (s.space p).pagetable.missing v := by
  rw [hl, List.length_nil]
  exact Nat.pos_of_ne_zero fun hz => h (PageTable.missing_eq_zero.mp hz)

lemma mapPage_null (p : Pid) (va pa : ℕ) (perm : Pte) : Unmappable s p va ∧ (∃ t, (mapPage p va pa perm s = .left t ∨ mapPage p va pa perm s = .done false t) ∧
      t.mem = s.mem ∧ (∀ q, q ≠ p → t.space q = s.space q) ∧ t.entry p = s.entry p) ∨
    ¬ Unmappable s p va ∧ ∃ t, mapPage p va pa perm s = .done true t ∧ t.pmm.gFreeMemList = [] ∧
      t.entry p = update (s.entry p) (va / 4096) (Pte.leaf pa perm) := by
  by_cases hmax : maxva ≤ va
  · refine .inl ⟨.inl hmax, s, .inl ?_, rfl, fun _ _ => rfl, rfl⟩
    rw [mapPage, pageWalk, if_pos hmax]
    rfl
  · have hlt := not_le.mp hmax
    by_cases hhas : (s.space p).pagetable.Has (va / 4096)
    · cases hv : (s.entry p (va / 4096)).v with
      | true => exact .inl ⟨.inr (.inr hv), s, .inl (mapPage_valid hlt hv), rfl, fun _ _ => rfl, rfl⟩
      | false =>
        have hzero := PageTable.missing_eq_zero.mpr hhas
        obtain ⟨t, hrun, hspends, hentry⟩ := mapPage_enough hlt hv (by rw [hzero]; exact Nat.zero_le _) pa perm
        refine .inr ⟨?_, t, hrun, ?_, hentry⟩
        · rintro (h | h | h)
          · exact hmax h
          · exact h hhas
          · rw [hv] at h
            cases h
        · rw [hspends.free, hl, List.drop_nil]
    · obtain ⟨t, hrun, hspends, hentry⟩ := mapPage_short hlt (missing_pos hl hhas) pa perm
      exact .inl ⟨.inr (.inl hhas), t, .inr hrun, hspends.mem, hspends.other, hentry⟩

lemma userVmMap_refused (hva : va + 4096 ≤ 2 ^ 64) (hun : Unmappable s p va) (pa : ℕ) (perm : Pte) :
    ∃ t, userVmMap p va 4096 pa perm s = .left t ∧ t.mem = s.mem ∧ (∀ q, q ≠ p → t.space q = s.space q) ∧ t.entry p = s.entry p := by
  obtain ⟨n, -, hpages⟩ := pages_cons hva
  rcases mapPage_null hl p (roundDown va) (pa + (roundDown va - roundDown va)) perm with ⟨-, t, hrun, ht⟩ | ⟨hno, -⟩
  · refine ⟨t, ?_, ht⟩
    rw [userVmMap, mapPages_eq, hpages, all]
    rcases hrun with hrun | hrun
    · rw [bind_left (bind_left hrun)]
    · rw [bind_bind, bind_done hrun]
      rfl
  · exact absurd (roundDown_unmappable.mpr hun) hno

lemma userVmMap_installs (hva : va + 4096 ≤ 2 ^ 64) (hun : ¬ Unmappable s p va) (perm : Pte) :
    ∃ t, (userVmMap p va 4096 0 perm s = .done () t ∨ userVmMap p va 4096 0 perm s = .left t) ∧
      t.entry p (va / 4096) = Pte.leaf 0 perm := by
  obtain ⟨n, hn, hpages⟩ := pages_cons hva
  rcases mapPage_null hl p (roundDown va) 0 perm with ⟨hun', -⟩ | ⟨-, t, hrun, hl', hentry⟩
  · exact absurd (roundDown_unmappable.mp hun') hun
  have hset : t.entry p (va / 4096) = Pte.leaf 0 perm := by rw [hentry, roundDown_div, update_self]
  have hfirst : 0 + (roundDown va - roundDown va) = 0 := by omega
  rw [userVmMap, mapPages_eq, hpages, all, hfirst, bind_bind, bind_done hrun]
  cases n with
  | zero => exact ⟨t, .inl rfl, hset⟩
  | succ n =>
    obtain rfl : n = 0 := by omega
    have hne : va / 4096 ≠ (roundDown va + 4096) / 4096 := by
      unfold roundDown
      omega
    simp only [List.replicate_succ, List.replicate_zero, if_true, all]
    rcases mapPage_null hl' p (roundDown va + 4096) (0 + (roundDown va + 4096 - roundDown va)) perm with
      ⟨-, u, hu, -, -, hu'⟩ | ⟨-, u, hu, -, hu'⟩
    · have hstill : u.entry p (va / 4096) = Pte.leaf 0 perm := by rw [hu', hset]
      rcases hu with hu | hu
      · exact ⟨u, .inr (bind_left (bind_left hu)), hstill⟩
      · refine ⟨u, .inr ?_, hstill⟩
        rw [bind_bind, bind_done hu]
        rfl
    · refine ⟨u, .inl ?_, by rw [hu', update_of_ne hne, hset]⟩
      rw [bind_bind, bind_done hu]
      rfl

end Null

section Outcomes

variable {m : Flow Vm ℕ} {r : ℕ}

lemma contained_of_left (h : m M.vm = .left t) (hs : Spared p M.vm t) : Contained M p m := by
  rw [Contained, onVm_left h]
  exact ⟨rfl, hs⟩

lemma not_contained_of_halted (h : m M.vm = .halted) : ¬ Contained M p m := by
  rw [Contained, onVm_halted h]
  exact id

lemma not_contained_of_null (h : m M.vm = .done r t ∨ m M.vm = .left t) (he : t.entry p v = Pte.leaf 0 userRw)
    (hv : (M.vm.entry p v).v = false) : ¬ Contained M p m := by
  have hno : ¬ Spared p M.vm t := by
    intro hs
    have hsame := hs.entry v (by rw [he]; rfl) (by rw [he]; rfl)
    rw [← hsame, he] at hv
    cases hv
  rw [Contained]
  rcases h with h | h
  · rw [onVm_done h]
    exact fun hc => hno hc.2.2.2
  · rw [onVm_left h]
    exact fun hc => hno hc.2

lemma valid_of_mappable (h : ¬ Unmappable M.vm p va) : (M.vm.entry p (va / 4096)).v = false := by
  rw [Unmappable, not_or, not_or, Bool.not_eq_true] at h
  exact h.2.2

end Outcomes

section Allocate

structure Booked (p : Pid) (s t : Vm) : Prop where
  pmm : t.pmm = s.pmm
  mem : t.mem = s.mem
  others : ∀ q, q ≠ p → t.space q = s.space q
  table : (t.space p).pagetable = (s.space p).pagetable

lemma Booked.entry (h : Booked p s t) : t.entry p = s.entry p := by
  funext v
  rw [Vm.entry, Vm.entry, h.table]

lemma Booked.unmappable (h : Booked p s t) : Unmappable t p va ↔ Unmappable s p va := by
  rw [Unmappable, Unmappable, h.table, h.entry]

lemma sysUserAllocatePage_null (hl : s.pmm.gFreeMemList = []) :
    if 0 < (s.space p).userHeap.freePagesCount → (s.space p).userHeap.next < (s.space p).userHeap.heapTop then
      ∃ t, Booked p s t ∧ sysUserAllocatePage p s =
        (do userVmMap p (s.space p).userHeap.next 4096 0 userRw; pure (s.space p).userHeap.next) t
    else sysUserAllocatePage p s = .halted := by
  rw [sysUserAllocatePage, bind_done (allocPage_nil hl), get_bind, Option.getD_none, HeapManager.next]
  by_cases hc : 0 < (s.space p).userHeap.freePagesCount
  · rw [if_pos hc, if_pos hc, modify_bind]
    by_cases hva : (s.space p).userHeap.freePagesAddress ((s.space p).userHeap.freePagesCount - 1) < (s.space p).userHeap.heapTop
    · rw [if_pos fun _ => hva, if_pos hva, ret_bind]
      refine ⟨s.setHeap p fun h => { h with freePagesCount := h.freePagesCount - 1 }, ⟨rfl, rfl, fun q hq => s.setSpace_of_ne hq _, ?_⟩, rfl⟩
      rw [Vm.setHeap, Vm.setSpace_self]
    · rw [if_neg fun h => hva (h hc), if_neg hva]
      rfl
  · rw [if_neg hc, if_neg hc, if_pos fun h => absurd h hc, modify_bind, bumpHeapRegion, modify_bind, ret_bind]
    refine ⟨_, ?_, rfl⟩
    refine ⟨rfl, rfl, fun q hq => ?_, ?_⟩
    · rw [Vm.setSpace_of_ne _ hq, Vm.setHeap, Vm.setSpace_of_ne _ hq]
    · rw [Vm.setSpace_self, Vm.setHeap, Vm.setSpace_self]

lemma allocatePage_contained_iff (hl : M.vm.pmm.gFreeMemList = []) :
    Contained M p (sysUserAllocatePage p) ↔ PageTaker.allocatePage.Refused M.vm p := by
  have hrun := sysUserAllocatePage_null (p := p) hl
  rw [PageTaker.Refused]
  generalize (M.vm.space p).userHeap.next = va at hrun ⊢
  split_ifs at hrun with hassert
  swap
  · exact iff_of_false (not_contained_of_halted hrun) fun h => hassert h.1
  obtain ⟨u, hu, hrun⟩ := hrun
  have hl' : u.pmm.gFreeMemList = [] := by rw [hu.pmm, hl]
  by_cases hva : va + 4096 ≤ 2 ^ 64
  · by_cases hun : Unmappable M.vm p va
    · refine iff_of_true ?_ ⟨hassert, hva, hun⟩
      obtain ⟨t, ht, hmem, hothers, hentry⟩ := userVmMap_refused hl' hva (hu.unmappable.mpr hun) 0 userRw
      refine contained_of_left (hrun.trans (bind_left ht)) ⟨hmem.trans hu.mem, fun q hq => (hothers q hq).trans (hu.others q hq), ?_⟩
      intro v _ _
      rw [hentry, hu.entry]
    · refine iff_of_false ?_ fun h => hun h.2.2
      obtain ⟨t, ht, hnull⟩ := userVmMap_installs hl' hva (hu.unmappable.not.mpr hun) userRw
      have hends : sysUserAllocatePage p M.vm = .done va t ∨ sysUserAllocatePage p M.vm = .left t := by
        rcases ht with ht | ht
        · exact Or.inl (hrun.trans (bind_done ht))
        · exact Or.inr (hrun.trans (bind_left ht))
      exact not_contained_of_null hends hnull (valid_of_mappable hun)
  · refine iff_of_false ?_ fun h => hva h.2.1
    have hdone : sysUserAllocatePage p M.vm = .done va u := hrun.trans (bind_done (userVmMap_wrapped (by omega)))
    rw [Contained, onVm_done hdone]
    rintro ⟨hz, -⟩
    omega

end Allocate

section Fault

lemma storePageFault_copies (hl : s.pmm.gFreeMemList = []) (h : Copies s p va) : storePageFault p va s = .halted := by
  obtain ⟨hva, hv, hcow, href⟩ := h
  rw [storePageFault_eq hva, onStoreFault, if_pos (by rw [hv, hcow]; rfl)]
  refine breakCow_stuck href ?_
  rw [CowReady, if_pos href, hl]
  rintro ⟨-, f, rest, h, -⟩
  cases h

lemma storePageFault_grows (h : Grows s p va) : storePageFault p va s = growSpace p (roundDown va) s := by
  obtain ⟨hcow, htop, hwhere⟩ := h
  have hva : va < maxva := lt_of_le_of_lt htop (by norm_num)
  rw [storePageFault_eq hva, onStoreFault, if_neg (by rwa [Bool.and_eq_true]), if_neg (not_lt.mpr htop)]
  split_ifs with hstack hheap
  · rfl
  · exact absurd hheap (not_le.mpr (hwhere.resolve_left hstack))
  · rfl

lemma storeFault_contained_iff (hl : M.vm.pmm.gFreeMemList = []) (htakes : (PageTaker.storeFault va).Takes M.vm p) :
    Contained M p ((PageTaker.storeFault va).run p) ↔ (PageTaker.storeFault va).Refused M.vm p := by
  by_cases hcopy : Copies M.vm p va
  · refine iff_of_false (not_contained_of_halted ?_) fun h => h.1 hcopy
    have hhalt : storePageFault p va M.vm = (halt : Flow Vm Unit) M.vm := storePageFault_copies hl hcopy
    exact (bind_congr_at hhalt).trans rfl
  · have hgrow := htakes.resolve_left hcopy
    have hva : va < maxva := lt_of_le_of_lt hgrow.2.1 (by norm_num)
    have hsmall : roundDown va + 4096 ≤ 2 ^ 64 := by
      have hmax : maxva + 4096 ≤ 2 ^ 64 := by norm_num [maxva]
      exact (Nat.add_le_add_right ((roundDown_le va).trans hva.le) 4096).trans hmax
    have hrun : (PageTaker.storeFault va).run p M.vm = (do userVmMap p (roundDown va) 4096 0 userRw; pure 0) M.vm := by
      have hnull : allocOrNull M.vm = .done 0 M.vm := by
        rw [allocOrNull, bind_done (allocPage_nil hl)]
        rfl
      change (storePageFault p va >>= fun _ => pure 0) M.vm = _
      rw [bind_congr_at (storePageFault_grows hgrow), growSpace, bind_bind, bind_done hnull]
    by_cases hun : Unmappable M.vm p va
    · refine iff_of_true ?_ ⟨hcopy, hun⟩
      obtain ⟨t, ht, hmem, hothers, hentry⟩ := userVmMap_refused hl hsmall (roundDown_unmappable.mpr hun) 0 userRw
      refine contained_of_left (hrun.trans (bind_left ht)) ⟨hmem, hothers, fun v _ _ => ?_⟩
      rw [hentry]
    · refine iff_of_false ?_ fun h => hun h.2
      obtain ⟨t, ht, hnull⟩ := userVmMap_installs hl hsmall (roundDown_unmappable.not.mpr hun) userRw
      refine not_contained_of_null (ht.imp (fun ht => hrun.trans (bind_done ht)) fun ht => hrun.trans (bind_left ht)) hnull ?_
      rw [roundDown_div]
      exact valid_of_mappable hun

end Fault

theorem exhaustion_contained_iff (M : Machine) (p : Pid) (hl : M.vm.pmm.gFreeMemList = []) (call : PageTaker)
    (htakes : call.Takes M.vm p) : Contained M p (call.run p) ↔ call.Refused M.vm p := by
  cases call with
  | allocatePage => exact allocatePage_contained_iff hl
  | storeFault va => exact storeFault_contained_iff hl htakes

def hoard : List Event := .load onePage 0x10000 :: List.replicate 49 (.act 0 .allocatePage)

theorem exhaustion_contained_without_table : ∃ M, MReach (fun _ _ => True) smallBoot M ∧ M.vm.pmm.gFreeMemList = [] ∧
    Contained M 0 ((PageTaker.storeFault 0x200000).run 0) := by
  have hrun : (play (fun _ _ => true) hoard smallBoot).any (fun M => decide (M.vm.pmm.gFreeMemList = [] ∧
      (M.vm.entry 0 (0x200000 / 4096)).v = false ∧ 0x200000 < (M.vm.space 0).userHeap.heapTop ∧
        ¬ (M.vm.space 0).pagetable.Has (0x200000 / 4096))) = true := by decide +kernel
  obtain ⟨M, hM, hobs⟩ := play_any (fun _ _ _ => trivial) hrun
  obtain ⟨hl, hv, htop, htable⟩ := of_decide_eq_true hobs
  have hcopy : ¬ ((M.vm.entry 0 (0x200000 / 4096)).v = true ∧ (M.vm.entry 0 (0x200000 / 4096)).cow = true) := by
    rw [hv]
    simp
  have htakes : (PageTaker.storeFault 0x200000).Takes M.vm 0 := Or.inr ⟨hcopy, by decide, .inr htop⟩
  refine ⟨M, hM, hl, (exhaustion_contained_iff M 0 hl _ htakes).mpr ⟨?_, .inr (.inl htable)⟩⟩
  exact fun h => hcopy ⟨h.2.1, h.2.2.1⟩

theorem page_zero_is_mapped : ∃ M t, MReach (fun _ _ => True) smallBoot M ∧ M.vm.pmm.gFreeMemList = [] ∧
    sysUserAllocatePage 0 M.vm = .done 0x431000 t ∧ t.entry 0 (0x431000 / 4096) = Pte.leaf 0 userRw ∧
      (M.vm.entry 0 (0x431000 / 4096)).v = false := by
  have hrun : (play (fun _ _ => true) hoard smallBoot).any (fun M => decide (M.vm.pmm.gFreeMemList = [] ∧
      (M.vm.entry 0 (0x431000 / 4096)).v = false) && (sysUserAllocatePage 0 M.vm).ends fun va t => decide (va = 0x431000 ∧
        t.entry 0 (0x431000 / 4096) = Pte.leaf 0 userRw)) = true := by decide +kernel
  obtain ⟨M, hM, hobs⟩ := play_any (fun _ _ _ => trivial) hrun
  rw [Bool.and_eq_true] at hobs
  obtain ⟨hl, hv⟩ := of_decide_eq_true hobs.1
  obtain ⟨va, t, ht, hend⟩ := Outcome.ends_done hobs.2
  obtain ⟨rfl, hentry⟩ := of_decide_eq_true hend
  exact ⟨M, t, hM, hl, ht, hentry, hv⟩

end Pke.Memory
