import Pke.Memory.PageCalls
import Pke.Memory.UseAfterFree

/-! Page faults of user code: when the handler gives control back, and which stores it backs with memory. -/

namespace Pke.Memory

open Lib Flow Function Processes Machine

inductive FaultCause where
  | load
  | store
  deriving DecidableEq

def handleUserPageFault (p : Pid) (cause : FaultCause) (stval : ℕ) : Flow Vm Unit :=
  match cause with
  | .store => do
    let s ← get
    if userStackTop < stval then leave
    else if u64 (userStackTop + (2 ^ 64 - (s.space p).size)) < stval then growSpace p (roundDown stval)
    else if (s.space p).userHeap.heapTop ≤ stval then leave
    else pure ()
  | .load => pure ()

def pageFault (p : Pid) (cause : FaultCause) (stval : ℕ) : Flow Vm Unit :=
  match cause with
  | .store => storePageFault p stval
  | .load => handleUserPageFault p cause stval

def FaultCause.permits : FaultCause → Pte → Bool
  | .load, e => e.v && e.u && e.r
  | .store, e => e.v && e.u && e.w

def Settles (s : Machine) (p : Pid) (cause : FaultCause) (va : ℕ) : Prop :=
  (∃ t, onVm p (pageFault p cause va) s = .done () t ∧ cause.permits (t.vm.entry p (va / 4096)) = true) ∨
    ∃ t, onVm p (pageFault p cause va) s = .left t ∧ t.phase p = .zombie

variable {s t : Vm} {p : Pid} {va v pa : ℕ} {e : Pte} {M : Machine}

section OnVm

variable {α : Type} {m : Flow Vm α} {a : α}

lemma onVm_done (h : m M.vm = .done a t) : onVm p m M = .done a { M with vm := t } := by
  rw [onVm, within, h]

lemma onVm_left (h : m M.vm = .left t) : onVm p m M = .left ({ M with vm := t }.setPhase p .zombie) := by
  rw [onVm, within, h]
  rfl

lemma onVm_halted (h : m M.vm = .halted) : onVm p m M = .halted := by
  rw [onVm, within, h]

end OnVm

lemma settles_of_done {cause : FaultCause} (h : pageFault p cause va M.vm = .done () t) :
    Settles M p cause va ↔ cause.permits (t.entry p (va / 4096)) = true := by
  rw [Settles, onVm_done h]
  constructor
  · rintro (⟨u, hu, hp⟩ | ⟨u, hu, -⟩)
    · cases hu
      exact hp
    · cases hu
  · exact fun hp => .inl ⟨_, rfl, hp⟩

lemma settles_of_left {cause : FaultCause} (h : pageFault p cause va M.vm = .left t) : Settles M p cause va := by
  refine .inr ⟨_, onVm_left h, ?_⟩
  simp

lemma not_settles_of_halted {cause : FaultCause} (h : pageFault p cause va M.vm = .halted) :
    ¬ Settles M p cause va := by
  rw [Settles, onVm_halted h]
  rintro (⟨u, hu, -⟩ | ⟨u, hu, -⟩) <;> cases hu

section Grow

lemma allocOrNull_eq (p : Pid) (s : Vm) : ∃ t, allocOrNull s = .done (s.pmm.gFreeMemList.headD 0) t ∧
    t.pmm.gFreeMemList = s.pmm.gFreeMemList.tail ∧ t.space = s.space := by
  cases hl : s.pmm.gFreeMemList with
  | nil =>
    refine ⟨s, ?_, hl, rfl⟩
    rw [allocOrNull, bind_done (allocPage_nil hl)]
    rfl
  | cons f rest =>
    refine ⟨s.took f rest, ?_, Vm.took_list, rfl⟩
    rw [allocOrNull, bind_done (allocPage_cons hl)]
    rfl

lemma growSpace_cases (hva : va < maxva) :
    (∃ t, growSpace p (roundDown va) s = .left t ∧ t.entry p = s.entry p ∧
      ((s.entry p (va / 4096)).v = true ∨
        s.pmm.gFreeMemList.tail.length < (s.space p).pagetable.missing (va / 4096))) ∨
    ∃ t, growSpace p (roundDown va) s = .done () t ∧ (s.entry p (va / 4096)).v = false ∧
      (s.space p).pagetable.missing (va / 4096) ≤ s.pmm.gFreeMemList.tail.length ∧
      t.entry p = update (s.entry p) (va / 4096) (Pte.leaf (s.pmm.gFreeMemList.headD 0) userRw) := by
  obtain ⟨u, halloc, hlist, hspace⟩ := allocOrNull_eq p s
  have hentry : u.entry p = s.entry p := by
    funext w
    rw [Vm.entry, Vm.entry, hspace]
  have hal := roundDown_aligned va
  have hlt : roundDown va < maxva := (roundDown_le va).trans_lt hva
  rw [growSpace, bind_done halloc]
  generalize s.pmm.gFreeMemList.headD 0 = pa
  cases hv : (s.entry p (va / 4096)).v with
  | true =>
    refine .inl ⟨u, userVmMap_valid hal hlt ?_, hentry, .inl rfl⟩
    rw [roundDown_div, hentry, hv]
  | false =>
    rcases lt_or_ge s.pmm.gFreeMemList.tail.length ((s.space p).pagetable.missing (va / 4096)) with hm | hm
    · obtain ⟨t, hrun, -, ht⟩ := userVmMap_short (s := u) (p := p) hal hlt
        (by rw [roundDown_div, hlist, hspace]; exact hm) pa userRw
      exact .inl ⟨t, hrun, ht.trans hentry, .inr hm⟩
    · obtain ⟨t, hrun, -, ht⟩ := userVmMap_enough (s := u) (p := p) hal hlt
        (by rw [roundDown_div, hentry, hv]) (by rw [roundDown_div, hlist, hspace]; exact hm) pa userRw
      refine .inr ⟨t, hrun, rfl, hm, ?_⟩
      rw [ht, hentry, roundDown_div]

end Grow

section Store

def onStoreFault (p : Pid) (faultVa : ℕ) (s : Vm) (e : Pte) : Flow Vm Unit :=
  if e.v && e.cow then breakCow p (faultVa / 4096) e
  else if userStackTop < faultVa then leave
  else if u64 (userStackTop + (2 ^ 64 - (s.space p).size)) < faultVa then growSpace p (roundDown faultVa)
  else if (s.space p).userHeap.heapTop ≤ faultVa then leave
  else growSpace p (roundDown faultVa)

lemma storePageFault_eq (hva : va < maxva) : storePageFault p va s = onStoreFault p va s (s.entry p (va / 4096)) s := by
  have hlt : roundDown va < maxva := (roundDown_le va).trans_lt hva
  rw [storePageFault]
  simp only []
  rw [bind_done (pageWalk_false hlt), get_bind, onStoreFault, roundDown_div, Vm.entry, PageTable.entry, PageTable.walk_eq,
    PageTable.walk_eq, roundDown_div, Nat.mul_div_cancel _ (by norm_num)]
  generalize (if (s.space p).pagetable.Has (va / 4096) then some (va / 4096) else none) = w
  cases w <;> rfl

lemma storePageFault_beyond (hva : maxva ≤ va) : storePageFault p va s = .left s := by
  have hle : maxva ≤ roundDown va := by
    unfold roundDown
    unfold maxva at hva ⊢
    omega
  have hwalk : pageWalk p (roundDown va) false s = .left s := by
    rw [pageWalk, if_pos hle]
    rfl
  rw [storePageFault]
  simp only []
  rw [bind_left hwalk]

def CowReady (s : Vm) (e : Pte) : Prop :=
  if 1 < s.pmm.getPageRef e.pa then e.pa ≠ 0 ∧ ∃ f rest, s.pmm.gFreeMemList = f :: rest ∧ f ≠ 0 else e.u = true

section Cow

variable {f : ℕ} {rest : List ℕ}

lemma breakCow_single (h : ¬ 1 < s.pmm.getPageRef e.pa) :
    breakCow p v e s = .done () (s.setTable p (·.setPte v { e with w := true, d := true, cow := false })) := by
  rw [breakCow, get_bind, if_neg h]
  rfl

lemma managed_of_shared (h : 1 < s.pmm.getPageRef e.pa) : s.pmm.Managed e.pa := by
  rw [Pmm.getPageRef_eq (show e.pa % 4096 = 0 from Nat.mul_mod_left _ _)] at h
  exact Pmm.managed_of_ref (Nat.zero_lt_of_lt h)

lemma breakCow_shared (h : 1 < s.pmm.getPageRef e.pa) (hv : (s.space p).pagetable.Has v)
    (hl : s.pmm.gFreeMemList = f :: rest) (hf : f ≠ 0) (he : e.pa ≠ 0) :
    ∃ t, breakCow p v e s = .done () t ∧ t.entry p v = Pte.leaf f userRw := by
  have halloc : allocOrNull s = .done f (s.took f rest) := by
    rw [allocOrNull, bind_done (allocPage_cons hl)]
    rfl
  have hm : (s.took f rest).pmm.Managed e.pa := (Vm.took_bounds.managed _).mpr (managed_of_shared h)
  rw [breakCow, get_bind, if_pos h, bind_done halloc, memcpyPage, if_neg (by simp [hf, he]), modify_bind, setPte,
    modify_bind, decPageRef]
  refine ⟨_, freePage_eq hm, ?_⟩
  have hrelease (u : Vm) : (u.release e.pa).entry p v = u.entry p v := rfl
  rw [hrelease, Vm.entry_setTable]
  change ((s.space p).pagetable.setPte v _).entry v = _
  rw [PageTable.entry_setPte hv, update_self]

lemma breakCow_stuck (h : 1 < s.pmm.getPageRef e.pa) (hn : ¬ CowReady s e) : breakCow p v e s = .halted := by
  obtain ⟨t, halloc, -⟩ := allocOrNull_eq p s
  have hnull : s.pmm.gFreeMemList.headD 0 = 0 ∨ e.pa = 0 := by
    by_contra hc
    rw [not_or] at hc
    rw [CowReady, if_pos h] at hn
    cases hl : s.pmm.gFreeMemList with
    | nil => exact hc.1 (by rw [hl]; rfl)
    | cons f rest => exact hn ⟨hc.2, f, rest, hl, by simpa [hl] using hc.1⟩
  rw [breakCow, get_bind, if_pos h, bind_done halloc, memcpyPage, if_pos hnull]
  rfl

end Cow

lemma settles_cow (hva : va < maxva) (hv : (M.vm.entry p (va / 4096)).v = true)
    (hcow : (M.vm.entry p (va / 4096)).cow = true) :
    Settles M p .store va ↔ CowReady M.vm (M.vm.entry p (va / 4096)) := by
  have hhas := PageTable.has_of_valid hv
  have hrun : pageFault p .store va M.vm = breakCow p (va / 4096) (M.vm.entry p (va / 4096)) M.vm := by
    change storePageFault p va M.vm = _
    rw [storePageFault_eq hva, onStoreFault, if_pos (by simp [hv, hcow])]
  by_cases hshared : 1 < M.vm.pmm.getPageRef (M.vm.entry p (va / 4096)).pa
  · by_cases hready : CowReady M.vm (M.vm.entry p (va / 4096))
    · have hpages := hready
      rw [CowReady, if_pos hshared] at hpages
      obtain ⟨hpa, f, rest, hl, hf⟩ := hpages
      obtain ⟨t, ht, hentry⟩ := breakCow_shared hshared hhas hl hf hpa
      rw [settles_of_done (hrun.trans ht), hentry]
      exact iff_of_true rfl hready
    · exact iff_of_false (not_settles_of_halted (hrun.trans (breakCow_stuck hshared hready))) hready
  · rw [settles_of_done (hrun.trans (breakCow_single hshared)), CowReady, if_neg hshared, Vm.entry_setTable,
      PageTable.entry_setPte hhas, update_self]
    simp [FaultCause.permits, hv]

lemma settles_other (h : ¬ ((M.vm.entry p (va / 4096)).v = true ∧ (M.vm.entry p (va / 4096)).cow = true)) :
    Settles M p .store va := by
  rcases lt_or_ge va maxva with hva | hva
  swap
  · exact settles_of_left (storePageFault_beyond hva)
  have hrun := storePageFault_eq (s := M.vm) (p := p) hva
  have hgrow : pageFault p .store va M.vm = growSpace p (roundDown va) M.vm → Settles M p .store va := by
    intro he
    rcases growSpace_cases (s := M.vm) (p := p) hva with ⟨t, ht, -⟩ | ⟨t, ht, -, -, hentry⟩
    · exact settles_of_left (he.trans ht)
    · rw [settles_of_done (he.trans ht), hentry, update_self]
      rfl
  rw [onStoreFault, if_neg (by simpa using h)] at hrun
  split_ifs at hrun
  · exact settles_of_left hrun
  · exact hgrow hrun
  · exact settles_of_left hrun
  · exact hgrow hrun

end Store

/-- A fault leads on or kills if and only if it is a store, and its copy-on-write page, if it has one, can be
resolved; a load would have to be one that does not fault. -/
theorem fault_settles_iff (M : Machine) (p : Pid) (cause : FaultCause) (va : ℕ) : Settles M p cause va ↔
    match cause with
    | .load => FaultCause.load.permits (M.vm.entry p (va / 4096)) = true
    | .store => va < maxva → (M.vm.entry p (va / 4096)).v = true → (M.vm.entry p (va / 4096)).cow = true →
        CowReady M.vm (M.vm.entry p (va / 4096)) := by
  cases cause with
  | load => exact settles_of_done rfl
  | store =>
    by_cases hcow : va < maxva ∧ (M.vm.entry p (va / 4096)).v = true ∧ (M.vm.entry p (va / 4096)).cow = true
    · obtain ⟨hva, hv, hc⟩ := hcow
      rw [settles_cow hva hv hc]
      exact ⟨fun h _ _ _ => h, fun h => h hva hv hc⟩
    · refine iff_of_true ?_ fun hva hv hc => absurd ⟨hva, hv, hc⟩ hcow
      by_cases hva : va < maxva
      · exact settles_other fun h => hcow ⟨hva, h⟩
      · exact settles_of_left (storePageFault_beyond (not_lt.mp hva))

theorem load_faults_again : ∃ M, MReach (fun _ _ => True) smallBoot M ∧ M.phase 0 = .active ∧
    onVm 0 (pageFault 0 .load 0x500000) M = .done () M ∧ (M.vm.entry 0 (0x500000 / 4096)).v = false ∧
      ¬ Settles M 0 .load 0x500000 := by
  have hrun : (play (fun _ _ => true) [.load onePage 0x10000] smallBoot).any (fun M => decide (M.phase 0 = .active ∧
      (M.vm.entry 0 (0x500000 / 4096)).v = false)) = true := by decide +kernel
  obtain ⟨M, hM, hobs⟩ := play_any (fun _ _ _ => trivial) hrun
  obtain ⟨hphase, hv⟩ := of_decide_eq_true hobs
  refine ⟨M, hM, hphase, rfl, hv, fun h => ?_⟩
  have hp := (settles_of_done (t := M.vm) rfl).mp h
  rw [FaultCause.permits, hv] at hp
  cases hp

section Backing

def InStackWindow (s : Vm) (p : Pid) (va : ℕ) : Prop := userStackTop ≤ va + (s.space p).size ∧ va < userStackTop

def Guarded (M : Machine) (p : Pid) (va : ℕ) : Prop :=
  InStackWindow M.vm p va ∨
    ∃ t, Act.run p (.storeFault va) M = .left t ∧ t.phase p = .zombie ∧ t.vm.entry p = M.vm.entry p

def TurnedDown (s : Vm) (p : Pid) (va : ℕ) : Prop :=
  userStackTop < va ∨
    va ≤ u64 (userStackTop + (2 ^ 64 - (s.space p).size)) ∧ (s.space p).userHeap.heapTop ≤ va

lemma guarded_of_left (h : storePageFault p va M.vm = .left t) (ht : t.entry p = M.vm.entry p) : Guarded M p va := by
  refine .inr ⟨_, onVm_left h, ?_, ht⟩
  simp

lemma not_guarded_of_done (h : storePageFault p va M.vm = .done () t) (hout : ¬ InStackWindow M.vm p va) :
    ¬ Guarded M p va := by
  have hrun : Act.run p (.storeFault va) M = .done () { M with vm := t } := onVm_done h
  rintro (hin | ⟨u, hu, -⟩)
  · exact hout hin
  · rw [hrun] at hu
    cases hu

/-- A store to a page that is not copy-on-write stays without memory if and only if it is in the window, or the
handler turns it down, or the page is mapped already, or there is no memory for the page tables. -/
theorem illegal_store_killed_iff (M : Machine) (p : Pid) (va : ℕ)
    (hcow : ¬ ((M.vm.entry p (va / 4096)).v = true ∧ (M.vm.entry p (va / 4096)).cow = true)) :
    Guarded M p va ↔ InStackWindow M.vm p va ∨ TurnedDown M.vm p va ∨ (M.vm.entry p (va / 4096)).v = true ∨
      M.vm.pmm.gFreeMemList.tail.length < (M.vm.space p).pagetable.missing (va / 4096) := by
  by_cases hin : InStackWindow M.vm p va
  · exact iff_of_true (.inl hin) (.inl hin)
  rcases lt_or_ge va maxva with hva | hva
  swap
  · refine iff_of_true (guarded_of_left (storePageFault_beyond hva) rfl) (.inr (.inl (.inl ?_)))
    exact lt_of_lt_of_le (by norm_num) hva
  have hrun := storePageFault_eq (s := M.vm) (p := p) hva
  rw [onStoreFault, if_neg (by simpa using hcow)] at hrun
  have hgrow : storePageFault p va M.vm = growSpace p (roundDown va) M.vm → ¬ TurnedDown M.vm p va →
      (Guarded M p va ↔ InStackWindow M.vm p va ∨ TurnedDown M.vm p va ∨ (M.vm.entry p (va / 4096)).v = true ∨
        M.vm.pmm.gFreeMemList.tail.length < (M.vm.space p).pagetable.missing (va / 4096)) := by
    intro he hdown
    rcases growSpace_cases (s := M.vm) (p := p) hva with ⟨t, ht, hentry, hwhy⟩ | ⟨t, ht, hv, hm, -⟩
    · exact iff_of_true (guarded_of_left (he.trans ht) hentry) (.inr (.inr hwhy))
    · refine iff_of_false (not_guarded_of_done (he.trans ht) hin) ?_
      rintro (h | h | h | h)
      · exact hin h
      · exact hdown h
      · rw [hv] at h
        cases h
      · omega
  split_ifs at hrun with htop hstack hheap
  · exact iff_of_true (guarded_of_left hrun rfl) (.inr (.inl (.inl htop)))
  · apply hgrow hrun
    rintro (h | ⟨h, -⟩)
    · exact htop h
    · omega
  · exact iff_of_true (guarded_of_left hrun rfl) (.inr (.inl (.inr ⟨not_lt.mp hstack, hheap⟩)))
  · apply hgrow hrun
    rintro (h | ⟨-, h⟩)
    · exact htop h
    · exact hheap h

theorem illegal_store_killed_between : ∃ M, MReach (fun _ _ => True) smallBoot M ∧
    ¬ InStackWindow M.vm 0 0x500000 ∧ Guarded M 0 0x500000 := by
  have hrun : (play (fun _ _ => true) [.load onePage 0x10000] smallBoot).any (fun M => decide (
      (M.vm.entry 0 (0x500000 / 4096)).v = false ∧ (M.vm.space 0).size = 20 * 4096 ∧
        (M.vm.space 0).userHeap.heapTop = 0x400000)) = true := by decide +kernel
  obtain ⟨M, hM, hobs⟩ := play_any (fun _ _ _ => trivial) hrun
  obtain ⟨hv, hsize, htop⟩ := of_decide_eq_true hobs
  refine ⟨M, hM, ?_, (illegal_store_killed_iff M 0 0x500000 ?_).mpr (.inr (.inl (.inr ⟨?_, ?_⟩)))⟩
  · rw [InStackWindow, hsize]
    decide
  · rw [hv]
    simp
  · rw [hsize]
    decide
  · rw [htop]
    decide

theorem null_page_backed : ∃ M t, MReach (fun _ _ => True) smallBoot M ∧ M.phase 0 = .active ∧
    (M.vm.entry 0 0).v = false ∧ ¬ InStackWindow M.vm 0 0 ∧ Act.run 0 (.storeFault 0) M = .done () t ∧
      (t.vm.entry 0 0).writable = true := by
  have hrun : (play (fun _ _ => true) [.load onePage 0x10000] smallBoot).any (fun M => decide (M.phase 0 = .active ∧
      (M.vm.entry 0 0).v = false ∧ (M.vm.space 0).size = 20 * 4096) &&
        (Act.run 0 (.storeFault 0) M).ends fun _ t => (t.vm.entry 0 0).writable) = true := by decide +kernel
  obtain ⟨M, hM, hobs⟩ := play_any (fun _ _ _ => trivial) hrun
  rw [Bool.and_eq_true] at hobs
  obtain ⟨hphase, hv, hsize⟩ := of_decide_eq_true hobs.1
  obtain ⟨_, t, ht, hw⟩ := Outcome.ends_done hobs.2
  refine ⟨M, t, hM, hphase, hv, ?_, ht, hw⟩
  rw [InStackWindow, hsize]
  decide

end Backing

end Pke.Memory
