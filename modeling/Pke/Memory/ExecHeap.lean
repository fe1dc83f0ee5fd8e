import Pke.Memory.Exec
import Pke.Memory.TwoHeaps

namespace Pke.Memory

open Lib Flow Function Processes

variable {s t u : Vm} {p : Pid} {v size va r n : ℕ} {x : ExecCall} {file : List UInt8} {lost : List Malloc} {E : ℕ → Prop}

def SegmentPage (file : List UInt8) (v : ℕ) : Prop :=
  ∃ ph ∈ loadHeaders file (ehdrPhnum file) (toInt (ehdrPhoff file)), ph.Covers v

structure HeapUntouched (p : Pid) (s t : Vm) : Prop where
  live : t.live p = s.live p
  idle : t.idle p = s.idle p
  heap : (t.space p).userHeap = (s.space p).userHeap
  valid : ∀ v, (s.entry p v).v = true → (t.entry p v).v = true

section Loading

lemma HeapUntouched.refl (s : Vm) : HeapUntouched p s s := ⟨rfl, rfl, rfl, fun _ h => h⟩

lemma HeapUntouched.trans (h : HeapUntouched p s t) (h' : HeapUntouched p t u) : HeapUntouched p s u :=
  ⟨h'.live.trans h.live, h'.idle.trans h.idle, h'.heap.trans h.heap, fun v hv => h'.valid v (h.valid v hv)⟩

lemma elfLoadHeader_untouched {ph : ElfProgHeader} {f : ℕ} (h : elfLoadHeader p file ph s = .done (.ok, f) t) :
    HeapUntouched p s t ∧ ∀ v, ph.Covers v → (t.entry p v).v = true := by
  rw [elfLoadHeader] at h
  split_ifs at h with hfilesz hwrap
  · cases h
  · cases h
  obtain ⟨dest, w, hw, h⟩ := bind_eq_done h
  obtain ⟨-, u, b, -, hspace, -, hspread, hb⟩ := elfAllocMb_spread p ph.vaddr ph.memsz s _ _ hw
  rw [modify_bind] at h
  split_ifs at h with hlen
  · cases h
  obtain ⟨⟨⟩, w', hw', h⟩ := bind_eq_done h
  obtain ⟨regions, k, rfl⟩ := recordSegment_same p ph _ _ _ hw'
  cases h
  have hentry : ∀ v, (s.entry p v).v = true → (w.entry p v).v = true := by
    intro v hv
    rw [Vm.entry, ← hspace] at hv
    by_cases hin : ph.vaddr / 4096 ≤ v ∧ v < b
    · rw [(hspread.mapped v hin.1 hin.2).1]
      rfl
    · rw [hspread.entry v hin]
      exact hv
  have hfields := hspread.fields
  rw [hspace] at hfields
  refine ⟨⟨?_, ?_, ?_, fun v hv => ?_⟩, fun v hv => ?_⟩
  · rw [Vm.live, Vm.setSpace_self]
    dsimp only
    rw [hfields]
    rfl
  · rw [Vm.idle, Vm.setSpace_self]
    dsimp only
    rw [hfields]
    rfl
  · rw [Vm.setSpace_self]
    dsimp only
    rw [hfields]
  · rw [Vm.entry, Vm.setSpace_self]
    exact hentry v hv
  · rw [Vm.entry, Vm.setSpace_self]
    have hmapped := (hspread.mapped v hv.1 ((hb v hv.1).mpr hv.2)).1
    change (w.entry p v).v = true
    rw [hmapped]
    rfl

lemma Loads.untouched {l : List (ElfProgHeader × ℕ)} (h : Loads file p s l t) :
    HeapUntouched p s t ∧ ∀ y ∈ l, ∀ v, y.1.Covers v → (t.entry p v).v = true := by
  induction h with
  | nil s => exact ⟨.refl s, fun _ h => absurd h List.not_mem_nil⟩
  | cons _ hround _ ih =>
    obtain ⟨hu, hnew⟩ := elfLoadHeader_untouched hround
    refine ⟨hu.trans ih.1, fun y hy v hv => ?_⟩
    rcases List.mem_cons.mp hy with rfl | hy
    · exact ih.1.valid v (hnew v hv)
    · exact ih.2 y hy v hv

lemma elfLoad_untouched {frames : List ℕ} (h : elfLoad p file (ehdrPhoff file) (ehdrPhnum file) s = .done (.ok, frames) t) :
    HeapUntouched p s t ∧ ∀ v, SegmentPage file v → (t.entry p v).v = true := by
  obtain ⟨l, hfst, -, hloads⟩ := elfLoad_loads h
  refine ⟨hloads.untouched.1, ?_⟩
  rintro v ⟨ph, hph, hv⟩
  rw [← hfst] at hph
  obtain ⟨y, hy, rfl⟩ := List.mem_map.mp hph
  exact hloads.untouched.2 y hy v hv

end Loading

section Arguments

structure Opening (p : Pid) (E : ℕ → Prop) (n : ℕ) (s : Vm) : Prop where
  live : s.live p = []
  idle : s.idle p = []
  bottom : s.bottom p = userFreeAddressStart
  top : s.top p = userFreeAddressStart + n * 4096
  valid : ∀ v, E v → (s.entry p v).v = true
  beside : ∀ v, E v → (v + 1) * 4096 ≤ userFreeAddressStart ∨ s.top p ≤ v * 4096

lemma Opening.congr (h : Opening p E n s) (hlive : t.live p = s.live p) (hidle : t.idle p = s.idle p)
    (hheap : (t.space p).userHeap = (s.space p).userHeap) (hentry : t.entry p = s.entry p) : Opening p E n t where
  live := hlive.trans h.live
  idle := hidle.trans h.idle
  bottom := by rw [Vm.bottom, hheap]; exact h.bottom
  top := by rw [Vm.top, hheap]; exact h.top
  valid v hv := by rw [hentry]; exact h.valid v hv
  beside v hv := by rw [Vm.top, hheap]; exact h.beside v hv

lemma Opening.of_space (h : Opening p E n s) (hspace : t.space = s.space) : Opening p E n t := by
  have hentry : t.entry p = s.entry p := by
    funext v
    rw [Vm.entry, Vm.entry, hspace]
  exact h.congr (by rw [Vm.live, hspace]; rfl) (by rw [Vm.idle, hspace]; rfl) (by rw [hspace]) hentry

structure TopMoved (p : Pid) (s t : Vm) : Prop where
  live : t.live p = s.live p
  idle : t.idle p = s.idle p
  bottom : t.bottom p = s.bottom p
  top : t.top p = s.top p + 4096
  entry : t.entry p = s.entry p

lemma growHeap_grown (p : Pid) (s : Vm) : yields (growHeap p) (fun _ t => TopMoved p s t) s := by
  rw [growHeap]
  apply yields_modify_bind
  rw [bumpHeapRegion]
  refine yields_modify ⟨?_, ?_, ?_, ?_, ?_⟩
  · simp [Vm.live, Vm.setHeap]
  · simp [Vm.idle, Vm.setHeap]
  · simp [Vm.bottom, Vm.setHeap]
  · simp [Vm.top, Vm.setHeap]
  · funext v
    simp [Vm.entry, Vm.setHeap]

lemma Opening.next {pa : ℕ} {perm : Pte} (h : Opening p E n s) (hn : n < 1000) (hg : TopMoved p s t) (hspace : u.space = t.space) :
    yields (userVmMap p (s.top p) 4096 pa perm) (fun _ w => Opening p E (n + 1) w) u := by
  have htop := h.top
  have hal : s.top p % 4096 = 0 := by
    rw [htop]
    unfold userFreeAddressStart
    omega
  have hlow : s.top p < maxva := by
    rw [htop]
    unfold userFreeAddressStart maxva
    omega
  refine yields_mono (yields_of_wp (userVmMap_entered hal hlow)) ?_
  intro _ w hw
  have hentry : u.entry p = s.entry p := by
    rw [← hg.entry]
    funext v
    rw [Vm.entry, Vm.entry, hspace]
  have hfields := hw.fields
  rw [hspace] at hfields
  have hwtop : w.top p = s.top p + 4096 := by
    rw [Vm.top, hfields, ← hg.top]
    rfl
  refine ⟨?_, ?_, ?_, ?_, fun v hv => ?_, fun v hv => ?_⟩
  · rw [Vm.live, hfields]
    exact hg.live.trans h.live
  · rw [Vm.idle, hfields]
    exact hg.idle.trans h.idle
  · rw [Vm.bottom, hfields]
    exact hg.bottom.trans h.bottom
  · rw [hwtop, htop]
    omega
  · rw [hw.entry, hentry]
    by_cases heq : v = s.top p / 4096
    · rw [heq, update_self]
      rfl
    · rw [update_of_ne heq]
      exact h.valid v hv
  · have hne : v ≠ s.top p / 4096 := by
      rintro rfl
      have hwas := hw.was
      rw [hentry, h.valid _ hv] at hwas
      cases hwas
    rw [hwtop]
    have hbeside := h.beside v hv
    omega

lemma execArguments_opens (buf : List UInt8) (h : Opening p E 0 s) :
    yields (execArguments x p buf) (fun _ t => Opening p E 2 t) s := by
  rw [execArguments]
  apply yields_get_bind
  apply yields_bind
  refine yields_mono (yields_of_wp (E := fun _ => True) allocOrNull_frees) ?_
  rintro pa s₁ ⟨-, hspace₁, -⟩
  have h₁ : Opening p E 0 s₁ := h.of_space hspace₁
  have htop₁ : s.top p = s₁.top p := by rw [Vm.top, Vm.top, hspace₁]
  dsimp only
  rw [htop₁]
  apply yields_bind
  refine yields_mono (growHeap_grown p s₁) ?_
  intro _ s₂ hg
  apply yields_bind
  refine yields_mono (h₁.next (by norm_num) hg rfl) ?_
  intro _ s₃ h₃
  apply yields_modify_bind
  apply yields_get_bind
  have h₃' : Opening p E 1 (s₃.setSpace p fun a =>
      { a with frame := ((a.frame.set .a0 1).set .a1 (.ofNat (s₁.top p))).set .tp x.tp }) := by
    refine h₃.congr (by simp [Vm.live]) (by simp [Vm.idle]) (by simp) ?_
    funext v
    simp [Vm.entry]
  revert h₃'
  generalize (s₃.setSpace p fun a => { a with frame := ((a.frame.set .a0 1).set .a1 (.ofNat (s₁.top p))).set .tp x.tp }) = s₄
  intro h₄
  apply yields_bind
  refine yields_mono (yields_of_wp (E := fun _ => True) allocOrNull_frees) ?_
  rintro paStr s₅ ⟨-, hspace₅, -⟩
  have h₅ : Opening p E 1 s₅ := h₄.of_space hspace₅
  have htop₅ : s₄.top p = s₅.top p := by rw [Vm.top, Vm.top, hspace₅]
  rw [htop₅]
  apply yields_bind
  refine yields_mono (growHeap_grown p s₅) ?_
  intro _ s₆ hg'
  apply yields_bind
  rw [memsetPage]
  split_ifs with hnull
  · exact yields_halt
  apply yields_modify
  apply yields_modify_bind
  apply yields_bind
  refine yields_mono (h₅.next (by norm_num) hg' rfl) ?_
  intro _ s₇ h₇
  apply yields_bind
  rw [deref]
  split_ifs with hnull'
  · exact yields_halt
  apply yields_pure
  exact yields_modify (h₇.of_space rfl)

def execFile (x : ExecCall) (p : Pid) (path : ℕ) (s : Vm) : Option (List UInt8) :=
  match clrProc p s with
  | .done _ u => x.vfsOpen u.mem path
  | _ => none

lemma doExec_opens {path argv : ℕ} {z : ℤ} (hlive : s.live p = []) (hidle : s.idle p = [])
    (hfile : execFile x p path s = some file) (h : doExec x p path argv s = .done z t) : Opening p (SegmentPage file) 2 t := by
  obtain ⟨-, u, w, file', frames, hclr, hopen, -, hload, -, hargs⟩ := doExec_done h
  rw [execFile, hclr] at hfile
  cases hopen.symm.trans hfile
  have hstart : HeapStart p u := allocProcess_heapStart hlive hidle _ _ hclr
  obtain ⟨hw, hsegments⟩ := elfLoad_untouched hload
  refine execArguments_opens _ (Opening.congr (s := w) ?_ (by simp [Vm.live]) (by simp [Vm.idle]) (by simp) ?_) _ _ hargs
  · have htop : w.top p = userFreeAddressStart := by
      rw [Vm.top, hw.heap]
      exact hstart.top
    have hbottom : w.bottom p = userFreeAddressStart := by
      rw [Vm.bottom, hw.heap]
      exact hstart.bottom
    refine ⟨hw.live.trans hstart.live, hw.idle.trans hstart.idle, hbottom, by rw [htop, Nat.zero_mul, Nat.add_zero],
      hsegments, fun v _ => ?_⟩
    rw [htop]
    unfold userFreeAddressStart
    omega
  · funext v
    simp [Vm.entry]

end Arguments

section Runs

def argvPages : List (ℕ × ℕ) := [(userFreeAddressStart, 4096), (userFreeAddressStart + 4096, 4096)]

def Suits (file : List UInt8) (p : Pid) (s : Vm) (size : ℕ) : Prop :=
  CountFits s p size ∧ ((∀ m ∈ s.idle p, m.size < size) → s.top p % 4096 = 0 → ¬ SegmentPage file (s.top p / 4096))

inductive ExecRun (file : List UInt8) (p : Pid) : List Malloc → Vm → Prop
  | start {x : ExecCall} {s t : Vm} {path argv : ℕ} {z : ℤ} : s.live p = [] → s.idle p = [] →
      execFile x p path s = some file → doExec x p path argv s = .done z t → ExecRun file p [] t
  | others {s t : Vm} {lost : List Malloc} : ExecRun file p lost s → HeapKept p s t → ExecRun file p lost t
  | malloc {s t : Vm} {lost : List Malloc} {size r : ℕ} : ExecRun file p lost s → Suits file p s size →
      userBetterMalloc p size s = .done r t → ExecRun file p (if r = 0 then lost else forgets s p size ++ lost) t
  | free {s t : Vm} {lost : List Malloc} {va : ℕ} : ExecRun file p lost s → userBetterFree p va s = .done () t →
      ExecRun file p lost t

structure ExecInv (file : List UInt8) (p : Pid) (lost : List Malloc) (s : Vm) : Prop where
  heap : HeapInv p argvPages lost s
  valid : ∀ v, SegmentPage file v → (s.entry p v).v = true
  beside : ∀ v, SegmentPage file v → (v + 1) * 4096 ≤ userFreeAddressStart ∨ s.top p ≤ v * 4096

lemma argvPages_tile : Tiles argvPages userFreeAddressStart (userFreeAddressStart + 2 * 4096) := by
  have hfirst := (Tiles.nil userFreeAddressStart).grow le_rfl 4096
  have hsecond := hfirst.grow (Nat.le_add_right _ _) 4096
  exact hsecond.perm (List.Perm.swap _ _ _)

lemma Opening.execInv (h : Opening p (SegmentPage file) 2 s) : ExecInv file p [] s where
  heap := by
    refine ⟨h.bottom, ?_, ?_, ?_, ?_, ?_⟩
    · rw [h.bottom, h.top]
      exact Nat.le_add_right _ _
    · rw [h.top]
      norm_num
    · rw [h.live, h.idle]
      simp
    · rw [h.live, h.idle, h.bottom, h.top]
      exact argvPages_tile
    · rw [h.live]
      simp
  valid := h.valid
  beside := h.beside

namespace ExecInv

lemma kept (h : ExecInv file p lost s) (hk : HeapKept p s t) : ExecInv file p lost t where
  heap := h.heap.kept hk
  valid v hv := hk.valid v (h.valid v hv)
  beside v hv := by rw [hk.top]; exact h.beside v hv

lemma fresh_beside (h : ExecInv file p lost s) (hsuits : Suits file p s size) (hsize : size ≠ 0)
    (hsmall : ∀ m ∈ s.idle p, m.size < size) (hrun : userBetterMalloc p size s = .done r t) (hr : r ≠ 0) (hv : SegmentPage file v) :
    (v + 1) * 4096 ≤ userFreeAddressStart ∨ s.top p + size ≤ v * 4096 := by
  refine (h.beside v hv).imp_right fun htop => ?_
  by_contra hover
  have hpages := le_newPages (hsuits.1 hsmall)
  have hcounted : v ≤ s.top p / 4096 + newPages (s.top p) size := by omega
  rcases Nat.eq_or_lt_of_le (show s.top p / 4096 ≤ v by omega) with heq | hlt
  · -- the segment starts where the heap ends
    have hal : s.top p % 4096 = 0 := by omega
    exact hsuits.2 hsmall hal (heq ▸ hv)
  · have hnew := userBetterMalloc_new hsize h.heap.top_lt hsmall hrun hr hlt hcounted
    rw [h.valid v hv] at hnew
    cases hnew

lemma failed_top (h : ExecInv file p lost s) (hsize : size ≠ 0) (hrun : userBetterMalloc p size s = .done 0 t) : t.top p = s.top p := by
  rcases userBetterMalloc_yields hsize h.heap.idle_lt h.heap.top_lt 0 t hrun with
    ⟨before, reuse, after, -, -, -, ⟨-, n, u, -, -, rfl⟩ | ⟨-, n, u, node, -, -, rfl⟩⟩ | ⟨-, -, ⟨-, hrest⟩ | ⟨hzero, -⟩⟩
  · exact Vm.top_withHeap
  · exact Vm.top_withHeap
  · exact hrest.top
  · have hlow : 0x400000 ≤ s.top p := h.heap.top_ge
    omega

lemma malloc (h : ExecInv file p lost s) (hsuits : Suits file p s size) (hrun : userBetterMalloc p size s = .done r t) :
    ExecInv file p (if r = 0 then lost else forgets s p size ++ lost) t := by
  have hgrow := h.heap.pagesGrow hsuits.1 hrun
  refine ⟨h.heap.malloc hsuits.1 hrun, fun v hv => hgrow.valid v (h.valid v hv), fun v hv => ?_⟩
  rcases hgrow.top with htop | ⟨hsmall, htop⟩
  · rw [htop]
    exact h.beside v hv
  · by_cases hsize : size = 0
    · rw [htop, hsize]
      exact h.beside v hv
    · by_cases hr : r = 0
      · subst hr
        rw [h.failed_top hsize hrun]
        exact h.beside v hv
      · rw [htop]
        exact h.fresh_beside hsuits hsize hsmall hrun hr hv

lemma free (h : ExecInv file p lost s) (hrun : userBetterFree p va s = .done () t) : ExecInv file p lost t := by
  have hend : ∀ m ∈ s.live p, m.va + m.size ≤ maxva := fun m hm => (h.heap.within (by simp [hm])).2.trans h.heap.top
  rcases userBetterFree_yields hend () t hrun with ⟨rfl, -⟩ | ⟨before, cur, after, u, hlive, -, -, hunlays, ht⟩
  · exact h
  have hcur := h.heap.within (m := cur) (by simp [hlive])
  rw [h.heap.bottom] at hcur
  refine ⟨h.heap.free hrun, fun v hv => ?_, fun v hv => ?_⟩
  · rw [ht, Vm.entry_withHeap, hunlays.entry, if_neg]
    · exact h.valid v hv
    · intro hin
      obtain ⟨hlo, hhi⟩ := (mem_releasedPages.mp hin).1
      have hbeside := h.beside v hv
      omega
  · rw [ht, Vm.top_withHeap]
    exact h.beside v hv

end ExecInv

theorem ExecRun.invariant (h : ExecRun file p lost s) : ExecInv file p lost s := by
  induction h with
  | start hlive hidle hfile hrun => exact (doExec_opens hlive hidle hfile hrun).execInv
  | others _ hk ih => exact ih.kept hk
  | malloc _ hsuits hrun ih => exact ih.malloc hsuits hrun
  | free _ hrun ih => exact ih.free hrun

structure CleanHeap (file : List UInt8) (p : Pid) (s : Vm) : Prop where
  apart : (extents (s.live p)).Pairwise Apart
  argv : ∀ b ∈ extents (s.live p), ∀ a ∈ argvPages, Apart b a
  segments : ∀ b ∈ extents (s.live p), ∀ v, SegmentPage file v → Apart b (v * 4096, 4096)
  returned : ∀ size r t, Suits file p s size → userBetterMalloc p size s = .done r t → r ≠ 0 → (r, size) ∈ extents (t.live p)

lemma ExecInv.returned (h : ExecInv file p lost s) (hrun : userBetterMalloc p size s = .done r t) (hr : r ≠ 0) :
    (r, size) ∈ extents (t.live p) := by
  by_cases hsize : size = 0
  · subst hsize
    cases hrun
    exact absurd rfl hr
  rcases userBetterMalloc_yields hsize h.heap.idle_lt h.heap.top_lt r t hrun with
    ⟨before, reuse, after, -, -, -, ⟨hzero, -⟩ | ⟨rfl, n, u, node, -, -, rfl⟩⟩ | ⟨-, -, ⟨hzero, -⟩ | ⟨rfl, n, u, node, -, -, rfl⟩⟩
  · exact absurd hzero hr
  · rw [Vm.live_withHeap]
    exact List.mem_cons_self
  · exact absurd hzero hr
  · rw [Vm.live_withHeap]
    exact List.mem_cons_self

lemma ExecInv.clean (h : ExecInv file p lost s) : CleanHeap file p s := by
  have hpos : ∀ b ∈ extents (s.live p ++ s.idle p ++ lost) ++ argvPages, 0 < b.2 := by
    intro b hb
    rcases List.mem_append.mp hb with hb | hb
    · obtain ⟨m, hm, rfl⟩ := List.mem_map.mp hb
      exact h.heap.pos m hm
    · simp only [argvPages, List.mem_cons, List.not_mem_nil, or_false] at hb
      rcases hb with rfl | rfl <;> norm_num
  have hpair := h.heap.tiles.pairwise hpos
  rw [extents_append, extents_append, List.append_assoc, List.append_assoc] at hpair
  obtain ⟨hlive, -, hcross⟩ := List.pairwise_append.mp hpair
  refine ⟨hlive, fun b hb a ha => ?_, fun b hb v hv => ?_, fun size r t _ hrun hr => h.returned hrun hr⟩
  · exact hcross b hb a (List.mem_append_right _ (List.mem_append_right _ ha))
  · obtain ⟨m, hm, rfl⟩ := List.mem_map.mp hb
    have hin := h.heap.within (m := m) (by simp [hm])
    rw [h.heap.bottom] at hin
    have hbeside := h.beside v hv
    change m.va + m.size ≤ v * 4096 ∨ v * 4096 + 4096 ≤ m.va
    omega

theorem exec_heap_clean_when_empty (file : List UInt8) (p : Pid) (lost : List Malloc) (s : Vm) (hrun : ExecRun file p lost s) :
    CleanHeap file p s := hrun.invariant.clean

def smallElf : List UInt8 :=
  [0x7f, 0x45, 0x4c, 0x46] ++ List.replicate 20 0 ++ [0, 0, 1, 0, 0, 0, 0, 0] ++ [64, 0, 0, 0, 0, 0, 0, 0] ++ List.replicate 16 0 ++
    [1, 0] ++ List.replicate 6 0 ++ (smallFile 4 4).drop 64

lemma smallElf_page (h : SegmentPage smallElf v) : v = 16 := by
  obtain ⟨ph, hph, hv⟩ := h
  have hheaders : loadHeaders smallElf (ehdrPhnum smallElf) (toInt (ehdrPhoff smallElf)) = [⟨1, 5, 120, 0x10000, 4, 4⟩] := by
    decide +kernel
  rw [hheaders, List.mem_singleton] at hph
  subst hph
  exact le_antisymm hv.2 hv.1

theorem exec_heap_clean_after_malloc : ∃ lost s, ExecRun smallElf 0 lost s ∧ (s.live 0).length = 1 ∧ CleanHeap smallElf 0 s := by
  have hrun : (play (fun _ _ => true) [.load onePage 0x10000] smallBoot).any (fun M =>
      ((M.vm.live 0).isEmpty && (M.vm.idle 0).isEmpty) && ((clrProc 0 M.vm).ends fun _ _ => true) &&
        (doExec (answering (some smallElf)) 0 0 0 M.vm).ends fun _ t => decide (t.top 0 = 0x402000) &&
          (userBetterMalloc 0 100 t).ends fun _ w => decide ((w.live 0).length = 1)) = true := by decide +kernel
  obtain ⟨M, hobs⟩ := (Option.any_eq_true _ _).mp hrun
  replace hobs := hobs.2
  rw [Bool.and_eq_true, Bool.and_eq_true, Bool.and_eq_true, List.isEmpty_iff, List.isEmpty_iff] at hobs
  obtain ⟨⟨⟨hlive, hidle⟩, hclr⟩, hexec⟩ := hobs
  obtain ⟨⟨⟩, u, hclr, -⟩ := Outcome.ends_done hclr
  obtain ⟨z, t, ht, hobs⟩ := Outcome.ends_done hexec
  rw [Bool.and_eq_true] at hobs
  obtain ⟨r, w, hw, hlen⟩ := Outcome.ends_done hobs.2
  have hfile : execFile (answering (some smallElf)) 0 0 M.vm = some smallElf := by
    rw [execFile, hclr]
    rfl
  have hsuits : Suits smallElf 0 t 100 := by
    refine ⟨fun _ => by omega, fun _ _ hpage => ?_⟩
    have hv := smallElf_page hpage
    rw [of_decide_eq_true hobs.1] at hv
    norm_num at hv
  have hdone := (ExecRun.start hlive hidle hfile ht).malloc hsuits hw
  exact ⟨_, w, hdone, of_decide_eq_true hlen, exec_heap_clean_when_empty smallElf 0 _ w hdone⟩

theorem freed_block_survives_exec : ∃ M s t z, MReach (fun _ _ => True) smallBoot M ∧ M.phase 0 = .active ∧
    doExec (answering (some smallElf)) 0 0 0 M.vm = .done z s ∧ userBetterMalloc 0 50 s = .done 0x400000 t ∧
      (userFreeAddressStart, 4096) ∈ argvPages ∧ ¬ Apart (0x400000, 50) (userFreeAddressStart, 4096) := by
  have hrun : (play (fun _ _ => true) [.load onePage 0x10000, .act 0 (.betterMalloc 100), .act 0 (.betterFree 0x400000)]
      smallBoot).any (fun M => decide (M.phase 0 = .active) && (doExec (answering (some smallElf)) 0 0 0 M.vm).ends fun _ s =>
        (userBetterMalloc 0 50 s).ends fun r _ => decide (r = 0x400000)) = true := by decide +kernel
  obtain ⟨M, hM, hobs⟩ := play_any (fun _ _ _ => trivial) hrun
  rw [Bool.and_eq_true] at hobs
  obtain ⟨z, s, hs, hobs'⟩ := Outcome.ends_done hobs.2
  obtain ⟨r, t, ht, hr⟩ := Outcome.ends_done hobs'
  rw [of_decide_eq_true hr] at ht
  refine ⟨M, s, t, z, hM, of_decide_eq_true hobs.1, hs, ht, List.mem_cons_self, ?_⟩
  norm_num [Apart]

end Runs

end Pke.Memory
