import Pke.Memory.HeapRuns

namespace Pke.Memory

open Lib Flow Function Processes

variable {s t : Vm} {p : Pid} {va size : ℕ} {lost lost' : List Malloc} {ok : Vm → ℕ → Prop} {test : Vm → ℕ → Bool}

inductive HeapOp where
  | malloc (size : ℕ)
  | free (va : ℕ)

def HeapOp.play (p : Pid) (test : Vm → ℕ → Bool) : List HeapOp → List Malloc × Vm → Option (List Malloc × Vm)
  | [], h => some h
  | .malloc size :: l, (lost, s) =>
    if test s size then
      match userBetterMalloc p size s with
      | .done r t => play p test l (if r = 0 then lost else forgets s p size ++ lost, t)
      | _ => none
    else none
  | .free va :: l, (lost, s) =>
    match userBetterFree p va s with
    | .done _ t => play p test l (lost, t)
    | _ => none

lemma HeapOp.play_run (htest : ∀ s size, test s size = true → ok s size) {l : List HeapOp} (h : HeapRun p ok lost s)
    (hplay : HeapOp.play p test l (lost, s) = some (lost', t)) : HeapRun p ok lost' t := by
  induction l generalizing lost s with
  | nil =>
    cases hplay
    exact h
  | cons o l ih =>
    cases o with
    | malloc size =>
      rw [HeapOp.play] at hplay
      split_ifs at hplay with hok
      cases hr : userBetterMalloc p size s with
      | done r u =>
        rw [hr] at hplay
        exact ih (h.malloc (htest s size hok) hr) hplay
      | left u => rw [hr] at hplay; cases hplay
      | halted => rw [hr] at hplay; cases hplay
      | undefined => rw [hr] at hplay; cases hplay
    | free va =>
      rw [HeapOp.play] at hplay
      cases hr : userBetterFree p va s with
      | done r u =>
        rw [hr] at hplay
        exact ih (h.free hr) hplay
      | left u => rw [hr] at hplay; cases hplay
      | halted => rw [hr] at hplay; cases hplay
      | undefined => rw [hr] at hplay; cases hplay

def HeapStart.holds (p : Pid) (s : Vm) : Bool :=
  (s.live p).isEmpty && (s.idle p).isEmpty && decide (s.top p = userFreeAddressStart ∧ s.bottom p = userFreeAddressStart)

lemma HeapStart.of_holds (h : HeapStart.holds p s = true) : HeapStart p s := by
  simp only [HeapStart.holds, Bool.and_eq_true, List.isEmpty_iff, decide_eq_true_eq] at h
  exact ⟨h.1.1, h.1.2, h.2.1, h.2.2⟩

def firstHeap (test : Vm → ℕ → Bool) (l : List HeapOp) : Option (List Malloc × Vm) :=
  match play (fun _ _ => true) [.load onePage 0x10000] smallBoot with
  | some s => if HeapStart.holds 0 s.vm then HeapOp.play 0 test l ([], s.vm) else none
  | none => none

lemma firstHeap_run (htest : ∀ s size, test s size = true → ok s size) {l : List HeapOp}
    {obs : List Malloc × Vm → Bool} (h : (firstHeap test l).any obs = true) :
    ∃ lost s, HeapRun 0 ok lost s ∧ obs (lost, s) = true := by
  obtain ⟨⟨lost, s⟩, hs, hobs⟩ := (Option.any_eq_true _ _).mp h
  refine ⟨lost, s, ?_, hobs⟩
  rw [firstHeap] at hs
  split at hs
  · split_ifs at hs with hstart
    exact HeapOp.play_run htest (.start (HeapStart.of_holds hstart)) hs
  · cases hs

lemma HeapInv.top_ge {pages : List (ℕ × ℕ)} (h : HeapInv p pages lost s) : userFreeAddressStart ≤ s.top p := h.bottom ▸ h.le

def fitsPages (_ : Vm) (size : ℕ) : Bool := decide (size + 4095 < 2 ^ 64)

lemma countFits_of_fitsPages (s : Vm) (size : ℕ) (h : fitsPages s size = true) : size < 2 ^ 64 ∧ CountFits s p size := by
  have hlt := of_decide_eq_true h
  exact ⟨by omega, fun _ => by omega⟩

structure HeapTiled (p : Pid) (s : Vm) : Prop where
  tiles : Tiles (extents (s.live p ++ s.idle p)) (s.bottom p) (s.top p)
  stays : ∀ size va t, (∃ m ∈ s.idle p, size ≤ m.size) → userBetterMalloc p size s = .done va t → t.top p = s.top p

def IntSize (_ : Vm) (size : ℕ) : Prop := 1 ≤ size ∧ size ≤ 2 ^ 31 - 1

lemma IntSize.countFits (h : IntSize s size) : CountFits s p size := by
  intro _
  have := h.2
  omega

/-- Nothing is lost if and only if no call has taken the record of a free block for another block. -/
theorem heap_tiled_iff (hrun : HeapRun p IntSize lost s) : HeapTiled p s ↔ lost = [] := by
  have hinv := hrun.invariant fun _ _ h => h.countFits
  have htiles := hinv.tiles
  rw [List.append_nil, extents_append] at htiles
  have hpart := htiles.part_iff fun b hb => by
    obtain ⟨m, hm, rfl⟩ := List.mem_map.mp hb
    exact hinv.pos m (by simp [hm])
  have hnil : extents lost = [] ↔ lost = [] := List.map_eq_nil_iff
  refine ⟨fun h => hnil.mp (hpart.mp h.tiles), fun h => ⟨hpart.mpr (hnil.mpr h), ?_⟩⟩
  rintro size va t ⟨m, hm, hfit⟩ hcall
  by_cases hne : size = 0
  · subst hne
    cases hcall
    rfl
  · rcases userBetterMalloc_yields hne hinv.idle_lt hinv.top_lt va t hcall with
      ⟨before, reuse, after, -, -, -, hcases⟩ | ⟨-, hsmall, -⟩
    · rcases hcases with ⟨-, n, u, -, -, rfl⟩ | ⟨-, n, u, node, -, -, rfl⟩
      · rw [Vm.top_withHeap]
      · rw [Vm.top_withHeap]
    · exact absurd (hsmall m hm) (Nat.not_lt.mpr hfit)

def intSize (_ : Vm) (size : ℕ) : Bool := decide (1 ≤ size ∧ size ≤ 2 ^ 31 - 1)

theorem heap_tiled_reused : ∃ s, HeapRun 0 IntSize [] s ∧ (s.live 0).length = 2 ∧ HeapTiled 0 s := by
  have hrun : (firstHeap intSize [.malloc 100, .malloc 50, .free 0x400000, .malloc 60]).any (fun h =>
      h.1.isEmpty && decide ((h.2.live 0).length = 2)) = true := by decide +kernel
  obtain ⟨lost, s, hs, hobs⟩ := firstHeap_run (fun _ _ h => of_decide_eq_true h) hrun
  rw [Bool.and_eq_true, List.isEmpty_iff, decide_eq_true_eq] at hobs
  obtain ⟨rfl, hlen⟩ := hobs
  exact ⟨s, hs, hlen, (heap_tiled_iff hs).mpr rfl⟩

theorem freed_range_lost : ∃ lost s, HeapRun 0 IntSize lost s ∧ s.live 0 ≠ [] ∧ s.idle 0 = [] ∧ ¬ HeapTiled 0 s := by
  have hrun : (firstHeap intSize [.malloc 100, .free 0x400000, .malloc 200]).any (fun h =>
      (h.2.idle 0).isEmpty && decide (extents (h.2.live 0) = [(0x400064, 200)] ∧ h.2.bottom 0 = 0x400000 ∧
        h.2.top 0 = 0x40012c)) = true := by decide +kernel
  obtain ⟨lost, s, hs, hobs⟩ := firstHeap_run (fun _ _ h => of_decide_eq_true h) hrun
  rw [Bool.and_eq_true, List.isEmpty_iff, decide_eq_true_eq] at hobs
  obtain ⟨hidle, hlive, hbottom, htop⟩ := hobs
  refine ⟨lost, s, hs, fun h => ?_, hidle, fun h => ?_⟩
  · rw [h] at hlive
    cases hlive
  · have htiles := h.tiles 0x400000
    rw [extents_append, hlive, hidle, hbottom, htop] at htiles
    revert htiles
    decide

structure Unchanged (p : Pid) (s t : Vm) : Prop where
  live : ∀ b, b ∈ extents (t.live p) ↔ b ∈ extents (s.live p)
  idle : ∀ b, b ∈ extents (t.idle p) ↔ b ∈ extents (s.idle p)
  top : t.top p = s.top p
  mapped : ∀ v, (t.entry p v).v = (s.entry p v).v
  count : t.pmm.gFreeMemList.length = s.pmm.gFreeMemList.length

def FailsClean (s : Vm) (p : Pid) (size : ℕ) : Prop :=
  size = 0 ∨ if ∃ m ∈ s.idle p, size ≤ m.size then s.pmm.gFreeMemList = [] else TablesReady s p size

lemma Restored.unchanged_iff (h : Restored p size s t) (hpool : Pool s.pmm) : Unchanged p s t ↔ TablesReady s p size := by
  refine ⟨fun hu => (h.count hpool).mp hu.count, fun hready => ?_⟩
  exact ⟨fun b => by rw [h.live], fun b => by rw [h.idle], h.top, h.valid, (h.count hpool).mpr hready⟩

lemma unbacked_unchanged_iff {before after : List Malloc} {reuse : Malloc} {n : ℕ} {u : Vm}
    (hidle : s.idle p = before ++ reuse :: after) (hadds : Adds p n s u) (hu : u.pmm.gFreeMemList = []) :
    Unchanged p s (u.withHeap p (s.live p) (reuse :: (before ++ after)) (s.top p)) ↔ s.pmm.gFreeMemList = [] := by
  constructor
  · intro h
    have hcount := h.count
    rw [Vm.pmm_withHeap, hu] at hcount
    exact List.eq_nil_of_length_eq_zero hcount.symm
  · intro hnone
    refine ⟨fun b => by rw [Vm.live_withHeap], fun b => ?_, by rw [Vm.top_withHeap], fun v => ?_, ?_⟩
    · rw [Vm.idle_withHeap, hidle]
      exact (extents_perm List.perm_middle.symm).mem_iff
    · rw [Vm.entry_withHeap]
      rcases hadds.entry v with he | ⟨-, f, hf, -⟩
      · rw [he]
      · rw [hnone] at hf
        cases hf
    · rw [Vm.pmm_withHeap, hu, hnone]

/-- A call that fails changes nothing if and only if it had nothing to give back that it does not give back. -/
theorem failed_malloc_unchanged_iff (hrun : HeapRun p (fun s size => size < 2 ^ 64 ∧ CountFits s p size) lost s)
    (hpool : Pool s.pmm) (hcall : userBetterMalloc p size s = .done 0 t) : Unchanged p s t ↔ FailsClean s p size := by
  have hinv := hrun.invariant fun _ _ h => h.2
  by_cases hne : size = 0
  · subst hne
    cases hcall
    exact ⟨fun _ => .inl rfl, fun _ => ⟨fun _ => Iff.rfl, fun _ => Iff.rfl, rfl, fun _ => rfl, rfl⟩⟩
  rw [FailsClean, or_iff_right hne]
  rcases userBetterMalloc_yields hne hinv.idle_lt hinv.top_lt 0 t hcall with
    ⟨before, reuse, after, -, hidle, hfit, hcases⟩ | ⟨-, hsmall, hcases⟩
  · have hmem : reuse ∈ s.idle p := by simp [hidle]
    rw [if_pos ⟨reuse, hmem, hfit⟩]
    rcases hcases with ⟨-, n, u, hadds, hu, rfl⟩ | ⟨hva, -⟩
    · exact unbacked_unchanged_iff hidle hadds.toAdds hu
    · have := (hinv.within (m := reuse) (by simp [hmem])).1
      rw [hinv.bottom, ← hva] at this
      norm_num at this
  · rw [if_neg fun ⟨m, hm, hfit⟩ => absurd (hsmall m hm) (Nat.not_lt.mpr hfit)]
    rcases hcases with ⟨-, hrest⟩ | ⟨htop, -⟩
    · exact hrest.unchanged_iff hpool
    · have := hinv.top_ge
      rw [← htop] at this
      norm_num at this

theorem failed_malloc_unchanged_second : ∃ lost s t,
    HeapRun 0 (fun s size => size < 2 ^ 64 ∧ CountFits s 0 size) lost s ∧ s.pmm.gFreeMemList ≠ [] ∧
    userBetterMalloc 0 300000 s = .done 0 t ∧ Unchanged 0 s t := by
  have hrun : (firstHeap fitsPages [.malloc 100]).any (fun h =>
      decide (h.2.pmm.gFreeMemList ≠ [] ∧ (∀ f ∈ h.2.pmm.gFreeMemList, h.2.pmm.Managed f) ∧ h.2.pmm.gFreeMemList.Nodup) &&
      (freshPages h.2 0 (h.2.top 0) 300000).all (fun v => decide ((h.2.space 0).pagetable.missing v = 0)) &&
      (h.2.idle 0).isEmpty && (userBetterMalloc 0 300000 h.2).ends fun r _ => decide (r = 0)) = true := by decide +kernel
  obtain ⟨lost, s, hs, hobs⟩ := firstHeap_run countFits_of_fitsPages hrun
  simp only [Bool.and_eq_true, decide_eq_true_eq, List.isEmpty_iff, List.all_eq_true] at hobs
  obtain ⟨⟨⟨⟨hsome, hpool⟩, htables⟩, hidle⟩, hend⟩ := hobs
  obtain ⟨r, t, ht, hr⟩ := Outcome.ends_done hend
  rw [of_decide_eq_true hr] at ht
  refine ⟨lost, s, t, hs, hsome, ht, (failed_malloc_unchanged_iff hs ⟨hpool.1, hpool.2⟩ ht).mpr (.inr ?_)⟩
  rw [if_neg (by simp [hidle])]
  exact fun v hv => PageTable.missing_eq_zero.mp (htables v (List.mem_of_mem_take hv))

theorem failed_malloc_keeps_tables : ∃ s t, HeapRun 0 (fun s size => size < 2 ^ 64 ∧ CountFits s 0 size) [] s ∧
    Pool s.pmm ∧ userBetterMalloc 0 300000 s = .done 0 t ∧ ¬ Unchanged 0 s t := by
  have hrun : (firstHeap fitsPages []).any (fun h => h.1.isEmpty &&
      decide ((∀ f ∈ h.2.pmm.gFreeMemList, h.2.pmm.Managed f) ∧ h.2.pmm.gFreeMemList.Nodup) &&
      (userBetterMalloc 0 300000 h.2).ends fun r t => decide (r = 0 ∧
        t.pmm.gFreeMemList.length < h.2.pmm.gFreeMemList.length)) = true := by decide +kernel
  obtain ⟨lost, s, hs, hobs⟩ := firstHeap_run countFits_of_fitsPages hrun
  simp only [Bool.and_eq_true, decide_eq_true_eq, List.isEmpty_iff] at hobs
  obtain ⟨⟨rfl, hpool⟩, hend⟩ := hobs
  obtain ⟨r, t, ht, hr⟩ := Outcome.ends_done hend
  obtain ⟨rfl, hlt⟩ := of_decide_eq_true hr
  exact ⟨s, t, hs, ⟨hpool.1, hpool.2⟩, ht, fun h => absurd h.count hlt.ne⟩

/-- What a call of `user_better_free` that returns may have done: nothing, or the first block at the address has gone
over to the free blocks, and of its pages those went that no other block in use reaches into. -/
def Frees (p : Pid) (s : Vm) (va : ℕ) (t : Vm) : Prop :=
  (t = s ∧ ∀ m ∈ s.live p, m.va ≠ va) ∨
    ∃ before cur after, s.live p = before ++ cur :: after ∧ cur.va = va ∧ t.live p = before ++ after ∧
      t.idle p = cur :: s.idle p ∧ (∀ v, Spans cur.va cur.size v → (∀ m ∈ before ++ after, ¬ Spans m.va m.size v) → t.entry p v = {}) ∧
      ∀ v, (Spans cur.va cur.size v → ∃ m ∈ before ++ after, Spans m.va m.size v) → t.entry p v = s.entry p v

lemma touched_iff {blocks : List Malloc} (hend : ∀ m ∈ blocks, m.va + m.size ≤ maxva) {v : ℕ} (hv : v * 4096 < maxva) :
    touched blocks v = true ↔ ∃ m ∈ blocks, Spans m.va m.size v := by
  rw [touched, List.any_eq_true]
  refine exists_congr fun m => and_congr_right fun hm => ?_
  have hmax : v * 4096 < 2 ^ 38 := hv
  have hnext : v * 4096 + 4096 < 2 ^ 64 := by linarith
  have hpage : u64 (v * 4096 + 4096) = v * 4096 + 4096 := Nat.mod_eq_of_lt hnext
  have hstop : u64 (m.va + m.size) = m.va + m.size := Nat.mod_eq_of_lt (lt_of_le_of_lt (hend m hm) maxva_lt)
  rw [hpage, hstop, Bool.and_eq_true, decide_eq_true_iff, decide_eq_true_iff, Spans]
  omega

lemma HeapInv.frees {va : ℕ} {t : Vm} (h : HeapInv p [] lost s) (hrun : userBetterFree p va s = .done () t) : Frees p s va t := by
  have hend : ∀ m ∈ s.live p, m.va + m.size ≤ maxva := fun m hm => (h.within (m := m) (by simp [hm])).2.trans h.top
  rcases userBetterFree_yields hend () t hrun with hsame | ⟨before, cur, after, u, hlive, hva, -, hunlays, rfl⟩
  · exact .inl hsame
  · have hothers : ∀ m ∈ before ++ after, m.va + m.size ≤ maxva := fun m hm => hend m (by rw [hlive]; simp at hm ⊢; tauto)
    have hcur := hend cur (by simp [hlive])
    have htouched : ∀ v, Spans cur.va cur.size v → (touched (before ++ after) v = true ↔ ∃ m ∈ before ++ after, Spans m.va m.size v) :=
      fun v hv => touched_iff hothers (hv.2.trans_le hcur)
    refine .inr ⟨before, cur, after, hlive, hva, Vm.live_withHeap .., Vm.idle_withHeap .., fun v hv hno => ?_, fun v hv => ?_⟩
    · rw [Vm.entry_withHeap, hunlays.entry, if_pos]
      refine mem_releasedPages.mpr ⟨hv, ?_⟩
      rw [← Bool.not_eq_true, htouched v hv]
      rintro ⟨m, hm, hspan⟩
      exact hno m hm hspan
    · rw [Vm.entry_withHeap, hunlays.entry, if_neg]
      intro hin
      obtain ⟨hspan, hfree⟩ := mem_releasedPages.mp hin
      rw [(htouched v hspan).mpr (hv hspan)] at hfree
      cases hfree

/-- In every run of the two calls with sizes of an `int`, the blocks in use and the free blocks are apart, the ones in use
lie in the heap on valid pages, and a free that returns takes the pages of its block only. -/
theorem heap_blocks_apart (hrun : HeapRun p IntSize lost s) :
    (extents (s.live p ++ s.idle p)).Pairwise Apart ∧
      (∀ m ∈ s.live p, s.bottom p ≤ m.va ∧ m.va + m.size ≤ s.top p ∧ Backed s p m) ∧
      ∀ va t, userBetterFree p va s = .done () t → Frees p s va t := by
  have hinv := hrun.invariant fun _ _ h => h.countFits
  refine ⟨?_, fun m hm => ?_, fun va t ht => hinv.frees ht⟩
  · have htiles := hinv.tiles
    rw [List.append_nil] at htiles
    have hpairs := htiles.pairwise fun b hb => by
      obtain ⟨m, hm, rfl⟩ := List.mem_map.mp hb
      exact hinv.pos m hm
    rw [extents_append] at hpairs
    exact (List.pairwise_append.mp hpairs).1
  · obtain ⟨hlo, hhi⟩ := hinv.within (m := m) (by simp [hm])
    exact ⟨hlo, hhi, hinv.backed m hm⟩

theorem heap_blocks_apart_reused : ∃ lost s, HeapRun 0 IntSize lost s ∧ (s.live 0).length = 2 ∧ (s.idle 0).length = 1 ∧
    (extents (s.live 0 ++ s.idle 0)).Pairwise Apart := by
  have hrun : (firstHeap intSize [.malloc 100, .malloc 50, .free 0x400000, .malloc 60]).any (fun h =>
      decide ((h.2.live 0).length = 2 ∧ (h.2.idle 0).length = 1)) = true := by decide +kernel
  obtain ⟨lost, s, hs, hobs⟩ := firstHeap_run (fun _ _ h => of_decide_eq_true h) hrun
  obtain ⟨hlive, hidle⟩ := of_decide_eq_true hobs
  exact ⟨lost, s, hs, hlive, hidle, (heap_blocks_apart hs).1⟩

end Pke.Memory
