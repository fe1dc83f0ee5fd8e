import Pke.Memory.HeapEffects

namespace Pke.Memory

open Lib Flow Function Processes

variable {live : Finset Pid} {hand : ℕ → Option ℕ} {n : ℕ} {s t u : Vm} {p q : Pid} {va pa k v f size : ℕ}

def noHand : ℕ → Option ℕ := fun _ => none

lemma Owned.drop (o : Owned live hand n s) : Owned live noHand n s :=
  o.forget fun _ _ h => absurd h (by simp [noHand])

lemma lookupPa_eq (s : Vm) (p : Pid) (va : ℕ) : lookupPa s p va =
    if va < maxva ∧ (s.entry p (va / 4096)).v = true ∧
      ((s.entry p (va / 4096)).r = true ∨ (s.entry p (va / 4096)).w = true)
    then (s.entry p (va / 4096)).pa else 0 := by
  unfold lookupPa
  by_cases hlt : va < maxva
  swap
  · rw [if_pos (not_lt.mp hlt), if_neg (fun h => hlt h.1)]
  rw [if_neg (not_le.mpr hlt), PageTable.walk_eq]
  by_cases hhas : (s.space p).pagetable.Has (va / 4096)
  · have hpte : (s.space p).pagetable.pte (va / 4096) = s.entry p (va / 4096) :=
      (PageTable.entry_of_has hhas).symm
    rw [if_pos hhas]
    dsimp only
    rw [hpte]
    cases (s.entry p (va / 4096)).v <;> cases (s.entry p (va / 4096)).r <;>
      cases (s.entry p (va / 4096)).w <;> simp [hlt]
  · have hempty : s.entry p (va / 4096) = {} := by rw [Vm.entry, PageTable.entry_eq, if_neg hhas]
    rw [if_neg hhas, hempty]
    simp

lemma lookupPa_ne_zero (h : lookupPa s p va ≠ 0) : va < maxva ∧ (s.entry p (va / 4096)).v = true ∧
    lookupPa s p va = (s.entry p (va / 4096)).pa := by
  rw [lookupPa_eq] at h ⊢
  split_ifs at h ⊢ with hc
  · exact ⟨hc.1, hc.2.1, rfl⟩
  · exact absurd rfl h

lemma userVmMap_taken (o : Owned live hand n s) (hp : p ∈ live) (hn : 1 ≤ n) (hlt : va < maxva)
    (hv : (s.entry p (va / 4096)).v = true) (pa : ℕ) (perm : Pte) {Q : Unit → Vm → Prop} :
    wp (userVmMap p va 4096 pa perm) Q (Owned live hand n) s := by
  have hpages : ∃ l, pagesBelow (roundDown va) (roundDown (u64 (va + 4096 + (2 ^ 64 - 1))) + 1) = roundDown va :: l := by
    have hle : 1 ≤ (roundDown (u64 (va + 4096 + (2 ^ 64 - 1))) + 1 - roundDown va + 4095) / 4096 := by
      unfold roundDown u64
      unfold maxva at hlt
      omega
    obtain ⟨m, hm⟩ := Nat.exists_eq_add_of_le hle
    refine ⟨(List.range m).map (fun i => roundDown va + (i + 1) * 4096), ?_⟩
    rw [pagesBelow, hm, Nat.add_comm, List.range_succ_eq_map, List.map_cons, List.map_map]
    simp only [Nat.zero_mul, Nat.add_zero, Function.comp_def, Nat.succ_eq_add_one]
  obtain ⟨l, hl⟩ := hpages
  have hpage : roundDown va / 4096 = va / 4096 := by
    unfold roundDown
    omega
  unfold userVmMap mapPages
  dsimp only
  rw [hl, wp_bind, all, wp_bind, wp_bind]
  refine wp_mono (pageWalk_grown o hp hn (roundDown va)) ?_ (fun t ht => by subst ht; exact o)
  rintro r t ⟨ht, -, hr⟩
  cases r with
  | none => exact ht.owned
  | some v =>
    obtain ⟨rfl, hhas⟩ := hr v rfl
    dsimp only
    rw [wp_bind, wp_get, ← PageTable.entry_of_has hhas]
    have hval : (t.entry p (roundDown va / 4096)).v = true := by rw [ht.entry, hpage, hv]
    rw [if_pos (by exact hval)]
    exact ht.owned

lemma Owned.bumpHeapRegion (o : Owned live hand n s) (hp : p ∈ live) :
    Owned live hand n (s.setSpace p fun a =>
      { a with regions := update a.regions 3 { a.regions 3 with npages := (a.regions 3).npages + 1 } }) := by
  refine o.setFields hp _ rfl rfl rfl rfl fun i => ?_
  by_cases hi : i = 3
  · subst hi
    right
    have := (o.tidy p hp).imageRegion 3
    unfold Fits
    cases hseg : ((s.space p).regions 3).segType with
    | code => exact absurd rfl (this (.inl hseg)).1
    | data => exact absurd rfl (this (.inr hseg)).1
    | _ => simp [hseg]
  · exact .inl (by simp [hi])

lemma sysUserAllocatePage_owned (o : Owned live noHand n s) (hp : p ∈ live) (hn : 1 ≤ n)
    (hrec : ∀ i < (s.space p).userHeap.freePagesCount, (s.space p).userHeap.freePagesAddress i % 4096 = 0)
    (htop : (s.space p).userHeap.freePagesCount = 0 →
      (s.space p).userHeap.heapTop % 4096 = 0 ∨ lookupPa s p (s.space p).userHeap.heapTop ≠ 0) :
    wp (sysUserAllocatePage p) (fun _ => Owned live noHand n) (Owned live noHand n) s := by
  -- the rest of the call, for a page or the null pointer
  have key : ∀ pa t, Owned live (hold noHand 0 pa) n t → t.space = s.space →
      wp (do
        let h := ((← Flow.get).space p).userHeap
        let va ← if 0 < h.freePagesCount then do
            let va := h.freePagesAddress (h.freePagesCount - 1)
            Flow.modify fun s => s.setHeap p fun h => { h with freePagesCount := h.freePagesCount - 1 }
            if va < h.heapTop then pure va else halt
          else do
            Flow.modify fun s => s.setHeap p fun h => { h with heapTop := h.heapTop + 4096 }
            bumpHeapRegion p
            pure h.heapTop
        userVmMap p va 4096 pa userRw
        pure va) (fun _ => Owned live noHand n) (Owned live noHand n) t := by
    intro pa t ot hspace
    simp only [wp_bind, wp_get, hspace]
    split_ifs with hcount hbelow
    · simp only [wp_bind, wp_modify, wp_pure]
      refine wp_mono (userVmMap_rw (ot.setHeap hp _) rfl hp hn ?_) (fun _ t ht => ht.1) (fun _ h => h)
      exact hrec _ (by omega)
    · simp only [wp_bind, wp_modify, wp_halt]
    · simp only [wp_bind, wp_modify, Memory.bumpHeapRegion, wp_pure]
      have ot' := (ot.setHeap hp fun h => { h with heapTop := h.heapTop + 4096 }).bumpHeapRegion hp
      rcases htop (by omega) with haligned | hmapped
      · exact wp_mono (userVmMap_rw ot' rfl hp hn haligned) (fun _ t ht => ht.1) (fun _ h => h)
      · obtain ⟨hlt, hv, -⟩ := lookupPa_ne_zero hmapped
        refine wp_mono (userVmMap_taken (Q := fun _ _ => False) ot' hp hn hlt ?_ pa userRw)
          (fun _ _ h => h.elim) (fun t ht => ht.unhold rfl)
        rw [← hv]
        simp [Vm.entry, Vm.setHeap, hspace]
  unfold sysUserAllocatePage
  rw [wp_bind, wp_allocPage o.managed]
  exact ⟨fun _ => key 0 s o rfl, fun f rest hl => key f _ (o.pop_hold hn hl 0) rfl⟩

lemma sysUserFreePage_owned (o : Owned live noHand n s) (hp : p ∈ live)
    (hr : va < maxva → Releasable live s p (va / 4096))
    (hcount : (s.space p).userHeap.freePagesCount < maxHeapPages) :
    wp (sysUserFreePage p va) (fun _ => Owned live noHand n) (Owned live noHand n) s := by
  unfold sysUserFreePage
  rw [wp_bind]
  refine wp_mono (userVmUnmap_owned o hp hr (fun _ _ _ => by simp [noHand])) ?_ (fun t ht => by subst ht; exact o)
  rintro _ t ⟨ht, hshrink, -⟩
  have hheap : (t.space p).userHeap = (s.space p).userHeap := by rw [hshrink.same.fields p]
  rw [wp_bind, wp_get, hheap, if_pos hcount, wp_bind, wp_modify]
  exact ht.setHeap hp _

lemma wp_setFreeList {Q : Unit → Vm → Prop} {E : Vm → Prop} {g : List Malloc → List Malloc}
    (o : Owned live hand n s) (hp : p ∈ live) (h : ∀ t, Owned live hand n t → Q () t) :
    wp (setFreeList p g) Q E s :=
  h _ (o.setFields hp _ rfl rfl rfl rfl fun _ => .inl rfl)

lemma wp_setMallocList {Q : Unit → Vm → Prop} {E : Vm → Prop} {g : List Malloc → List Malloc}
    (o : Owned live hand n s) (hp : p ∈ live) (h : ∀ t, Owned live hand n t → Q () t) :
    wp (setMallocList p g) Q E s :=
  h _ (o.setFields hp _ rfl rfl rfl rfl fun _ => .inl rfl)

lemma aligned_of_mem_pagesBelow {a b c : ℕ} (h : c ∈ pagesBelow (roundDown a) b) : c % 4096 = 0 := by
  obtain ⟨i, -, rfl⟩ := List.mem_map.mp h
  unfold roundDown
  omega

lemma ensureMapped_owned (o : Owned live noHand n s) (hp : p ∈ live) (hn : 1 ≤ n) :
    wp (ensureMapped p va size) (fun _ => Owned live noHand n) (Owned live noHand n) s := by
  unfold ensureMapped
  refine wp_all (fun l t => Owned live noHand n t ∧ ∀ a ∈ l, a % 4096 = 0)
    ⟨o, fun a ha => aligned_of_mem_pagesBelow ha⟩ ?_ (fun t ht => ht.1)
  rintro a r t ⟨ht, hal⟩
  rw [wp_bind, wp_get, wp_ite]
  refine ⟨fun _ => ?_, fun _ => ⟨ht, fun b hb => hal b (by simp [hb])⟩⟩
  refine wp_mono (mapFresh_owned (k := 0) ht rfl hp hn (hal a (by simp))) ?_ (fun _ h => h)
  rintro b u ⟨hu, -⟩
  cases b with
  | false => exact hu.owned
  | true => exact ⟨hu.owned, fun b hb => hal b (by simp [hb])⟩

lemma keepRemainder_owned (o : Owned live noHand n s) (hp : p ∈ live) (hn : 1 ≤ n) :
    wp (keepRemainder p va size) (fun _ => Owned live noHand n) (Owned live noHand n) s := by
  unfold keepRemainder
  rw [wp_bind, wp_get]
  split
  · rw [wp_bind]
    exact wp_setFreeList o hp fun t ht => ht
  · rw [wp_bind, wp_allocPage o.managed]
    refine ⟨fun _ => o, fun f rest hl => ?_⟩
    dsimp only
    rw [wp_bind]
    exact wp_setFreeList ((o.pop_hold hn hl 0).unhold rfl) hp fun t ht => ht

lemma reuseBlock_owned (o : Owned live noHand n s) (hp : p ∈ live) (hn : 1 ≤ n) (before after : List Malloc)
    (reuse : Malloc) :
    wp (reuseBlock p before reuse after size) (fun _ => Owned live noHand n) (Owned live noHand n) s := by
  unfold reuseBlock
  rw [wp_bind]
  refine wp_setFreeList o hp fun s' hs' => ?_
  rw [wp_bind]
  refine wp_mono (ensureMapped_owned hs' hp hn) ?_ (fun _ h => h)
  intro b t ht
  rw [wp_ite]
  refine ⟨fun _ => ?_, fun _ => ?_⟩
  · rw [wp_bind]
    have hrem : wp (if size < reuse.size then keepRemainder p (u64 (reuse.va + size)) (reuse.size - size)
        else pure true) (fun _ => Owned live noHand n) (Owned live noHand n) t := by
      rw [wp_ite]
      exact ⟨fun _ => keepRemainder_owned ht hp hn, fun _ => ht⟩
    refine wp_mono hrem ?_ (fun _ h => h)
    intro b u hu
    rw [wp_ite]
    refine ⟨fun _ => ?_, fun _ => ?_⟩
    · rw [wp_bind]
      exact wp_setMallocList hu hp fun _ h => h
    · rw [wp_bind]
      exact wp_setFreeList hu hp fun _ h => h
  · rw [wp_bind]
    exact wp_setFreeList ht hp fun _ h => h

def nodeHand (node : Malloc) (fromFreeList : Bool) : ℕ → Option ℕ :=
  if fromFreeList then noHand else update noHand 0 (some node.node)

lemma takeNode_owned (o : Owned live noHand n s) (hp : p ∈ live) (hn : 1 ≤ n) {E : Vm → Prop} :
    wp (takeNode p) (fun r t => match r with
      | none => Owned live noHand n t
      | some (node, fromFreeList) => Owned live (nodeHand node fromFreeList) n t ∧
          (fromFreeList = false → node.node ∉ borrowed live t)) E s := by
  unfold takeNode
  rw [wp_bind, wp_get]
  split
  · rw [wp_bind]
    exact wp_setFreeList o hp fun _ ht => ⟨ht, by simp⟩
  · rw [wp_bind, wp_allocPage o.managed]
    refine ⟨fun _ => o, fun f rest hl => ?_⟩
    exact ⟨o.take_hand hn hl 0, fun _ => o.fresh_not_borrowed hl⟩

lemma returnNode_owned {node : Malloc} {fromFreeList : Bool} {E : Vm → Prop} (hp : p ∈ live)
    (o : Owned live (nodeHand node fromFreeList) n s) (hb : fromFreeList = false → node.node ∉ borrowed live s) :
    wp (returnNode p node fromFreeList) (fun _ => Owned live noHand n) E s := by
  unfold returnNode
  cases fromFreeList with
  | true =>
    rw [if_pos rfl]
    exact wp_setFreeList o hp fun _ ht => ht
  | false =>
    rw [if_neg (by simp)]
    apply wp_freePage
    intro _
    have ho : Owned live (update noHand 0 (some node.node)) n s := o
    exact (ho.release_hand (t := s.release node.node) (update_self 0 _ _) rfl rfl rfl (hb rfl)).drop

lemma mapNewPages_owned {pageStart m : ℕ} {firstMapped : Bool} (o : Owned live hand n s) (hk : hand k = none)
    (hp : p ∈ live) (hn : 1 ≤ n) (hal : pageStart % 4096 = 0)
    (hfirst : firstMapped = true → pageStart < maxva → Private live s p (pageStart / 4096)) :
    wp (mapNewPages p pageStart firstMapped m) (fun _ t => Reworked live hand n p s t) (Owned live hand n) s := by
  have halign : ∀ i, u64 (pageStart + 4096 + i * 4096) % 4096 = 0 := by
    intro i
    unfold u64
    omega
  unfold mapNewPages
  -- what this call has mapped so far is private
  refine wp_all (fun l t => ∃ i, l = List.range' i (m - i) ∧ Reworked live hand n p s t ∧
    ∀ j < i, u64 (pageStart + 4096 + j * 4096) < maxva → Private live t p (u64 (pageStart + 4096 + j * 4096) / 4096))
    ⟨0, by rw [List.range_eq_range', Nat.sub_zero], .refl o, by simp⟩ ?_ ?_
  · rintro i r t ⟨j, hl, ht, hmapped⟩
    obtain ⟨hij, hr⟩ : i = j ∧ r = List.range' (j + 1) (m - (j + 1)) := by
      have hpos : m - j = m - (j + 1) + 1 := by
        by_contra hne
        have : m - j = 0 := by omega
        rw [this] at hl
        exact absurd hl (by simp)
      rw [hpos, List.range'_succ] at hl
      exact List.cons.inj hl
    subst hij
    rw [wp_bind]
    refine wp_mono (mapFresh_owned (k := k) ht.owned hk hp hn (halign i)) ?_ (fun _ h => h)
    rintro b u ⟨hu, hnew⟩
    have hsu := ht.trans hu
    cases b with
    | true =>
      refine ⟨i + 1, hr, hsu, fun j hj hlt => ?_⟩
      rcases Nat.lt_succ_iff_lt_or_eq.mp hj with hj | rfl
      · exact hu.keeps _ (hmapped j hj hlt)
      · exact hnew rfl hlt
    | false =>
      rw [if_neg (by simp)]
      dsimp only
      have hrest : ∀ u', Reworked live hand n p u u' →
          wp (each (fun j => userVmUnmap p (u64 (pageStart + 4096 + j * 4096)) 4096 true) (List.range i) >>=
            fun _ => pure false) (fun b u => if b = true then ∃ i, r = List.range' i (m - i) ∧
              Reworked live hand n p s u ∧ ∀ j < i, u64 (pageStart + 4096 + j * 4096) < maxva →
                Private live u p (u64 (pageStart + 4096 + j * 4096) / 4096)
              else Reworked live hand n p s u) (Owned live hand n) u' := by
        intro u' hu'
        rw [wp_bind]
        refine wp_each (fun l w => Reworked live hand n p s w ∧ ∀ j ∈ l,
          u64 (pageStart + 4096 + j * 4096) < maxva →
            Private live w p (u64 (pageStart + 4096 + j * 4096) / 4096))
          ⟨hsu.trans hu', fun j hj hlt => ?_⟩ ?_ (fun w hw => hw.1)
        · exact hu'.keeps _ (hu.keeps _ (hmapped j (List.mem_range.mp hj) hlt))
        · rintro j l w ⟨hw, hpriv⟩
          refine wp_mono (unmapPrivate_owned hw.owned hp (hpriv j (by simp))) ?_ (fun x hx => by subst hx; exact hw.owned)
          intro _ x hx
          exact ⟨hw.trans hx, fun j' hj' hlt => hx.keeps _ (hpriv j' (by simp [hj']) hlt)⟩
      rw [wp_ite]
      refine ⟨fun hf => ?_, fun _ => hrest u (.refl hu.owned)⟩
      rw [wp_bind]
      refine wp_mono (unmapPrivate_owned hu.owned hp fun hlt => hsu.keeps _ (hfirst hf hlt)) (fun _ u' hu' => hrest u' hu')
        (fun x hx => by subst hx; exact hu.owned)
  · rintro t ⟨i, -, ht, -⟩
    exact ht

lemma freshBlock_owned (o : Owned live noHand n s) (hp : p ∈ live) (hn : 1 ≤ n) :
    wp (freshBlock p size) (fun _ => Owned live noHand n) (Owned live noHand n) s := by
  unfold freshBlock
  rw [wp_bind, wp_get, wp_bind]
  generalize (s.space p).userHeap.heapTop = va
  have hal : roundDown va % 4096 = 0 := by
    unfold roundDown
    omega
  refine wp_mono (takeNode_owned o hp hn) ?_ (fun _ h => h)
  rintro (_ | ⟨node, fromFreeList⟩) t ht
  · exact ht
  obtain ⟨ht, hb⟩ := ht
  have hk : nodeHand node fromFreeList 1 = none := by cases fromFreeList <;> rfl
  have hback : ∀ u, Owned live (nodeHand node fromFreeList) n u → borrowed live u ⊆ borrowed live t →
      wp (returnNode p node fromFreeList >>= fun _ => pure 0) (fun _ : ℕ => Owned live noHand n)
        (Owned live noHand n) u := by
    intro u hu hsub
    rw [wp_bind]
    exact wp_mono (returnNode_owned hp hu fun hf hmem => hb hf (hsub hmem)) (fun _ _ h => h) (fun _ h => h)
  dsimp only
  rw [wp_bind, wp_get, wp_bind]
  have hfirst : wp (if lookupPa t p (roundDown va) ≠ 0 then pure true else mapFresh p (roundDown va))
      (fun b u => Reworked live (nodeHand node fromFreeList) n p t u ∧
        (lookupPa t p (roundDown va) = 0 → b = true → roundDown va < maxva → Private live u p (roundDown va / 4096)))
      (Owned live noHand n) t := by
    rw [wp_ite]
    refine ⟨fun h => ⟨.refl ht, fun h' => absurd h' h⟩, fun _ => ?_⟩
    exact wp_mono (mapFresh_owned ht hk hp hn hal) (fun b u hu => ⟨hu.1, fun _ => hu.2⟩) (fun _ h => h.drop)
  refine wp_mono hfirst ?_ (fun _ h => h)
  rintro b u ⟨hu, hpriv⟩
  rw [wp_ite]
  refine ⟨fun hbt => ?_, fun _ => hback u hu.owned hu.borrowed⟩
  rw [wp_bind]
  have hrest : wp (if size ≤ roundDown va + 4096 - va then pure true
      else mapNewPages p (roundDown va) (!decide (lookupPa t p (roundDown va) ≠ 0))
        (u64 (size - (roundDown va + 4096 - va) + 4095) / 4096))
      (fun _ w => Reworked live (nodeHand node fromFreeList) n p u w) (Owned live noHand n) u := by
    rw [wp_ite]
    refine ⟨fun _ => .refl hu.owned, fun _ => ?_⟩
    refine wp_mono (mapNewPages_owned hu.owned hk hp hn hal fun hf => ?_) (fun _ _ h => h) (fun _ h => h.drop)
    exact hpriv (by simpa using hf) hbt
  refine wp_mono hrest ?_ (fun _ h => h)
  intro b w hw
  rw [wp_ite]
  refine ⟨fun _ => ?_, fun _ => hback w hw.owned (hw.borrowed.trans hu.borrowed)⟩
  rw [wp_bind, setHeapTop, wp_modify, wp_bind]
  exact wp_setMallocList (hw.owned.setHeap hp _) hp fun _ h => h.drop

lemma userBetterMalloc_owned (o : Owned live noHand n s) (hp : p ∈ live) (hn : 1 ≤ n) (size : ℕ) :
    wp (userBetterMalloc p size) (fun _ => Owned live noHand n) (Owned live noHand n) s := by
  unfold userBetterMalloc
  rw [wp_ite]
  refine ⟨fun _ => o, fun _ => ?_⟩
  rw [wp_bind, wp_get]
  dsimp only
  split
  · exact reuseBlock_owned o hp hn _ _ _
  · exact freshBlock_owned o hp hn

def freedPages (s : Vm) (p : Pid) (va : ℕ) : List ℕ :=
  match (s.space p).mallocList.span (fun m => m.va ≠ va) with
  | (_, []) => []
  | (before, cur :: after) =>
    (pagesBelow (roundDown va) (u64 (va + cur.size))).filter fun a =>
      !pageHasOtherAllocation (s.setSpace p fun a => { a with mallocList := before ++ after }) p a

lemma userBetterFree_owned (o : Owned live noHand n s) (hp : p ∈ live)
    (hr : ∀ a ∈ freedPages s p va, a < maxva → Releasable live s p (a / 4096)) :
    wp (userBetterFree p va) (fun _ => Owned live noHand n) (Owned live noHand n) s := by
  unfold userBetterFree
  rw [wp_bind, wp_get]
  unfold freedPages at hr
  dsimp only at hr ⊢
  split
  next => exact o
  next before cur after heq =>
    rw [heq] at hr
    dsimp only at hr
    simp only [wp_bind, setMallocList, setFreeList, wp_modify]
    set s₁ : Vm := s.setSpace p fun a => { a with mallocList := before ++ after } with hs₁
    set s₂ : Vm := s₁.setSpace p fun a => { a with mallocFreeList := cur :: a.mallocFreeList } with hs₂
    have o₁ : Owned live noHand n s₁ := o.setFields hp _ rfl rfl rfl rfl fun _ => .inl rfl
    have o₂ : Owned live noHand n s₂ := o₁.setFields hp _ rfl rfl rfl rfl fun _ => .inl rfl
    have hmalloc : (s₂.space p).mallocList = (s₁.space p).mallocList := by simp [hs₂]
    have hentry : ∀ q w, s₂.entry q w = s.entry q w := by
      intro q w
      by_cases hq : q = p
      · subst hq
        simp [Vm.entry, hs₂, hs₁]
      · simp [Vm.entry, hs₂, hs₁, hq]
    have hframe : ∀ q w, (s₂.space q).frameAt w = (s.space q).frameAt w := by
      intro q w
      by_cases hq : q = p
      · subst hq
        cases w <;> simp [Space.frameAt, hs₂, hs₁]
      · simp [hs₂, hs₁, hq]
    have hrel : ∀ v, Releasable live s p v → Releasable live s₂ p v := by
      intro v h
      have hpmm : s₂.pmm = s.pmm := rfl
      simpa only [Releasable, hentry, hframe, hpmm] using h
    refine wp_each (fun l t => Owned live noHand n t ∧ s₂.SameFields t ∧
      ∀ a ∈ l, pageHasOtherAllocation s₁ p a = false → a < maxva → Releasable live t p (a / 4096))
      ⟨o₂, .refl s₂, fun a ha hfree hlt => hrel _ (hr a (List.mem_filter.mpr ⟨ha, by rw [hfree]; rfl⟩) hlt)⟩ ?_ (fun t ht => ht.1)
    rintro a l t ⟨ht, hsame, hl⟩
    have hother : pageHasOtherAllocation t p a = pageHasOtherAllocation s₁ p a := by
      unfold pageHasOtherAllocation
      rw [hsame.fields p]
      simp only [hmalloc]
    rw [wp_bind, wp_get, hother, wp_ite]
    refine ⟨fun _ => ⟨ht, hsame, fun b hb => hl b (by simp [hb])⟩, fun hfree => ?_⟩
    refine wp_mono (userVmUnmap_owned ht hp (hl a (by simp) (by simpa using hfree)) (fun _ _ _ => by simp [noHand])) ?_
      (fun u hu => by subst hu; exact ht)
    rintro _ u ⟨hu, hshrink, -⟩
    exact ⟨hu, hsame.trans hshrink.same, fun b hb hf hlt => (hl b (by simp [hb]) hf hlt).mono hshrink⟩

end Pke.Memory
