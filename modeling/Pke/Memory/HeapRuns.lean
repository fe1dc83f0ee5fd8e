import Pke.Lib.Tilings
import Pke.Memory.HeapSteps
import Pke.Memory.UseAfterFree

namespace Pke.Memory

open Lib Flow Function Processes

variable {s t u : Vm} {p : Pid} {va v size r n : ℕ} {lost : List Malloc} {pages : List (ℕ × ℕ)} {ok : Vm → ℕ → Prop}

def extents (l : List Malloc) : List (ℕ × ℕ) := l.map fun m => (m.va, m.size)

@[simp] lemma extents_append (l l' : List Malloc) : extents (l ++ l') = extents l ++ extents l' := List.map_append
lemma extents_perm {l l' : List Malloc} (h : l.Perm l') : (extents l).Perm (extents l') := h.map _

structure HeapStart (p : Pid) (s : Vm) : Prop where
  live : s.live p = []
  idle : s.idle p = []
  top : s.top p = userFreeAddressStart
  bottom : s.bottom p = userFreeAddressStart

structure HeapKept (p : Pid) (s t : Vm) : Prop where
  live : t.live p = s.live p
  idle : t.idle p = s.idle p
  top : t.top p = s.top p
  bottom : t.bottom p = s.bottom p
  valid : ∀ v, (s.entry p v).v = true → (t.entry p v).v = true

def forgets (s : Vm) (p : Pid) (size : ℕ) : List Malloc :=
  match (s.idle p).span (fun m => decide (m.size < size)) with
  | (before, reuse :: after) => if size < reuse.size then (before ++ after).take 1 else []
  | (_, []) => (s.idle p).take 1

inductive HeapRun (p : Pid) (ok : Vm → ℕ → Prop) : List Malloc → Vm → Prop
  | start {s : Vm} : HeapStart p s → HeapRun p ok [] s
  | others {s t : Vm} {lost : List Malloc} : HeapRun p ok lost s → HeapKept p s t → HeapRun p ok lost t
  | malloc {s t : Vm} {lost : List Malloc} {size r : ℕ} : HeapRun p ok lost s → ok s size →
      userBetterMalloc p size s = .done r t → HeapRun p ok (if r = 0 then lost else forgets s p size ++ lost) t
  | free {s t : Vm} {lost : List Malloc} {va : ℕ} : HeapRun p ok lost s → userBetterFree p va s = .done () t →
      HeapRun p ok lost t

def CountFits (s : Vm) (p : Pid) (size : ℕ) : Prop :=
  (∀ m ∈ s.idle p, m.size < size) → size + 4095 < 2 ^ 64 + (roundDown (s.top p) + 4096 - s.top p)

def Backed (s : Vm) (p : Pid) (m : Malloc) : Prop :=
  ∀ v, Spans m.va m.size v → (s.entry p v).v = true

structure HeapInv (p : Pid) (pages : List (ℕ × ℕ)) (lost : List Malloc) (s : Vm) : Prop where
  bottom : s.bottom p = userFreeAddressStart
  le : s.bottom p ≤ s.top p
  top : s.top p ≤ maxva
  pos : ∀ m ∈ s.live p ++ s.idle p ++ lost, 0 < m.size
  tiles : Tiles (extents (s.live p ++ s.idle p ++ lost) ++ pages) (s.bottom p) (s.top p)
  backed : ∀ m ∈ s.live p, Backed s p m

namespace HeapInv

lemma start (h : HeapStart p s) : HeapInv p [] [] s where
  bottom := h.bottom
  le := by rw [h.bottom, h.top]
  top := by rw [h.top]; norm_num
  pos := by rw [h.live, h.idle]; simp
  tiles := by
    rw [h.live, h.idle, h.bottom, h.top]
    exact .nil _
  backed := by rw [h.live]; simp

lemma within (h : HeapInv p pages lost s) {m : Malloc} (hm : m ∈ s.live p ++ s.idle p ++ lost) :
    s.bottom p ≤ m.va ∧ m.va + m.size ≤ s.top p := by
  have hin : (m.va, m.size) ∈ extents (s.live p ++ s.idle p ++ lost) ++ pages :=
    List.mem_append_left _ (List.mem_map.mpr ⟨m, hm, rfl⟩)
  exact ⟨h.tiles.lower hin (h.pos m hm), h.tiles.upper hin (h.pos m hm)⟩

lemma idle_lt (h : HeapInv p pages lost s) : ∀ m ∈ s.idle p, m.va + m.size < 2 ^ 64 := by
  intro m hm
  have := h.within (m := m) (by simp [hm])
  exact lt_of_le_of_lt (this.2.trans h.top) maxva_lt

lemma top_lt (h : HeapInv p pages lost s) : s.top p < 2 ^ 64 := lt_of_le_of_lt h.top maxva_lt

lemma kept (h : HeapInv p pages lost s) (hk : HeapKept p s t) : HeapInv p pages lost t where
  bottom := by rw [hk.bottom, h.bottom]
  le := by rw [hk.bottom, hk.top]; exact h.le
  top := by rw [hk.top]; exact h.top
  pos := by rw [hk.live, hk.idle]; exact h.pos
  tiles := by rw [hk.live, hk.idle, hk.bottom, hk.top]; exact h.tiles
  backed := fun m hm v hv => hk.valid v (h.backed m (by rwa [← hk.live]) v hv)

lemma rebuilt {live idle lost' : List Malloc} {top : ℕ} (h : HeapInv p pages lost s) (hbottom : t.bottom p = s.bottom p)
    (hle : s.top p ≤ top) (htop : top ≤ maxva) (hpos : ∀ m ∈ live ++ idle ++ lost', 0 < m.size)
    (htiles : Tiles (extents (live ++ idle ++ lost') ++ pages) (s.bottom p) top) (hbacked : ∀ m ∈ live, Backed t p m) :
    HeapInv p pages lost' (t.withHeap p live idle top) where
  bottom := by rw [Vm.bottom_withHeap, hbottom, h.bottom]
  le := by rw [Vm.bottom_withHeap, Vm.top_withHeap, hbottom]; exact h.le.trans hle
  top := by rwa [Vm.top_withHeap]
  pos := by rwa [Vm.live_withHeap, Vm.idle_withHeap]
  tiles := by rwa [Vm.live_withHeap, Vm.idle_withHeap, Vm.bottom_withHeap, Vm.top_withHeap, hbottom]
  backed := by
    rw [Vm.live_withHeap]
    intro m hm v hv
    rw [Vm.entry_withHeap]
    exact hbacked m hm v hv

lemma moved {live idle lost' : List Malloc} (h : HeapInv p pages lost s) (hbottom : t.bottom p = s.bottom p)
    (hperm : (live ++ idle ++ lost').Perm (s.live p ++ s.idle p ++ lost)) (hbacked : ∀ m ∈ live, Backed t p m) :
    HeapInv p pages lost' (t.withHeap p live idle (s.top p)) := by
  refine h.rebuilt hbottom le_rfl h.top ?_ ?_ hbacked
  · exact fun m hm => h.pos m (hperm.mem_iff.mp hm)
  · exact h.tiles.perm ((extents_perm hperm).append_right pages)

end HeapInv

lemma Backed.adds {m : Malloc} (h : Backed s p m) (ht : Adds p n s t) : Backed t p m :=
  fun v hv => ht.valid (h v hv)

section Steps

lemma perm_tail_take {α : Type} (l : List α) : (l.tail ++ l.take 1).Perm l := by
  cases l with
  | nil => exact .refl _
  | cons x l => exact List.perm_append_singleton x l

variable {before after : List Malloc} {reuse : Malloc} {node : ℕ}

lemma forgets_reuse (h : (s.idle p).span (fun m => decide (m.size < size)) = (before, reuse :: after)) :
    forgets s p size = if size < reuse.size then (before ++ after).take 1 else [] := by
  rw [forgets, h]

lemma forgets_fresh (h : (s.idle p).span (fun m => decide (m.size < size)) = (s.idle p, [])) :
    forgets s p size = (s.idle p).take 1 := by
  rw [forgets, h]

lemma HeapInv.reused (h : HeapInv p pages lost s) (hsize : size ≠ 0) (hidle : s.idle p = before ++ reuse :: after)
    (hfit : size ≤ reuse.size) (hadds : Adds p n s u)
    (hmapped : ∀ v, Spans reuse.va size v → (u.entry p v).v = true) :
    HeapInv p pages ((if size < reuse.size then (before ++ after).take 1 else []) ++ lost)
      (u.withHeap p (⟨reuse.node, reuse.va, size⟩ :: s.live p) (remainders reuse size node (before ++ after))
        (s.top p)) := by
  have hmem : reuse ∈ s.live p ++ s.idle p ++ lost := by simp [hidle]
  have hin := h.within hmem
  have hbacked : ∀ m ∈ (⟨reuse.node, reuse.va, size⟩ : Malloc) :: s.live p, Backed u p m := by
    intro m hm
    rcases List.mem_cons.mp hm with rfl | hm
    · exact hmapped
    · exact (h.backed m hm).adds hadds
  have hu64 : u64 (reuse.va + size) = reuse.va + size :=
    Nat.mod_eq_of_lt (lt_of_le_of_lt (by omega) h.top_lt)
  have hout : (s.live p ++ s.idle p ++ lost).Perm (reuse :: (s.live p ++ (before ++ after) ++ lost)) := by
    have hmid : (s.live p ++ before ++ reuse :: (after ++ lost)).Perm (reuse :: (s.live p ++ before ++ (after ++ lost))) :=
      List.perm_middle
    simpa [hidle] using hmid
  have hrest : ∀ m ∈ s.live p ++ (before ++ after) ++ lost, 0 < m.size :=
    fun m hm => h.pos m (hout.mem_iff.mpr (List.mem_cons_of_mem _ hm))
  have htiles : Tiles ((reuse.va, reuse.size) :: (extents (s.live p ++ (before ++ after) ++ lost) ++ pages))
      (s.bottom p) (s.top p) := h.tiles.perm ((extents_perm hout.symm).append_right pages)
  rcases Nat.eq_or_lt_of_le hfit with heq | hlt
  · rw [remainders, if_neg (by omega), if_neg (by omega), List.nil_append]
    refine h.rebuilt (hadds.same.bottom p) le_rfl h.top (fun m hm => ?_) (by rwa [← heq] at htiles) hbacked
    rcases List.mem_cons.mp hm with rfl | hm
    · exact Nat.pos_of_ne_zero hsize
    · exact hrest m hm
  · rw [remainders, if_pos hlt, if_pos hlt, hu64]
    generalize hX : (⟨reuse.node, reuse.va, size⟩ : Malloc) = X at hbacked ⊢
    generalize hY : (⟨node, reuse.va + size, reuse.size - size⟩ : Malloc) = Y
    generalize before ++ after = others at hrest htiles
    have hnew : (X :: s.live p ++ Y :: others.tail ++ (others.take 1 ++ lost)).Perm
        (X :: Y :: (s.live p ++ others ++ lost)) := by
      have hmid : (s.live p ++ Y :: (others.tail ++ (others.take 1 ++ lost))).Perm
          (Y :: (s.live p ++ (others.tail ++ (others.take 1 ++ lost)))) := List.perm_middle
      have hjoin := ((perm_tail_take others).append_right lost).append_left (s.live p)
      rw [List.append_assoc] at hjoin
      simpa using (hmid.trans (hjoin.cons Y)).cons X
    refine h.rebuilt (hadds.same.bottom p) le_rfl h.top (fun m hm => ?_) ?_ hbacked
    · rcases List.mem_cons.mp (hnew.mem_iff.mp hm) with rfl | hm
      · rw [← hX]
        exact Nat.pos_of_ne_zero hsize
      · rcases List.mem_cons.mp hm with rfl | hm
        · rw [← hY]
          exact Nat.sub_pos_of_lt hlt
        · exact hrest m hm
    · have hsum : reuse.size = size + (reuse.size - size) := by omega
      rw [hsum] at htiles
      refine Tiles.perm ?_ ((extents_perm hnew).append_right pages)
      rw [← hX, ← hY]
      exact htiles.split

lemma le_newPages (h : size + 4095 < 2 ^ 64 + (roundDown va + 4096 - va)) :
    va + size ≤ (va / 4096 + newPages va size + 1) * 4096 := by
  rw [newPages]
  have hround : roundDown va = va / 4096 * 4096 := rfl
  split_ifs with hle
  · omega
  · have hu64 : u64 (size - (roundDown va + 4096 - va) + 4095) = size - (roundDown va + 4096 - va) + 4095 :=
      Nat.mod_eq_of_lt (by omega)
    rw [hu64]
    omega

lemma HeapInv.placed (h : HeapInv p pages lost s) (node : ℕ) (hsize : size ≠ 0) (hadds : Adds p n s u)
    (hplaced : Placed p (s.top p) size u) (hfits : size + 4095 < 2 ^ 64 + (roundDown (s.top p) + 4096 - s.top p)) :
    s.top p + size ≤ maxva ∧ Backed u p ⟨node, s.top p, size⟩ ∧
    HeapInv p pages ((s.idle p).take 1 ++ lost) (u.withHeap p (⟨node, s.top p, size⟩ :: s.live p) (s.idle p).tail
      (u64 (s.top p + size))) := by
  have hpages := le_newPages hfits
  have hlow := hplaced.low
  have hend : s.top p + size ≤ maxva := by
    have hmax : maxva = 2 ^ 26 * 4096 := rfl
    rw [hmax] at hlow ⊢
    have := Nat.lt_of_mul_lt_mul_right hlow
    exact hpages.trans (Nat.mul_le_mul_right 4096 this)
  have hnew : Backed u p ⟨node, s.top p, size⟩ := by
    intro v hv
    refine hplaced.mapped v ⟨hv.1, Nat.le_of_lt_succ ?_⟩
    exact Nat.lt_of_mul_lt_mul_right (lt_of_lt_of_le hv.2 hpages)
  refine ⟨hend, hnew, ?_⟩
  rw [show u64 (s.top p + size) = s.top p + size from Nat.mod_eq_of_lt (lt_of_le_of_lt hend maxva_lt)]
  have hperm : (s.live p ++ (s.idle p).tail ++ ((s.idle p).take 1 ++ lost)).Perm (s.live p ++ s.idle p ++ lost) := by
    have := ((perm_tail_take (s.idle p)).append_left (s.live p)).append_right lost
    simpa using this
  refine h.rebuilt (hadds.same.bottom p) (Nat.le_add_right _ _) hend (fun m hm => ?_) ?_ (fun m hm => ?_)
  · rcases List.mem_cons.mp hm with rfl | hm
    · exact Nat.pos_of_ne_zero hsize
    · exact h.pos m (hperm.mem_iff.mp hm)
  · exact (h.tiles.perm ((extents_perm hperm).append_right pages)).grow h.le size
  · rcases List.mem_cons.mp hm with rfl | hm
    · exact hnew
    · exact (h.backed m hm).adds hadds

lemma HeapInv.malloc (h : HeapInv p pages lost s) (hfits : CountFits s p size) (hrun : userBetterMalloc p size s = .done r t) :
    HeapInv p pages (if r = 0 then lost else forgets s p size ++ lost) t := by
  by_cases hsize : size = 0
  · subst hsize
    cases hrun
    exact h
  rcases userBetterMalloc_yields hsize h.idle_lt h.top_lt r t hrun with ⟨before, reuse, after, hspan, hidle, hfit, hcases⟩ | ⟨hspan, hsmall, hcases⟩
  · have hmem : reuse ∈ s.live p ++ s.idle p ++ lost := by simp [hidle]
    rcases hcases with ⟨rfl, n, u, hadds, -, rfl⟩ | ⟨rfl, n, u, node, hadds, hmapped, rfl⟩
    · rw [if_pos rfl]
      refine h.moved (hadds.same.bottom p) ?_ fun m hm => (h.backed m hm).adds hadds.toAdds
      rw [hidle]
      exact (List.perm_middle.symm.append_left _).append_right _
    · have hpos : reuse.va ≠ 0 := by
        have := (h.within hmem).1
        rw [h.bottom] at this
        norm_num at this
        omega
      rw [if_neg hpos, forgets_reuse hspan]
      exact h.reused hsize hidle hfit hadds.toAdds hmapped
  · rcases hcases with ⟨rfl, hrest⟩ | ⟨rfl, n, u, node, hadds, hplaced, rfl⟩
    · rw [if_pos rfl]
      exact h.kept ⟨hrest.live, hrest.idle, hrest.top, hrest.bottom, fun v hv => (hrest.valid v).trans hv⟩
    · have hpos : s.top p ≠ 0 := by
        have := h.le
        rw [h.bottom] at this
        norm_num at this
        omega
      rw [if_neg hpos, forgets_fresh hspan]
      exact (h.placed node hsize hadds.toAdds hplaced (hfits hsmall)).2.2

lemma touched_of_mem {blocks : List Malloc} {m : Malloc} (hm : m ∈ blocks) (hend : m.va + m.size ≤ maxva)
    (hv : Spans m.va m.size v) : touched blocks v = true := by
  obtain ⟨hlo, hhi⟩ := hv
  have hmax : m.va + m.size ≤ 2 ^ 38 := hend
  refine List.any_eq_true.mpr ⟨m, hm, ?_⟩
  rw [Bool.and_eq_true, decide_eq_true_eq, decide_eq_true_eq]
  constructor
  · rwa [show u64 (m.va + m.size) = m.va + m.size from Nat.mod_eq_of_lt (by omega)]
  · have hnext : v * 4096 + 4096 < 2 ^ 64 := by linarith
    rw [show u64 (v * 4096 + 4096) = v * 4096 + 4096 from Nat.mod_eq_of_lt hnext]
    exact lt_of_lt_of_le (Nat.lt_div_mul_add (by norm_num)) (Nat.add_le_add_right (Nat.mul_le_mul_right 4096 hlo) 4096)

lemma HeapInv.free (h : HeapInv p pages lost s) (hrun : userBetterFree p va s = .done () t) : HeapInv p pages lost t := by
  have hend : ∀ m ∈ s.live p, m.va + m.size ≤ maxva :=
    fun m hm => (h.within (by simp [hm])).2.trans h.top
  rcases userBetterFree_yields hend () t hrun with ⟨rfl, -⟩ | ⟨before, cur, after, u, hlive, -, -, hunlays, rfl⟩
  · exact h
  · refine h.moved (hunlays.same.bottom p) ?_ fun m hm v hv => ?_
    · rw [hlive]
      have hcur : (before ++ cur :: after).Perm (cur :: (before ++ after)) := List.perm_middle
      have hidle : (before ++ after ++ cur :: s.idle p).Perm (cur :: (before ++ after ++ s.idle p)) := List.perm_middle
      exact (hidle.trans (hcur.symm.append_right (s.idle p))).append_right lost
    · have hm' : m ∈ s.live p := by
        rw [hlive]
        simp only [List.mem_append, List.mem_cons] at hm ⊢
        tauto
      rw [hunlays.entry, if_neg]
      · exact h.backed m hm' v hv
      · rw [releasedPages, List.mem_filter, touched_of_mem hm (hend m hm') hv]
        simp

end Steps

theorem HeapRun.invariant (h : HeapRun p ok lost s) (hok : ∀ s size, ok s size → CountFits s p size) :
    HeapInv p [] lost s := by
  induction h with
  | start h => exact .start h
  | others _ hk ih => exact ih.kept hk
  | malloc _ hm hrun ih => exact ih.malloc (hok _ _ hm) hrun
  | free _ hrun ih => exact ih.free hrun

section Start

variable {J : List Malloc → List Malloc → HeapManager → Prop}

def OnHeap (J : List Malloc → List Malloc → HeapManager → Prop) (a : Space) : Prop :=
  J a.mallocList a.mallocFreeList a.userHeap

lemma onHeap_stable : Stable (OnHeap J) := fun _ _ _ h => h

namespace Local

lemma onHeap {f : Space → Space} (s : Vm) (h : ∀ a, OnHeap J a → OnHeap J (f a)) :
    Local (OnHeap J) p s (s.setSpace p f) := setSpace s (h _)

lemma onHeap_setRegion (i : ℕ) (r : Region) : Keeps (Local (OnHeap J) p) (Memory.setRegion p i r) :=
  Keeps.modify fun s => onHeap s fun _ h => h

lemma onHeap_deref (pa : ℕ) : Keeps (Local (OnHeap J) p) (Memory.deref pa) := Keeps.ite Keeps.halt (Keeps.pure refl _)

lemma onHeap_take {f : ℕ → Space → Space} (h : ∀ pa a, OnHeap J a → OnHeap J (f pa a)) :
    Keeps (Local (OnHeap J) p) (do
      let pa ← Memory.allocOrNull
      modify fun s => s.setSpace p (f pa)
      Memory.deref pa) :=
  Keeps.bind trans allocOrNull fun _ => Keeps.bind trans (Keeps.modify fun s => onHeap s (h _)) fun _ => onHeap_deref _

lemma onHeap_last : Keeps (Local (OnHeap J) p) (do
    Memory.setRegion p 3 ⟨userFreeAddressStart, 0, .heap⟩
    modify fun s => s.setSpace p fun a => { a with totalMappedRegion := 4 }
    Memory.initProcFileManagement p) :=
  Keeps.bind trans (onHeap_setRegion _ _) fun _ =>
    Keeps.bind trans (Keeps.modify fun s => onHeap s fun _ h => h) fun _ => onHeap_take fun _ _ h => h

lemma allocProcess_lists : Keeps (Local (OnHeap fun live idle _ => live = [] ∧ idle = []) p) (Memory.allocProcess p) := by
  refine Keeps.bind trans (onHeap_take fun _ _ h => h) fun _ => Keeps.bind trans (onHeap_take fun _ _ h => h) fun _ => ?_
  refine Keeps.bind trans (Keeps.bind trans allocOrNull fun _ => Keeps.modify fun s => onHeap s fun _ h => h) fun _ => ?_
  refine Keeps.bind trans allocOrNull fun _ => Keeps.bind trans (Keeps.modify fun s => onHeap s fun _ h => h) fun _ => ?_
  refine Keeps.bind trans (onHeap_take fun _ _ h => h) fun _ => ?_
  refine Keeps.bind trans (userVmMap onHeap_stable _ _ _ rfl) fun _ => Keeps.bind trans (onHeap_setRegion _ _) fun _ => Keeps.get fun s => ?_
  refine Keeps.bind trans (userVmMap onHeap_stable _ _ _ rfl) fun _ => Keeps.bind trans (onHeap_setRegion _ _) fun _ => Keeps.get fun s => ?_
  refine Keeps.bind trans (userVmMap onHeap_stable _ _ _ rfl) fun _ => Keeps.bind trans (onHeap_setRegion _ _) fun _ => ?_
  exact Keeps.bind trans (Keeps.modify fun s => onHeap s fun _ h => h) fun _ => onHeap_last

end Local

lemma allocProcess_heapStart (hlive : s.live p = []) (hidle : s.idle p = []) :
    yields (allocProcess p) (fun _ t => HeapStart p t) s := by
  have hlists : yields (allocProcess p) (fun _ t => t.live p = [] ∧ t.idle p = []) s :=
    yields_mono (yields_of_wp (Local.allocProcess_lists s)) fun _ t ht => ht.keeps ⟨hlive, hidle⟩
  have hbounds : yields (allocProcess p) (fun _ t => t.top p = userFreeAddressStart ∧ t.bottom p = userFreeAddressStart) s := by
    unfold allocProcess
    iterate 14 refine yields_bind fun _ t _ => ?_
    refine yields_modify_bind (yields_mono (yields_of_wp (Local.onHeap_last
      (J := fun _ _ h => h.heapTop = userFreeAddressStart ∧ h.heapBottom = userFreeAddressStart) _)) fun _ _ hu => hu.keeps ?_)
    simp [OnHeap, Vm.setHeap]
  exact yields_mono (yields_and hlists hbounds) fun _ t h => ⟨h.1.1, h.1.2, h.2.1, h.2.2⟩

end Start

end Pke.Memory
