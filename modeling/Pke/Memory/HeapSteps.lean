import Mathlib.Data.List.TakeWhile
import Pke.Memory.PageCalls
import Pke.Memory.HeapCalls

namespace Pke.Memory

open Lib Flow Function Processes

variable {s t u : Vm} {p : Pid} {va v size n : ℕ}

namespace Vm

def live (s : Vm) (p : Pid) : List Malloc := (s.space p).mallocList
def idle (s : Vm) (p : Pid) : List Malloc := (s.space p).mallocFreeList
def top (s : Vm) (p : Pid) : ℕ := (s.space p).userHeap.heapTop
def bottom (s : Vm) (p : Pid) : ℕ := (s.space p).userHeap.heapBottom

def spare (s : Vm) (p : Pid) : List ℕ :=
  (List.range (s.space p).userHeap.freePagesCount).map (s.space p).userHeap.freePagesAddress

def withHeap (s : Vm) (p : Pid) (live idle : List Malloc) (top : ℕ) : Vm :=
  s.setSpace p fun a => { a with
    mallocList := live, mallocFreeList := idle, userHeap := { a.userHeap with heapTop := top } }

section withHeap

variable {l i : List Malloc} {a : ℕ}

@[simp] lemma live_withHeap : (s.withHeap p l i a).live p = l := by simp [live, withHeap]
@[simp] lemma idle_withHeap : (s.withHeap p l i a).idle p = i := by simp [idle, withHeap]
@[simp] lemma top_withHeap : (s.withHeap p l i a).top p = a := by simp [top, withHeap]
@[simp] lemma bottom_withHeap : (s.withHeap p l i a).bottom p = s.bottom p := by simp [bottom, withHeap]
@[simp] lemma spare_withHeap : (s.withHeap p l i a).spare p = s.spare p := by simp [spare, withHeap]
@[simp] lemma entry_withHeap : (s.withHeap p l i a).entry p = s.entry p := by
  funext v
  simp [entry, withHeap]
@[simp] lemma pmm_withHeap : (s.withHeap p l i a).pmm = s.pmm := rfl
@[simp] lemma table_withHeap : ((s.withHeap p l i a).space p).pagetable = (s.space p).pagetable := by simp [withHeap]

lemma withHeap_self (s : Vm) (p : Pid) : s.withHeap p (s.live p) (s.idle p) (s.top p) = s := by
  simp [withHeap, setSpace, live, idle, top]

lemma withHeap_withHeap {l' i' : List Malloc} {b : ℕ} : (s.withHeap p l i a).withHeap p l' i' b = s.withHeap p l' i' b := by
  simp [withHeap, setSpace]

end withHeap

lemma setFreeList_eq (g : List Malloc → List Malloc) :
    setFreeList p g s = .done () (s.withHeap p (s.live p) (g (s.idle p)) (s.top p)) := rfl

lemma setMallocList_eq (g : List Malloc → List Malloc) :
    setMallocList p g s = .done () (s.withHeap p (g (s.live p)) (s.idle p) (s.top p)) := rfl

lemma setHeapTop_eq (a : ℕ) : setHeapTop p a s = .done () (s.withHeap p (s.live p) (s.idle p) a) := rfl

lemma SameFields.live (h : s.SameFields t) (p : Pid) : t.live p = s.live p := by rw [Vm.live, h.fields p]; rfl
lemma SameFields.idle (h : s.SameFields t) (p : Pid) : t.idle p = s.idle p := by rw [Vm.idle, h.fields p]; rfl
lemma SameFields.top (h : s.SameFields t) (p : Pid) : t.top p = s.top p := by rw [Vm.top, h.fields p]; rfl
lemma SameFields.bottom (h : s.SameFields t) (p : Pid) : t.bottom p = s.bottom p := by rw [Vm.bottom, h.fields p]; rfl
lemma SameFields.spare (h : s.SameFields t) (p : Pid) : t.spare p = s.spare p := by rw [Vm.spare, h.fields p]; rfl

end Vm

lemma pagesBelow_roundDown (a b : ℕ) :
    pagesBelow (roundDown a) b = (List.range ((b - roundDown a + 4095) / 4096)).map fun i => (a / 4096 + i) * 4096 := by
  rw [pagesBelow]
  apply List.map_congr_left
  intro i _
  rw [roundDown, Nat.add_mul]

structure AddsIn (p : Pid) (P : ℕ → Prop) (n : ℕ) (s t : Vm) : Prop extends Adds p n s t where
  out : ∀ v, ¬ P v → t.entry p v = s.entry p v

namespace AddsIn

variable {P P' : ℕ → Prop} {m : ℕ}

lemma refl (p : Pid) (P : ℕ → Prop) (s : Vm) : AddsIn p P 0 s s := ⟨.refl p s, fun _ _ => rfl⟩

lemma trans (h : AddsIn p P n s t) (h' : AddsIn p P m t u) : AddsIn p P (n + m) s u :=
  ⟨h.toAdds.trans h'.toAdds, fun v hv => (h'.out v hv).trans (h.out v hv)⟩

end AddsIn

def Spans (va size v : ℕ) : Prop := va / 4096 ≤ v ∧ v * 4096 < va + size

lemma ensureMapped_yields (h : va + size < 2 ^ 64) : yields (ensureMapped p va size) (fun b t =>
    ∃ n, AddsIn p (Spans va size) n s t ∧
      if b then ∀ v, Spans va size v → (t.entry p v).v = true else t.pmm.gFreeMemList = []) s := by
  have hend : u64 (va + size) = va + size := Nat.mod_eq_of_lt h
  rw [ensureMapped, hend, pagesBelow_roundDown]
  refine yields_all_range (fun i u => ∃ n, AddsIn p (Spans va size) n s u ∧ ∀ j < i, (u.entry p (va / 4096 + j)).v = true)
    ⟨0, .refl p _ s, fun j hj => by omega⟩ ?_ ?_
  · rintro i hi u ⟨n, hadds, hmapped⟩
    refine yields_get_bind ?_
    have hdiv : (va / 4096 + i) * 4096 / 4096 = va / 4096 + i := Nat.mul_div_cancel _ (by norm_num)
    have hin : (va / 4096 + i) * 4096 < va + size := by
      unfold roundDown at hi
      omega
    have hlt : (va / 4096 + i) * 4096 < 2 ^ 64 := hin.trans h
    by_cases hpa : lookupPa u p ((va / 4096 + i) * 4096) = 0
    · rw [if_pos hpa]
      refine yields_mono (mapFresh_yields (Nat.mul_mod_left _ _) hlt) ?_
      intro b w hw
      cases b with
      | false =>
        obtain ⟨rfl, hl⟩ := hw
        exact ⟨n, hadds, hl⟩
      | true =>
        obtain ⟨f, rest, -, hentry, -⟩ := hw.entry
        rw [hdiv] at hentry
        have hpage : AddsIn p (Spans va size) _ u w := ⟨hw.adds, fun v hv => by
          rw [hentry, update_of_ne]
          rintro rfl
          exact hv ⟨Nat.le_add_right _ _, hin⟩⟩
        refine ⟨_, hadds.trans hpage, fun j hj => ?_⟩
        rcases Nat.lt_succ_iff_lt_or_eq.mp hj with hj | rfl
        · exact hw.adds.valid (hmapped j hj)
        · rw [hentry, update_self]
          rfl
    · rw [if_neg hpa]
      refine yields_pure ⟨n, hadds, fun j hj => ?_⟩
      rcases Nat.lt_succ_iff_lt_or_eq.mp hj with hj | rfl
      · exact hmapped j hj
      · have := (lookupPa_ne_zero hpa).2.1
        rwa [hdiv] at this
  · rintro u ⟨n, hadds, hmapped⟩
    refine ⟨n, hadds, fun v ⟨hlo, hhi⟩ => ?_⟩
    obtain ⟨j, rfl⟩ := Nat.exists_eq_add_of_le hlo
    apply hmapped
    unfold roundDown
    omega

section Lay

variable {l : List ℕ} {k : ℕ}

structure Lays (p : Pid) (l : List ℕ) (k : ℕ) (s t : Vm) : Prop where
  adds : Adds p (l.length + k) s t
  fresh : ∀ v ∈ l, (s.entry p v).v = false ∧
    ∃ f ∈ s.pmm.gFreeMemList.take (l.length + k), t.entry p v = Pte.leaf f userRw ∧ (Pool s.pmm → t.pmm.ref f = 1)
  rest : ∀ v ∉ l, t.entry p v = s.entry p v
  tables : k = 0 ↔ ∀ v ∈ l, (s.space p).pagetable.Has v
  has : k = 0 → ∀ v, (t.space p).pagetable.Has v → (s.space p).pagetable.Has v

namespace Lays

lemma nil (p : Pid) (s : Vm) : Lays p [] 0 s s := by
  refine ⟨.refl p s, ?_, fun _ _ => rfl, ?_, fun _ _ h => h⟩ <;> simp

lemma valid (h : Lays p l k s t) (hv : v ∈ l) : (t.entry p v).v = true := by
  obtain ⟨-, f, -, he, -⟩ := h.fresh v hv
  rw [he]
  rfl

lemma snoc (h : Lays p l k s t) (h' : Fills p (v * 4096) t u) :
    Lays p (l ++ [v]) (k + (t.space p).pagetable.missing v) s u := by
  have hdiv : v * 4096 / 4096 = v := Nat.mul_div_cancel _ (by norm_num)
  obtain ⟨-, hun, hadds, ⟨f, rest, hl, hentry, href⟩, hhas⟩ := h'
  rw [hdiv] at hun hadds hentry hhas
  have hn : l.length + k + ((t.space p).pagetable.missing v + 1) =
      (l ++ [v]).length + (k + (t.space p).pagetable.missing v) := by
    rw [List.length_append, List.length_singleton]
    omega
  have hall := h.adds.trans hadds
  rw [hn] at hall
  refine ⟨hall, fun w hw => ?_, fun w hw => ?_, ?_, fun hk w hw => ?_⟩
  · rw [← hn]
    rcases List.mem_append.mp hw with hw | hw
    · obtain ⟨hs, g, hg, he, hr⟩ := h.fresh w hw
      refine ⟨hs, g, (List.take_sublist_take_left (Nat.le_add_right _ _)).subset hg, ?_, fun hpool => ?_⟩
      · rw [hadds.entry_of_valid (h.valid hw), he]
      · rw [h.adds.ref_taken hadds.toSpends hpool hg, hr hpool]
    · obtain rfl := List.mem_singleton.mp hw
      refine ⟨?_, f, ?_, by rw [hentry, update_self], fun hpool => href ?_⟩
      · by_contra hs
        rw [h.adds.valid (Bool.eq_true_of_not_eq_false hs)] at hun
        cases hun
      · rw [h.adds.free] at hl
        rw [List.take_add, hl]
        simp
      · exact ⟨h.adds.managed hpool.managed, by rw [h.adds.free]; exact hpool.nodup.sublist (List.drop_sublist _ _)⟩
  · rw [List.mem_append, not_or, List.mem_singleton] at hw
    rw [hentry, update_of_ne hw.2, h.rest w hw.1]
  · rw [Nat.add_eq_zero_iff, PageTable.missing_eq_zero, h.tables]
    constructor
    · rintro ⟨hl', hv⟩ w hw
      rcases List.mem_append.mp hw with hw | hw
      · exact hl' w hw
      · obtain rfl := List.mem_singleton.mp hw
        exact h.has (h.tables.mpr hl') w hv
    · intro hw
      exact ⟨fun w hin => hw w (List.mem_append_left _ hin), h.adds.has v (hw v (by simp))⟩
  · rw [Nat.add_eq_zero_iff, PageTable.missing_eq_zero] at hk
    exact h.has hk.1 w (hhas hk.2 w hw)

end Lays

structure Unlays (p : Pid) (l : List ℕ) (s t : Vm) : Prop where
  same : s.SameFields t
  managed : (∀ f ∈ s.pmm.gFreeMemList, s.pmm.Managed f) → ∀ f ∈ t.pmm.gFreeMemList, t.pmm.Managed f
  entry : ∀ v, t.entry p v = if v ∈ l then {} else s.entry p v
  has : ∀ v, (t.space p).pagetable.Has v ↔ (s.space p).pagetable.Has v
  ref : ∀ f, t.pmm.ref f ≤ s.pmm.ref f
  count : (∀ v ∈ l, s.pmm.ref (s.entry p v).pa ≤ 1) →
    t.pmm.gFreeMemList.length = s.pmm.gFreeMemList.length + l.length

lemma Unlays.nil (p : Pid) (s : Vm) : Unlays p [] s s :=
  ⟨.refl s, id, fun v => by simp, fun _ => Iff.rfl, fun _ => le_rfl, fun _ => rfl⟩

lemma unlays_unmapped (hv : (s.entry p v).v = true) (hm : s.pmm.Managed (s.entry p v).pa) :
    Unlays p [v] s (s.unmapped p v) := by
  have href : (s.unmapped p v).pmm.ref = update s.pmm.ref (s.entry p v).pa (s.pmm.ref (s.entry p v).pa - 1) :=
    Pmm.ref_release hm
  refine ⟨s.unmapped_same p v, fun hfree f hf => ?_, fun w => ?_, fun w => ?_, fun f => ?_, fun h => ?_⟩
  · exact Pmm.managed_release hm hfree f hf
  · rw [Vm.unmapped_entry hv, update_apply]
    simp
  · rw [Vm.unmapped, Vm.setTable, Vm.setSpace_self]
    exact Iff.rfl
  · rw [href]
    by_cases hf : f = (s.entry p v).pa
    · rw [hf, update_self]
      exact Nat.sub_le _ _
    · rw [update_of_ne hf]
  · have hone := h v (by simp)
    change (s.pmm.release _).gFreeMemList.length = _
    rw [Pmm.release, if_pos (by omega)]
    rfl

lemma Unlays.trans {l' : List ℕ} (h : Unlays p l s t) (h' : Unlays p l' t u) (hd : ∀ v ∈ l', v ∉ l) :
    Unlays p (l ++ l') s u where
  same := h.same.trans h'.same
  managed := h'.managed ∘ h.managed
  entry v := by
    rw [h'.entry v, h.entry v]
    by_cases hl : v ∈ l <;> by_cases hl' : v ∈ l' <;> simp [hl, hl']
  has v := (h'.has v).trans (h.has v)
  ref f := (h'.ref f).trans (h.ref f)
  count hone := by
    have ht : ∀ v ∈ l', t.pmm.ref (t.entry p v).pa ≤ 1 := by
      intro v hv
      rw [h.entry v, if_neg (hd v hv)]
      exact (h.ref _).trans (hone v (by simp [hv]))
    rw [h'.count ht, h.count fun v hv => hone v (by simp [hv]), List.length_append, Nat.add_assoc]

def unmapAll (p : Pid) (l : List ℕ) : Flow Vm Unit := each (fun v => userVmUnmap p (v * 4096) 4096 true) l

lemma unmapAll_yields (hl : l.Nodup) (hlow : ∀ v ∈ l, v * 4096 < maxva) :
    yields (unmapAll p l) (fun _ t => Unlays p l s t) s := by
  induction l generalizing s with
  | nil => exact yields_pure (.nil p s)
  | cons v l ih =>
    obtain ⟨hv, hl⟩ := List.nodup_cons.mp hl
    refine yields_bind (yields_mono userVmUnmap_yields ?_)
    rintro _ t (⟨hge, -⟩ | ⟨-, -, hvalid, hm, rfl⟩)
    · exact absurd (hlow v (by simp)) (not_lt.mpr hge)
    · rw [Nat.mul_div_cancel _ (by norm_num)] at hvalid hm ⊢
      refine yields_mono (ih hl fun w hw => hlow w (by simp [hw])) ?_
      intro _ u hu
      refine (unlays_unmapped hvalid hm).trans hu fun w hw => ?_
      rw [List.mem_singleton]
      exact fun he => hv (he ▸ hw)

def pagesFrom (v n : ℕ) : List ℕ := (List.range n).map (v + 1 + ·)

lemma pagesFrom_succ (v n : ℕ) : pagesFrom v (n + 1) = pagesFrom v n ++ [v + 1 + n] := by
  rw [pagesFrom, List.range_succ, List.map_append]
  rfl

lemma mem_pagesFrom {w : ℕ} : w ∈ pagesFrom v n ↔ v < w ∧ w ≤ v + n := by
  simp only [pagesFrom, List.mem_map, List.mem_range]
  constructor
  · rintro ⟨i, hi, rfl⟩
    omega
  · rintro ⟨hlo, hhi⟩
    exact ⟨w - (v + 1), by omega, by omega⟩

lemma nodup_pagesFrom (v n : ℕ) : (pagesFrom v n).Nodup := by
  refine List.Nodup.map ?_ List.nodup_range
  intro i j h
  exact Nat.add_left_cancel h

def firstPage (v : ℕ) (firstMapped : Bool) : List ℕ := if firstMapped then [v] else []

lemma nodup_first {b : Bool} : (firstPage v b ++ pagesFrom v n).Nodup := by
  cases b with
  | false => exact nodup_pagesFrom v n
  | true => exact List.nodup_cons.mpr ⟨fun h => (mem_pagesFrom.mp h).1.false, nodup_pagesFrom v n⟩

lemma mem_first_le {b : Bool} {w : ℕ} (h : w ∈ firstPage v b ++ pagesFrom v n) : w ≤ v + n := by
  rcases List.mem_append.mp h with h | h
  · cases b with
    | false => cases h
    | true =>
      obtain rfl := List.mem_singleton.mp h
      omega
  · exact (mem_pagesFrom.mp h).2

lemma rollback_eq {b : Bool} {i : ℕ} (h : (v + i) * 4096 < maxva) : (do
    if b then userVmUnmap p (v * 4096) 4096 true else pure ()
    each (fun j => userVmUnmap p (u64 (v * 4096 + 4096 + j * 4096)) 4096 true) (List.range i)
    pure false) = unmapAll p (firstPage v b ++ pagesFrom v i) >>= fun _ => pure false := by
  have hrest : each (fun j => userVmUnmap p (u64 (v * 4096 + 4096 + j * 4096)) 4096 true) (List.range i) =
      unmapAll p (pagesFrom v i) := by
    rw [unmapAll, pagesFrom, each_map]
    apply each_congr
    intro j hj
    have hlt : v * 4096 + 4096 + j * 4096 < 2 ^ 64 := by
      have hji := List.mem_range.mp hj
      have hmax : (v + i) * 4096 < 2 ^ 38 := h
      linarith
    have haddr : v * 4096 + 4096 + j * 4096 = (v + 1 + j) * 4096 := by ring
    rw [u64, Nat.mod_eq_of_lt hlt, comp_apply, haddr]
  rw [hrest, unmapAll, unmapAll, each_append]
  cases b with
  | false => rfl
  | true =>
    rw [if_pos rfl, firstPage, if_pos rfl, each, each, bind_bind, bind_bind]
    rfl

lemma mapNewPages_yields {b : Bool} {s₀ : Vm} {k₀ : ℕ} (h₀ : Lays p (firstPage v b) k₀ s₀ s) (hv : v * 4096 < maxva) :
    yields (mapNewPages p (v * 4096) b n) (fun r t =>
      if r then (v + n) * 4096 < maxva ∧ ∃ k, Lays p (firstPage v b ++ pagesFrom v n) k s₀ t
      else ∃ i k u, i < n ∧ Lays p (firstPage v b ++ pagesFrom v i) k s₀ u ∧ u.pmm.gFreeMemList = [] ∧
        Unlays p (firstPage v b ++ pagesFrom v i) u t) s := by
  rw [mapNewPages, ← List.map_id (List.range n)]
  refine yields_all_range (fun i u => (v + i) * 4096 < maxva ∧ ∃ k, Lays p (firstPage v b ++ pagesFrom v i) k s₀ u)
    ⟨hv, k₀, by simpa [pagesFrom] using h₀⟩ ?_ (fun _ ht => ht)
  rintro i hi t ⟨hlow, k, hlays⟩
  have haddr : u64 (v * 4096 + 4096 + id i * 4096) = (v + 1 + i) * 4096 := by
    have hmax : (v + i) * 4096 < 2 ^ 38 := hlow
    have hlt : v * 4096 + 4096 + i * 4096 < 2 ^ 64 := by linarith
    rw [u64, id, Nat.mod_eq_of_lt hlt]
    ring
  rw [haddr]
  have hlt : (v + 1 + i) * 4096 < 2 ^ 64 := by
    have hmax : (v + i) * 4096 < 2 ^ 38 := hlow
    linarith
  refine yields_bind (yields_mono (mapFresh_yields (Nat.mul_mod_left _ _) hlt) ?_)
  intro r u hr
  cases r with
  | true =>
    refine yields_pure ⟨?_, k + (t.space p).pagetable.missing (v + 1 + i), ?_⟩
    · have := hr.low
      have he : (v + (i + 1)) * 4096 = (v + 1 + i) * 4096 := by ring
      rwa [he]
    · rw [pagesFrom_succ, ← List.append_assoc]
      exact hlays.snoc hr
  | false =>
    obtain ⟨rfl, hl⟩ := hr
    rw [if_neg Bool.false_ne_true, id]
    refine (congrArg (fun m => yields m _ u) (rollback_eq hlow)).mpr ?_
    refine yields_bind (yields_mono (unmapAll_yields nodup_first ?_) ?_)
    · intro w hw
      exact lt_of_le_of_lt (Nat.mul_le_mul_right _ (mem_first_le hw)) hlow
    · intro _ w hw
      exact yields_pure ⟨i, k, u, hi, hlays, hl, hw⟩

end Lay

section Calls

variable {l i before after : List Malloc} {a : ℕ} {node reuse : Malloc} {rest : List ℕ}

lemma Vm.SameFields.unheap (h : (s.withHeap p l i a).SameFields u) :
    s.SameFields (u.withHeap p (s.live p) (s.idle p) (s.top p)) ∧
      u = (u.withHeap p (s.live p) (s.idle p) (s.top p)).withHeap p l i a := by
  have hlive : u.live p = l := by rw [h.live, Vm.live_withHeap]
  have hidle : u.idle p = i := by rw [h.idle, Vm.idle_withHeap]
  have htop : u.top p = a := by rw [h.top, Vm.top_withHeap]
  refine ⟨⟨h.bounds, h.trap, fun q => ?_⟩, ?_⟩
  · by_cases hq : q = p
    · subst hq
      rw [Vm.withHeap, Vm.setSpace_self, h.fields q, Vm.withHeap, Vm.setSpace_self]
      rfl
    · rw [Vm.withHeap, Vm.setSpace_of_ne _ hq, h.fields q, Vm.withHeap, Vm.setSpace_of_ne _ hq]
  · rw [Vm.withHeap_withHeap, ← hlive, ← hidle, ← htop, Vm.withHeap_self]

lemma Adds.unheap (h : Adds p n (s.withHeap p l i a) u) : ∃ t, Adds p n s t ∧ u = t.withHeap p l i a := by
  obtain ⟨hsame, heq⟩ := h.same.unheap
  refine ⟨_, ⟨⟨hsame, fun q hq => ?_, h.mem, h.le, h.free, h.ref, fun v hv => ?_⟩, fun v => ?_⟩, heq⟩
  · rw [Vm.withHeap, Vm.setSpace_of_ne _ hq, h.other q hq, Vm.withHeap, Vm.setSpace_of_ne _ hq]
  · rw [Vm.table_withHeap]
    apply h.has
    rwa [Vm.table_withHeap]
  · have := h.entry v
    rw [Vm.entry_withHeap] at this ⊢
    exact this

lemma AddsIn.unheap {P : ℕ → Prop} (h : AddsIn p P n (s.withHeap p l i a) u) :
    ∃ t, AddsIn p P n s t ∧ u = t.withHeap p l i a := by
  obtain ⟨t, ht, rfl⟩ := h.toAdds.unheap
  refine ⟨t, ⟨ht, fun v hv => ?_⟩, rfl⟩
  have := h.out v hv
  rwa [Vm.entry_withHeap, Vm.entry_withHeap] at this

lemma Unlays.unheap {pages : List ℕ} (h : Unlays p pages (s.withHeap p l i a) u) :
    ∃ t, Unlays p pages s t ∧ u = t.withHeap p l i a := by
  obtain ⟨hsame, heq⟩ := h.same.unheap
  refine ⟨_, ⟨hsame, h.managed, fun v => ?_, fun v => ?_, h.ref, fun hone => h.count ?_⟩, heq⟩
  · rw [Vm.entry_withHeap, h.entry v, Vm.entry_withHeap]
  · rw [Vm.table_withHeap, h.has v, Vm.table_withHeap]
  · simpa only [Vm.entry_withHeap, Vm.pmm_withHeap] using hone

lemma AddsIn.took (p : Pid) {f : ℕ} (P : ℕ → Prop) (h : s.pmm.gFreeMemList = f :: rest) :
    AddsIn p P 1 s (s.took f rest) :=
  ⟨⟨.took p h, fun _ => .inl rfl⟩, fun _ _ => rfl⟩

lemma keepRemainder_yields (P : ℕ → Prop) : yields (keepRemainder p va size) (fun b t =>
    if b then ∃ n u node, AddsIn p P n s u ∧ t = u.withHeap p (s.live p) (⟨node, va, size⟩ :: (s.idle p).tail) (s.top p)
    else t = s ∧ s.pmm.gFreeMemList = []) s := by
  rw [keepRemainder]
  refine yields_get_bind ?_
  cases hidle : (s.space p).mallocFreeList with
  | cons rem rest =>
    refine yields_bind_done (Vm.setFreeList_eq _) (yields_pure ⟨0, s, rem.node, .refl p P s, ?_⟩)
    rw [Vm.idle, hidle]
    rfl
  | nil =>
    simp only []
    cases hl : s.pmm.gFreeMemList with
    | nil =>
      refine yields_bind_done (allocPage_nil hl) (yields_pure ⟨rfl, rfl⟩)
    | cons f rest =>
      refine yields_bind_done (allocPage_cons hl) ?_
      refine yields_bind_done (Vm.setFreeList_eq _) (yields_pure ⟨1, s.took f rest, f, .took p P hl, ?_⟩)
      rw [Vm.idle, hidle]
      rfl

def remainders (reuse : Malloc) (size node : ℕ) (others : List Malloc) : List Malloc :=
  if size < reuse.size then ⟨node, u64 (reuse.va + size), reuse.size - size⟩ :: others.tail else others

lemma reuseBlock_yields (hfit : size ≤ reuse.size) (h : reuse.va + reuse.size < 2 ^ 64) :
    yields (reuseBlock p before reuse after size) (fun r t =>
      (r = 0 ∧ ∃ n u, AddsIn p (Spans reuse.va size) n s u ∧ u.pmm.gFreeMemList = [] ∧
        t = u.withHeap p (s.live p) (reuse :: (before ++ after)) (s.top p)) ∨
      (r = reuse.va ∧ ∃ n u node, AddsIn p (Spans reuse.va size) n s u ∧
        (∀ v, Spans reuse.va size v → (u.entry p v).v = true) ∧
        t = u.withHeap p (⟨reuse.node, reuse.va, size⟩ :: s.live p) (remainders reuse size node (before ++ after))
          (s.top p))) s := by
  refine yields_bind_done (Vm.setFreeList_eq _) ?_
  refine yields_bind (yields_mono (ensureMapped_yields (by omega)) ?_)
  rintro b u ⟨n, hadds, hb⟩
  obtain ⟨w, hw, rfl⟩ := hadds.unheap
  cases b with
  | false =>
    refine yields_bind_done (Vm.setFreeList_eq _) (yields_pure (.inl ⟨rfl, n, w, hw, hb, ?_⟩))
    rw [Vm.withHeap_withHeap, Vm.live_withHeap, Vm.idle_withHeap, Vm.top_withHeap]
  | true =>
    rw [if_pos rfl, Vm.entry_withHeap] at hb
    rw [if_pos rfl]
    refine yields_bind ?_
    by_cases hlt : size < reuse.size
    · rw [if_pos hlt]
      refine yields_mono (keepRemainder_yields (Spans reuse.va size)) ?_
      intro c x hx
      cases c with
      | false =>
        obtain ⟨rfl, hl⟩ := hx
        refine yields_bind_done (Vm.setFreeList_eq _) (yields_pure (.inl ⟨rfl, n, w, hw, hl, ?_⟩))
        rw [Vm.withHeap_withHeap, Vm.live_withHeap, Vm.idle_withHeap, Vm.top_withHeap]
      | true =>
        obtain ⟨m, y, node, hy, rfl⟩ := hx
        obtain ⟨z, hz, rfl⟩ := hy.unheap
        refine yields_bind_done (Vm.setMallocList_eq _) (yields_pure (.inr ⟨rfl, n + m, z, node, hw.trans hz, ?_, ?_⟩))
        · exact fun v hv => hz.valid (hb v hv)
        · simp only [Vm.withHeap_withHeap, Vm.live_withHeap, Vm.idle_withHeap, Vm.top_withHeap, remainders, if_pos hlt]
    · rw [if_neg hlt]
      refine yields_pure ?_
      refine yields_bind_done (Vm.setMallocList_eq _) (yields_pure (.inr ⟨rfl, n, w, 0, hw, hb, ?_⟩))
      simp only [Vm.withHeap_withHeap, Vm.live_withHeap, Vm.idle_withHeap, Vm.top_withHeap, remainders, if_neg hlt]

def newPages (va size : ℕ) : ℕ :=
  if size ≤ roundDown va + 4096 - va then 0 else u64 (size - (roundDown va + 4096 - va) + 4095) / 4096

def freshPages (s : Vm) (p : Pid) (va size : ℕ) : List ℕ :=
  firstPage (va / 4096) (lookupPa s p (roundDown va) = 0) ++ pagesFrom (va / 4096) (newPages va size)

def placeBlock (p : Pid) (va size : ℕ) (node : Malloc) (fromFreeList : Bool) : Flow Vm ℕ := do
  let pageStart := roundDown va
  let mapped := lookupPa (← get) p pageStart ≠ 0
  if ← (if mapped then pure true else mapFresh p pageStart) then
    let remaining := pageStart + 4096 - va
    if ← (if size ≤ remaining then pure true
        else mapNewPages p pageStart (!mapped) (u64 (size - remaining + 4095) / 4096)) then do
      setHeapTop p (u64 (va + size))
      setMallocList p fun l => ⟨node.node, va, size⟩ :: l
      pure va
    else do
      returnNode p node fromFreeList
      pure 0
  else do
    returnNode p node fromFreeList
    pure 0

lemma freshBlock_eq : freshBlock p size s = (takeNode p >>= fun r =>
    match r with
    | none => pure 0
    | some (node, fromFreeList) => placeBlock p (s.top p) size node fromFreeList) s := rfl

def Counts (va size v : ℕ) : Prop := va / 4096 ≤ v ∧ v ≤ va / 4096 + newPages va size

structure Placed (p : Pid) (va size : ℕ) (s : Vm) : Prop where
  low : (va / 4096 + newPages va size) * 4096 < maxva
  mapped : ∀ v, Counts va size v → (s.entry p v).v = true

lemma placed_of_lays {b : Bool} {k : ℕ} {s₀ : Vm} (h : Lays p (firstPage (va / 4096) b ++ pagesFrom (va / 4096) n) k s₀ s)
    (hfirst : b = false → (s₀.entry p (va / 4096)).v = true) (hlow : (va / 4096 + n) * 4096 < maxva)
    (hn : n = newPages va size) : Placed p va size s := by
  subst hn
  refine ⟨hlow, fun v ⟨hlo, hhi⟩ => ?_⟩
  rcases Nat.eq_or_lt_of_le hlo with rfl | hlt
  · cases b with
    | false => exact h.adds.valid (hfirst rfl)
    | true => exact h.valid (by simp [firstPage])
  · exact h.valid (List.mem_append_right _ (mem_pagesFrom.mpr ⟨hlt, hhi⟩))

lemma addsIn_of_lays {b : Bool} {k : ℕ} {s₀ : Vm}
    (h : Lays p (firstPage (va / 4096) b ++ pagesFrom (va / 4096) (newPages va size)) k s₀ s) :
    AddsIn p (Counts va size) ((firstPage (va / 4096) b ++ pagesFrom (va / 4096) (newPages va size)).length + k) s₀ s := by
  refine ⟨h.adds, fun v hv => h.rest v fun hin => hv ⟨?_, mem_first_le hin⟩⟩
  rcases List.mem_append.mp hin with hin | hin
  · cases b <;> simp_all [firstPage]
  · exact (mem_pagesFrom.mp hin).1.le

lemma take_freshPages {v i n : ℕ} {b : Bool} (h : i ≤ n) :
    (firstPage v b ++ pagesFrom v n).take ((firstPage v b).length + i) = firstPage v b ++ pagesFrom v i := by
  rw [List.take_length_add_append, pagesFrom, ← List.map_take, List.take_range, Nat.min_eq_left h]
  rfl

lemma firstPage_yields (va : ℕ) (hva : va < 2 ^ 64) :
    yields (if lookupPa s p (roundDown va) ≠ 0 then pure true else mapFresh p (roundDown va)) (fun r t =>
      if r then va / 4096 * 4096 < maxva ∧ (∃ k, Lays p (firstPage (va / 4096) (lookupPa s p (roundDown va) = 0)) k s t) ∧
        (lookupPa s p (roundDown va) ≠ 0 → (s.entry p (va / 4096)).v = true)
      else t = s ∧ s.pmm.gFreeMemList = []) s := by
  have hlt : roundDown va < 2 ^ 64 := (roundDown_le va).trans_lt hva
  by_cases hpa : lookupPa s p (roundDown va) = 0
  · rw [if_neg (not_not.mpr hpa)]
    refine yields_mono (mapFresh_yields (Nat.mul_mod_left _ _) hlt) ?_
    intro r t hr
    cases r with
    | false => exact hr
    | true =>
      refine ⟨hr.low, ⟨0 + (s.space p).pagetable.missing (va / 4096), ?_⟩, fun h => absurd hpa h⟩
      rw [firstPage, if_pos (decide_eq_true hpa)]
      exact (Lays.nil p s).snoc hr
  · have hmapped := lookupPa_ne_zero hpa
    rw [if_pos hpa]
    refine yields_pure ⟨hmapped.1, ⟨0, ?_⟩, fun _ => ?_⟩
    · rw [firstPage, if_neg (by simpa using hpa)]
      exact .nil p s
    · have := hmapped.2.1
      rwa [roundDown_div] at this

lemma nextPages_yields {b : Bool} {k₀ : ℕ} {s₀ : Vm} (h₀ : Lays p (firstPage (va / 4096) b) k₀ s₀ s)
    (hlow : va / 4096 * 4096 < maxva) :
    yields (if size ≤ roundDown va + 4096 - va then pure true
      else mapNewPages p (roundDown va) b (u64 (size - (roundDown va + 4096 - va) + 4095) / 4096)) (fun r t =>
      if r then (va / 4096 + newPages va size) * 4096 < maxva ∧
        ∃ k, Lays p (firstPage (va / 4096) b ++ pagesFrom (va / 4096) (newPages va size)) k s₀ t
      else ∃ m k u,
        Lays p ((firstPage (va / 4096) b ++ pagesFrom (va / 4096) (newPages va size)).take m) k s₀ u ∧
        u.pmm.gFreeMemList = [] ∧
        Unlays p ((firstPage (va / 4096) b ++ pagesFrom (va / 4096) (newPages va size)).take m) u t) s := by
  by_cases hsize : size ≤ roundDown va + 4096 - va
  · rw [if_pos hsize, newPages, if_pos hsize]
    refine yields_pure ⟨hlow, k₀, ?_⟩
    simpa [pagesFrom] using h₀
  · rw [if_neg hsize, newPages, if_neg hsize]
    refine yields_mono (mapNewPages_yields h₀ hlow) ?_
    intro r t hr
    cases r with
    | true => exact hr
    | false =>
      obtain ⟨i, k, u, hi, hlays, hl, hun⟩ := hr
      refine ⟨(firstPage (va / 4096) b).length + i, k, u, ?_, hl, ?_⟩
      · rwa [take_freshPages hi.le]
      · rwa [take_freshPages hi.le]

lemma placeBlock_yields (hva : va < 2 ^ 64) {b : Bool} : yields (placeBlock p va size node b) (fun r t =>
    (r = va ∧ ∃ n u, AddsIn p (Counts va size) n s u ∧ Placed p va size u ∧
      t = u.withHeap p (⟨node.node, va, size⟩ :: s.live p) (s.idle p) (u64 (va + size))) ∨
    (r = 0 ∧ ∃ m k u w, Lays p ((freshPages s p va size).take m) k s u ∧ u.pmm.gFreeMemList = [] ∧
      Unlays p ((freshPages s p va size).take m) u w ∧ returnNode p node b w = .done () t)) s := by
  have hneg : (!decide (lookupPa s p (roundDown va) ≠ 0)) = decide (lookupPa s p (roundDown va) = 0) := by simp
  rw [placeBlock]
  refine yields_get_bind (yields_bind (yields_mono (firstPage_yields va hva) ?_))
  intro r u hr
  cases r with
  | false =>
    obtain ⟨rfl, hl⟩ := hr
    refine yields_bind fun _ t ht => yields_pure (.inr ⟨rfl, 0, 0, u, u, ?_, hl, ?_, ht⟩)
    · rw [List.take_zero]
      exact .nil p u
    · rw [List.take_zero]
      exact .nil p u
  | true =>
    obtain ⟨hlow, ⟨k₀, h₀⟩, hvalid⟩ := hr
    rw [if_pos rfl]
    refine yields_bind ?_
    rw [hneg]
    refine yields_mono (nextPages_yields h₀ hlow) ?_
    intro r t hr
    cases r with
    | false =>
      obtain ⟨m, k, w, hlays, hl, hun⟩ := hr
      exact yields_bind fun _ x hx => yields_pure (.inr ⟨rfl, m, k, w, t, hlays, hl, hun, hx⟩)
    | true =>
      obtain ⟨hlow', k, hlays⟩ := hr
      rw [if_pos rfl]
      refine yields_bind_done (Vm.setHeapTop_eq _) (yields_bind_done (Vm.setMallocList_eq _) ?_)
      refine yields_pure (.inl ⟨rfl, _, t, addsIn_of_lays hlays, placed_of_lays hlays (fun hb => hvalid ?_) hlow' rfl, ?_⟩)
      · simpa using hb
      · simp only [Vm.withHeap_withHeap, Vm.live_withHeap, Vm.idle_withHeap, Vm.top_withHeap, hlays.adds.same.live,
          hlays.adds.same.idle]

@[simp] lemma Vm.lookupPa_withHeap : lookupPa (s.withHeap p l i a) p va = lookupPa s p va := by
  simp [lookupPa]

lemma freshPages_withHeap : freshPages (s.withHeap p l i a) p va size = freshPages s p va size := by
  rw [freshPages, freshPages, Vm.lookupPa_withHeap]

def TablesReady (s : Vm) (p : Pid) (size : ℕ) : Prop :=
  ∀ v ∈ (freshPages s p (s.top p) size).take (s.pmm.gFreeMemList.length - if s.idle p = [] then 1 else 0),
    (s.space p).pagetable.Has v

structure Restored (p : Pid) (size : ℕ) (s t : Vm) : Prop where
  live : t.live p = s.live p
  idle : t.idle p = s.idle p
  top : t.top p = s.top p
  bottom : t.bottom p = s.bottom p
  spare : t.spare p = s.spare p
  bounds : s.pmm.SameBounds t.pmm
  managed : (∀ f ∈ s.pmm.gFreeMemList, s.pmm.Managed f) → ∀ f ∈ t.pmm.gFreeMemList, t.pmm.Managed f
  valid : ∀ v, (t.entry p v).v = (s.entry p v).v
  keep : ∀ v, (s.entry p v).v = true → t.entry p v = s.entry p v
  count : Pool s.pmm → (t.pmm.gFreeMemList.length = s.pmm.gFreeMemList.length ↔ TablesReady s p size)

section Undone

variable {pages : List ℕ} {k m : ℕ} {w : Vm}

lemma undone_entry (h : Lays p pages k s u) (h' : Unlays p pages u w) (v : ℕ) :
    w.entry p v = if v ∈ pages then {} else s.entry p v := by
  rw [h'.entry v]
  by_cases hv : v ∈ pages
  · rw [if_pos hv, if_pos hv]
  · rw [if_neg hv, if_neg hv, h.rest v hv]

lemma undone_valid (h : Lays p pages k s u) (h' : Unlays p pages u w) (v : ℕ) :
    (w.entry p v).v = (s.entry p v).v := by
  rw [undone_entry h h']
  split_ifs with hv
  · rw [(h.fresh v hv).1]
  · rfl

lemma undone_keep (h : Lays p pages k s u) (h' : Unlays p pages u w) (hv : (s.entry p v).v = true) :
    w.entry p v = s.entry p v := by
  rw [undone_entry h h', if_neg]
  intro hin
  rw [(h.fresh v hin).1] at hv
  cases hv

lemma undone_count (h : Lays p pages k s u) (h' : Unlays p pages u w) (hu : u.pmm.gFreeMemList = []) (hs : Pool s.pmm) :
    w.pmm.gFreeMemList.length = pages.length ∧ s.pmm.gFreeMemList.length = pages.length + k := by
  constructor
  · rw [h'.count, hu, List.length_nil, Nat.zero_add]
    intro v hv
    obtain ⟨-, f, hf, he, hr⟩ := h.fresh v hv
    have hm := hs.managed f (List.mem_of_mem_take hf)
    rw [he, Pte.leaf_pa hm.1, hr hs]
  · have hle := h.adds.le
    have hfree := h.adds.free
    rw [hu] at hfree
    have := List.drop_eq_nil_iff.mp hfree.symm
    omega

lemma tables_iff {all : List ℕ} (h : Lays p (all.take m) k s u) (hn : n = (all.take m).length + k) :
    k = 0 ↔ ∀ v ∈ all.take n, (s.space p).pagetable.Has v := by
  rw [h.tables]
  constructor
  · intro hall v hv
    have hk : k = 0 := h.tables.mpr hall
    rw [hn, hk, Nat.add_zero, List.length_take, ← List.take_eq_take_min] at hv
    exact hall v hv
  · intro hall v hv
    apply hall
    have hlen : (all.take m).length ≤ n := by omega
    rw [List.length_take] at hlen
    rw [List.take_eq_take_min] at hv
    exact (List.take_sublist_take_left hlen).subset hv

end Undone

lemma takeNode_idle {idle : List Malloc} (h : s.idle p = node :: idle) :
    takeNode p s = .done (some (node, true)) (s.withHeap p (s.live p) idle (s.top p)) := by
  rw [takeNode, get_bind, show (s.space p).mallocFreeList = _ from h]
  rfl

lemma takeNode_new {f : ℕ} (h : s.idle p = []) (hl : s.pmm.gFreeMemList = f :: rest) :
    takeNode p s = .done (some (⟨f, 0, 0⟩, false)) (s.took f rest) := by
  rw [takeNode, get_bind, show (s.space p).mallocFreeList = _ from h]
  exact bind_done (allocPage_cons hl)

lemma takeNode_none (h : s.idle p = []) (hl : s.pmm.gFreeMemList = []) : takeNode p s = .done none s := by
  rw [takeNode, get_bind, show (s.space p).mallocFreeList = _ from h]
  exact bind_done (allocPage_nil hl)

lemma restored_idle {idle : List Malloc} {pages : List ℕ} {k m : ℕ} {w : Vm} (h : s.idle p = node :: idle)
    (hpages : pages = (freshPages s p (s.top p) size).take m)
    (hl : Lays p pages k (s.withHeap p (s.live p) idle (s.top p)) u) (hu : u.pmm.gFreeMemList = [])
    (hw : Unlays p pages u w) (ht : returnNode p node true w = .done () t) : Restored p size s t := by
  have hsame := hl.adds.same.trans hw.same
  have hlive : w.live p = s.live p := by rw [hsame.live, Vm.live_withHeap]
  have hidle : w.idle p = idle := by rw [hsame.idle, Vm.idle_withHeap]
  have htop : w.top p = s.top p := by rw [hsame.top, Vm.top_withHeap]
  have hback : t = w.withHeap p (s.live p) (node :: idle) (s.top p) := by
    rw [← hlive, ← hidle, ← htop]
    cases ht
    rfl
  subst hback
  refine ⟨Vm.live_withHeap, by rw [Vm.idle_withHeap, h], Vm.top_withHeap, ?_, ?_, hsame.bounds,
    fun hfree => hw.managed (hl.adds.managed hfree), fun v => ?_, fun v hv => ?_, fun hs => ?_⟩
  · rw [Vm.bottom_withHeap, hsame.bottom, Vm.bottom_withHeap]
  · rw [Vm.spare_withHeap, hsame.spare, Vm.spare_withHeap]
  · rw [Vm.entry_withHeap, undone_valid hl hw, Vm.entry_withHeap]
  · rw [Vm.entry_withHeap, undone_keep hl hw (by rwa [Vm.entry_withHeap]), Vm.entry_withHeap]
  · obtain ⟨hcount, hlen⟩ := undone_count hl hw hu hs
    rw [Vm.pmm_withHeap] at hlen ⊢
    subst hpages
    have htables := tables_iff hl hlen
    rw [Vm.table_withHeap] at htables
    rw [TablesReady, if_neg (by rw [h]; simp), Nat.sub_zero, ← htables]
    omega

lemma restored_new {f : ℕ} {pages : List ℕ} {k m : ℕ} {w : Vm} (h : s.idle p = [])
    (hlist : s.pmm.gFreeMemList = f :: rest) (hpages : pages = (freshPages s p (s.top p) size).take m)
    (hl : Lays p pages k (s.took f rest) u) (hu : u.pmm.gFreeMemList = [])
    (hw : Unlays p pages u w) (ht : returnNode p ⟨f, 0, 0⟩ false w = .done () t) : Restored p size s t := by
  have hsame := hl.adds.same.trans hw.same
  obtain ⟨hm, rfl⟩ := freePage_yields _ _ ht
  refine ⟨hsame.live p, hsame.idle p, hsame.top p, hsame.bottom p, hsame.spare p, ?_, fun hfree => ?_, fun v => ?_, fun v hv => ?_, fun hs => ?_⟩
  · exact Vm.took_bounds.trans hsame.bounds
  · exact Pmm.managed_release hm (hw.managed (hl.adds.managed ((Spends.took p hlist).managed hfree)))
  · exact undone_valid hl hw v
  · exact (undone_keep hl hw hv : w.entry p v = _)
  · have htook := Spends.took p hlist
    have hpool : Pool (s.took f rest).pmm :=
      ⟨htook.managed hs.managed, by rw [htook.free]; exact hs.nodup.sublist (List.drop_sublist _ _)⟩
    obtain ⟨hcount, hlen⟩ := undone_count hl hw hu hpool
    -- the node was handed out first, and nobody else has got it
    have hone : u.pmm.ref f = 1 := by
      rw [htook.ref_taken hl.adds.toSpends hs (by simp [hlist]), Vm.took_ref (hs.managed f (by simp [hlist])), update_self]
    have hback : (w.release f).pmm.gFreeMemList = f :: w.pmm.gFreeMemList := by
      have := hw.ref f
      change (w.pmm.release f).gFreeMemList = _
      rw [Pmm.release, if_pos (by omega)]
    rw [Vm.took_list] at hlen
    subst hpages
    have htables := tables_iff hl hlen
    rw [hback, hlist, TablesReady, if_pos h, hlist, List.length_cons, List.length_cons, Nat.add_sub_cancel]
    change _ ↔ ∀ v ∈ _, ((s.took f rest).space p).pagetable.Has v
    rw [← htables]
    omega

lemma freshBlock_yields (htop : s.top p < 2 ^ 64) : yields (freshBlock p size) (fun r t =>
    (r = 0 ∧ Restored p size s t) ∨
    (r = s.top p ∧ ∃ n u node, AddsIn p (Counts (s.top p) size) n s u ∧ Placed p (s.top p) size u ∧
      t = u.withHeap p (⟨node, s.top p, size⟩ :: s.live p) (s.idle p).tail (u64 (s.top p + size)))) s := by
  intro r t ht
  rw [freshBlock_eq] at ht
  cases hidle : s.idle p with
  | cons node idle =>
    rw [bind_done (takeNode_idle hidle)] at ht
    rcases placeBlock_yields htop r t ht with ⟨hr, n, u, hadds, hplaced, rfl⟩ | ⟨hr, m, k, u, w, hlays, hu, hun, hret⟩
    · obtain ⟨x, hx, rfl⟩ := hadds.unheap
      refine .inr ⟨hr, n, x, node.node, hx, ⟨hplaced.low, fun v hv => ?_⟩, ?_⟩
      · have := hplaced.mapped v hv
        rwa [Vm.entry_withHeap] at this
      · rw [Vm.withHeap_withHeap, Vm.live_withHeap, Vm.idle_withHeap, List.tail_cons]
    · rw [freshPages_withHeap] at hlays hun
      exact .inl ⟨hr, restored_idle hidle rfl hlays hu hun hret⟩
  | nil =>
    cases hlist : s.pmm.gFreeMemList with
    | nil =>
      rw [bind_done (takeNode_none hidle hlist)] at ht
      cases ht
      refine .inl ⟨rfl, rfl, rfl, rfl, rfl, rfl, ⟨rfl, rfl⟩, id, fun _ => rfl, fun _ _ => rfl, fun _ => iff_of_true rfl ?_⟩
      rw [TablesReady, hlist]
      simp
    | cons f rest =>
      rw [bind_done (takeNode_new hidle hlist)] at ht
      rcases placeBlock_yields htop r t ht with ⟨hr, n, u, hadds, hplaced, rfl⟩ | ⟨hr, m, k, u, w, hlays, hu, hun, hret⟩
      · refine .inr ⟨hr, _, u, f, (AddsIn.took p _ hlist).trans hadds, hplaced, ?_⟩
        change u.withHeap p _ (s.idle p) _ = _
        rw [hidle]
        rfl
      · exact .inl ⟨hr, restored_new hidle hlist rfl hlays hu hun hret⟩

lemma span_cases {α : Type} (P : α → Bool) (l : List α) : (l.span P = (l, []) ∧ ∀ x ∈ l, P x = true) ∨
    ∃ b a r, l.span P = (b, a :: r) ∧ l = b ++ a :: r ∧ (∀ x ∈ b, P x = true) ∧ P a = false := by
  rw [List.span_eq_takeWhile_dropWhile]
  have hsplit := List.takeWhile_append_dropWhile (p := P) (l := l)
  have hbefore : ∀ x ∈ l.takeWhile P, P x = true := fun x hx => List.mem_takeWhile_imp hx
  cases hdrop : l.dropWhile P with
  | nil =>
    rw [hdrop, List.append_nil] at hsplit
    rw [hsplit] at hbefore ⊢
    exact .inl ⟨rfl, hbefore⟩
  | cons a r =>
    rw [hdrop] at hsplit
    refine .inr ⟨_, a, r, rfl, hsplit.symm, hbefore, ?_⟩
    have := List.head_dropWhile_not P (l := l) (by rw [hdrop]; simp)
    simpa [hdrop] using this

lemma userBetterMalloc_eq (hsize : size ≠ 0) : userBetterMalloc p size s =
    (match (s.idle p).span (fun m : Malloc => decide (m.size < size)) with
    | (before, reuse :: after) => reuseBlock p before reuse after size
    | (_, []) => freshBlock p size) s := by
  rewrite [userBetterMalloc, if_neg hsize, get_bind]
  rfl

lemma userBetterMalloc_yields (hsize : size ≠ 0) (hidle : ∀ m ∈ s.idle p, m.va + m.size < 2 ^ 64)
    (htop : s.top p < 2 ^ 64) : yields (userBetterMalloc p size) (fun r t =>
    (∃ before reuse after, (s.idle p).span (fun m => decide (m.size < size)) = (before, reuse :: after) ∧
      s.idle p = before ++ reuse :: after ∧ size ≤ reuse.size ∧
      ((r = 0 ∧ ∃ n u, AddsIn p (Spans reuse.va size) n s u ∧ u.pmm.gFreeMemList = [] ∧
          t = u.withHeap p (s.live p) (reuse :: (before ++ after)) (s.top p)) ∨
        (r = reuse.va ∧ ∃ n u node, AddsIn p (Spans reuse.va size) n s u ∧
          (∀ v, Spans reuse.va size v → (u.entry p v).v = true) ∧
          t = u.withHeap p (⟨reuse.node, reuse.va, size⟩ :: s.live p) (remainders reuse size node (before ++ after))
            (s.top p)))) ∨
    ((s.idle p).span (fun m => decide (m.size < size)) = (s.idle p, []) ∧ (∀ m ∈ s.idle p, m.size < size) ∧
      ((r = 0 ∧ Restored p size s t) ∨
        (r = s.top p ∧ ∃ n u node, AddsIn p (Counts (s.top p) size) n s u ∧ Placed p (s.top p) size u ∧
          t = u.withHeap p (⟨node, s.top p, size⟩ :: s.live p) (s.idle p).tail (u64 (s.top p + size)))))) s := by
  intro r t ht
  rw [userBetterMalloc_eq hsize] at ht
  rcases span_cases (fun m : Malloc => decide (m.size < size)) (s.idle p) with
    ⟨hspan, hall⟩ | ⟨before, reuse, after, hspan, hlist, hbefore, hfit⟩
  · rw [hspan] at ht
    exact .inr ⟨hspan, fun m hm => of_decide_eq_true (hall m hm), freshBlock_yields htop r t ht⟩
  · rw [hspan] at ht
    have hle : size ≤ reuse.size := not_lt.mp (of_decide_eq_false hfit)
    have h64 := hidle reuse (by rw [hlist]; simp)
    exact .inl ⟨before, reuse, after, hspan, hlist, hle, reuseBlock_yields hle h64 r t ht⟩

section NewPages

lemma placeBlock_new (hva : va < 2 ^ 64) {b : Bool} : yields (placeBlock p va size node b) (fun r _ => r ≠ 0 →
    ∀ v, va / 4096 < v → v ≤ va / 4096 + newPages va size → (s.entry p v).v = false) s := by
  have hneg : (!decide (lookupPa s p (roundDown va) ≠ 0)) = decide (lookupPa s p (roundDown va) = 0) := by simp
  rw [placeBlock]
  refine yields_get_bind (yields_bind (yields_mono (firstPage_yields va hva) ?_))
  intro r u hr
  cases r with
  | false => exact yields_bind fun _ _ _ => yields_pure fun h => absurd rfl h
  | true =>
    obtain ⟨hlow, ⟨k₀, h₀⟩, -⟩ := hr
    rw [if_pos rfl]
    refine yields_bind ?_
    rw [hneg]
    refine yields_mono (nextPages_yields h₀ hlow) ?_
    intro r t hr
    cases r with
    | false => exact yields_bind fun _ _ _ => yields_pure fun h => absurd rfl h
    | true =>
      obtain ⟨-, k, hlays⟩ := hr
      rw [if_pos rfl]
      refine yields_bind fun _ _ _ => yields_bind fun _ _ _ => yields_pure fun _ v hv hv' => ?_
      exact (hlays.fresh v (List.mem_append_right _ (mem_pagesFrom.mpr ⟨hv, hv'⟩))).1

lemma userBetterMalloc_new (hsize : size ≠ 0) (htop : s.top p < 2 ^ 64) (hsmall : ∀ m ∈ s.idle p, m.size < size)
    (hrun : userBetterMalloc p size s = .done r t) (hr : r ≠ 0) (hv : s.top p / 4096 < v)
    (hv' : v ≤ s.top p / 4096 + newPages (s.top p) size) : (s.entry p v).v = false := by
  rw [userBetterMalloc_eq hsize] at hrun
  rcases span_cases (fun m : Malloc => decide (m.size < size)) (s.idle p) with
    ⟨hspan, -⟩ | ⟨before, reuse, after, -, hlist, -, hfit⟩
  swap
  · exact absurd (hsmall reuse (by rw [hlist]; simp)) (of_decide_eq_false hfit)
  rw [hspan] at hrun
  change freshBlock p size s = _ at hrun
  rw [freshBlock_eq] at hrun
  cases hidle : s.idle p with
  | cons node idle =>
    rw [bind_done (takeNode_idle hidle)] at hrun
    have hnew := placeBlock_new htop _ _ hrun hr v hv hv'
    rwa [Vm.entry_withHeap] at hnew
  | nil =>
    cases hlist : s.pmm.gFreeMemList with
    | nil =>
      rw [bind_done (takeNode_none hidle hlist)] at hrun
      cases hrun
      exact absurd rfl hr
    | cons f rest =>
      rw [bind_done (takeNode_new hidle hlist)] at hrun
      exact placeBlock_new htop _ _ hrun hr v hv hv'

end NewPages

def touched (blocks : List Malloc) (v : ℕ) : Bool :=
  blocks.any fun m => v * 4096 < u64 (m.va + m.size) && m.va < u64 (v * 4096 + 4096)

def releasedPages (others : List Malloc) (cur : Malloc) : List ℕ :=
  ((List.range ((cur.va + cur.size - roundDown cur.va + 4095) / 4096)).map (cur.va / 4096 + ·)).filter
    fun v => !touched others v

lemma mem_releasedPages {others : List Malloc} {cur : Malloc} :
    v ∈ releasedPages others cur ↔ Spans cur.va cur.size v ∧ touched others v = false := by
  have hrange : v ∈ (List.range ((cur.va + cur.size - roundDown cur.va + 4095) / 4096)).map (cur.va / 4096 + ·) ↔
      Spans cur.va cur.size v := by
    rw [List.mem_map, Spans]
    unfold roundDown
    constructor
    · rintro ⟨i, hi, rfl⟩
      rw [List.mem_range] at hi
      exact ⟨Nat.le_add_right _ _, by omega⟩
    · rintro ⟨hlo, hhi⟩
      exact ⟨v - cur.va / 4096, List.mem_range.mpr (by omega), by omega⟩
  rw [releasedPages, List.mem_filter, hrange, Bool.not_eq_true']

lemma releasePages_yields {pages : List ℕ} (hn : pages.Nodup) (hlow : ∀ v ∈ pages, v * 4096 < maxva) :
    yields (each (fun a => do
      if pageHasOtherAllocation (← get) p a then pure ()
      else userVmUnmap p a 4096 true) (pages.map (· * 4096)))
      (fun _ t => Unlays p (pages.filter fun v => !touched (s.live p) v) s t) s := by
  induction pages generalizing s with
  | nil => exact yields_pure (.nil p s)
  | cons v pages ih =>
    obtain ⟨hv, hn⟩ := List.nodup_cons.mp hn
    have hlow' : ∀ w ∈ pages, w * 4096 < maxva := fun w hw => hlow w (by simp [hw])
    rw [List.map_cons, each]
    refine yields_bind (yields_get_bind ?_)
    change yields (if touched (s.live p) v = true then pure () else userVmUnmap p (v * 4096) 4096 true) _ s
    cases ht : touched (s.live p) v with
    | true =>
      rw [if_pos rfl, List.filter_cons_of_neg (by simp [ht])]
      exact yields_pure (ih hn hlow')
    | false =>
      rw [if_neg Bool.false_ne_true, List.filter_cons_of_pos (by simp [ht])]
      refine yields_mono userVmUnmap_yields ?_
      rintro _ u (⟨hge, -⟩ | ⟨-, -, hvalid, hm, rfl⟩)
      · exact absurd (hlow v (by simp)) (not_lt.mpr hge)
      · rw [Nat.mul_div_cancel _ (by norm_num)] at hvalid hm ⊢
        have hun := unlays_unmapped hvalid hm
        refine yields_mono (ih hn hlow') ?_
        intro _ w hw
        rw [hun.same.live] at hw
        refine hun.trans hw fun x hx => ?_
        rw [List.mem_singleton]
        exact fun he => hv (he ▸ List.mem_of_mem_filter hx)

def freeBlock (p : Pid) (va : ℕ) (before : List Malloc) (cur : Malloc) (after : List Malloc) : Flow Vm Unit := do
  setMallocList p fun _ => before ++ after
  setFreeList p fun l => cur :: l
  each (fun a => do
    if pageHasOtherAllocation (← get) p a then pure ()
    else userVmUnmap p a 4096 true) (pagesBelow (roundDown va) (u64 (va + cur.size)))

lemma userBetterFree_eq : userBetterFree p va s =
    (match (s.live p).span (fun m : Malloc => decide (m.va ≠ va)) with
      | (_, []) => pure ()
      | (before, cur :: after) => freeBlock p va before cur after) s := rfl

lemma freeBlock_yields {cur : Malloc} (h : cur.va + cur.size ≤ maxva) :
    yields (freeBlock p cur.va before cur after) (fun _ t => ∃ u, Unlays p (releasedPages (before ++ after) cur) s u ∧
      t = u.withHeap p (before ++ after) (cur :: s.idle p) (s.top p)) s := by
  have hmax : cur.va + cur.size ≤ 2 ^ 38 := h
  have hend : u64 (cur.va + cur.size) = cur.va + cur.size := Nat.mod_eq_of_lt (lt_of_le_of_lt h maxva_lt)
  refine yields_bind_done (Vm.setMallocList_eq _) (yields_bind_done (Vm.setFreeList_eq _) ?_)
  have hpages (l : List ℕ) : l.map (fun i => (cur.va / 4096 + i) * 4096) = (l.map (cur.va / 4096 + ·)).map (· * 4096) := by
    rw [List.map_map]
    rfl
  rw [hend, pagesBelow_roundDown, hpages]
  refine yields_mono (releasePages_yields ?_ ?_) ?_
  · exact List.Nodup.map (fun i j hij => Nat.add_left_cancel hij) List.nodup_range
  · intro v hv
    obtain ⟨i, hi, rfl⟩ := List.mem_map.mp hv
    rw [List.mem_range] at hi
    unfold roundDown at hi
    change _ < 2 ^ 38
    omega
  · intro _ t ht
    simp only [Vm.withHeap_withHeap, Vm.live_withHeap, Vm.idle_withHeap, Vm.top_withHeap] at ht
    obtain ⟨u, hu, rfl⟩ := ht.unheap
    exact ⟨u, hu, rfl⟩

lemma userBetterFree_yields (h : ∀ m ∈ s.live p, m.va + m.size ≤ maxva) : yields (userBetterFree p va) (fun _ t =>
    (t = s ∧ ∀ m ∈ s.live p, m.va ≠ va) ∨
    ∃ before cur after u, s.live p = before ++ cur :: after ∧ cur.va = va ∧ (∀ m ∈ before, m.va ≠ va) ∧
      Unlays p (releasedPages (before ++ after) cur) s u ∧
      t = u.withHeap p (before ++ after) (cur :: s.idle p) (s.top p)) s := by
  intro r t ht
  rw [userBetterFree_eq] at ht
  rcases span_cases (fun m : Malloc => decide (m.va ≠ va)) (s.live p) with
    ⟨hspan, hall⟩ | ⟨before, cur, after, hspan, hlist, hbefore, hcur⟩
  · rw [hspan] at ht
    cases ht
    exact .inl ⟨rfl, fun m hm => of_decide_eq_true (hall m hm)⟩
  · rw [hspan] at ht
    obtain rfl : cur.va = va := not_not.mp (of_decide_eq_false hcur)
    obtain ⟨u, hu, rfl⟩ := freeBlock_yields (h cur (by rw [hlist]; simp)) r t ht
    exact .inr ⟨before, cur, after, u, hlist, rfl, fun m hm => of_decide_eq_true (hbefore m hm), hu, rfl⟩

end Calls

end Pke.Memory
