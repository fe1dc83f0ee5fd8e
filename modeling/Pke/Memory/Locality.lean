import Pke.Memory.Spaces
import Pke.Memory.Tables

/-! A call for one process leaves the spaces of the others alone and keeps its own space in order. -/

namespace Pke.Memory

open Lib Flow Function Processes

def PageTable.Readable (t : PageTable) : Prop := ∀ v, (t.pte v).v = true → (t.pte v).r = true

structure Formed (a : Space) : Prop where
  stack : a.regions 0 = ⟨userStackTop - 4096, 1, .stack⟩
  context : (a.regions 1).segType = .context
  system : (a.regions 2).segType = .system
  heap : (a.regions 3).segType = .heap
  total : 4 ≤ a.totalMappedRegion
  image : ∀ i, 4 ≤ i → i < a.totalMappedRegion → (a.regions i).segType = .code ∨ (a.regions i).segType = .data

structure Ready (a : Space) : Prop where
  bottom : a.userHeap.heapBottom = userFreeAddressStart
  recorded : ∀ i < a.userHeap.freePagesCount, a.userHeap.freePagesAddress i % 4096 = 0
  formed : Formed a
  readable : a.pagetable.Readable

def Stable (I : Space → Prop) : Prop :=
  ∀ a T, (a.pagetable.Readable → T.Readable) → I a → I { a with pagetable := T }

def Legible (a : Space) : Prop := a.pagetable.Readable

lemma legible_stable : Stable Legible := fun _ _ h ha => h ha

lemma Formed.congr {a b : Space} (h : Formed a) (hr : b.regions = a.regions)
    (ht : b.totalMappedRegion = a.totalMappedRegion) : Formed b := by
  obtain ⟨h₀, h₁, h₂, h₃, h₄, h₅⟩ := h
  rw [← hr] at h₀ h₁ h₂ h₃ h₅
  rw [← ht] at h₄ h₅
  exact ⟨h₀, h₁, h₂, h₃, h₄, h₅⟩

lemma Formed.resize {a : Space} (h : Formed a) (k : ℕ) :
    Formed { a with regions := update a.regions 3 { a.regions 3 with npages := k } } where
  stack := h.stack
  context := h.context
  system := h.system
  heap := by simpa using h.heap
  total := h.total
  image i h₁ h₂ := by
    dsimp only at h₂ ⊢
    rw [update_of_ne (by omega)]
    exact h.image i h₁ h₂

lemma Formed.push {a : Space} (h : Formed a) {r : Region} (hr : r.segType = .code ∨ r.segType = .data) :
    Formed { a with
      regions := update a.regions a.totalMappedRegion r
      totalMappedRegion := a.totalMappedRegion + 1 } := by
  have hbefore : ∀ i < 4, update a.regions a.totalMappedRegion r i = a.regions i := fun i hi =>
    update_of_ne (by have := h.total; omega) _ _
  refine ⟨(hbefore 0 (by omega)).trans h.stack, ?_, ?_, ?_, h.total.trans (Nat.le_succ _), fun i h₁ h₂ => ?_⟩
  · exact (congrArg _ (hbefore 1 (by omega))).trans h.context
  · exact (congrArg _ (hbefore 2 (by omega))).trans h.system
  · exact (congrArg _ (hbefore 3 (by omega))).trans h.heap
  · dsimp only at h₂ ⊢
    by_cases hi : i = a.totalMappedRegion
    · rw [hi, update_self]
      exact hr
    · rw [update_of_ne hi]
      exact h.image i h₁ (by omega)

lemma ready_stable : Stable Ready := fun _ _ h ha => ⟨ha.bottom, ha.recorded, ha.formed.congr rfl rfl, h ha.readable⟩

structure Extends (I : Space → Prop) : Prop where
  stable : Stable I
  frame : ∀ a f, I a → I { a with frame := f }
  push : ∀ (a : Space) (r : Region), r.segType = .code ∨ r.segType = .data → I a → I { a with
    regions := update a.regions a.totalMappedRegion r
    totalMappedRegion := a.totalMappedRegion + 1 }

lemma legible_extends : Extends Legible := ⟨legible_stable, fun _ _ h => h, fun _ _ _ h => h⟩

lemma ready_extends : Extends Ready where
  stable := ready_stable
  frame _ _ h := ⟨h.bottom, h.recorded, h.formed.congr rfl rfl, h.readable⟩
  push _ _ hr h := ⟨h.bottom, h.recorded, h.formed.push hr, h.readable⟩

namespace PageTable.Readable

variable {t : PageTable}

lemma setPte (h : t.Readable) {e : Pte} (he : e.v = true → e.r = true) (v : ℕ) : (t.setPte v e).Readable := by
  intro w hw
  by_cases hwv : w = v
  · subst hwv
    simp only [PageTable.setPte, update_self] at hw ⊢
    exact he hw
  · simp only [PageTable.setPte, update_of_ne hwv] at hw ⊢
    exact h w hw

lemma addLow (h : t.Readable) (i pa : ℕ) : (t.addLow i pa).Readable := by
  intro w hw
  simp only [PageTable.addLow] at hw ⊢
  split_ifs at hw with hwi
  rw [if_neg hwi]
  exact h w hw

end PageTable.Readable

lemma wp_storePageFault {p : Pid} {s : Vm} {va : ℕ} {Q : Unit → Vm → Prop} {E : Vm → Prop} (hleave : E s)
    (hcow : (s.entry p (va / 4096)).v = true → (s.entry p (va / 4096)).cow = true →
      wp (breakCow p (va / 4096) (s.entry p (va / 4096))) Q E s)
    (hgrow : wp (growSpace p (roundDown va)) Q E s) : wp (storePageFault p va) Q E s := by
  have hpage : roundDown va / 4096 = va / 4096 := by
    unfold roundDown
    omega
  unfold storePageFault
  dsimp only
  rw [wp_bind, wp_pageWalk_false]
  refine ⟨fun _ => hleave, fun _ => ?_⟩
  rw [wp_bind, wp_get, PageTable.walk_eq, hpage]
  have key : ∀ e, e = s.entry p (va / 4096) →
      wp (if e.v && e.cow then breakCow p (va / 4096) e
        else if userStackTop < va then leave
        else if u64 (userStackTop + (2 ^ 64 - (s.space p).size)) < va then growSpace p (roundDown va)
        else if (s.space p).userHeap.heapTop ≤ va then leave
        else growSpace p (roundDown va)) Q E s := by
    rintro e rfl
    rw [wp_ite, wp_ite, wp_ite, wp_ite]
    refine ⟨fun hc => ?_, fun _ => ⟨fun _ => hleave, fun _ => ⟨fun _ => hgrow, fun _ => ⟨fun _ => hleave, fun _ => hgrow⟩⟩⟩⟩
    rw [Bool.and_eq_true] at hc
    exact hcow hc.1 hc.2
  by_cases hhas : (s.space p).pagetable.Has (va / 4096)
  · rw [if_pos hhas]
    exact key _ (PageTable.entry_of_has hhas).symm
  · rw [if_neg hhas]
    exact key _ (by rw [Vm.entry, PageTable.entry_eq, if_neg hhas])

structure Local (I : Space → Prop) (p : Pid) (s t : Vm) : Prop where
  others : ∀ q, q ≠ p → t.space q = s.space q
  keeps : I (s.space p) → I (t.space p)

namespace Local

variable {I : Space → Prop} {p : Pid} {s t u : Vm}

lemma refl (s : Vm) : Local I p s s := ⟨fun _ _ => rfl, id⟩

lemma trans (s t u : Vm) (h : Local I p s t) (h' : Local I p t u) : Local I p s u :=
  ⟨fun q hq => (h'.others q hq).trans (h.others q hq), fun hr => h'.keeps (h.keeps hr)⟩

lemma of_space (h : t.space = s.space) : Local I p s t := ⟨fun _ _ => by rw [h], fun hr => by rwa [h]⟩

lemma setSpace {f : Space → Space} (s : Vm) (h : I (s.space p) → I (f (s.space p))) :
    Local I p s (s.setSpace p f) :=
  ⟨fun q hq => by simp [hq], fun hr => by simpa using h hr⟩

lemma setTable (hI : Stable I) (s : Vm) {f : PageTable → PageTable} (hf : ∀ t : PageTable, t.Readable → (f t).Readable) :
    Local I p s (s.setTable p f) := setSpace s fun h => hI _ _ (hf _) h

lemma freePage (pa : ℕ) : Keeps (Local I p) (freePage pa) := by
  refine Keeps.get fun s => Keeps.ite Keeps.halt ?_
  refine Keeps.bind trans (Keeps.modify fun s => of_space rfl) fun _ => ?_
  exact Keeps.ite (Keeps.modify fun s => of_space rfl) (Keeps.pure refl _)

lemma allocPage : Keeps (Local I p) allocPage := by
  refine Keeps.get fun s => ?_
  dsimp only
  split
  · exact Keeps.pure refl _
  · refine Keeps.bind trans (Keeps.modify fun s => of_space rfl) fun _ => ?_
    exact Keeps.ite (Keeps.bind trans (Keeps.modify fun s => of_space rfl) fun _ => Keeps.pure refl _)
      (Keeps.pure refl _)

lemma allocOrNull : Keeps (Local I p) allocOrNull := Keeps.bind trans allocPage fun _ => Keeps.pure refl _

lemma memcpyPage (dst src : ℕ) : Keeps (Local I p) (memcpyPage dst src) :=
  Keeps.ite Keeps.halt (Keeps.modify fun _ => of_space rfl)

section Tables

variable (hI : Stable I)
include hI

lemma setPte (v : ℕ) {e : Pte} (he : e.v = true → e.r = true) : Keeps (Local I p) (setPte p v e) :=
  Keeps.modify fun s => setTable hI s fun _ ht => ht.setPte he v

lemma walkLevel (b : Bool) (find : PageTable → Option ℕ) {add : PageTable → ℕ → PageTable}
    (hadd : ∀ (t : PageTable) pa, t.Readable → (add t pa).Readable) :
    Keeps (Local I p) (walkLevel p b find add) := by
  refine Keeps.get fun s => ?_
  split
  · exact Keeps.pure refl _
  · refine Keeps.ite (Keeps.bind trans allocPage fun r => ?_) (Keeps.pure refl _)
    cases r with
    | none => exact Keeps.pure refl _
    | some pa =>
      exact Keeps.bind trans (Keeps.modify fun s => setTable hI s fun t => hadd t pa) fun _ => Keeps.pure refl _

lemma pageWalk (va : ℕ) (b : Bool) : Keeps (Local I p) (pageWalk p va b) := by
  refine Keeps.ite (Keeps.leave refl) (Keeps.bind trans (walkLevel hI _ _ fun _ _ ht => ht) fun _ => ?_)
  exact Keeps.ite (Keeps.bind trans (walkLevel hI _ _ fun t pa ht => ht.addLow _ pa) fun _ =>
    Keeps.ite (Keeps.pure refl _) (Keeps.pure refl _)) (Keeps.pure refl _)

lemma mapPages (va size pa : ℕ) {perm : Pte} (hr : perm.r = true) : Keeps (Local I p) (mapPages p va size pa perm) := by
  refine Keeps.all refl trans (fun a => Keeps.bind trans (pageWalk hI a true) fun r => ?_) _
  cases r with
  | none => exact Keeps.pure refl _
  | some v =>
    refine Keeps.get fun s => Keeps.ite (Keeps.leave refl) ?_
    exact Keeps.bind trans (setPte hI v fun _ => hr) fun _ => Keeps.pure refl _

lemma userVmMap (va size pa : ℕ) {perm : Pte} (hr : perm.r = true) :
    Keeps (Local I p) (userVmMap p va size pa perm) :=
  Keeps.bind trans (mapPages hI va size pa hr) fun _ => Keeps.ite (Keeps.pure refl _) (Keeps.leave refl)

lemma userVmMapCow (va size pa : ℕ) : Keeps (Local I p) (userVmMapCow p va size pa) :=
  Keeps.bind trans (mapPages hI va size pa rfl) fun _ => Keeps.pure refl _

lemma userVmUnmap (va size : ℕ) (free : Bool) : Keeps (Local I p) (userVmUnmap p va size free) := by
  have hclear : ∀ v, Keeps (Local I p) (Memory.setPte p v {}) := fun v => setPte hI v fun h => absurd h (by decide)
  refine Keeps.ite (Keeps.leave refl) (Keeps.each refl trans (fun a => Keeps.bind trans (pageWalk hI a false) fun r => ?_) _)
  cases r with
  | none => exact Keeps.leave refl
  | some v =>
    refine Keeps.get fun s => Keeps.ite (Keeps.leave refl) ?_
    exact Keeps.ite (Keeps.bind trans (freePage _) fun _ => hclear v) (hclear v)

lemma mapFresh (a : ℕ) : Keeps (Local I p) (mapFresh p a) := by
  refine Keeps.bind trans allocPage fun r => ?_
  cases r with
  | none => exact Keeps.pure refl _
  | some pa => exact Keeps.bind trans (userVmMap hI _ _ _ rfl) fun _ => Keeps.pure refl _

lemma ensureMapped (va size : ℕ) : Keeps (Local I p) (ensureMapped p va size) :=
  Keeps.all refl trans (fun a => Keeps.get fun _ => Keeps.ite (mapFresh hI a) (Keeps.pure refl _)) _

lemma mapNewPages (pageStart : ℕ) (b : Bool) (n : ℕ) : Keeps (Local I p) (mapNewPages p pageStart b n) := by
  refine Keeps.all refl trans (fun i => Keeps.bind trans (mapFresh hI _) fun _ => Keeps.ite (Keeps.pure refl _) ?_) _
  have hrest : Keeps (Local I p) (do
      each (fun j => Memory.userVmUnmap p (u64 (pageStart + 4096 + j * 4096)) 4096 true) (List.range i)
      pure false) :=
    Keeps.bind trans (Keeps.each refl trans (fun j => userVmUnmap hI _ _ _) _) fun _ => Keeps.pure refl _
  exact Keeps.ite (Keeps.bind trans (userVmUnmap hI _ _ _) fun _ => hrest) hrest

lemma growSpace (page : ℕ) : Keeps (Local I p) (growSpace p page) :=
  Keeps.bind trans allocOrNull fun _ => userVmMap hI _ _ _ rfl

lemma elfAllocMb (va size : ℕ) : Keeps (Local I p) (elfAllocMb p va size) := by
  refine Keeps.ite Keeps.halt (Keeps.bind trans allocPage fun r => ?_)
  cases r with
  | none => exact Keeps.leave refl
  | some pa =>
    refine Keeps.bind trans (Keeps.ite Keeps.halt (Keeps.modify fun _ => of_space rfl)) fun _ => ?_
    exact Keeps.bind trans (userVmMap hI _ _ _ rfl) fun _ => Keeps.pure refl _

end Tables

/-! The calls of a running process. -/

lemma ready_of {f : Space → Space} (s : Vm) (h : ∀ a, (f a).userHeap = a.userHeap)
    (hr : ∀ a, (f a).regions = a.regions) (ht : ∀ a, (f a).totalMappedRegion = a.totalMappedRegion)
    (hp : ∀ a, (f a).pagetable = a.pagetable) : Local Ready p s (s.setSpace p f) := by
  refine setSpace s fun ha => ⟨?_, ?_, ha.formed.congr (hr _) (ht _), ?_⟩
  · rw [h]
    exact ha.bottom
  · rw [h]
    exact ha.recorded
  · rw [hp]
    exact ha.readable

lemma sysUserAllocatePage : Keeps (Local Ready p) (sysUserAllocatePage p) := by
  refine Keeps.bind trans allocPage fun r => Keeps.get fun s => ?_
  have hmap : ∀ va, Keeps (Local Ready p) (do Memory.userVmMap p va 4096 (r.getD 0) userRw; pure va) := fun va =>
    Keeps.bind trans (userVmMap ready_stable _ _ _ rfl) fun _ => Keeps.pure refl _
  dsimp only
  refine Keeps.ite (Keeps.bind trans (Keeps.modify fun s => setSpace s fun hr => ?_) fun _ => ?_) ?_
  · exact ⟨hr.bottom, fun i hi => hr.recorded i (lt_of_lt_of_le hi (Nat.sub_le _ _)), hr.formed.congr rfl rfl,
      hr.readable⟩
  · exact Keeps.ite (Keeps.bind trans (Keeps.pure refl _) hmap) (Keeps.bind trans Keeps.halt hmap)
  · refine Keeps.bind trans (Keeps.modify fun s => setSpace s fun hr =>
      ⟨hr.bottom, hr.recorded, hr.formed.congr rfl rfl, hr.readable⟩) fun _ => ?_
    exact Keeps.bind trans (Keeps.modify fun s => setSpace s fun hr =>
      ⟨hr.bottom, hr.recorded, hr.formed.resize _, hr.readable⟩) fun _ => Keeps.bind trans (Keeps.pure refl _) hmap

lemma setFreeList (f : List Malloc → List Malloc) : Keeps (Local Ready p) (setFreeList p f) :=
  Keeps.modify fun s => ready_of s (fun _ => rfl) (fun _ => rfl) (fun _ => rfl) fun _ => rfl

lemma setMallocList (f : List Malloc → List Malloc) : Keeps (Local Ready p) (setMallocList p f) :=
  Keeps.modify fun s => ready_of s (fun _ => rfl) (fun _ => rfl) (fun _ => rfl) fun _ => rfl

lemma keepRemainder (va size : ℕ) : Keeps (Local Ready p) (keepRemainder p va size) := by
  refine Keeps.get fun s => ?_
  split
  · exact Keeps.bind trans (setFreeList _) fun _ => Keeps.pure refl _
  · refine Keeps.bind trans allocPage fun r => ?_
    cases r with
    | none => exact Keeps.pure refl _
    | some node => exact Keeps.bind trans (setFreeList _) fun _ => Keeps.pure refl _

lemma reuseBlock (before after : List Malloc) (reuse : Malloc) (size : ℕ) :
    Keeps (Local Ready p) (reuseBlock p before reuse after size) := by
  have hback : Keeps (Local Ready p) (do Memory.setFreeList p fun l => reuse :: l; pure 0) :=
    Keeps.bind trans (setFreeList _) fun _ => Keeps.pure refl _
  refine Keeps.bind trans (setFreeList _) fun _ => Keeps.bind trans (ensureMapped ready_stable _ _) fun _ => Keeps.ite ?_ hback
  refine Keeps.bind trans (Keeps.ite (keepRemainder _ _) (Keeps.pure refl _)) fun _ => Keeps.ite ?_ hback
  exact Keeps.bind trans (setMallocList _) fun _ => Keeps.pure refl _

lemma takeNode : Keeps (Local Ready p) (takeNode p) := by
  refine Keeps.get fun s => ?_
  split
  · exact Keeps.bind trans (setFreeList _) fun _ => Keeps.pure refl _
  · refine Keeps.bind trans allocPage fun r => ?_
    cases r <;> exact Keeps.pure refl _

lemma returnNode (node : Malloc) (b : Bool) : Keeps (Local Ready p) (returnNode p node b) :=
  Keeps.ite (setFreeList _) (freePage _)

lemma freshBlock (size : ℕ) : Keeps (Local Ready p) (freshBlock p size) := by
  refine Keeps.get fun s => Keeps.bind trans takeNode fun r => ?_
  cases r with
  | none => exact Keeps.pure refl _
  | some r =>
    have hback : Keeps (Local Ready p) (do Memory.returnNode p r.1 r.2; pure 0) :=
      Keeps.bind trans (returnNode _ _) fun _ => Keeps.pure refl _
    refine Keeps.get fun s => Keeps.bind trans (Keeps.ite (Keeps.pure refl _) (mapFresh ready_stable _)) fun _ => Keeps.ite ?_ hback
    refine Keeps.bind trans (Keeps.ite (Keeps.pure refl _) (mapNewPages ready_stable _ _ _)) fun _ => Keeps.ite ?_ hback
    refine Keeps.bind trans (Keeps.modify fun s => setSpace s fun hr =>
      ⟨hr.bottom, hr.recorded, hr.formed.congr rfl rfl, hr.readable⟩) fun _ => ?_
    exact Keeps.bind trans (setMallocList _) fun _ => Keeps.pure refl _

lemma userBetterMalloc (size : ℕ) : Keeps (Local Ready p) (userBetterMalloc p size) := by
  refine Keeps.ite (Keeps.pure refl _) (Keeps.get fun s => ?_)
  dsimp only
  split
  · exact reuseBlock _ _ _ _
  · exact freshBlock _

lemma userBetterFree (va : ℕ) : Keeps (Local Ready p) (userBetterFree p va) := by
  refine Keeps.get fun s => ?_
  dsimp only
  split
  · exact Keeps.pure refl _
  · refine Keeps.bind trans (setMallocList _) fun _ => Keeps.bind trans (setFreeList _) fun _ => ?_
    exact Keeps.each refl trans (fun a => Keeps.get fun _ => Keeps.ite (Keeps.pure refl _) (userVmUnmap ready_stable _ _ _)) _

lemma breakCow {v : ℕ} (hhas : (s.space p).pagetable.Has v) :
    wp (breakCow p v (s.entry p v)) (fun _ => Local Ready p s) (Local Ready p s) s := by
  unfold Memory.breakCow
  rw [wp_bind, wp_get, wp_ite]
  refine ⟨fun _ => ?_, fun _ => ?_⟩
  · refine (Keeps.bind trans allocOrNull fun pa => Keeps.bind trans (memcpyPage _ _) fun _ => ?_) s
    exact Keeps.bind trans (setPte ready_stable v fun _ => rfl) fun _ => freePage _
  · refine setSpace s fun h => ready_stable _ _ (fun hr => hr.setPte ?_ v) h
    rw [Vm.entry, PageTable.entry_of_has hhas]
    exact hr v

lemma storePageFault (va : ℕ) : Keeps (Local Ready p) (storePageFault p va) := fun s =>
  wp_storePageFault (refl s) (fun hv _ => breakCow (PageTable.has_of_valid hv)) (growSpace ready_stable _ s)

/-! A space that is being built. -/

lemma legible_of {f : Space → Space} (s : Vm) (h : ∀ a, (f a).pagetable = a.pagetable) :
    Local Legible p s (s.setSpace p f) := setSpace s fun ha => by rwa [Legible, h]

lemma deref (pa : ℕ) : Keeps (Local Legible p) (deref pa) := Keeps.ite Keeps.halt (Keeps.pure refl _)

lemma setRegion (i : ℕ) (r : Region) : Keeps (Local Legible p) (setRegion p i r) :=
  Keeps.modify fun s => legible_of s fun _ => rfl

lemma allocTrapframe : Keeps (Local Legible p) (allocTrapframe p) :=
  Keeps.bind trans allocOrNull fun _ =>
    Keeps.bind trans (Keeps.modify fun s => legible_of s fun _ => rfl) fun _ => deref _

lemma allocPagetable : Keeps (Local Legible p) (allocPagetable p) :=
  Keeps.bind trans allocOrNull fun _ =>
    Keeps.bind trans (Keeps.modify fun s => setSpace s fun _ _ h => absurd h Bool.false_ne_true) fun _ => deref _

lemma allocKstack : Keeps (Local Legible p) (allocKstack p) :=
  Keeps.bind trans allocOrNull fun _ => Keeps.modify fun s => legible_of s fun _ => rfl

lemma allocMappedInfo : Keeps (Local Legible p) (allocMappedInfo p) :=
  Keeps.bind trans allocOrNull fun _ =>
    Keeps.bind trans (Keeps.modify fun s => legible_of s fun _ => rfl) fun _ => deref _

lemma initProcFileManagement : Keeps (Local Legible p) (initProcFileManagement p) :=
  Keeps.bind trans allocOrNull fun _ =>
    Keeps.bind trans (Keeps.modify fun s => legible_of s fun _ => rfl) fun _ => deref _

lemma allocProcess : Keeps (Local Legible p) (allocProcess p) := by
  refine Keeps.bind trans allocTrapframe fun _ => Keeps.bind trans allocPagetable fun _ => ?_
  refine Keeps.bind trans allocKstack fun _ => Keeps.bind trans allocOrNull fun _ => ?_
  refine Keeps.bind trans (Keeps.modify fun s => legible_of s fun _ => rfl) fun _ => ?_
  refine Keeps.bind trans allocMappedInfo fun _ => ?_
  refine Keeps.bind trans (userVmMap legible_stable _ _ _ rfl) fun _ => Keeps.bind trans (setRegion _ _) fun _ => Keeps.get fun s => ?_
  refine Keeps.bind trans (userVmMap legible_stable _ _ _ rfl) fun _ => Keeps.bind trans (setRegion _ _) fun _ => Keeps.get fun s => ?_
  refine Keeps.bind trans (userVmMap legible_stable _ _ _ rfl) fun _ => Keeps.bind trans (setRegion _ _) fun _ => ?_
  refine Keeps.bind trans (Keeps.modify fun s => legible_of s fun _ => rfl) fun _ => Keeps.bind trans (setRegion _ _) fun _ => ?_
  exact Keeps.bind trans (Keeps.modify fun s => legible_of s fun _ => rfl) fun _ => initProcFileManagement

lemma registerRegion (hI : Extends I) {r : Region} (hr : r.segType = .code ∨ r.segType = .data) :
    Keeps (Local I p) (registerRegion p r) := by
  intro s
  unfold Memory.registerRegion Memory.setRegion
  rw [wp_bind, wp_get, wp_bind, wp_modify, wp_modify]
  refine ⟨fun q hq => by simp [hq], fun h => ?_⟩
  simp only [Vm.setSpace_self]
  exact hI.push _ _ hr h

lemma forkRegion (hI : Extends I) {q : Pid} {garbage : ℕ → Bool} {i : ℕ}
    (h : ((s.space q).regions i).segType ≠ .heap) :
    wp (forkRegion q p garbage i) (fun _ => Local I p s) (Local I p s) s := by
  unfold Memory.forkRegion
  rw [wp_bind, wp_get]
  dsimp only
  generalize (s.space q).regions i = r at h ⊢
  cases hseg : r.segType with
  | heap => exact absurd hseg h
  | system => exact refl s
  | stack => exact memcpyPage _ _ s
  | context => exact setSpace s fun h => hI.frame _ _ h
  | code =>
    exact (Keeps.bind trans (userVmMap hI.stable _ _ _ rfl) fun _ => registerRegion hI (.inl rfl)) s
  | data =>
    refine (Keeps.bind trans (Keeps.each refl trans (fun i => ?_) _) fun _ => registerRegion hI (.inr rfl)) s
    refine Keeps.get fun _ => Keeps.bind trans allocOrNull fun _ => ?_
    exact Keeps.bind trans (memcpyPage _ _) fun _ => userVmMap hI.stable _ _ _ rfl

end Local

end Pke.Memory
