import Pke.Lib.Counted
import Pke.Memory.Spaces
import Pke.Memory.Tables

/-! Who uses which frame. A mapping that user code may write is covered by the reference count of
its frame, as are the frames that the kernel keeps for a process. An executable mapping is not:
`do_fork` hands out the code pages of the parent without counting. -/

namespace Pke.Memory

open Lib Flow Function Processes

namespace Pmm

variable {m m' : Pmm} {f g : ℕ}

def Managed (m : Pmm) (f : ℕ) : Prop := f % 4096 = 0 ∧ m.Covers f ∧ m.index f < m.maxPages

instance (m : Pmm) (f : ℕ) : Decidable (m.Managed f) := inferInstanceAs (Decidable (_ ∧ _))

def ref (m : Pmm) (f : ℕ) : ℕ := if m.Managed f then m.pageRefCount (m.index f) else 0

def SameBounds (m m' : Pmm) : Prop :=
  m'.freeMemStartAddr = m.freeMemStartAddr ∧ m'.freeMemEndAddr = m.freeMemEndAddr

lemma SameBounds.managed (h : SameBounds m m') (f : ℕ) : m'.Managed f ↔ m.Managed f := by
  simp only [Managed, Covers, index, maxPages, h.1, h.2]

lemma SameBounds.trans {m'' : Pmm} (h : SameBounds m m') (h' : SameBounds m' m'') : SameBounds m m'' :=
  ⟨h'.1.trans h.1, h'.2.trans h.2⟩

lemma Managed.index_inj (hf : m.Managed f) (hg : m.Managed g) (h : m.index f = m.index g) : f = g := by
  obtain ⟨hf₁, ⟨hf₂, -⟩, -⟩ := hf
  obtain ⟨hg₁, ⟨hg₂, -⟩, -⟩ := hg
  unfold index at h
  omega

lemma managed_of_ref (h : 0 < m.ref f) : m.Managed f := by
  by_contra hn
  rw [ref, if_neg hn] at h
  exact h.false

lemma setRef_bounds (m : Pmm) (pa n : ℕ) : SameBounds m (m.setRef pa n) := ⟨rfl, rfl⟩

lemma ref_setRef (h : m.Managed f) (n : ℕ) : (m.setRef f n).ref = update m.ref f n := by
  have hmanaged := (setRef_bounds m f n).managed
  funext g
  by_cases hg : g = f
  · subst hg
    rw [update_self, ref, if_pos ((hmanaged g).mpr h)]
    exact update_self _ _ _
  · rw [update_of_ne hg, ref, ref]
    by_cases hm : m.Managed g
    · rw [if_pos ((hmanaged g).mpr hm), if_pos hm]
      exact update_of_ne (fun e => hg (hm.index_inj h e)) _ _
    · rw [if_neg (mt (hmanaged g).mp hm), if_neg hm]

lemma getPageRef_eq (h : f % 4096 = 0) : m.getPageRef f = m.ref f := by
  unfold getPageRef ref Managed
  simp only [h, true_and]

def pop (m : Pmm) (f : ℕ) (rest : List ℕ) : Pmm := { m with gFreeMemList := rest }.setRef f 1

def release (m : Pmm) (f : ℕ) : Pmm :=
  { m.setRef f (m.ref f - 1) with
    gFreeMemList := if m.ref f - 1 = 0 then f :: m.gFreeMemList else m.gFreeMemList }

lemma ref_pop (h : m.Managed f) (rest : List ℕ) : (m.pop f rest).ref = update m.ref f 1 :=
  ref_setRef (m := { m with gFreeMemList := rest }) h 1

lemma ref_release (h : m.Managed f) : (m.release f).ref = update m.ref f (m.ref f - 1) := ref_setRef h _

lemma managed_release (hf : m.Managed f) (h : ∀ g ∈ m.gFreeMemList, m.Managed g) :
    ∀ g ∈ (m.release f).gFreeMemList, m.Managed g := by
  intro g hg
  rw [release] at hg
  split_ifs at hg
  · rcases List.mem_cons.mp hg with rfl | hg
    · exact hf
    · exact h g hg
  · exact h g hg

end Pmm

def Pte.owns (e : Pte) : Bool := e.v && e.u && !e.x
def Pte.borrows (e : Pte) : Bool := e.v && e.u && e.x

inductive Spot where
  | leaf (v : ℕ)
  | trapframe | kstack | mappedInfo | dir
  | mid (i : ℕ)
  | low (j : ℕ)
  deriving DecidableEq

def Pte.owned (e : Pte) : Option ℕ := if e.owns then some e.pa else none

def Space.frameAt (a : Space) : Spot → Option ℕ
  | .leaf v => (a.pagetable.entry v).owned
  | .trapframe => some a.trapframe
  | .kstack => some (a.kstack - 4096)
  | .mappedInfo => some a.mappedInfo
  | .dir => some a.pagetable.dir
  | .mid i => a.pagetable.mid i
  | .low j => a.pagetable.lowAt j

namespace Space

variable {a : Space}

lemma frameAt_setPte {v : ℕ} (h : a.pagetable.Has v) (e : Pte) :
    { a with pagetable := a.pagetable.setPte v e }.frameAt = update a.frameAt (.leaf v) e.owned := by
  funext w
  cases w with
  | leaf u =>
    by_cases hu : u = v
    · simp [frameAt, PageTable.entry_setPte h, hu]
    · simp [frameAt, PageTable.entry_setPte h, hu]
  | _ => rfl

lemma frameAt_addMid {i : ℕ} (h : a.pagetable.mid i = none) (pa : ℕ) :
    { a with pagetable := a.pagetable.addMid i pa }.frameAt = update a.frameAt (.mid i) (some pa) := by
  funext w
  cases w with
  | leaf u => simp [frameAt, PageTable.entry_addMid h]
  | low j => simp [frameAt, PageTable.lowAt_addMid h]
  | mid j =>
    by_cases hj : j = i
    · simp [frameAt, PageTable.addMid, hj]
    · simp [frameAt, PageTable.addMid, hj]
  | _ => rfl

lemma frameAt_addLow {j : ℕ} (h : a.pagetable.low j = none) (hmid : (a.pagetable.mid (j / 512)).isSome)
    (pa : ℕ) :
    { a with pagetable := a.pagetable.addLow j pa }.frameAt = update a.frameAt (.low j) (some pa) := by
  funext w
  cases w with
  | leaf u => simp [frameAt, PageTable.entry_addLow h]
  | low i =>
    by_cases hi : i = j
    · simp [frameAt, PageTable.lowAt_addLow hmid, hi]
    · simp [frameAt, PageTable.lowAt_addLow hmid, hi]
  | _ => rfl

end Space

inductive Use where
  | spot (p : Pid) (w : Spot)
  | hand (k : ℕ)
  deriving DecidableEq

def Vm.managed (s : Vm) (x : Option ℕ) : Option ℕ := x.filter fun f => s.pmm.Managed f

def usesOf (live : Finset Pid) (hand : ℕ → Option ℕ) (s : Vm) : Use → Option ℕ
  | .spot p w => if p ∈ live then s.managed ((s.space p).frameAt w) else none
  | .hand k => hand k

def borrowed (live : Finset Pid) (s : Vm) : Set ℕ :=
  {f | s.pmm.Managed f ∧ ∃ p ∈ live, ∃ v, (s.entry p v).borrows = true ∧ (s.entry p v).pa = f}

structure Tidy (m : Pmm) (a : Space) : Prop where
  kernelLeaf : ∀ v, (a.pagetable.entry v).v = true → (a.pagetable.entry v).u = false →
    (a.pagetable.entry v).cow = false ∧ 0x80000 ≤ v ∧
      ((a.pagetable.entry v).pa = a.trapframe ∨ ¬ m.Managed (a.pagetable.entry v).pa)
  codeLow : ∀ v, (a.pagetable.entry v).borrows = true → v < 1024
  cowHigh : ∀ v, (a.pagetable.entry v).v = true → (a.pagetable.entry v).cow = true → 1024 ≤ v
  heapRegion : ∀ i, (a.regions i).segType = .heap → i = 3
  imageRegion : ∀ i, (a.regions i).segType = .code ∨ (a.regions i).segType = .data →
    i ≠ 3 ∧ (a.regions i).va % 4096 = 0 ∧ (a.regions i).va < userFreeAddressStart ∧ (a.regions i).npages = 1

def Vm.Layout (s : Vm) : Prop :=
  0x80000000 ≤ s.trapSecStart ∧ s.trapSecStart % 4096 = 0 ∧ s.trapSecStart < s.pmm.freeMemStartAddr

structure Owned (live : Finset Pid) (hand : ℕ → Option ℕ) (n : ℕ) (s : Vm) : Prop where
  counted : Counted (usesOf live hand s) (borrowed live s) s.pmm.ref s.pmm.gFreeMemList
  managed : ∀ f ∈ s.pmm.gFreeMemList, s.pmm.Managed f
  sole : ∀ k f, hand k = some f → s.pmm.ref f = 1
  bound : ∀ f, s.pmm.ref f ≤ n
  once : ∀ p ∈ live, ∀ v w f, usesOf live hand s (.spot p (.leaf v)) = some f →
    usesOf live hand s (.spot p (.leaf w)) = some f → v = w
  tidy : ∀ p ∈ live, Tidy s.pmm (s.space p)
  layout : s.Layout

section

variable {live : Finset Pid} {hand hand' : ℕ → Option ℕ} {n n' : ℕ} {s t : Vm} {p : Pid}

lemma managed_eq_some {x : Option ℕ} {f : ℕ} : s.managed x = some f ↔ x = some f ∧ s.pmm.Managed f := by
  simp [Vm.managed, Option.filter_eq_some_iff]

lemma usesOf_spot (hp : p ∈ live) (w : Spot) :
    usesOf live hand s (.spot p w) = s.managed ((s.space p).frameAt w) := if_pos hp

lemma usesOf_eq_some {w : Spot} {f : ℕ} : usesOf live hand s (.spot p w) = some f ↔
    p ∈ live ∧ (s.space p).frameAt w = some f ∧ s.pmm.Managed f := by
  by_cases hp : p ∈ live
  · rw [usesOf_spot hp, managed_eq_some]
    simp [hp]
  · simp [usesOf, hp]

lemma usesOf_hand (k : ℕ) (x : Option ℕ) :
    usesOf live (update hand k x) s = update (usesOf live hand s) (.hand k) x := by
  funext u
  cases u with
  | spot p w => rfl
  | hand j =>
    by_cases hj : j = k
    · simp [usesOf, hj]
    · simp [usesOf, hj]

lemma usesOf_update {a : Space} {w : Spot} {x : Option ℕ} (hp : p ∈ live)
    (hspace : t.space = update s.space p a) (hb : s.pmm.SameBounds t.pmm)
    (ha : a.frameAt = update (s.space p).frameAt w x) :
    usesOf live hand t = update (usesOf live hand s) (.spot p w) (s.managed x) := by
  have hman : t.managed = s.managed := by
    funext y
    simp only [Vm.managed, hb.managed]
  funext u
  cases u with
  | hand k => simp [usesOf]
  | spot q w' =>
    by_cases hq : q = p
    · subst hq
      rw [usesOf_spot hp, hman, hspace, update_self, ha]
      by_cases hw : w' = w
      · simp [hw]
      · simp [hw, usesOf_spot hp]
    · simp [usesOf, hman, hspace, hq]

end

end Pke.Memory
