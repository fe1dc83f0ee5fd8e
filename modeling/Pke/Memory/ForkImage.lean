import Pke.Memory.ForkCalls
import Pke.Memory.Mapping

namespace Pke.Memory

open Lib Flow Function Processes

variable {s t u : Vm} {p c : Pid} {garbage : ℕ → Bool} {va pa v f st i : ℕ} {done : ℕ → Prop}

def Shared (s : Vm) (p : Pid) (garbage : ℕ → Bool) (v : ℕ) : Prop :=
  1024 ≤ v ∧ v * 4096 < (s.space p).userHeap.heapTop ∧
    filtered (s.space p).userHeap garbage (v - 1024) = false ∧ lookupPa s p (v * 4096) ≠ 0

structure Twin (garbage : ℕ → Bool) (s : Vm) (p c : Pid) (st i : ℕ) (done : ℕ → Prop) (u : Vm) : Prop where
  free : u.frees <:+ s.frees
  bytes : ∀ f, f % 4096 = 0 → f ∉ s.frees → SameBytes u f s f
  drawn : st ∈ s.frees ∧ st ∉ u.frees ∧ st % 4096 = 0
  parent : u.space p = { s.space p with pagetable := (u.space p).pagetable }
  kept : ∀ v, ¬ (done v ∧ Shared s p garbage v) → u.entry p v = s.entry p v
  marked : ∀ v, done v → Shared s p garbage v → u.entry p v = (s.entry p v).shared
  size : (u.space c).size = 0
  region : ((u.space c).regions 0).va = userStackTop - 4096
  total : 4 ≤ (u.space c).totalMappedRegion
  frame : 2 ≤ i → (u.space c).frame.set .a0 0 = (s.space p).frame.set .a0 0
  stack : u.entry c stackPage = Pte.leaf st userRw
  copied : 1 ≤ i → lookupPa s p (userStackTop - 4096) ≠ 0 ∧
    SameBytes u st s (lookupPa s p (userStackTop - 4096))
  shares : ∀ v, done v → Shared s p garbage v →
    u.entry c v = Pte.leaf (lookupPa s p (v * 4096)) cowPerm ∨ (u.frees = [] ∧ ¬ (u.space c).pagetable.Has v)
  code : ∀ j < i, ((s.space p).regions j).segType = .code →
    u.entry c (((s.space p).regions j).va / 4096) = Pte.leaf (lookupPa s p ((s.space p).regions j).va) userRx
  data : ∀ j < i, ((s.space p).regions j).segType = .data → lookupPa s p ((s.space p).regions j).va ≠ 0 ∧
    ∃ f, u.entry c (((s.space p).regions j).va / 4096) = Pte.leaf f userRw ∧ f % 4096 = 0 ∧ f ∈ s.frees ∧
      f ∉ u.frees ∧ SameBytes u f s (lookupPa s p ((s.space p).regions j).va)

def Sourced (garbage : ℕ → Bool) (s : Vm) (p : Pid) (i : ℕ) (done : ℕ → Prop) (v : ℕ) : Prop :=
  v = stackPage ∨ (done v ∧ Shared s p garbage v) ∨
    ∃ j < i, (((s.space p).regions j).segType = .code ∨ ((s.space p).regions j).segType = .data) ∧
      v = ((s.space p).regions j).va / 4096

def Only (garbage : ℕ → Bool) (s : Vm) (p c : Pid) (i : ℕ) (done : ℕ → Prop) (u : Vm) : Prop :=
  ∀ v, (u.entry c v).v = true → (u.entry c v).u = true → Sourced garbage s p i done v

lemma Sourced.mono {k : ℕ} {done' : ℕ → Prop} (h : Sourced garbage s p i done v) (hi : i ≤ k)
    (hd : done v → done' v) : Sourced garbage s p k done' v := by
  rcases h with h | ⟨h, hs⟩ | ⟨j, hj, hs⟩
  · exact .inl h
  · exact .inr (.inl ⟨hd h, hs⟩)
  · exact .inr (.inr ⟨j, by omega, hs⟩)

lemma Only.mono {k : ℕ} {done' : ℕ → Prop} (h : Only garbage s p c i done u) (hi : i ≤ k)
    (hd : ∀ v, done v → done' v) (he : ∀ v, t.entry c v = u.entry c v) : Only garbage s p c k done' t := by
  intro v hv hu
  rw [he] at hv hu
  exact (h v hv hu).mono hi (hd v)

namespace Twin

lemma advance (h : Twin garbage s p c st i done u) (hframe : 1 ≤ i → (u.space c).frame.set .a0 0 = (s.space p).frame.set .a0 0)
    (hcopied : lookupPa s p (userStackTop - 4096) ≠ 0 ∧ SameBytes u st s (lookupPa s p (userStackTop - 4096)))
    (hcode : ((s.space p).regions i).segType = .code →
      u.entry c (((s.space p).regions i).va / 4096) = Pte.leaf (lookupPa s p ((s.space p).regions i).va) userRx)
    (hdata : ((s.space p).regions i).segType = .data → lookupPa s p ((s.space p).regions i).va ≠ 0 ∧
      ∃ f, u.entry c (((s.space p).regions i).va / 4096) = Pte.leaf f userRw ∧ f % 4096 = 0 ∧ f ∈ s.frees ∧
        f ∉ u.frees ∧ SameBytes u f s (lookupPa s p ((s.space p).regions i).va)) :
    Twin garbage s p c st (i + 1) done u :=
  { h with
    frame := fun hi => hframe (by omega)
    copied := fun _ => hcopied
    code := fun j hj hs => by
      rcases Nat.lt_succ_iff_lt_or_eq.mp hj with hj | rfl
      · exact h.code j hj hs
      · exact hcode hs
    data := fun j hj hs => by
      rcases Nat.lt_succ_iff_lt_or_eq.mp hj with hj | rfl
      · exact h.data j hj hs
      · exact hdata hs }

lemma mark (h : Twin garbage s p c st i done u) (hpc : c ≠ p) (hnew : ¬ done v) (hs : Shared s p garbage v)
    (hc : u.entry c v = Pte.leaf (lookupPa s p (v * 4096)) cowPerm ∨ (u.frees = [] ∧ ¬ (u.space c).pagetable.Has v)) :
    Twin garbage s p c st i (fun w => done w ∨ w = v) (u.setTable p (·.setPte v (s.entry p v).shared)) := by
  have hkept := h.kept v fun hd => hnew hd.1
  have hvalid : (s.entry p v).v = true := by
    obtain ⟨-, hv, -⟩ := lookupPa_ne_zero hs.2.2.2
    rwa [Nat.mul_div_cancel _ (by norm_num)] at hv
  have hhas : (u.space p).pagetable.Has v := PageTable.has_of_valid (by rw [← hkept] at hvalid; exact hvalid)
  have hchild : (u.setTable p (·.setPte v (s.entry p v).shared)).space c = u.space c := by simp [Vm.setTable, hpc]
  have hentry : (u.setTable p (·.setPte v (s.entry p v).shared)).entry p = update (u.entry p) v (s.entry p v).shared := by
    funext w
    simp only [Vm.entry, Vm.setTable, Vm.setSpace_self]
    rw [PageTable.entry_setPte hhas]
    rfl
  have hchild' : ∀ w, (u.setTable p (·.setPte v (s.entry p v).shared)).entry c w = u.entry c w := fun w => by
    rw [Vm.entry, hchild]
    rfl
  refine ⟨h.free, h.bytes, h.drawn, ?_, ?_, ?_, ?_, ?_, ?_, ?_, ?_, h.copied, ?_, ?_, ?_⟩
  · simp only [Vm.setTable, Vm.setSpace_self]
    rw [h.parent]
  · intro w hw
    rw [hentry, update_of_ne (fun hwv => hw ⟨.inr hwv, hwv ▸ hs⟩)]
    exact h.kept w fun hd => hw ⟨.inl hd.1, hd.2⟩
  · intro w hd hsw
    rw [hentry]
    by_cases hwv : w = v
    · rw [hwv, update_self]
    · rw [update_of_ne hwv]
      exact h.marked w (hd.resolve_right hwv) hsw
  · rw [hchild]
    exact h.size
  · rw [hchild]
    exact h.region
  · rw [hchild]
    exact h.total
  · rw [hchild]
    exact h.frame
  · rw [hchild']
    exact h.stack
  · intro w hd hsw
    rw [hchild', hchild]
    rcases hd with hd | rfl
    · exact h.shares w hd hsw
    · exact hc
  · simpa only [hchild'] using h.code
  · intro j hj hs
    rw [hchild']
    exact h.data j hj hs

lemma congr (h : Twin garbage s p c st i done u) (hmem : t.mem = u.mem) (hspace : t.space = u.space)
    (hfree : t.frees = u.frees) : Twin garbage s p c st i done t := by
  have hentry : ∀ q v, t.entry q v = u.entry q v := fun q v => by rw [Vm.entry, hspace]; rfl
  have hbytes : ∀ {f g}, SameBytes u f s g → SameBytes t f s g := fun hb => (SameBytes.of_mem hmem).trans hb
  refine ⟨hfree ▸ h.free, fun f hf hm => hbytes (h.bytes f hf hm), by rw [hfree]; exact h.drawn, hspace ▸ h.parent,
    ?_, ?_, hspace ▸ h.size, hspace ▸ h.region, hspace ▸ h.total, hspace ▸ h.frame, ?_,
    fun hi => ⟨(h.copied hi).1, hbytes (h.copied hi).2⟩, ?_, ?_, ?_⟩
  · simpa only [hentry] using h.kept
  · simpa only [hentry] using h.marked
  · rw [hentry]
    exact h.stack
  · rw [hfree, hspace]
    simpa only [hentry] using h.shares
  · simpa only [hentry] using h.code
  · intro j hj hs
    obtain ⟨hne, f, hf, hal, hmem', hnot, hb⟩ := h.data j hj hs
    exact ⟨hne, f, by rw [hentry, hf], hal, hmem', by rwa [hfree], hbytes hb⟩

lemma regions (h : Twin garbage s p c st i done u) : (u.space p).regions = (s.space p).regions := by rw [h.parent]

lemma heap (h : Twin garbage s p c st i done u) : (u.space p).userHeap = (s.space p).userHeap := by rw [h.parent]

end Twin

section Regions

variable (hpc : c ≠ p) (hclear : ∀ v, (s.entry p v).v = true → (s.entry p v).pa ∉ s.frees)
  (hready : Ready (s.space p))

end Regions

end Pke.Memory
