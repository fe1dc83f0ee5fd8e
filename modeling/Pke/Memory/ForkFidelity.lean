import Pke.Memory.ForkImage
import Pke.Memory.UseAfterFree

namespace Pke.Memory

open Lib Flow Function Processes Machine

variable {s t u : Vm} {p c : Pid} {garbage : ℕ → Bool} {v st : ℕ}

def Pte.user (e : Pte) : Bool := e.v && e.u

lemma SameBytes.symm {f g : ℕ} (h : SameBytes t f s g) : SameBytes s g t f := fun o ho => (h o ho).symm

namespace Twin

variable {k : ℕ}

end Twin

lemma Ready.lookup (h : Ready (s.space p)) {va : ℕ} (hlt : va < maxva) (hv : (s.entry p (va / 4096)).v = true) :
    lookupPa s p va = (s.entry p (va / 4096)).pa := by
  have hr : (s.entry p (va / 4096)).r = true := by
    have hhas := PageTable.has_of_valid hv
    rw [Vm.entry, PageTable.entry_of_has hhas] at hv ⊢
    exact h.readable _ hv
  rw [lookupPa_eq, if_pos ⟨hlt, hv, .inl hr⟩]

section Fidelity

variable {live : Finset Pid} {n : ℕ} (o : Owned live noHand n s) (hp : p ∈ live) (hready : Ready (s.space p))
  (hclear : ∀ v, (s.entry p v).v = true → (s.entry p v).pa ∉ s.frees)
  (h : Twin garbage s p c st (s.space p).totalMappedRegion (fun _ => True) u)
  (ho : Only garbage s p c (s.space p).totalMappedRegion (fun _ => True) u)

end Fidelity

lemma Sound.clear {s : Machine} (h : Sound s) (hp : s.phase p = .active) (v : ℕ) (hv : (s.vm.entry p v).v = true) :
    (s.vm.entry p v).pa ∉ s.vm.frees := fun hmem =>
  h.owned.not_uses hmem (by simp [hp]) (.inl ⟨v, hv, rfl⟩)

end Pke.Memory
