import Pke.Memory.Pages

namespace Pke.Memory

open Lib Flow Function Processes

namespace PageTable

variable {t : PageTable} {v : ℕ}

def Has (t : PageTable) (v : ℕ) : Prop := (t.mid (v / 512 / 512)).isSome ∧ (t.low (v / 512)).isSome

instance (t : PageTable) (v : ℕ) : Decidable (t.Has v) := inferInstanceAs (Decidable (_ ∧ _))

lemma walk_eq (t : PageTable) (va : ℕ) :
    t.walk va = if t.Has (va / 4096) then some (va / 4096) else none := by
  have hmid : va / 2 ^ 30 = va / 4096 / 512 / 512 := by omega
  have hlow : va / 2 ^ 21 = va / 4096 / 512 := by omega
  rw [walk, hmid, hlow]
  rfl

lemma entry_eq (t : PageTable) (v : ℕ) : t.entry v = if t.Has v then t.pte v else {} := by
  rw [entry, walk_eq, Nat.mul_div_cancel _ (by norm_num)]
  split_ifs <;> rfl

lemma entry_of_has (h : t.Has v) : t.entry v = t.pte v := by rw [entry_eq, if_pos h]

lemma has_of_valid (h : (t.entry v).v = true) : t.Has v := by
  by_contra hn
  rw [entry_eq, if_neg hn] at h
  exact Bool.false_ne_true h

@[simp] lemma entry_dir (pa v : ℕ) : entry { dir := pa } v = {} := by
  rw [entry_eq, if_neg (by simp [Has])]

@[simp] lemma has_setPte (t : PageTable) (v : ℕ) (e : Pte) (w : ℕ) : (t.setPte v e).Has w ↔ t.Has w := Iff.rfl

lemma entry_setPte (h : t.Has v) (e : Pte) : (t.setPte v e).entry = update t.entry v e := by
  funext w
  by_cases hw : w = v
  · subst hw
    rw [update_self, entry_of_has (by exact h)]
    simp [setPte]
  · rw [update_of_ne hw, entry_eq, entry_eq]
    simp [setPte, hw, Has]
    rfl

lemma entry_addMid {i : ℕ} (h : t.mid i = none) (pa : ℕ) : (t.addMid i pa).entry = t.entry := by
  funext v
  by_cases hv : v / 512 / 512 = i
  · have hnew : ¬ (t.addMid i pa).Has v := by simp [Has, addMid, hv]
    have hold : ¬ t.Has v := by simp [Has, hv, h]
    rw [entry_eq, entry_eq, if_neg hnew, if_neg hold]
  · have hsame : (t.addMid i pa).Has v ↔ t.Has v := by simp only [Has, addMid, update_of_ne hv, if_neg hv]
    rw [entry_eq, entry_eq]
    simp only [hsame]
    rfl

lemma entry_addLow {j : ℕ} (h : t.low j = none) (pa : ℕ) : (t.addLow j pa).entry = t.entry := by
  funext v
  by_cases hv : v / 512 = j
  · have hold : ¬ t.Has v := by simp [Has, hv, h]
    have hnew : (t.addLow j pa).pte v = {} := by simp [addLow, hv]
    rw [entry_eq, entry_eq, if_neg hold, hnew, ite_self]
  · have hsame : (t.addLow j pa).Has v ↔ t.Has v := by simp only [Has, addLow, update_of_ne hv]
    have hpte : (t.addLow j pa).pte v = t.pte v := by simp [addLow, hv]
    rw [entry_eq, entry_eq, hpte]
    simp only [hsame]

def lowAt (t : PageTable) (j : ℕ) : Option ℕ := if (t.mid (j / 512)).isSome then t.low j else none

lemma lowAt_addMid {i : ℕ} (h : t.mid i = none) (pa : ℕ) : (t.addMid i pa).lowAt = t.lowAt := by
  funext j
  by_cases hj : j / 512 = i
  · simp [lowAt, addMid, hj, h]
  · simp [lowAt, addMid, hj]

lemma lowAt_addLow {j : ℕ} (h : (t.mid (j / 512)).isSome) (pa : ℕ) :
    (t.addLow j pa).lowAt = update t.lowAt j (some pa) := by
  funext k
  by_cases hk : k = j
  · subst hk
    simp [lowAt, addLow, h]
  · simp [lowAt, addLow, hk]

end PageTable

lemma wp_pageWalk_false {p : Pid} {va : ℕ} {s : Vm} {Q : Option ℕ → Vm → Prop} {E : Vm → Prop} : wp (pageWalk p va false) Q E s ↔
    (maxva ≤ va → E s) ∧ (va < maxva → Q ((s.space p).pagetable.walk va) s) := by
  unfold pageWalk walkLevel
  rw [wp_ite, not_le]
  refine and_congr_right fun _ => forall_congr' fun _ => ?_
  simp only [wp_bind, wp_get, PageTable.walk]
  generalize va / 2 ^ 30 = i
  generalize va / 2 ^ 21 = j
  cases (s.space p).pagetable.mid i with
  | none => simp
  | some f =>
    cases hl : (s.space p).pagetable.low j with
    | none => simp [hl]
    | some g => simp [hl]

lemma pagesBelow_page {va : ℕ} (hva : va % 4096 = 0) (hlt : va < 2 ^ 64) :
    pagesBelow (roundDown va) (roundDown (u64 (va + 4096 + (2 ^ 64 - 1))) + 1) = [va] := by
  have hlast : roundDown (u64 (va + 4096 + (2 ^ 64 - 1))) = va := by
    unfold roundDown u64
    omega
  have hfirst : roundDown va = va := by
    unfold roundDown
    omega
  rw [hlast, hfirst, pagesBelow]
  have : (va + 1 - va + 4095) / 4096 = 1 := by omega
  rw [this]
  simp

lemma pagesBelow_beyond {va : ℕ} (hva : va % 4096 = 0) (hle : 2 ^ 64 ≤ va) :
    pagesBelow (roundDown va) (roundDown (u64 (va + 4096 + (2 ^ 64 - 1))) + 1) = [] := by
  have hlast : roundDown (u64 (va + 4096 + (2 ^ 64 - 1))) + 1 - roundDown va + 4095 < 4096 := by
    unfold roundDown u64
    omega
  rw [pagesBelow, Nat.div_eq_of_lt hlast]
  rfl

end Pke.Memory
