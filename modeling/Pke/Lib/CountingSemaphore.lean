import Mathlib.Tactic

/-! A counting semaphore with first-come waiting, and the account of its posts and passes. -/

namespace Pke.Lib

variable {α : Type}

structure Counting (α : Type) where
  value : ℤ
  waiting : List α
  posted : ℕ
  passed : ℕ

namespace Counting

def acquire (c : Counting α) (a : α) : Counting α :=
  if 0 < c.value then { c with value := c.value - 1, passed := c.passed + 1 }
  else { c with waiting := c.waiting ++ [a] }

def release (c : Counting α) : Counting α :=
  match c.waiting with
  | [] => { c with value := c.value + 1, posted := c.posted + 1 }
  | _ :: l => { c with waiting := l, posted := c.posted + 1, passed := c.passed + 1 }

structure Balanced (v : ℤ) (c : Counting α) : Prop where
  value : c.value = v + c.posted - c.passed
  nonneg : 0 ≤ c.value
  waiting : c.waiting ≠ [] → c.value = 0

variable {v : ℤ} {c : Counting α}

lemma balanced_new (hv : 0 ≤ v) : Balanced v (⟨v, [], 0, 0⟩ : Counting α) where
  value := by simp
  nonneg := hv
  waiting h := absurd rfl h

lemma Balanced.acquire (h : Balanced v c) (a : α) : Balanced v (c.acquire a) := by
  have hval := h.value
  unfold Counting.acquire
  split_ifs with hc
  · refine ⟨?_, ?_, fun hw => ?_⟩
    · push_cast
      omega
    · change 0 ≤ c.value - 1
      omega
    · have := h.waiting hw
      omega
  · refine ⟨hval, h.nonneg, fun _ => ?_⟩
    have := h.nonneg
    change c.value = 0
    omega

lemma Balanced.release (h : Balanced v c) : Balanced v c.release := by
  have hval := h.value
  unfold Counting.release
  cases hw : c.waiting with
  | nil =>
    refine ⟨?_, ?_, fun hne => absurd rfl hne⟩
    · push_cast
      omega
    · have := h.nonneg
      change 0 ≤ c.value + 1
      omega
  | cons a l =>
    refine ⟨?_, h.nonneg, fun _ => h.waiting (by simp [hw])⟩
    push_cast
    omega

end Counting

end Pke.Lib
