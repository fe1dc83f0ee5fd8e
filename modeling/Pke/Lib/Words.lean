import Mathlib.Data.Nat.Digits.Lemmas
import Mathlib.Tactic

/-! Little-endian 64-bit words in a byte memory, and pages of 4096 bytes as tables of 512 words. -/

namespace Pke.Lib

variable {mem mem' : ℕ → UInt8} {a b v : ℕ}

def load64 (mem : ℕ → UInt8) (a : ℕ) : ℕ := Nat.ofDigits 256 ((List.range 8).map fun i => (mem (a + i)).toNat)

def store64 (mem : ℕ → UInt8) (a v : ℕ) : ℕ → UInt8 := fun x =>
  if a ≤ x ∧ x < a + 8 then UInt8.ofNat (v / 256 ^ (x - a)) else mem x

lemma ofDigits_div_range (v n : ℕ) :
    Nat.ofDigits 256 ((List.range n).map fun i => v / 256 ^ i % 256) = v % 256 ^ n := by
  induction n with
  | zero => simp [Nat.mod_one]
  | succ n ih =>
    rw [List.range_succ, List.map_append, Nat.ofDigits_append, ih]
    simp [Nat.mod_pow_succ]

lemma load64_congr (h : ∀ i < 8, mem (a + i) = mem' (a + i)) : load64 mem a = load64 mem' a := by
  unfold load64
  congr 1
  apply List.map_congr_left
  intro i hi
  rw [h i (List.mem_range.mp hi)]

lemma load64_store64_self (mem : ℕ → UInt8) (a : ℕ) (hv : v < 2 ^ 64) : load64 (store64 mem a v) a = v := by
  have hdigits : (List.range 8).map (fun i => (store64 mem a v (a + i)).toNat) =
      (List.range 8).map fun i => v / 256 ^ i % 256 := by
    apply List.map_congr_left
    intro i hi
    have hi8 := List.mem_range.mp hi
    simp [store64, hi8]
  rw [load64, hdigits, ofDigits_div_range]
  exact Nat.mod_eq_of_lt (by simpa using hv)

lemma store64_apply (h : b < a ∨ a + 8 ≤ b) : store64 mem a v b = mem b := by
  unfold store64
  rw [if_neg (by omega)]

lemma load64_store64 (mem : ℕ → UInt8) (v : ℕ) (h : b + 8 ≤ a ∨ a + 8 ≤ b) :
    load64 (store64 mem a v) b = load64 mem b := by
  apply load64_congr
  intro i hi
  exact store64_apply (by omega)

section Tables

variable {pt qt i j : ℕ}

def slot (pt i : ℕ) : ℕ := pt + 8 * i

def clearPage (mem : ℕ → UInt8) (pa : ℕ) : ℕ → UInt8 := fun x => if pa ≤ x ∧ x < pa + 4096 then 0 else mem x

lemma load64_zero (h : ∀ i < 8, mem (a + i) = 0) : load64 mem a = 0 := by
  have hz : load64 mem a = load64 (fun _ => 0) a := load64_congr h
  rw [hz]
  simp [load64, List.range_succ, Nat.ofDigits_cons]

lemma load64_clearPage_self (mem : ℕ → UInt8) (pt : ℕ) (hi : i < 512) :
    load64 (clearPage mem pt) (slot pt i) = 0 := by
  apply load64_zero
  intro k hk
  rw [clearPage, slot, if_pos (by omega)]

lemma load64_clearPage_of_ne (mem : ℕ → UInt8) (hp : pt % 4096 = 0) (hq : qt % 4096 = 0) (hne : qt ≠ pt)
    (hi : i < 512) : load64 (clearPage mem pt) (slot qt i) = load64 mem (slot qt i) := by
  apply load64_congr
  intro k hk
  rw [clearPage, slot, if_neg (by omega)]

lemma load64_store64_slot (mem : ℕ → UInt8) (v : ℕ) (hp : pt % 4096 = 0) (hq : qt % 4096 = 0) (hi : i < 512)
    (hj : j < 512) (hne : qt = pt → j ≠ i) :
    load64 (store64 mem (slot pt i) v) (slot qt j) = load64 mem (slot qt j) := by
  apply load64_store64
  unfold slot
  omega

end Tables

attribute [irreducible] load64 store64

end Pke.Lib
