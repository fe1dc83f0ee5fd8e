import Mathlib.Data.List.Basic
import Mathlib.Tactic

/-! Numbers in LEB128: groups of seven bits, with the highest bit set in each byte but the last. -/

namespace Pke.Lib

inductive IsLeb : List UInt8 → Prop
  | last {b : UInt8} (h : b &&& 0x80 = 0) : IsLeb [b]
  | more {b : UInt8} {l : List UInt8} (h : b &&& 0x80 ≠ 0) (hl : IsLeb l) : IsLeb (b :: l)

abbrev Leb := {l : List UInt8 // IsLeb l}

lemma leb_or_unfinished (l : List UInt8) : (∃ x : Leb, ∃ r, l = x ++ r) ∨ ∀ b ∈ l, b &&& 0x80 ≠ 0 := by
  induction l with
  | nil => exact .inr nofun
  | cons b l ih =>
    by_cases hb : b &&& 0x80 = 0
    · exact .inl ⟨⟨[b], .last hb⟩, l, rfl⟩
    · rcases ih with ⟨⟨x, hx⟩, r, rfl⟩ | hl
      · exact .inl ⟨⟨b :: x, .more hb hx⟩, r, rfl⟩
      · exact .inr (List.forall_mem_cons.mpr ⟨hb, hl⟩)

def lebNat : List UInt8 → ℕ
  | [] => 0
  | b :: l => b.toNat % 128 + 128 * lebNat l

def lebNegative (l : List UInt8) : Prop := ∃ b ∈ l.getLast?, b &&& 0x40 ≠ 0

instance (l : List UInt8) : Decidable (lebNegative l) := inferInstanceAs (Decidable (∃ b ∈ l.getLast?, b &&& 0x40 ≠ 0))

def lebInt (l : List UInt8) : ℤ := if lebNegative l then lebNat l - 128 ^ l.length else lebNat l

lemma lebNat_lt (l : List UInt8) : lebNat l < 128 ^ l.length := by
  induction l with
  | nil => exact Nat.zero_lt_one
  | cons b l ih =>
    rw [lebNat, List.length_cons, Nat.pow_succ]
    omega

lemma IsLeb.length_pos {l : List UInt8} (h : IsLeb l) : 0 < l.length := by
  cases h with
  | last => exact Nat.zero_lt_one
  | more => exact Nat.succ_pos _

section Signed

variable {b : UInt8} {l : List UInt8} {v : ℤ} {n : ℕ}

lemma IsLeb.ne_nil (h : IsLeb l) : l ≠ [] := List.ne_nil_of_length_pos h.length_pos

lemma and_high_eq_zero (h : n < 128) : UInt8.ofNat n &&& 0x80 = 0 := by
  have hall : ∀ i : Fin 128, UInt8.ofNat i.val &&& 0x80 = 0 := by decide
  exact hall ⟨n, h⟩

lemma and_high_ne_zero (h : n < 128) : UInt8.ofNat (n + 128) &&& 0x80 ≠ 0 := by
  have hall : ∀ i : Fin 128, UInt8.ofNat (i.val + 128) &&& 0x80 ≠ 0 := by decide
  exact hall ⟨n, h⟩

lemma and_sign_iff (h : b &&& 0x80 = 0) : b &&& 0x40 ≠ 0 ↔ 64 ≤ b.toNat % 128 := by
  have hall : ∀ i : Fin 256, UInt8.ofNat i.val &&& 0x80 = 0 → (UInt8.ofNat i.val &&& 0x40 ≠ 0 ↔ 64 ≤ i.val % 128) := by
    decide +kernel
  have hb := hall ⟨b.toNat, b.toNat_lt⟩
  simp only [UInt8.ofNat_toNat] at hb
  exact hb h

lemma lebNegative_cons (hl : l ≠ []) : lebNegative (b :: l) ↔ lebNegative l := by
  cases l with
  | nil => exact absurd rfl hl
  | cons c l => simp [lebNegative, List.getLast?_cons_cons]

lemma lebInt_single (h : b &&& 0x80 = 0) : lebInt [b] = if 64 ≤ b.toNat % 128 then (b.toNat % 128 : ℤ) - 128 else b.toNat % 128 := by
  have hneg : lebNegative [b] ↔ 64 ≤ b.toNat % 128 := by
    rw [← and_sign_iff h]
    simp [lebNegative]
  simp [lebInt, lebNat, hneg]

lemma lebInt_cons (hl : l ≠ []) : lebInt (b :: l) = b.toNat % 128 + 128 * lebInt l := by
  simp only [lebInt, lebNegative_cons hl, lebNat, List.length_cons]
  split
  · push_cast
    ring
  · push_cast
    ring

lemma lebInt_range (h : IsLeb l) : -(64 * 128 ^ (l.length - 1)) ≤ lebInt l ∧ lebInt l < 64 * 128 ^ (l.length - 1) := by
  induction h with
  | @last b hb =>
    rw [lebInt_single hb]
    simp only [List.length_singleton, Nat.sub_self, pow_zero]
    split <;> omega
  | @more b l _ hl ih =>
    obtain ⟨n, hn⟩ := Nat.exists_eq_add_of_lt hl.length_pos
    rw [lebInt_cons hl.ne_nil, List.length_cons, Nat.add_sub_cancel, hn]
    rw [hn] at ih
    simp only [Nat.zero_add, Nat.add_sub_cancel, pow_succ] at ih ⊢
    omega

lemma lebInt_neg_iff : lebInt l < 0 ↔ lebNegative l := by
  have hlt := lebNat_lt l
  rw [lebInt]
  split
  · next hneg => exact iff_of_true (by push_cast [← Int.ofNat_lt] at hlt ⊢; omega) hneg
  · next hneg => exact iff_of_false (by omega) hneg

def slebEncode (v : ℤ) : List UInt8 :=
  if -64 ≤ v ∧ v < 64 then [UInt8.ofNat (v % 128).toNat]
  else UInt8.ofNat ((v % 128).toNat + 128) :: slebEncode (v / 128)
termination_by v.natAbs
decreasing_by omega

lemma isLeb_slebEncode (v : ℤ) : IsLeb (slebEncode v) := by
  fun_induction slebEncode v with
  | case1 v => exact .last (and_high_eq_zero (by omega))
  | case2 v _ ih => exact .more (and_high_ne_zero (by omega)) ih

lemma lebInt_slebEncode (v : ℤ) : lebInt (slebEncode v) = v := by
  fun_induction slebEncode v with
  | case1 v h =>
    rw [lebInt_single (and_high_eq_zero (by omega)), UInt8.toNat_ofNat']
    split <;> omega
  | case2 v _ ih =>
    rw [lebInt_cons (isLeb_slebEncode _).ne_nil, ih, UInt8.toNat_ofNat']
    omega

lemma length_slebEncode_le (h : -(64 * 128 ^ n) ≤ v ∧ v < 64 * 128 ^ n) : (slebEncode v).length ≤ n + 1 := by
  induction n generalizing v with
  | zero =>
    rw [slebEncode, if_pos (by simpa using h)]
    rfl
  | succ n ih =>
    rw [slebEncode]
    split
    · exact Nat.succ_le_succ (Nat.zero_le _)
    · rw [List.length_cons]
      apply Nat.succ_le_succ
      apply ih
      rw [pow_succ] at h
      omega

lemma slebEncode_shortest (h : IsLeb l) : (slebEncode (lebInt l)).length ≤ l.length := by
  have hlen := length_slebEncode_le (lebInt_range h)
  have hpos := h.length_pos
  omega

end Signed

end Pke.Lib
