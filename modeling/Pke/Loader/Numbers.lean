import Pke.Loader.Dwarf

namespace Pke.Loader

open Lib

variable {b : UInt8} {n : ℕ} {v : ℤ}

theorem readUleb128_inverts (v : UInt64) (x : Leb) (r : List UInt8) (hlen : x.1.length ≤ 10) (hx : lebNat x = v.toNat) :
    readUleb128 (x ++ r) = .ok (v, r) := by
  apply readUleb128_iff.mpr
  refine ⟨x, rfl, ?_⟩
  rw [ulebValue_eq (by omega), pow_zero, one_mul, hx, UInt64.ofNat_toNat]

theorem readUleb128_inverts_padded : readUleb128 ([0xE5, 0x8E, 0x26] ++ [7]) = .ok (624485, [7]) ∧
    readUleb128 ([0xE5, 0x8E, 0xA6, 0x80, 0x00] ++ [7]) = .ok (624485, [7]) := by
  have hshort : IsLeb [0xE5, 0x8E, 0x26] := .more (by decide) (.more (by decide) (.last (by decide)))
  have hlong : IsLeb [0xE5, 0x8E, 0xA6, 0x80, 0x00] :=
    .more (by decide) (.more (by decide) (.more (by decide) (.more (by decide) (.last (by decide)))))
  constructor
  · exact readUleb128_inverts 624485 ⟨_, hshort⟩ [7] (by norm_num) rfl
  · exact readUleb128_inverts 624485 ⟨_, hlong⟩ [7] (by norm_num) rfl

lemma le_signBits (hb : b &&& 0x40 ≠ 0) (hle : 5 ≤ n) (hlt : n < 10) : 2 ^ 64 - 2 ^ (7 * n - 8) ≤ (signBits b (7 * n)).toNat := by
  rw [signBits, if_pos ⟨by omega, hb⟩]
  interval_cases n <;> decide

lemma toNat_ofInt_of_neg (hneg : v < 0) (hle : -2 ^ 63 ≤ v) : ((UInt64.ofInt v).toNat : ℤ) = v + 2 ^ 64 := by
  rw [UInt64.ofInt, UInt64.toNat_ofNat']
  omega

lemma slebValue_slebEncode_ne (hle : -2 ^ 63 ≤ v) (hlow : -2 ^ 62 ≤ v) (hneg : v < -2 ^ 27) :
    slebValue 0 (slebEncode v) ≠ UInt64.ofInt v := by
  have hleb := isLeb_slebEncode v
  have hmost : (slebEncode v).length ≤ 9 := length_slebEncode_le (n := 8) (by omega)
  have hrange := lebInt_range hleb
  rw [lebInt_slebEncode] at hrange
  have hleast : 5 ≤ (slebEncode v).length := by
    by_contra hfew
    have hpow : (128 : ℤ) ^ ((slebEncode v).length - 1) ≤ 128 ^ 3 := pow_le_pow_right₀ (by norm_num) (by omega)
    omega
  -- a shorter encoding would do if `v` were not below the least number of one group less
  have hbelow : v < -2 ^ (7 * (slebEncode v).length - 8) := by
    by_contra hno
    have hpow : (2 : ℤ) ^ (7 * (slebEncode v).length - 8) = 64 * 128 ^ ((slebEncode v).length - 2) := by
      rw [show 7 * (slebEncode v).length - 8 = 6 + 7 * ((slebEncode v).length - 2) by omega, pow_add, pow_mul]
      norm_num
    have hshort := length_slebEncode_le (v := v) (n := (slebEncode v).length - 2) (by rw [hpow] at hno; have := pow_pos (show (0 : ℤ) < 128 by norm_num) ((slebEncode v).length - 2); omega)
    omega
  obtain ⟨b, hb, hval⟩ := slebValue_eq_or (n := 0) hleb
  have hsign : b &&& 0x40 ≠ 0 := by
    obtain ⟨c, hc, hbit⟩ := lebInt_neg_iff.mp (show lebInt (slebEncode v) < 0 by rw [lebInt_slebEncode]; omega)
    rw [Option.mem_def] at hb hc
    rw [hb, Option.some.injEq] at hc
    exact hc ▸ hbit
  have hbits := le_signBits (n := (slebEncode v).length) hsign hleast (by omega)
  have hor : (signBits b (7 * (slebEncode v).length)).toNat ≤ (slebValue 0 (slebEncode v)).toNat := by
    rw [hval, Nat.zero_add, UInt64.toNat_or]
    exact Nat.right_le_or
  intro heq
  have hnat := toNat_ofInt_of_neg (v := v) (by omega) hle
  rw [← heq] at hnat
  have hcast : ((2 ^ (7 * (slebEncode v).length - 8) : ℕ) : ℤ) = 2 ^ (7 * (slebEncode v).length - 8) := by push_cast; rfl
  omega

/-- The minimal encoding is read back unless it has five to nine bytes and the number is negative. -/
theorem readSleb128_inverts_iff (v : Int64) (r : List UInt8) :
    readSleb128 (slebEncode v.toInt ++ r) = .ok (UInt64.ofInt v.toInt, r) ↔ -2 ^ 27 ≤ v.toInt ∨ v.toInt < -2 ^ 62 := by
  have hleast := v.le_toInt
  have hmost := v.toInt_lt
  have hleb := isLeb_slebEncode v.toInt
  have hdone : readSleb128 (slebEncode v.toInt ++ r) = .ok (slebValue 0 (slebEncode v.toInt), r) := readSleb128_append ⟨_, hleb⟩
  rw [hdone]
  constructor
  · intro h
    by_contra hno
    apply slebValue_slebEncode_ne (v := v.toInt) (by omega) (by omega) (by omega)
    simpa using h
  · intro h
    have hlen : (slebEncode v.toInt).length ≤ 10 := length_slebEncode_le (n := 9) (by omega)
    have hread : SlebRead (slebEncode v.toInt) := by
      rcases h with h | h
      · by_cases hneg : v.toInt < 0
        · exact .inl (length_slebEncode_le (n := 3) (by omega))
        · refine .inr (.inr ⟨hlen, ?_⟩)
          rwa [← lebInt_neg_iff, lebInt_slebEncode]
      · refine .inr (.inl (Nat.le_antisymm hlen ?_))
        by_contra hfew
        have hrange := lebInt_range hleb
        have hpow : (128 : ℤ) ^ ((slebEncode v.toInt).length - 1) ≤ 128 ^ 8 := pow_le_pow_right₀ (by norm_num) (by omega)
        rw [lebInt_slebEncode] at hrange
        omega
    rw [slebValue_eq hleb hread, lebInt_slebEncode]

theorem readSleb128_of_five_groups : (-134217729 : Int64).toInt = -2 ^ 27 - 1 ∧ slebEncode (-2 ^ 27 - 1) = [0xFF, 0xFF, 0xFF, 0xBF, 0x7F] ∧
    readSleb128 ([0xFF, 0xFF, 0xFF, 0xBF, 0x7F] ++ [7]) = .ok (UInt64.ofInt (-1), [7]) ∧
    readSleb128 (slebEncode (-2 ^ 27 - 1) ++ [7]) ≠ .ok (UInt64.ofInt (-2 ^ 27 - 1), [7]) := by
  have henc : slebEncode (-2 ^ 27 - 1) = [0xFF, 0xFF, 0xFF, 0xBF, 0x7F] := by simp [slebEncode]
  rw [henc]
  exact ⟨by decide, rfl, by decide, by decide⟩

end Pke.Loader
