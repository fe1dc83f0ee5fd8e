import Mathlib.Tactic

/-! Signed integers of four bytes and zero-terminated strings in an array of bytes. -/

namespace Pke.Lib

open Function

section Ints

variable {b c : ℕ → UInt8} {a k : ℕ} {v : ℤ}

def load32 (b : ℕ → UInt8) (a : ℕ) : ℤ :=
  let n := (b a).toNat + 256 * (b (a + 1)).toNat + 65536 * (b (a + 2)).toNat + 16777216 * (b (a + 3)).toNat
  if n < 2 ^ 31 then n else n - 2 ^ 32

def byte32 (v : ℤ) (i : ℕ) : UInt8 := UInt8.ofNat ((v % 2 ^ 32).toNat / 256 ^ i)

def store32 (b : ℕ → UInt8) (a : ℕ) (v : ℤ) : ℕ → UInt8 :=
  fun x => if a ≤ x ∧ x < a + 4 then byte32 v (x - a) else b x

lemma load32_congr (h : ∀ i < 4, b (a + i) = c (k + i)) : load32 b a = load32 c k := by
  have h0 := h 0 (by norm_num)
  have h1 := h 1 (by norm_num)
  have h2 := h 2 (by norm_num)
  have h3 := h 3 (by norm_num)
  rw [Nat.add_zero, Nat.add_zero] at h0
  rw [load32, load32, h0, h1, h2, h3]

lemma load32_bytes (hv : -2 ^ 31 ≤ v ∧ v < 2 ^ 31) (h : ∀ i < 4, b (a + i) = byte32 v i) : load32 b a = v := by
  have h0 := h 0 (by norm_num)
  have h1 := h 1 (by norm_num)
  have h2 := h 2 (by norm_num)
  have h3 := h 3 (by norm_num)
  rw [Nat.add_zero] at h0
  rw [load32, h0, h1, h2, h3]
  simp only [byte32, UInt8.toNat_ofNat']
  norm_num at hv ⊢
  split <;> omega

lemma load32_store32 (hv : -2 ^ 31 ≤ v ∧ v < 2 ^ 31) : load32 (store32 b a v) a = v := by
  apply load32_bytes hv
  intro i hi
  rw [store32, if_pos (by omega), Nat.add_sub_cancel_left]

lemma store32_apply (h : k < a ∨ a + 4 ≤ k) : store32 b a v k = b k := by
  rw [store32, if_neg (by omega)]

end Ints

section Strings

variable {b c : ℕ → UInt8} {a i k n : ℕ} {s : List UInt8}

/-- `strcmp` with the string at `a` answers 0. -/
def hasString (b : ℕ → UInt8) : ℕ → List UInt8 → Bool
  | a, [] => b a == 0
  | a, x :: s => b a == x && hasString b (a + 1) s

/-- `strcpy` to `a`. -/
def putString (b : ℕ → UInt8) : ℕ → List UInt8 → ℕ → UInt8
  | a, [] => update b a 0
  | a, x :: s => update (putString b (a + 1) s) a x

/-- The string at `a`, if it ends within `n` bytes, and else those bytes. -/
def readString (b : ℕ → UInt8) : ℕ → ℕ → List UInt8
  | _, 0 => []
  | a, n + 1 => if b a = 0 then [] else b a :: readString b (a + 1) n

lemma putString_apply (h : i < a ∨ a + s.length < i) : putString b a s i = b i := by
  induction s generalizing a with
  | nil =>
    rw [List.length_nil] at h
    exact update_of_ne (by omega) _ _
  | cons x s ih =>
    rw [List.length_cons] at h
    rw [putString, update_of_ne (by omega), ih (by omega)]

lemma readString_congr (h : ∀ i < n, b (a + i) = c (k + i)) : readString b a n = readString c k n := by
  induction n generalizing a k with
  | zero => rfl
  | succ n ih =>
    have h0 : b a = c k := h 0 (by omega)
    have hrest : readString b (a + 1) n = readString c (k + 1) n := by
      apply ih
      intro i hi
      have hi := h (i + 1) (by omega)
      rwa [Nat.add_comm i 1, ← Nat.add_assoc, ← Nat.add_assoc] at hi
    rw [readString, readString, h0, hrest]

lemma readString_putString (hs : (0 : UInt8) ∉ s) (hn : s.length < n) : readString (putString b a s) a n = s := by
  induction s generalizing a n with
  | nil =>
    cases n with
    | zero => cases hn
    | succ n => rw [readString, putString, update_self, if_pos rfl]
  | cons x s ih =>
    cases n with
    | zero => cases hn
    | succ n =>
      rw [List.mem_cons, not_or] at hs
      rw [List.length_cons] at hn
      have hrest : readString (putString b a (x :: s)) (a + 1) n = readString (putString b (a + 1) s) (a + 1) n := by
        apply readString_congr
        intro i hi
        exact update_of_ne (by omega) _ _
      rw [readString, hrest, ih hs.2 (by omega), putString, update_self, if_neg (fun e => hs.1 e.symm)]

lemma hasString_iff (hs : (0 : UInt8) ∉ s) (hn : (readString b a n).length < n) :
    hasString b a s = true ↔ readString b a n = s := by
  induction n generalizing a s with
  | zero => cases hn
  | succ n ih =>
    rw [readString] at hn ⊢
    by_cases h : b a = 0
    · rw [if_pos h]
      cases s with
      | nil =>
        rw [hasString, beq_iff_eq]
        exact iff_of_true h rfl
      | cons x s =>
        rw [List.mem_cons, not_or] at hs
        rw [hasString, Bool.and_eq_true, beq_iff_eq, h]
        exact iff_of_false (fun e => hs.1 e.1) nofun
    · rw [if_neg h, List.length_cons] at hn
      rw [if_neg h]
      cases s with
      | nil =>
        rw [hasString, beq_iff_eq]
        exact iff_of_false h nofun
      | cons x s =>
        rw [List.mem_cons, not_or] at hs
        rw [hasString, Bool.and_eq_true, beq_iff_eq, ih hs.2 (by omega), List.cons.injEq]

lemma hasString_byte (h : hasString b a s = true) (hi : i ≤ s.length) : b (a + i) = s.getD i 0 := by
  induction s generalizing a i with
  | nil =>
    obtain rfl : i = 0 := Nat.le_zero.mp hi
    exact beq_iff_eq.mp h
  | cons x s ih =>
    rw [hasString, Bool.and_eq_true, beq_iff_eq] at h
    cases i with
    | zero => exact h.1
    | succ i =>
      have hrest := ih h.2 (Nat.le_of_succ_le_succ hi)
      rwa [Nat.add_assoc, Nat.add_comm 1 i] at hrest

lemma hasString_of_bytes (h : ∀ i ≤ s.length, b (a + i) = s.getD i 0) : hasString b a s = true := by
  induction s generalizing a with
  | nil => exact beq_iff_eq.mpr (h 0 le_rfl)
  | cons x s ih =>
    rw [hasString, Bool.and_eq_true, beq_iff_eq]
    refine ⟨h 0 (Nat.zero_le _), ih fun i hi => ?_⟩
    have hrest := h (i + 1) (Nat.succ_le_succ hi)
    rwa [Nat.add_comm i 1, ← Nat.add_assoc, Nat.add_comm 1 i, List.getD_cons_succ] at hrest

lemma readString_of_hasString (hs : (0 : UInt8) ∉ s) (hn : s.length < n) (h : hasString b a s = true) : readString b a n = s := by
  induction s generalizing a n with
  | nil =>
    cases n with
    | zero => cases hn
    | succ n => rw [readString, if_pos (beq_iff_eq.mp h)]
  | cons x s ih =>
    cases n with
    | zero => cases hn
    | succ n =>
      rw [List.mem_cons, not_or] at hs
      rw [hasString, Bool.and_eq_true, beq_iff_eq] at h
      rw [readString, h.1, if_neg (Ne.symm hs.1), ih hs.2 (Nat.lt_of_succ_lt_succ hn) h.2]

lemma zero_notMem_readString : (0 : UInt8) ∉ readString b a n := by
  induction n generalizing a with
  | zero => exact List.not_mem_nil
  | succ n ih =>
    rw [readString]
    by_cases h : b a = 0
    · rw [if_pos h]
      exact List.not_mem_nil
    · rw [if_neg h, List.mem_cons, not_or]
      exact ⟨fun e => h e.symm, ih⟩

end Strings

/-- The bytes that `memcpy` takes from an array. -/
def slice (b : ℕ → UInt8) (a n : ℕ) : List UInt8 := (List.range n).map fun i => b (a + i)

/-- `memcpy` of a list of bytes to `a`. -/
def putBytes (b : ℕ → UInt8) (a : ℕ) (l : List UInt8) : ℕ → UInt8 :=
  fun x => if a ≤ x ∧ x < a + l.length then l.getD (x - a) 0 else b x

section Splice

variable {f : ℕ → UInt8} {c d : List UInt8} {n o : ℕ}

/-- `d` in the place of what is in `c` from `o` on. -/
def splice (c : List UInt8) (o : ℕ) (d : List UInt8) : List UInt8 := c.take o ++ d ++ c.drop (o + d.length)

lemma splice_end : splice c c.length d = c ++ d := by
  rw [splice, List.take_length, List.drop_eq_nil_of_le (by omega), List.append_nil]

lemma splice_range (ho : o ≤ n) : splice ((List.range n).map f) o d =
    (List.range (max n (o + d.length))).map fun p => if o ≤ p ∧ p < o + d.length then d.getD (p - o) 0 else f p := by
  have hlen : (((List.range n).map f).take o).length = o := by
    rw [List.length_take, List.length_map, List.length_range]
    omega
  apply List.ext_getElem
  · simp only [splice, List.length_append, hlen, List.length_drop, List.length_map, List.length_range]
    omega
  · intro p hp hp'
    simp only [splice, List.getElem_append, hlen, List.length_append, List.getElem_map, List.getElem_range,
      List.getElem_take, List.getElem_drop]
    by_cases hfirst : p < o
    · rw [dif_pos (by omega), dif_pos hfirst, if_neg (by omega)]
    · by_cases hin : p < o + d.length
      · have hlt : p - o < d.length := by omega
        rw [dif_pos hin, dif_neg hfirst, if_pos (by omega), List.getD_eq_getElem?_getD, List.getElem?_eq_getElem hlt,
          Option.getD_some]
      · have hindex : o + d.length + (p - (o + d.length)) = p := by omega
        rw [dif_neg hin, if_neg (by omega), hindex]

end Splice

end Pke.Lib
