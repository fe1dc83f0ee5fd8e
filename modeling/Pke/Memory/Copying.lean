import Pke.Lib.Words
import Pke.Memory.Allocator

/-! `memcpy` and `memmove` of `string.c`. -/

namespace Pke.Memory

open Lib Function

variable {mem : ℕ → UInt8} {n d s a stop : ℕ}

/-- `*d++ = *s++`, `n` times. -/
def copyForward : ℕ → ℕ → ℕ → (ℕ → UInt8) → ℕ → UInt8
  | 0, _, _, mem => mem
  | n + 1, d, s, mem => copyForward n (d + 1) (s + 1) (update mem d (mem s))

/-- `*--d = *--s`, `n` times from the ends. -/
def copyBackward : ℕ → ℕ → ℕ → (ℕ → UInt8) → ℕ → UInt8
  | 0, _, _, mem => mem
  | n + 1, d, s, mem => copyBackward n d s (update mem (d + n) (mem (s + n)))

def memcpyWords (stop : ℕ) : ℕ → ℕ → ℕ → (ℕ → UInt8) → ℕ × ℕ × (ℕ → UInt8)
  | 0, d, s, mem => (d, s, mem)
  | n + 1, d, s, mem =>
    if d < stop then memcpyWords stop n (d + 8) (s + 8) (store64 mem d (load64 mem s)) else (d, s, mem)

/-- The last loop runs while `d < dest + len`. -/
def memcpy (dest src len : ℕ) (mem : ℕ → UInt8) : ℕ → UInt8 :=
  let (d, s, mem) :=
    if (dest ||| src) % 8 = 0 then memcpyWords (sub64 (u64 (dest + len)) 7) len dest src mem else (dest, src, mem)
  copyForward (u64 (dest + len) - d) d s mem

def memmove (dst src n : ℕ) (mem : ℕ → UInt8) : ℕ → UInt8 :=
  if src < dst ∧ dst < u64 (src + n) then copyBackward n dst src mem else copyForward n dst src mem

def moved (n d s : ℕ) (mem : ℕ → UInt8) : ℕ → UInt8 := fun a => if d ≤ a ∧ a < d + n then mem (s + (a - d)) else mem a

lemma copyForward_eq (h : d ≤ s ∨ s + n ≤ d) : copyForward n d s mem = moved n d s mem := by
  induction n generalizing d s mem with
  | zero =>
    funext a
    rw [copyForward, moved, if_neg (by omega)]
  | succ n ih =>
    rw [copyForward, ih (by omega)]
    funext a
    simp only [moved, update_apply]
    grind

lemma copyBackward_eq (h : s ≤ d) : copyBackward n d s mem = moved n d s mem := by
  induction n generalizing mem with
  | zero =>
    funext a
    rw [copyBackward, moved, if_neg (by omega)]
  | succ n ih =>
    rw [copyBackward, ih]
    funext a
    simp only [moved, update_apply]
    grind

lemma copyForward_add (m n : ℕ) : copyForward (m + n) d s mem = copyForward n (d + m) (s + m) (copyForward m d s mem) := by
  induction m generalizing d s mem with
  | zero => rw [Nat.zero_add]; rfl
  | succ m ih =>
    rw [Nat.add_right_comm, copyForward, ih, copyForward]
    congr 1 <;> omega

lemma byte_load64 (h : n < 8) : UInt8.ofNat (load64 mem a / 256 ^ n) = mem (a + n) := by
  rw [← UInt8.toNat_inj, UInt8.toNat_ofNat']
  have hlt := fun i => (mem (a + i)).toNat_lt
  have h0 := hlt 0
  have h1 := hlt 1
  have h2 := hlt 2
  have h3 := hlt 3
  have h4 := hlt 4
  have h5 := hlt 5
  have h6 := hlt 6
  have h7 := hlt 7
  simp only [load64, List.range_succ, List.range_zero, List.nil_append, List.cons_append, List.map_cons, List.map_nil,
    Nat.ofDigits_cons, Nat.ofDigits_nil]
  interval_cases n <;> omega

lemma copyForward_word (h : d ≤ s ∨ s + 8 ≤ d) : copyForward 8 d s mem = store64 mem d (load64 mem s) := by
  rw [copyForward_eq h]
  funext a
  rw [moved, store64]
  split_ifs with ha
  · rw [byte_load64 (by omega)]
  · rfl

lemma memcpyWords_eq (hd : d % 8 = 0) (hs : s % 8 = 0) : ∃ d' s' mem', memcpyWords stop n d s mem = (d', s', mem') ∧
    copyForward (stop + 7 - d') d' s' mem' = copyForward (stop + 7 - d) d s mem := by
  induction n generalizing d s mem with
  | zero => exact ⟨d, s, mem, rfl, rfl⟩
  | succ n ih =>
    rw [memcpyWords]
    split_ifs with hlt
    · obtain ⟨d', s', mem', hrun, hcopy⟩ := ih (d := d + 8) (s := s + 8) (by omega) (by omega)
      refine ⟨d', s', mem', hrun, ?_⟩
      rw [hcopy, show stop + 7 - d = 8 + (stop + 7 - (d + 8)) by omega, copyForward_add, copyForward_word (by omega)]
    · exact ⟨d, s, mem, rfl, rfl⟩

/-- The path over whole words copies what the bytes one after another would, also where the ranges overlap. -/
theorem memcpy_agrees (dest src len : ℕ) (mem : ℕ → UInt8) (hd : 7 ≤ dest) (hend : dest + len < 2 ^ 64) :
    memcpy dest src len mem = copyForward len dest src mem := by
  have hstop : u64 (dest + len) = dest + len := Nat.mod_eq_of_lt hend
  have hwords : sub64 (dest + len) 7 + 7 = dest + len := by
    rw [sub64, u64]
    omega
  rw [memcpy, hstop]
  split_ifs with halign
  · rw [show (8 : ℕ) = 2 ^ 3 from rfl, Nat.or_mod_two_pow, Nat.or_eq_zero_iff] at halign
    obtain ⟨d, s, mem', hrun, hcopy⟩ := @memcpyWords_eq mem len dest src (sub64 (dest + len) 7) halign.1 halign.2
    rw [hwords, Nat.add_sub_cancel_left] at hcopy
    rw [hrun]
    exact hcopy
  · dsimp only
    rw [Nat.add_sub_cancel_left]

theorem memcpy_agrees_overlapping : memcpy 16 8 20 = copyForward 20 16 8 :=
  funext fun mem => memcpy_agrees 16 8 20 mem (by decide) (by decide)

/-- `memmove` is right for every overlap. -/
theorem memmove_moves (dst src n : ℕ) (mem : ℕ → UInt8) (hend : src + n < 2 ^ 64) : memmove dst src n mem = moved n dst src mem := by
  rw [memmove, show u64 (src + n) = src + n from Nat.mod_eq_of_lt hend]
  split_ifs with hover
  · exact copyBackward_eq hover.1.le
  · exact copyForward_eq (by omega)

theorem memmove_moves_up : memmove 101 100 5 = moved 5 101 100 := funext fun mem => memmove_moves 101 100 5 mem (by decide)

end Pke.Memory
