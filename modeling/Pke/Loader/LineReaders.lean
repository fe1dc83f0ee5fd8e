import Mathlib.Data.Nat.Digits.Defs
import Mathlib.Tactic
import Pke.Lib.Leb128

/-! The readers of `elf.c` for a `.debug_line` section, and the bytes that each accepts. The lists are what is left of the
section; what the code does with the bytes behind it, or after one of the other faults, is left open. -/

namespace Pke.Loader

open Lib

inductive Fault where
  /-- A byte outside of the section is read. -/
  | outside
  /-- `line_range` is 0. -/
  | division
  /-- The 64 entries of `p->dir` are used up. -/
  | dirs
  /-- The 64 entries of `p->file` are used up. -/
  | files
  deriving DecidableEq

abbrev Reader (α : Type) := List UInt8 → Except Fault (α × List UInt8)

section Readers

def readByte : Reader UInt8
  | [] => .error .outside
  | b :: r => .ok (b, r)

/-- The hardware shifts by the amount modulo 64. -/
def sevenBits (b : UInt8) (shift : ℕ) : UInt64 := (b.toUInt64 &&& 0x7F) <<< UInt64.ofNat shift

def ulebFrom (value : UInt64) (shift : ℕ) : Reader UInt64
  | [] => .error .outside
  | b :: r => if b &&& 0x80 = 0 then .ok (value ||| sevenBits b shift, r) else ulebFrom (value ||| sevenBits b shift) (shift + 7) r

def readUleb128 : Reader UInt64 := ulebFrom 0 0

/-- What `read_sleb128` adds behind the last byte; `-(1 << shift)` is an `int`. -/
def signBits (b : UInt8) (shift : ℕ) : UInt64 :=
  if shift < 64 ∧ b &&& 0x40 ≠ 0 then ⟨(-(1#32 <<< (shift % 32))).signExtend 64⟩ else 0

def slebFrom (value : UInt64) (shift : ℕ) : Reader UInt64
  | [] => .error .outside
  | b :: r => if b &&& 0x80 = 0 then .ok (value ||| sevenBits b shift ||| signBits b (shift + 7), r)
    else slebFrom (value ||| sevenBits b shift) (shift + 7) r

def readSleb128 : Reader UInt64 := slebFrom 0 0

/-- `read_uint64` and `read_uint16`. -/
def readUint (width : ℕ) : Reader UInt64 := fun l =>
  if l.length < width then .error .outside
  else .ok (UInt64.ofNat (Nat.ofDigits 256 ((l.take width).map UInt8.toNat)), l.drop width)

def skipString : List UInt8 → Except Fault (List UInt8)
  | [] => .error .outside
  | b :: r => if b = 0 then .ok r else skipString r

end Readers

section Accepted

variable {l r : List UInt8} {v w : UInt64} {b : UInt8} {n : ℕ}

def ulebValue (shift : ℕ) : List UInt8 → UInt64
  | [] => 0
  | b :: l => sevenBits b shift ||| ulebValue (shift + 7) l

def slebValue (shift : ℕ) : List UInt8 → UInt64
  | [] => 0
  | b :: l => sevenBits b shift ||| if b &&& 0x80 = 0 then signBits b (shift + 7) else slebValue (shift + 7) l

lemma readByte_iff : readByte l = .ok (b, r) ↔ l = b :: r := by
  cases l with
  | nil => exact iff_of_false nofun nofun
  | cons c l => simp [readByte]

lemma leb_iff {f : Reader UInt64} {value : List UInt8 → UInt64} (hdone : ∀ {x}, IsLeb x → ∀ r, f (x ++ r) = .ok (value x, r))
    (hopen : ∀ l, (∀ b ∈ l, b &&& 0x80 ≠ 0) → f l = .error .outside) :
    f l = .ok (w, r) ↔ ∃ x : Leb, l = x ++ r ∧ w = value x := by
  constructor
  · intro h
    rcases leb_or_unfinished l with ⟨x, r', rfl⟩ | hl
    · rw [hdone x.2] at h
      cases h
      exact ⟨x, rfl, rfl⟩
    · rw [hopen l hl] at h
      cases h
  · rintro ⟨x, rfl, rfl⟩
    exact hdone x.2 r

lemma ulebFrom_append (h : IsLeb l) : ulebFrom v n (l ++ r) = .ok (v ||| ulebValue n l, r) := by
  induction h generalizing v n with
  | last hb => simp [ulebFrom, ulebValue, hb]
  | more hb _ ih => simp [ulebFrom, ulebValue, hb, ih, UInt64.or_assoc]

lemma ulebFrom_unfinished (h : ∀ b ∈ l, b &&& 0x80 ≠ 0) : ulebFrom v n l = .error .outside := by
  induction l generalizing v n with
  | nil => rfl
  | cons b l ih =>
    rw [List.forall_mem_cons] at h
    rw [ulebFrom, if_neg h.1, ih h.2]

lemma slebFrom_append (h : IsLeb l) : slebFrom v n (l ++ r) = .ok (v ||| slebValue n l, r) := by
  induction h generalizing v n with
  | last hb => simp [slebFrom, slebValue, hb, UInt64.or_assoc]
  | more hb _ ih => simp [slebFrom, slebValue, hb, ih, UInt64.or_assoc]

lemma slebFrom_unfinished (h : ∀ b ∈ l, b &&& 0x80 ≠ 0) : slebFrom v n l = .error .outside := by
  induction l generalizing v n with
  | nil => rfl
  | cons b l ih =>
    rw [List.forall_mem_cons] at h
    rw [slebFrom, if_neg h.1, ih h.2]

lemma readUleb128_iff : readUleb128 l = .ok (w, r) ↔ ∃ x : Leb, l = x ++ r ∧ w = ulebValue 0 x :=
  leb_iff (fun hx _ => by rw [readUleb128, ulebFrom_append hx, UInt64.zero_or]) fun _ => ulebFrom_unfinished

lemma readSleb128_iff : readSleb128 l = .ok (w, r) ↔ ∃ x : Leb, l = x ++ r ∧ w = slebValue 0 x :=
  leb_iff (fun hx _ => by rw [readSleb128, slebFrom_append hx, UInt64.zero_or]) fun _ => slebFrom_unfinished

def uintValue (l : List UInt8) : UInt64 := UInt64.ofNat (Nat.ofDigits 256 (l.map UInt8.toNat))

lemma readUint_iff : readUint n l = .ok (w, r) ↔ ∃ x, x.length = n ∧ l = x ++ r ∧ w = uintValue x := by
  rw [readUint]
  constructor
  · intro h
    split_ifs at h with hn
    cases h
    exact ⟨l.take n, by rw [List.length_take]; omega, (List.take_append_drop n l).symm, rfl⟩
  · rintro ⟨x, rfl, rfl, rfl⟩
    rw [if_neg (by simp), List.take_left, List.drop_left]
    rfl

lemma skipString_iff : skipString l = .ok r ↔ ∃ x, 0 ∉ x ∧ l = x ++ 0 :: r := by
  induction l with
  | nil =>
    refine iff_of_false nofun ?_
    rintro ⟨x, -, hl⟩
    simp at hl
  | cons b l ih =>
    rw [skipString]
    by_cases hb : b = 0
    · rw [if_pos hb]
      constructor
      · intro h
        cases h
        exact ⟨[], List.not_mem_nil, by rw [hb]; rfl⟩
      · rintro ⟨x, hx, hl⟩
        cases x with
        | nil =>
          cases hl
          rfl
        | cons c x =>
          rw [List.cons_append, List.cons.injEq] at hl
          exact absurd (hb ▸ hl.1 ▸ List.mem_cons_self) hx
    · rw [if_neg hb, ih]
      constructor
      · rintro ⟨x, hx, rfl⟩
        exact ⟨b :: x, by simp [hx, Ne.symm hb], rfl⟩
      · rintro ⟨x, hx, hl⟩
        cases x with
        | nil => exact absurd (List.cons.inj hl).1 hb
        | cons c x =>
          cases hl
          exact ⟨x, fun h => hx (List.mem_cons_of_mem _ h), rfl⟩

lemma readUleb128_length (h : readUleb128 l = .ok (w, r)) : r.length < l.length := by
  obtain ⟨x, rfl, -⟩ := readUleb128_iff.mp h
  have := x.2.length_pos
  simp
  omega

lemma skipString_length (h : skipString l = .ok r) : r.length < l.length := by
  obtain ⟨x, -, rfl⟩ := skipString_iff.mp h
  simp
  omega

end Accepted

lemma bind_eq_ok {α β : Type} {x : Except Fault α} {f : α → Except Fault β} {b : β} :
    (x >>= f) = .ok b ↔ ∃ a, x = .ok a ∧ f a = .ok b := by
  cases x with
  | error e => exact iff_of_false nofun nofun
  | ok a => exact ⟨fun h => ⟨a, rfl, h⟩, fun ⟨_, h, h'⟩ => by cases h; exact h'⟩

end Pke.Loader
