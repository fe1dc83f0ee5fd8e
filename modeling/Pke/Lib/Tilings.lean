import Mathlib.Data.List.Perm.Basic
import Mathlib.Tactic.Common

/-! Blocks `(start, length)` that tile an interval: each address in it belongs to exactly one of them. -/

namespace Pke.Lib

variable {l l' : List (ℕ × ℕ)} {lo hi a n m : ℕ} {b c : ℕ × ℕ}

def cover (l : List (ℕ × ℕ)) (a : ℕ) : ℕ := l.countP fun b => decide (b.1 ≤ a ∧ a < b.1 + b.2)

def Tiles (l : List (ℕ × ℕ)) (lo hi : ℕ) : Prop := ∀ a, cover l a = if lo ≤ a ∧ a < hi then 1 else 0

def Apart (b c : ℕ × ℕ) : Prop := b.1 + b.2 ≤ c.1 ∨ c.1 + c.2 ≤ b.1

@[simp] lemma cover_nil (a : ℕ) : cover [] a = 0 := rfl

lemma cover_cons (b : ℕ × ℕ) (l : List (ℕ × ℕ)) (a : ℕ) :
    cover (b :: l) a = cover l a + if b.1 ≤ a ∧ a < b.1 + b.2 then 1 else 0 := by
  rw [cover, List.countP_cons]
  simp [cover]

lemma cover_append (l l' : List (ℕ × ℕ)) (a : ℕ) : cover (l ++ l') a = cover l a + cover l' a := List.countP_append

lemma cover_perm (h : l.Perm l') (a : ℕ) : cover l a = cover l' a := h.countP_eq _

lemma cover_pos (hb : b ∈ l) (h : b.1 ≤ a ∧ a < b.1 + b.2) : 0 < cover l a :=
  List.countP_pos_iff.mpr ⟨b, hb, decide_eq_true h⟩

namespace Tiles

lemma nil (a : ℕ) : Tiles [] a a := by
  intro x
  rw [cover_nil, if_neg (by omega)]

lemma perm (h : Tiles l lo hi) (hl : l'.Perm l) : Tiles l' lo hi := fun a => (cover_perm hl a).trans (h a)

lemma grow (h : Tiles l lo hi) (hle : lo ≤ hi) (n : ℕ) : Tiles ((hi, n) :: l) lo (hi + n) := by
  intro a
  rw [cover_cons, h a]
  split_ifs <;> omega

lemma split (h : Tiles ((a, n + m) :: l) lo hi) : Tiles ((a, n) :: (a + n, m) :: l) lo hi := by
  intro x
  have := h x
  rw [cover_cons] at this
  rw [cover_cons, cover_cons, ← this]
  dsimp only
  split_ifs <;> omega

lemma lower (h : Tiles l lo hi) (hb : b ∈ l) (hpos : 0 < b.2) : lo ≤ b.1 := by
  have hcover := h b.1
  have := cover_pos (a := b.1) hb ⟨Nat.le_refl _, by omega⟩
  split_ifs at hcover <;> omega

lemma upper (h : Tiles l lo hi) (hb : b ∈ l) (hpos : 0 < b.2) : b.1 + b.2 ≤ hi := by
  have hcover := h (b.1 + b.2 - 1)
  have := cover_pos (a := b.1 + b.2 - 1) hb ⟨by omega, by omega⟩
  split_ifs at hcover <;> omega

lemma pairwise (h : Tiles l lo hi) (hpos : ∀ b ∈ l, 0 < b.2) : l.Pairwise Apart := by
  have hle : ∀ a, cover l a ≤ 1 := by
    intro a
    rw [h a]
    split_ifs <;> omega
  clear h
  induction l with
  | nil => exact .nil
  | cons b l ih =>
    refine List.pairwise_cons.mpr ⟨fun c hc => ?_, ih (fun c hc => hpos c (by simp [hc])) fun a => ?_⟩
    · have hb := hpos b (by simp)
      have hcpos := hpos c (by simp [hc])
      by_contra hover
      rw [Apart, not_or] at hover
      -- the larger of the two starts is in both
      have hcov := hle (max b.1 c.1)
      rw [cover_cons, if_pos (by omega)] at hcov
      have := cover_pos (a := max b.1 c.1) hc ⟨by omega, by omega⟩
      omega
    · have := hle a
      rw [cover_cons] at this
      omega

lemma part_iff (h : Tiles (l ++ l') lo hi) (hpos : ∀ b ∈ l', 0 < b.2) : Tiles l lo hi ↔ l' = [] := by
  constructor
  · intro hl
    by_contra hne
    obtain ⟨b, rest, rfl⟩ := List.exists_cons_of_ne_nil hne
    have hb := hpos b (by simp)
    have hcov : 0 < cover (b :: rest) b.1 := cover_pos (b := b) (by simp) ⟨Nat.le_refl _, by omega⟩
    have hwhole := h b.1
    rw [cover_append, hl b.1] at hwhole
    omega
  · rintro rfl
    rwa [List.append_nil] at h

end Tiles

end Pke.Lib
