import Mathlib.Data.Set.Card
import Mathlib.Tactic

/-! A counter that is exactly the number of handles on an item. -/

namespace Pke.Lib

open Set

variable {H I : Type} {uses uses' : H → Option I} {h : H} {i : I} {z : ℤ}

def Tally (uses : H → Option I) (i : I) (z : ℤ) : Prop := ∃ n : ℕ, z = n ∧ {h | uses h = some i}.encard = n

namespace Tally

lemma congr (t : Tally uses i z) (hu : ∀ x, uses' x = some i ↔ uses x = some i) : Tally uses' i z := by
  obtain ⟨n, hn, hcard⟩ := t
  have hset : {h | uses' h = some i} = {h | uses h = some i} := ext hu
  exact ⟨n, hn, hset ▸ hcard⟩

lemma nonneg (t : Tally uses i z) : 0 ≤ z := by
  obtain ⟨n, rfl, -⟩ := t
  omega

lemma zero (hno : ∀ x, uses x ≠ some i) : Tally uses i 0 := by
  refine ⟨0, rfl, ?_⟩
  rw [Nat.cast_zero, encard_eq_zero]
  exact eq_empty_of_forall_notMem hno

lemma unused (t : Tally uses i z) (hz : z = 0) (x : H) : uses x ≠ some i := by
  obtain ⟨n, hn, hcard⟩ := t
  have hn0 : n = 0 := by omega
  rw [hn0, Nat.cast_zero, encard_eq_zero] at hcard
  exact fun hx => (hcard ▸ hx : x ∈ (∅ : Set H))

lemma eq_one (t : Tally uses i z) (hu : uses h = some i) (hall : ∀ x, uses x = some i → x = h) : z = 1 := by
  obtain ⟨n, rfl, hcard⟩ := t
  have hset : {x | uses x = some i} = {h} := by
    ext x
    rw [mem_ofPred, mem_singleton_iff]
    exact ⟨hall x, fun hx => hx ▸ hu⟩
  rw [hset, encard_singleton] at hcard
  exact_mod_cast hcard.symm

lemma gain (t : Tally uses i z) (hold : uses h ≠ some i) (hnew : uses' h = some i)
    (hrest : ∀ x, x ≠ h → (uses' x = some i ↔ uses x = some i)) : Tally uses' i (z + 1) := by
  obtain ⟨n, hn, hcard⟩ := t
  have hset : {h | uses' h = some i} = insert h {h | uses h = some i} := by
    ext x
    by_cases hx : x = h
    · subst hx
      exact iff_of_true hnew (mem_insert _ _)
    · rw [mem_insert_iff, or_iff_right hx]
      exact hrest x hx
  refine ⟨n + 1, by omega, ?_⟩
  rw [hset, encard_insert_of_notMem (show h ∉ {h | uses h = some i} from hold), hcard]
  rfl

lemma lose (t : Tally uses i z) (hold : uses h = some i) (hnew : uses' h ≠ some i)
    (hrest : ∀ x, x ≠ h → (uses' x = some i ↔ uses x = some i)) : Tally uses' i (z - 1) := by
  obtain ⟨n, hn, hcard⟩ := t
  have hset : {h | uses h = some i} = insert h {h | uses' h = some i} := by
    ext x
    by_cases hx : x = h
    · subst hx
      exact iff_of_true hold (mem_insert _ _)
    · rw [mem_insert_iff, or_iff_right hx]
      exact (hrest x hx).symm
  rw [hset, encard_insert_of_notMem (show h ∉ {h | uses' h = some i} from hnew)] at hcard
  cases n with
  | zero =>
    rw [Nat.cast_zero] at hcard
    exact absurd hcard (by simp)
  | succ n =>
    refine ⟨n, by omega, ?_⟩
    rw [Nat.cast_add, Nat.cast_one] at hcard
    exact ENat.add_left_injective_of_ne_top ENat.one_ne_top hcard

end Tally

end Pke.Lib
