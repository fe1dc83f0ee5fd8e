import Mathlib.Data.Fintype.Card
import Mathlib.Tactic

/-! `sync_barrier`, at which the harts wait for each other while the kernel starts. -/

namespace Pke.Processes

open Function Finset

inductive AtBarrier where
  | before
  | spinning
  | past
  deriving DecidableEq

structure Barrier (H : Type) where
  counter : ℕ
  hart : H → AtBarrier

variable {H : Type}

/-- The next access of a hart to the counter: `amoadd.w` when it arrives, and then the `lw` of the loop. -/
def syncBarrier [DecidableEq H] (all : ℕ) (b : Barrier H) (h : H) : Barrier H :=
  match b.hart h with
  | .before => ⟨b.counter + 1, update b.hart h (if b.counter + 1 < all then .spinning else .past)⟩
  | .spinning => { b with hart := update b.hart h (if b.counter < all then .spinning else .past) }
  | .past => b

variable [Fintype H] {b : Barrier H} {h k : H}

/-- The accesses of all harts, in any order. -/
def barrierRun [DecidableEq H] (l : List H) : Barrier H := l.foldl (syncBarrier (Fintype.card H)) ⟨0, fun _ => .before⟩

def Barrier.arrived (b : Barrier H) : Finset H := univ.filter (b.hart · ≠ .before)

structure Barrier.Counts (b : Barrier H) : Prop where
  counter : b.counter = #b.arrived
  past : ∀ h, b.hart h = .past → b.arrived = univ

lemma Barrier.mem_arrived : h ∈ b.arrived ↔ b.hart h ≠ .before := by simp [arrived]

variable [DecidableEq H]

lemma arrived_update {n : ℕ} {a : AtBarrier} (ha : a ≠ .before) :
    Barrier.arrived ⟨n, update b.hart h a⟩ = insert h b.arrived := by
  ext k
  rw [Barrier.mem_arrived, mem_insert, Barrier.mem_arrived]
  by_cases hk : k = h
  · simp [hk, ha]
  · simp [hk]

-- An arrival and a look at the counter are alike: the hart compares `all` with the number of those that have arrived by then.
lemma syncBarrier_eq (hb : b.counter = #b.arrived) (hh : b.hart h ≠ .past) (all : ℕ) : syncBarrier all b h =
    ⟨#(insert h b.arrived), update b.hart h (if #(insert h b.arrived) < all then .spinning else .past)⟩ := by
  rw [syncBarrier]
  cases hhart : b.hart h with
  | before =>
    have hnot : h ∉ b.arrived := fun hin => Barrier.mem_arrived.mp hin hhart
    rw [card_insert_of_notMem hnot, hb]
  | spinning =>
    have hin : h ∈ b.arrived := Barrier.mem_arrived.mpr (by simp [hhart])
    rw [insert_eq_of_mem hin, hb]
  | past => exact absurd hhart hh

namespace Barrier.Counts

variable (hb : b.Counts)

include hb

lemma arrived_sync (h : H) : (syncBarrier (Fintype.card H) b h).arrived = insert h b.arrived := by
  by_cases hh : b.hart h = .past
  · rw [syncBarrier, hh, insert_eq_of_mem (mem_arrived.mpr (by simp [hh]))]
  · rw [syncBarrier_eq hb.counter hh]
    exact arrived_update (by split_ifs <;> decide)

lemma sync (h : H) : (syncBarrier (Fintype.card H) b h).Counts := by
  have harrived := hb.arrived_sync h
  by_cases hh : b.hart h = .past
  · rwa [syncBarrier, hh]
  · rw [syncBarrier_eq hb.counter hh] at harrived ⊢
    refine ⟨by rw [harrived], fun k hk => ?_⟩
    rw [harrived]
    dsimp only at hk
    by_cases hkh : k = h
    · subst hkh
      rw [update_self] at hk
      split_ifs at hk with hlt
      exact eq_univ_of_card _ (le_antisymm (card_le_univ _) (not_lt.mp hlt))
    · rw [update_of_ne hkh] at hk
      rw [hb.past k hk, insert_eq_of_mem (mem_univ h)]

lemma sync_all (hall : b.arrived = univ) (h : H) : (syncBarrier (Fintype.card H) b h).hart = update b.hart h .past := by
  by_cases hh : b.hart h = .past
  · rw [syncBarrier, hh]
    exact (update_eq_self_iff.mpr hh.symm).symm
  · rw [syncBarrier_eq hb.counter hh, hall, insert_eq_of_mem (mem_univ h), card_univ, if_neg (lt_irrefl _)]

end Barrier.Counts

lemma barrierRun_snoc (l : List H) (h : H) : barrierRun (l ++ [h]) = syncBarrier (Fintype.card H) (barrierRun l) h := by
  simp [barrierRun]

lemma barrierRun_counts (l : List H) : (barrierRun l).Counts ∧ (barrierRun l).arrived = l.toFinset := by
  induction l using List.reverseRecOn with
  | nil =>
    have hnone : (barrierRun ([] : List H)).arrived = ∅ := filter_false_of_mem fun h _ => not_not.mpr rfl
    exact ⟨⟨by rw [hnone]; rfl, fun h hh => by cases hh⟩, hnone⟩
  | append_singleton l h ih =>
    rw [barrierRun_snoc, ih.1.arrived_sync, ih.2]
    exact ⟨ih.1.sync h, by simp⟩

/-- No hart gets past the barrier before all have come to it, and once all have, each gets past with its next access. -/
theorem barrier_holds (l l' : List H) : (∀ h, (barrierRun l).hart h = .past → ∀ k, k ∈ l) ∧
    ((∀ k, k ∈ l) → ∀ h ∈ l', (barrierRun (l ++ l')).hart h = .past) := by
  obtain ⟨hcounts, harrived⟩ := barrierRun_counts l
  refine ⟨fun h hh k => ?_, fun hall => ?_⟩
  · rw [← List.mem_toFinset, ← harrived, hcounts.past h hh]
    exact mem_univ k
  · induction l' using List.reverseRecOn with
    | nil => simp
    | append_singleton l' k ih =>
      obtain ⟨hcounts', harrived'⟩ := barrierRun_counts (l ++ l')
      have hfull : (barrierRun (l ++ l')).arrived = univ := by
        rw [harrived', eq_univ_iff_forall]
        simp [hall]
      intro h hin
      rw [← List.append_assoc, barrierRun_snoc, hcounts'.sync_all hfull]
      by_cases hk : h = k
      · rw [hk, update_self]
      · rw [update_of_ne hk]
        exact ih h (by simpa [hk] using hin)

end Pke.Processes
