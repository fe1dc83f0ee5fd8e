import Mathlib.Data.Set.Card
import Mathlib.Tactic

/-! Items with reference counts. Every item is used through handles, each of which should be
covered by the count of its item, or is pinned by users that are not counted. -/

namespace Pke.Lib

open Function Set

variable {H I : Type}

structure Counted (uses : H → Option I) (pinned : Set I) (count : I → ℕ) (free : List I) : Prop where
  covered : ∀ i, {h | uses h = some i}.encard ≤ count i
  pinned : ∀ i ∈ pinned, 0 < count i
  zero : ∀ i ∈ free, count i = 0
  nodup : free.Nodup

namespace Counted

variable {uses uses' : H → Option I} {pinned pinned' : Set I} {count : I → ℕ} {free : List I} {h h' : H}
  {i j : I}

lemma unused (c : Counted uses pinned count free) (hi : count i = 0) (h : H) : uses h ≠ some i := by
  intro hu
  have hcov := c.covered i
  rw [hi, Nat.cast_zero, nonpos_iff_eq_zero, encard_eq_zero] at hcov
  exact (hcov ▸ hu : h ∈ (∅ : Set H))

lemma not_free_of_uses (c : Counted uses pinned count free) (hu : uses h = some i) : i ∉ free :=
  fun hf => c.unused (c.zero i hf) h hu

lemma not_free_of_pinned (c : Counted uses pinned count free) (hp : i ∈ pinned) : i ∉ free :=
  fun hf => (c.pinned i hp).ne' (c.zero i hf)

lemma pos_of_uses (c : Counted uses pinned count free) (hu : uses h = some i) : 0 < count i := by
  by_contra hz
  exact c.unused (by omega) h hu

lemma sole (c : Counted uses pinned count free) (hi : count i = 1) (hu : uses h = some i)
    (hu' : uses h' = some i) : h = h' := by
  have hcov := c.covered i
  rw [hi, Nat.cast_one, encard_le_one_iff] at hcov
  exact hcov h h' hu hu'

lemma forget (c : Counted uses pinned count free) (hle : ∀ h i, uses' h = some i → uses h = some i)
    (hp : pinned' ⊆ pinned) : Counted uses' pinned' count free where
  covered i := (encard_le_encard fun h hh => hle h i hh).trans (c.covered i)
  pinned i hi := c.pinned i (hp hi)
  zero := c.zero
  nodup := c.nodup

lemma rename (c : Counted uses pinned count free) (f : H → H) (hf : ∀ h i, uses' h = some i → uses (f h) = some i)
    (hinj : ∀ h h' i, uses' h = some i → uses' h' = some i → f h = f h' → h = h') :
    Counted uses' pinned count free where
  covered i := by
    refine le_trans ?_ (c.covered i)
    refine encard_le_encard_of_injOn (f := f) (fun h hh => hf h i hh) ?_
    exact fun h hh h' hh' he => hinj h h' i hh hh' he
  pinned := c.pinned
  zero := c.zero
  nodup := c.nodup

variable [DecidableEq I]

lemma raise (c : Counted uses pinned count free) (hi : 0 < count i) :
    Counted uses pinned (update count i (count i + 1)) free := by
  refine ⟨fun j => ?_, fun j hj => ?_, fun j hj => ?_, c.nodup⟩
  · by_cases hj : j = i
    · subst hj
      rw [update_self, Nat.cast_add, Nat.cast_one]
      exact (c.covered j).trans le_self_add
    · rw [update_of_ne hj]
      exact c.covered j
  · by_cases hji : j = i
    · simp [hji]
    · rw [update_of_ne hji]
      exact c.pinned j hj
  · have hne : j ≠ i := fun e => hi.ne' (e ▸ c.zero j hj)
    rw [update_of_ne hne]
    exact c.zero j hj

lemma lower (c : Counted uses pinned count free) (hi : 0 < count i)
    (hle : ∀ h j, uses' h = some j → uses h = some j) (hp : pinned' ⊆ pinned)
    (hcov : {h | uses' h = some i}.encard + 1 ≤ count i) (hpin : i ∈ pinned' → 1 < count i) :
    Counted uses' pinned' (update count i (count i - 1)) (if count i - 1 = 0 then i :: free else free) := by
  have hfree : i ∉ free := fun hf => hi.ne' (c.zero i hf)
  have hold : ∀ j, j ≠ i → {h | uses' h = some j}.encard ≤ count j := fun j _ =>
    (encard_le_encard fun h hh => hle h j hh).trans (c.covered j)
  refine ⟨fun j => ?_, fun j hj => ?_, fun j hj => ?_, ?_⟩
  · by_cases hji : j = i
    · subst hji
      rw [update_self]
      have hone : ((count j - 1 : ℕ) : ℕ∞) + 1 = count j := by
        exact_mod_cast (by omega : count j - 1 + 1 = count j)
      rw [← hone] at hcov
      exact (ENat.add_le_add_iff_right (by simp)).mp hcov
    · rw [update_of_ne hji]
      exact hold j hji
  · by_cases hji : j = i
    · subst hji
      rw [update_self]
      have := hpin hj
      omega
    · rw [update_of_ne hji]
      exact c.pinned j (hp hj)
  · by_cases hji : j = i
    · subst hji
      rw [update_self]
      by_contra hne
      rw [if_neg hne] at hj
      exact hfree hj
    · rw [update_of_ne hji]
      split_ifs at hj
      · exact c.zero j ((List.mem_cons.mp hj).resolve_left hji)
      · exact c.zero j hj
  · split_ifs
    · exact List.nodup_cons.mpr ⟨hfree, c.nodup⟩
    · exact c.nodup

variable [DecidableEq H]

lemma encard_update_none (uses : H → Option I) (h : H) (i j : I) (hu : uses h = some i) :
    {k | update uses h none k = some j}.encard + (if j = i then 1 else 0) = {k | uses k = some j}.encard := by
  have hset : {k | update uses h none k = some j} = {k | uses k = some j} \ {h} := by
    ext k
    by_cases hk : k = h
    · simp [hk]
    · simp [hk]
  rw [hset]
  split_ifs with hj
  · exact encard_sdiff_singleton_add_one (by simpa [hj] using hu)
  · rw [sdiff_singleton_eq_self, add_zero]
    intro hh
    rw [mem_ofPred_eq, hu] at hh
    exact hj (Option.some.inj hh).symm

lemma encard_update_some (uses : H → Option I) (h : H) (i j : I) :
    {k | update uses h (some i) k = some j}.encard ≤
      {k | uses k = some j}.encard + (if j = i then 1 else 0) := by
  split_ifs with hj
  · refine le_trans (encard_le_encard ?_) (encard_insert_le _ h)
    intro k hk
    by_cases hkh : k = h
    · simp [hkh]
    · rw [mem_ofPred_eq, update_of_ne hkh] at hk
      exact mem_insert_of_mem _ hk
  · rw [add_zero]
    refine encard_le_encard fun k hk => ?_
    by_cases hkh : k = h
    · rw [mem_ofPred_eq, hkh, update_self] at hk
      exact absurd (Option.some.inj hk).symm hj
    · rwa [mem_ofPred_eq, update_of_ne hkh] at hk

lemma take (c : Counted uses pinned count (i :: free)) (h : H) :
    Counted (update uses h (some i)) pinned (update count i 1) free := by
  have hi : count i = 0 := c.zero i (by simp)
  refine ⟨fun j => ?_, fun j hj => ?_, fun j hj => ?_, (List.nodup_cons.mp c.nodup).2⟩
  · refine (encard_update_some uses h i j).trans ?_
    by_cases hj : j = i
    · subst hj
      have := c.covered j
      rw [hi] at this
      rw [if_pos rfl, update_self]
      simpa using add_le_add_left this 1
    · rw [if_neg hj, add_zero, update_of_ne hj]
      exact c.covered j
  · have hne : j ≠ i := fun e => (c.pinned j hj).ne' (by rw [e, hi])
    rw [update_of_ne hne]
    exact c.pinned j hj
  · have hne : j ≠ i := fun e => (List.nodup_cons.mp c.nodup).1 (e ▸ hj)
    rw [update_of_ne hne]
    exact c.zero j (by simp [hj])

lemma share (c : Counted uses pinned count free) (h : H) (hi : 0 < count i) :
    Counted (update uses h (some i)) pinned (update count i (count i + 1)) free := by
  refine ⟨fun j => ?_, fun j hj => ?_, fun j hj => ?_, c.nodup⟩
  · refine (encard_update_some uses h i j).trans ?_
    by_cases hj : j = i
    · subst hj
      rw [if_pos rfl, update_self, Nat.cast_add, Nat.cast_one]
      exact add_le_add_left (c.covered j) 1
    · rw [if_neg hj, add_zero, update_of_ne hj]
      exact c.covered j
  · by_cases hji : j = i
    · simp [hji]
    · rw [update_of_ne hji]
      exact c.pinned j hj
  · have hne : j ≠ i := fun e => hi.ne' (e ▸ c.zero j hj)
    rw [update_of_ne hne]
    exact c.zero j hj

lemma drop (c : Counted uses pinned count free) (hu : uses h = some i) (hp : pinned' ⊆ pinned)
    (hpin : i ∈ pinned' → 1 < count i) :
    Counted (update uses h none) pinned' (update count i (count i - 1))
      (if count i - 1 = 0 then i :: free else free) := by
  refine c.lower (c.pos_of_uses hu) (fun k j hk => ?_) hp ?_ hpin
  · by_cases hkh : k = h
    · simp [hkh] at hk
    · rwa [update_of_ne hkh] at hk
  · have := encard_update_none uses h i i hu
    rw [if_pos rfl] at this
    rw [this]
    exact c.covered i

lemma move (c : Counted uses pinned count free) (hu : uses h = some i) (h' : H) :
    Counted (update (update uses h none) h' (some i)) pinned count free := by
  have hout : ∀ k, k ≠ h' → ∀ j, update (update uses h none) h' (some i) k = some j → k ≠ h ∧ uses k = some j := by
    intro k hk j hj
    rw [update_of_ne hk] at hj
    by_cases hkh : k = h
    · simp [hkh] at hj
    · exact ⟨hkh, by rwa [update_of_ne hkh] at hj⟩
  refine c.rename (fun k => if k = h' then h else k) ?_ ?_
  · intro k j hj
    by_cases hk : k = h'
    · rw [hk, update_self] at hj
      rw [if_pos hk, ← hj, hu]
    · rw [if_neg hk]
      exact (hout k hk j hj).2
  · intro k l j hk hl he
    by_cases hk' : k = h' <;> by_cases hl' : l = h'
    · rw [hk', hl']
    · rw [if_pos hk', if_neg hl'] at he
      exact absurd he.symm (hout l hl' j hl).1
    · rw [if_neg hk', if_pos hl'] at he
      exact absurd he (hout k hk' j hk).1
    · rwa [if_neg hk', if_neg hl'] at he

end Counted

end Pke.Lib
