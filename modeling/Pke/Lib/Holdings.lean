import Mathlib.Data.Set.Card
import Mathlib.Tactic

/-! Owners that hold items in numbered places, each item at one place only. Every owner has an item of its own
besides, which no other owner holds; so there are never more owners than items in use. -/

namespace Pke.Lib

open Set

variable {O I B : Type}

structure Holdings (live : Set O) (holds : O → I → B → Prop) (used : Set B) : Prop where
  own : ∀ {n m i j b}, holds n i b → holds m j b → n = m ∧ i = j
  taken : ∀ {n i b}, holds n i b → b ∈ used
  seed : ∃ f : O → B, (∀ n ∈ live, f n ∈ used) ∧ InjOn f live ∧ ∀ n ∈ live, ∀ m i, holds m i (f n) → m = n

namespace Holdings

variable {live live' : Set O} {holds holds' : O → I → B → Prop} {used used' : Set B} {n : O} {i : I} {b : B}

lemma congr (h : Holdings live holds used) (hlive : live' ⊆ live) (hh : ∀ n i b, holds' n i b → holds n i b) :
    Holdings live' holds' used where
  own hn hm := h.own (hh _ _ _ hn) (hh _ _ _ hm)
  taken hn := h.taken (hh _ _ _ hn)
  seed := by
    obtain ⟨f, hu, hinj, hsole⟩ := h.seed
    exact ⟨f, fun n hn => hu n (hlive hn), hinj.mono hlive, fun n hn m i hm => hsole n (hlive hn) m i (hh _ _ _ hm)⟩

lemma gain (h : Holdings live holds used) (hb : b ∉ used)
    (hh : ∀ m j c, holds' m j c → holds m j c ∨ m = n ∧ j = i ∧ c = b) :
    Holdings live holds' (insert b used) where
  own := by
    intro m m' j j' c hm hm'
    rcases hh _ _ _ hm with hm | ⟨rfl, rfl, rfl⟩ <;> rcases hh _ _ _ hm' with hm' | ⟨rfl, rfl, hc⟩
    · exact h.own hm hm'
    · exact absurd (hc ▸ h.taken hm) hb
    · exact absurd (h.taken hm') hb
    · exact ⟨rfl, rfl⟩
  taken := by
    intro m j c hm
    rcases hh _ _ _ hm with hm | ⟨-, -, rfl⟩
    · exact mem_insert_of_mem _ (h.taken hm)
    · exact mem_insert _ _
  seed := by
    obtain ⟨f, hu, hinj, hsole⟩ := h.seed
    refine ⟨f, fun m hm => mem_insert_of_mem _ (hu m hm), hinj, ?_⟩
    intro m hm m' j hm'
    rcases hh _ _ _ hm' with hm' | ⟨-, -, hc⟩
    · exact hsole m hm m' j hm'
    · exact absurd (hc ▸ hu m hm) hb

lemma spawn [DecidableEq O] (h : Holdings live holds used) (hn : n ∉ live) (hb : b ∉ used)
    (hh : ∀ m j c, holds' m j c → holds m j c ∨ m = n ∧ j = i ∧ c = b) :
    Holdings (insert n live) holds' (insert b used) where
  own := (h.gain hb hh).own
  taken := (h.gain hb hh).taken
  seed := by
    obtain ⟨f, hu, hinj, hsole⟩ := h.seed
    have hold : ∀ m ∈ live, Function.update f n b m = f m := by
      intro m hm
      exact Function.update_of_ne (ne_of_mem_of_not_mem hm hn) _ _
    refine ⟨Function.update f n b, ?_, ?_, ?_⟩
    · rintro m (rfl | hm)
      · rw [Function.update_self]
        exact mem_insert _ _
      · rw [hold m hm]
        exact mem_insert_of_mem _ (hu m hm)
    · rintro m (rfl | hm) m' (rfl | hm') e
      · rfl
      · rw [Function.update_self, hold m' hm'] at e
        exact absurd (e ▸ hu m' hm') hb
      · rw [Function.update_self, hold m hm] at e
        exact absurd (e ▸ hu m hm) hb
      · rw [hold m hm, hold m' hm'] at e
        exact hinj hm hm' e
    · rintro m (rfl | hm) m' j hm'
      · rw [Function.update_self] at hm'
        rcases hh _ _ _ hm' with hm' | ⟨rfl, -, -⟩
        · exact absurd (h.taken hm') hb
        · rfl
      · rw [hold m hm] at hm'
        rcases hh _ _ _ hm' with hm' | ⟨-, -, hc⟩
        · exact hsole m hm m' j hm'
        · exact absurd (hc ▸ hu m hm) hb

lemma die (h : Holdings live holds used) (hlive : live' ⊆ live \ {n})
    (hh : ∀ m j c, holds' m j c → holds m j c ∧ m ≠ n)
    (hused : ∀ c ∈ used, c ∈ used' ∨ ∃ j, holds n j c) : Holdings live' holds' used' where
  own hm hm' := h.own (hh _ _ _ hm).1 (hh _ _ _ hm').1
  taken := by
    intro m j c hm
    obtain ⟨hm, hne⟩ := hh _ _ _ hm
    rcases hused c (h.taken hm) with hc | ⟨j', hj'⟩
    · exact hc
    · exact absurd (h.own hm hj').1 hne
  seed := by
    obtain ⟨f, hu, hinj, hsole⟩ := h.seed
    have hsub : live' ⊆ live := fun m hm => (hlive hm).1
    refine ⟨f, ?_, hinj.mono hsub, fun m hm m' j hm' => hsole m (hsub hm) m' j (hh _ _ _ hm').1⟩
    intro m hm
    rcases hused (f m) (hu m (hsub hm)) with hc | ⟨j, hj⟩
    · exact hc
    · exact absurd (hsole m (hsub hm) n j hj).symm (hlive hm).2

lemma encard_le (h : Holdings live holds used) : live.encard ≤ used.encard := by
  obtain ⟨f, hu, hinj, -⟩ := h.seed
  exact encard_le_encard_of_injOn hu hinj

end Holdings

end Pke.Lib
