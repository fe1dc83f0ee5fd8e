import Pke.Files.RfsEffects

namespace Pke.Files

open Lib Flow Function

@[ext]
structure Space where
  addrs : Fin 10 → ℤ
  blocks : ℕ
  free : ℕ → ℤ

def firstFree (free : ℕ → ℤ) : Option ℕ := (List.range 100).find? fun b => free b = 0

def freeCount (free : ℕ → ℤ) : ℕ := ((Finset.range 100).filter fun b => free b = 0).card

namespace Space

variable {a c : Space} {k l m n p : ℕ} {D : ℕ → ℕ → UInt8}

def more (a : Space) : Option Space :=
  (firstFree a.free).bind fun b =>
    if h : a.blocks < 10 then some ⟨update a.addrs ⟨a.blocks, h⟩ (12 + b : ℕ), a.blocks + 1, update a.free b 1⟩
    else none

def extend : ℕ → Space → Option Space
  | 0, a => some a
  | n + 1, a => a.more.bind (extend n)

def num (a : Space) (k : ℕ) : ℕ := if h : k < 10 then (a.addrs ⟨k, h⟩).toNat else 0

def byte (D : ℕ → ℕ → UInt8) (a : Space) (p : ℕ) : UInt8 := D (a.num (p / 4096)) (p % 4096)

structure Owns (a : Space) : Prop where
  le : a.blocks ≤ 10
  own : ∀ k : Fin 10, (k : ℕ) < a.blocks → ∃ b < 100, a.addrs k = (12 + b : ℕ) ∧ a.free b ≠ 0
  inj : ∀ k l : Fin 10, (k : ℕ) < a.blocks → (l : ℕ) < a.blocks → a.addrs k = a.addrs l → k = l

lemma extend_one : a.extend 1 = a.more := Option.bind_fun_some _

lemma extend_add : a.extend (m + n) = (a.extend m).bind (extend n) := by
  induction m generalizing a with
  | zero => rw [Nat.zero_add, extend, Option.bind_some]
  | succ m ih =>
    rw [Nat.add_right_comm, extend, extend, Option.bind_assoc]
    congr 1
    funext c
    exact ih

end Space

section FirstFree

variable {free : ℕ → ℤ} {b : ℕ}

lemma firstFree_some (h : firstFree free = some b) : b < 100 ∧ free b = 0 :=
  ⟨List.mem_range.mp (List.mem_of_find?_eq_some h), by simpa using List.find?_some h⟩

lemma firstFree_none : firstFree free = none ↔ ∀ b < 100, free b ≠ 0 := by
  simp [firstFree]

lemma freeCount_take (h : firstFree free = some b) : freeCount (update free b 1) + 1 = freeCount free := by
  obtain ⟨hb, hz⟩ := firstFree_some h
  have hmem : b ∈ (Finset.range 100).filter fun b => free b = 0 := Finset.mem_filter.mpr ⟨Finset.mem_range.mpr hb, hz⟩
  have herase : ((Finset.range 100).filter fun x => update free b 1 x = 0) =
      ((Finset.range 100).filter fun b => free b = 0).erase b := by
    ext x
    by_cases hx : x = b
    · simp [hx]
    · simp [hx]
  rw [freeCount, herase]
  exact Finset.card_erase_add_one hmem

lemma firstFree_of_count (h : 0 < freeCount free) : ∃ b, firstFree free = some b := by
  cases hf : firstFree free with
  | some b => exact ⟨b, rfl⟩
  | none =>
    obtain ⟨x, hx⟩ := Finset.card_pos.mp h
    rw [Finset.mem_filter, Finset.mem_range] at hx
    exact absurd hx.2 (firstFree_none.mp hf x hx.1)

end FirstFree

namespace Space

variable {a c : Space} {k l m n p : ℕ} {D : ℕ → ℕ → UInt8} {block : ℕ → UInt8}

lemma more_some (h : a.more = some c) : ∃ b, firstFree a.free = some b ∧ ∃ hlt : a.blocks < 10,
    c = ⟨update a.addrs ⟨a.blocks, hlt⟩ (12 + b : ℕ), a.blocks + 1, update a.free b 1⟩ := by
  obtain ⟨b, hb, hc⟩ := Option.bind_eq_some_iff.mp h
  refine ⟨b, hb, ?_⟩
  by_cases hlt : a.blocks < 10
  · rw [dif_pos hlt, Option.some.injEq] at hc
    exact ⟨hlt, hc.symm⟩
  · rw [dif_neg hlt] at hc
    cases hc

lemma Owns.more (ha : a.Owns) (h : a.more = some c) : c.Owns := by
  obtain ⟨b, hb, hlt, rfl⟩ := more_some h
  obtain ⟨hb100, hz⟩ := firstFree_some hb
  -- the new block is none of the old ones, since those are not free
  have hnew : ∀ k : Fin 10, (k : ℕ) < a.blocks → a.addrs k ≠ (12 + b : ℕ) := by
    intro k hk e
    obtain ⟨b', -, he, hf⟩ := ha.own k hk
    have hbb : b' = b := by omega
    exact hf (hbb ▸ hz)
  have hkeep : ∀ k : Fin 10, (k : ℕ) < a.blocks → update a.addrs ⟨a.blocks, hlt⟩ ((12 + b : ℕ) : ℤ) k = a.addrs k := by
    intro k hk
    exact update_of_ne (fun e => by rw [e] at hk; exact absurd hk (lt_irrefl _)) _ _
  have hsplit : ∀ k : Fin 10, (k : ℕ) < a.blocks + 1 → (k : ℕ) < a.blocks ∨ k = ⟨a.blocks, hlt⟩ := by
    intro k hk
    rcases Nat.lt_succ_iff_lt_or_eq.mp hk with h | h
    · exact .inl h
    · exact .inr (Fin.ext h)
  refine ⟨hlt, ?_, ?_⟩
  · intro k hk
    change ∃ x < 100, update a.addrs _ _ k = _ ∧ update a.free b 1 x ≠ 0
    rcases hsplit k hk with h | rfl
    · obtain ⟨b', hb', he, hf⟩ := ha.own k h
      refine ⟨b', hb', (hkeep k h).trans he, ?_⟩
      have hne : b' ≠ b := by
        rintro rfl
        exact hf hz
      rwa [update_of_ne hne]
    · refine ⟨b, hb100, update_self _ _ _, ?_⟩
      rw [update_self]
      exact one_ne_zero
  · intro k l hk hl
    change update a.addrs _ _ k = update a.addrs _ _ l → _
    rcases hsplit k hk with h | rfl
    · rw [hkeep k h]
      rcases hsplit l hl with h' | rfl
      · rw [hkeep l h']
        exact ha.inj k l h h'
      · rw [update_self]
        exact fun e => absurd e (hnew k h)
    · rw [update_self]
      rcases hsplit l hl with h' | rfl
      · rw [hkeep l h']
        exact fun e => absurd e.symm (hnew l h')
      · exact fun _ => rfl

lemma num_eq (hk : k < 10) : a.num k = (a.addrs ⟨k, hk⟩).toNat := dif_pos hk

lemma more_num (h : a.more = some c) (hk : k < a.blocks) : c.num k = a.num k := by
  obtain ⟨b, -, hlt, rfl⟩ := more_some h
  rw [num_eq (by omega), num_eq (by omega)]
  have hne : (⟨k, by omega⟩ : Fin 10) ≠ ⟨a.blocks, hlt⟩ := by
    rw [ne_eq, Fin.mk.injEq]
    omega
  exact congrArg Int.toNat (update_of_ne hne _ _)

lemma extend_spec (ha : a.Owns) (h : a.extend n = some c) :
    c.Owns ∧ c.blocks = a.blocks + n ∧ ∀ k < a.blocks, c.num k = a.num k := by
  induction n generalizing a with
  | zero =>
    rw [extend, Option.some.injEq] at h
    subst h
    exact ⟨ha, rfl, fun _ _ => rfl⟩
  | succ n ih =>
    obtain ⟨d, hd, hc⟩ := Option.bind_eq_some_iff.mp h
    obtain ⟨hown, hlen, hnum⟩ := ih (ha.more hd) hc
    have hmore : d.blocks = a.blocks + 1 := by
      obtain ⟨b, -, hlt, rfl⟩ := more_some hd
      rfl
    refine ⟨hown, by omega, ?_⟩
    intro k hk
    rw [hnum k (by omega), more_num hd hk]

lemma extend_count (h : a.extend n = some c) : freeCount c.free + n = freeCount a.free := by
  induction n generalizing a with
  | zero =>
    rw [extend, Option.some.injEq] at h
    rw [h, Nat.add_zero]
  | succ n ih =>
    obtain ⟨d, hd, hc⟩ := Option.bind_eq_some_iff.mp h
    obtain ⟨b, hb, hlt, rfl⟩ := more_some hd
    have htake := freeCount_take hb
    have hrest : freeCount c.free + n = freeCount (update a.free b 1) := ih hc
    omega

lemma extend_of_count (hfree : n ≤ freeCount a.free) (hle : a.blocks + n ≤ 10) : ∃ c, a.extend n = some c := by
  induction n generalizing a with
  | zero => exact ⟨a, rfl⟩
  | succ n ih =>
    have hpos : 0 < freeCount a.free := by omega
    obtain ⟨b, hb⟩ := firstFree_of_count hpos
    have hcount := freeCount_take hb
    obtain ⟨c, hc⟩ := ih (a := ⟨update a.addrs ⟨a.blocks, by omega⟩ (12 + b : ℕ), a.blocks + 1, update a.free b 1⟩)
      (by change n ≤ freeCount (update a.free b 1); omega) (by change a.blocks + 1 + n ≤ 10; omega)
    refine ⟨c, ?_⟩
    rw [extend, more, hb, Option.bind_some, dif_pos (by omega), Option.bind_some, hc]

lemma Owns.num_lt (ha : a.Owns) (hk : k < a.blocks) : a.num k < 128 := by
  have hle := ha.le
  obtain ⟨b, hb, he, -⟩ := ha.own ⟨k, by omega⟩ hk
  rw [num_eq (by omega), he]
  change 12 + b < 128
  omega

lemma Owns.addrs_num (ha : a.Owns) (hk : k < a.blocks) (hlt : k < 10) : a.addrs ⟨k, hlt⟩ = (a.num k : ℕ) := by
  obtain ⟨b, hb, he, -⟩ := ha.own ⟨k, hlt⟩ hk
  rw [num_eq hlt, he]
  rfl

lemma Owns.num_inj (ha : a.Owns) (hk : k < a.blocks) (hl : l < a.blocks) (h : a.num k = a.num l) : k = l := by
  have hle := ha.le
  have heq : a.addrs ⟨k, by omega⟩ = a.addrs ⟨l, by omega⟩ := by
    rw [ha.addrs_num hk, ha.addrs_num hl, h]
  exact Fin.mk.inj_iff.mp (ha.inj _ _ hk hl heq)

lemma Owns.byte_update (ha : a.Owns) (hk : k < a.blocks) (hp : p / 4096 < a.blocks) :
    byte (update D (a.num k) block) a p = if p / 4096 = k then block (p % 4096) else byte D a p := by
  rw [byte, byte]
  by_cases h : p / 4096 = k
  · rw [if_pos h, h, update_self]
  · rw [if_neg h, update_of_ne (fun e => h (ha.num_inj hp hk e))]

end Space

end Pke.Files
