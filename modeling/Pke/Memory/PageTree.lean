import Pke.Memory.PageDirectory

namespace Pke.Memory

open Lib Function

structure Entry where
  ppn : ℕ
  flags : ℕ

def Entry.encode (e : Entry) : ℕ := 2 ^ 10 * e.ppn + e.flags

structure Entry.Wf (e : Entry) : Prop where
  ppn : e.ppn < 2 ^ 44
  flags : e.flags < 2 ^ 10
  valid : e.flags.testBit 0 = true

abbrev PageMap := ℕ → Option Entry

def encodeEntry : Option Entry → ℕ
  | none => 0
  | some e => e.encode

def linkWord : Option ℕ → ℕ
  | none => 0
  | some a => pa2pte a ||| pteV

section Words

variable {a n i : ℕ} {e : Entry}

lemma and_pow_eq_zero_iff (n i : ℕ) : n &&& 2 ^ i = 0 ↔ n.testBit i = false := by
  constructor
  · intro h
    have hbit : (n &&& 2 ^ i).testBit i = false := by rw [h, Nat.zero_testBit]
    simpa [Nat.testBit_two_pow_self] using hbit
  · intro h
    apply Nat.eq_of_testBit_eq
    intro j
    by_cases hj : i = j
    · subst hj
      simp [h]
    · simp [Nat.testBit_two_pow_of_ne hj]

lemma and_pteV_eq_zero_iff (n : ℕ) : n &&& pteV = 0 ↔ n.testBit 0 = false := and_pow_eq_zero_iff n 0

lemma linkWord_some (a : ℕ) : linkWord (some a) = 2 ^ 10 * (a / 2 ^ 12) + 1 := by
  rw [linkWord, pa2pte, Nat.mul_comm, Nat.two_pow_add_eq_or_of_lt (by norm_num)]

lemma linkWord_valid (a : ℕ) : linkWord (some a) &&& pteV ≠ 0 := by
  rw [ne_eq, and_pteV_eq_zero_iff, linkWord_some, Nat.testBit_two_pow_mul_add _ (by norm_num)]
  simp

lemma pte2pa_linkWord (ha : a < 2 ^ 64) (hal : a % 4096 = 0) : pte2pa (linkWord (some a)) = a := by
  rw [linkWord_some, pte2pa, u64]
  omega

lemma linkWord_lt (ha : a < 2 ^ 64) : linkWord (some a) < 2 ^ 64 := by
  rw [linkWord_some]
  omega

lemma Entry.encode_lt (h : e.Wf) : e.encode < 2 ^ 64 := by
  have hp := h.ppn
  have hf := h.flags
  rw [Entry.encode]
  omega

lemma Entry.testBit_encode (h : e.Wf) (hi : i < 10) : e.encode.testBit i = e.flags.testBit i := by
  rw [Entry.encode, Nat.testBit_two_pow_mul_add _ h.flags, if_pos hi]

lemma encodeEntry_valid_iff {o : Option Entry} (h : ∀ e, o = some e → e.Wf) :
    encodeEntry o &&& pteV = 0 ↔ o = none := by
  rw [and_pteV_eq_zero_iff]
  cases o with
  | none => simp [encodeEntry]
  | some e =>
    rw [encodeEntry, Entry.testBit_encode (h e rfl) (by norm_num), (h e rfl).valid]
    simp

lemma Entry.flags_encode (h : e.Wf) : pteFlags e.encode = e.flags := by
  have hf := h.flags
  rw [pteFlags, Entry.encode]
  have hmod := Nat.and_two_pow_sub_one_eq_mod (2 ^ 10 * e.ppn + e.flags) 10
  norm_num at hmod ⊢
  omega

lemma pte2pa_encode (h : e.Wf) : pte2pa e.encode = e.ppn * 4096 := by
  have hp := h.ppn
  have hf := h.flags
  rw [pte2pa, Entry.encode, u64]
  omega

lemma mapped_word (pa : ℕ) {perm : ℕ} (hp : perm < 2 ^ 10) :
    pa2pte pa ||| perm ||| pteV = Entry.encode ⟨pa / 2 ^ 12, perm ||| pteV⟩ := by
  have hlt : perm ||| pteV < 2 ^ 10 := Nat.or_lt_two_pow hp (by norm_num)
  rw [Entry.encode, pa2pte, Nat.or_assoc, Nat.mul_comm, Nat.two_pow_add_eq_or_of_lt hlt]

lemma Entry.mapped_wf {pa perm : ℕ} (hpa : pa < 2 ^ 56) (hp : perm < 2 ^ 10) :
    Entry.Wf ⟨pa / 2 ^ 12, perm ||| pteV⟩ where
  ppn := by
    change pa / 2 ^ 12 < 2 ^ 44
    omega
  flags := Nat.or_lt_two_pow hp (by norm_num)
  valid := by
    rw [Nat.testBit_or]
    simp

def Entry.cow (e : Entry) : Entry := ⟨e.ppn, e.flags &&& (2 ^ 10 - 1 - pteW) ||| pteCow⟩

lemma cow_word (h : e.Wf) : e.encode &&& (2 ^ 64 - 1 - pteW) ||| pteCow = e.cow.encode := by
  have hp := h.ppn
  have hf := h.flags
  have hdiv : e.encode / 2 ^ 10 = e.ppn := by
    rw [Entry.encode]
    omega
  have hmod : e.encode % 2 ^ 10 = e.flags := by
    rw [Entry.encode]
    omega
  have hhigh : (e.encode &&& (2 ^ 64 - 1 - pteW) ||| pteCow) / 2 ^ 10 = e.ppn := by
    rw [Nat.or_div_two_pow, Nat.and_div_two_pow, hdiv]
    have hmask : (2 ^ 64 - 1 - pteW) / 2 ^ 10 = 2 ^ 54 - 1 := by norm_num
    rw [hmask, Nat.and_two_pow_sub_one_of_lt_two_pow (by omega)]
    exact Nat.or_zero _
  have hlow : (e.encode &&& (2 ^ 64 - 1 - pteW) ||| pteCow) % 2 ^ 10 =
      e.flags &&& (2 ^ 10 - 1 - pteW) ||| pteCow := by
    rw [Nat.or_mod_two_pow, Nat.and_mod_two_pow, hmod]
    norm_num
  rw [← Nat.div_add_mod (e.encode &&& (2 ^ 64 - 1 - pteW) ||| pteCow) (2 ^ 10), hhigh, hlow]
  rfl

lemma Entry.Wf.cow (h : e.Wf) : e.cow.Wf where
  ppn := h.ppn
  flags := Nat.or_lt_two_pow (Nat.and_lt_two_pow _ (by norm_num)) (by norm_num)
  valid := by
    rw [Entry.cow, Nat.testBit_or, Nat.testBit_and, h.valid]
    decide

end Words

inductive Node where
  | root
  | mid (i : ℕ)
  | low (j : ℕ)
  deriving DecidableEq

structure Tree where
  dir : ℕ
  mid : ℕ → Option ℕ
  low : ℕ → Option ℕ

namespace Tree

def page (t : Tree) : Node → Option ℕ
  | .root => some t.dir
  | .mid i => t.mid i
  | .low j => t.low j

def content (t : Tree) (m : PageMap) : Node → ℕ → ℕ
  | .root, k => linkWord (t.mid k)
  | .mid i, k => linkWord (t.low (512 * i + k))
  | .low j, k => encodeEntry (m (512 * j + k))

def pages (t : Tree) : Set ℕ := {a | ∃ n, t.page n = some a}

structure Holds (t : Tree) (mem : ℕ → UInt8) (m : PageMap) : Prop where
  words : ∀ n a, t.page n = some a → ∀ k < 512, load64 mem (slot a k) = t.content m n k
  aligned : ∀ n a, t.page n = some a → a % 4096 = 0 ∧ a < 2 ^ 64
  apart : ∀ n n' a, t.page n = some a → t.page n' = some a → n = n'
  within : (∀ i a, t.mid i = some a → i < 512) ∧ ∀ j a, t.low j = some a → ∃ b, t.mid (j / 512) = some b
  covered : ∀ v e, m v = some e → ∃ a, t.low (v / 512) = some a
  wf : ∀ v e, m v = some e → e.Wf

namespace Holds

variable {t : Tree} {mem mem' : ℕ → UInt8} {m : PageMap} {n : Node} {a k v : ℕ} {o : Option Entry}

lemma congr (h : t.Holds mem m) (hm : ∀ a ∈ t.pages, ∀ x, a ≤ x → x < a + 4096 → mem' x = mem x) :
    t.Holds mem' m := by
  refine { h with words := ?_ }
  intro n a hn k hk
  rw [← h.words n a hn k hk]
  apply load64_congr
  intro i hi
  apply hm a ⟨n, hn⟩ <;> unfold slot <;> omega

lemma setEntry (h : t.Holds mem m) {j : ℕ} (hj : t.low j = some a) (hk : k < 512) (ho : ∀ e, o = some e → e.Wf) :
    t.Holds (store64 mem (slot a k) (encodeEntry o)) (update m (512 * j + k) o) := by
  have hlt : encodeEntry o < 2 ^ 64 := by
    cases o with
    | none => norm_num [encodeEntry]
    | some e => exact Entry.encode_lt (ho e rfl)
  refine { h with words := ?_, covered := ?_, wf := ?_ }
  · intro n b hn l hl
    have hb := (h.aligned n b hn).1
    have ha := (h.aligned (.low j) a hj).1
    by_cases hsame : b = a ∧ l = k
    · obtain ⟨rfl, rfl⟩ := hsame
      cases h.apart n (.low j) b hn hj
      rw [load64_store64_self _ _ hlt, content, update_self]
    · rw [load64_store64_slot _ _ ha hb hk hl (fun e e' => hsame ⟨e, e'⟩), h.words n b hn l hl]
      cases n with
      | root => rfl
      | mid i => rfl
      | low i =>
        simp only [content]
        rw [update_of_ne]
        intro e
        have hi : i = j := by omega
        subst hi
        have hab : b = a := Option.some.inj (hn.symm.trans hj)
        exact hsame ⟨hab, by omega⟩
  · intro v e hv
    by_cases hvj : v = 512 * j + k
    · refine ⟨a, ?_⟩
      rw [hvj, ← hj]
      congr 1
      omega
    · exact h.covered v e (by rwa [update_of_ne hvj] at hv)
  · intro v e hv
    by_cases hvj : v = 512 * j + k
    · rw [hvj, update_self] at hv
      exact ho e hv
    · exact h.wf v e (by rwa [update_of_ne hvj] at hv)

end Holds

end Tree

namespace Node

def Inner : Node → Prop
  | .low _ => False
  | _ => True

def child : Node → ℕ → Node
  | .root, k => .mid k
  | .mid i, k => .low (512 * i + k)
  | .low j, _ => .low j

lemma child_inj {n n' : Node} {k k' : ℕ} (hn : n.Inner) (hn' : n'.Inner) (hk : k < 512) (hk' : k' < 512)
    (h : n.child k = n'.child k') : n = n' ∧ k = k' := by
  cases n with
  | root =>
    cases n' with
    | root => exact ⟨rfl, Node.mid.inj h⟩
    | mid i => cases h
    | low j => exact hn'.elim
  | mid i =>
    cases n' with
    | root => cases h
    | mid i' =>
      have hj : 512 * i + k = 512 * i' + k' := Node.low.inj h
      have hi : i = i' := by omega
      subst hi
      exact ⟨rfl, by omega⟩
    | low j => exact hn'.elim
  | low j => exact hn.elim

end Node

namespace Tree

variable {t : Tree} {mem : ℕ → UInt8} {m : PageMap} {n x : Node} {a b k : ℕ}

lemma content_inner (hn : n.Inner) (k : ℕ) : t.content m n k = linkWord (t.page (n.child k)) := by
  cases n with
  | root => rfl
  | mid i => rfl
  | low j => exact hn.elim

def attach (t : Tree) : Node → ℕ → Tree
  | .root, _ => t
  | .mid i, a => { t with mid := update t.mid i (some a) }
  | .low j, a => { t with low := update t.low j (some a) }

@[simp] lemma attach_dir (t : Tree) (x : Node) (a : ℕ) : (t.attach x a).dir = t.dir := by
  cases x <;> rfl

lemma page_attach_self (hx : x ≠ .root) : (t.attach x a).page x = some a := by
  cases x with
  | root => exact absurd rfl hx
  | mid i => simp [attach, page]
  | low j => simp [attach, page]

lemma page_attach_of_ne (hx : n ≠ x) : (t.attach x a).page n = t.page n := by
  cases x with
  | root => rfl
  | mid i =>
    cases n with
    | root => rfl
    | mid i' => exact update_of_ne (fun e => hx (by rw [e])) _ _
    | low j => rfl
  | low j =>
    cases n with
    | root => rfl
    | mid i => rfl
    | low j' => exact update_of_ne (fun e => hx (by rw [e])) _ _

lemma content_attach (hn : n.Inner → n.child k ≠ x) : (t.attach x a).content m n k = t.content m n k := by
  by_cases hi : n.Inner
  · rw [content_inner hi, content_inner hi, page_attach_of_ne (hn hi)]
  · cases n with
    | low j => rfl
    | root => exact absurd trivial hi
    | mid i => exact absurd trivial hi

namespace Holds

lemma content_missing (h : t.Holds mem m) (hx : t.page x = none) (hk : k < 512) : t.content m x k = 0 := by
  cases x with
  | root => cases hx
  | mid i =>
    have hlow : t.low (512 * i + k) = none := by
      rw [Option.eq_none_iff_forall_ne_some]
      intro c hc
      obtain ⟨d, hd⟩ := h.within.2 _ c hc
      have hi : (512 * i + k) / 512 = i := by omega
      rw [hi] at hd
      cases hx.symm.trans hd
    rw [content, hlow, linkWord]
  | low j =>
    have hm : m (512 * j + k) = none := by
      rw [Option.eq_none_iff_forall_ne_some]
      intro e he
      obtain ⟨c, hc⟩ := h.covered _ e he
      have hj : (512 * j + k) / 512 = j := by omega
      rw [hj] at hc
      cases hx.symm.trans hc
    rw [content, hm, encodeEntry]

lemma attach_words (h : t.Holds mem m) (hn : n.Inner) (hb : t.page n = some b) (hk : k < 512)
    (hx : t.page (n.child k) = none) (hal : a % 4096 = 0) (ha : a < 2 ^ 64) (hnew : a ∉ t.pages) {y : Node} {c l : ℕ}
    (hy : (t.attach (n.child k) a).page y = some c) (hl : l < 512) :
    load64 (store64 (clearPage mem a) (slot b k) (linkWord (some a))) (slot c l) =
      (t.attach (n.child k) a).content m y l := by
  have hbal := (h.aligned n b hb).1
  have hba : a ≠ b := fun e => hnew ⟨n, e ▸ hb⟩
  have hroot : n.child k ≠ .root := by
    cases n <;> simp [Node.child]
  by_cases hyx : y = n.child k
  · subst hyx
    rw [page_attach_self hroot, Option.some.injEq] at hy
    subst hy
    have hown : (n.child k).Inner → (n.child k).child l ≠ n.child k := by
      cases n <;> simp [Node.child, Node.Inner]
    rw [load64_store64_slot _ _ hbal hal hk hl (fun e => absurd e hba), load64_clearPage_self _ _ hl,
      content_attach hown, h.content_missing hx hl]
  · rw [page_attach_of_ne hyx] at hy
    have hcal := (h.aligned y c hy).1
    have hca : c ≠ a := fun e => hnew ⟨y, e ▸ hy⟩
    by_cases hsame : c = b ∧ l = k
    · obtain ⟨rfl, rfl⟩ := hsame
      cases h.apart y n c hy hb
      rw [load64_store64_self _ _ (linkWord_lt ha), content_inner hn, page_attach_self hroot]
    · have hother : y.Inner → y.child l ≠ n.child k := by
        intro hyi e
        obtain ⟨rfl, rfl⟩ := Node.child_inj hyi hn hl hk e
        exact hsame ⟨Option.some.inj (hy.symm.trans hb), rfl⟩
      rw [load64_store64_slot _ _ hbal hcal hk hl (fun e e' => hsame ⟨e, e'⟩),
        load64_clearPage_of_ne _ hal hcal hca hl, content_attach hother, h.words y c hy l hl]

lemma attach (h : t.Holds mem m) (hn : n.Inner) (hb : t.page n = some b) (hk : k < 512)
    (hx : t.page (n.child k) = none) (hal : a % 4096 = 0) (ha : a < 2 ^ 64) (hnew : a ∉ t.pages) :
    (t.attach (n.child k) a).Holds (store64 (clearPage mem a) (slot b k) (linkWord (some a))) m := by
  have hroot : n.child k ≠ .root := by
    cases n <;> simp [Node.child]
  have hpage : ∀ y c, (t.attach (n.child k) a).page y = some c → y = n.child k ∧ c = a ∨ t.page y = some c := by
    intro y c hy
    by_cases hyx : y = n.child k
    · subst hyx
      rw [page_attach_self hroot, Option.some.injEq] at hy
      exact .inl ⟨rfl, hy.symm⟩
    · rw [page_attach_of_ne hyx] at hy
      exact .inr hy
  have hold : ∀ y c, t.page y = some c → (t.attach (n.child k) a).page y = some c := by
    intro y c hy
    have hyx : y ≠ n.child k := by
      rintro rfl
      cases hx.symm.trans hy
    rw [page_attach_of_ne hyx, hy]
  refine ⟨fun y c hy l hl => h.attach_words hn hb hk hx hal ha hnew hy hl, ?_, ?_, ⟨?_, ?_⟩, ?_, h.wf⟩
  · intro y c hy
    rcases hpage y c hy with ⟨-, rfl⟩ | hy
    · exact ⟨hal, ha⟩
    · exact h.aligned y c hy
  · intro y y' c hy hy'
    rcases hpage y c hy with ⟨rfl, rfl⟩ | hy <;> rcases hpage y' c hy' with ⟨rfl, h'⟩ | hy'
    · rfl
    · exact absurd ⟨y', hy'⟩ hnew
    · exact absurd ⟨y, h' ▸ hy⟩ hnew
    · exact h.apart y y' c hy hy'
  · intro i c hi
    rcases hpage (.mid i) c hi with ⟨e, -⟩ | hi
    · cases n with
      | root =>
        have : i = k := Node.mid.inj e
        omega
      | mid i' => cases e
      | low j => cases e
    · exact h.within.1 i c hi
  · intro j c hj
    rcases hpage (.low j) c hj with ⟨e, -⟩ | hj
    · cases n with
      | root => cases e
      | mid i =>
        have hji : j = 512 * i + k := Node.low.inj e
        refine ⟨b, hold (.mid (j / 512)) b ?_⟩
        have hdiv : j / 512 = i := by omega
        rw [hdiv]
        exact hb
      | low i => exact hn.elim
    · obtain ⟨d, hd⟩ := h.within.2 j c hj
      exact ⟨d, hold (.mid (j / 512)) d hd⟩
  · intro v e hv
    obtain ⟨c, hc⟩ := h.covered v e hv
    exact ⟨c, hold (.low (v / 512)) c hc⟩

end Holds

end Tree

end Pke.Memory
