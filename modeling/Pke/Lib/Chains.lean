import Mathlib.Data.List.Nodup
import Mathlib.Logic.Function.Basic
import Mathlib.Tactic

/-! Chains of cells threaded by a link map, and the walks along them. -/

namespace Pke.Lib

open Function

variable {α : Type}

/-- The chain that starts at a link and runs through the cells of a list down to the null link. -/
def Chain (next : α → Option α) : Option α → List α → Prop
  | h, [] => h = none
  | h, a :: l => h = some a ∧ Chain next (next a) l

namespace Chain

variable {next next' : α → Option α} {h : Option α} {a x : α} {l m : List α}

@[simp] lemma nil_iff : Chain next h [] ↔ h = none := Iff.rfl
@[simp] lemma cons_iff : Chain next h (a :: l) ↔ h = some a ∧ Chain next (next a) l := Iff.rfl

lemma unique (hl : Chain next h l) (hm : Chain next h m) : l = m := by
  induction l generalizing h m with
  | nil =>
    cases m with
    | nil => rfl
    | cons b m => rw [nil_iff.mp hl] at hm; simp at hm
  | cons a l ih =>
    obtain ⟨rfl, hl⟩ := hl
    cases m with
    | nil => simp at hm
    | cons b m =>
      obtain ⟨hb, hm⟩ := hm
      cases Option.some.inj hb
      rw [ih hl hm]

lemma suffix (hl : Chain next h l) (ha : a ∈ l) : ∃ m, Chain next (some a) m ∧ m.length ≤ l.length := by
  induction l generalizing h with
  | nil => simp at ha
  | cons b l ih =>
    rcases List.mem_cons.mp ha with rfl | ha
    · exact ⟨a :: l, ⟨rfl, hl.2⟩, le_rfl⟩
    · obtain ⟨m, hm, hlen⟩ := ih hl.2 ha
      exact ⟨m, hm, hlen.trans (Nat.le_succ _)⟩

lemma nodup (hl : Chain next h l) : l.Nodup := by
  induction l generalizing h with
  | nil => exact List.nodup_nil
  | cons a l ih =>
    refine List.nodup_cons.mpr ⟨fun ha => ?_, ih hl.2⟩
    obtain ⟨m, hm, hlen⟩ := hl.2.suffix ha
    have hsame : a :: l = m := Chain.unique ⟨rfl, hl.2⟩ hm
    rw [← hsame, List.length_cons] at hlen
    omega

lemma congr (hn : ∀ b ∈ l, next' b = next b) (hl : Chain next h l) : Chain next' h l := by
  induction l generalizing h with
  | nil => exact hl
  | cons a l ih =>
    refine ⟨hl.1, ?_⟩
    rw [hn a (by simp)]
    exact ih (fun b hb => hn b (by simp [hb])) hl.2

variable [DecidableEq α]

lemma update_of_notMem (hx : x ∉ l) (v : Option α) (hl : Chain next h l) :
    Chain (update next x v) h l :=
  hl.congr fun _ hb => update_of_ne (ne_of_mem_of_not_mem hb hx) _ _

lemma push (hl : Chain next h l) (hx : x ∉ l) : Chain (update next x h) (some x) (x :: l) := by
  refine ⟨rfl, ?_⟩
  rw [update_self]
  exact hl.update_of_notMem hx h

lemma unlink (hl : Chain next h (m ++ a :: x :: l)) : Chain (update next a (next x)) h (m ++ a :: l) := by
  have hnodup := hl.nodup
  induction m generalizing h with
  | nil =>
    obtain ⟨rfl, hx, hl⟩ := hl
    refine ⟨rfl, ?_⟩
    rw [update_self]
    refine hl.update_of_notMem ?_ _
    simp only [List.nil_append, List.nodup_cons, List.mem_cons, not_or] at hnodup
    exact hnodup.1.2
  | cons b m ih =>
    obtain ⟨rfl, hl⟩ := hl
    refine ⟨rfl, ?_⟩
    have hne : b ≠ a := by
      rintro rfl
      simp at hnodup
    rw [update_of_ne hne]
    exact ih hl (List.nodup_cons.mp hnodup).2

lemma snoc (hl : Chain next h l) (hnd : l.Nodup) (hx : x ∉ l) (hne : l ≠ []) :
    Chain (update (update next (l.getLast hne) (some x)) x none) h (l ++ [x]) := by
  induction l generalizing h with
  | nil => exact absurd rfl hne
  | cons a l ih =>
    obtain ⟨rfl, hl⟩ := hl
    have hxa : a ≠ x := fun e => hx (by simp [e])
    refine ⟨rfl, ?_⟩
    rw [update_of_ne hxa]
    cases l with
    | nil => simp
    | cons b l =>
      have hal : a ≠ (b :: l).getLast (by simp) := fun e =>
        (List.nodup_cons.mp hnd).1 (e ▸ List.getLast_mem _)
      rw [List.getLast_cons (by simp), update_of_ne hal]
      exact ih hl (List.nodup_cons.mp hnd).2 (fun e => hx (by simp [e])) (by simp)

end Chain

/-- Follow the links until `stop` is met (`none`) or the last cell is reached (`some last`);
no answer within the fuel means that the links run in a circle. -/
def scan [DecidableEq α] (next : α → Option α) (stop : α) : ℕ → α → Option (Option α)
  | 0, _ => none
  | n + 1, a =>
    if a = stop then some none
    else
      match next a with
      | none => some (some a)
      | some b => scan next stop n b

def lastOf (next : α → Option α) : ℕ → α → Option α
  | 0, _ => none
  | n + 1, a =>
    match next a with
    | none => some a
    | some b => lastOf next n b

section Walks

variable {next : α → Option α} {a : α} {l : List α} {n : ℕ}

lemma scan_notMem [DecidableEq α] {stop : α} (hl : Chain next (some a) l) (hs : stop ∉ l)
    (hn : l.length ≤ n) (hne : l ≠ []) : scan next stop n a = some (some (l.getLast hne)) := by
  induction l generalizing a n with
  | nil => exact absurd rfl hne
  | cons b l ih =>
    obtain ⟨hb, hl⟩ := hl
    obtain rfl : a = b := Option.some.inj hb
    have hab : a ≠ stop := fun e => hs (by simp [e])
    cases n with
    | zero => simp at hn
    | succ n =>
      cases l with
      | nil => simp [scan, hab, Chain.nil_iff.mp hl]
      | cons c l =>
        have hna : next a = some c := hl.1
        rw [hna] at hl
        have hh := ih hl (fun e => hs (by simp [e])) (by simpa using hn) (by simp)
        simpa [scan, hab, hna] using hh

lemma lastOf_chain (hl : Chain next (some a) l) (hn : l.length ≤ n) (hne : l ≠ []) :
    lastOf next n a = some (l.getLast hne) := by
  induction l generalizing a n with
  | nil => exact absurd rfl hne
  | cons b l ih =>
    obtain ⟨hb, hl⟩ := hl
    obtain rfl : a = b := Option.some.inj hb
    cases n with
    | zero => simp at hn
    | succ n =>
      cases l with
      | nil => simp [lastOf, Chain.nil_iff.mp hl]
      | cons c l =>
        have hna : next a = some c := hl.1
        rw [hna] at hl
        simpa [lastOf, hna] using ih hl (by simpa using hn) (by simp)

end Walks

end Pke.Lib
