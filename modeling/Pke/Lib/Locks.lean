import Mathlib.Data.List.Basic
import Mathlib.Logic.Function.Basic
import Mathlib.Logic.Relation
import Mathlib.Tactic

/-! Any number of parties that run sections of code under one lock, statement by statement. -/

namespace Pke.Lib.Locks

open Function

variable {H Op L σ : Type}

/-- A statement works on the local variables and the shared data; `none` stops everything. -/
abbrev Stmt (L σ : Type) := L → σ → Option (L × σ)

def exec (p : List (Stmt L σ)) (l : L) (d : σ) : Option (L × σ) := p.foldlM (fun x f => f x.1 x.2) (l, d)

inductive Phase (Op L : Type) where
  | idle
  | trying (op : Op)
  | inside (op : Op) (pc : ℕ) (l : L)

def Phase.isInside : Phase Op L → Prop
  | .inside _ _ _ => True
  | _ => False

/-- The log has the calls that returned, the last one first, with their local variables at the end. -/
structure State (H Op L σ : Type) where
  lock : Bool
  data : σ
  phase : H → Phase Op L
  log : List (H × Op × L)

variable (prog : Op → List (Stmt L σ)) (start : L)

def State.swap [DecidableEq H] (s : State H Op L σ) (h : H) (op : Op) : State H Op L σ :=
  if s.lock then s else { s with lock := true, phase := update s.phase h (.inside op 0 start) }

inductive Step [DecidableEq H] : State H Op L σ → State H Op L σ → Prop
  | call {s h} (op : Op) (hs : s.phase h = .idle) : Step s { s with phase := update s.phase h (.trying op) }
  | swap {s h op} (hs : s.phase h = .trying op) : Step s (s.swap start h op)
  | stmt {s h op pc l f l' d} (hs : s.phase h = .inside op pc l) (hf : (prog op)[pc]? = some f) (hd : f l s.data = some (l', d)) :
      Step s { s with data := d, phase := update s.phase h (.inside op (pc + 1) l') }
  | unlock {s h op l} (hs : s.phase h = .inside op (prog op).length l) :
      Step s { s with lock := false, phase := update s.phase h .idle, log := (h, op, l) :: s.log }

def Serial (d₀ : σ) : List (H × Op × L) → σ → Prop
  | [], d => d = d₀
  | (_, op, l) :: log, d => ∃ d', Serial d₀ log d' ∧ exec (prog op) start d' = some (l, d)

/-- The party that is inside, alone, and how far it has come from where the calls before it left the data. -/
structure Holds (d₀ : σ) (s : State H Op L σ) (h : H) : Prop where
  alone : ∀ h', (s.phase h').isInside → h' = h
  upTo : ∃ op pc l d, s.phase h = .inside op pc l ∧ Serial prog start d₀ s.log d ∧
    exec ((prog op).take pc) start d = some (l, s.data)

def Turns (d₀ : σ) (s : State H Op L σ) : Prop :=
  if s.lock then ∃ h, Holds prog start d₀ s h
  else (∀ h, ¬ (s.phase h).isInside) ∧ Serial prog start d₀ s.log s.data

variable {prog start} {d₀ : σ} {s t : State H Op L σ} {h h' : H} {ph : Phase Op L}

lemma exec_snoc {p : List (Stmt L σ)} {f : Stmt L σ} {l : L} {d d' : σ} (hp : exec p start d = some (l, d')) :
    exec (p ++ [f]) start d = f l d' := by
  rw [exec, List.foldlM_append]
  change (exec p start d).bind _ = _
  simp [hp]

lemma Turns.inside (ht : Turns prog start d₀ s) (hin : (s.phase h).isInside) : s.lock = true ∧ Holds prog start d₀ s h := by
  rw [Turns] at ht
  split_ifs at ht with hlock
  · obtain ⟨g, hg⟩ := ht
    obtain rfl := hg.alone h hin
    exact ⟨hlock, hg⟩
  · exact absurd hin (ht.1 h)

lemma Turns.free (ht : Turns prog start d₀ s) (hlock : s.lock = false) :
    (∀ h, ¬ (s.phase h).isInside) ∧ Serial prog start d₀ s.log s.data := by
  rwa [Turns, hlock, if_neg Bool.false_ne_true] at ht

variable [DecidableEq H]

lemma inside_of_ne (hne : h' ≠ h) (hin : (update s.phase h ph h').isInside) : (s.phase h').isInside := by
  rwa [update_of_ne hne] at hin

lemma inside_of_update (hph : ¬ ph.isInside) (hin : (update s.phase h ph h').isInside) : h' ≠ h ∧ (s.phase h').isInside := by
  have hne : h' ≠ h := by
    rintro rfl
    rw [update_self] at hin
    exact hph hin
  exact ⟨hne, inside_of_ne hne hin⟩

lemma Holds.outside (hg : Holds prog start d₀ s h) (hne : h' ≠ h) (hph : ¬ ph.isInside) :
    Holds prog start d₀ { s with phase := update s.phase h' ph } h := by
  obtain ⟨op, pc, l, d, hs, hrest⟩ := hg.upTo
  refine ⟨fun k hk => hg.alone k (inside_of_update hph hk).2, op, pc, l, d, ?_, hrest⟩
  exact (update_of_ne hne.symm _ _).trans hs

lemma Turns.step (ht : Turns prog start d₀ s) (hstep : Step prog start s t) : Turns prog start d₀ t := by
  cases hstep with
  | @call h op hs =>
    have hout : ¬ (Phase.trying op : Phase Op L).isInside := id
    rw [Turns] at ht ⊢
    by_cases hlock : s.lock = true
    · rw [if_pos hlock] at ht ⊢
      obtain ⟨g, hg⟩ := ht
      refine ⟨g, hg.outside ?_ hout⟩
      rintro rfl
      obtain ⟨_, _, _, _, hin, -⟩ := hg.upTo
      rw [hs] at hin
      cases hin
    · rw [if_neg hlock] at ht ⊢
      exact ⟨fun k hk => ht.1 k (inside_of_update hout hk).2, ht.2⟩
  | @swap h op hs =>
    by_cases hlock : s.lock = true
    · rwa [State.swap, if_pos hlock]
    · rw [Turns, if_neg hlock] at ht
      rw [State.swap, if_neg hlock, Turns, if_pos rfl]
      refine ⟨h, fun k hk => ?_, op, 0, start, s.data, update_self .., ht.2, rfl⟩
      by_contra hne
      exact ht.1 k (inside_of_ne hne hk)
  | @stmt h op pc l f l' d hs hf hd =>
    obtain ⟨hlock, hg⟩ := ht.inside (h := h) (by rw [hs]; trivial)
    obtain ⟨op', pc', l'', d', hs', hserial, hexec⟩ := hg.upTo
    rw [hs] at hs'
    cases hs'
    rw [Turns, if_pos hlock]
    refine ⟨h, fun k hk => ?_, op, pc + 1, l', d', update_self .., hserial, ?_⟩
    · by_contra hne
      exact hne (hg.alone k (inside_of_ne hne hk))
    · rw [List.take_add_one, hf, Option.toList_some]
      exact (exec_snoc hexec).trans hd
  | @unlock h op l hs =>
    obtain ⟨-, hg⟩ := ht.inside (h := h) (by rw [hs]; trivial)
    obtain ⟨op', pc', l', d', hs', hserial, hexec⟩ := hg.upTo
    rw [hs] at hs'
    cases hs'
    rw [List.take_length] at hexec
    rw [Turns, if_neg Bool.false_ne_true]
    refine ⟨fun k hk => ?_, d', hserial, hexec⟩
    have hidle : ¬ (Phase.idle : Phase Op L).isInside := id
    obtain ⟨hne, hin⟩ := inside_of_update hidle hk
    exact hne (hg.alone k hin)

def Reach (prog : Op → List (Stmt L σ)) (start : L) (d₀ : σ) : State H Op L σ → Prop :=
  Relation.ReflTransGen (Step prog start) ⟨false, d₀, fun _ => .idle, []⟩

end Pke.Lib.Locks
