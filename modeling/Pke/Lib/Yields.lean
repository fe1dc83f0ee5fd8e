import Pke.Lib.Flow

/-! What a program that returns has done; nothing is said about programs that end otherwise. -/

namespace Pke.Lib.Flow

variable {σ α β : Type} {m : Flow σ α} {Q R : α → σ → Prop} {s t : σ}

def yields (m : Flow σ α) (Q : α → σ → Prop) (s : σ) : Prop := ∀ a t, m s = .done a t → Q a t

lemma yields_done {a : α} (hm : m s = .done a t) (h : Q a t) : yields m Q s := by
  intro b u hu
  cases hm.symm.trans hu
  exact h

lemma yields_of_wp {E : σ → Prop} (h : wp m Q E s) : yields m Q s := fun _ _ ht => wp_done h ht

lemma yields_left (hm : m s = .left t) : yields m Q s := by
  intro b u hu
  cases hm.symm.trans hu

lemma yields_pure {a : α} (h : Q a s) : yields (pure a : Flow σ α) Q s := yields_done rfl h
lemma yields_leave : yields (leave : Flow σ α) Q s := yields_left rfl

lemma yields_halt : yields (halt : Flow σ α) Q s := by
  intro b u hu
  cases hu

lemma yields_undef : yields ( undef : Flow σ α) Q s := by
  intro b u hu
  cases hu

lemma yields_modify {f : σ → σ} {Q : Unit → σ → Prop} (h : Q () (f s)) : yields (modify f) Q s := yields_done rfl h

lemma yields_mono (h : yields m Q s) (hq : ∀ a t, Q a t → R a t) : yields m R s :=
  fun a t ht => hq a t (h a t ht)

lemma yields_and (h : yields m Q s) (h' : yields m R s) : yields m (fun a t => Q a t ∧ R a t) s :=
  fun a t ht => ⟨h a t ht, h' a t ht⟩

lemma yields_bind {f : α → Flow σ β} {Q : β → σ → Prop} (h : yields m (fun a => yields (f a) Q) s) :
    yields (m >>= f) Q s := by
  intro b t hb
  obtain ⟨a, u, ha, hf⟩ := bind_eq_done hb
  exact h a u ha b t hf

lemma yields_bind_done {f : α → Flow σ β} {Q : β → σ → Prop} {a : α} (hm : m s = .done a t) (h : yields (f a) Q t) :
    yields (m >>= f) Q s := yields_bind (yields_done hm h)

lemma yields_get_bind {f : σ → Flow σ β} {Q : β → σ → Prop} (h : yields (f s) Q s) : yields (get >>= f) Q s :=
  yields_bind_done rfl h

lemma yields_modify_bind {g : σ → σ} {f : Unit → Flow σ β} {Q : β → σ → Prop} (h : yields (f ()) Q (g s)) :
    yields (modify g >>= f) Q s := yields_bind_done rfl h

lemma each_append (f : α → Flow σ Unit) (l l' : List α) : each f (l ++ l') = each f l >>= fun _ => each f l' := by
  induction l with
  | nil => rfl
  | cons a l ih =>
    rw [List.cons_append, each, ih, each, bind_bind]

lemma each_map (f : α → Flow σ Unit) (g : β → α) (l : List β) : each f (l.map g) = each (f ∘ g) l := by
  induction l with
  | nil => rfl
  | cons b l ih =>
    rw [List.map_cons, each, ih]
    rfl

lemma each_congr {f g : α → Flow σ Unit} {l : List α} (h : ∀ a ∈ l, f a = g a) : each f l = each g l := by
  induction l with
  | nil => rfl
  | cons a l ih =>
    rw [each, each, h a (by simp), ih fun b hb => h b (by simp [hb])]

lemma yields_all_range {f : α → Flow σ Bool} {Q : Bool → σ → Prop} (I : ℕ → σ → Prop) {h : ℕ → α} {n : ℕ} (hs : I 0 s)
    (hstep : ∀ i < n, ∀ t, I i t → yields (f (h i)) (fun b u => if b then I (i + 1) u else Q false u) t)
    (hend : ∀ t, I n t → Q true t) : yields (all f ((List.range n).map h)) Q s := by
  induction n generalizing I h s with
  | zero => exact yields_pure (hend s hs)
  | succ n ih =>
    rw [List.range_succ_eq_map, List.map_cons, List.map_map, all]
    refine yields_bind ?_
    refine yields_mono (hstep 0 n.succ_pos s hs) ?_
    intro b t hb
    cases b with
    | false => exact yields_pure hb
    | true =>
      rw [if_pos rfl]
      exact ih (I := fun i => I (i + 1)) (h := h ∘ Nat.succ) hb (fun i hi => hstep (i + 1) (by omega)) hend

section Returns

/-- The program returns, and `Q` holds of where it does. -/
def returns (m : Flow σ α) (Q : α → σ → Prop) (s : σ) : Prop := meets False m Q (fun _ => False) s

lemma returns_iff : returns m Q s ↔ ∃ a t, m s = .done a t ∧ Q a t := by
  unfold returns meets
  constructor
  · intro h
    cases hm : m s with
    | done a t =>
      rw [hm] at h
      exact ⟨a, t, rfl, h⟩
    | left t | halted | undefined =>
      rw [hm] at h
      exact h.elim
  · rintro ⟨a, t, hm, h⟩
    rwa [hm]

lemma returns_done {a : α} (hm : m s = .done a t) (h : Q a t) : returns m Q s := meets_done hm h

lemma returns_pure {a : α} (h : Q a s) : returns (pure a : Flow σ α) Q s := h

lemma returns_mono (h : returns m Q s) (hq : ∀ a t, Q a t → R a t) : returns m R s := meets_mono h id hq fun _ h => h

lemma returns_bind {f : α → Flow σ β} {Q : β → σ → Prop} (h : returns m (fun a => returns (f a) Q) s) :
    returns (m >>= f) Q s := meets_bind h

lemma returns_bind_done {f : α → Flow σ β} {Q : β → σ → Prop} {a : α} (hm : m s = .done a t)
    (h : returns (f a) Q t) : returns (m >>= f) Q s := returns_bind (returns_done hm h)

lemma returns_all_range {f : α → Flow σ Bool} (I : ℕ → σ → Prop) {h : ℕ → α} {n : ℕ} (hs : I 0 s)
    (hstep : ∀ i < n, ∀ t, I i t → returns (f (h i)) (fun b u => b = true ∧ I (i + 1) u) t) :
    returns (all f ((List.range n).map h)) (fun b u => b = true ∧ I n u) s := by
  refine meets_all_range I hs (fun i hi t ht => ?_) fun t ht => ⟨rfl, ht⟩
  refine meets_mono (hstep i hi t ht) id ?_ fun _ h => h
  rintro b u ⟨rfl, hu⟩
  exact hu

end Returns

section Carries

variable {R : σ → σ → Prop}

/-- Whenever the program returns, the last state is related to the first. -/
def Carries (R : σ → σ → Prop) (m : Flow σ α) : Prop := ∀ s, yields m (fun _ => R s) s

lemma Carries.mono {R' : σ → σ → Prop} (h : Carries R m) (hr : ∀ s t, R s t → R' s t) : Carries R' m :=
  fun s => yields_mono (h s) fun _ t => hr s t

lemma Carries.pure (hr : ∀ s, R s s) (a : α) : Carries R (pure a : Flow σ α) := fun s => yields_pure (hr s)
lemma Carries.modify {f : σ → σ} (h : ∀ s, R s (f s)) : Carries R (modify f) := fun s => yields_modify (h s)
lemma Carries.halt : Carries R (halt : Flow σ α) := fun _ => yields_halt
lemma Carries.undef : Carries R ( undef : Flow σ α) := fun _ => yields_undef
lemma Carries.leave : Carries R (leave : Flow σ α) := fun _ => yields_leave
lemma Carries.get {f : σ → Flow σ α} (hf : ∀ s, Carries R (f s)) : Carries R (get >>= f) := fun s => yields_get_bind (hf s s)

lemma Carries.bind (ht : ∀ s t u, R s t → R t u → R s u) {f : α → Flow σ β} (hm : Carries R m)
    (hf : ∀ a, Carries R (f a)) : Carries R (m >>= f) := fun s =>
  yields_bind (yields_mono (hm s) fun a t hst => yields_mono (hf a t) fun _ _ htu => ht _ _ _ hst htu)

lemma Carries.ite {c : Prop} [Decidable c] {m' : Flow σ α} (h : Carries R m) (h' : Carries R m') :
    Carries R (if c then m else m') := by
  split_ifs
  · exact h
  · exact h'

lemma Carries.each_mem (hr : ∀ s, R s s) (ht : ∀ s t u, R s t → R t u → R s u) {f : α → Flow σ Unit} {l : List α}
    (hf : ∀ a ∈ l, Carries R (f a)) : Carries R (each f l) := by
  induction l with
  | nil => exact Carries.pure hr ()
  | cons a l ih => exact Carries.bind ht (hf a (by simp)) fun _ => ih fun b hb => hf b (by simp [hb])

lemma Carries.all_mem (hr : ∀ s, R s s) (ht : ∀ s t u, R s t → R t u → R s u) {f : α → Flow σ Bool} {l : List α}
    (hf : ∀ a ∈ l, Carries R (f a)) : Carries R (all f l) := by
  induction l with
  | nil => exact Carries.pure hr true
  | cons a l ih =>
    exact Carries.bind ht (hf a (by simp)) fun _ => Carries.ite (ih fun b hb => hf b (by simp [hb])) (Carries.pure hr false)

end Carries

end Pke.Lib.Flow
