import Mathlib.Tactic

/-! Programs over a state that return, leave for good, halt the machine, or are undefined,
with the weakest preconditions of their constructs. -/

namespace Pke.Lib

inductive Outcome (σ α : Type) where
  | done (a : α) (s : σ)
  | left (s : σ)
  | halted
  | undefined

def Outcome.ends {σ α : Type} (o : Outcome σ α) (obs : α → σ → Bool) : Bool :=
  match o with
  | .done a s => obs a s
  | _ => false

lemma Outcome.ends_done {σ α : Type} {o : Outcome σ α} {obs : α → σ → Bool} (h : o.ends obs = true) :
    ∃ a s, o = .done a s ∧ obs a s = true := by
  cases o with
  | done a s => exact ⟨a, s, rfl, h⟩
  | left s => cases h
  | halted => cases h
  | undefined => cases h

def Flow (σ α : Type) := σ → Outcome σ α

namespace Flow

variable {σ τ α β : Type}

def ret (a : α) : Flow σ α := fun s => .done a s

def andThen (m : Flow σ α) (f : α → Flow σ β) : Flow σ β := fun s =>
  match m s with
  | .done a t => f a t
  | .left t => .left t
  | .halted => .halted
  | .undefined => .undefined

instance : Monad (Flow σ) where
  pure := ret
  bind := andThen

def get : Flow σ σ := fun s => .done s s
def modify (f : σ → σ) : Flow σ Unit := fun s => .done () (f s)
def leave : Flow σ α := fun s => .left s
def halt : Flow σ α := fun _ => .halted
def undef : Flow σ α := fun _ => .undefined

def each (f : α → Flow σ Unit) : List α → Flow σ Unit
  | [] => pure ()
  | a :: l => do f a; each f l

def all (f : α → Flow σ Bool) : List α → Flow σ Bool
  | [] => pure true
  | a :: l => do if ← f a then all f l else pure false

def wp (m : Flow σ α) (Q : α → σ → Prop) (E : σ → Prop) (s : σ) : Prop :=
  match m s with
  | .done a t => Q a t
  | .left t => E t
  | .halted => True
  | .undefined => False

variable {Q : α → σ → Prop} {R : β → σ → Prop} {E F : σ → Prop} {s : σ}

@[simp] lemma wp_pure (a : α) : wp (pure a : Flow σ α) Q E s ↔ Q a s := Iff.rfl
@[simp] lemma wp_get {Q : σ → σ → Prop} : wp (get : Flow σ σ) Q E s ↔ Q s s := Iff.rfl
@[simp] lemma wp_modify {Q : Unit → σ → Prop} (f : σ → σ) :
    wp (modify f) Q E s ↔ Q () (f s) := Iff.rfl
@[simp] lemma wp_leave : wp (leave : Flow σ α) Q E s ↔ E s := Iff.rfl
@[simp] lemma wp_halt : wp (halt : Flow σ α) Q E s := trivial
@[simp] lemma wp_bind (m : Flow σ α) (f : α → Flow σ β) :
    wp (m >>= f) R E s ↔ wp m (fun a => wp (f a) R E) E s := by
  change wp (andThen m f) R E s ↔ _
  unfold wp andThen
  cases m s <;> rfl

lemma get_bind (f : σ → Flow σ α) : (get >>= f) s = f s s := rfl

lemma modify_bind (g : σ → σ) (f : Unit → Flow σ α) : (modify g >>= f) s = f () (g s) := rfl

lemma bind_done {m : Flow σ α} {f : α → Flow σ β} {a : α} {t : σ} (h : m s = .done a t) :
    (m >>= f) s = f a t := by
  change andThen m f s = f a t
  rw [andThen, h]

lemma bind_left {m : Flow σ α} {f : α → Flow σ β} {s t : σ} (h : m s = .left t) : (m >>= f) s = .left t := by
  change andThen m f s = _
  rw [andThen, h]

lemma bind_undefined {m : Flow σ α} {f : α → Flow σ β} {s : σ} (h : m s = .undefined) : (m >>= f) s = .undefined := by
  change andThen m f s = _
  rw [andThen, h]

lemma bind_bind {γ : Type} (m : Flow σ α) (f : α → Flow σ β) (g : β → Flow σ γ) :
    m >>= f >>= g = m >>= fun a => f a >>= g := by
  funext s
  change andThen (andThen m f) g s = andThen m (fun a => andThen (f a) g) s
  rw [andThen, andThen, andThen]
  cases m s <;> rfl

lemma ret_bind (a : α) (f : α → Flow σ β) : (pure a : Flow σ α) >>= f = f a := rfl

lemma bind_eq_done {m : Flow σ α} {f : α → Flow σ β} {b : β} {t : σ} (h : (m >>= f) s = .done b t) :
    ∃ a u, m s = .done a u ∧ f a u = .done b t := by
  change andThen m f s = .done b t at h
  rw [andThen] at h
  cases hm : m s with
  | done a u =>
    rw [hm] at h
    exact ⟨a, u, rfl, h⟩
  | left u =>
    rw [hm] at h
    cases h
  | halted =>
    rw [hm] at h
    cases h
  | undefined =>
    rw [hm] at h
    cases h

lemma bind_congr_at {m m' : Flow σ α} {f : α → Flow σ β} (h : m s = m' s) : (m >>= f) s = (m' >>= f) s := by
  change andThen m f s = andThen m' f s
  rw [andThen, andThen, h]

lemma wp_ite (c : Prop) [Decidable c] (m n : Flow σ α) :
    wp (if c then m else n) Q E s ↔ (c → wp m Q E s) ∧ (¬ c → wp n Q E s) := by
  split_ifs with h <;> simp [h]

lemma wp_mono {m : Flow σ α} {Q' : α → σ → Prop} {E' : σ → Prop} (h : wp m Q E s)
    (hq : ∀ a t, Q a t → Q' a t) (he : ∀ t, E t → E' t) : wp m Q' E' s := by
  unfold wp at h ⊢
  cases hm : m s with
  | done a t => rw [hm] at h; exact hq a t h
  | left t => rw [hm] at h; exact he t h
  | halted => trivial
  | undefined => rw [hm] at h; exact h

lemma wp_and {m : Flow σ α} {Q' : α → σ → Prop} {E' : σ → Prop} (h : wp m Q E s)
    (h' : wp m Q' E' s) : wp m (fun a t => Q a t ∧ Q' a t) (fun t => E t ∧ E' t) s := by
  unfold wp at h h' ⊢
  cases hm : m s with
  | done a t => rw [hm] at h h'; exact ⟨h, h'⟩
  | left t => rw [hm] at h h'; exact ⟨h, h'⟩
  | halted => trivial
  | undefined => rw [hm] at h; exact h

lemma wp_done {m : Flow σ α} {a : α} {t : σ} (h : wp m Q E s) (hm : m s = .done a t) : Q a t := by
  unfold wp at h
  rw [hm] at h
  exact h

lemma wp_left {m : Flow σ α} {t : σ} (h : wp m Q E s) (hm : m s = .left t) : E t := by
  unfold wp at h
  rw [hm] at h
  exact h

lemma wp_each {f : α → Flow σ Unit} {Q : Unit → σ → Prop} (I : List α → σ → Prop) {l : List α}
    (hs : I l s) (hstep : ∀ a r t, I (a :: r) t → wp (f a) (fun _ => I r) E t)
    (hend : ∀ t, I [] t → Q () t) : wp (each f l) Q E s := by
  induction l generalizing s with
  | nil => exact hend s hs
  | cons a r ih =>
    rw [each, wp_bind]
    exact wp_mono (hstep a r s hs) (fun _ t ht => ih ht) (fun _ h => h)

lemma wp_all {f : α → Flow σ Bool} {Q : Bool → σ → Prop} (I : List α → σ → Prop) {l : List α}
    (hs : I l s)
    (hstep : ∀ a r t, I (a :: r) t → wp (f a) (fun b u => if b then I r u else Q false u) E t)
    (hend : ∀ t, I [] t → Q true t) : wp (all f l) Q E s := by
  induction l generalizing s with
  | nil => exact hend s hs
  | cons a r ih =>
    rw [all, wp_bind]
    refine wp_mono (hstep a r s hs) ?_ (fun _ h => h)
    intro b t ht
    cases b with
    | false => exact ht
    | true => exact ih ht

section Meets

variable {H : Prop}

/-- Like `wp`, with the condition under which the machine may be halted. -/
def meets (H : Prop) (m : Flow σ α) (Q : α → σ → Prop) (E : σ → Prop) (s : σ) : Prop :=
  match m s with
  | .done a t => Q a t
  | .left t => E t
  | .halted => H
  | .undefined => False

lemma meets_pure {a : α} (h : Q a s) : meets H (pure a : Flow σ α) Q E s := h
lemma meets_leave (h : E s) : meets H (leave : Flow σ α) Q E s := h

lemma meets_done {m : Flow σ α} {a : α} {t : σ} (hm : m s = .done a t) (h : Q a t) : meets H m Q E s := by
  rwa [meets, hm]

lemma meets_bind {m : Flow σ α} {f : α → Flow σ β} (h : meets H m (fun a => meets H (f a) R E) E s) :
    meets H (m >>= f) R E s := by
  change meets H (andThen m f) R E s
  unfold meets andThen at *
  cases hm : m s with
  | done a t => rwa [hm] at h
  | left t => rwa [hm] at h
  | halted => rwa [hm] at h
  | undefined => rwa [hm] at h

lemma meets_mono {H' : Prop} {m : Flow σ α} {Q' : α → σ → Prop} {E' : σ → Prop} (h : meets H m Q E s)
    (hh : H → H') (hq : ∀ a t, Q a t → Q' a t) (he : ∀ t, E t → E' t) : meets H' m Q' E' s := by
  unfold meets at h ⊢
  cases hm : m s with
  | done a t => rw [hm] at h; exact hq a t h
  | left t => rw [hm] at h; exact he t h
  | halted => rw [hm] at h; exact hh h
  | undefined => rw [hm] at h; exact h

lemma meets_all {f : α → Flow σ Bool} {Q : Bool → σ → Prop} (I : List α → σ → Prop) {l : List α}
    (hs : I l s)
    (hstep : ∀ a r t, I (a :: r) t → meets H (f a) (fun b u => if b then I r u else Q false u) E t)
    (hend : ∀ t, I [] t → Q true t) : meets H (all f l) Q E s := by
  induction l generalizing s with
  | nil => exact hend s hs
  | cons a r ih =>
    rw [all]
    refine meets_bind (meets_mono (hstep a r s hs) id ?_ (fun _ h => h))
    intro b t ht
    cases b with
    | false => exact ht
    | true => exact ih ht

lemma meets_each {f : α → Flow σ Unit} {Q : Unit → σ → Prop} (I : List α → σ → Prop) {l : List α}
    (hs : I l s) (hstep : ∀ a r t, I (a :: r) t → meets H (f a) (fun _ => I r) E t)
    (hend : ∀ t, I [] t → Q () t) : meets H (each f l) Q E s := by
  induction l generalizing s with
  | nil => exact hend s hs
  | cons a r ih =>
    rw [each]
    exact meets_bind (meets_mono (hstep a r s hs) id (fun _ t ht => ih ht) (fun _ h => h))

lemma cons_eq_drop_range {h : ℕ → α} {n i : ℕ} {a : α} {r : List α}
    (hl : a :: r = ((List.range n).drop i).map h) :
    i < n ∧ a = h i ∧ r = ((List.range n).drop (i + 1)).map h := by
  have hlt : i < n := by
    by_contra hge
    rw [List.drop_of_length_le (by simpa using hge)] at hl
    cases hl
  rw [List.drop_eq_getElem_cons (by simpa using hlt), List.map_cons, List.getElem_range] at hl
  exact ⟨hlt, List.cons.inj hl⟩

lemma meets_all_range {f : α → Flow σ Bool} {Q : Bool → σ → Prop} (I : ℕ → σ → Prop) {h : ℕ → α} {n : ℕ}
    (hs : I 0 s)
    (hstep : ∀ i < n, ∀ t, I i t → meets H (f (h i)) (fun b u => if b then I (i + 1) u else Q false u) E t)
    (hend : ∀ t, I n t → Q true t) : meets H (all f ((List.range n).map h)) Q E s := by
  refine meets_all (fun l t => ∃ i ≤ n, l = ((List.range n).drop i).map h ∧ I i t) ⟨0, by omega, rfl, hs⟩ ?_ ?_
  · rintro a r t ⟨i, hi, hl, hI⟩
    obtain ⟨hlt, rfl, rfl⟩ := cons_eq_drop_range hl
    refine meets_mono (hstep i hlt t hI) id ?_ (fun _ h => h)
    intro b u hu
    cases b with
    | false => exact hu
    | true => exact ⟨i + 1, hlt, rfl, hu⟩
  · rintro t ⟨i, hi, hl, hI⟩
    have hn : n ≤ i := by simpa using (List.map_eq_nil_iff.mp hl.symm)
    exact hend t (le_antisymm hi hn ▸ hI)

lemma meets_each_range {f : α → Flow σ Unit} {Q : Unit → σ → Prop} (I : ℕ → σ → Prop) {h : ℕ → α} {n : ℕ}
    (hs : I 0 s) (hstep : ∀ i < n, ∀ t, I i t → meets H (f (h i)) (fun _ => I (i + 1)) E t)
    (hend : ∀ t, I n t → Q () t) : meets H (each f ((List.range n).map h)) Q E s := by
  refine meets_each (fun l t => ∃ i ≤ n, l = ((List.range n).drop i).map h ∧ I i t) ⟨0, by omega, rfl, hs⟩ ?_ ?_
  · rintro a r t ⟨i, hi, hl, hI⟩
    obtain ⟨hlt, rfl, rfl⟩ := cons_eq_drop_range hl
    exact meets_mono (hstep i hlt t hI) id (fun _ u hu => ⟨i + 1, hlt, rfl, hu⟩) (fun _ h => h)
  · rintro t ⟨i, hi, hl, hI⟩
    have hn : n ≤ i := by simpa using (List.map_eq_nil_iff.mp hl.symm)
    exact hend t (le_antisymm hi hn ▸ hI)

end Meets

section Safe

variable {U : Prop}

/-- The machine is not halted, and the program is defined unless `U`. -/
def safe (U : Prop) (m : Flow σ α) (Q : α → σ → Prop) (E : σ → Prop) (s : σ) : Prop :=
  match m s with
  | .done a t => Q a t
  | .left t => E t
  | .halted => False
  | .undefined => U

lemma safe_pure {a : α} (h : Q a s) : safe U (pure a : Flow σ α) Q E s := h
lemma safe_leave (h : E s) : safe U (leave : Flow σ α) Q E s := h
lemma safe_undef (h : U) : safe U (undef : Flow σ α) Q E s := h

lemma safe_done {m : Flow σ α} {a : α} {t : σ} (hm : m s = .done a t) (h : Q a t) : safe U m Q E s := by
  rwa [safe, hm]

lemma safe_left {m : Flow σ α} {t : σ} (hm : m s = .left t) (h : E t) : safe U m Q E s := by
  rwa [safe, hm]

lemma safe_bind {m : Flow σ α} {f : α → Flow σ β} (h : safe U m (fun a => safe U (f a) R E) E s) :
    safe U (m >>= f) R E s := by
  change safe U (andThen m f) R E s
  unfold safe andThen at *
  cases hm : m s with
  | done a t => rwa [hm] at h
  | left t => rwa [hm] at h
  | halted => rwa [hm] at h
  | undefined => rwa [hm] at h

lemma safe_bind_done {m : Flow σ α} {f : α → Flow σ β} {a : α} {t : σ} (hm : m s = .done a t)
    (h : safe U (f a) R E t) : safe U (m >>= f) R E s := by
  rwa [safe, bind_done hm]

lemma safe_weaken {U' : Prop} {m : Flow σ α} (h : safe U m Q E s) (hu : U → U') : safe U' m Q E s := by
  unfold safe at h ⊢
  cases hm : m s with
  | done a t => rwa [hm] at h
  | left t => rwa [hm] at h
  | halted => rwa [hm] at h
  | undefined => rw [hm] at h; exact hu h

lemma safe_mono {m : Flow σ α} {Q' : α → σ → Prop} {E' : σ → Prop} (h : safe U m Q E s)
    (hq : ∀ a t, Q a t → Q' a t) (he : ∀ t, E t → E' t) : safe U m Q' E' s := by
  unfold safe at h ⊢
  cases hm : m s with
  | done a t => rw [hm] at h; exact hq a t h
  | left t => rw [hm] at h; exact he t h
  | halted => rw [hm] at h; exact h
  | undefined => rw [hm] at h; exact h

end Safe

/-- However the program ends, the last state is related to the first. -/
def Keeps (R : σ → σ → Prop) (m : Flow σ α) : Prop := ∀ s, wp m (fun _ => R s) (R s) s

section Keeps

variable {R : σ → σ → Prop}

lemma Keeps.modify {f : σ → σ} (h : ∀ s, R s (f s)) : Keeps R (modify f) := h
lemma Keeps.pure (h : ∀ s, R s s) (a : α) : Keeps R (pure a : Flow σ α) := h
lemma Keeps.leave (h : ∀ s, R s s) : Keeps R (leave : Flow σ α) := h

lemma Keeps.after (hR : ∀ s t u, R s t → R t u → R s u) {m : Flow σ α} (h : Keeps R m) {t : σ}
    (hst : R s t) : wp m (fun _ => R s) (R s) t :=
  wp_mono (h t) (fun _ u hu => hR s t u hst hu) (fun u hu => hR s t u hst hu)

lemma Keeps.bind (hR : ∀ s t u, R s t → R t u → R s u) {m : Flow σ α} {f : α → Flow σ β}
    (hm : Keeps R m) (hf : ∀ a, Keeps R (f a)) : Keeps R (m >>= f) := by
  intro s
  rw [wp_bind]
  exact wp_mono (hm s) (fun a t ht => (hf a).after hR ht) (fun _ h => h)

lemma Keeps.halt : Keeps R (halt : Flow σ α) := fun _ => wp_halt

lemma Keeps.get {f : σ → Flow σ α} (hf : ∀ s, Keeps R (f s)) : Keeps R (get >>= f) := by
  intro s
  rw [wp_bind, wp_get]
  exact hf s s

lemma Keeps.ite {c : Prop} [Decidable c] {m m' : Flow σ α} (h : Keeps R m) (h' : Keeps R m') :
    Keeps R (if c then m else m') := by
  split_ifs
  · exact h
  · exact h'

lemma Keeps.each (hr : ∀ s, R s s) (ht : ∀ s t u, R s t → R t u → R s u) {f : α → Flow σ Unit}
    (hf : ∀ a, Keeps R (f a)) (l : List α) : Keeps R (each f l) := by
  induction l with
  | nil => exact Keeps.pure hr ()
  | cons a l ih => exact Keeps.bind ht (hf a) fun _ => ih

lemma Keeps.all (hr : ∀ s, R s s) (ht : ∀ s t u, R s t → R t u → R s u) {f : α → Flow σ Bool}
    (hf : ∀ a, Keeps R (f a)) (l : List α) : Keeps R (all f l) := by
  induction l with
  | nil => exact Keeps.pure hr true
  | cons a l ih => exact Keeps.bind ht (hf a) fun b => Keeps.ite ih (Keeps.pure hr false)

end Keeps

/-- The machine is not halted, and when the program ends, the last state is related to the first. -/
def Stays (R : σ → σ → Prop) (m : Flow σ α) : Prop := ∀ s, safe True m (fun _ => R s) (R s) s

section Stays

variable {R : σ → σ → Prop}

lemma Stays.bind (ht : ∀ {s t u}, R s t → R t u → R s u) {m : Flow σ α} {f : α → Flow σ β} (hm : Stays R m)
    (hf : ∀ a, Stays R (f a)) : Stays R (m >>= f) := by
  intro s
  refine safe_bind (safe_mono (hm s) ?_ fun _ h => h)
  intro a t hst
  exact safe_mono (hf a t) (fun _ u htu => ht hst htu) fun u htu => ht hst htu

lemma Stays.get {f : σ → Flow σ α} (hf : ∀ s, Stays R (f s)) : Stays R (get >>= f) := fun s => hf s s

lemma Stays.done {m : Flow σ α} {a : α} {t : σ} (hm : Stays R m) (h : m s = .done a t) : R s t := by
  have hs := hm s
  rwa [safe, h] at hs

end Stays

/-- Run a program on a part of the state; what it does on leaving is up to the whole. -/
def within (view : σ → τ) (put : τ → σ → σ) (onLeft : Flow σ α) (m : Flow τ α) : Flow σ α :=
  fun s =>
    match m (view s) with
    | .done a t => .done a (put t s)
    | .left t => onLeft (put t s)
    | .halted => .halted
    | .undefined => .undefined

lemma wp_within {view : σ → τ} {put : τ → σ → σ} {onLeft : Flow σ α} {m : Flow τ α}
    (h : wp m (fun a t => Q a (put t s)) (fun t => wp onLeft Q E (put t s)) (view s)) :
    wp (within view put onLeft m) Q E s := by
  unfold wp within at *
  cases hm : m (view s) with
  | done a t => rw [hm] at h; exact h
  | left t => rw [hm] at h; exact h
  | halted => trivial
  | undefined => rw [hm] at h; exact h

end Flow

end Pke.Lib
