import Pke.Processes.Scheduler

namespace Pke.Processes

open Lib Flow Function

abbrev Queue := Option (Fin nsem)

def Sched.head (s : Sched) : Queue → Option Pid
  | none => s.readyQueueHead
  | some i => (s.semTable i).waitQueue

def Queue.status : Queue → Status
  | none => .ready
  | some _ => .blocked

structure Discipline (busy : Set ℕ) (s : Sched) (queue : Queue → List Pid) : Prop where
  chain : ∀ q, Chain s.queueNext (s.head q) (queue q)
  nodup : ∀ q, (queue q).Nodup
  apart : ∀ q r p, p ∈ queue q → p ∈ queue r → q = r
  status : ∀ q p, p ∈ queue q → s.status p = Queue.status q
  unused : ∀ i, (s.semTable i).ifuse = false → queue (some i) = []
  runs : ∀ tp p, tp ∉ busy → s.Runs tp p → s.status p = .running
  single : ∀ tp tp' p, tp ∉ busy → tp' ∉ busy → s.Runs tp p → s.Runs tp' p → tp = tp'

namespace Discipline

variable {busy : Set ℕ} {s : Sched} {queue : Queue → List Pid} {p : Pid}

lemma initial : Discipline ∅ Sched.initProcPool (fun _ => []) where
  chain q := by cases q <;> rfl
  nodup _ := List.nodup_nil
  apart _ _ _ h := by simp at h
  status _ _ h := by simp at h
  unused _ _ := rfl
  runs _ _ _ h := by simp [Sched.Runs, Sched.initProcPool] at h
  single _ _ _ _ _ h := by simp [Sched.Runs, Sched.initProcPool] at h

lemma unqueued (h : Discipline busy s queue) (h₁ : s.status p ≠ .ready) (h₂ : s.status p ≠ .blocked)
    (q : Queue) : p ∉ queue q := by
  intro hp
  cases q with
  | none => exact h₁ (h.status _ p hp)
  | some i => exact h₂ (h.status _ p hp)

lemma not_running (h : Discipline busy s queue) (hp : s.status p ≠ .running) (tp : ℕ)
    (htp : tp ∉ busy) : ¬ s.Runs tp p := fun hr => hp (h.runs tp p htp hr)

lemma enter (h : Discipline ∅ s queue) (tp : ℕ) : Discipline {tp} s queue :=
  { h with
    runs := fun t q _ => h.runs t q (by simp)
    single := fun t t' q _ _ => h.single t t' q (by simp) (by simp) }

lemma setStatus (h : Discipline busy s queue) (hq : ∀ q, p ∉ queue q)
    (hr : ∀ tp ∉ busy, ¬ s.Runs tp p) (x : Status) : Discipline busy (s.setStatus p x) queue :=
  { h with
    status := fun q r hr' => by
      rw [← h.status q r hr']
      exact update_of_ne (ne_of_mem_of_not_mem hr' (hq q)) _ _
    runs := fun tp r htp hrun => by
      have hne : r ≠ p := by rintro rfl; exact hr tp htp hrun
      exact (update_of_ne hne _ _).trans (h.runs tp r htp hrun) }

lemma setTicks (h : Discipline busy s queue) (n : ℤ) : Discipline busy (s.setTicks p n) queue := { h with }

lemma addParent (h : Discipline busy s queue) (f : Pid → Option Pid) :
    Discipline busy { s with parent := f } queue := { h with }

lemma setValue (h : Discipline busy s queue) (i : Fin nsem) (v : ℤ) :
    Discipline busy (s.setSem i { s.semTable i with value := v }) queue := by
  have hw : ∀ j, ((s.setSem i { s.semTable i with value := v }).semTable j).waitQueue =
      (s.semTable j).waitQueue := by
    intro j
    by_cases hj : j = i
    · subst hj; simp [Sched.setSem]
    · simp [Sched.setSem, hj]
  have hu : ∀ j, ((s.setSem i { s.semTable i with value := v }).semTable j).ifuse =
      (s.semTable j).ifuse := by
    intro j
    by_cases hj : j = i
    · subst hj; simp [Sched.setSem]
    · simp [Sched.setSem, hj]
  refine { h with chain := ?_, unused := ?_ }
  · intro q
    cases q with
    | none => exact h.chain none
    | some j =>
      rw [Sched.head, hw]
      exact h.chain (some j)
  · intro j hj
    exact h.unused j (by rw [← hu]; exact hj)

end Discipline

structure Linked (s t : Sched) (q : Queue) (p : Pid) (l : List Pid) : Prop where
  next : t.queueNext = update (match l.getLast? with
    | none => s.queueNext
    | some last => update s.queueNext last (some p)) p none
  head : t.head q = if l = [] then some p else s.head q
  others : ∀ r, r ≠ q → t.head r = s.head r
  status : t.status = update s.status p (Queue.status q)
  current : t.current = s.current
  mode : t.mode = s.mode
  ifuse : ∀ i, (t.semTable i).ifuse = (s.semTable i).ifuse

namespace Discipline

variable {busy : Set ℕ} {s t : Sched} {queue : Queue → List Pid} {p : Pid} {q : Queue}

lemma link_chain (h : Discipline busy s queue) (hp : ∀ r, p ∉ queue r)
    (hl : Linked s t q p (queue q)) : Chain t.queueNext (t.head q) (queue q ++ [p]) := by
  rw [hl.next, hl.head]
  by_cases hnil : queue q = []
  · simp [hnil]
  · rw [List.getLast?_eq_some_getLast hnil, if_neg hnil]
    exact (h.chain q).snoc (h.nodup q) (hp q) hnil

lemma link_frame (h : Discipline busy s queue) (hp : ∀ r, p ∉ queue r)
    (hl : Linked s t q p (queue q)) {r : Queue} (hr : r ≠ q) :
    Chain t.queueNext (t.head r) (queue r) := by
  rw [hl.next, hl.others r hr]
  refine Chain.update_of_notMem (hp r) _ ?_
  cases hlast : (queue q).getLast? with
  | none => exact h.chain r
  | some last =>
    have hmem : last ∈ queue q := List.mem_of_getLast? hlast
    exact Chain.update_of_notMem (fun e => hr (h.apart r q last e hmem)) _ (h.chain r)

lemma link (h : Discipline busy s queue) (hp : ∀ r, p ∉ queue r)
    (hr : ∀ tp ∉ busy, ¬ s.Runs tp p) (hq : ∀ i, q = some i → (s.semTable i).ifuse = true)
    (hl : Linked s t q p (queue q)) : Discipline busy t (update queue q (queue q ++ [p])) := by
  have hruns : ∀ tp r, t.Runs tp r ↔ s.Runs tp r := by
    intro tp r
    simp only [Sched.Runs, hl.mode, hl.current]
  have hmem : ∀ r x, x ∈ update queue q (queue q ++ [p]) r ↔ x ∈ queue r ∨ (x = p ∧ r = q) := by
    intro r x
    by_cases hrq : r = q
    · subst hrq; simp
    · simp [hrq]
  refine ⟨?_, ?_, ?_, ?_, ?_, ?_, ?_⟩
  · intro r
    by_cases hrq : r = q
    · subst hrq; simpa using link_chain h hp hl
    · simpa [hrq] using link_frame h hp hl hrq
  · intro r
    by_cases hrq : r = q
    · subst hrq
      rw [update_self]
      exact List.Nodup.append (h.nodup r) (List.nodup_singleton p) (by simpa using hp r)
    · simpa [hrq] using h.nodup r
  · intro r r' x hx hx'
    rw [hmem] at hx hx'
    rcases hx with hx | ⟨rfl, rfl⟩
    · rcases hx' with hx' | ⟨rfl, rfl⟩
      · exact h.apart r r' x hx hx'
      · exact absurd hx (hp r)
    · rcases hx' with hx' | ⟨-, hr'⟩
      · exact absurd hx' (hp r')
      · exact hr'.symm
  · intro r x hx
    rw [hl.status]
    rcases (hmem r x).mp hx with hx | ⟨rfl, rfl⟩
    · rw [update_of_ne (ne_of_mem_of_not_mem hx (hp r))]
      exact h.status r x hx
    · simp
  · intro i hi
    rw [hl.ifuse] at hi
    have hne : some i ≠ q := by
      intro e
      rw [hq i e.symm] at hi
      cases hi
    simpa [hne] using h.unused i hi
  · intro tp r htp hrun
    rw [hruns] at hrun
    have hne : r ≠ p := by rintro rfl; exact hr tp htp hrun
    rw [hl.status, update_of_ne hne]
    exact h.runs tp r htp hrun
  · intro tp tp' r htp htp' h₁ h₂
    exact h.single tp tp' r htp htp' ((hruns _ _).mp h₁) ((hruns _ _).mp h₂)

end Discipline

end Pke.Processes
