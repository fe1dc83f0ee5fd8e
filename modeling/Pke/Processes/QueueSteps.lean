import Pke.Processes.QueueDiscipline

namespace Pke.Processes

open Lib Flow Function

structure Unlinked (s t : Sched) (q : Queue) (p : Pid) : Prop where
  next : t.queueNext = update s.queueNext p none
  head : t.head q = s.queueNext p
  others : ∀ r, r ≠ q → t.head r = s.head r
  status : t.status = s.status
  current : t.current = s.current
  mode : t.mode = s.mode
  ifuse : ∀ i, (t.semTable i).ifuse = (s.semTable i).ifuse

namespace Discipline

variable {busy : Set ℕ} {s t : Sched} {queue : Queue → List Pid} {p : Pid} {q : Queue} {l : List Pid}

lemma mem_tail (h : Discipline busy s queue) (hq : queue q = p :: l) (r : Queue) :
    p ∉ update queue q l r := by
  by_cases hr : r = q
  · subst hr
    have hnd := h.nodup r
    rw [hq, List.nodup_cons] at hnd
    simpa using hnd.1
  · rw [update_of_ne hr]
    exact fun e => hr (h.apart r q p e (by simp [hq]))

lemma mem_old (hq : queue q = p :: l) {r : Queue} {x : Pid} (hx : x ∈ update queue q l r) :
    x ∈ queue r := by
  by_cases hr : r = q
  · subst hr
    rw [update_self] at hx
    simp [hq, hx]
  · rwa [update_of_ne hr] at hx

lemma unlink (h : Discipline busy s queue) (hq : queue q = p :: l) (hu : Unlinked s t q p) :
    Discipline busy t (update queue q l) := by
  have hruns : ∀ tp r, t.Runs tp r ↔ s.Runs tp r := by
    intro tp r
    simp only [Sched.Runs, hu.mode, hu.current]
  have hchain := h.chain q
  rw [hq] at hchain
  refine ⟨?_, ?_, ?_, ?_, ?_, ?_, ?_⟩
  · intro r
    rw [hu.next]
    refine Chain.update_of_notMem (h.mem_tail hq r) _ ?_
    by_cases hr : r = q
    · subst hr
      rw [hu.head, update_self]
      exact hchain.2
    · rw [hu.others r hr, update_of_ne hr]
      exact h.chain r
  · intro r
    by_cases hr : r = q
    · subst hr
      have hnd := h.nodup r
      rw [hq, List.nodup_cons] at hnd
      simpa using hnd.2
    · simpa [hr] using h.nodup r
  · intro r r' x hx hx'
    exact h.apart r r' x (mem_old hq hx) (mem_old hq hx')
  · intro r x hx
    rw [hu.status]
    exact h.status r x (mem_old hq hx)
  · intro i hi
    have hold := h.unused i (by rw [← hu.ifuse]; exact hi)
    rw [List.eq_nil_iff_forall_not_mem] at hold ⊢
    exact fun x hx => hold x (mem_old hq hx)
  · intro tp r htp hrun
    rw [hu.status]
    exact h.runs tp r htp ((hruns tp r).mp hrun)
  · intro tp tp' r htp htp' h₁ h₂
    exact h.single tp tp' r htp htp' ((hruns _ _).mp h₁) ((hruns _ _).mp h₂)

lemma card_le (h : Discipline busy s queue) (q : Queue) : (queue q).length ≤ nproc := by
  simpa using (h.nodup q).length_le_card

lemma dispatch {hart : ℕ} (h : Discipline (insert hart busy) s queue) (hq : ∀ q, p ∉ queue q)
    (hrun : s.status p ≠ .running) :
    Discipline busy ((s.setStatus p .running).switchTo hart p) queue := by
  have hother : ∀ tp r, tp ≠ hart →
      (((s.setStatus p .running).switchTo hart p).Runs tp r ↔ s.Runs tp r) := by
    intro tp r htp
    simp [Sched.Runs, Sched.switchTo, Sched.setStatus, Sched.setFrame, htp]
  have hself : ∀ r, ((s.setStatus p .running).switchTo hart p).Runs hart r ↔ r = p := by
    intro r
    simp [Sched.Runs, Sched.switchTo, eq_comm]
  have hout : ∀ tp, tp ∉ busy → tp ≠ hart → tp ∉ insert hart busy := by simp +contextual
  have hnot : ∀ tp, tp ∉ busy → tp ≠ hart → ¬ s.Runs tp p :=
    fun tp hb htp => h.not_running hrun tp (hout tp hb htp)
  refine { h with status := ?_, runs := ?_, single := ?_ }
  · intro q r hr
    rw [← h.status q r hr]
    exact update_of_ne (ne_of_mem_of_not_mem hr (hq q)) _ _
  · intro tp r hb hr
    by_cases htp : tp = hart
    · subst htp
      rw [(hself r).mp hr]
      simp [Sched.switchTo, Sched.setStatus, Sched.setFrame]
    · rw [hother tp r htp] at hr
      have hne : r ≠ p := by rintro rfl; exact hnot tp hb htp hr
      exact (update_of_ne hne _ _).trans (h.runs tp r (hout tp hb htp) hr)
  · intro tp tp' r hb hb' hr hr'
    by_cases htp : tp = hart <;> by_cases htp' : tp' = hart
    · rw [htp, htp']
    · subst htp
      rw [hself] at hr
      rw [hother tp' r htp', hr] at hr'
      exact absurd hr' (hnot tp' hb' htp')
    · subst htp'
      rw [hself] at hr'
      rw [hother tp r htp, hr'] at hr
      exact absurd hr (hnot tp hb htp)
    · rw [hother tp r htp] at hr
      rw [hother tp' r htp'] at hr'
      exact h.single tp tp' r (hout tp hb htp) (hout tp' hb' htp') hr hr'

lemma pause {hart : ℕ} (h : Discipline (insert hart busy) s queue) :
    Discipline busy (s.setMode hart .waiting) queue := by
  have hruns : ∀ tp r, tp ∉ busy → (s.setMode hart .waiting).Runs tp r →
      tp ∉ insert hart busy ∧ s.Runs tp r := by
    intro tp r hb hr
    by_cases htp : tp = hart
    · subst htp; simp [Sched.Runs, Sched.setMode] at hr
    · exact ⟨by simp [htp, hb], by simpa [Sched.Runs, Sched.setMode, htp] using hr⟩
  refine { h with runs := ?_, single := ?_ }
  · intro tp r hb hr
    exact h.runs tp r (hruns tp r hb hr).1 (hruns tp r hb hr).2
  · intro tp tp' r hb hb' hr hr'
    exact h.single tp tp' r (hruns tp r hb hr).1 (hruns tp' r hb' hr').1 (hruns tp r hb hr).2
      (hruns tp' r hb' hr').2

end Discipline

variable {busy : Set ℕ} {s : Sched} {queue : Queue → List Pid} {p : Pid} {tp : ℕ} {α : Type}

structure Rotated (s t : Sched) : Prop where
  parent : t.parent = s.parent
  semTable : t.semTable = s.semTable
  frame : ∀ p r, r ≠ Reg.tp → (t.frame p).regs r = (s.frame p).regs r
  status : ∀ p, t.status p = s.status p ∨ s.status p = .ready ∧ t.status p = .running

lemma insertToReadyQueue_wp {E : Sched → Prop} (h : Discipline busy s queue) (hp : ∀ q, p ∉ queue q)
    (hr : ∀ tp ∉ busy, ¬ s.Runs tp p) (hz : s.status p ≠ .zombie) (hf : s.status p ≠ .free) :
    wp (insertToReadyQueue p) (fun _ t => Discipline busy t (update queue none (queue none ++ [p])) ∧
      t.parent = s.parent ∧ t.semTable = s.semTable ∧ t.frame = s.frame ∧
      t.status = update s.status p .ready ∧ t.current = s.current ∧ t.mode = s.mode) E s := by
  have hchain := h.chain none
  simp only [insertToReadyQueue, wp_bind, wp_get, wp_ite, hz, hf, or_self, not_false_eq_true,
    false_implies, true_implies, true_and]
  cases hh : s.readyQueueHead with
  | none =>
    have hnil : queue none = [] := Chain.unique hchain (by simpa [Sched.head] using hh)
    simp only [wp_modify]
    refine ⟨h.link hp hr (by simp) ?_, rfl, rfl, rfl, rfl, rfl, rfl⟩
    refine ⟨?_, ?_, ?_, rfl, rfl, rfl, fun _ => rfl⟩
    · simp [hnil, Sched.setNext, Sched.setStatus]
    · simp [hnil, Sched.head]
    · intro r hr
      cases r with
      | none => exact absurd rfl hr
      | some i => rfl
  | some a =>
    have hne : queue none ≠ [] := by
      intro e
      rw [e, Chain.nil_iff] at hchain
      simp [Sched.head, hh] at hchain
    rw [Sched.head, hh] at hchain
    simp only [scan_notMem hchain (hp none) (h.card_le none) hne, wp_modify]
    refine ⟨h.link hp hr (by simp) ?_, rfl, rfl, rfl, rfl, rfl, rfl⟩
    refine ⟨?_, ?_, ?_, rfl, rfl, rfl, fun _ => rfl⟩
    · simp [List.getLast?_eq_some_getLast hne, Sched.setNext, Sched.setStatus]
    · simp [hne, Sched.head, Sched.setNext, Sched.setStatus]
    · intro r hr
      cases r with
      | none => exact absurd rfl hr
      | some i => rfl

lemma schedule_leaves {α : Type} {tp : ℕ} {s : Sched} :
    wp (schedule tp : Flow Sched α) (fun _ _ => False) (fun _ => True) s := by
  simp only [schedule, wp_bind, wp_get]
  cases s.readyQueueHead with
  | none => simp [wp_ite]
  | some a => simp

lemma Discipline.pick {a : Pid} {l : List Pid} (h : Discipline (insert tp busy) s queue)
    (hl : queue none = a :: l) :
    Discipline busy ((({ s with readyQueueHead := s.queueNext a }.setNext a none).setStatus a
      .running).switchTo tp a) (update queue none l) := by
  have hready : s.status a = .ready := h.status none a (by simp [hl])
  have hu : Unlinked s ({ s with readyQueueHead := s.queueNext a }.setNext a none) none a := by
    refine ⟨rfl, rfl, ?_, rfl, rfl, rfl, fun _ => rfl⟩
    intro r hr
    cases r with
    | none => exact absurd rfl hr
    | some i => rfl
  exact (h.unlink hl hu).dispatch (h.mem_tail hl) (by simp [Sched.setNext, hready])

lemma schedule_wp {Q : α → Sched → Prop} (h : Discipline (insert tp busy) s queue) :
    wp (schedule tp) Q (fun t => Discipline busy t (update queue none (queue none).tail) ∧ Rotated s t) s := by
  have hchain := h.chain none
  simp only [schedule, wp_bind, wp_get]
  cases hh : s.readyQueueHead with
  | none =>
    have hnil : queue none = [] := Chain.unique hchain (by simpa [Sched.head] using hh)
    have hq : update queue none (queue none).tail = queue := by
      rw [hnil, List.tail_nil, ← hnil, update_eq_self]
    rw [hq]
    simp only [wp_ite, wp_bind, wp_modify, wp_leave, wp_halt, implies_true, true_and]
    exact fun _ => ⟨h.pause, rfl, rfl, fun _ _ _ => rfl, fun _ => .inl rfl⟩
  | some a =>
    obtain ⟨l, hl⟩ : ∃ l, queue none = a :: l := by
      cases hq : queue none with
      | nil => rw [hq, Chain.nil_iff] at hchain; simp [Sched.head, hh] at hchain
      | cons b l =>
        rw [hq, Chain.cons_iff, Sched.head, hh] at hchain
        exact ⟨l, by rw [Option.some.inj hchain.1]⟩
    have hready : s.status a = .ready := h.status none a (by simp [hl])
    simp only [wp_bind, wp_modify, wp_leave]
    rw [hl, List.tail_cons]
    refine ⟨h.pick hl, rfl, rfl, ?_, ?_⟩
    · intro p r hr
      by_cases hp : p = a
      · subst hp
        simp [Sched.switchTo, Sched.setFrame, Trapframe.set, Sched.setStatus, Sched.setNext, hr]
      · simp [Sched.switchTo, Sched.setFrame, Sched.setStatus, Sched.setNext, hp]
    · intro p
      by_cases hp : p = a
      · subst hp
        exact .inr ⟨hready, by simp [Sched.switchTo, Sched.setFrame, Sched.setStatus]⟩
      · exact .inl (by simp [Sched.switchTo, Sched.setFrame, Sched.setStatus, Sched.setNext, hp])

end Pke.Processes
