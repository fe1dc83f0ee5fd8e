import Pke.Processes.System

namespace Pke.Processes

open Lib Flow Function

structure Account where
  ifuse : Bool
  value : ℤ
  waiting : List Pid

def account (s : Sched) (queue : Queue → List Pid) (i : Fin nsem) : Account :=
  ⟨(s.semTable i).ifuse, (s.semTable i).value, queue (some i)⟩

structure Settled (x : Pid → Status) (a : Fin nsem → Account) (t : Sched) (queue : Queue → List Pid) :
    Prop where
  discipline : Discipline ∅ t queue
  account : account t queue = a
  status : ∀ q, t.status q = x q ∨ x q = .ready ∧ t.status q = .running

def Settles (x : Pid → Status) (a : Fin nsem → Account) (t : Sched) : Prop :=
  ∃ queue, Settled x a t queue

variable {busy : Set ℕ} {s t : Sched} {queue : Queue → List Pid} {p c : Pid} {tp : ℕ} {α : Type}
  {Q : α → Sched → Prop}

lemma Discipline.settles (h : Discipline ∅ s queue) : Settles s.status (account s queue) s :=
  ⟨queue, h, rfl, fun _ => .inl rfl⟩

lemma Discipline.running_unqueued (h : Discipline ∅ s queue) (hr : s.Runs tp p) (q : Queue) :
    p ∉ queue q := by
  have hp := h.runs tp p (by simp) hr
  exact h.unqueued (by simp [hp]) (by simp [hp]) q

lemma Discipline.only_here (h : Discipline ∅ s queue) (hr : s.Runs tp p) :
    ∀ tp' ∉ ({tp} : Set ℕ), ¬ s.Runs tp' p := by
  intro tp' htp' hr'
  exact htp' (h.single tp' tp p (by simp) (by simp) hr' hr)

lemma schedule_settles (h : Discipline {tp} s queue) :
    wp (schedule tp) Q (Settles s.status (account s queue)) s := by
  rw [← insert_empty_eq tp] at h
  refine wp_mono (schedule_wp h) (fun _ _ h => h) ?_
  intro t ⟨hd, hrot⟩
  refine ⟨_, hd, ?_, hrot.status⟩
  funext i
  simp [account, hrot.semTable]

lemma giveUp_settles (h : Discipline ∅ s queue) (hr : s.Runs tp p) :
    wp (giveUp tp p) Q (Settles (update s.status p .ready) (account s queue)) s := by
  have hq := h.running_unqueued hr
  have hd := h.enter tp |>.setStatus hq (h.only_here hr) .ready
  simp only [giveUp, wp_bind, wp_modify]
  refine wp_mono (insertToReadyQueue_wp hd hq (h.only_here hr) (by simp [Sched.setStatus])
    (by simp [Sched.setStatus])) ?_ (fun _ h => h)
  rintro _ t ⟨ht, -, hsem, -, hst, -⟩
  refine wp_mono (schedule_settles ht) (fun _ _ h => h) ?_
  intro u hu
  have hx : t.status = update s.status p .ready := by rw [hst]; simp [Sched.setStatus]
  have ha : account t (update queue none (queue none ++ [p])) = account s queue := by
    funext i
    simp [account, hsem, Sched.setStatus]
  rwa [hx, ha] at hu

lemma block_settles (h : Discipline ∅ s queue) (hr : s.Runs tp p) :
    wp (block tp p) Q (Settles (update s.status p .blocked) (account s queue)) s := by
  have hd := h.enter tp |>.setStatus (h.running_unqueued hr) (h.only_here hr) .blocked
  simp only [block, wp_bind, wp_modify]
  exact schedule_settles hd

def Sched.retired (s : Sched) (p : Pid) : Pid → Status := fun q =>
  if q = p then .zombie
  else if s.parent p = some q ∧ s.status q = .blocked then .ready
  else s.status q

lemma wakeParent_wp (h : Discipline {tp} s queue) (hz : s.status p = .zombie)
    (hpar : ∀ q, s.parent p = some q → ∀ i, q ∉ queue (some i)) {E : Sched → Prop} :
    wp (wakeParent p) (fun _ t => ∃ queue', Discipline {tp} t queue' ∧ account t queue' = account s queue ∧
      t.status = s.retired p) E s := by
  have hsame : ∀ q, (s.parent p = some q → s.status q ≠ .blocked) → s.status q = s.retired p q := by
    intro q hq
    by_cases hqp : q = p
    · simp [Sched.retired, hqp, hz]
    · simp only [Sched.retired, hqp, if_false]
      rw [if_neg]
      exact fun e => hq e.1 e.2
  simp only [wakeParent, wp_bind, wp_get]
  cases hp : s.parent p with
  | none =>
    simp only [wp_pure]
    exact ⟨queue, h, rfl, funext fun q => hsame q (by simp [hp])⟩
  | some q =>
    simp only [wp_ite, wp_bind, wp_modify, wp_pure]
    refine ⟨fun hb => ?_, fun hb => ?_⟩
    · have hqp : q ≠ p := by rintro rfl; rw [hz] at hb; cases hb
      have hun : ∀ r, q ∉ queue r := by
        intro r hr
        cases r with
        | none => have := h.status none q hr; rw [hb] at this; cases this
        | some i => exact hpar q hp i hr
      have hrun : ∀ tp' ∉ ({tp} : Set ℕ), ¬ s.Runs tp' q := h.not_running (by simp [hb])
      refine wp_mono (insertToReadyQueue_wp (h.setStatus hun hrun .ready) hun hrun
        (by simp [Sched.setStatus]) (by simp [Sched.setStatus])) ?_ (fun _ h => h)
      rintro _ t ⟨ht, -, hsem, -, hst, -⟩
      refine ⟨_, ht, ?_, ?_⟩
      · funext i
        simp [account, hsem, Sched.setStatus]
      · funext r
        rw [hst]
        by_cases hrq : r = q
        · subst hrq
          simp [Sched.retired, hqp, hp, hb]
        · have hrp : s.parent p ≠ some r := by rw [hp]; simpa using Ne.symm hrq
          rw [← hsame r (fun e => absurd e hrp)]
          simp [Sched.setStatus, hrq]
    · refine ⟨queue, h, rfl, funext fun r => hsame r ?_⟩
      intro hr
      rw [hp] at hr
      rwa [← Option.some.inj hr]

lemma retire_settles (h : Discipline ∅ s queue) (hr : s.Runs tp p)
    (hpar : ∀ q, s.parent p = some q → ∀ i, q ∉ queue (some i)) :
    wp (retire tp) Q (Settles (s.retired p) (account s queue)) s := by
  have hd := h.enter tp |>.setStatus (h.running_unqueued hr) (h.only_here hr) .zombie
  simp only [retire, withCurrent, wp_bind, wp_get, hr.2, freeProcess, wp_modify]
  refine wp_mono (wakeParent_wp hd (by simp [Sched.setStatus]) hpar) ?_ (fun _ h => h)
  rintro _ t ⟨queue', ht, hacc, hst⟩
  refine wp_mono (schedule_settles ht) (fun _ _ h => h) ?_
  intro u hu
  have hx : (s.setStatus p .zombie).retired p = s.retired p := by
    funext q
    by_cases hq : q = p
    · simp [Sched.retired, hq]
    · simp [Sched.retired, Sched.setStatus, hq]
  rw [hst, hx, hacc] at hu
  exact hu

lemma Discipline.setFrame (h : Discipline busy s queue) (f : Trapframe) :
    Discipline busy (s.setFrame p f) queue := { h with }

def Sched.slot (s : Sched) : Option Pid := (List.finRange nproc).find? (fun i => s.status i = .free)

lemma Sched.slot_free (h : s.slot = some c) : s.status c = .free := by
  simpa using List.find?_some h

lemma allocSlot_wp {Q : Pid → Sched → Prop} {E : Sched → Prop}
    (h : ∀ c, s.slot = some c → Q c (s.setStatus c .ready)) : wp allocSlot Q E s := by
  simp only [allocSlot, wp_bind, wp_get]
  split
  next => trivial
  next c hc => exact h c hc

lemma Discipline.claim (h : Discipline ∅ s queue) (hc : s.slot = some c) :
    Discipline ∅ (s.setStatus c .ready) queue ∧ (∀ q, c ∉ queue q) ∧ ∀ tp, ¬ s.Runs tp c := by
  have hf := Sched.slot_free hc
  have hq := h.unqueued (p := c) (by simp [hf]) (by simp [hf])
  have hr := fun tp => h.not_running (p := c) (by simp [hf]) tp (by simp)
  exact ⟨h.setStatus hq (fun tp _ => hr tp) .ready, hq, hr⟩

lemma launchChild_wp {E : Sched → Prop} (h : Discipline ∅ s queue) (hc : s.status c = .ready)
    (hq : ∀ q, c ∉ queue q) (hr : ∀ tp, ¬ s.Runs tp c) :
    wp (launchChild p c) (fun _ t => Settles s.status (account s queue) t ∧ t.current = s.current ∧
      t.mode = s.mode) E s := by
  have hd : Discipline ∅ { (s.setStatus c .ready).setFrame c ((s.frame c).set .a0 0) with
      parent := update s.parent c (some p) } queue :=
    ((h.setStatus hq (fun tp _ => hr tp) .ready).setFrame _).addParent _
  simp only [launchChild, wp_bind, wp_modify]
  refine wp_mono (insertToReadyQueue_wp hd hq (fun tp _ => hr tp) (by simp [Sched.setFrame, Sched.setStatus])
    (by simp [Sched.setFrame, Sched.setStatus])) ?_ (fun _ h => h)
  rintro _ t ⟨ht, -, hsem, -, hst, hcur, hmode⟩
  refine ⟨⟨_, ht, ?_, ?_⟩, hcur, hmode⟩
  · funext i
    simp [account, hsem, Sched.setFrame, Sched.setStatus]
  · intro q
    left
    rw [hst]
    by_cases hqc : q = c
    · simp [hqc, hc]
    · simp [hqc, Sched.setFrame, Sched.setStatus]

lemma doSemNew_wp {E : Sched → Prop} (initVal : ℕ) (h : Discipline ∅ s queue) :
    wp (doSemNew initVal) (fun _ t => Settles s.status
      (match (List.finRange nsem).find? (fun i => !(s.semTable i).ifuse) with
        | none => account s queue
        | some i => update (account s queue) i ⟨true, toInt initVal, queue (some i)⟩) t ∧
      t.current = s.current ∧ t.mode = s.mode) E s := by
  simp only [doSemNew, wp_bind, wp_get]
  cases hi : (List.finRange nsem).find? (fun i => !(s.semTable i).ifuse) with
  | none => exact ⟨h.settles, rfl, rfl⟩
  | some i =>
    have hun : (s.semTable i).ifuse = false := by simpa using List.find?_some hi
    have hnil := h.unused i hun
    simp only [wp_bind, wp_modify, wp_pure]
    refine ⟨⟨queue, { h with chain := ?_, unused := ?_ }, ?_, fun _ => .inl rfl⟩, rfl, rfl⟩
    · intro q
      cases q with
      | none => exact h.chain none
      | some j =>
        by_cases hj : j = i
        · subst hj
          simp [Sched.head, Sched.setSem, hnil]
        · simpa [Sched.head, Sched.setSem, hj] using h.chain (some j)
    · intro j hj
      by_cases hji : j = i
      · rw [hji]; exact hnil
      · exact h.unused j (by simpa [Sched.setSem, hji] using hj)
    · funext j
      by_cases hji : j = i
      · subst hji
        simp [account, Sched.setSem]
      · simp [account, Sched.setSem, hji]

end Pke.Processes
