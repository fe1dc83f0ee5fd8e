import Pke.Processes.Steps

namespace Pke.Processes

open Lib Flow Function

def OnQueue (s : Sched) (q : Queue) (p : Pid) : Prop := ∃ l, Chain s.queueNext (s.head q) l ∧ p ∈ l

structure QueuesInOrder (s : Sched) : Prop where
  apart : ∀ q r p, OnQueue s q p → OnQueue s r p → q = r
  ends : ∀ q, ∃ l, Chain s.queueNext (s.head q) l ∧ l.Nodup
  ready : ∀ p, OnQueue s none p → s.status p = .ready

structure KeepsWaiting (s : Sched) (tp : ℕ) (e : Event) (t : Sched) : Prop where
  joins : ∀ user sid i p, e = .trap user (.ecall (.semP sid)) → s.semaphore sid = some i → s.Runs tp p →
    ¬ 0 < (s.semTable i).value → OnQueue t (some i) p ∧ t.status p = .blocked
  stays : ∀ i p, OnQueue s (some i) p → s.status p = .blocked ∧
    ((OnQueue t (some i) p ∧ t.status p = .blocked) ∨
      ∃ user sid, e = .trap user (.ecall (.semV sid)) ∧ s.semaphore sid = some i)

def SparesParent (s : Sched) (tp : ℕ) (e : Event) : Prop :=
  e.ends s = true → ∀ p q i, s.current tp = some p → s.parent p = some q → ¬ OnQueue s (some i) q

variable {s t : Sched} {queue : Queue → List Pid} {p : Pid} {tp : ℕ} {e : Event} {r : Option ℤ}

namespace Discipline

variable {busy : Set ℕ}

lemma onQueue_iff (h : Discipline busy s queue) (q : Queue) : OnQueue s q p ↔ p ∈ queue q := by
  constructor
  · rintro ⟨l, hl, hp⟩
    rwa [hl.unique (h.chain q)] at hp
  · exact fun hp => ⟨queue q, h.chain q, hp⟩

lemma inOrder (h : Discipline busy s queue) : QueuesInOrder s where
  apart q r p hq hr := h.apart q r p ((h.onQueue_iff q).mp hq) ((h.onQueue_iff r).mp hr)
  ends q := ⟨queue q, h.chain q, h.nodup q⟩
  ready p hp := h.status none p ((h.onQueue_iff none).mp hp)

end Discipline

lemma SparesParent.peaceful (h : Discipline ∅ s queue) (hok : SparesParent s tp e) :
    e.ends s = true → ∀ p, s.current tp = some p → Peaceful s queue p :=
  fun he p hp q hq i hi => hok he p q i hp hq ((h.onQueue_iff (some i)).mpr hi)

lemma Step.discipline (h : ∃ queue, Discipline ∅ s queue) (hok : SparesParent s tp e)
    (hs : Step s tp e r t) : ∃ queue, Discipline ∅ t queue := by
  obtain ⟨queue, hd⟩ := h
  obtain ⟨queue', ht, -⟩ := hs.settles hd (hok.peaceful hd)
  exact ⟨queue', ht⟩

lemma Reach.discipline (h : Reach SparesParent s) : ∃ queue, Discipline ∅ s queue := by
  induction h with
  | refl => exact ⟨_, Discipline.initial⟩
  | tail _ hstep ih =>
    obtain ⟨tp, e, r, hok, hs⟩ := hstep
    exact hs.discipline ih hok

lemma accounts_waiting (s : Sched) (tp : ℕ) (e : Event) (a : Fin nsem → Account) (i : Fin nsem) :
    (e.accounts s tp a i).waiting = (a i).waiting ∨
    (∃ p, (e.accounts s tp a i).waiting = (a i).waiting ++ [p]) ∨
    ∃ user sid, e = .trap user (.ecall (.semV sid)) ∧ s.semaphore sid = some i := by
  cases e with
  | start _ => exact .inl rfl
  | resume => exact .inl rfl
  | trap user cause =>
    simp only [Event.accounts]
    cases s.current tp with
    | none => exact .inl rfl
    | some p =>
      cases cause with
      | timer => exact .inl rfl
      | handled => exact .inl rfl
      | fatal => exact .inl rfl
      | ecall op =>
        cases op with
        | semNew v =>
          simp only [Cause.accounts, Op.accounts]
          cases (List.finRange nsem).find? (fun i => !(s.semTable i).ifuse) with
          | none => exact .inl rfl
          | some j =>
            left
            by_cases hj : i = j
            · subst hj; simp
            · simp [hj]
        | semP sid =>
          simp only [Cause.accounts, Op.accounts]
          cases s.semaphore sid with
          | none => exact .inl rfl
          | some j =>
            by_cases hj : i = j
            · subst hj
              simp only [update_self, Account.acquire]
              split_ifs
              · exact .inl rfl
              · exact .inr (.inl ⟨p, rfl⟩)
            · exact .inl (by simp [hj])
        | semV sid =>
          simp only [Cause.accounts, Op.accounts]
          cases hsid : s.semaphore sid with
          | none => exact .inl rfl
          | some j =>
            by_cases hj : i = j
            · exact .inr (.inr ⟨user, sid, rfl, by rw [hsid, hj]⟩)
            · exact .inl (by simp [hj])
        | _ => exact .inl rfl

lemma Step.keepsWaiting (h : Discipline ∅ s queue) (hok : SparesParent s tp e) (hs : Step s tp e r t) :
    KeepsWaiting s tp e t := by
  obtain ⟨queue', ht, hacc, -⟩ := hs.settles h (hok.peaceful h)
  have hwait : ∀ i, queue' (some i) = (e.accounts s tp (account s queue) i).waiting := fun i => by
    rw [← hacc]; rfl
  refine ⟨?_, ?_⟩
  · rintro user sid i p rfl hi hrun hv
    have hp : p ∈ queue' (some i) := by
      rw [hwait]
      simp [Event.accounts, Cause.accounts, Op.accounts, hrun.2, hi, Account.acquire, account, hv]
    exact ⟨(ht.onQueue_iff (some i)).mpr hp, ht.status (some i) p hp⟩
  · intro i p hp
    rw [h.onQueue_iff] at hp
    refine ⟨h.status (some i) p hp, ?_⟩
    have hstay : p ∈ queue' (some i) → OnQueue t (some i) p ∧ t.status p = .blocked :=
      fun hp' => ⟨(ht.onQueue_iff (some i)).mpr hp', ht.status (some i) p hp'⟩
    rcases accounts_waiting s tp e (account s queue) i with hsame | ⟨p', hjoin⟩ | hv
    · exact .inl (hstay (by rw [hwait, hsame]; exact hp))
    · exact .inl (hstay (by rw [hwait, hjoin]; exact List.mem_append_left _ hp))
    · exact .inr hv

theorem queues_in_order_sparing_parents (hs : Reach SparesParent s) :
    QueuesInOrder s ∧
      ∀ tp e r t, SparesParent s tp e → Step s tp e r t → QueuesInOrder t ∧ KeepsWaiting s tp e t := by
  obtain ⟨queue, hd⟩ := hs.discipline
  refine ⟨hd.inOrder, ?_⟩
  intro tp e r t hok hstep
  obtain ⟨queue', hd'⟩ := hstep.discipline ⟨queue, hd⟩ hok
  exact ⟨hd'.inOrder, hstep.keepsWaiting hd hok⟩

lemma exec_state {l : List (ℕ × Event)} {f : Sched → Bool}
    (h : (exec (fun s e => !e.ends s) l Sched.initProcPool).any f = true) :
    ∃ s, Reach SparesParent s ∧ f s = true := by
  obtain ⟨s, hs, hf⟩ := (Option.any_eq_true _ _).mp h
  refine ⟨s, exec_reach (fun s tp e he hend => ?_) Relation.ReflTransGen.refl hs, hf⟩
  simp [hend] at he

def parentWaits : List (ℕ × Event) :=
  [(0, .start (some {})), (0, .trap {} (.ecall (.semNew 0))), (0, .trap {} (.ecall (.fork true {}))),
   (0, .trap {} (.ecall (.fork true {}))), (0, .trap {} (.ecall (.semP 0)))]

lemma parentWaits_reach (ok : Sched → ℕ → Event → Prop) (hok : ∀ s tp e, e.ends s = false → ok s tp e) :
    ∃ s, Reach ok s ∧ s.mode 0 = .user ∧ s.current 0 = some 1 ∧ s.parent 1 = some 0 ∧
      s.status 0 = .blocked ∧ OnQueue s (some 0) 0 ∧
      ((Event.trap {} (.ecall .exit)).outcome 0 s).any (fun x => x.2.status 0 = .ready ∧
        x.2.readyQueueHead = some 0 ∧ x.2.queueNext 0 = none ∧ (x.2.semTable 0).waitQueue = some 0) := by
  have hrun : (exec (fun s e => !e.ends s) parentWaits Sched.initProcPool).any (fun s =>
      (s.mode 0 = .user ∧ s.current 0 = some 1 ∧ s.parent 1 = some 0 ∧ s.status 0 = .blocked ∧
        (s.semTable 0).waitQueue = some 0 ∧ s.queueNext 0 = none) ∧
      ((Event.trap {} (.ecall .exit)).outcome 0 s).any (fun x => x.2.status 0 = .ready ∧
        x.2.readyQueueHead = some 0 ∧ x.2.queueNext 0 = none ∧ (x.2.semTable 0).waitQueue = some 0)) = true := by
    decide +kernel
  obtain ⟨s, hs, hobs⟩ := (Option.any_eq_true _ _).mp hrun
  obtain ⟨⟨hmode, hcur, hpar, hst, hwait, hnext⟩, hexit⟩ := of_decide_eq_true hobs
  refine ⟨s, exec_reach (fun s tp e he => hok s tp e (by simpa using he)) Relation.ReflTransGen.refl hs,
    hmode, hcur, hpar, hst, ⟨[0], ?_, by simp⟩, hexit⟩
  simp [Sched.head, hwait, hnext]

theorem queues_in_order_sparing_parents_waiting : ∃ s, Reach SparesParent s ∧ OnQueue s (some 0) 0 ∧
    QueuesInOrder s := by
  obtain ⟨s, hs, -, -, -, -, hq, -⟩ :=
    parentWaits_reach SparesParent (fun s tp e he h => by simp [he] at h)
  exact ⟨s, hs, hq, (queues_in_order_sparing_parents hs).1⟩

theorem child_exit_readies_semaphore_waiter : ∃ s t, Reach (fun _ _ _ => True) s ∧
    (∃ r, Step s 0 (.trap {} (.ecall .exit)) r t) ∧ s.Runs 0 1 ∧ s.parent 1 = some 0 ∧
    OnQueue s (some 0) 0 ∧ s.status 0 = .blocked ∧ t.status 0 = .ready ∧ ¬ QueuesInOrder t := by
  obtain ⟨s, hs, hmode, hcur, hpar, hst, hq, hexit⟩ :=
    parentWaits_reach (fun _ _ _ => True) (fun _ _ _ _ => trivial)
  obtain ⟨t, ht, hobs⟩ := (Option.any_eq_true _ _).mp hexit
  obtain ⟨hst', hready, hnext, hwait⟩ := of_decide_eq_true hobs
  refine ⟨s, t.2, hs, ⟨t.1, Event.outcome_step ht⟩, ⟨hmode, hcur⟩, hpar, hq, hst, hst', fun h => ?_⟩
  have hsame : (none : Queue) = some 0 := by
    apply h.apart none (some 0) 0
    · exact ⟨[0], by simp [Sched.head, hready, hnext], by simp⟩
    · exact ⟨[0], by simp [Sched.head, hwait, hnext], by simp⟩
  cases hsame

end Pke.Processes
