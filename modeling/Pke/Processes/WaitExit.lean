import Pke.Processes.QueueSafety

/-! `sys_user_wait` on one hart against `sys_user_exit` on another, one shared access at a time.
Only the ready queue is locked: the look at the child, the change of the own status, the mark and
the test of the parent's status are steps of their own. -/

namespace Pke.Processes

open Lib Flow Function

inductive WaitPoint where
  | called
  | scanning (i : Pid)
  | testing (i : Pid)
  | blocking
  | entering
  | away
  | returned (r : ℤ)
  deriving DecidableEq

inductive ExitPoint where
  | marking | reading | waking | inserting | finished | away
  deriving DecidableEq

structure Race where
  sched : Sched
  wait : WaitPoint
  exit : ExitPoint

inductive Side where
  | parent | child
  deriving DecidableEq

structure Pair where
  parent : Pid
  child : Pid
  parentHart : ℕ
  childHart : ℕ
  pid : ℤ

namespace Pair

variable (w : Pair)

def enterSchedule (tp : ℕ) (s : Sched) : Option Sched :=
  match (schedule tp : Flow Sched Unit) s with
  | .left t => some t
  | _ => none

def idle (tp : ℕ) (s : Sched) : Option Sched := if s.mode tp = .waiting then enterSchedule tp s else some s

def stepParent (r : Race) : Option Race :=
  let s := r.sched
  match r.wait with
  | .called =>
    if w.pid = -1 then some { r with wait := .scanning 0 }
    else
      if h : 0 ≤ w.pid ∧ w.pid < nproc then
        let i : Pid := ⟨w.pid.toNat, by omega⟩
        if s.parent i ≠ some w.parent then some { r with wait := .returned (-1) }
        else some { r with wait := .testing i }
      else some { r with wait := .returned (-1) }
  | .scanning i =>
    if s.parent i = some w.parent ∧ s.status i = .zombie then
      some { r with sched := s.setStatus i .zombie, wait := .returned (i : ℕ) }
    else if h : (i : ℕ) + 1 < nproc then some { r with wait := .scanning ⟨i + 1, h⟩ }
    else some { r with wait := .blocking }
  | .testing i =>
    if s.status i = .zombie then
      some { r with sched := s.setStatus i .zombie, wait := .returned (i : ℕ) }
    else some { r with wait := .blocking }
  | .blocking => some { r with sched := s.setStatus w.parent .blocked, wait := .entering }
  | .entering => (enterSchedule w.parentHart s).map fun t => { r with sched := t, wait := .away }
  | .away => (idle w.parentHart s).map fun t => { r with sched := t }
  | .returned _ => some r

def stepChild (r : Race) : Option Race :=
  let s := r.sched
  match r.exit with
  | .marking => some { r with sched := s.setStatus w.child .zombie, exit := .reading }
  | .reading =>
    if s.status w.parent = .blocked then some { r with exit := .waking } else some { r with exit := .finished }
  | .waking => some { r with sched := s.setStatus w.parent .ready, exit := .inserting }
  | .inserting =>
    match insertToReadyQueue w.parent s with
    | .done _ t => some { r with sched := t, exit := .finished }
    | _ => none
  | .finished => (enterSchedule w.childHart s).map fun t => { r with sched := t, exit := .away }
  | .away => (idle w.childHart s).map fun t => { r with sched := t }

def step (r : Race) : Side → Option Race
  | .parent => w.stepParent r
  | .child => w.stepChild r

def play : List Side → Race → Option Race
  | [], r => some r
  | a :: l, r => (w.step r a).bind (play l)

end Pair

structure Pair.Begins (w : Pair) (s : Sched) : Prop where
  order : ∃ queue, Discipline ∅ s queue
  parent : s.Runs w.parentHart w.parent
  child : s.Runs w.childHart w.child
  harts : w.parentHart ≠ w.childHart
  kin : s.parent w.child = some w.parent
  awaits : w.pid = -1 ∨ w.pid = (w.child : ℕ)

def Race.start (s : Sched) : Race := ⟨s, .called, .marking⟩

structure Pair.Stranded (w : Pair) (r : Race) : Prop where
  finished : r.exit = .finished ∨ r.exit = .away
  zombie : r.sched.status w.child = .zombie
  waits : r.wait = .entering ∨ r.wait = .away
  blocked : r.sched.status w.parent = .blocked
  nowhere : ∀ q, ¬ OnQueue r.sched q w.parent

def Race.Late (r : Race) : Prop := r.wait = .blocking ∧ (r.exit = .finished ∨ r.exit = .away)

variable {w : Pair} {r r' : Race} {s t : Sched} {queue : Queue → List Pid} {busy : Set ℕ} {tp : ℕ}
  {p : Pid} {l m : List Side} {a : Side}

lemma schedule_elsewhere {Q : Unit → Sched → Prop} :
    wp (schedule tp) Q (fun t => ∀ h ≠ tp, ∀ p, t.Runs h p ↔ s.Runs h p) s := by
  simp only [schedule, wp_bind, wp_get]
  cases s.readyQueueHead with
  | none =>
    simp only [wp_ite, wp_bind, wp_modify, wp_leave, wp_halt, implies_true, true_and]
    intro _ h hh p
    simp [Sched.Runs, Sched.setMode, hh]
  | some a =>
    simp only [wp_bind, wp_modify, wp_leave]
    intro h hh p
    simp [Sched.Runs, Sched.switchTo, Sched.setFrame, Sched.setStatus, Sched.setNext, hh]

structure Turned (busy : Set ℕ) (s : Sched) (queue : Queue → List Pid) (t : Sched) : Prop where
  order : ∃ queue', Discipline busy t queue' ∧ ∀ q p, p ∈ queue' q → p ∈ queue q
  status : ∀ p, t.status p = s.status p ∨ s.status p = .ready ∧ t.status p = .running
  elsewhere : ∀ k ∉ busy, ∀ p, t.Runs k p ↔ s.Runs k p

lemma Turned.status_eq (h : Turned busy s queue t) {x : Status} (hp : s.status p = x) (hx : x ≠ .ready) :
    t.status p = x := by
  rcases h.status p with e | ⟨e, -⟩
  · rw [e, hp]
  · exact absurd (hp.symm.trans e) hx

lemma Turned.not_blocked (h : Turned busy s queue t) (hp : s.status p ≠ .blocked) : t.status p ≠ .blocked := by
  rcases h.status p with e | ⟨-, e⟩
  · rwa [e]
  · simp [e]

namespace Discipline

lemma weaken {busy' : Set ℕ} (h : Discipline busy s queue) (hb : busy ⊆ busy') : Discipline busy' s queue :=
  { h with
    runs := fun tp p htp => h.runs tp p (fun e => htp (hb e))
    single := fun tp tp' p htp htp' => h.single tp tp' p (fun e => htp (hb e)) (fun e => htp' (hb e)) }

lemma enterSchedule (h : Discipline busy s queue) (htp : tp ∈ busy) (ht : Pair.enterSchedule tp s = some t) :
    Turned busy s queue t := by
  rw [← Set.insert_eq_of_mem htp] at h
  have hwp : wp (schedule tp : Flow Sched Unit) _ _ s :=
    wp_and (schedule_wp (Q := fun _ _ => True) h) (schedule_elsewhere (Q := fun _ _ => True))
  unfold Pair.enterSchedule at ht
  cases hm : (schedule tp : Flow Sched Unit) s with
  | left u =>
    rw [hm] at ht
    obtain ⟨⟨hd, hrot⟩, helse⟩ := wp_left hwp hm
    rw [← Option.some.inj ht]
    refine ⟨⟨_, hd, ?_⟩, hrot.status, fun k hk => helse k (ne_of_mem_of_not_mem htp hk).symm⟩
    intro q p hp
    by_cases hq : q = none
    · subst hq
      rw [update_self] at hp
      exact List.mem_of_mem_tail hp
    · rwa [update_of_ne hq] at hp
  | done a u => rw [hm] at ht; cases ht
  | halted => rw [hm] at ht; cases ht
  | undefined => rw [hm] at ht; cases ht

lemma turned (h : Discipline busy s queue) (htp : tp ∈ busy)
    (ht : Pair.enterSchedule tp s = some t ∨ Pair.idle tp s = some t) : Turned busy s queue t := by
  rcases ht with ht | ht
  · exact h.enterSchedule htp ht
  · unfold Pair.idle at ht
    split_ifs at ht with hm
    · exact h.enterSchedule htp ht
    · rw [← Option.some.inj ht]
      exact ⟨⟨queue, h, fun _ _ hp => hp⟩, fun _ => .inl rfl, fun _ _ _ => Iff.rfl⟩

end Discipline

def WaitPoint.Blocked (x : WaitPoint) : Prop := x = .entering ∨ x = .away
def ExitPoint.Over (x : ExitPoint) : Prop := x = .finished ∨ x = .away
def Pair.harts (w : Pair) : Set ℕ := {w.parentHart, w.childHart}

lemma setStatus_eq_self {x : Status} (h : s.status p = x) : s.setStatus p x = s := by
  rw [Sched.setStatus, ← h, update_eq_self]

namespace Pair

lemma stepParent_cases (hs : w.stepParent r = some r') :
    (¬ r.wait.Blocked ∧ ∃ x : WaitPoint, ¬ x.Blocked ∧ r' = { r with wait := x }) ∨
    (r.wait = .blocking ∧ r' = ⟨r.sched.setStatus w.parent .blocked, .entering, r.exit⟩) ∨
    (r.wait.Blocked ∧ ∃ t, (enterSchedule w.parentHart r.sched = some t ∨ idle w.parentHart r.sched = some t) ∧
      r' = ⟨t, .away, r.exit⟩) := by
  unfold stepParent at hs
  cases hw : r.wait with
  | called =>
    simp only [hw] at hs
    refine .inl ⟨by simp [WaitPoint.Blocked], ?_⟩
    split_ifs at hs <;> exact ⟨_, by simp [WaitPoint.Blocked], (Option.some.inj hs).symm⟩
  | scanning i =>
    simp only [hw] at hs
    refine .inl ⟨by simp [WaitPoint.Blocked], ?_⟩
    split_ifs at hs with hz hi
    · rw [setStatus_eq_self hz.2] at hs
      exact ⟨_, by simp [WaitPoint.Blocked], (Option.some.inj hs).symm⟩
    · exact ⟨_, by simp [WaitPoint.Blocked], (Option.some.inj hs).symm⟩
    · exact ⟨_, by simp [WaitPoint.Blocked], (Option.some.inj hs).symm⟩
  | testing i =>
    simp only [hw] at hs
    refine .inl ⟨by simp [WaitPoint.Blocked], ?_⟩
    split_ifs at hs with hz
    · rw [setStatus_eq_self hz] at hs
      exact ⟨_, by simp [WaitPoint.Blocked], (Option.some.inj hs).symm⟩
    · exact ⟨_, by simp [WaitPoint.Blocked], (Option.some.inj hs).symm⟩
  | blocking =>
    simp only [hw] at hs
    exact .inr (.inl ⟨rfl, (Option.some.inj hs).symm⟩)
  | entering =>
    simp only [hw] at hs
    obtain ⟨t, ht, rfl⟩ := Option.map_eq_some_iff.mp hs
    exact .inr (.inr ⟨.inl rfl, t, .inl ht, rfl⟩)
  | away =>
    simp only [hw] at hs
    obtain ⟨t, ht, rfl⟩ := Option.map_eq_some_iff.mp hs
    exact .inr (.inr ⟨.inr rfl, t, .inr ht, rfl⟩)
  | returned x =>
    simp only [hw] at hs
    refine .inl ⟨by simp [WaitPoint.Blocked], .returned x, by simp [WaitPoint.Blocked], ?_⟩
    rw [← Option.some.inj hs, ← hw]

lemma stepChild_cases (hs : w.stepChild r = some r') :
    (r.exit = .marking ∧ r' = ⟨r.sched.setStatus w.child .zombie, r.wait, .reading⟩) ∨
    (r.exit = .reading ∧ r.sched.status w.parent = .blocked ∧ r' = ⟨r.sched, r.wait, .waking⟩) ∨
    (r.exit = .reading ∧ r.sched.status w.parent ≠ .blocked ∧ r' = ⟨r.sched, r.wait, .finished⟩) ∨
    (r.exit = .waking ∧ r' = ⟨r.sched.setStatus w.parent .ready, r.wait, .inserting⟩) ∨
    (r.exit = .inserting ∧ ∃ u t, insertToReadyQueue w.parent r.sched = .done u t ∧ r' = ⟨t, r.wait, .finished⟩) ∨
    (r.exit.Over ∧ ∃ t, (enterSchedule w.childHart r.sched = some t ∨ idle w.childHart r.sched = some t) ∧
      r' = ⟨t, r.wait, .away⟩) := by
  unfold stepChild at hs
  cases he : r.exit with
  | marking =>
    simp only [he] at hs
    exact .inl ⟨rfl, (Option.some.inj hs).symm⟩
  | reading =>
    simp only [he] at hs
    split_ifs at hs with hb
    · exact .inr (.inl ⟨rfl, hb, (Option.some.inj hs).symm⟩)
    · exact .inr (.inr (.inl ⟨rfl, hb, (Option.some.inj hs).symm⟩))
  | waking =>
    simp only [he] at hs
    exact .inr (.inr (.inr (.inl ⟨rfl, (Option.some.inj hs).symm⟩)))
  | inserting =>
    simp only [he] at hs
    cases hm : insertToReadyQueue w.parent r.sched with
    | done u t =>
      rw [hm] at hs
      exact .inr (.inr (.inr (.inr (.inl ⟨rfl, u, t, rfl, (Option.some.inj hs).symm⟩))))
    | left t => rw [hm] at hs; cases hs
    | halted => rw [hm] at hs; cases hs
    | undefined => rw [hm] at hs; cases hs
  | finished =>
    simp only [he] at hs
    obtain ⟨t, ht, rfl⟩ := Option.map_eq_some_iff.mp hs
    exact .inr (.inr (.inr (.inr (.inr ⟨.inl rfl, t, .inl ht, rfl⟩))))
  | away =>
    simp only [he] at hs
    obtain ⟨t, ht, rfl⟩ := Option.map_eq_some_iff.mp hs
    exact .inr (.inr (.inr (.inr (.inr ⟨.inr rfl, t, .inr ht, rfl⟩))))

end Pair

structure Pair.Sane (w : Pair) (r : Race) : Prop where
  order : ∃ queue, Discipline w.harts r.sched queue ∧ (¬ r.exit.Over → ∀ q, w.parent ∉ queue q)
  elsewhere : ∀ k ∉ w.harts, ¬ r.sched.Runs k w.parent ∧ ¬ r.sched.Runs k w.child
  distinct : w.parent ≠ w.child
  alive : r.exit = .marking → r.sched.status w.child = .running
  dead : r.exit ≠ .marking → r.sched.status w.child = .zombie
  running : ¬ r.wait.Blocked → r.sched.status w.parent = .running
  noticed : r.exit = .waking ∨ r.exit = .inserting → r.wait.Blocked
  readied : r.exit = .inserting → r.sched.status w.parent = .ready ∨ r.sched.status w.parent = .running

namespace Pair

lemma Begins.sane (h : w.Begins s) : w.Sane (Race.start s) := by
  obtain ⟨queue, hd⟩ := h.order
  have hp : s.status w.parent = .running := hd.runs _ _ (by simp) h.parent
  have hne : w.parent ≠ w.child := by
    intro e
    have hc := h.child
    rw [← e] at hc
    exact h.harts (hd.single _ _ _ (by simp) (by simp) h.parent hc)
  refine ⟨⟨queue, hd.weaken (by simp), fun _ => hd.unqueued (by simp [hp]) (by simp [hp])⟩, ?_, hne, ?_, ?_, ?_, ?_, ?_⟩
  · intro k hk
    simp only [Pair.harts, Set.mem_insert_iff, Set.mem_singleton_iff, not_or] at hk
    exact ⟨fun e => hk.1 (hd.single _ _ _ (by simp) (by simp) e h.parent),
      fun e => hk.2 (hd.single _ _ _ (by simp) (by simp) e h.child)⟩
  · exact fun _ => hd.runs _ _ (by simp) h.child
  · exact fun e => absurd rfl e
  · exact fun _ => hp
  · rintro (e | e) <;> cases e
  · intro e
    cases e

namespace Sane

lemma turn (h : w.Sane r) (ht : ∀ queue, Discipline w.harts r.sched queue → Turned w.harts r.sched queue t)
    {x : WaitPoint} {y : ExitPoint} (hx : x.Blocked ↔ r.wait.Blocked) (hy : y = r.exit ∨ r.exit.Over ∧ y.Over) :
    w.Sane ⟨t, x, y⟩ := by
  obtain ⟨queue, hd, hq⟩ := h.order
  have hturn := ht queue hd
  obtain ⟨queue', hd', hsub⟩ := hturn.order
  have hover : y.Over ↔ r.exit.Over := by
    rcases hy with rfl | ⟨h₁, h₂⟩
    · rfl
    · exact iff_of_true h₂ h₁
  have hsame : ∀ z : ExitPoint, ¬ z.Over → (y = z ↔ r.exit = z) := by
    intro z hz
    rcases hy with rfl | ⟨h₁, h₂⟩
    · rfl
    · constructor
      · rintro rfl
        exact absurd h₂ hz
      · rintro rfl
        exact absurd h₁ hz
  have hmark := hsame .marking (by simp [ExitPoint.Over])
  have hwake := hsame .waking (by simp [ExitPoint.Over])
  have hins := hsame .inserting (by simp [ExitPoint.Over])
  refine ⟨⟨queue', hd', ?_⟩, ?_, h.distinct, ?_, ?_, ?_, ?_, ?_⟩
  · exact fun e q hp => hq (fun o => e (hover.mpr o)) q (hsub q _ hp)
  · intro k hk
    rw [hturn.elsewhere k hk, hturn.elsewhere k hk]
    exact h.elsewhere k hk
  · exact fun e => hturn.status_eq (h.alive (hmark.mp e)) (by decide)
  · exact fun e => hturn.status_eq (h.dead (fun e' => e (hmark.mpr e'))) (by decide)
  · exact fun e => hturn.status_eq (h.running (fun e' => e (hx.mpr e'))) (by decide)
  · rw [hwake, hins]
    exact fun e => hx.mpr (h.noticed e)
  · intro e
    rcases h.readied (hins.mp e) with hr | hr
    · exact (hturn.status w.parent).imp (fun e' => e'.trans hr) (fun e' => e'.2)
    · exact .inr (hturn.status_eq hr (by decide))

lemma move (h : w.Sane r) (x : WaitPoint) (hr : ¬ r.wait.Blocked) :
    w.Sane { r with wait := x } :=
  { h with
    running := fun _ => h.running hr
    noticed := fun e => absurd (h.noticed e) hr }

lemma block (h : w.Sane r) (hw : r.wait = .blocking) :
    w.Sane ⟨r.sched.setStatus w.parent .blocked, .entering, r.exit⟩ := by
  have hr : ¬ r.wait.Blocked := by simp [hw, WaitPoint.Blocked]
  obtain ⟨queue, hd, -⟩ := h.order
  have hrun := h.running hr
  have hun : ∀ q, w.parent ∉ queue q := hd.unqueued (by simp [hrun]) (by simp [hrun])
  have hchild : (r.sched.setStatus w.parent .blocked).status w.child = r.sched.status w.child :=
    update_of_ne h.distinct.symm _ _
  refine ⟨⟨queue, hd.setStatus hun (fun k hk => (h.elsewhere k hk).1) _, fun _ => hun⟩, h.elsewhere,
    h.distinct, ?_, ?_, ?_, ?_, ?_⟩
  · exact fun e => hchild.trans (h.alive e)
  · exact fun e => hchild.trans (h.dead e)
  · exact fun e => absurd (.inl rfl) e
  · exact fun _ => .inl rfl
  · exact fun e => absurd (h.noticed (.inr e)) hr

lemma stepParent (h : w.Sane r) (hs : w.stepParent r = some r') : w.Sane r' := by
  obtain ⟨hr, x, -, rfl⟩ | ⟨hw, rfl⟩ | ⟨hr, t, ht, rfl⟩ := stepParent_cases hs
  · exact h.move x hr
  · exact h.block hw
  · exact h.turn (fun _ hd => hd.turned (by simp [harts]) ht) (iff_of_true (.inr rfl) hr) (.inl rfl)

lemma mark (h : w.Sane r) (he : r.exit = .marking) :
    w.Sane ⟨r.sched.setStatus w.child .zombie, r.wait, .reading⟩ := by
  obtain ⟨queue, hd, hq⟩ := h.order
  have hc := h.alive he
  have hun : ∀ q, w.child ∉ queue q := hd.unqueued (by simp [hc]) (by simp [hc])
  refine ⟨⟨queue, hd.setStatus hun (fun k hk => (h.elsewhere k hk).2) _, ?_⟩, h.elsewhere, h.distinct, nofun, ?_, ?_,
    ?_, nofun⟩
  · exact fun _ => hq (by simp [he, ExitPoint.Over])
  · exact fun _ => update_self _ _ _
  · exact fun e => (update_of_ne h.distinct _ _).trans (h.running e)
  · rintro (e | e) <;> cases e

lemma notice (h : w.Sane r) (he : r.exit = .reading) (hb : r.sched.status w.parent = .blocked) :
    w.Sane ⟨r.sched, r.wait, .waking⟩ := by
  obtain ⟨queue, hd, hq⟩ := h.order
  refine ⟨⟨queue, hd, fun _ => hq (by simp [he, ExitPoint.Over])⟩, h.elsewhere, h.distinct, nofun,
    fun _ => h.dead (by simp [he]), h.running, ?_, nofun⟩
  intro _
  by_contra hn
  simp [h.running hn] at hb

lemma pass (h : w.Sane r) (he : r.exit = .reading) : w.Sane ⟨r.sched, r.wait, .finished⟩ := by
  obtain ⟨queue, hd, -⟩ := h.order
  refine ⟨⟨queue, hd, fun e => absurd (.inl rfl) e⟩, h.elsewhere, h.distinct, nofun,
    fun _ => h.dead (by simp [he]), h.running, ?_, nofun⟩
  rintro (e | e) <;> cases e

lemma wake (h : w.Sane r) (he : r.exit = .waking) :
    w.Sane ⟨r.sched.setStatus w.parent .ready, r.wait, .inserting⟩ := by
  obtain ⟨queue, hd, hq⟩ := h.order
  have hun := hq (by simp [he, ExitPoint.Over])
  have hblk := h.noticed (.inl he)
  refine ⟨⟨queue, hd.setStatus hun (fun k hk => (h.elsewhere k hk).1) _, fun _ => hun⟩, h.elsewhere, h.distinct,
    nofun, ?_, fun e => absurd hblk e, fun _ => hblk, fun _ => .inl (update_self _ _ _)⟩
  exact fun _ => (update_of_ne h.distinct.symm _ _).trans (h.dead (by simp [he]))

lemma insert_status (h : w.Sane r) (he : r.exit = .inserting) {u : Unit}
    (hm : insertToReadyQueue w.parent r.sched = .done u t) :
    (∃ queue, Discipline w.harts t queue) ∧ t.status = update r.sched.status w.parent .ready ∧
      t.current = r.sched.current ∧ t.mode = r.sched.mode := by
  obtain ⟨queue, hd, hq⟩ := h.order
  have hz : r.sched.status w.parent ≠ .zombie := by
    rcases h.readied he with e | e <;> simp [e]
  have hf : r.sched.status w.parent ≠ .free := by
    rcases h.readied he with e | e <;> simp [e]
  have hwp : wp (insertToReadyQueue w.parent) _ (fun _ => True) r.sched :=
    insertToReadyQueue_wp hd (hq (by simp [he, ExitPoint.Over])) (fun k hk => (h.elsewhere k hk).1) hz hf
  obtain ⟨hd', -, -, -, hst, hcur, hmode⟩ := wp_done hwp hm
  exact ⟨⟨_, hd'⟩, hst, hcur, hmode⟩

lemma insert (h : w.Sane r) (he : r.exit = .inserting) {u : Unit}
    (hm : insertToReadyQueue w.parent r.sched = .done u t) : w.Sane ⟨t, r.wait, .finished⟩ := by
  obtain ⟨⟨queue, hd⟩, hst, hcur, hmode⟩ := h.insert_status he hm
  refine ⟨⟨queue, hd, fun e => absurd (.inl rfl) e⟩, ?_, h.distinct, nofun, ?_,
    fun e => absurd (h.noticed (.inr he)) e, ?_, nofun⟩
  · intro k hk
    simp only [Sched.Runs, hcur, hmode]
    exact h.elsewhere k hk
  · intro _
    rw [hst, update_of_ne h.distinct.symm]
    exact h.dead (by simp [he])
  · rintro (e | e) <;> cases e

lemma stepChild (h : w.Sane r) (hs : w.stepChild r = some r') : w.Sane r' := by
  obtain ⟨he, rfl⟩ | ⟨he, hb, rfl⟩ | ⟨he, -, rfl⟩ | ⟨he, rfl⟩ | ⟨he, u, t, hm, rfl⟩ | ⟨he, t, ht, rfl⟩ :=
    stepChild_cases hs
  · exact h.mark he
  · exact h.notice he hb
  · exact h.pass he
  · exact h.wake he
  · exact h.insert he hm
  · exact h.turn (fun _ hd => hd.turned (by simp [harts]) ht) Iff.rfl (.inr ⟨he, .inr rfl⟩)

lemma step (h : w.Sane r) (hs : w.step r a = some r') : w.Sane r' := by
  cases a with
  | parent => exact h.stepParent hs
  | child => exact h.stepChild hs

lemma play (h : w.Sane r) (hs : w.play l r = some r') : w.Sane r' := by
  induction l generalizing r with
  | nil => rwa [← Option.some.inj hs]
  | cons a l ih =>
    obtain ⟨u, hu, hrest⟩ := Option.bind_eq_some_iff.mp hs
    exact ih (h.step hu) hrest

lemma late_strands (h : w.Sane r) (hl : r.Late) : ∃ r', w.step r .parent = some r' ∧ w.Stranded r' := by
  obtain ⟨hw, he⟩ := hl
  have hr : r.sched.status w.parent = .running := h.running (by simp [hw, WaitPoint.Blocked])
  obtain ⟨queue, hd, -⟩ := h.order
  have hun : ∀ q, w.parent ∉ queue q := hd.unqueued (by simp [hr]) (by simp [hr])
  have hd' := hd.setStatus hun (fun k hk => (h.elsewhere k hk).1) .blocked
  refine ⟨⟨r.sched.setStatus w.parent .blocked, .entering, r.exit⟩, ?_, he, ?_, .inl rfl, update_self _ _ _, ?_⟩
  · simp only [Pair.step, Pair.stepParent, hw]
  · have hdead := h.dead (by rcases he with e | e <;> simp [e])
    exact (update_of_ne h.distinct.symm _ _).trans hdead
  · intro q hq
    exact hun q ((hd'.onQueue_iff q).mp hq)

end Sane

def Awake (w : Pair) (r : Race) : Prop :=
  r.wait.Blocked → r.exit.Over → r.sched.status w.parent ≠ .blocked

namespace Awake

lemma not_stranded (h : w.Awake r) : ¬ w.Stranded r :=
  fun hs => h hs.waits hs.finished hs.blocked

lemma stepParent (h : w.Awake r) (hsane : w.Sane r) (hl : ¬ r.Late) (hs : w.stepParent r = some r') :
    w.Awake r' := by
  obtain ⟨queue, hd, -⟩ := hsane.order
  obtain ⟨-, x, hx, rfl⟩ | ⟨hw, rfl⟩ | ⟨hr, t, ht, rfl⟩ := stepParent_cases hs
  · exact fun e => absurd e hx
  · exact fun _ he => absurd ⟨hw, he⟩ hl
  · exact fun _ he => (hd.turned (by simp [harts]) ht).not_blocked (h hr he)

lemma stepChild (h : w.Awake r) (hsane : w.Sane r) (hs : w.stepChild r = some r') : w.Awake r' := by
  obtain ⟨queue, hd, -⟩ := hsane.order
  obtain ⟨-, rfl⟩ | ⟨-, -, rfl⟩ | ⟨-, hb, rfl⟩ | ⟨-, rfl⟩ | ⟨he, u, t, hm, rfl⟩ | ⟨he, t, ht, rfl⟩ :=
    stepChild_cases hs
  · rintro - (e | e) <;> cases e
  · rintro - (e | e) <;> cases e
  · exact fun _ _ => hb
  · rintro - (e | e) <;> cases e
  · obtain ⟨-, hst, -, -⟩ := hsane.insert_status he hm
    intro _ _
    simp [hst]
  · exact fun hw _ => (hd.turned (by simp [harts]) ht).not_blocked (h hw he)

lemma step (h : w.Awake r) (hsane : w.Sane r) (hl : a = .parent → ¬ r.Late) (hs : w.step r a = some r') :
    w.Awake r' := by
  cases a with
  | parent => exact h.stepParent hsane (hl rfl) hs
  | child => exact h.stepChild hsane hs

end Awake

lemma play_append (l m : List Side) (r : Race) : w.play (l ++ m) r = (w.play l r).bind (w.play m) := by
  induction l generalizing r with
  | nil => rfl
  | cons a l ih =>
    simp only [List.cons_append, play, Option.bind_assoc]
    congr
    funext u
    exact ih u

lemma play_snoc_iff : w.play (m ++ [a]) r = some r' ↔ ∃ u, w.play m r = some u ∧ w.step u a = some r' := by
  rw [play_append, Option.bind_eq_some_iff]
  simp [play]

lemma play_awake (hs : w.Begins s)
    (hl : ∀ m r, m ++ [.parent] <+: l → w.play m (Race.start s) = some r → ¬ r.Late) (hm : m <+: l)
    (hr : w.play m (Race.start s) = some r) : w.Awake r := by
  induction m using List.reverseRecOn generalizing r with
  | nil =>
    rw [← Option.some.inj hr]
    rintro (e | e) <;> cases e
  | append_singleton m a ih =>
    obtain ⟨u, hu, hstep⟩ := play_snoc_iff.mp hr
    refine (ih ((List.prefix_append m [a]).trans hm) hu).step (hs.sane.play hu) ?_ hstep
    rintro rfl
    exact hl m u hm hu

end Pair

theorem never_stranded_iff (hs : w.Begins s) (l : List Side) :
    (∀ m r, m <+: l → w.play m (Race.start s) = some r → ¬ w.Stranded r) ↔
      ∀ m r, m ++ [.parent] <+: l → w.play m (Race.start s) = some r → ¬ r.Late := by
  constructor
  · intro h m r hm hr hl
    obtain ⟨r', hstep, hstr⟩ := (hs.sane.play hr).late_strands hl
    exact h _ r' hm (Pair.play_snoc_iff.mpr ⟨r, hr, hstep⟩) hstr
  · intro h m r hm hr
    exact (Pair.play_awake hs h hm hr).not_stranded

def twoHarts : List (ℕ × Event) :=
  [(0, .start (some {})), (1, .start none), (0, .trap {} (.ecall (.fork true {}))), (1, .resume)]

def waitForOne : Pair := ⟨0, 1, 0, 1, 1⟩

lemma twoHarts_begins {f : Sched → Bool}
    (h : (exec (fun s e => !e.ends s) twoHarts Sched.initProcPool).any f = true) :
    ∃ s, Reach SparesParent s ∧ waitForOne.Begins s ∧ f s = true := by
  have hobs : (exec (fun s e => !e.ends s) twoHarts Sched.initProcPool).any (fun s => decide (s.mode 0 = .user ∧
      s.current 0 = some 0 ∧ s.mode 1 = .user ∧ s.current 1 = some 1 ∧ s.parent 1 = some 0)) = true := by
    decide +kernel
  obtain ⟨s, hs, hf⟩ := (Option.any_eq_true _ _).mp h
  rw [hs] at hobs
  obtain ⟨h₀, h₀', h₁, h₁', hkin⟩ := of_decide_eq_true hobs
  have hreach : Reach SparesParent s := by
    refine exec_reach (fun s tp e he hend => ?_) Relation.ReflTransGen.refl hs
    simp [hend] at he
  exact ⟨s, hreach, ⟨hreach.discipline, ⟨h₀, h₀'⟩, ⟨h₁, h₁'⟩, by decide, hkin, .inr rfl⟩, hf⟩

def blocksFirst : List Side := [.parent, .parent, .parent, .child, .child, .child, .child, .child]

theorem never_stranded_blocking_first : ∃ s, Reach SparesParent s ∧ waitForOne.Begins s ∧
    ∀ m r, m <+: blocksFirst → waitForOne.play m (Race.start s) = some r → ¬ waitForOne.Stranded r := by
  have hrun : (exec (fun s e => !e.ends s) twoHarts Sched.initProcPool).any (fun s => decide (∀ k : Fin 8,
      (blocksFirst.take (k + 1)).getLast? = some .parent →
        (waitForOne.play (blocksFirst.take k) (Race.start s)).any (fun r => decide (r.exit = .marking)) = true)) = true := by
    decide +kernel
  obtain ⟨s, hreach, hs, hobs⟩ := twoHarts_begins hrun
  refine ⟨s, hreach, hs, (never_stranded_iff hs _).mpr ?_⟩
  intro m r hm hr hl
  have htake : blocksFirst.take (m.length + 1) = m ++ [.parent] := by
    simpa using (List.prefix_iff_eq_take.mp hm).symm
  have hpre : blocksFirst.take m.length = m :=
    (List.prefix_iff_eq_take.mp ((List.prefix_append m _).trans hm)).symm
  have hlen : m.length < 8 := by
    simpa [blocksFirst] using hm.length_le
  have hmark := of_decide_eq_true hobs ⟨m.length, hlen⟩ (by simp [htake])
  simp only [hpre, hr, Option.any_some, decide_eq_true_iff] at hmark
  rcases hl.2 with e | e <;> simp [hmark] at e

theorem parent_stranded : ∃ s r, Reach SparesParent s ∧ waitForOne.Begins s ∧
    waitForOne.play [.parent, .parent, .child, .child, .parent] (Race.start s) = some r ∧
    waitForOne.Stranded r := by
  have hrun : (exec (fun s e => !e.ends s) twoHarts Sched.initProcPool).any (fun s => decide
      ((waitForOne.play [.parent, .parent, .child, .child] (Race.start s)).any
        (fun r => r.wait = .blocking ∧ r.exit = .finished))) = true := by
    decide +kernel
  obtain ⟨s, hreach, hs, hobs⟩ := twoHarts_begins hrun
  obtain ⟨u, hu, hlate⟩ := (Option.any_eq_true _ _).mp (of_decide_eq_true hobs)
  obtain ⟨hw, he⟩ := of_decide_eq_true hlate
  obtain ⟨r, hstep, hstr⟩ := (hs.sane.play hu).late_strands ⟨hw, .inl he⟩
  refine ⟨s, r, hreach, hs, ?_, hstr⟩
  exact Pair.play_snoc_iff.mpr ⟨u, hu, hstep⟩

end Pke.Processes
