import Pke.Lib.CountingSemaphore
import Pke.Processes.QueueSafety

/-! The semaphores along whole runs: a ledger of what has been posted and passed, and of who has
been waiting since when, kept beside the system. -/

namespace Pke.Processes

open Lib Flow Function

def Event.Asks (s : Sched) (i : Fin nsem) (e : Event) : Prop :=
  ∃ user sid, e = .trap user (.ecall (.semP sid)) ∧ s.semaphore sid = some i

def Event.Posts (s : Sched) (i : Fin nsem) (e : Event) : Prop :=
  ∃ user sid, e = .trap user (.ecall (.semV sid)) ∧ s.semaphore sid = some i

structure Ledger where
  posted : ℕ := 0
  passed : ℕ := 0
  clock : ℕ := 0
  since : Pid → Option ℕ := fun _ => none

open Classical in
noncomputable def Ledger.sinceAfter (i : Fin nsem) (L : Ledger) (s : Sched) (tp : ℕ) (e : Event)
    (r : Option ℤ) (t : Sched) (p : Pid) : Option ℕ :=
  if e.Asks s i ∧ r = none ∧ s.current tp = some p then some L.clock
  else if t.status p = .blocked then L.since p
  else none

open Classical in
noncomputable def Ledger.enter (i : Fin nsem) (L : Ledger) (s : Sched) (tp : ℕ) (e : Event)
    (r : Option ℤ) (t : Sched) : Ledger where
  posted := L.posted + if e.Posts s i then 1 else 0
  passed := L.passed + (if e.Asks s i ∧ r ≠ none then 1 else 0) +
    (Finset.univ.filter fun p => L.since p ≠ none ∧ L.sinceAfter i s tp e r t p = none).card
  clock := L.clock + 1
  since := L.sinceAfter i s tp e r t

structure Orderly (s : Sched) (tp : ℕ) (e : Event) : Prop where
  nobodyEnds : e.ends s = false
  nobodyWaits : ∀ user pid, e ≠ .trap user (.ecall (.wait pid))
  inRange : ∀ i, e.Posts s i → (s.semTable i).value + 1 < 2 ^ 31

structure Accounted (v : ℤ) (i : Fin nsem) (s : Sched) (L : Ledger) : Prop where
  value : (s.semTable i).value = v + L.posted - L.passed
  nonneg : 0 ≤ (s.semTable i).value
  idle : (s.semTable i).waitQueue ≠ none → (s.semTable i).value = 0
  queue : ∃ l, Chain s.queueNext (s.semTable i).waitQueue l ∧
    (∀ p, p ∈ l ↔ s.status p = .blocked ∧ L.since p ≠ none) ∧
    l.Pairwise fun p q => ∃ m n, L.since p = some m ∧ L.since q = some n ∧ m < n

def HandsOver (i : Fin nsem) (s : Sched) (L : Ledger) (e : Event) (t : Sched) : Prop :=
  e.Posts s i → (s.semTable i).waitQueue ≠ none → ∃ p m, L.since p = some m ∧
    (∀ q n, L.since q = some n → q = p ∨ m < n) ∧ s.status p = .blocked ∧ t.status = update s.status p .ready

structure Tracked (v : ℤ) (i : Fin nsem) (s : Sched) (L : Ledger) (queue : Queue → List Pid) : Prop where
  discipline : Discipline ∅ s queue
  ifuse : (s.semTable i).ifuse = true
  balanced : Counting.Balanced v ⟨(s.semTable i).value, queue (some i), L.posted, L.passed⟩
  since : ∀ p, p ∈ queue (some i) ↔ L.since p ≠ none
  order : (queue (some i)).Pairwise fun p q => ∃ m n, L.since p = some m ∧ L.since q = some n ∧ m < n
  past : ∀ p n, L.since p = some n → n < L.clock

variable {v : ℤ} {i : Fin nsem} {s t : Sched} {L : Ledger} {queue : Queue → List Pid} {tp : ℕ} {e : Event}
  {r : Option ℤ} {p : Pid}

lemma Orderly.sparesParent (h : Orderly s tp e) : SparesParent s tp e := fun he => by
  simp [h.nobodyEnds] at he

lemma Tracked.accounted (h : Tracked v i s L queue) : Accounted v i s L where
  value := h.balanced.value
  nonneg := h.balanced.nonneg
  idle hw := h.balanced.waiting fun hnil => hw (by
    have := h.discipline.chain (some i)
    rwa [show queue (some i) = [] from hnil] at this)
  queue := by
    refine ⟨queue (some i), h.discipline.chain (some i), fun p => ?_, h.order⟩
    rw [h.since]
    refine ⟨fun hp => ⟨h.discipline.status (some i) p ((h.since p).mpr hp), hp⟩, fun hp => hp.2⟩

lemma doSemP_returns {sid : ℕ} (hi : s.semaphore sid = some i) : wp (doSemP tp sid)
    (fun _ _ => 0 < (s.semTable i).value) (fun _ => ¬ 0 < (s.semTable i).value) s := by
  simp only [doSemP, wp_bind, wp_get, hi, wp_ite, wp_modify, wp_pure, wp_withCurrent, joinWaitQueue]
  refine ⟨id, fun hv p _ => ?_⟩
  have hleave : ∀ u, wp (block tp p : Flow Sched ℤ) (fun _ _ => 0 < (s.semTable i).value)
      (fun _ => ¬ 0 < (s.semTable i).value) u := fun u =>
    wp_mono schedule_leaves (fun _ _ h => h.elim) (fun _ _ => hv)
  cases ((s.setNext p none).semTable i).waitQueue with
  | none => exact hleave _
  | some w =>
    simp only
    cases lastOf (s.setNext p none).queueNext nproc w with
    | none => trivial
    | some last => exact hleave _

lemma semP_returns (hs : Step s tp e r t) (ha : e.Asks s i) : r ≠ none ↔ 0 < (s.semTable i).value := by
  obtain ⟨user, sid, rfl, hi⟩ := ha
  obtain ⟨p, hr⟩ := hs.runs
  have hwp : wp (Event.run tp (.trap user (.ecall (.semP sid))))
      (fun r _ => r ≠ none ∧ 0 < (s.semTable i).value) (fun _ => ¬ 0 < (s.semTable i).value) s := by
    rw [Event.run, wp_smodeTrapHandler hr.2, dispatchTrap, wp_handleSyscall]
    exact wp_mono (doSemP_returns (i := i) hi) (fun _ _ hv => ⟨by simp, hv⟩) (fun _ hv => hv)
  rcases hs.of_wp hwp with ⟨h₁, h₂⟩ | ⟨h₁, h₂⟩
  · simp [h₁, h₂]
  · simp only [h₁, h₂]
    simp

lemma accounts_cases (a : Fin nsem → Account) (hu : (s.semTable i).ifuse = true) (hs : Step s tp e r t) :
    (e.Asks s i ∧ ¬ e.Posts s i ∧ ∃ p, s.Runs tp p ∧ e.accounts s tp a i = (a i).acquire p) ∨
    (e.Posts s i ∧ ¬ e.Asks s i ∧ e.accounts s tp a i = (a i).release) ∨
    (¬ e.Asks s i ∧ ¬ e.Posts s i ∧ e.accounts s tp a i = a i) := by
  have hno : (∀ user sid, e ≠ .trap user (.ecall (.semP sid))) →
      (∀ user sid, e ≠ .trap user (.ecall (.semV sid))) → ¬ e.Asks s i ∧ ¬ e.Posts s i := by
    intro h₁ h₂
    exact ⟨fun ⟨user, sid, he, _⟩ => h₁ user sid he, fun ⟨user, sid, he, _⟩ => h₂ user sid he⟩
  cases e with
  | start _ => exact .inr (.inr ⟨(hno (by simp) (by simp)).1, (hno (by simp) (by simp)).2, rfl⟩)
  | resume => exact .inr (.inr ⟨(hno (by simp) (by simp)).1, (hno (by simp) (by simp)).2, rfl⟩)
  | trap user cause =>
    obtain ⟨p, hr⟩ := hs.runs
    simp only [Event.accounts, hr.2]
    cases cause with
    | ecall op =>
      cases op with
      | semP sid =>
        have hpost : ¬ (Event.trap user (.ecall (.semP sid))).Posts s i := by rintro ⟨_, _, he, _⟩; cases he
        by_cases hi : s.semaphore sid = some i
        · refine .inl ⟨⟨user, sid, rfl, hi⟩, hpost, p, hr, ?_⟩
          simp [Cause.accounts, Op.accounts, hi]
        · refine .inr (.inr ⟨?_, hpost, ?_⟩)
          · rintro ⟨_, _, he, hi'⟩
            cases he
            exact hi hi'
          · simp only [Cause.accounts, Op.accounts]
            cases hj : s.semaphore sid with
            | none => rfl
            | some j => exact update_of_ne (fun e => hi (by rw [hj, e])) _ _
      | semV sid =>
        have hask : ¬ (Event.trap user (.ecall (.semV sid))).Asks s i := by rintro ⟨_, _, he, _⟩; cases he
        by_cases hi : s.semaphore sid = some i
        · refine .inr (.inl ⟨⟨user, sid, rfl, hi⟩, hask, ?_⟩)
          simp [Cause.accounts, Op.accounts, hi]
        · refine .inr (.inr ⟨hask, ?_, ?_⟩)
          · rintro ⟨_, _, he, hi'⟩
            cases he
            exact hi hi'
          · simp only [Cause.accounts, Op.accounts]
            cases hj : s.semaphore sid with
            | none => rfl
            | some j => exact update_of_ne (fun e => hi (by rw [hj, e])) _ _
      | semNew v =>
        refine .inr (.inr ⟨(hno (by simp) (by simp)).1, (hno (by simp) (by simp)).2, ?_⟩)
        simp only [Cause.accounts, Op.accounts]
        cases hj : (List.finRange nsem).find? (fun i => !(s.semTable i).ifuse) with
        | none => rfl
        | some j =>
          have hun : (s.semTable j).ifuse = false := by simpa using List.find?_some hj
          exact update_of_ne (fun e => by rw [e, hun] at hu; cases hu) _ _
      | _ => exact .inr (.inr ⟨(hno (by simp) (by simp)).1, (hno (by simp) (by simp)).2, rfl⟩)
    | _ => exact .inr (.inr ⟨(hno (by simp) (by simp)).1, (hno (by simp) (by simp)).2, rfl⟩)

section Entries

open Classical

lemma enter_same (h : Tracked v i s L queue) (hask : ¬ (e.Asks s i ∧ r = none))
    (hst : ∀ q ∈ queue (some i), t.status q = .blocked) : L.enter i s tp e r t =
      { L with
        posted := L.posted + if e.Posts s i then 1 else 0
        passed := L.passed + if e.Asks s i ∧ r ≠ none then 1 else 0
        clock := L.clock + 1 } := by
  have hs : L.sinceAfter i s tp e r t = L.since := by
    funext q
    have hno : ¬ (e.Asks s i ∧ r = none ∧ s.current tp = some q) := fun hc => hask ⟨hc.1, hc.2.1⟩
    rw [Ledger.sinceAfter, if_neg hno]
    by_cases hq : q ∈ queue (some i)
    · rw [if_pos (hst q hq)]
    · have := mt (h.since q).mpr hq
      rw [not_not.mp this, ite_self]
  simp [Ledger.enter, hs]

lemma enter_block (h : Tracked v i s L queue) (hr : s.Runs tp p) (hask : e.Asks s i) (hpost : ¬ e.Posts s i)
    (hret : r = none) (hst : ∀ q ∈ queue (some i), t.status q = .blocked) : L.enter i s tp e r t =
      { L with clock := L.clock + 1, since := update L.since p (some L.clock) } := by
  have hp : L.since p = none := by
    by_contra hp
    exact h.discipline.running_unqueued hr (some i) ((h.since p).mpr hp)
  have hs : L.sinceAfter i s tp e r t = update L.since p (some L.clock) := by
    funext q
    rw [Ledger.sinceAfter]
    by_cases hqp : q = p
    · rw [hqp, if_pos ⟨hask, hret, hr.2⟩, update_self]
    · have hno : ¬ (e.Asks s i ∧ r = none ∧ s.current tp = some q) := by
        rintro ⟨-, -, hc⟩
        rw [hr.2] at hc
        exact hqp (Option.some.inj hc).symm
      rw [if_neg hno, update_of_ne hqp]
      by_cases hq : q ∈ queue (some i)
      · rw [if_pos (hst q hq)]
      · have := mt (h.since q).mpr hq
        rw [not_not.mp this, ite_self]
  have hnone : (Finset.univ.filter fun q => L.since q ≠ none ∧ update L.since p (some L.clock) q = none) = ∅ := by
    refine Finset.filter_eq_empty_iff.mpr fun q _ hq => ?_
    by_cases hqp : q = p
    · simp [hqp] at hq
    · simp [hqp] at hq
  rw [Ledger.enter, hs, hnone]
  simp [hpost, hret]

lemma enter_release {l : List Pid} (h : Tracked v i s L queue) (hpost : e.Posts s i) (hask : ¬ e.Asks s i)
    (hq : queue (some i) = p :: l) (hp : t.status p ≠ .blocked) (hst : ∀ q ∈ l, t.status q = .blocked) :
    L.enter i s tp e r t =
      ⟨L.posted + 1, L.passed + 1, L.clock + 1, update L.since p none⟩ := by
  have hs : L.sinceAfter i s tp e r t = update L.since p none := by
    funext q
    rw [Ledger.sinceAfter, if_neg (fun hc => hask hc.1)]
    by_cases hqp : q = p
    · rw [hqp, if_neg hp, update_self]
    · rw [update_of_ne hqp]
      by_cases hql : q ∈ l
      · rw [if_pos (hst q hql)]
      · have hnot : q ∉ queue (some i) := by simp [hq, hqp, hql]
        have := mt (h.since q).mpr hnot
        rw [not_not.mp this, ite_self]
  have hsome : L.since p ≠ none := (h.since p).mp (by simp [hq])
  have hone : (Finset.univ.filter fun q => L.since q ≠ none ∧ update L.since p none q = none) = {p} := by
    ext q
    by_cases hqp : q = p
    · subst hqp; simp [hsome]
    · simp [hqp]
  simp [Ledger.enter, hs, hpost, hask, hone]

end Entries

lemma toInt_of_range {x : ℤ} (h₀ : -2 ^ 31 ≤ x) (h₁ : x < 2 ^ 31) : toInt x = x := by
  rw [toInt, Int.bmod_def]
  split_ifs <;> omega

lemma Discipline.head_of_cons {busy : Set ℕ} {q : Queue} {l : List Pid} (h : Discipline busy s queue)
    (hq : queue q = p :: l) : s.head q = some p := by
  have := h.chain q
  rw [hq] at this
  exact this.1

lemma posts_statuses {l : List Pid} (h : Discipline ∅ s queue) (hs : Step s tp e r t) (hpost : e.Posts s i)
    (hq : queue (some i) = p :: l) : e.statuses s tp = update s.status p .ready := by
  obtain ⟨user, sid, rfl, hi⟩ := hpost
  obtain ⟨q, hr⟩ := hs.runs
  have hw : (s.semTable i).waitQueue = some p := h.head_of_cons hq
  simp only [Event.statuses, hr.2, Cause.statuses, Op.statuses, hi, hw]

lemma Tracked.pass {queue' : Queue → List Pid} (h : Tracked v i s L queue) (hd : Discipline ∅ t queue')
    (hs : Step s tp e r t) (hask : e.Asks s i) (hpost : ¬ e.Posts s i) (hv : 0 < (s.semTable i).value)
    (hacc : account t queue' i = (account s queue i).acquire p) :
    Tracked v i t (L.enter i s tp e r t) queue' := by
  have hret : r ≠ none := (semP_returns hs hask).mpr hv
  have hnil : queue (some i) = [] := by
    by_contra hne
    exact hv.ne' (h.balanced.waiting hne)
  simp only [account, Account.acquire, hv, if_true, Account.mk.injEq] at hacc
  obtain ⟨hif, hval, hq⟩ := hacc
  rw [enter_same h (fun hc => hret hc.2) (by simp [hnil])]
  have hbal := h.balanced.acquire p
  simp only [Counting.acquire, hv, if_true] at hbal
  refine ⟨hd, hif.trans h.ifuse, ?_, ?_, ?_, ?_⟩
  · simpa [hask, hpost, hret, hval, hq] using hbal
  · simpa [hq] using h.since
  · simpa [hq] using h.order
  · exact fun p n hn => (h.past p n hn).trans (Nat.lt_succ_self _)

lemma Tracked.join {queue' : Queue → List Pid} (h : Tracked v i s L queue) (hd : Discipline ∅ t queue')
    (hs : Step s tp e r t) (hr : s.Runs tp p) (hask : e.Asks s i) (hpost : ¬ e.Posts s i)
    (hv : ¬ 0 < (s.semTable i).value) (hacc : account t queue' i = (account s queue i).acquire p) :
    Tracked v i t (L.enter i s tp e r t) queue' := by
  have hret : r = none := by
    by_contra hne
    exact hv ((semP_returns hs hask).mp hne)
  simp only [account, Account.acquire, hv, if_false, Account.mk.injEq] at hacc
  obtain ⟨hif, hval, hq⟩ := hacc
  have hp := h.discipline.running_unqueued hr (some i)
  have hsame : ∀ q ∈ queue (some i), update L.since p (some L.clock) q = L.since q := fun q hq' =>
    update_of_ne (ne_of_mem_of_not_mem hq' hp) _ _
  rw [enter_block h hr hask hpost hret fun q hq' => hd.status (some i) q (by simp [hq, hq'])]
  have hbal := h.balanced.acquire p
  simp only [Counting.acquire, hv, if_false] at hbal
  refine ⟨hd, hif.trans h.ifuse, ?_, ?_, ?_, ?_⟩
  · simpa [hval, hq] using hbal
  · intro q
    by_cases hqp : q = p
    · simp [hq, hqp]
    · simp [hq, hqp, h.since]
  · rw [hq, List.pairwise_append]
    refine ⟨?_, List.pairwise_singleton _ _, ?_⟩
    · refine h.order.imp_of_mem fun ha hb hab => ?_
      simpa only [hsame _ ha, hsame _ hb] using hab
    · intro a ha b hb
      obtain ⟨m, hm⟩ := Option.ne_none_iff_exists'.mp ((h.since a).mp ha)
      refine ⟨m, L.clock, by simp only [hsame a ha, hm], by simp [List.mem_singleton.mp hb], h.past a m hm⟩
  · intro q n hn
    by_cases hqp : q = p
    · simp only [hqp, update_self, Option.some.injEq] at hn
      exact hn ▸ Nat.lt_succ_self _
    · simp only [update_of_ne hqp] at hn
      exact (h.past q n hn).trans (Nat.lt_succ_self _)

lemma Tracked.post {queue' : Queue → List Pid} (h : Tracked v i s L queue) (hd : Discipline ∅ t queue')
    (hs : Step s tp e r t) (hpost : e.Posts s i) (hask : ¬ e.Asks s i)
    (hin : (s.semTable i).value + 1 < 2 ^ 31) (hacc : account t queue' i = (account s queue i).release)
    (hstat : ∀ q, t.status q = e.statuses s tp q ∨ e.statuses s tp q = .ready ∧ t.status q = .running) :
    Tracked v i t (L.enter i s tp e r t) queue' := by
  have hnonneg : 0 ≤ (s.semTable i).value := h.balanced.nonneg
  have hup : toInt ((s.semTable i).value + 1) = (s.semTable i).value + 1 :=
    toInt_of_range (by omega) hin
  have hbal := h.balanced.release
  cases hq : queue (some i) with
  | nil =>
    simp only [account, Account.release, hq, Account.mk.injEq] at hacc
    obtain ⟨hif, hval, hq'⟩ := hacc
    rw [enter_same h (fun hc => hask hc.1) (by simp [hq])]
    simp only [Counting.release, hq] at hbal
    refine ⟨hd, hif.trans h.ifuse, ?_, ?_, ?_, ?_⟩
    · simpa [hask, hpost, hval, hq', hup] using hbal
    · simpa [hq', hq] using h.since
    · simp [hq']
    · exact fun p n hn => (h.past p n hn).trans (Nat.lt_succ_self _)
  | cons w l =>
    simp only [account, Account.release, hq, Account.mk.injEq, hup] at hacc
    obtain ⟨hif, hval, hq'⟩ := hacc
    rw [show toInt ((s.semTable i).value + 1 - 1) = (s.semTable i).value from by
      rw [add_sub_cancel_right]; exact toInt_of_range (by omega) (by omega)] at hval
    have hw : t.status w ≠ .blocked := by
      have := hstat w
      rw [posts_statuses h.discipline hs hpost hq, update_self] at this
      rcases this with h | ⟨-, h⟩ <;> simp [h]
    have hwl : w ∉ l := by
      have := h.discipline.nodup (some i)
      rw [hq, List.nodup_cons] at this
      exact this.1
    have hsame : ∀ q ∈ l, update L.since w none q = L.since q := fun q hql =>
      update_of_ne (ne_of_mem_of_not_mem hql hwl) _ _
    rw [enter_release h hpost hask hq hw fun q hql => hd.status (some i) q (by rw [hq']; exact hql)]
    simp only [Counting.release, hq] at hbal
    have horder := h.order
    rw [hq, List.pairwise_cons] at horder
    refine ⟨hd, hif.trans h.ifuse, ?_, ?_, ?_, ?_⟩
    · simpa [hval, hq'] using hbal
    · intro q
      by_cases hqw : q = w
      · simp [hq', hqw, hwl]
      · have := h.since q
        simp only [hq, List.mem_cons, hqw, false_or] at this
        simp [hq', hqw, this]
    · rw [hq']
      refine horder.2.imp_of_mem fun ha hb hab => ?_
      simpa only [hsame _ ha, hsame _ hb] using hab
    · intro q n hn
      by_cases hqw : q = w
      · simp [hqw] at hn
      · simp only [update_of_ne hqw] at hn
        exact (h.past q n hn).trans (Nat.lt_succ_self _)

lemma Tracked.step (h : Tracked v i s L queue) (hok : Orderly s tp e) (hs : Step s tp e r t) :
    ∃ queue', Tracked v i t (L.enter i s tp e r t) queue' := by
  obtain ⟨queue', hd, hacc, hstat⟩ := hs.settles h.discipline (hok.sparesParent.peaceful h.discipline)
  have hacc := congrFun hacc i
  refine ⟨queue', ?_⟩
  rcases accounts_cases (account s queue) h.ifuse hs with ⟨hask, hpost, p, hr, ha⟩ | ⟨hpost, hask, ha⟩ |
    ⟨hask, hpost, ha⟩
  · rw [ha] at hacc
    by_cases hv : 0 < (s.semTable i).value
    · exact h.pass hd hs hask hpost hv hacc
    · exact h.join hd hs hr hask hpost hv hacc
  · rw [ha] at hacc
    exact h.post hd hs hpost hask (hok.inRange i hpost) hacc hstat
  · rw [ha] at hacc
    simp only [account, Account.mk.injEq] at hacc
    obtain ⟨hif, hval, hq⟩ := hacc
    rw [enter_same h (fun hc => hask hc.1) fun q hq' => hd.status (some i) q (hq ▸ hq')]
    refine ⟨hd, hif.trans h.ifuse, ?_, ?_, ?_, ?_⟩
    · simpa [hask, hpost, hval, hq] using h.balanced
    · simpa [hq] using h.since
    · simpa [hq] using h.order
    · exact fun p n hn => (h.past p n hn).trans (Nat.lt_succ_self _)

lemma doSemV_status {E : Sched → Prop} {sid : ℕ} {l : List Pid} (h : Discipline ∅ s queue)
    (hi : s.semaphore sid = some i) (hq : queue (some i) = p :: l) :
    wp (doSemV tp sid) (fun _ t => t.status = update s.status p .ready) E s := by
  have hw : (s.semTable i).waitQueue = some p := h.head_of_cons hq
  simp only [doSemV, wp_bind, wp_get, hi, wp_modify, hw, Sched.setSem_self, Sched.setSem_setSem]
  exact wp_mono (doSemV_wake h hq _) (fun _ t ht => ht.2.1) (fun _ h => h)

lemma semV_status {l : List Pid} (h : Discipline ∅ s queue) (hs : Step s tp e r t) (hpost : e.Posts s i)
    (hq : queue (some i) = p :: l) : t.status = update s.status p .ready := by
  obtain ⟨user, sid, rfl, hi⟩ := hpost
  obtain ⟨q, hr⟩ := hs.runs
  have hwp : wp (Event.run tp (.trap user (.ecall (.semV sid))))
      (fun _ t => t.status = update s.status p .ready) (fun t => t.status = update s.status p .ready) s := by
    rw [Event.run, wp_smodeTrapHandler hr.2, dispatchTrap, wp_handleSyscall]
    exact doSemV_status ((h.setFrame _).setFrame _) hi hq
  rcases hs.of_wp hwp with h | ⟨-, h⟩ <;> exact h

lemma Tracked.handsOver (h : Tracked v i s L queue) (hs : Step s tp e r t) : HandsOver i s L e t := by
  intro hpost hne
  cases hq : queue (some i) with
  | nil =>
    have := h.discipline.chain (some i)
    rw [hq] at this
    exact absurd this hne
  | cons w l =>
    have horder := h.order
    rw [hq, List.pairwise_cons] at horder
    obtain ⟨m, hm⟩ := Option.ne_none_iff_exists'.mp ((h.since w).mp (by simp [hq]))
    refine ⟨w, m, hm, ?_, h.discipline.status (some i) w (by simp [hq]), semV_status h.discipline hs hpost hq⟩
    intro q n hn
    have hmem := (h.since q).mpr (by simp [hn])
    rw [hq, List.mem_cons] at hmem
    rcases hmem with hqw | hql
    · exact .inl hqw
    · obtain ⟨m', n', hm', hn', hlt⟩ := horder.1 q hql
      rw [hm] at hm'
      rw [hn] at hn'
      cases hm'
      cases hn'
      exact .inr hlt

lemma doSemNew_returns {initVal : ℕ} {E : Sched → Prop} : wp (doSemNew initVal)
    (fun x _ => ∀ i : Fin nsem, x = (i : ℕ) →
      (List.finRange nsem).find? (fun i => !(s.semTable i).ifuse) = some i) E s := by
  simp only [doSemNew, wp_bind, wp_get]
  cases hj : (List.finRange nsem).find? (fun i => !(s.semTable i).ifuse) with
  | none =>
    simp only [wp_pure]
    intro i hi
    omega
  | some j =>
    simp only [wp_bind, wp_modify, wp_pure]
    intro i hi
    rw [Fin.ext (by omega : (j : ℕ) = i)]

lemma tracked_new {initVal : ℕ} {user : Trapframe} (hv : initVal < 2 ^ 31) (h : Discipline ∅ s queue)
    (hs : Step s tp (.trap user (.ecall (.semNew initVal))) (some ((i : ℕ) : ℤ)) t) :
    ∃ queue', Tracked initVal i t {} queue' := by
  obtain ⟨p, hr⟩ := hs.runs
  have hfind : (List.finRange nsem).find? (fun i => !(s.semTable i).ifuse) = some i := by
    have hwp : wp (Event.run tp (.trap user (.ecall (.semNew initVal)))) (fun r _ => r = some ((i : ℕ) : ℤ) →
        (List.finRange nsem).find? (fun i => !(s.semTable i).ifuse) = some i) (fun _ => True) s := by
      rw [Event.run, wp_smodeTrapHandler hr.2, dispatchTrap, wp_handleSyscall]
      exact wp_mono doSemNew_returns (fun x _ hx he => hx i (Option.some.inj he)) (fun _ h => h)
    rcases hs.of_wp hwp with h | ⟨h, -⟩
    · exact h rfl
    · cases h
  have hun : (s.semTable i).ifuse = false := by simpa using List.find?_some hfind
  have hnil := h.unused i hun
  obtain ⟨queue', hd, hacc, -⟩ := hs.settles h fun he => by simp [Event.ends, Cause.ends, Op.ends] at he
  have hacc := congrFun hacc i
  simp only [Event.accounts, hr.2, Cause.accounts, Op.accounts, hfind, update_self, account,
    Account.mk.injEq, hnil] at hacc
  obtain ⟨hif, hval, hq⟩ := hacc
  rw [toInt_of_range (by omega) (by omega)] at hval
  refine ⟨queue', hd, hif, ?_, ?_, ?_, ?_⟩
  · rw [hval, hq]
    exact Counting.balanced_new (by omega)
  · simp [hq]
  · simp [hq]
  · simp

def Watched (i : Fin nsem) (x y : Sched × Ledger) : Prop :=
  ∃ tp e r, Orderly x.1 tp e ∧ Step x.1 tp e r y.1 ∧ y.2 = x.2.enter i x.1 tp e r y.1

lemma Tracked.run {x y : Sched × Ledger} (hx : ∃ queue, Tracked v i x.1 x.2 queue)
    (h : Relation.ReflTransGen (Watched i) x y) : ∃ queue, Tracked v i y.1 y.2 queue := by
  induction h with
  | refl => exact hx
  | tail _ hstep ih =>
    obtain ⟨queue, hq⟩ := ih
    obtain ⟨tp, e, r, hok, hs, hL⟩ := hstep
    rw [hL]
    exact hq.step hok hs

theorem semaphore_accounting {s₀ s₁ : Sched} {initVal : ℕ} {user : Trapframe} (hs₀ : Reach SparesParent s₀)
    (hv : initVal < 2 ^ 31)
    (hnew : Step s₀ tp (.trap user (.ecall (.semNew initVal))) (some ((i : ℕ) : ℤ)) s₁)
    (hrun : Relation.ReflTransGen (Watched i) (s₁, {}) (s, L)) :
    Accounted initVal i s L ∧
      ∀ tp e r t, Orderly s tp e → Step s tp e r t → HandsOver i s L e t := by
  obtain ⟨queue₀, h₀⟩ := hs₀.discipline
  obtain ⟨queue, h⟩ := Tracked.run (tracked_new hv h₀ hnew) hrun
  exact ⟨h.accounted, fun _ _ _ _ _ hs => h.handsOver hs⟩

theorem semaphore_accounting_waiter : ∃ s L, s.status 0 = .blocked ∧ (s.semTable 0).waitQueue = some 0 ∧
    Accounted 0 0 s L := by
  have hrun : ((exec (fun s e => !e.ends s) [(0, .start (some {})), (0, .trap {} (.ecall (.fork true {})))]
      Sched.initProcPool).any fun s₀ => ((Event.trap {} (.ecall (.semNew 0))).outcome 0 s₀).any fun x =>
      x.1 = some 0 ∧ x.2.semaphore 0 = some 0 ∧ ((Event.trap {} (.ecall (.semP 0))).outcome 0 x.2).any fun y =>
        y.2.status 0 = .blocked ∧ (y.2.semTable 0).waitQueue = some 0) = true := by
    decide +kernel
  obtain ⟨s₀, hreach, hobs⟩ := exec_state hrun
  obtain ⟨⟨r, s₁⟩, hnew, hobs⟩ := (Option.any_eq_true _ _).mp hobs
  obtain ⟨rfl, hsem, hobs⟩ := of_decide_eq_true hobs
  obtain ⟨⟨r', s⟩, hP, hobs⟩ := (Option.any_eq_true _ _).mp hobs
  obtain ⟨hst, hwait⟩ := of_decide_eq_true hobs
  have hok : Orderly s₁ 0 (.trap {} (.ecall (.semP 0))) := by
    refine ⟨by simp [Event.ends, Cause.ends, Op.ends, hsem], by simp, ?_⟩
    rintro i ⟨_, _, he, _⟩
    cases he
  refine ⟨s, Ledger.enter 0 {} s₁ 0 (.trap {} (.ecall (.semP 0))) r' s, hst, hwait, ?_⟩
  exact (semaphore_accounting (i := 0) hreach (by norm_num) (Event.outcome_step hnew)
    (Relation.ReflTransGen.single ⟨0, _, r', hok, Event.outcome_step hP, rfl⟩)).1

end Pke.Processes
