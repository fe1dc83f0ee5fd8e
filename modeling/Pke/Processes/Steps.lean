import Pke.Processes.SemaphoreEffects

namespace Pke.Processes

open Lib Flow Function

lemma toNat_lt_nproc {pid : ℤ} (h : 0 ≤ pid ∧ pid < nproc) : pid.toNat < nproc := by omega

def Sched.await (s : Sched) (p : Pid) (pid : ℤ) : Option (Option Pid) :=
  if pid = -1 then
    some ((List.finRange nproc).find? (fun i => s.parent i = some p ∧ s.status i = .zombie))
  else
    if h : 0 ≤ pid ∧ pid < nproc then
      if s.parent ⟨pid.toNat, toNat_lt_nproc h⟩ ≠ some p then none
      else some (if s.status ⟨pid.toNat, toNat_lt_nproc h⟩ = .zombie then some ⟨pid.toNat, toNat_lt_nproc h⟩ else none)
    else none

variable {s t : Sched} {queue : Queue → List Pid} {p : Pid} {tp : ℕ}

lemma sysUserWait_eq (hp : s.current tp = some p) (pid : ℤ) : sysUserWait tp pid s =
    (match s.await p pid with
      | none => (pure (-1) : Flow Sched ℤ)
      | some none => block tp p
      | some (some i) => do freeProcess i; pure (i : ℕ)) s := by
  rw [sysUserWait, withCurrent_apply hp, get_bind, Sched.await]
  by_cases h₁ : pid = -1
  · simp only [h₁, if_true]
    cases (List.finRange nproc).find? (fun i => s.parent i = some p ∧ s.status i = .zombie) <;> rfl
  · by_cases h₂ : 0 ≤ pid ∧ pid < nproc
    · have hpid : ((pid.toNat : ℕ) : ℤ) = pid := Int.toNat_of_nonneg h₂.1
      simp only [h₁, if_false, h₂, and_self, dif_pos]
      split_ifs
      · rfl
      · simp only [hpid]
      · rfl
    · simp only [h₁, if_false, h₂, dif_neg, not_false_eq_true]

lemma wp_sysUserWait (hp : s.current tp = some p) (pid : ℤ) {Q : ℤ → Sched → Prop} {E : Sched → Prop} :
    wp (sysUserWait tp pid) Q E s ↔ wp (match s.await p pid with
      | none => (pure (-1) : Flow Sched ℤ)
      | some none => block tp p
      | some (some i) => do freeProcess i; pure (i : ℕ)) Q E s := by
  rw [wp, wp, sysUserWait_eq hp]

namespace Op

def ends (s : Sched) : Op → Bool
  | .exit => true
  | .fork complete _ => !complete
  | .semP sid | .semV sid => (s.semaphore sid).isNone
  | _ => false

def statuses (s : Sched) (p : Pid) : Op → Pid → Status
  | .exit => s.retired p
  | .yield => update s.status p .ready
  | .fork complete _ =>
    match s.slot with
    | none => s.status
    | some c => if complete then update s.status c .ready else (s.setStatus c .ready).retired p
  | .wait pid => if s.await p pid = some none then update s.status p .blocked else s.status
  | .semNew _ => s.status
  | .semP sid =>
    match s.semaphore sid with
    | none => s.retired p
    | some i => if 0 < (s.semTable i).value then s.status else update s.status p .blocked
  | .semV sid =>
    match s.semaphore sid with
    | none => s.retired p
    | some i =>
      match (s.semTable i).waitQueue with
      | none => s.status
      | some w => update s.status w .ready
  | .other _ => s.status

def accounts (s : Sched) (p : Pid) (a : Fin nsem → Account) : Op → Fin nsem → Account
  | .semNew v =>
    match (List.finRange nsem).find? (fun i => !(s.semTable i).ifuse) with
    | none => a
    | some i => update a i ⟨true, toInt v, (a i).waiting⟩
  | .semP sid =>
    match s.semaphore sid with
    | none => a
    | some i => update a i ((a i).acquire p)
  | .semV sid =>
    match s.semaphore sid with
    | none => a
    | some i => update a i (a i).release
  | _ => a

end Op

section Syscalls

lemma doFork_settles (h : Discipline ∅ s queue) (hr : s.Runs tp p) (complete : Bool) (saved : Trapframe)
    (hpar : complete = false → ∀ q, s.parent p = some q → ∀ i, q ∉ queue (some i)) :
    wp (doFork tp p complete saved)
      (fun _ t => Settles ((Op.fork complete saved).statuses s p) (account s queue) t ∧ t.Runs tp p)
      (Settles ((Op.fork complete saved).statuses s p) (account s queue)) s := by
  rw [doFork, wp_bind]
  apply allocSlot_wp
  intro c hc
  obtain ⟨hd, hq, hrun⟩ := h.claim hc
  simp only [wp_bind, wp_modify, Op.statuses, hc]
  cases complete with
  | true =>
    simp only [if_true, wp_bind]
    refine wp_mono (launchChild_wp (hd.setFrame saved) (by simp [Sched.setFrame, Sched.setStatus]) hq hrun)
      ?_ (fun _ h => h)
    rintro _ t ⟨ht, hcur, hmode⟩
    refine ⟨ht, ?_⟩
    rw [Sched.Runs, hcur, hmode]
    exact hr
  | false =>
    exact retire_settles (s := (s.setStatus c .ready).setFrame c saved) (hd.setFrame saved) hr (hpar rfl)

lemma sysUserWait_settles (h : Discipline ∅ s queue) (hr : s.Runs tp p) (pid : ℤ) :
    wp (sysUserWait tp pid)
      (fun _ t => Settles ((Op.wait pid).statuses s p) (account s queue) t ∧ t.Runs tp p)
      (Settles ((Op.wait pid).statuses s p) (account s queue)) s := by
  rw [wp_sysUserWait hr.2]
  cases ha : s.await p pid with
  | none =>
    simp only [Op.statuses, ha, reduceCtorEq, if_false]
    exact ⟨h.settles, hr⟩
  | some o =>
    cases o with
    | none => simpa only [Op.statuses, ha, if_true] using block_settles h hr
    | some i =>
      have hz : s.status i = .zombie := by
        unfold Sched.await at ha
        split_ifs at ha with h₁ h₂ h₃ h₄
        · exact (by simpa using List.find?_some (Option.some.inj ha) : _ ∧ _).2
        · rw [← Option.some.inj (Option.some.inj ha)]
          exact h₄
        · cases ha
      have hsame : s.setStatus i .zombie = s := by
        rw [Sched.setStatus, ← hz, update_eq_self]
      simp only [Op.statuses, ha, wp_bind, freeProcess, wp_modify, wp_pure, hsame,
        Option.some.injEq, reduceCtorEq, if_false]
      exact ⟨h.settles, hr⟩

lemma doSemP_settles (h : Discipline ∅ s queue) (hr : s.Runs tp p) (sid : ℕ)
    (hpar : s.semaphore sid = none → ∀ q, s.parent p = some q → ∀ i, q ∉ queue (some i)) :
    wp (doSemP tp sid) (fun _ t => Settles ((Op.semP sid).statuses s p)
        ((Op.semP sid).accounts s p (account s queue)) t ∧ t.Runs tp p)
      (Settles ((Op.semP sid).statuses s p) ((Op.semP sid).accounts s p (account s queue))) s := by
  simp only [doSemP, wp_bind, wp_get, Op.statuses, Op.accounts]
  cases hi : s.semaphore sid with
  | none => exact retire_settles h hr (hpar hi)
  | some i =>
    simp only [wp_ite, wp_bind, wp_modify, wp_pure]
    refine ⟨fun hv => ?_, fun hv => ?_⟩
    · simp only [hv, if_true]
      exact ⟨doSemP_pass h hv, hr⟩
    · simp only [hv, if_false, withCurrent, wp_bind, wp_get, hr.2]
      rw [← wp_bind]
      exact doSemP_block h hr (Sched.semaphore_ifuse hi) hv

lemma doSemV_settles (h : Discipline ∅ s queue) (hr : s.Runs tp p) (sid : ℕ)
    (hpar : s.semaphore sid = none → ∀ q, s.parent p = some q → ∀ i, q ∉ queue (some i)) :
    wp (doSemV tp sid) (fun _ t => Settles ((Op.semV sid).statuses s p)
        ((Op.semV sid).accounts s p (account s queue)) t ∧ t.Runs tp p)
      (Settles ((Op.semV sid).statuses s p) ((Op.semV sid).accounts s p (account s queue))) s := by
  simp only [doSemV, wp_bind, wp_get, Op.statuses, Op.accounts]
  cases hi : s.semaphore sid with
  | none => exact retire_settles h hr (hpar hi)
  | some i =>
    have hchain := h.chain (some i)
    simp only [wp_bind, wp_modify]
    cases hw : (s.semTable i).waitQueue with
    | none =>
      have hnil : queue (some i) = [] := Chain.unique hchain (by simpa [Sched.head] using hw)
      simp only [wp_pure]
      refine ⟨⟨queue, by simpa only [hw] using h.setValue i _, ?_, fun _ => .inl rfl⟩, hr⟩
      funext j
      by_cases hj : j = i
      · subst hj
        simp [account, Account.release, hnil, Sched.setSem]
      · simp [account, Sched.setSem, hj]
    | some w =>
      obtain ⟨l, hl⟩ : ∃ l, queue (some i) = w :: l := by
        cases hq : queue (some i) with
        | nil => rw [hq, Chain.nil_iff] at hchain; simp [Sched.head, hw] at hchain
        | cons b l =>
          rw [hq, Chain.cons_iff, Sched.head, hw] at hchain
          exact ⟨l, by rw [Option.some.inj hchain.1]⟩
      have hrel : (account s queue i).release = { account s queue i with
          value := toInt (toInt ((s.semTable i).value + 1) - 1), waiting := l } := by
        simp [Account.release, account, hl]
      simp only [wp_bind, wp_modify, hrel, Sched.setSem_self, Sched.setSem_setSem]
      refine wp_mono (doSemV_wake h hl _) ?_ (fun _ h => h)
      rintro _ t ⟨ht, -, hcur, hmode⟩
      refine ⟨ht, ?_⟩
      rw [Sched.Runs, hcur, hmode]
      exact hr

def Peaceful (s : Sched) (queue : Queue → List Pid) (p : Pid) : Prop :=
  ∀ q, s.parent p = some q → ∀ i, q ∉ queue (some i)

lemma doSyscall_settles (h : Discipline ∅ s queue) (hr : s.Runs tp p) (op : Op)
    (hpar : op.ends s = true → Peaceful s queue p) :
    wp (doSyscall tp p op) (fun _ t => Settles (op.statuses s p) (op.accounts s p (account s queue)) t ∧
        t.Runs tp p)
      (Settles (op.statuses s p) (op.accounts s p (account s queue))) s := by
  cases op with
  | exit => exact retire_settles h hr (hpar rfl)
  | yield =>
    rw [doSyscall, wp, sysUserYield, withCurrent_apply hr.2, ← wp]
    exact giveUp_settles h hr
  | fork complete saved => exact doFork_settles h hr complete saved (fun hc => hpar (by simp [Op.ends, hc]))
  | wait pid => exact sysUserWait_settles h hr pid
  | semNew v =>
    refine wp_mono (doSemNew_wp v h) ?_ (fun _ h => h)
    rintro _ t ⟨ht, hcur, hmode⟩
    refine ⟨ht, ?_⟩
    rw [Sched.Runs, hcur, hmode]
    exact hr
  | semP sid => exact doSemP_settles h hr sid (fun hc => hpar (by simp [Op.ends, hc]))
  | semV sid => exact doSemV_settles h hr sid (fun hc => hpar (by simp [Op.ends, hc]))
  | other r => exact ⟨h.settles, hr⟩

end Syscalls

namespace Cause

def ends (s : Sched) : Cause → Bool
  | .ecall op => op.ends s
  | .fatal => true
  | _ => false

def statuses (s : Sched) (p : Pid) : Cause → Pid → Status
  | .ecall op => op.statuses s p
  | .timer => if timeSliceLen ≤ s.tickCount p + 1 then update s.status p .ready else s.status
  | .handled => s.status
  | .fatal => s.retired p

def accounts (s : Sched) (p : Pid) (a : Fin nsem → Account) : Cause → Fin nsem → Account
  | .ecall op => op.accounts s p a
  | _ => a

end Cause

namespace Event

def ends (s : Sched) : Event → Bool
  | .trap _ cause => cause.ends s
  | _ => false

def statuses (s : Sched) (tp : ℕ) : Event → Pid → Status
  | .start (some _) =>
    match s.slot with
    | none => s.status
    | some c => update s.status c .ready
  | .trap _ cause =>
    match s.current tp with
    | none => s.status
    | some p => cause.statuses s p
  | _ => s.status

def accounts (s : Sched) (tp : ℕ) (a : Fin nsem → Account) : Event → Fin nsem → Account
  | .trap _ cause =>
    match s.current tp with
    | none => a
    | some p => cause.accounts s p a
  | _ => a

end Event

section Traps

variable {x : Pid → Status} {a : Fin nsem → Account}

lemma Settles.setFrame (h : Settles x a t) (f : Trapframe) : Settles x a (t.setFrame p f) := by
  obtain ⟨queue, hd, ha, hx⟩ := h
  exact ⟨queue, hd.setFrame f, ha, hx⟩

lemma Settles.switchTo (h : Settles x a t) (hr : t.Runs tp p) : Settles x a (t.switchTo tp p) := by
  have he : t.switchTo tp p = t.setFrame p ((t.frame p).set .tp (.ofNat tp)) := by
    simp only [Sched.switchTo, Sched.setFrame]
    rw [← hr.1, ← hr.2, update_eq_self, update_eq_self]
  rw [he]
  exact h.setFrame _

lemma rrsched_timer (h : Discipline ∅ s queue) (hr : s.Runs tp p) :
    wp (rrsched tp) (fun _ t => Settles (Cause.timer.statuses s p) (account s queue) t ∧ t.Runs tp p)
      (Settles (Cause.timer.statuses s p) (account s queue)) s := by
  simp only [rrsched, withCurrent, wp_bind, wp_get, hr.2, wp_modify, wp_ite, wp_pure, Cause.statuses]
  have hticks : (s.setTicks p (s.tickCount p + 1)).tickCount p = s.tickCount p + 1 := by
    simp [Sched.setTicks]
  rw [hticks]
  refine ⟨fun hc => ?_, fun hc => ?_⟩
  · simp only [hc, if_true]
    exact giveUp_settles (s := (s.setTicks p _).setTicks p 0) ((h.setTicks _).setTicks 0) hr
  · simp only [hc, if_false]
    exact ⟨(h.setTicks (p := p) _).settles, hr⟩

lemma dispatchTrap_settles (h : Discipline ∅ s queue) (hr : s.Runs tp p) (cause : Cause)
    (hpar : cause.ends s = true → Peaceful s queue p) :
    wp (dispatchTrap tp p cause) (fun _ t => Settles (cause.statuses s p)
        (cause.accounts s p (account s queue)) t ∧ t.Runs tp p)
      (Settles (cause.statuses s p) (cause.accounts s p (account s queue))) s := by
  cases cause with
  | ecall op =>
    rw [dispatchTrap, wp_handleSyscall]
    refine wp_mono (doSyscall_settles (h.setFrame (p := p) _) hr op hpar) ?_ (fun _ h => h)
    exact fun _ t ht => ⟨ht.1.setFrame _, ht.2⟩
  | timer =>
    simp only [dispatchTrap, wp_bind]
    exact rrsched_timer h hr
  | handled => exact ⟨h.settles, hr⟩
  | fatal => exact retire_settles h hr (hpar rfl)

lemma smodeTrapHandler_settles (h : Discipline ∅ s queue) (hr : s.Runs tp p) (user : Trapframe)
    (cause : Cause) (hpar : cause.ends s = true → Peaceful s queue p) :
    wp (smodeTrapHandler tp user cause)
      (fun _ => Settles (cause.statuses s p) (cause.accounts s p (account s queue)))
      (Settles (cause.statuses s p) (cause.accounts s p (account s queue))) s := by
  rw [wp_smodeTrapHandler hr.2]
  refine wp_mono (dispatchTrap_settles (h.setFrame (p := p) _) hr cause hpar) ?_ (fun _ h => h)
  exact fun _ t ht => ht.1.switchTo ht.2

lemma sStart_settles (h : Discipline ∅ s queue) (program : Option Trapframe)
    {Q : Option ℤ → Sched → Prop} :
    wp (sStart tp program) Q (Settles ((Event.start program).statuses s tp) (account s queue)) s := by
  cases program with
  | none => exact schedule_settles (h.enter tp)
  | some f =>
    simp only [sStart, wp_bind]
    apply allocSlot_wp
    intro c hc
    obtain ⟨hd, hq, hrun⟩ := h.claim hc
    simp only [wp_bind, wp_modify, Event.statuses, hc]
    refine wp_mono (insertToReadyQueue_wp ((hd.setFrame (p := c) f).enter tp) hq (fun tp _ => hrun tp)
      (by simp [Sched.setFrame, Sched.setStatus]) (by simp [Sched.setFrame, Sched.setStatus])) ?_ (fun _ h => h)
    rintro _ t ⟨ht, -, hsem, -, hst, -⟩
    refine wp_mono (schedule_settles ht) (fun _ _ h => h) ?_
    intro u hu
    have hx : t.status = update s.status c .ready := by
      rw [hst]; simp [Sched.setFrame, Sched.setStatus]
    have ha : account t (update queue none (queue none ++ [c])) = account s queue := by
      funext i
      simp [account, hsem, Sched.setFrame, Sched.setStatus]
    rwa [hx, ha] at hu

lemma Step.settles {e : Event} {r : Option ℤ} (h : Discipline ∅ s queue) (hs : Step s tp e r t)
    (hpar : e.ends s = true → ∀ p, s.current tp = some p → Peaceful s queue p) :
    Settles (e.statuses s tp) (e.accounts s tp (account s queue)) t := by
  have hwp : wp (e.run tp) (fun _ => Settles (e.statuses s tp) (e.accounts s tp (account s queue)))
      (Settles (e.statuses s tp) (e.accounts s tp (account s queue))) s := by
    cases e with
    | start program => exact sStart_settles h program
    | resume => exact schedule_settles (h.enter tp)
    | trap user cause =>
      obtain ⟨p, hr⟩ := hs.runs
      simp only [Event.run, Event.statuses, Event.accounts, hr.2]
      exact smodeTrapHandler_settles h hr user cause (fun he => hpar he p hr.2)
  rcases hs.of_wp hwp with h | ⟨-, h⟩ <;> exact h

end Traps

end Pke.Processes
