import Pke.Processes.QueueSteps

/-! Traps and hart starts as atomic steps of the process table. What the memory side does with a
call shows here only in whether the call completes and in what it returns. -/

namespace Pke.Processes

open Lib Flow Function

/-- The system calls. `fork` comes with the fate of the copied address space and the registers
saved for the child; `other` is a call that returns without touching the process table. -/
inductive Op where
  | exit | yield
  | fork (complete : Bool) (saved : Trapframe)
  | wait (pid : ℤ)
  | semNew (initVal : ℕ) | semP (sid : ℕ) | semV (sid : ℕ)
  | other (ret : ℤ)

inductive Cause where
  | ecall (op : Op)
  | timer
  | handled
  | fatal

/-- A hart is started with or without a program, looks at the ready queue again, or traps with
the registers of its process. -/
inductive Event where
  | start (program : Option Trapframe)
  | resume
  | trap (user : Trapframe) (cause : Cause)

def Op.encode (user : Trapframe) : Op → Trapframe
  | .exit => user.set .a0 65
  | .fork _ _ => user.set .a0 68
  | .yield => user.set .a0 69
  | .wait pid => (user.set .a0 95).set .a1 (.ofInt pid)
  | .semNew v => (user.set .a0 96).set .a1 (.ofNat v)
  | .semP sid => (user.set .a0 97).set .a1 (.ofNat sid)
  | .semV sid => (user.set .a0 98).set .a1 (.ofNat sid)
  | .other _ => user

def Cause.encode (user : Trapframe) : Cause → Trapframe
  | .ecall op => op.encode user
  | _ => user

def doFork (tp : ℕ) (p : Pid) (complete : Bool) (saved : Trapframe) : Flow Sched ℤ := do
  let child ← allocSlot
  modify fun s => s.setFrame child saved
  if complete then do
    launchChild p child
    pure (child : ℕ)
  else killCurrentProcess tp

def doSyscall (tp : ℕ) (p : Pid) : Op → Flow Sched ℤ
  | .exit => sysUserExit tp
  | .yield => sysUserYield tp
  | .fork complete saved => doFork tp p complete saved
  | .wait pid => sysUserWait tp pid
  | .semNew v => doSemNew v
  | .semP sid => doSemP tp sid
  | .semV sid => doSemV tp sid
  | .other r => pure r

def handleSyscall (tp : ℕ) (p : Pid) (op : Op) : Flow Sched (Option ℤ) := do
  modify fun s => s.setFrame p { s.frame p with epc := (s.frame p).epc + 4 }
  let r ← doSyscall tp p op
  modify fun s => s.setFrame p ((s.frame p).set .a0 (.ofInt r))
  pure (some r)

def dispatchTrap (tp : ℕ) (p : Pid) : Cause → Flow Sched (Option ℤ)
  | .ecall op => handleSyscall tp p op
  | .timer => do rrsched tp; pure none
  | .handled => pure none
  | .fatal => killCurrentProcess tp

def smodeTrapHandler (tp : ℕ) (user : Trapframe) (cause : Cause) : Flow Sched (Option ℤ) :=
  withCurrent tp fun p => do
    modify fun s => s.setFrame p (cause.encode user)
    let r ← dispatchTrap tp p cause
    modify fun s => s.switchTo tp p
    pure r

def sStart (tp : ℕ) (program : Option Trapframe) : Flow Sched (Option ℤ) := do
  match program with
  | none => pure ()
  | some f => do
    let p ← allocSlot
    modify fun s => s.setFrame p f
    insertToReadyQueue p
  schedule tp

def Event.run (tp : ℕ) : Event → Flow Sched (Option ℤ)
  | .start program => sStart tp program
  | .resume => schedule tp
  | .trap user cause => smodeTrapHandler tp user cause

def Event.mode : Event → Mode
  | .start _ => .off
  | .resume => .waiting
  | .trap _ _ => .user

/-- One atomic step of hart `tp`; a call that returns does so with the value `r`. -/
def Step (s : Sched) (tp : ℕ) (e : Event) (r : Option ℤ) (t : Sched) : Prop :=
  s.mode tp = e.mode ∧ (e.run tp s = .done r t ∨ (r = none ∧ e.run tp s = .left t))

section Steps

variable {s t : Sched} {tp : ℕ} {p : Pid} {e : Event} {r : Option ℤ} {E : Sched → Prop}

lemma Step.of_wp (hs : Step s tp e r t) {Q : Option ℤ → Sched → Prop} (h : wp (e.run tp) Q E s) :
    Q r t ∨ r = none ∧ E t := by
  rcases hs.2 with hd | ⟨hr, hl⟩
  · rw [wp, hd] at h
    exact .inl h
  · rw [wp, hl] at h
    exact .inr ⟨hr, h⟩

lemma Step.runs {user : Trapframe} {cause : Cause} (hs : Step s tp (.trap user cause) r t) :
    ∃ p, s.Runs tp p := by
  cases hc : s.current tp with
  | some p => exact ⟨p, hs.1, hc⟩
  | none =>
    have hwp : wp (Event.run tp (.trap user cause)) (fun _ _ => False) (fun _ => False) s := by
      rw [wp, Event.run, smodeTrapHandler, withCurrent, get_bind]
      simp only [hc]
      exact trivial
    rcases hs.of_wp hwp with h | ⟨-, h⟩ <;> exact h.elim

lemma wp_smodeTrapHandler {user : Trapframe} {cause : Cause} {Q : Option ℤ → Sched → Prop}
    (hp : s.current tp = some p) : wp (smodeTrapHandler tp user cause) Q E s ↔
      wp (dispatchTrap tp p cause) (fun r t => Q r (t.switchTo tp p)) E (s.setFrame p (cause.encode user)) := by
  rw [wp, smodeTrapHandler, withCurrent_apply hp, ← wp, wp_bind, wp_modify, wp_bind]
  rfl

lemma wp_handleSyscall {op : Op} {Q : Option ℤ → Sched → Prop} : wp (handleSyscall tp p op) Q E s ↔
    wp (doSyscall tp p op) (fun r t => Q (some r) (t.setFrame p ((t.frame p).set .a0 (.ofInt r)))) E
      (s.setFrame p { s.frame p with epc := (s.frame p).epc + 4 }) := by
  rw [handleSyscall, wp_bind, wp_modify, wp_bind]
  rfl

end Steps

def Event.outcome (tp : ℕ) (e : Event) (s : Sched) : Option (Option ℤ × Sched) :=
  if s.mode tp = e.mode then
    match e.run tp s with
    | .done r t => some (r, t)
    | .left t => some (none, t)
    | _ => none
  else none

lemma Event.outcome_step {tp : ℕ} {e : Event} {s : Sched} {x : Option ℤ × Sched}
    (h : e.outcome tp s = some x) : Step s tp e x.1 x.2 := by
  unfold Event.outcome at h
  split_ifs at h with hm
  cases hr : e.run tp s with
  | done r u =>
    rw [hr] at h
    rw [← Option.some.inj h]
    exact ⟨hm, .inl hr⟩
  | left u =>
    rw [hr] at h
    rw [← Option.some.inj h]
    exact ⟨hm, .inr ⟨rfl, hr⟩⟩
  | halted => rw [hr] at h; cases h
  | undefined => rw [hr] at h; cases h

def exec (guard : Sched → Event → Bool) : List (ℕ × Event) → Sched → Option Sched
  | [], s => some s
  | (tp, e) :: l, s => if guard s e then (e.outcome tp s).bind fun x => exec guard l x.2 else none

/-- The states that steps allowed by `ok` lead to from an empty process table. -/
def Reach (ok : Sched → ℕ → Event → Prop) : Sched → Prop :=
  Relation.ReflTransGen (fun s t => ∃ tp e r, ok s tp e ∧ Step s tp e r t) Sched.initProcPool

lemma exec_reach {guard : Sched → Event → Bool} {ok : Sched → ℕ → Event → Prop}
    (hg : ∀ s tp e, guard s e = true → ok s tp e) {l : List (ℕ × Event)} {s t : Sched}
    (hs : Reach ok s) (h : exec guard l s = some t) : Reach ok t := by
  induction l generalizing s with
  | nil => rwa [← Option.some.inj h]
  | cons a l ih =>
    obtain ⟨tp, e⟩ := a
    rw [exec] at h
    split_ifs at h with hge
    obtain ⟨u, hu, hrest⟩ := Option.bind_eq_some_iff.mp h
    exact ih (hs.tail ⟨tp, e, u.1, hg s tp e hge, Event.outcome_step hu⟩) hrest

end Pke.Processes
