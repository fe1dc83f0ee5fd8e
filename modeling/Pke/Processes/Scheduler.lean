import Pke.Lib.Chains
import Pke.Lib.Flow

/-! The process table as the scheduler sees it: `sched.c`, `switch_to`, and the queueing parts
of `process.c`, `strap.c` and `syscall.c`. -/

namespace Pke.Processes

open Lib Flow Function

abbrev nproc : ℕ := 32
abbrev nsem : ℕ := 32
abbrev timeSliceLen : ℤ := 2

abbrev Pid := Fin nproc

instance neZeroNproc : NeZero nproc := ⟨by decide⟩

inductive Status where
  | free | ready | running | blocked | zombie
  deriving DecidableEq

/-- A hart has not been started, spins in `schedule`, or executes its current process. -/
inductive Mode where
  | off | waiting | user
  deriving DecidableEq

inductive Reg where
  | ra | sp | gp | tp | t0 | t1 | t2 | s0 | s1 | a0 | a1 | a2 | a3 | a4 | a5 | a6 | a7
  | s2 | s3 | s4 | s5 | s6 | s7 | s8 | s9 | s10 | s11 | t3 | t4 | t5 | t6
  deriving DecidableEq

structure Trapframe where
  regs : Reg → UInt64 := fun _ => 0
  epc : UInt64 := 0

def Trapframe.set (f : Trapframe) (r : Reg) (x : UInt64) : Trapframe :=
  { f with regs := update f.regs r x }

structure Semaphore where
  ifuse : Bool
  value : ℤ
  waitQueue : Option Pid

structure Sched where
  status : Pid → Status
  parent : Pid → Option Pid
  queueNext : Pid → Option Pid
  tickCount : Pid → ℤ
  frame : Pid → Trapframe
  semTable : Fin nsem → Semaphore
  readyQueueHead : Option Pid
  current : ℕ → Option Pid
  mode : ℕ → Mode

namespace Sched

def setStatus (s : Sched) (p : Pid) (x : Status) : Sched := { s with status := update s.status p x }
def setNext (s : Sched) (p : Pid) (q : Option Pid) : Sched :=
  { s with queueNext := update s.queueNext p q }
def setTicks (s : Sched) (p : Pid) (n : ℤ) : Sched := { s with tickCount := update s.tickCount p n }
def setFrame (s : Sched) (p : Pid) (f : Trapframe) : Sched := { s with frame := update s.frame p f }
def setSem (s : Sched) (i : Fin nsem) (x : Semaphore) : Sched :=
  { s with semTable := update s.semTable i x }
lemma setSem_self (s : Sched) (i : Fin nsem) (x : Semaphore) : (s.setSem i x).semTable i = x := by
  simp [setSem]

lemma setSem_setSem (s : Sched) (i : Fin nsem) (x y : Semaphore) :
    (s.setSem i x).setSem i y = s.setSem i y := by
  simp [setSem]

def setMode (s : Sched) (tp : ℕ) (m : Mode) : Sched := { s with mode := update s.mode tp m }

def Runs (s : Sched) (tp : ℕ) (p : Pid) : Prop := s.mode tp = .user ∧ s.current tp = some p

def allProcessDone (s : Sched) : Bool :=
  decide (∀ p, s.status p = .free ∨ s.status p = .zombie)

def initProcPool : Sched where
  status _ := .free
  parent _ := none
  queueNext _ := none
  tickCount _ := 0
  frame _ := {}
  semTable _ := ⟨false, 0, none⟩
  readyQueueHead := none
  current _ := none
  mode _ := .off

/-- The way back to user mode: the saved registers get the number of the hart. -/
def switchTo (s : Sched) (tp : ℕ) (p : Pid) : Sched :=
  { s.setFrame p ((s.frame p).set .tp (.ofNat tp)) with
    current := update s.current tp (some p)
    mode := update s.mode tp .user }

end Sched

def toInt (x : ℤ) : ℤ := x.bmod (2 ^ 32)

def withCurrent {α : Type} (tp : ℕ) (f : Pid → Flow Sched α) : Flow Sched α := do
  match (← get).current tp with
  | some p => f p
  | none => halt

lemma withCurrent_apply {α : Type} {s : Sched} {tp : ℕ} {p : Pid} (hp : s.current tp = some p)
    (f : Pid → Flow Sched α) : withCurrent tp f s = f p s := by
  simp only [withCurrent, get_bind, hp]

lemma wp_withCurrent {α : Type} {tp : ℕ} {f : Pid → Flow Sched α} {Q : α → Sched → Prop}
    {E : Sched → Prop} {s : Sched} :
    wp (withCurrent tp f) Q E s ↔ ∀ p, s.current tp = some p → wp (f p) Q E s := by
  cases hp : s.current tp with
  | none => simp [wp, withCurrent, get_bind, hp, halt]
  | some p => simp [wp, withCurrent_apply hp]

def insertToReadyQueue (p : Pid) : Flow Sched Unit := do
  let s ← get
  if s.status p = .zombie ∨ s.status p = .free then pure ()
  else
    match s.readyQueueHead with
    | none => modify fun s => { (s.setStatus p .ready).setNext p none with readyQueueHead := some p }
    | some h =>
      match scan s.queueNext p nproc h with
      | none => halt
      | some none => pure ()
      | some (some last) => modify fun s => ((s.setNext last (some p)).setStatus p .ready).setNext p none

/-- `schedule` does not come back to its caller: it enters user mode, or waits for work. -/
def schedule {α : Type} (tp : ℕ) : Flow Sched α := do
  let s ← get
  match s.readyQueueHead with
  | some p =>
    modify fun s =>
      ((({ s with readyQueueHead := s.queueNext p }.setNext p none).setStatus p .running).switchTo tp p)
    leave
  | none =>
    if s.allProcessDone ∧ tp = 0 then halt
    else do
      modify fun s => s.setMode tp .waiting
      leave

def freeProcess (p : Pid) : Flow Sched Unit := modify fun s => s.setStatus p .zombie

def wakeParent (p : Pid) : Flow Sched Unit := do
  let s ← get
  match s.parent p with
  | none => pure ()
  | some q =>
    if s.status q = .blocked then do
      modify fun s => s.setStatus q .ready
      insertToReadyQueue q
    else pure ()

def retire {α : Type} (tp : ℕ) : Flow Sched α :=
  withCurrent tp fun p => do
    freeProcess p
    wakeParent p
    schedule tp

def killCurrentProcess {α : Type} (tp : ℕ) : Flow Sched α := retire tp
def sysUserExit (tp : ℕ) : Flow Sched ℤ := retire tp

def giveUp {α : Type} (tp : ℕ) (p : Pid) : Flow Sched α := do
  modify fun s => s.setStatus p .ready
  insertToReadyQueue p
  schedule tp

def sysUserYield (tp : ℕ) : Flow Sched ℤ := withCurrent tp fun p => giveUp tp p

def rrsched (tp : ℕ) : Flow Sched Unit :=
  withCurrent tp fun p => do
    modify fun s => s.setTicks p (s.tickCount p + 1)
    if timeSliceLen ≤ (← get).tickCount p then do
      modify fun s => s.setTicks p 0
      giveUp tp p
    else pure ()

def block {α : Type} (tp : ℕ) (p : Pid) : Flow Sched α := do
  modify fun s => s.setStatus p .blocked
  schedule tp

def doSemNew (initVal : ℕ) : Flow Sched ℤ := do
  let s ← get
  match (List.finRange nsem).find? (fun i => !(s.semTable i).ifuse) with
  | none => pure (-1)
  | some i => do
    modify fun s => s.setSem i ⟨true, toInt initVal, none⟩
    pure (i : ℕ)

def joinWaitQueue (i : Fin nsem) (p : Pid) : Flow Sched Unit := do
  modify fun s => s.setNext p none
  let s ← get
  match (s.semTable i).waitQueue with
  | none => modify fun s => s.setSem i { s.semTable i with waitQueue := some p }
  | some w =>
    match lastOf s.queueNext nproc w with
    | none => halt
    | some last => modify fun s => s.setNext last (some p)

def Sched.semaphore (s : Sched) (sid : ℕ) : Option (Fin nsem) :=
  if h : sid < nsem then if (s.semTable ⟨sid, h⟩).ifuse then some ⟨sid, h⟩ else none else none

def doSemP (tp sid : ℕ) : Flow Sched ℤ := do
  let s ← get
  match s.semaphore sid with
  | none => killCurrentProcess tp
  | some i =>
    if 0 < (s.semTable i).value then do
      modify fun s => s.setSem i { s.semTable i with value := (s.semTable i).value - 1 }
      pure 0
    else
      withCurrent tp fun p => do
        joinWaitQueue i p
        block tp p

/-- The value goes up, and down again when a process waits. -/
def doSemV (tp sid : ℕ) : Flow Sched ℤ := do
  let s ← get
  match s.semaphore sid with
  | none => killCurrentProcess tp
  | some i =>
    modify fun s => s.setSem i { s.semTable i with value := toInt ((s.semTable i).value + 1) }
    match (s.semTable i).waitQueue with
    | none => pure 0
    | some p => do
      modify fun s => (s.setSem i { s.semTable i with
        value := toInt ((s.semTable i).value - 1), waitQueue := s.queueNext p }).setNext p none
      insertToReadyQueue p
      pure 0

/-- The process waits until `schedule` resumes it in user mode; the loops of the source never
get to look at the table a second time. -/
def sysUserWait (tp : ℕ) (pid : ℤ) : Flow Sched ℤ :=
  withCurrent tp fun p => do
    let s ← get
    if pid = -1 then
      match (List.finRange nproc).find? (fun i => s.parent i = some p ∧ s.status i = .zombie) with
      | some i => do
        freeProcess i
        pure (i : ℕ)
      | none => block tp p
    else
      if h : 0 ≤ pid ∧ pid < nproc then
        let i : Pid := ⟨pid.toNat, by omega⟩
        if s.parent i ≠ some p then pure (-1)
        else if s.status i = .zombie then do
          freeProcess i
          pure pid
        else block tp p
      else pure (-1)

def allocSlot : Flow Sched Pid := do
  let s ← get
  match (List.finRange nproc).find? (fun i => s.status i = .free) with
  | none => halt
  | some i => do
    modify fun s => s.setStatus i .ready
    pure i

/-- The end of `do_fork`, once the address space of the child is complete. -/
def launchChild (p child : Pid) : Flow Sched Unit := do
  modify fun s => { (s.setStatus child .ready).setFrame child ((s.frame child).set .a0 0) with
    parent := update s.parent child (some p) }
  insertToReadyQueue child

end Pke.Processes
