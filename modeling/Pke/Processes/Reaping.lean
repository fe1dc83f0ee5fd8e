import Pke.Processes.WaitReport

namespace Pke.Processes

open Lib Flow Function

structure Transition where
  pre : Sched
  hart : ℕ
  event : Event
  ret : Option ℤ
  post : Sched

def pidOf (r : Option ℤ) : Option Pid := r.bind fun r =>
  if h : 0 ≤ r ∧ r < nproc then some ⟨r.toNat, toNat_lt_nproc h⟩ else none

namespace Transition

def forked (tr : Transition) : Option Pid :=
  match tr.event with
  | .trap _ (.ecall (.fork _ _)) => pidOf tr.ret
  | _ => none

end Transition

variable {s : Sched} {tr : Transition} {l : List Transition}

def record : List (ℕ × Event) → Sched → Option (List Transition)
  | [], _ => some []
  | (tp, e) :: l, s => (e.outcome tp s).bind fun x => (record l x.2).map (⟨s, tp, e, x.1, x.2⟩ :: ·)

end Pke.Processes
