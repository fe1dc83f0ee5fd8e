import Pke.Lib.Words
import Pke.Memory.HeapRuns
import Pke.Memory.Segments

namespace Pke.Memory

open Lib Flow Function Processes

/-- What a call of `do_exec` depends on beside the memory: the files, as `vfs_open` finds them by the path at an
address, the line table loader, the bytes that the kernel stack holds, and the number of the hart. -/
structure ExecCall where
  vfsOpen : (ℕ → UInt8) → ℕ → Option (List UInt8)
  loadDebugLine : List UInt8 → ElfStatus
  stack : ℕ → UInt8
  tp : UInt64

/-- The steps of `clr_proc` are those of `alloc_process`. -/
def clrProc (p : Pid) : Flow Vm Unit := allocProcess p

abbrev maxArgvLen : ℕ := 256

/-- The copy of the argument string; what is not written keeps what was on the stack. -/
def argvBuf (mem : ℕ → UInt8) (argv : ℕ) (stack : ℕ → UInt8) : List UInt8 :=
  (List.range maxArgvLen).map fun i =>
    if argv = 0 then if i = 0 then 0 else stack i
    else if i = maxArgvLen - 1 then 0
    else if i ≤ (readString mem argv (maxArgvLen - 1)).length then mem (argv + i)
    else stack i

def elfInit (file : List UInt8) : ElfStatus :=
  if (elfFpread file 64 0).length ≠ 64 then .eio
  else if uintAt file 0 4 ≠ 0x464C457F then .notelf
  else .ok

def ehdrEntry (file : List UInt8) : ℕ := uintAt file 24 8
def ehdrPhoff (file : List UInt8) : ℕ := uintAt file 32 8
def ehdrPhnum (file : List UInt8) : ℕ := uintAt file 56 2

def growHeap (p : Pid) : Flow Vm Unit := do
  modify fun s => s.setHeap p fun h => { h with heapTop := h.heapTop + 4096 }
  bumpHeapRegion p

def execArguments (x : ExecCall) (p : Pid) (buf : List UInt8) : Flow Vm Unit := do
  let va := (← get).top p
  let pa ← allocOrNull
  growHeap p
  userVmMap p va 4096 pa userRw
  modify fun s => s.setSpace p fun a => { a with frame := ((a.frame.set .a0 1).set .a1 (.ofNat va)).set .tp x.tp }
  let vaStr := (← get).top p
  let paStr ← allocOrNull
  growHeap p
  memsetPage paStr 0
  modify fun s => { s with mem := putBytes s.mem paStr buf }
  userVmMap p vaStr 4096 paStr userRw
  deref pa
  modify fun s => { s with mem := store64 s.mem pa vaStr }

/-- A null pointer is no error value: `elf_init` goes on to read from the file. -/
def doExec (x : ExecCall) (p : Pid) (path argv : ℕ) : Flow Vm ℤ := do
  let buf := argvBuf (← get).mem argv x.stack
  clrProc p
  match x.vfsOpen (← get).mem path with
  | none => halt
  | some file =>
    if elfInit file ≠ .ok then leave
    else do
      let r ← elfLoad p file (ehdrPhoff file) (ehdrPhnum file)
      if r.1 ≠ .ok then leave
      else if x.loadDebugLine file ≠ .ok then leave
      else do
        modify fun s => s.setSpace p fun a => { a with frame := { a.frame with epc := .ofNat (ehdrEntry file) } }
        execArguments x p buf
        pure 0

def userVaToPa (p : Pid) (va : ℕ) : Flow Vm ℕ := do
  match ← pageWalk p va false with
  | none => pure 0
  | some v =>
    let e := ((← get).space p).pagetable.pte v
    if e.v then pure (e.pa + va % 4096) else pure 0

def sysUserExec (x : ExecCall) (p : Pid) (pathva argvva : ℕ) : Flow Vm ℤ := do
  let path ← userVaToPa p pathva
  let argv ← userVaToPa p argvva
  doExec x p path argv

variable {s t u : Vm} {p : Pid} {v size va r : ℕ} {x : ExecCall} {file : List UInt8}

section Failures

/-- The file cannot be opened, is no ELF file, or cannot be loaded. -/
def ExecFails (x : ExecCall) (p : Pid) (pathva : ℕ) (s : Vm) : Prop :=
  ∃ path u, userVaToPa p pathva s = .done path s ∧ clrProc p s = .done () u ∧
    ∀ file, x.vfsOpen u.mem path = some file → elfInit file ≠ .ok ∨
      (∃ r t, elfLoad p file (ehdrPhoff file) (ehdrPhnum file) u = .done r t ∧ r.1 ≠ .ok) ∨ x.loadDebugLine file ≠ .ok

/-- The call returns -1, and the process has what it had. -/
def LeavesIntact (p : Pid) (s : Vm) (m : Flow Vm ℤ) : Prop :=
  ∃ t, m s = .done (-1) t ∧ t.space p = s.space p

lemma walkLevel_same (find : PageTable → Option ℕ) (add : PageTable → ℕ → PageTable) : Carries Eq (walkLevel p false find add) := by
  rw [walkLevel]
  refine Carries.get fun s => ?_
  split
  · exact Carries.pure (fun _ => rfl) _
  · exact Carries.pure (fun _ => rfl) _

lemma pageWalk_same (p : Pid) (va : ℕ) : Carries Eq (pageWalk p va false) := by
  have htrans : ∀ s t u : Vm, s = t → t = u → s = u := fun _ _ _ => Eq.trans
  rw [pageWalk]
  refine Carries.ite Carries.leave (Carries.bind htrans (walkLevel_same _ _) fun b => ?_)
  refine Carries.ite (Carries.bind htrans (walkLevel_same _ _) fun b => ?_) (Carries.pure (fun _ => rfl) _)
  exact Carries.ite (Carries.pure (fun _ => rfl) _) (Carries.pure (fun _ => rfl) _)

lemma userVaToPa_same (p : Pid) (va : ℕ) : Carries Eq (userVaToPa p va) := by
  have htrans : ∀ s t u : Vm, s = t → t = u → s = u := fun _ _ _ => Eq.trans
  refine Carries.bind htrans (pageWalk_same p va) fun r => ?_
  split
  · exact Carries.pure (fun _ => rfl) _
  · exact Carries.get fun s => Carries.ite (Carries.pure (fun _ => rfl) _) (Carries.pure (fun _ => rfl) _)

lemma doExec_done {path argv : ℕ} {z : ℤ} (h : doExec x p path argv s = .done z t) : z = 0 ∧
    ∃ u w file frames, clrProc p s = .done () u ∧ x.vfsOpen u.mem path = some file ∧ elfInit file = .ok ∧
      elfLoad p file (ehdrPhoff file) (ehdrPhnum file) u = .done (.ok, frames) w ∧ x.loadDebugLine file = .ok ∧
        execArguments x p (argvBuf s.mem argv x.stack)
          (w.setSpace p fun a => { a with frame := { a.frame with epc := .ofNat (ehdrEntry file) } }) = .done () t := by
  rw [doExec, get_bind] at h
  obtain ⟨⟨⟩, u, hu, h⟩ := bind_eq_done h
  rw [get_bind] at h
  cases hopen : x.vfsOpen u.mem path with
  | none =>
    simp only [hopen] at h
    cases h
  | some file =>
    simp only [hopen] at h
    by_cases hinit : elfInit file ≠ .ok
    · rw [if_pos hinit] at h
      cases h
    rw [if_neg hinit] at h
    obtain ⟨⟨status, frames⟩, w, hw, h⟩ := bind_eq_done h
    split_ifs at h with hstatus hlines
    · cases h
    · cases h
    rw [modify_bind] at h
    obtain ⟨⟨⟩, t', ht, h⟩ := bind_eq_done h
    cases h
    obtain rfl := Decidable.not_not.mp hstatus
    exact ⟨rfl, u, w, file, frames, hu, hopen, Decidable.not_not.mp hinit, hw, Decidable.not_not.mp hlines, ht⟩

lemma sysUserExec_fails {pathva argvva : ℕ} {z : ℤ} (h : ExecFails x p pathva s) : sysUserExec x p pathva argvva s ≠ .done z t := by
  obtain ⟨path, u, hpath, hclr, hfile⟩ := h
  intro hrun
  rw [sysUserExec, bind_done hpath] at hrun
  obtain ⟨argv, s', hargv, hrun⟩ := bind_eq_done hrun
  obtain rfl := userVaToPa_same p argvva s argv s' hargv
  obtain ⟨-, u', w, file, frames, hclr', hopen, hinit, hload, hlines, -⟩ := doExec_done hrun
  rw [hclr] at hclr'
  cases hclr'
  rcases hfile file hopen with hno | ⟨r, t, hload', hr⟩ | hno
  · exact hno hinit
  · rw [hload] at hload'
    cases hload'
    exact hr rfl
  · exact hno hlines

/-- By then the old program is gone, and no error is returned. -/
theorem failing_exec_not_intact (x : ExecCall) (p : Pid) (pathva argvva : ℕ) (s : Vm) (h : ExecFails x p pathva s) :
    ¬ LeavesIntact p s (sysUserExec x p pathva argvva) := by
  rintro ⟨t, hrun, -⟩
  exact sysUserExec_fails h hrun

def answering (answer : Option (List UInt8)) : ExecCall := ⟨fun _ _ => answer, fun _ => .ok, fun _ => 0, 0⟩

theorem failing_exec_of_empty_file : ∃ M, MReach (fun _ _ => True) smallBoot M ∧
    ¬ LeavesIntact 0 M.vm (sysUserExec (answering (some [])) 0 0x10000 0x10000) := by
  have hrun : (play (fun _ _ => true) [.load onePage 0x10000] smallBoot).any (fun M =>
      ((userVaToPa 0 0x10000 M.vm).ends fun _ _ => true) && (clrProc 0 M.vm).ends fun _ _ => true) = true := by decide +kernel
  obtain ⟨M, hM, hobs⟩ := play_any (fun _ _ _ => trivial) hrun
  rw [Bool.and_eq_true] at hobs
  obtain ⟨path, s, hpath, -⟩ := Outcome.ends_done hobs.1
  obtain ⟨⟨⟩, u, hclr, -⟩ := Outcome.ends_done hobs.2
  obtain rfl := userVaToPa_same 0 _ _ _ _ hpath
  refine ⟨M, hM, failing_exec_not_intact _ 0 0x10000 0x10000 M.vm ⟨path, u, hpath, hclr, fun file hfile => ?_⟩⟩
  cases hfile
  exact .inl (by decide)

theorem missing_file_stops_kernel : ∃ M, MReach (fun _ _ => True) smallBoot M ∧ M.phase 0 = .active ∧
    ExecFails (answering none) 0 0x10000 M.vm ∧ sysUserExec (answering none) 0 0x10000 0x10000 M.vm = .halted := by
  have hrun : (play (fun _ _ => true) [.load onePage 0x10000] smallBoot).any (fun M => decide (M.phase 0 = .active) &&
      (((userVaToPa 0 0x10000 M.vm).ends fun _ _ => true) && (clrProc 0 M.vm).ends fun _ _ => true)) = true := by
    decide +kernel
  obtain ⟨M, hM, hobs⟩ := play_any (fun _ _ _ => trivial) hrun
  rw [Bool.and_eq_true, Bool.and_eq_true] at hobs
  obtain ⟨path, s, hpath, -⟩ := Outcome.ends_done hobs.2.1
  obtain ⟨⟨⟩, u, hclr, -⟩ := Outcome.ends_done hobs.2.2
  obtain rfl := userVaToPa_same 0 _ _ _ _ hpath
  refine ⟨M, hM, of_decide_eq_true hobs.1, ⟨path, u, hpath, hclr, fun file hfile => by cases hfile⟩, ?_⟩
  rw [sysUserExec, bind_done hpath, bind_done hpath, doExec, get_bind, bind_done hclr]
  rfl

end Failures

end Pke.Memory
