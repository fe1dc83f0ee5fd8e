import Pke.Memory.Spaces

/-! All address spaces together. A process that can be scheduled makes one system call or takes
one page fault at a time; which one comes next is left open. -/

namespace Pke.Memory

open Lib Flow Function Processes

/-- What matters here of `procs[i].status`: a slot that `alloc_process` has taken is `building`
until the process can be scheduled. -/
inductive Phase where
  | free | building | active | zombie
  deriving DecidableEq

structure Machine where
  vm : Vm
  phase : Pid → Phase

inductive Act where
  | fork (garbage : ℕ → Bool)
  | allocatePage
  | freePage (va : ℕ)
  | betterMalloc (size : ℕ)
  | betterFree (va : ℕ)
  | storeFault (va : ℕ)
  | store (va : ℕ) (b : UInt8)
  | exit

inductive Event where
  | load (image : List ProgHeader) (entry : UInt64)
  | act (p : Pid) (a : Act)

/-- The list that `pmm_init` builds; page `i` is freed after page `i - 1`. -/
def createFreepageList (start stop : ℕ) : Pmm where
  freeMemStartAddr := start
  freeMemEndAddr := stop
  gFreeMemList := ((List.range ((stop - start - 1) / 4096)).map (start + · * 4096)).reverse
  pageRefCount := fun _ => 0

namespace Machine

def boot (start stop trapSec : ℕ) (mem : ℕ → UInt8) : Machine where
  vm := { pmm := createFreepageList start stop, mem := mem, space := fun _ => {}, trapSecStart := trapSec }
  phase := fun _ => .free

def setPhase (s : Machine) (p : Pid) (x : Phase) : Machine := { s with phase := update s.phase p x }

def onVm {α : Type} (p : Pid) (m : Flow Vm α) : Flow Machine α :=
  within Machine.vm (fun v s => { s with vm := v }) (do modify (·.setPhase p .zombie); leave) m

def allocSlot : Flow Machine Pid := do
  let s ← get
  match (List.finRange nproc).find? (fun i => s.phase i = .free) with
  | none => halt
  | some c => do
    modify (·.setPhase c .building)
    pure c

def live (s : Machine) : Finset Pid := Finset.univ.filter fun p => s.phase p = .building ∨ s.phase p = .active

def used (s : Machine) : ℕ := (Finset.univ.filter fun p => s.phase p ≠ .free).card

@[simp] lemma mem_live {s : Machine} {p : Pid} : p ∈ s.live ↔ s.phase p = .building ∨ s.phase p = .active := by
  simp [live]

@[simp] lemma phase_setPhase (s : Machine) (p : Pid) (x : Phase) : (s.setPhase p x).phase = update s.phase p x := rfl

end Machine

open Machine

def Pte.writable (e : Pte) : Bool := e.v && e.u && e.w

def Vm.poke (s : Vm) (p : Pid) (va : ℕ) (b : UInt8) : Vm :=
  { s with mem := update s.mem ((s.entry p (va / 4096)).pa + va % 4096) b }

def Act.run (p : Pid) : Act → Flow Machine Unit
  | .fork garbage => do
    let c ← allocSlot
    onVm p (doFork p c garbage)
    modify (·.setPhase c .active)
  | .allocatePage => do let _ ← onVm p (sysUserAllocatePage p); pure ()
  | .freePage va => do let _ ← onVm p (sysUserFreePage p va); pure ()
  | .betterMalloc size => do let _ ← onVm p (userBetterMalloc p size); pure ()
  | .betterFree va => onVm p (userBetterFree p va)
  | .storeFault va => onVm p (storePageFault p va)
  | .store va b => modify fun s => { s with vm := s.vm.poke p va b }
  | .exit => modify (·.setPhase p .zombie)

/-- A program that cannot be loaded stops the machine. -/
def Event.run : Event → Flow Machine Unit
  | .load image entry => do
    let c ← allocSlot
    within Machine.vm (fun v s => { s with vm := v }) halt (loadUserProgram c image entry)
    modify (·.setPhase c .active)
  | .act p a => a.run p

/-- The hardware stores where it can and traps where it cannot. -/
def Act.enabled (s : Vm) (p : Pid) : Act → Bool
  | .storeFault va => !(s.entry p (va / 4096)).writable
  | .store va _ => (s.entry p (va / 4096)).writable
  | _ => true

def Event.enabled (s : Machine) : Event → Bool
  | .load _ _ => true
  | .act p a => decide (s.phase p = .active) && a.enabled s.vm p

/-- After a store outside of an array anything may follow. -/
def MStep (s : Machine) (e : Event) (t : Machine) : Prop :=
  e.enabled s = true ∧ (e.run s = .done () t ∨ e.run s = .left t ∨ e.run s = .undefined)

def MReach (ok : Machine → Event → Prop) (s₀ : Machine) : Machine → Prop :=
  Relation.ReflTransGen (fun s t => ∃ e, ok s e ∧ MStep s e t) s₀

lemma MStep.of_wp {s t : Machine} {e : Event} {Q : Machine → Prop} (hs : MStep s e t)
    (h : wp e.run (fun _ => Q) Q s) : Q t := by
  unfold wp at h
  rcases hs.2 with hd | hl | hu
  · rwa [hd] at h
  · rwa [hl] at h
  · rw [hu] at h
    exact h.elim

lemma MReach.invariant {ok : Machine → Event → Prop} {s₀ s : Machine} (h : MReach ok s₀ s) {I : Machine → Prop}
    (h₀ : I s₀) (hstep : ∀ s e, I s → ok s e → e.enabled s = true → wp e.run (fun _ => I) I s) : I s := by
  induction h with
  | refl => exact h₀
  | tail _ hs ih =>
    obtain ⟨e, hok, hs⟩ := hs
    exact hs.of_wp (hstep _ e ih hok hs.1)

def play (guard : Machine → Event → Bool) : List Event → Machine → Option Machine
  | [], s => some s
  | e :: l, s =>
    if guard s e && e.enabled s then
      match e.run s with
      | .done _ t => play guard l t
      | .left t => play guard l t
      | _ => none
    else none

lemma play_reach {guard : Machine → Event → Bool} {ok : Machine → Event → Prop}
    (hg : ∀ s e, guard s e = true → ok s e) {l : List Event} {s₀ s t : Machine} (hs : MReach ok s₀ s)
    (h : play guard l s = some t) : MReach ok s₀ t := by
  induction l generalizing s with
  | nil => rwa [← Option.some.inj h]
  | cons e l ih =>
    rw [play] at h
    split_ifs at h with he
    rw [Bool.and_eq_true] at he
    cases hr : e.run s with
    | done a u =>
      rw [hr] at h
      exact ih (hs.tail ⟨e, hg s e he.1, he.2, .inl hr⟩) h
    | left u =>
      rw [hr] at h
      exact ih (hs.tail ⟨e, hg s e he.1, he.2, .inr (.inl hr)⟩) h
    | halted => rw [hr] at h; cases h
    | undefined => rw [hr] at h; cases h

lemma play_any {guard : Machine → Event → Bool} {ok : Machine → Event → Prop}
    (hg : ∀ s e, guard s e = true → ok s e) {l : List Event} {s₀ : Machine} {obs : Machine → Bool}
    (h : (play guard l s₀).any obs = true) : ∃ s, MReach ok s₀ s ∧ obs s = true := by
  obtain ⟨s, hs, ho⟩ := (Option.any_eq_true _ _).mp h
  exact ⟨s, play_reach hg .refl hs, ho⟩

end Pke.Memory
