import Pke.Processes.QueueSafety

namespace Pke.Processes

open Lib Flow Function

def Undisturbed (p : Pid) (s t : Sched) : Prop :=
  s.status p ≠ .free → t.status p ≠ .free ∧ ∀ r ≠ Reg.tp, (t.frame p).regs r = (s.frame p).regs r

namespace Undisturbed

variable {p q : Pid} {s t u : Sched} {tp : ℕ} {α : Type}

lemma refl (s : Sched) : Undisturbed p s s := fun h => ⟨h, fun _ _ => rfl⟩

lemma trans (s t u : Sched) (h₁ : Undisturbed p s t) (h₂ : Undisturbed p t u) : Undisturbed p s u := by
  intro h
  obtain ⟨ht, hf⟩ := h₁ h
  obtain ⟨hu, hg⟩ := h₂ ht
  exact ⟨hu, fun r hr => (hg r hr).trans (hf r hr)⟩

lemma of_frame (hf : t.frame = s.frame) (hs : t.status = s.status) : Undisturbed p s t := by
  intro h
  rw [hf, hs]
  exact ⟨h, fun _ _ => rfl⟩

lemma setStatus {x : Status} (hx : x ≠ .free) (s : Sched) : Undisturbed p s (s.setStatus q x) := by
  intro h
  refine ⟨?_, fun _ _ => rfl⟩
  by_cases hp : p = q
  · subst hp; simpa [Sched.setStatus] using hx
  · simpa [Sched.setStatus, hp] using h

lemma setFrame (hq : q ≠ p) (f : Trapframe) (s : Sched) : Undisturbed p s (s.setFrame q f) := by
  intro h
  refine ⟨h, fun r _ => ?_⟩
  simp [Sched.setFrame, hq.symm]

lemma switchTo (s : Sched) : Undisturbed p s (s.switchTo tp q) := by
  intro h
  refine ⟨h, fun r hr => ?_⟩
  by_cases hp : p = q
  · subst hp; simp [Sched.switchTo, Sched.setFrame, Trapframe.set, hr]
  · simp [Sched.switchTo, Sched.setFrame, hp]

lemma insertToReadyQueue : Keeps (Undisturbed p) (insertToReadyQueue q) := by
  intro s
  simp only [Processes.insertToReadyQueue, wp_bind, wp_get, wp_ite, wp_pure]
  refine ⟨fun _ => refl s, fun _ => ?_⟩
  cases s.readyQueueHead with
  | none => exact setStatus (by decide) s
  | some a =>
    simp only
    cases scan s.queueNext q nproc a with
    | none => trivial
    | some o =>
      cases o with
      | none => exact refl s
      | some last => exact setStatus (by decide) s

lemma schedule : Keeps (Undisturbed p) (schedule tp : Flow Sched α) := by
  intro s
  simp only [Processes.schedule, wp_bind, wp_get]
  cases s.readyQueueHead with
  | none =>
    simp only [wp_ite, wp_bind, wp_modify, wp_leave, wp_halt, implies_true, true_and]
    exact fun _ => of_frame rfl rfl
  | some a =>
    simp only [wp_bind, wp_modify, wp_leave]
    exact trans _ _ _ (setStatus (q := a) (by decide) _) (switchTo _)

lemma retire : Keeps (Undisturbed p) (retire tp : Flow Sched α) := by
  intro s
  simp only [Processes.retire, withCurrent, wp_bind, wp_get]
  cases s.current tp with
  | none => trivial
  | some q =>
    simp only [wp_bind, freeProcess, wp_modify, wakeParent, wp_get]
    have hz : Undisturbed p s (s.setStatus q .zombie) := setStatus (by decide) s
    cases (s.setStatus q .zombie).parent q with
    | none => exact schedule.after trans hz
    | some o =>
      simp only [wp_ite, wp_bind, wp_modify, wp_pure]
      refine ⟨fun _ => ?_, fun _ => schedule.after trans hz⟩
      refine wp_mono (insertToReadyQueue.after trans (trans _ _ _ hz (setStatus (q := o) (by decide) _)))
        (fun _ t ht => schedule.after trans ht) (fun _ h => h)

lemma giveUp : Keeps (Undisturbed p) (giveUp tp q : Flow Sched α) :=
  Keeps.bind trans (Keeps.modify fun s => setStatus (by decide) s) fun _ =>
    Keeps.bind trans insertToReadyQueue fun _ => schedule

lemma block : Keeps (Undisturbed p) (block tp q : Flow Sched α) :=
  Keeps.bind trans (Keeps.modify fun s => setStatus (by decide) s) fun _ => schedule

lemma withCurrent {f : Pid → Flow Sched α} (h : ∀ q, Keeps (Undisturbed p) (f q)) :
    Keeps (Undisturbed p) (withCurrent tp f) := by
  intro s
  simp only [Processes.withCurrent, wp_bind, wp_get]
  cases s.current tp with
  | none => trivial
  | some q => exact h q s

lemma rrsched : Keeps (Undisturbed p) (rrsched tp) := by
  refine withCurrent fun q => Keeps.bind trans (Keeps.modify fun s => of_frame rfl rfl) fun _ => ?_
  intro s
  simp only [wp_bind, wp_get, wp_ite, wp_modify, wp_pure]
  exact ⟨fun _ => giveUp.after trans (of_frame rfl rfl), fun _ => refl s⟩

lemma doSemNew (v : ℕ) : Keeps (Undisturbed p) (doSemNew v) := by
  intro s
  simp only [Processes.doSemNew, wp_bind, wp_get]
  cases (List.finRange nsem).find? (fun i => !(s.semTable i).ifuse) with
  | none => exact refl s
  | some i => exact of_frame rfl rfl

lemma joinWaitQueue (i : Fin nsem) : Keeps (Undisturbed p) (joinWaitQueue i q) := by
  refine Keeps.bind trans (Keeps.modify fun s => of_frame rfl rfl) fun _ => ?_
  intro s
  simp only [wp_bind, wp_get]
  cases (s.semTable i).waitQueue with
  | none => exact of_frame rfl rfl
  | some w =>
    simp only
    cases lastOf s.queueNext nproc w with
    | none => trivial
    | some last => exact of_frame rfl rfl

lemma doSemP (sid : ℕ) : Keeps (Undisturbed p) (doSemP tp sid) := by
  intro s
  simp only [Processes.doSemP, wp_bind, wp_get]
  cases s.semaphore sid with
  | none => exact retire s
  | some i =>
    simp only [wp_ite, wp_bind, wp_modify, wp_pure]
    refine ⟨fun _ => of_frame rfl rfl, fun _ => ?_⟩
    exact withCurrent (fun q => Keeps.bind trans (joinWaitQueue i) fun _ => block) s

lemma doSemV (sid : ℕ) : Keeps (Undisturbed p) (doSemV tp sid) := by
  intro s
  simp only [Processes.doSemV, wp_bind, wp_get]
  cases s.semaphore sid with
  | none => exact retire s
  | some i =>
    simp only [wp_bind, wp_modify]
    cases (s.semTable i).waitQueue with
    | none => exact of_frame rfl rfl
    | some w =>
      simp only [wp_bind, wp_modify]
      exact insertToReadyQueue.after trans (of_frame rfl rfl)

lemma sysUserWait (pid : ℤ) : Keeps (Undisturbed p) (sysUserWait tp pid) := by
  intro s
  cases hc : s.current tp with
  | none =>
    rw [wp, Processes.sysUserWait, Processes.withCurrent, get_bind]
    simp only [hc]
    exact trivial
  | some q =>
    rw [wp_sysUserWait hc]
    cases s.await q pid with
    | none => exact refl s
    | some o =>
      cases o with
      | none => exact block s
      | some i => exact setStatus (by decide) s

lemma claim {c : Pid} (hc : s.slot = some c) (f : Trapframe) :
    Undisturbed p s ((s.setStatus c .ready).setFrame c f) := by
  intro h
  have hpc : c ≠ p := by rintro rfl; exact h (Sched.slot_free hc)
  exact trans _ _ _ (setStatus (by decide) s) (setFrame hpc f _) h

lemma doFork (complete : Bool) (saved : Trapframe) (hs : s.status p ≠ .free) :
    wp (doFork tp q complete saved) (fun _ => Undisturbed p s) (Undisturbed p s) s := by
  rw [Processes.doFork, wp_bind]
  apply allocSlot_wp
  intro c hc
  have hpc : c ≠ p := by rintro rfl; exact hs (Sched.slot_free hc)
  simp only [wp_bind, wp_modify]
  cases complete with
  | true =>
    simp only [if_true, launchChild, wp_bind, wp_modify]
    refine insertToReadyQueue.after trans (trans _ _ _ (claim hc saved) ?_)
    exact trans _ _ _ (setStatus (q := c) (by decide) _) (setFrame hpc _ _)
  | false => exact retire.after trans (claim hc saved)

lemma doSyscall (op : Op) (hs : s.status p ≠ .free) :
    wp (doSyscall tp q op) (fun _ => Undisturbed p s) (Undisturbed p s) s := by
  cases op with
  | exit => exact retire s
  | yield => exact withCurrent (fun _ => giveUp) s
  | fork complete saved => exact doFork complete saved hs
  | wait pid => exact sysUserWait pid s
  | semNew v => exact doSemNew v s
  | semP sid => exact doSemP sid s
  | semV sid => exact doSemV sid s
  | other r => exact refl s

lemma dispatchTrap (cause : Cause) (hq : q ≠ p) (hs : s.status p ≠ .free) :
    wp (dispatchTrap tp q cause) (fun _ => Undisturbed p s) (Undisturbed p s) s := by
  cases cause with
  | ecall op =>
    rw [Processes.dispatchTrap, wp_handleSyscall]
    have hf := setFrame hq { s.frame q with epc := (s.frame q).epc + 4 } s
    refine wp_mono (doSyscall op (hf hs).1) ?_ (fun t ht => trans _ _ _ hf ht)
    exact fun r t ht => trans _ _ _ (trans _ _ _ hf ht) (setFrame hq _ t)
  | timer =>
    simp only [Processes.dispatchTrap, wp_bind]
    exact rrsched s
  | handled => exact refl s
  | fatal => exact retire s

lemma sStart (program : Option Trapframe) : Keeps (Undisturbed p) (sStart tp program) := by
  cases program with
  | none => exact schedule
  | some f =>
    intro s
    simp only [Processes.sStart, wp_bind]
    apply allocSlot_wp
    intro c hc
    simp only [wp_bind, wp_modify]
    exact wp_mono (insertToReadyQueue.after trans (claim hc f)) (fun _ t ht => schedule.after trans ht)
      (fun _ h => h)

lemma step {e : Event} {r : Option ℤ} (hp : ∀ tp, ¬ s.Runs tp p) (hs : Step s tp e r t) :
    Undisturbed p s t := by
  intro hfree
  have hwp : wp (e.run tp) (fun _ => Undisturbed p s) (Undisturbed p s) s := by
    cases e with
    | start program => exact sStart program s
    | resume => exact schedule s
    | trap user cause =>
      obtain ⟨q, hr⟩ := hs.runs
      have hq : q ≠ p := by rintro rfl; exact hp tp hr
      have hf := setFrame hq (cause.encode user) s
      rw [Event.run, wp_smodeTrapHandler hr.2]
      refine wp_mono (dispatchTrap cause hq (hf hfree).1) ?_ (fun t ht => trans _ _ _ hf ht)
      exact fun _ t ht => trans _ _ _ (trans _ _ _ hf ht) (switchTo t)
  rcases hs.of_wp hwp with h | ⟨-, h⟩ <;> exact h hfree

end Undisturbed

section Wait

variable {s t u : Sched} {p : Pid} {tp : ℕ} {pid : ℤ} {user : Trapframe} {r : Option ℤ}

end Wait

end Pke.Processes
