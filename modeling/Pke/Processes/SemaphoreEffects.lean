import Pke.Processes.Effects

namespace Pke.Processes

open Lib Flow Function

namespace Account

def acquire (p : Pid) (a : Account) : Account :=
  if 0 < a.value then { a with value := a.value - 1 } else { a with waiting := a.waiting ++ [p] }

def release (a : Account) : Account :=
  match a.waiting with
  | [] => { a with value := toInt (a.value + 1) }
  | _ :: l => { a with value := toInt (toInt (a.value + 1) - 1), waiting := l }

end Account

variable {busy : Set ℕ} {s t : Sched} {queue : Queue → List Pid} {p : Pid} {tp : ℕ} {α : Type}
  {i : Fin nsem}

lemma Sched.semaphore_ifuse {sid : ℕ} (h : s.semaphore sid = some i) : (s.semTable i).ifuse = true := by
  unfold Sched.semaphore at h
  split_ifs at h with h₁ h₂
  rw [← Option.some.inj h]
  exact h₂

lemma joinWaitQueue_wp {E : Sched → Prop} (h : Discipline busy s queue) (hp : ∀ q, p ∉ queue q) :
    wp (joinWaitQueue i p) (fun _ t => Linked s (t.setStatus p .blocked) (some i) p (queue (some i)) ∧
      (∀ j, (t.semTable j).value = (s.semTable j).value) ∧ t.status = s.status) E s := by
  have hchain := (h.chain (some i)).update_of_notMem (hp (some i)) none
  simp only [joinWaitQueue, wp_bind, wp_modify, wp_get]
  rw [show ((s.setNext p none).semTable i).waitQueue = (s.semTable i).waitQueue from rfl]
  cases hw : (s.semTable i).waitQueue with
  | none =>
    have hnil : queue (some i) = [] := Chain.unique hchain (by simpa [Sched.head] using hw)
    simp only [wp_modify]
    refine ⟨⟨?_, ?_, ?_, rfl, rfl, rfl, ?_⟩, ?_, rfl⟩
    · simp [hnil, Sched.setSem, Sched.setNext, Sched.setStatus]
    · simp [hnil, Sched.head, Sched.setSem, Sched.setStatus]
    · intro r hr
      cases r with
      | none => rfl
      | some j =>
        have hj : j ≠ i := fun e => hr (by rw [e])
        simp [Sched.head, Sched.setSem, Sched.setNext, Sched.setStatus, hj]
    · intro j
      by_cases hj : j = i
      · subst hj
        simp [Sched.setSem, Sched.setNext, Sched.setStatus]
      · simp [Sched.setSem, Sched.setNext, Sched.setStatus, hj]
    · intro j
      by_cases hj : j = i
      · subst hj
        simp [Sched.setSem, Sched.setNext]
      · simp [Sched.setSem, Sched.setNext, hj]
  | some w =>
    have hne : queue (some i) ≠ [] := by
      intro e
      rw [e, Chain.nil_iff] at hchain
      simp [Sched.head, hw] at hchain
    have hlast : (queue (some i)).getLast hne ≠ p := fun e => hp (some i) (e ▸ List.getLast_mem hne)
    rw [Sched.head, hw] at hchain
    simp only [Sched.setNext, lastOf_chain hchain (h.card_le (some i)) hne, wp_modify]
    refine ⟨⟨?_, ?_, ?_, rfl, rfl, rfl, fun _ => rfl⟩, fun _ => trivial, trivial⟩
    · simp only [Sched.setStatus, List.getLast?_eq_some_getLast hne]
      exact update_comm hlast.symm _ _ _
    · simp [hne, Sched.head, Sched.setStatus]
    · intro r hr
      cases r <;> rfl

lemma doSemP_pass (h : Discipline ∅ s queue) (hv : 0 < (s.semTable i).value) :
    Settles s.status (update (account s queue) i ((account s queue i).acquire p))
      (s.setSem i { s.semTable i with value := (s.semTable i).value - 1 }) := by
  refine ⟨queue, h.setValue i _, ?_, fun _ => .inl rfl⟩
  funext j
  by_cases hj : j = i
  · subst hj
    simp [account, Account.acquire, hv, Sched.setSem]
  · simp [account, Sched.setSem, hj]

lemma doSemP_block {Q : ℤ → Sched → Prop} (h : Discipline ∅ s queue) (hr : s.Runs tp p)
    (hi : (s.semTable i).ifuse = true) (hv : ¬ 0 < (s.semTable i).value) :
    wp (joinWaitQueue i p >>= fun _ => block tp p) Q (Settles (update s.status p .blocked)
      (update (account s queue) i ((account s queue i).acquire p))) s := by
  have hq := h.running_unqueued hr
  rw [wp_bind]
  refine wp_mono (joinWaitQueue_wp (i := i) (h.enter tp) hq) ?_ (fun _ h => h)
  rintro _ t ⟨hl, hval, hst⟩
  have hd := (h.enter tp).link hq (h.only_here hr) (by rintro j ⟨⟩; exact hi) hl
  simp only [block, wp_bind, wp_modify]
  refine wp_mono (schedule_settles hd) (fun _ _ h => h) ?_
  intro u hu
  have hx : (t.setStatus p .blocked).status = update s.status p .blocked := by
    simp [Sched.setStatus, hst]
  have ha : account (t.setStatus p .blocked) (update queue (some i) (queue (some i) ++ [p])) =
      update (account s queue) i ((account s queue i).acquire p) := by
    funext j
    have hif : (t.semTable j).ifuse = (s.semTable j).ifuse := hl.ifuse j
    by_cases hj : j = i
    · subst hj
      simp [account, Account.acquire, hv, hval, hif, Sched.setStatus]
    · simp [account, hval, hif, hj, Sched.setStatus]
  rwa [hx, ha] at hu

lemma doSemV_wake {E : Sched → Prop} {w : Pid} {l : List Pid} (h : Discipline ∅ s queue)
    (hl : queue (some i) = w :: l) (v : ℤ) :
    wp (insertToReadyQueue w) (fun _ t => Settles (update s.status w .ready)
        (update (account s queue) i { account s queue i with value := v, waiting := l }) t ∧
      t.status = update s.status w .ready ∧ t.current = s.current ∧ t.mode = s.mode) E
      ((s.setSem i { s.semTable i with value := v, waitQueue := s.queueNext w }).setNext w none) := by
  have hb : s.status w = .blocked := h.status (some i) w (by simp [hl])
  have hu : Unlinked s ((s.setSem i { s.semTable i with value := v, waitQueue := s.queueNext w }).setNext
      w none) (some i) w := by
    refine ⟨rfl, ?_, ?_, rfl, rfl, rfl, ?_⟩
    · simp [Sched.head, Sched.setSem, Sched.setNext]
    · intro r hr
      cases r with
      | none => rfl
      | some j =>
        have hj : j ≠ i := fun e => hr (by rw [e])
        simp [Sched.head, Sched.setSem, Sched.setNext, hj]
    · intro j
      by_cases hj : j = i
      · subst hj
        simp [Sched.setSem, Sched.setNext]
      · simp [Sched.setSem, Sched.setNext, hj]
  have hd := h.unlink hl hu
  refine wp_mono (insertToReadyQueue_wp hd (h.mem_tail hl) (hd.not_running (by simp [Sched.setNext, Sched.setSem, hb]))
    (by simp [Sched.setNext, Sched.setSem, hb]) (by simp [Sched.setNext, Sched.setSem, hb])) ?_ (fun _ h => h)
  rintro _ t ⟨ht, -, hsem, -, hst, hcur, hmode⟩
  refine ⟨⟨_, ht, ?_, fun q => .inl (by rw [hst]; rfl)⟩, hst, hcur, hmode⟩
  funext j
  by_cases hj : j = i
  · subst hj
    simp [account, hsem, Sched.setNext, Sched.setSem]
  · simp [account, hsem, hj, Sched.setNext, Sched.setSem]

end Pke.Processes
