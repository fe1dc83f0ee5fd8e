import Pke.Memory.ForkSharing

namespace Pke.Memory

open Lib Flow Function Processes

variable {live : Finset Pid} {n : ℕ} {s t u : Vm} {p c : Pid} {garbage : ℕ → Bool}

structure Kin (p c : Pid) (s t : Vm) : Prop where
  others : ∀ q, q ≠ p → q ≠ c → t.space q = s.space q
  parent : t.space p = { s.space p with pagetable := (t.space p).pagetable }
  readable : (s.space p).pagetable.Readable → (t.space p).pagetable.Readable
  child : Legible (s.space c) → Legible (t.space c)

namespace Kin

lemma refl (s : Vm) : Kin p c s s := ⟨fun _ _ _ => rfl, rfl, id, id⟩

lemma trans (s t u : Vm) (h : Kin p c s t) (h' : Kin p c t u) : Kin p c s u := by
  refine ⟨fun q hq hq' => (h'.others q hq hq').trans (h.others q hq hq'), ?_, fun hr => h'.readable (h.readable hr),
    fun hr => h'.child (h.child hr)⟩
  rw [h'.parent, h.parent]

lemma heap (h : Kin p c s t) : (t.space p).userHeap = (s.space p).userHeap := by rw [h.parent]

lemma ready (h : Kin p c s t) (hr : Ready (s.space p)) : Ready (t.space p) := by
  rw [h.parent]
  exact ready_stable _ _ h.readable hr

lemma of_local (hpc : p ≠ c) (h : Local Legible c s t) : Kin p c s t :=
  ⟨fun q _ hq => h.others q hq, by rw [h.others p hpc], fun hr => by rwa [h.others p hpc], h.keeps⟩

lemma of_keeps {α : Type} (hpc : p ≠ c) {m : Flow Vm α} (h : Keeps (Local Legible c) m) :
    Keeps (Kin p c) m := fun s =>
  wp_mono (h s) (fun _ _ ht => of_local hpc ht) (fun _ ht => of_local hpc ht)

lemma userVmSetCow (hpc : p ≠ c) (va : ℕ) : Keeps (Kin p c) (userVmSetCow p va) := by
  intro s
  unfold Memory.userVmSetCow
  rw [wp_bind, wp_pageWalk_false]
  refine ⟨fun _ => refl s, fun _ => ?_⟩
  cases (s.space p).pagetable.walk va with
  | none => exact refl s
  | some v =>
    dsimp only
    rw [wp_bind, wp_get, wp_ite]
    refine ⟨fun _ => ⟨fun q hq _ => ?_, ?_, fun hr => ?_, ?_⟩, fun _ => refl s⟩
    · simp [Vm.setTable, hq]
    · simp [Vm.setTable]
    · simp only [Vm.setTable, Vm.setSpace_self]
      refine hr.setPte ?_ v
      exact hr v
    · simp [Vm.setTable, hpc.symm]

lemma incPageRef (pa : ℕ) : Keeps (Kin p c) (incPageRef pa) :=
  Keeps.get fun _ => Keeps.ite (Keeps.modify fun _ => ⟨fun _ _ _ => rfl, rfl, id, id⟩) (Keeps.pure refl _)

lemma shareBlock (hpc : p ≠ c) (b : ℕ) : Keeps (Kin p c) (shareBlock p c garbage b) := by
  refine Keeps.get fun s => Keeps.ite (Keeps.pure refl _) (Keeps.ite (Keeps.pure refl _) ?_)
  refine Keeps.bind trans (of_keeps hpc (Local.userVmMapCow legible_stable _ _ _)) fun _ => ?_
  exact Keeps.bind trans (userVmSetCow hpc b) fun _ => incPageRef _

lemma forkHeap (hpc : p ≠ c) (h : (List.range (s.space p).userHeap.freePagesCount).all
      fun i => (filterIndex (s.space p).userHeap i).isSome) :
    wp (forkHeap p c garbage) (fun _ => Kin p c s) (Kin p c s) s := by
  unfold Memory.forkHeap
  rw [wp_bind, wp_get, if_pos h]
  refine (Keeps.bind trans (Keeps.each refl trans (shareBlock hpc) _) fun _ => Keeps.modify fun s => ⟨?_, ?_, ?_, ?_⟩) s
  · intro q _ hq
    simp [hq]
  · simp [hpc]
  · simp [hpc]
  · simp [Legible]

lemma forkRegion (hpc : p ≠ c) (h : (List.range (s.space p).userHeap.freePagesCount).all
      fun i => (filterIndex (s.space p).userHeap i).isSome) (i : ℕ) :
    wp (forkRegion p c garbage i) (fun _ => Kin p c s) (Kin p c s) s := by
  by_cases hseg : ((s.space p).regions i).segType = .heap
  · unfold Memory.forkRegion
    rw [wp_bind, wp_get]
    dsimp only
    rw [hseg]
    exact forkHeap hpc h
  · exact wp_mono (Local.forkRegion legible_extends hseg) (fun _ _ ht => of_local hpc ht) (fun _ ht => of_local hpc ht)

lemma doFork (hpc : p ≠ c) (h : (List.range (s.space p).userHeap.freePagesCount).all
      fun i => (filterIndex (s.space p).userHeap i).isSome) :
    wp (doFork p c garbage) (fun _ => Kin p c s) (Kin p c s) s := by
  unfold Memory.doFork
  rw [wp_bind]
  refine wp_mono (of_keeps hpc Local.allocProcess s) (fun _ t ht => ?_) (fun _ h => h)
  rw [wp_bind, wp_get, wp_bind]
  refine wp_each (fun _ u => Kin p c s u) ht (fun i r u hu => ?_) (fun u hu => ?_)
  · refine wp_mono (forkRegion hpc (by rw [hu.heap]; exact h) i) (fun _ w hw => trans _ _ _ hu hw)
      (fun w hw => trans _ _ _ hu hw)
  · rw [wp_modify]
    exact trans _ _ _ hu ⟨fun q _ hq => by simp [hq], by simp [hpc], by simp [hpc], by simp [Legible]⟩

end Kin

lemma mem_pagesBelow {a b x : ℕ} (h : x ∈ pagesBelow a b) : a ≤ x ∧ x < b ∧ x % 4096 = a % 4096 := by
  obtain ⟨i, hi, rfl⟩ := List.mem_map.mp h
  rw [List.mem_range] at hi
  omega

lemma pagesBelow_pairwise (a b : ℕ) : (pagesBelow a b).Pairwise fun x y => y / 4096 ≠ x / 4096 := by
  unfold pagesBelow
  rw [List.pairwise_map]
  refine (List.pairwise_lt_range (n := (b - a + 4095) / 4096)).imp ?_
  intro i j hij
  omega

lemma Sharing.skip {rest : List ℕ} {b : ℕ} (h : Sharing live n p c s (b :: rest) u) : Sharing live n p c s rest u :=
  { h with room := fun b' hb' => h.room b' (by simp [hb']) }

lemma shareBlock_sharing {rest : List ℕ} {b : ℕ} (h : Sharing live n p c s (b :: rest) u) (hp : p ∈ live)
    (hc : c ∈ live) (hpc : c ≠ p) (hn : n + 1 < 2 ^ 16) (hrest : ∀ b' ∈ rest, b' / 4096 ≠ b / 4096)
    (hal : b % 4096 = 0) (hlow : userFreeAddressStart ≤ b) (hhigh : b < userStackTop) :
    wp (shareBlock p c garbage b) (fun _ => Sharing live n p c s rest) (Owned live noHand (n + 1)) u := by
  unfold shareBlock
  rw [wp_bind, wp_get, wp_ite]
  refine ⟨fun _ => h.skip, fun _ => ?_⟩
  dsimp only
  rw [wp_ite]
  refine ⟨fun _ => h.skip, fun hpa => ?_⟩
  obtain ⟨hlt, hv, hlookup⟩ := lookupPa_ne_zero hpa
  unfold userFreeAddressStart at hlow
  unfold userStackTop at hhigh
  have htidy := h.owned.tidy p hp
  have hu : (u.entry p (b / 4096)).u = true := by
    by_contra hn
    have := (htidy.kernelLeaf _ hv (Bool.eq_false_of_not_eq_true hn)).2.1
    omega
  have hx : (u.entry p (b / 4096)).x = false := by
    by_contra hn
    have hb : (u.entry p (b / 4096)).borrows = true := by
      simp [Pte.borrows, hv, hu, Bool.eq_true_of_not_eq_false hn]
    have := htidy.codeLow _ hb
    omega
  have hlocal : Keeps (Local Legible c) (mapPages c b 4096 (lookupPa u p b) cowPerm) :=
    Local.mapPages legible_stable _ _ _ rfl
  rw [userVmMapCow_eq, wp_bind, wp_bind]
  refine wp_mono (wp_and (mapPages_page h.owned hc (by omega) hal _ cowPerm) (hlocal u)) ?_ (fun _ h => h.1.owned)
  rintro _ w ⟨hcase, hl⟩
  rw [wp_pure, hlookup]
  rw [hlookup] at hcase
  refine h.share hp hc hpc hn hrest hlt (by omega) (by simp [Pte.owns, hv, hu, hx]) ?_ fun q hq => hl.others q hq
  exact hcase.imp (fun hg => hg.1) (fun hf => hf.2.2)

lemma forkHeap_owned (o : Owned live noHand n s) (hp : p ∈ live) (hc : c ∈ live) (hpc : c ≠ p) (hn : n + 1 < 2 ^ 16)
    (hfresh : Fresh live c s) (hready : Ready (s.space p)) (hchild : Ready (s.space c))
    (htop : (s.space p).userHeap.heapTop ≤ userStackTop)
    (hfilter : (List.range (s.space p).userHeap.freePagesCount).all
      fun i => (filterIndex (s.space p).userHeap i).isSome) :
    wp (forkHeap p c garbage) (fun _ t => Owned live noHand (n + 1) t ∧ Ready (t.space c) ∧
      (t.space c).totalMappedRegion = (s.space c).totalMappedRegion) (Owned live noHand (n + 1)) s := by
  unfold forkHeap
  rw [wp_bind, wp_get, if_pos hfilter, wp_bind, hready.bottom]
  have hstart : Sharing live n p c s (pagesBelow userFreeAddressStart (s.space p).userHeap.heapTop) s := by
    refine ⟨o.mono (Nat.le_succ n), .refl s, fun _ _ _ => rfl, fun b _ f hf => ⟨o.bound f, fun w hw => ?_⟩⟩
    have := o.counted.sole (hfresh w f hw) hf hw
    exact hpc (Use.spot.inj this).1.symm
  refine wp_each (fun l u => (Sharing live n p c s l u ∧ Kin p c s u) ∧ l.Pairwise (fun x y => y / 4096 ≠ x / 4096) ∧
    ∀ b ∈ l, b % 4096 = 0 ∧ userFreeAddressStart ≤ b ∧ b < userStackTop)
    ⟨⟨hstart, .refl s⟩, pagesBelow_pairwise _ _, fun b hb => ?_⟩ ?_ ?_
  · obtain ⟨h₁, h₂, h₃⟩ := mem_pagesBelow hb
    exact ⟨h₃, h₁, h₂.trans_le htop⟩
  · rintro b l u ⟨⟨hu, hkin⟩, hpair, hl⟩
    rw [List.pairwise_cons] at hpair
    obtain ⟨h₁, h₂, h₃⟩ := hl b (by simp)
    refine wp_mono (wp_and (shareBlock_sharing hu hp hc hpc hn hpair.1 h₁ h₂ h₃) (Kin.shareBlock hpc.symm b u)) ?_
      (fun _ h => h.1)
    exact fun _ w hw => ⟨⟨hw.1, Kin.trans _ _ _ hkin hw.2⟩, hpair.2, fun b' hb' => hl b' (by simp [hb'])⟩
  · rintro u ⟨⟨hu, hkin⟩, -, -⟩
    rw [wp_modify]
    refine ⟨hu.owned.setFields hc _ rfl rfl rfl rfl fun i => ?_, ?_, ?_⟩
    · by_cases hi : i = 3
      · subst hi
        right
        have := (hu.owned.tidy c hc).imageRegion 3
        unfold Fits
        cases hseg : ((u.space c).regions 3).segType with
        | code => exact absurd rfl (this (.inl hseg)).1
        | data => exact absurd rfl (this (.inr hseg)).1
        | _ => simp [hseg]
      · exact .inl (by simp [hi])
    · have hheap : (u.space p).userHeap = (s.space p).userHeap := by rw [hu.same.fields p]
      rw [Vm.setSpace_self, hheap]
      have hformed : Formed (u.space c) := hchild.formed.congr (by rw [hu.same.fields c]) (by rw [hu.same.fields c])
      exact ⟨hready.bottom, hready.recorded, (hformed.resize _).congr rfl rfl, hkin.child hchild.readable⟩
    · rw [Vm.setSpace_self, hu.same.fields c]

structure Forking (live : Finset Pid) (n : ℕ) (p c : Pid) (s : Vm) (rest : List ℕ) (u : Vm) : Prop where
  owned : Owned live noHand (n + 1) u
  early : 3 ∈ rest → Owned live noHand n u ∧ Fresh live c u
  nodup : rest.Nodup
  total : 4 ≤ (u.space c).totalMappedRegion
  ready : Ready (u.space c)
  kin : Kin p c s u

lemma forkRegion_forking {rest : List ℕ} {i : ℕ} (h : Forking live n p c s (i :: rest) u) (hp : p ∈ live) (hc : c ∈ live)
    (hpc : c ≠ p) (hn1 : 1 ≤ n) (hn : n + 1 < 2 ^ 16) (hready : Ready (s.space p))
    (htop : (s.space p).userHeap.heapTop ≤ userStackTop)
    (hfilter : (List.range (s.space p).userHeap.freePagesCount).all
      fun i => (filterIndex (s.space p).userHeap i).isSome) :
    wp (forkRegion p c garbage i) (fun _ => Forking live n p c s rest) (Owned live noHand (n + 1)) u := by
  have hheap := h.kin.heap
  obtain ⟨hi, hnodup⟩ := List.nodup_cons.mp h.nodup
  have hkin : wp (forkRegion p c garbage i) (fun _ t => Kin p c s t) (fun _ => True) u :=
    wp_mono (Kin.forkRegion hpc.symm (by rw [hheap]; exact hfilter) i)
      (fun _ t ht => Kin.trans _ _ _ h.kin ht) (fun _ _ => trivial)
  by_cases hseg : ((u.space p).regions i).segType = .heap
  · have hi3 : i = 3 := (h.owned.tidy p hp).heapRegion i hseg
    subst hi3
    obtain ⟨ho, hfresh⟩ := h.early (by simp)
    have hfork : wp (forkRegion p c garbage 3) (fun _ t => Owned live noHand (n + 1) t ∧ Ready (t.space c) ∧
        (t.space c).totalMappedRegion = (u.space c).totalMappedRegion) (Owned live noHand (n + 1)) u := by
      unfold forkRegion
      rw [wp_bind, wp_get]
      dsimp only
      rw [hseg]
      exact forkHeap_owned ho hp hc hpc hn hfresh (h.kin.ready hready) h.ready
        (by rw [hheap]; exact htop) (by rw [hheap]; exact hfilter)
    refine wp_mono (wp_and hfork hkin) ?_ (fun _ h => h.1)
    rintro _ t ⟨⟨ot, hr, htotal⟩, hk⟩
    exact ⟨ot, fun h3 => absurd h3 hi, hnodup, htotal ▸ h.total, hr, hk⟩
  · have hlocal : wp (forkRegion p c garbage i) (fun _ => Local Ready c u) (fun _ => True) u :=
      wp_mono (Local.forkRegion ready_extends hseg) (fun _ _ h => h) (fun _ _ => trivial)
    have hearly : wp (forkRegion p c garbage i)
        (fun _ t => 3 ∈ rest → Owned live noHand n t ∧ Fresh live c t) (fun _ => True) u := by
      by_cases h3 : 3 ∈ rest
      · obtain ⟨ho, hfresh⟩ := h.early (by simp [h3])
        exact wp_mono (forkRegion_grafted ho hp hc hn1 hseg h.total) (fun _ t ht _ => ⟨ht.1, ht.2.1 hfresh⟩)
          (fun _ _ => trivial)
      · exact wp_mono hkin (fun _ _ _ h => absurd h h3) (fun _ _ => trivial)
    refine wp_mono (wp_and (wp_and (forkRegion_grafted h.owned hp hc (by omega) hseg h.total) hearly)
      (wp_and hlocal hkin)) ?_ (fun _ h => h.1.1)
    rintro _ t ⟨⟨⟨ot, -, htotal⟩, he⟩, hl, hk⟩
    exact ⟨ot, he, hnodup, htotal h.total, hl.keeps h.ready, hk⟩

lemma doFork_owned (o : Owned live noHand n s) (hp : p ∈ live) (hc : c ∈ live) (hpc : c ≠ p) (hn1 : 1 ≤ n)
    (hn : n + 1 < 2 ^ 16) (hblank : s.space c = {}) (hready : Ready (s.space p))
    (htop : (s.space p).userHeap.heapTop ≤ userStackTop)
    (hfilter : (List.range (s.space p).userHeap.freePagesCount).all
      fun i => (filterIndex (s.space p).userHeap i).isSome) :
    wp (doFork p c garbage) (fun _ t => Owned live noHand (n + 1) t ∧ Ready (t.space c))
      (Owned live noHand (n + 1)) s := by
  unfold doFork
  rw [wp_bind]
  refine wp_mono (allocProcess_ready o hc hn1 hblank) ?_ (fun _ h => h.mono (Nat.le_succ n))
  rintro _ t ⟨hchild, st, tf, ks, mi, files, htf, hborn⟩
  have hfields := hborn.fields
  have hkin : Kin p c s t := ⟨fun q _ hq => hborn.others q hq, by rw [hborn.others p hpc.symm],
    fun hr => by rwa [hborn.others p hpc.symm], fun _ => hchild.readable⟩
  have hfresh : Fresh live c t := by
    intro v f hf
    obtain ⟨-, hframe, hm⟩ := usesOf_eq_some.mp hf
    change (t.entry c v).owned = some f at hframe
    unfold Pte.owned Pte.owns at hframe
    split_ifs at hframe with howns
    simp only [Bool.and_eq_true] at howns
    have hpage := hborn.user v howns.1.1 howns.1.2
    have hstack := hborn.stack
    rw [← hpage] at hstack
    rw [hstack, Pte.leaf_pa hborn.aligned] at hframe
    rw [← Option.some.inj hframe] at hm ⊢
    exact hborn.fresh ((hborn.draws.bounds.managed _).mp hm)
  rw [wp_bind, wp_get, wp_bind]
  refine wp_each (Forking live n p c s) ⟨hborn.owned.mono (Nat.le_succ n), fun _ => ⟨hborn.owned, hfresh⟩,
    List.nodup_range, ?_, hchild, hkin⟩ (fun i r u hu => forkRegion_forking hu hp hc hpc hn1 hn hready htop hfilter) ?_
  · rw [hfields]
    exact le_refl 4
  · intro u hu
    rw [wp_modify]
    refine ⟨hu.owned.setFields hc _ rfl rfl rfl rfl fun _ => .inl rfl, ?_⟩
    rw [Vm.setSpace_self]
    exact ⟨hu.ready.bottom, hu.ready.recorded, hu.ready.formed.congr rfl rfl, hu.ready.readable⟩

end Pke.Memory
