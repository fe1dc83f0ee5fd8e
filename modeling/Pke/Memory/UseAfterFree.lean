import Pke.Memory.ForkCalls
import Pke.Memory.Machine

/-! No frame on the free list is in use by a process that is not a zombie. -/

namespace Pke.Memory

open Lib Flow Function Processes Machine

variable {live live' : Finset Pid} {hand : ℕ → Option ℕ} {n : ℕ} {v : Vm} {p c : Pid} {s : Machine}

def Space.Uses (a : Space) (f : ℕ) : Prop :=
  (∃ v, (a.pagetable.entry v).v = true ∧ (a.pagetable.entry v).pa = f) ∨ a.trapframe = f ∨ a.kstack - 4096 = f ∨
    a.mappedInfo = f ∨ a.pagetable.dir = f ∨ (∃ i, a.pagetable.mid i = some f) ∨ ∃ j, a.pagetable.lowAt j = some f

def NoUseAfterFree (s : Machine) : Prop :=
  ∀ f ∈ s.vm.pmm.gFreeMemList, ∀ p, s.phase p ≠ .zombie → ¬ (s.vm.space p).Uses f

def Careful (s : Machine) : Event → Prop
  | .load image _ => (∀ ph ∈ image, ph.Placed) ∧ image.length + 4 ≤ maxRegions
  | .act p (.fork _) => (s.vm.space p).userHeap.heapTop ≤ userStackTop ∧
      (List.range (s.vm.space p).userHeap.freePagesCount).all fun i => (filterIndex (s.vm.space p).userHeap i).isSome
  | .act p .allocatePage => (s.vm.space p).userHeap.freePagesCount = 0 →
      (s.vm.space p).userHeap.heapTop % 4096 = 0 ∨ lookupPa s.vm p (s.vm.space p).userHeap.heapTop ≠ 0
  | .act p (.freePage va) => (s.vm.space p).userHeap.freePagesCount < maxHeapPages ∧
      (va < maxva → Releasable s.live s.vm p (va / 4096))
  | .act p (.betterFree va) => ∀ a ∈ freedPages s.vm p va, a < maxva → Releasable s.live s.vm p (a / 4096)
  | _ => True

lemma Owned.blank_uses (o : Owned live hand n v) (hc : v.space c = {}) (w : Spot) :
    v.managed ((v.space c).frameAt w) = none := by
  rw [hc]
  have hnull := o.null_unmanaged
  cases w <;> simp [Space.frameAt, Vm.managed, hnull, PageTable.lowAt, PageTable.entry_eq, PageTable.Has, Pte.owned,
    Pte.owns, Option.filter_some]

lemma blank_entry (hc : v.space c = {}) (w : ℕ) : v.entry c w = {} := by
  rw [Vm.entry, hc]
  exact PageTable.entry_dir 0 w

lemma Owned.welcome (o : Owned live hand n v) (hc : v.space c = {}) : Owned (insert c live) hand n v := by
  have huses : ∀ u f, usesOf (insert c live) hand v u = some f → usesOf live hand v u = some f := by
    intro u f hu
    cases u with
    | hand k => exact hu
    | spot q w =>
      by_cases hq : q ∈ live
      · rw [usesOf_spot (Finset.mem_insert_of_mem hq)] at hu
        rwa [usesOf_spot hq]
      · obtain ⟨hmem, hframe, hm⟩ := usesOf_eq_some.mp hu
        rcases Finset.mem_insert.mp hmem with rfl | h
        · have := o.blank_uses hc w
          rw [managed_eq_some.mpr ⟨hframe, hm⟩] at this
          exact absurd this (by simp)
        · exact absurd h hq
  have hborrow : borrowed (insert c live) v ⊆ borrowed live v := by
    rintro f ⟨hm, q, hq, w, hb, hpa⟩
    rcases Finset.mem_insert.mp hq with rfl | hq
    · rw [blank_entry hc] at hb
      exact absurd hb (by decide)
    · exact ⟨hm, q, hq, w, hb, hpa⟩
  refine ⟨o.counted.forget huses hborrow, o.managed, o.sole, o.bound, ?_, ?_, o.layout⟩
  · intro q hq x y f hx hy
    have hx' := huses _ _ hx
    exact o.once q (usesOf_eq_some.mp hx').1 x y f hx' (huses _ _ hy)
  · intro q hq
    rcases Finset.mem_insert.mp hq with rfl | hq
    · rw [hc]
      exact Tidy.of_empty (fun w => PageTable.entry_dir 0 w) fun _ => rfl
    · exact o.tidy q hq

lemma Owned.retire (o : Owned live hand n v) (hsub : live' ⊆ live) : Owned live' hand n v := by
  have huses : ∀ u f, usesOf live' hand v u = some f → usesOf live hand v u = some f := by
    intro u f hu
    cases u with
    | hand k => exact hu
    | spot q w =>
      obtain ⟨hq, h⟩ := usesOf_eq_some.mp hu
      exact usesOf_eq_some.mpr ⟨hsub hq, h⟩
  refine ⟨o.counted.forget huses ?_, o.managed, o.sole, o.bound, ?_, fun q hq => o.tidy q (hsub hq), o.layout⟩
  · rintro f ⟨hm, q, hq, w, hb, hpa⟩
    exact ⟨hm, q, hsub hq, w, hb, hpa⟩
  · intro q hq x y f hx hy
    exact o.once q (hsub hq) x y f (huses _ _ hx) (huses _ _ hy)

lemma Owned.not_uses (o : Owned live noHand n v) {f : ℕ} (hf : f ∈ v.pmm.gFreeMemList) (hp : p ∈ live) :
    ¬ (v.space p).Uses f := by
  have hm := o.managed f hf
  have hspot : ∀ w, (v.space p).frameAt w ≠ some f := by
    intro w hw
    have huse : usesOf live noHand v (.spot p w) = some f := usesOf_eq_some.mpr ⟨hp, hw, hm⟩
    exact o.counted.not_free_of_uses huse hf
  rintro (⟨w, hv, hpa⟩ | h | h | h | h | ⟨i, h⟩ | ⟨j, h⟩)
  · by_cases hu : ((v.space p).pagetable.entry w).u = true
    · cases hx : ((v.space p).pagetable.entry w).x with
      | true =>
        exact o.counted.not_free_of_pinned ⟨hm, p, hp, w, by simp [Pte.borrows, Vm.entry, hv, hu, hx], hpa⟩ hf
      | false => exact hspot (.leaf w) (by simp [Space.frameAt, Pte.owned, Pte.owns, hv, hu, hx, hpa])
    · rcases ((o.tidy p hp).kernelLeaf w hv (Bool.eq_false_of_not_eq_true hu)).2.2 with h | h
      · exact hspot .trapframe (by rw [← hpa, h]; rfl)
      · exact h (hpa ▸ hm)
  · exact hspot .trapframe (by rw [← h]; rfl)
  · exact hspot .kstack (by rw [← h]; rfl)
  · exact hspot .mappedInfo (by rw [← h]; rfl)
  · exact hspot .dir (by rw [← h]; rfl)
  · exact hspot (.mid i) h
  · exact hspot (.low j) h

structure Sound (s : Machine) : Prop where
  owned : Owned s.live noHand (s.used + 1) s.vm
  ready : ∀ p, s.phase p = .active → Ready (s.vm.space p)
  blank : ∀ p, s.phase p = .free → s.vm.space p = {}

lemma Sound.noUseAfterFree (h : Sound s) : NoUseAfterFree s := by
  intro f hf p hz
  cases hphase : s.phase p with
  | zombie => exact absurd hphase hz
  | building => exact h.owned.not_uses hf (by simp [Machine.live, hphase])
  | active => exact h.owned.not_uses hf (by simp [Machine.live, hphase])
  | free =>
    have hblank := h.blank p hphase
    have hne : f ≠ 0 := fun e => h.owned.null_unmanaged (e ▸ h.owned.managed f hf)
    rw [hblank]
    rintro (⟨w, hv, -⟩ | h | h | h | h | ⟨i, h⟩ | ⟨j, h⟩)
    · rw [show ({} : Space).pagetable.entry w = {} from PageTable.entry_dir 0 w] at hv
      exact absurd hv (by decide)
    · exact hne h.symm
    · exact hne h.symm
    · exact hne h.symm
    · exact hne h.symm
    · exact absurd h (by simp)
    · exact absurd h (by simp [PageTable.lowAt])

lemma live_setPhase_active {s : Machine} (h : s.phase c = .building) : (s.setPhase c .active).live = s.live := by
  ext q
  by_cases hq : q = c
  · simp [hq, h]
  · simp [hq]

lemma live_setPhase_building {s : Machine} : (s.setPhase c .building).live = insert c s.live := by
  ext q
  by_cases hq : q = c
  · simp [hq]
  · simp [hq]

lemma live_setPhase_zombie {s : Machine} : (s.setPhase p .zombie).live ⊆ s.live := by
  intro q hq
  by_cases hqp : q = p
  · simp [hqp] at hq
  · simpa [hqp] using hq

lemma used_setPhase {s : Machine} {x : Phase} (h : s.phase p ≠ .free) (hx : x ≠ .free) :
    (s.setPhase p x).used = s.used := by
  unfold Machine.used
  congr 1
  ext q
  rw [Finset.mem_filter, Finset.mem_filter, phase_setPhase]
  by_cases hq : q = p
  · simp [hq, h, hx]
  · simp [hq]

lemma used_setPhase_building {s : Machine} (h : s.phase c = .free) : (s.setPhase c .building).used = s.used + 1 := by
  have hins : (Finset.univ.filter fun q => (s.setPhase c .building).phase q ≠ .free) =
      insert c (Finset.univ.filter fun q => s.phase q ≠ .free) := by
    ext q
    rw [Finset.mem_insert, Finset.mem_filter, Finset.mem_filter, phase_setPhase]
    by_cases hq : q = c
    · simp [hq]
    · simp [hq]
  unfold Machine.used
  rw [hins, Finset.card_insert_of_notMem (by simp [h])]

lemma used_le (s : Machine) : s.used ≤ nproc := (Finset.card_filter_le _ _).trans (by simp [nproc])

lemma Sound.zombie (h : Sound s) (hp : s.phase p ≠ .free) : Sound (s.setPhase p .zombie) where
  owned := by
    rw [used_setPhase hp (by decide)]
    exact h.owned.retire live_setPhase_zombie
  ready q hq := by
    by_cases hqp : q = p
    · simp [Machine.setPhase, hqp] at hq
    · exact h.ready q (by simpa [Machine.setPhase, hqp] using hq)
  blank q hq := by
    by_cases hqp : q = p
    · simp [Machine.setPhase, hqp] at hq
    · exact h.blank q (by simpa [Machine.setPhase, hqp] using hq)

lemma Sound.setVm (h : Sound s) (hp : s.phase p = .active) (o : Owned s.live noHand (s.used + 1) v)
    (hl : Local Ready p s.vm v) : Sound { s with vm := v } where
  owned := o
  ready q hq := by
    by_cases hqp : q = p
    · rw [hqp]
      exact hl.keeps (h.ready p hp)
    · change Ready (v.space q)
      rw [hl.others q hqp]
      exact h.ready q hq
  blank q hq := by
    have hqp : q ≠ p := by
      rintro rfl
      rw [show s.phase q = .free from hq] at hp
      cases hp
    change v.space q = {}
    rw [hl.others q hqp]
    exact h.blank q hq

lemma onVm_sound {α : Type} (h : Sound s) (hp : s.phase p = .active) {m : Flow Vm α}
    (hm : wp m (fun _ => Owned s.live noHand (s.used + 1)) (Owned s.live noHand (s.used + 1)) s.vm)
    (hl : wp m (fun _ => Local Ready p s.vm) (Local Ready p s.vm) s.vm) : wp (onVm p m) (fun _ => Sound) Sound s := by
  refine wp_within (wp_mono (wp_and hm hl) ?_ ?_)
  · exact fun _ t ht => h.setVm hp ht.1 ht.2
  · intro t ht
    rw [wp_bind, wp_modify, wp_leave]
    exact (h.setVm hp ht.1 ht.2).zombie (by rw [show _ = s.phase p from rfl, hp]; decide)

lemma wp_allocSlot {Q : Pid → Machine → Prop} {E : Machine → Prop}
    (h : ∀ c, s.phase c = .free → Q c (s.setPhase c .building)) : wp Machine.allocSlot Q E s := by
  unfold Machine.allocSlot
  rw [wp_bind, wp_get]
  split
  · exact wp_halt
  · next c hc =>
    rw [wp_bind, wp_modify]
    exact h c (by simpa using List.find?_some hc)

lemma sysUserFreePage_local (o : Owned live noHand n v) (hp : p ∈ live) {va : ℕ}
    (hr : va < maxva → Releasable live v p (va / 4096))
    (hcount : (v.space p).userHeap.freePagesCount < maxHeapPages) :
    wp (sysUserFreePage p va) (fun _ => Local Ready p v) (Local Ready p v) v := by
  unfold sysUserFreePage
  rw [wp_bind]
  refine wp_mono (wp_and (userVmUnmap_owned o hp hr (fun _ _ _ => by simp [noHand])) (Local.userVmUnmap ready_stable va 4096 true v)) ?_
    (fun _ h => h.2)
  rintro _ t ⟨⟨-, hshrink, hva⟩, hl⟩
  have hheap : (t.space p).userHeap = (v.space p).userHeap := by rw [hshrink.same.fields p]
  rw [wp_bind, wp_get, hheap, if_pos hcount, wp_bind, wp_modify]
  refine Local.trans _ _ _ hl (Local.setSpace t fun hr => ⟨hr.bottom, fun i hi => ?_, hr.formed.congr rfl rfl, hr.readable⟩)
  dsimp only at hi ⊢
  by_cases hlast : i = (t.space p).userHeap.freePagesCount
  · rw [hlast, update_self]
    exact hva
  · rw [update_of_ne hlast]
    exact hr.recorded i (by omega)

lemma sound_fill (hc : s.phase c = .free) {t : Vm}
    (o : Owned (insert c s.live) noHand (s.used + 1 + 1) t)
    (hready : ∀ q, s.phase q = .active → Ready (t.space q))
    (hblank : ∀ q, q ≠ c → s.phase q = .free → t.space q = {}) : Sound { s.setPhase c .building with vm := t } where
  owned := by
    change Owned (s.setPhase c .building).live noHand ((s.setPhase c .building).used + 1) t
    rwa [live_setPhase_building, used_setPhase_building hc]
  ready q hq := by
    have hqc : q ≠ c := by
      rintro rfl
      simp at hq
    exact hready q (by simpa [hqc] using hq)
  blank q hq := by
    have hqc : q ≠ c := by
      rintro rfl
      simp at hq
    exact hblank q hqc (by simpa [hqc] using hq)

lemma Sound.launch (h : Sound s) (hc : s.phase c = .building) (hr : Ready (s.vm.space c)) :
    Sound (s.setPhase c .active) where
  owned := by
    rw [live_setPhase_active hc, used_setPhase (by rw [hc]; decide) (by decide)]
    exact h.owned
  ready q hq := by
    by_cases hqc : q = c
    · rw [hqc]
      exact hr
    · exact h.ready q (by simpa [hqc] using hq)
  blank q hq := by
    by_cases hqc : q = c
    · simp [hqc] at hq
    · exact h.blank q (by simpa [hqc] using hq)

lemma fork_sound (h : Sound s) {garbage : ℕ → Bool} (hp : s.phase p = .active) (hc : Careful s (.act p (.fork garbage))) :
    wp (Act.run p (.fork garbage)) (fun _ => Sound) Sound s := by
  rw [Act.run, wp_bind]
  refine wp_allocSlot fun c hfree => ?_
  have hpc : c ≠ p := by
    rintro rfl
    rw [hp] at hfree
    cases hfree
  have hle := used_le s
  have hfork : wp (doFork p c garbage) (fun _ t => Owned (insert c s.live) noHand (s.used + 1 + 1) t ∧ Ready (t.space c))
      (Owned (insert c s.live) noHand (s.used + 1 + 1)) s.vm :=
    doFork_owned (h.owned.welcome (h.blank c hfree)) (by simp [hp]) (by simp) hpc (by omega)
      (by unfold nproc at hle; omega) (h.blank c hfree) (h.ready p hp) hc.1 hc.2
  have hkin : wp (doFork p c garbage) (fun _ => Kin p c s.vm) (Kin p c s.vm) s.vm := Kin.doFork hpc.symm hc.2
  have hfill : ∀ t, Owned (insert c s.live) noHand (s.used + 1 + 1) t → Kin p c s.vm t →
      Sound { s.setPhase c .building with vm := t } := by
    intro t ot hk
    refine sound_fill hfree ot (fun q hq => ?_) fun q hqc hq => ?_
    · have hqc : q ≠ c := by
        rintro rfl
        rw [hq] at hfree
        cases hfree
      by_cases hqp : q = p
      · rw [hqp]
        exact hk.ready (h.ready p hp)
      · rw [hk.others q hqp hqc]
        exact h.ready q hq
    · have hqp : q ≠ p := by
        rintro rfl
        rw [hp] at hq
        cases hq
      rw [hk.others q hqp hqc]
      exact h.blank q hq
  rw [wp_bind]
  refine wp_within (wp_mono (wp_and hfork hkin) ?_ ?_)
  · rintro _ t ⟨⟨ot, hr⟩, hk⟩
    rw [wp_modify]
    exact (hfill t ot hk).launch (by simp) hr
  · rintro t ⟨ot, hk⟩
    rw [wp_bind, wp_modify, wp_leave]
    refine (hfill t ot hk).zombie ?_
    simp [hpc.symm, hp]

lemma act_sound (h : Sound s) {a : Act} (hp : s.phase p = .active) (hc : Careful s (.act p a)) :
    wp (a.run p) (fun _ => Sound) Sound s := by
  have hlive : p ∈ s.live := by simp [hp]
  have hn : 1 ≤ s.used + 1 := by omega
  have hready := h.ready p hp
  cases a with
  | allocatePage =>
    rw [Act.run, wp_bind]
    exact onVm_sound h hp (sysUserAllocatePage_owned h.owned hlive hn hready.recorded hc) (Local.sysUserAllocatePage s.vm)
  | freePage va =>
    rw [Act.run, wp_bind]
    exact onVm_sound h hp (sysUserFreePage_owned h.owned hlive hc.2 hc.1) (sysUserFreePage_local h.owned hlive hc.2 hc.1)
  | betterMalloc size =>
    rw [Act.run, wp_bind]
    exact onVm_sound h hp (userBetterMalloc_owned h.owned hlive hn size) (Local.userBetterMalloc size s.vm)
  | betterFree va => exact onVm_sound h hp (userBetterFree_owned h.owned hlive hc) (Local.userBetterFree va s.vm)
  | storeFault va => exact onVm_sound h hp (storePageFault_owned h.owned hlive hn va) (Local.storePageFault va s.vm)
  | store va b => exact h.setVm hp (h.owned.congr rfl rfl rfl) (Local.of_space rfl)
  | exit => exact h.zombie (by rw [hp]; decide)
  | fork garbage => exact fork_sound h hp hc

lemma load_sound (h : Sound s) {image : List ProgHeader} {entry : UInt64} (hc : Careful s (.load image entry)) :
    wp (Event.run (.load image entry)) (fun _ => Sound) Sound s := by
  rw [Event.run, wp_bind]
  refine wp_allocSlot fun c hfree => ?_
  have hload := loadUserProgram_owned (h.owned.welcome (h.blank c hfree)) (by simp) (by omega) (h.blank c hfree)
    hc.1 hc.2 entry
  rw [wp_bind]
  refine wp_within (wp_mono hload ?_ (fun _ _ => wp_halt))
  rintro _ t ⟨ot, hr, hothers⟩
  rw [wp_modify]
  refine (sound_fill hfree (ot.mono (by omega)) (fun q hq => ?_) fun q hqc hq => ?_).launch (by simp) hr
  · have hqc : q ≠ c := by
      rintro rfl
      rw [hq] at hfree
      cases hfree
    rw [hothers q hqc]
    exact h.ready q hq
  · rw [hothers q hqc]
    exact h.blank q hq

lemma event_sound (h : Sound s) {e : Event} (hc : Careful s e) (he : e.enabled s = true) :
    wp e.run (fun _ => Sound) Sound s := by
  cases e with
  | load image entry => exact load_sound h hc
  | act p a =>
    rw [Event.enabled, Bool.and_eq_true] at he
    exact act_sound h (by simpa using he.1) hc

lemma boot_sound {start stop trapSec : ℕ} {mem : ℕ → UInt8} (hstart : start % 4096 = 0)
    (htrap : 0x80000000 ≤ trapSec ∧ trapSec % 4096 = 0 ∧ trapSec < start) : Sound (boot start stop trapSec mem) := by
  have hlive : (boot start stop trapSec mem).live = ∅ := by
    ext q
    simp [boot]
  have href : ∀ f, (createFreepageList start stop).ref f = 0 := fun f => by
    unfold Pmm.ref
    split_ifs <;> rfl
  refine ⟨?_, fun p hp => ?_, fun _ _ => rfl⟩
  · rw [hlive]
    refine ⟨⟨?_, ?_, fun f _ => href f, ?_⟩, ?_, fun k f hk => ?_, fun f => ?_, ?_, ?_, htrap⟩
    · intro f
      have : {u | usesOf ∅ noHand (boot start stop trapSec mem).vm u = some f} = ∅ := by
        rw [Set.eq_empty_iff_forall_notMem]
        intro u hu
        cases u with
        | hand k => exact absurd hu (by simp [usesOf, noHand])
        | spot p w => exact absurd hu (by simp [usesOf])
      rw [this, Set.encard_empty]
      exact zero_le
    · rintro f ⟨-, p, hp, -⟩
      simp at hp
    · change (List.map (fun i => start + i * 4096) _).reverse.Nodup
      rw [List.nodup_reverse]
      refine List.nodup_range.map fun i j hij => ?_
      omega
    · intro f hf
      change f ∈ (List.map (fun i => start + i * 4096) _).reverse at hf
      rw [List.mem_reverse, List.mem_map] at hf
      obtain ⟨i, hi, rfl⟩ := hf
      rw [List.mem_range] at hi
      refine ⟨by omega, ⟨?_, ?_⟩, ?_⟩
      · change start ≤ start + i * 4096
        omega
      · change start + i * 4096 < stop
        omega
      · change (start + i * 4096 - start) / 4096 < (stop - start) / 4096
        omega
    · exact absurd hk (by simp [noHand])
    · change (createFreepageList start stop).ref f ≤ _
      rw [href]
      exact Nat.zero_le _
    · intro p hp
      simp at hp
    · intro p hp
      simp at hp
  · simp [boot] at hp

/-- In a run in which every step is careful, no frame is free and in use in any state. -/
theorem no_use_after_free_when_careful {start stop trapSec : ℕ} {mem : ℕ → UInt8} (hstart : start % 4096 = 0)
    (htrap : 0x80000000 ≤ trapSec ∧ trapSec % 4096 = 0 ∧ trapSec < start) {s : Machine}
    (hs : MReach Careful (boot start stop trapSec mem) s) : NoUseAfterFree s :=
  (hs.invariant (boot_sound hstart htrap) fun _ _ h hc he => event_sound h hc he).noUseAfterFree

def onePage : List ProgHeader := [⟨0x10000, 100, 100, true, false, true, fun _ => 0⟩]

def smallBoot : Machine := boot 0x80010000 0x80050000 0x80001000 fun _ => 0

def keepsPages (s : Machine) : Event → Bool
  | .load image _ => image.all (fun ph => decide (ph.vaddr % 4096 = 0 ∧ ph.vaddr < userFreeAddressStart ∧ ph.vaddr ≠ 0)) &&
      decide (image.length + 4 ≤ maxRegions)
  | .act p (.fork _) => decide ((s.vm.space p).userHeap.heapTop ≤ userStackTop) &&
      (List.range (s.vm.space p).userHeap.freePagesCount).all fun i => (filterIndex (s.vm.space p).userHeap i).isSome
  | .act _ .allocatePage => false
  | .act _ (.freePage _) => false
  | .act _ (.betterFree _) => false
  | _ => true

lemma careful_of_keepsPages (s : Machine) (e : Event) (h : keepsPages s e = true) : Careful s e := by
  cases e with
  | load image entry =>
    simp only [keepsPages, Bool.and_eq_true, List.all_eq_true, decide_eq_true_eq] at h
    exact h
  | act p a =>
    cases a with
    | fork garbage =>
      simp only [keepsPages, Bool.and_eq_true, decide_eq_true_eq] at h
      exact h
    | allocatePage | freePage va | betterFree va => exact absurd h (by simp [keepsPages])
    | _ => trivial

theorem no_use_after_free_forked : ∃ s, MReach Careful smallBoot s ∧
    (s.phase 1 = .active ∧ (s.vm.entry 1 1024).writable = true) ∧ NoUseAfterFree s := by
  have hrun : (play keepsPages [.load onePage 0x10000, .act 0 (.betterMalloc 100), .act 0 (.fork fun _ => false),
      .act 1 (.storeFault 0x400000)] smallBoot).any (fun s => decide (s.phase 1 = .active ∧
        (s.vm.entry 1 1024).writable = true)) = true := by decide +kernel
  obtain ⟨s, hs, hobs⟩ := play_any careful_of_keepsPages hrun
  exact ⟨s, hs, of_decide_eq_true hobs, no_use_after_free_when_careful (by decide) (by decide) hs⟩

theorem shared_code_page_freed : ∃ s, MReach (fun _ _ => True) smallBoot s ∧ ¬ NoUseAfterFree s := by
  have hrun : (play (fun _ _ => true) [.load onePage 0x10000, .act 0 (.fork fun _ => false),
      .act 0 (.freePage 0x10000)] smallBoot).any (fun s => decide (s.phase 1 = .active ∧
        (s.vm.entry 1 16).v = true ∧ (s.vm.entry 1 16).pa ∈ s.vm.pmm.gFreeMemList)) = true := by decide +kernel
  obtain ⟨s, hs, hobs⟩ := play_any (fun _ _ _ => trivial) hrun
  obtain ⟨hphase, hv, hmem⟩ := of_decide_eq_true hobs
  refine ⟨s, hs, fun h => h _ hmem 1 (by rw [hphase]; decide) (.inl ⟨16, hv, rfl⟩)⟩

end Pke.Memory
