import Pke.Traps.Vectors

namespace Pke.Traps

open Lib Function

variable {addr : Symbol → UInt64} {h h' g : Hart} {base tf : UInt64} {ρ : Reg → UInt64} {mem : ℕ → UInt8}
  {l : List (Reg × ℕ)}

lemma exec_append (code code' : List Instr) : exec addr (code ++ code') h = exec addr code' (exec addr code h) :=
  List.foldl_append

lemma address_eq {b : Reg} {o : ℕ} (hb : h.x b = base) (ho : base.toNat + o < 2 ^ 64) : h.address b o = base.toNat + o := by
  rw [Hart.address, hb, UInt64.toNat_add, UInt64.toNat_ofNat']
  omega

def Saved (mem : ℕ → UInt8) (base : UInt64) (ρ : Reg → UInt64) (l : List (Reg × ℕ)) : Prop :=
  ∀ p ∈ l, load64 mem (base.toNat + p.2) = (ρ p.1).toNat

lemma riscvRegs_apart : riscvRegs.Pairwise fun p q => p.2 + 8 ≤ q.2 := by decide

lemma riscvRegs_le : ∀ p ∈ riscvRegs, p.2 + 8 ≤ 248 := by decide

lemma mem_riscvRegs (r : Reg) : ∃ o, (r, o) ∈ riscvRegs := by
  have hr : r ∈ riscvRegs.map Prod.fst := by cases r <;> decide
  obtain ⟨⟨r', o⟩, ho, rfl⟩ := List.mem_map.mp hr
  exact ⟨o, ho⟩

section Macros

variable (addr) (hfit : base.toNat + 248 ≤ 2 ^ 64)
include hfit

lemma exec_store (hl : l.Pairwise fun p q => p.2 + 8 ≤ q.2) (hle : ∀ p ∈ l, p.2 + 8 ≤ 248) (hb : h.x .t6 = base) :
    ∃ mem, exec addr (l.map fun p => .sd p.1 p.2 .t6) h = { h with mem := mem } ∧ Saved mem base h.x l ∧
      ∀ a, (∀ p ∈ l, a < base.toNat + p.2) → mem a = h.mem a := by
  induction l generalizing h with
  | nil => exact ⟨h.mem, rfl, nofun, fun _ _ => rfl⟩
  | cons p l ih =>
    rw [List.pairwise_cons] at hl
    have hp := hle p List.mem_cons_self
    obtain ⟨mem, hexec, hsaved, hbefore⟩ := ih (h := { h with mem := store64 h.mem (base.toNat + p.2) (h.x p.1).toNat }) hl.2
      (fun q hq => hle q (List.mem_cons_of_mem p hq)) hb
    refine ⟨mem, ?_, ?_, ?_⟩
    · rw [← hexec, ← address_eq hb (by omega)]
      rfl
    · intro q hq
      rcases List.mem_cons.mp hq with rfl | hq
      · -- the entries behind do not reach back to this one
        have hkept : load64 mem (base.toNat + q.2) =
            load64 (store64 h.mem (base.toNat + q.2) (h.x q.1).toNat) (base.toNat + q.2) := by
          apply load64_congr
          intro i hi
          apply hbefore
          intro q' hq'
          have := hl.1 q' hq'
          omega
        rw [hkept, load64_store64_self _ _ (UInt64.toNat_lt _)]
      · exact hsaved q hq
    · intro a ha
      rw [hbefore a fun q hq => ha q (List.mem_cons_of_mem p hq)]
      exact store64_apply (.inl (ha p List.mem_cons_self))

lemma exec_restore (hnd : (l.map Prod.fst).Nodup) (hle : ∀ p ∈ l, p.2 + 8 ≤ 248) (ht : ∀ p ∈ l, p.1 ≠ .t6)
    (hb : h.x .t6 = base) :
    ∃ x, exec addr (l.map fun p => .ld p.1 p.2 .t6) h = { h with x := x } ∧ x .t6 = base ∧
      (∀ p ∈ l, x p.1 = UInt64.ofNat (load64 h.mem (base.toNat + p.2))) ∧ ∀ r ∉ l.map Prod.fst, x r = h.x r := by
  induction l generalizing h with
  | nil => exact ⟨h.x, rfl, hb, nofun, fun _ _ => rfl⟩
  | cons p l ih =>
    rw [List.map_cons, List.nodup_cons] at hnd
    have hp := hle p List.mem_cons_self
    have hstill : (h.set p.1 (UInt64.ofNat (load64 h.mem (base.toNat + p.2)))).x .t6 = base :=
      (update_of_ne (ht p List.mem_cons_self).symm _ _).trans hb
    obtain ⟨x, hexec, htx, hloaded, hrest⟩ := ih hnd.2 (fun q hq => hle q (List.mem_cons_of_mem p hq))
      (fun q hq => ht q (List.mem_cons_of_mem p hq)) hstill
    refine ⟨x, ?_, htx, ?_, ?_⟩
    · rw [← address_eq hb (by omega)] at hexec
      exact hexec
    · intro q hq
      rcases List.mem_cons.mp hq with rfl | hq
      · rw [hrest _ hnd.1]
        exact update_self _ _ _
      · exact hloaded q hq
    · intro r hr
      rw [List.map_cons, List.mem_cons, not_or] at hr
      rw [hrest r hr.2]
      exact update_of_ne hr.1 _ _

lemma exec_storeAllRegisters (hb : h.x .t6 = base) :
    ∃ mem, exec addr storeAllRegisters h = { h with mem := mem } ∧ Saved mem base h.x riscvRegs := by
  obtain ⟨mem, hexec, hsaved, -⟩ := exec_store addr hfit riscvRegs_apart riscvRegs_le hb
  exact ⟨mem, hexec, hsaved⟩

lemma exec_restoreAllRegisters (hb : h.x .t6 = base) :
    ∃ x, exec addr restoreAllRegisters h = { h with x := x } ∧
      ∀ p ∈ riscvRegs, x p.1 = UInt64.ofNat (load64 h.mem (base.toNat + p.2)) := by
  have hsplit : riscvRegs = riscvRegs.dropLast ++ [(.t6, 240)] := rfl
  obtain ⟨x, hexec, hx, hloaded, -⟩ := exec_restore (l := riscvRegs.dropLast) addr hfit (by decide)
    (fun p hp => riscvRegs_le p (List.mem_of_mem_dropLast hp)) (by decide) hb
  refine ⟨update x .t6 (UInt64.ofNat (load64 h.mem (base.toNat + 240))), ?_, ?_⟩
  · rw [restoreAllRegisters, hsplit, List.map_append, exec_append, hexec, ← address_eq (h := { h with x := x }) hx (by omega)]
    rfl
  · intro p hp
    rw [hsplit, List.mem_append, List.mem_singleton] at hp
    rcases hp with hp | rfl
    · have hne : p.1 ≠ .t6 := (by decide : ∀ p ∈ riscvRegs.dropLast, p.1 ≠ .t6) p hp
      rw [update_of_ne hne]
      exact hloaded p hp
    · exact update_self _ _ _

lemma exec_save {c : Csr} (hc : h.csr c = base) : ∃ mem x,
    exec addr ([.csrrw .a0 c .a0, .addi .t6 .a0 0] ++ storeAllRegisters ++ [.csrr .t0 c, .sd .t0 72 .a0]) h =
      ⟨x, update h.csr c (h.x .a0), mem⟩ ∧ x .a0 = base ∧ Saved mem base (update h.x .t6 base) riscvRegs := by
  have hadd : base + 0 = base := UInt64.add_zero base
  let start : Hart := ⟨update (update h.x .a0 base) .t6 base, update h.csr c (h.x .a0), h.mem⟩
  have hb : start.x .t6 = base := rfl
  obtain ⟨mem, hexec, hsaved⟩ := exec_storeAllRegisters addr hfit hb
  refine ⟨store64 mem (base.toNat + 72) (h.x .a0).toNat, update (update (update h.x .a0 base) .t6 base) .t0 (h.x .a0), ?_, rfl, ?_⟩
  · have hstart : exec addr [.csrrw .a0 c .a0, .addi .t6 .a0 0] h = start := by
      change (Hart.mk (update (update h.x .a0 (h.csr c)) .t6 (update h.x .a0 (h.csr c) .a0 + 0)) _ _) = _
      rw [update_self, hc, hadd]
      rfl
    rw [exec_append, exec_append, hstart, hexec]
    have haddr (k : Hart) (hk : k.x .a0 = base) : k.address .a0 72 = base.toNat + 72 := address_eq hk (by omega)
    change (Hart.mk (update _ .t0 (update h.csr c (h.x .a0) c)) _ (store64 mem (Hart.address _ .a0 72)
      (update h.csr c (h.x .a0) c).toNat)) = _
    rw [update_self, haddr _ rfl]
    rfl
  · intro p hp
    have hslot : p = (.a0, 72) ∨ p.1 ≠ .a0 ∧ (p.2 + 8 ≤ 72 ∨ 80 ≤ p.2) :=
      (by decide : ∀ p ∈ riscvRegs, p = (.a0, 72) ∨ p.1 ≠ .a0 ∧ (p.2 + 8 ≤ 72 ∨ 80 ≤ p.2)) p hp
    rcases hslot with rfl | ⟨hne, hapart⟩
    · exact load64_store64_self _ _ (UInt64.toNat_lt _)
    · rw [load64_store64 _ _ (by omega), hsaved p hp]
      change (update (update h.x .a0 base) .t6 base p.1).toNat = _
      rw [update_comm (by decide), update_of_ne hne]

end Macros

lemma MachineTrap.x_eq (hfit : base.toNat + 248 ≤ 2 ^ 64) (hbase : h.csr .mscratch = base)
    (hapart : ∀ a, base.toNat ≤ a → a < base.toNat + 248 → ¬ mtrapWrites addr (h.csr .mhartid).toNat a)
    (htrap : MachineTrap addr h h') : h'.x = update h.x .t6 base ∧ h'.csr .sscratch = h.csr .sscratch := by
  obtain ⟨g, hg, rfl⟩ := htrap
  obtain ⟨mem, x, hsave, ha0, hsaved⟩ := exec_save addr hfit hbase
  have hcode : mtrapvecSave = [.csrrw .a0 .mscratch .a0, .addi .t6 .a0 0] ++ storeAllRegisters ++
    [.csrr .t0 .mscratch, .sd .t0 72 .a0] ++ [.la .sp .stack0, .li .a3 4096, .csrr .a4 .mhartid, .addi .a4 .a4 1,
      .mul .a3 .a3 .a4, .add .sp .sp .a3, .csrw .mscratch .a0] := rfl
  rw [hcode, exec_append, hsave] at hg
  have hscratch : g.csr .mscratch = base := hg.mscratch.trans ha0
  have hkept : Saved g.mem base (update h.x .t6 base) riscvRegs := by
    intro p hp
    have hle := riscvRegs_le p hp
    rw [← hsaved p hp]
    apply load64_congr
    intro i hi
    exact hg.frame _ (hapart _ (by omega) (by omega))
  have hzero : (exec addr mtrapvecTest g).x .t1 = 0 := by
    change UInt64.ofNat (load32 g.mem (addr .mForwardToS + UInt64.ofNat 0).toNat % 2 ^ 64).toNat = 0
    have hword : addr .mForwardToS + UInt64.ofNat 0 = addr .mForwardToS := UInt64.add_zero _
    rw [hword, hg.forward]
    rfl
  have hstart : (exec addr [.csrr .t6 .mscratch] (exec addr mtrapvecTest g)).x .t6 = base := hscratch
  obtain ⟨y, hload, hloaded⟩ := exec_restoreAllRegisters addr hfit hstart
  rw [mtrapvecReturn, if_pos hzero, mtrapvecResume, exec_append, hload]
  refine ⟨?_, hg.sscratch⟩
  funext r
  obtain ⟨o, ho⟩ := mem_riscvRegs r
  refine (hloaded _ ho).trans ?_
  have hword := hkept _ ho
  change load64 (exec addr [.csrr .t6 .mscratch] (exec addr mtrapvecTest g)).mem _ = _ at hword
  rw [hword, UInt64.ofNat_toNat]

lemma SupervisorTrap.x_eq (hfit : tf.toNat + 248 ≤ 2 ^ 64) (htf : h.csr .sscratch = tf) (htrap : SupervisorTrap addr tf h h')
    {r : Reg} (hr : r ≠ .tp) : h'.x r = update h.x .t6 tf r := by
  obtain ⟨g, hg, rfl⟩ := htrap
  obtain ⟨mem, x, hsave, -, hsaved⟩ := exec_save addr hfit htf
  have hcode : smodeTrapVector = [.csrrw .a0 .sscratch .a0, .addi .t6 .a0 0] ++ storeAllRegisters ++
    [.csrr .t0 .sscratch, .sd .t0 72 .a0] ++ [.ld .sp 248 .a0, .ld .t0 256 .a0, .ld .t1 272 .a0, .csrw .satp .t1, .sfenceVma] := rfl
  rw [hcode, exec_append, hsave] at hg
  have hstart : (exec addr [.csrw .satp .a1, .sfenceVma, .csrw .sscratch .a0, .addi .t6 .a0 0] g).x .t6 = tf :=
    (UInt64.add_zero _).trans hg.a0
  obtain ⟨y, hload, hloaded⟩ := exec_restoreAllRegisters addr hfit hstart
  rw [returnToUser, exec_append, hload]
  obtain ⟨o, ho⟩ := mem_riscvRegs r
  refine (hloaded _ ho).trans ?_
  have hle := riscvRegs_le _ ho
  have hslot : (r, o).1 = .tp ∨ (r, o).2 + 8 ≤ 24 ∨ 32 ≤ (r, o).2 :=
    (by decide : ∀ p ∈ riscvRegs, p.1 = .tp ∨ p.2 + 8 ≤ 24 ∨ 32 ≤ p.2) _ ho
  have hword : load64 g.mem (tf.toNat + o) = (update h.x .t6 tf r).toNat := by
    rw [← hsaved _ ho]
    apply load64_congr
    intro i hi
    have hapart := hslot.resolve_left hr
    exact hg.frame _ (by omega) (by omega) (by omega)
  change UInt64.ofNat (load64 g.mem (tf.toNat + o)) = _
  rw [hword, UInt64.ofNat_toNat]

/-- All registers other than `tp` come back if and only if `t6` was the address of the trapframe before. -/
theorem registers_come_back_iff (hfit : base.toNat + 248 ≤ 2 ^ 64) (hbase : h.csr .mscratch = base)
    (hapart : ∀ a, base.toNat ≤ a → a < base.toNat + 248 → ¬ mtrapWrites addr (h.csr .mhartid).toNat a)
    (htf : h.csr .sscratch = tf) (htfit : tf.toNat + 248 ≤ 2 ^ 64) (hm : MachineTrap addr h g) (hs : SupervisorTrap addr tf g h') :
    (∀ r, r ≠ .tp → h'.x r = h.x r) ↔ h.x .t6 = tf := by
  obtain ⟨hx, hscratch⟩ := hm.x_eq hfit hbase hapart
  have hall {r : Reg} (hr : r ≠ .tp) : h'.x r = update h.x .t6 tf r := by
    rw [hs.x_eq htfit (hscratch.trans htf) hr, hx, update_idem]
  constructor
  · intro hback
    rw [← hback .t6 (by decide), hall (by decide), update_self]
  · intro ht6 r hr
    rw [hall hr, ← ht6, update_eq_self]

def sampleAddr : Symbol → UInt64
  | .stack0 => 0x80010000
  | .mForwardToS => 0x80012000
  | .mForwardSepc => 0x80012008
  | .mForwardScause => 0x80012010
  | .mForwardStval => 0x80012018
  | .mForwardSscratch => 0x80012020
  | .mForwardSstatus => 0x80012028
  | .smodeTrapVector => 0x80001000

def sampleHart (v : UInt64) : Hart where
  x := update (fun _ => 5) .t6 v
  csr c := if c = .mscratch then 0x80013000 else if c = .sscratch then 0x87fff000 else 0
  mem _ := 0

lemma sampleHart_apart {v : UInt64} (a : ℕ) (hlo : (0x80013000 : UInt64).toNat ≤ a) (hhi : a < (0x80013000 : UInt64).toNat + 248) :
    ¬ mtrapWrites sampleAddr ((sampleHart v).csr .mhartid).toNat a := by
  change 0x80013000 ≤ a at hlo
  change a < 0x80013000 + 248 at hhi
  change ¬ (0x80010000 + 4096 * 0 ≤ a ∧ a < 0x80010000 + 4096 * (0 + 1) ∨ 0x80012000 ≤ a ∧ a < 0x80012000 + 4 ∨
    0x2004000 + 8 * 0 ≤ a ∧ a < 0x2004000 + 8 * 0 + 8)
  omega

lemma sampleHart_traps {v : UInt64}
    (hforward : load32 (exec sampleAddr mtrapvecSave (sampleHart v)).mem (sampleAddr .mForwardToS).toNat = 0)
    (ha0 : (exec sampleAddr smodeTrapVector (mtrapvecReturn sampleAddr (exec sampleAddr mtrapvecSave (sampleHart v)))).x .a0 =
      0x87fff000) :
    ∃ g h', MachineTrap sampleAddr (sampleHart v) g ∧ SupervisorTrap sampleAddr 0x87fff000 g h' :=
  ⟨_, _, ⟨_, ⟨rfl, rfl, hforward, fun _ _ => rfl⟩, rfl⟩, ⟨_, ⟨fun _ _ _ _ => rfl, ha0⟩, rfl⟩⟩

theorem registers_come_back_from_trapframe : ∃ g h', MachineTrap sampleAddr (sampleHart 0x87fff000) g ∧
    SupervisorTrap sampleAddr 0x87fff000 g h' ∧ ∀ r, r ≠ .tp → h'.x r = (sampleHart 0x87fff000).x r := by
  obtain ⟨g, h', hm, hs⟩ := sampleHart_traps (v := 0x87fff000) (by decide +kernel) (by decide +kernel)
  exact ⟨g, h', hm, hs, (registers_come_back_iff (by decide) rfl sampleHart_apart rfl (by decide) hm hs).mpr rfl⟩

theorem t6_is_lost : ∃ g h', MachineTrap sampleAddr (sampleHart 7) g ∧ SupervisorTrap sampleAddr 0x87fff000 g h' ∧
    (sampleHart 7).x .t6 = 7 ∧ h'.x .t6 = 0x87fff000 := by
  obtain ⟨g, h', hm, hs⟩ := sampleHart_traps (v := 7) (by decide +kernel) (by decide +kernel)
  obtain ⟨-, hscratch⟩ := hm.x_eq (by decide) rfl sampleHart_apart
  exact ⟨g, h', hm, hs, rfl, hs.x_eq (by decide) hscratch (by decide)⟩

end Pke.Traps
