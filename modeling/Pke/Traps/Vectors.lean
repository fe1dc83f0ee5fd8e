import Pke.Lib.Bytes
import Pke.Lib.Words

/-! `load_store.S`, `strap_vector.S` and `mtrap_vector.S`, instruction by instruction. A trapframe is mapped to its own
address in the page table of its process, so that one memory serves all modes. -/

namespace Pke.Traps

open Lib Function

inductive Reg where
  | ra | sp | gp | tp | t0 | t1 | t2 | s0 | s1 | a0 | a1 | a2 | a3 | a4 | a5 | a6 | a7
  | s2 | s3 | s4 | s5 | s6 | s7 | s8 | s9 | s10 | s11 | t3 | t4 | t5 | t6
  deriving DecidableEq

inductive Csr where
  | sscratch | satp | sepc | scause | stval | sstatus | mscratch | mepc | mstatus | mhartid
  deriving DecidableEq

inductive Symbol where
  | stack0 | mForwardToS | mForwardSepc | mForwardScause | mForwardStval | mForwardSscratch | mForwardSstatus | smodeTrapVector
  deriving DecidableEq

inductive Instr where
  | sd (rs : Reg) (offset : ℕ) (base : Reg)
  | ld (rd : Reg) (offset : ℕ) (base : Reg)
  | lw (rd : Reg) (offset : ℕ) (base : Reg)
  | li (rd : Reg) (imm : UInt64)
  | la (rd : Reg) (symbol : Symbol)
  | addi (rd rs : Reg) (imm : UInt64)
  | add (rd rs rt : Reg)
  | mul (rd rs rt : Reg)
  | and (rd rs rt : Reg)
  | or (rd rs rt : Reg)
  | not (rd rs : Reg)
  | csrrw (rd : Reg) (csr : Csr) (rs : Reg)
  | csrr (rd : Reg) (csr : Csr)
  | csrw (csr : Csr) (rs : Reg)
  | sfenceVma

structure Hart where
  x : Reg → UInt64
  csr : Csr → UInt64
  mem : ℕ → UInt8

namespace Hart

def set (h : Hart) (rd : Reg) (v : UInt64) : Hart := { h with x := update h.x rd v }

def address (h : Hart) (base : Reg) (offset : ℕ) : ℕ := (h.x base + UInt64.ofNat offset).toNat

end Hart

variable (addr : Symbol → UInt64)

def step (h : Hart) : Instr → Hart
  | .sd rs offset base => { h with mem := store64 h.mem (h.address base offset) (h.x rs).toNat }
  | .ld rd offset base => h.set rd (UInt64.ofNat (load64 h.mem (h.address base offset)))
  | .lw rd offset base => h.set rd (UInt64.ofNat (load32 h.mem (h.address base offset) % 2 ^ 64).toNat)
  | .li rd imm => h.set rd imm
  | .la rd symbol => h.set rd (addr symbol)
  | .addi rd rs imm => h.set rd (h.x rs + imm)
  | .add rd rs rt => h.set rd (h.x rs + h.x rt)
  | .mul rd rs rt => h.set rd (h.x rs * h.x rt)
  | .and rd rs rt => h.set rd (h.x rs &&& h.x rt)
  | .or rd rs rt => h.set rd (h.x rs ||| h.x rt)
  | .not rd rs => h.set rd (~~~h.x rs)
  | .csrrw rd csr rs => { h.set rd (h.csr csr) with csr := update h.csr csr (h.x rs) }
  | .csrr rd csr => h.set rd (h.csr csr)
  | .csrw csr rs => { h with csr := update h.csr csr (h.x rs) }
  | .sfenceVma => h

def exec (code : List Instr) (h : Hart) : Hart := code.foldl (step addr) h

/-- `riscv_regs`: where the two macros put each register. -/
def riscvRegs : List (Reg × ℕ) :=
  [(.ra, 0), (.sp, 8), (.gp, 16), (.tp, 24), (.t0, 32), (.t1, 40), (.t2, 48), (.s0, 56), (.s1, 64), (.a0, 72), (.a1, 80),
    (.a2, 88), (.a3, 96), (.a4, 104), (.a5, 112), (.a6, 120), (.a7, 128), (.s2, 136), (.s3, 144), (.s4, 152), (.s5, 160),
    (.s6, 168), (.s7, 176), (.s8, 184), (.s9, 192), (.s10, 200), (.s11, 208), (.t3, 216), (.t4, 224), (.t5, 232), (.t6, 240)]

def storeAllRegisters : List Instr := riscvRegs.map fun p => .sd p.1 p.2 .t6

def restoreAllRegisters : List Instr := riscvRegs.map fun p => .ld p.1 p.2 .t6

/-- Up to the jump to `smode_trap_handler`. -/
def smodeTrapVector : List Instr :=
  [.csrrw .a0 .sscratch .a0, .addi .t6 .a0 0] ++ storeAllRegisters ++
  [.csrr .t0 .sscratch, .sd .t0 72 .a0, .ld .sp 248 .a0, .ld .t0 256 .a0, .ld .t1 272 .a0, .csrw .satp .t1, .sfenceVma]

def returnToUser : List Instr :=
  [.csrw .satp .a1, .sfenceVma, .csrw .sscratch .a0, .addi .t6 .a0 0] ++ restoreAllRegisters

/-- Up to the call of `handle_mtrap`. -/
def mtrapvecSave : List Instr :=
  [.csrrw .a0 .mscratch .a0, .addi .t6 .a0 0] ++ storeAllRegisters ++
  [.csrr .t0 .mscratch, .sd .t0 72 .a0, .la .sp .stack0, .li .a3 4096, .csrr .a4 .mhartid, .addi .a4 .a4 1, .mul .a3 .a3 .a4,
    .add .sp .sp .a3, .csrw .mscratch .a0]

def mtrapvecTest : List Instr := [.la .t0 .mForwardToS, .lw .t1 0 .t0]

def mtrapvecForward : List Instr :=
  [.la .t0 .mForwardSepc, .ld .t2 0 .t0, .csrw .sepc .t2, .la .t0 .mForwardScause, .ld .t2 0 .t0, .csrw .scause .t2,
    .la .t0 .mForwardStval, .ld .t2 0 .t0, .csrw .stval .t2, .la .t0 .mForwardSscratch, .ld .t2 0 .t0, .csrw .sscratch .t2,
    .la .t0 .mForwardSstatus, .ld .t2 0 .t0, .csrw .sstatus .t2, .la .t2 .smodeTrapVector, .csrw .mepc .t2, .csrr .t2 .mstatus,
    .li .t3 0x1800, .not .t3 .t3, .and .t2 .t2 .t3, .li .t3 0x800, .or .t2 .t2 .t3, .csrw .mstatus .t2, .csrr .t6 .mscratch] ++
  restoreAllRegisters

def mtrapvecResume : List Instr := [.csrr .t6 .mscratch] ++ restoreAllRegisters

/-- From the return of `handle_mtrap` to `mret`. -/
def mtrapvecReturn (h : Hart) : Hart :=
  let g := exec addr mtrapvecTest h
  if g.x .t1 = 0 then exec addr mtrapvecResume g else exec addr mtrapvecForward g

/-- The bytes that `handle_mtrap` writes for a timer interrupt: its stack, `m_forward_to_s` and `CLINT_MTIMECMP`. -/
def mtrapWrites (hartid a : ℕ) : Prop :=
  (addr .stack0).toNat + 4096 * hartid ≤ a ∧ a < (addr .stack0).toNat + 4096 * (hartid + 1) ∨
  (addr .mForwardToS).toNat ≤ a ∧ a < (addr .mForwardToS).toNat + 4 ∨
  0x2004000 + 8 * hartid ≤ a ∧ a < 0x2004000 + 8 * hartid + 8

/-- What the vector relies on in `handle_mtrap` for a timer interrupt, which may leave anything in the registers. -/
structure HandlesTimer (h g : Hart) : Prop where
  mscratch : g.csr .mscratch = h.csr .mscratch
  sscratch : g.csr .sscratch = h.csr .sscratch
  forward : load32 g.mem (addr .mForwardToS).toNat = 0
  frame : ∀ a, ¬ mtrapWrites addr (h.csr .mhartid).toNat a → g.mem a = h.mem a

/-- A timer interrupt goes through the vector of machine mode. -/
def MachineTrap (h h' : Hart) : Prop := ∃ g, HandlesTimer addr (exec addr mtrapvecSave h) g ∧ h' = mtrapvecReturn addr g

/-- From `smode_trap_handler` to the `switch_to` that goes on with the process: of the registers in its trapframe only `tp`
is written, and `return_to_user` is called with it. -/
structure Switches (trapframe : UInt64) (h g : Hart) : Prop where
  frame : ∀ a, trapframe.toNat ≤ a → a < trapframe.toNat + 248 → ¬ (trapframe.toNat + 24 ≤ a ∧ a < trapframe.toNat + 32) →
    g.mem a = h.mem a
  a0 : g.x .a0 = trapframe

/-- The soft interrupt that is then pending goes through the vector of supervisor mode. -/
def SupervisorTrap (trapframe : UInt64) (h h' : Hart) : Prop :=
  ∃ g, Switches trapframe (exec addr smodeTrapVector h) g ∧ h' = exec addr returnToUser g

end Pke.Traps
