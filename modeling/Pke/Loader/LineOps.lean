import Pke.Loader.LineReaders

/-! The opcodes of a line-number program as `make_addr_line` executes them. -/

namespace Pke.Loader

open Lib

structure AddrLine where
  addr : UInt64
  line : UInt64
  file : UInt64
  deriving DecidableEq

structure DebugHeader where
  minInstructionLength : UInt8
  lineBase : Int8
  lineRange : UInt8
  opcodeBase : UInt8
  deriving DecidableEq

def sizeofDebugHeader : ℕ := 27

def debugHeader (l : List UInt8) : DebugHeader where
  minInstructionLength := l.getD 10 0
  lineBase := (l.getD 12 0).toInt8
  lineRange := l.getD 13 0
  opcodeBase := l.getD 14 0

structure LineState where
  regs : AddrLine
  line : List AddrLine
  deriving DecidableEq

/-- A row takes the place of the last one if that has the same address. -/
def pushRow (row : AddrLine) : List AddrLine → List AddrLine
  | [] => [row]
  | last :: line => if last.addr = row.addr then row :: line else row :: last :: line

namespace LineState

def emit (fileBase : ℕ) (s : LineState) : LineState :=
  { s with line := pushRow { s.regs with file := s.regs.file + (UInt64.ofNat fileBase - 1) } s.line }

def advance (s : LineState) (delta : UInt64) : LineState := { s with regs := { s.regs with addr := s.regs.addr + delta } }

def advanceLine (s : LineState) (delta : UInt64) : LineState := { s with regs := { s.regs with line := s.regs.line + delta } }

def setFile (s : LineState) (file : UInt64) : LineState := { s with regs := { s.regs with file := file } }

def setAddress (s : LineState) (addr : UInt64) : LineState := { s with regs := { s.regs with addr := addr } }

end LineState

namespace DebugHeader

/-- `(adjust / dh->line_range) * dh->min_instruction_length`. -/
def addrDelta (dh : DebugHeader) (adjust : ℤ) : UInt64 :=
  UInt64.ofInt (adjust.tdiv dh.lineRange.toNat * dh.minInstructionLength.toNat)

/-- `dh->line_base + (adjust % dh->line_range)`. -/
def lineDelta (dh : DebugHeader) (adjust : ℤ) : UInt64 := UInt64.ofInt (dh.lineBase.toInt + adjust.tmod dh.lineRange.toNat)

end DebugHeader

open LineState

/-- The opcode behind a zero and a length, with whether the unit goes on. -/
def extendedOp (fileBase : ℕ) (s : LineState) : Reader (Bool × LineState) := fun l => do
  let (_, l) ← readUleb128 l
  let (op, l) ← readByte l
  match op.toNat with
  | 1 => .ok ((false, s.emit fileBase), l)
  | 2 => do
    let (addr, l) ← readUint 8 l
    .ok ((true, s.setAddress addr), l)
  | 4 => do
    let (_, l) ← readUleb128 l
    .ok ((true, s), l)
  | _ => .ok ((true, s), l)

def lineOp (dh : DebugHeader) (fileBase : ℕ) (s : LineState) : Reader (Bool × LineState) := fun l => do
  let (op, l) ← readByte l
  match op.toNat with
  | 0 => extendedOp fileBase s l
  | 1 => .ok ((true, s.emit fileBase), l)
  | 2 => do
    let (delta, l) ← readUleb128 l
    .ok ((true, s.advance (delta * dh.minInstructionLength.toUInt64)), l)
  | 3 => do
    let (delta, l) ← readSleb128 l
    .ok ((true, s.advanceLine delta), l)
  | 4 => do
    let (file, l) ← readUleb128 l
    .ok ((true, s.setFile file), l)
  | 5 => do
    let (_, l) ← readUleb128 l
    .ok ((true, s), l)
  | 6 | 7 => .ok ((true, s), l)
  | 8 =>
    if dh.lineRange = 0 then .error .division
    else .ok ((true, s.advance (dh.addrDelta (255 - dh.opcodeBase.toNat))), l)
  | 9 => do
    let (delta, l) ← readUint 2 l
    .ok ((true, s.advance delta), l)
  | op =>
    if dh.lineRange = 0 then .error .division
    else
      let adjust : ℤ := op - dh.opcodeBase.toNat
      .ok ((true, ((s.advance (dh.addrDelta adjust)).advanceLine (dh.lineDelta adjust)).emit fileBase), l)

/-- The opcodes with their operands, as the code takes them from the section: an extended opcode that it does not know ends
behind its number, and 10, 11 and 12 are special opcodes. -/
inductive Op where
  | copy
  | advancePc (delta : Leb)
  | advanceLine (delta : Leb)
  | setFile (file : Leb)
  | setColumn (column : Leb)
  | negateStmt
  | setBasicBlock
  | constAddPc
  | fixedAdvancePc (delta : {x : List UInt8 // x.length = 2})
  | special (op : {b : UInt8 // 10 ≤ b.toNat})
  | setAddress (size : Leb) (addr : {x : List UInt8 // x.length = 8})
  | setDiscriminator (size discriminator : Leb)
  | unknown (size : Leb) (op : {b : UInt8 // b.toNat ∉ [1, 2, 4]})

namespace Op

def encode : Op → List UInt8
  | copy => [1]
  | advancePc delta => 2 :: delta.1
  | advanceLine delta => 3 :: delta.1
  | setFile file => 4 :: file.1
  | setColumn column => 5 :: column.1
  | negateStmt => [6]
  | setBasicBlock => [7]
  | constAddPc => [8]
  | fixedAdvancePc delta => 9 :: delta.1
  | special op => [op.1]
  | setAddress size addr => 0 :: (size.1 ++ 2 :: addr.1)
  | setDiscriminator size discriminator => 0 :: (size.1 ++ 4 :: discriminator.1)
  | unknown size op => 0 :: (size.1 ++ [op.1])

def divides : Op → Bool
  | constAddPc | special _ => true
  | _ => false

def effect (dh : DebugHeader) (fileBase : ℕ) (s : LineState) : Op → LineState
  | copy => s.emit fileBase
  | advancePc delta => s.advance (ulebValue 0 delta * dh.minInstructionLength.toUInt64)
  | advanceLine delta => s.advanceLine (slebValue 0 delta)
  | setFile file => s.setFile (ulebValue 0 file)
  | constAddPc => s.advance (dh.addrDelta (255 - dh.opcodeBase.toNat))
  | fixedAdvancePc delta => s.advance (uintValue delta)
  | special op =>
    let adjust : ℤ := op.1.toNat - dh.opcodeBase.toNat
    ((s.advance (dh.addrDelta adjust)).advanceLine (dh.lineDelta adjust)).emit fileBase
  | setAddress _ addr => s.setAddress (uintValue addr)
  | setColumn _ | negateStmt | setBasicBlock | setDiscriminator _ _ | unknown _ _ => s

end Op

def encodeEnd (size : Leb) : List UInt8 := 0 :: (size.1 ++ [1])

section Accepted

variable {dh : DebugHeader} {fileBase : ℕ} {s s' : LineState} {l r : List UInt8} {goes : Bool}

@[simp] lemma readUleb128_append (x : Leb) : readUleb128 (x.1 ++ r) = .ok (ulebValue 0 x, r) := readUleb128_iff.mpr ⟨x, rfl, rfl⟩

@[simp] lemma readSleb128_append (x : Leb) : readSleb128 (x.1 ++ r) = .ok (slebValue 0 x, r) := readSleb128_iff.mpr ⟨x, rfl, rfl⟩

lemma readUint_append {n : ℕ} (x : {x : List UInt8 // x.length = n}) : readUint n (x.1 ++ r) = .ok (uintValue x, r) :=
  readUint_iff.mpr ⟨x, x.2, rfl, rfl⟩

lemma lineOp_encode (op : Op) (hd : op.divides → dh.lineRange ≠ 0) :
    lineOp dh fileBase s (op.encode ++ r) = .ok ((true, op.effect dh fileBase s), r) := by
  cases op with
  | copy => rfl
  | advancePc delta => simp [Op.encode, lineOp, readByte, bind, Except.bind, Op.effect]
  | advanceLine delta => simp [Op.encode, lineOp, readByte, bind, Except.bind, Op.effect]
  | setFile file => simp [Op.encode, lineOp, readByte, bind, Except.bind, Op.effect]
  | setColumn column => simp [Op.encode, lineOp, readByte, bind, Except.bind, Op.effect]
  | negateStmt => rfl
  | setBasicBlock => rfl
  | constAddPc => simp [Op.encode, lineOp, readByte, bind, Except.bind, Op.effect, hd rfl]
  | fixedAdvancePc delta => simp [Op.encode, lineOp, readByte, bind, Except.bind, Op.effect, readUint_append]
  | special op =>
    obtain ⟨b, hb⟩ := op
    simp only [Op.encode, lineOp, readByte, List.cons_append, List.nil_append, bind, Except.bind]
    split
    all_goals first | omega | rw [if_neg (hd rfl)]; rfl
  | setAddress size addr => simp [Op.encode, lineOp, extendedOp, readByte, bind, Except.bind, Op.effect, readUint_append]
  | setDiscriminator size d => simp [Op.encode, lineOp, extendedOp, readByte, bind, Except.bind, Op.effect]
  | unknown size op =>
    obtain ⟨b, hb⟩ := op
    rw [List.mem_cons, List.mem_cons, List.mem_singleton, not_or, not_or] at hb
    simp only [Op.encode, lineOp, extendedOp, readByte, List.cons_append, List.nil_append, List.append_assoc, bind, Except.bind,
      UInt8.toNat_zero, readUleb128_append]
    split
    all_goals first | omega | rfl

lemma lineOp_encodeEnd (size : Leb) :
    lineOp dh fileBase s (encodeEnd size ++ r) = .ok ((false, s.emit fileBase), r) := by
  simp [encodeEnd, lineOp, extendedOp, readByte, bind, Except.bind]

lemma eq_ofNat {b : UInt8} {n : ℕ} (h : b.toNat = n) : b = UInt8.ofNat n := by rw [← h, UInt8.ofNat_toNat]

lemma extendedOp_cases (h : extendedOp fileBase s l = .ok ((goes, s'), r)) :
    (∃ op : Op, op.divides = false ∧ 0 :: l = op.encode ++ r) ∨ ∃ size, 0 :: l = encodeEnd size ++ r := by
  simp only [extendedOp, bind_eq_ok] at h
  obtain ⟨⟨_, l₁⟩, hsize, ⟨b, l₂⟩, hop, h⟩ := h
  obtain ⟨size, rfl, -⟩ := readUleb128_iff.mp hsize
  obtain rfl := readByte_iff.mp hop
  dsimp only at h
  split at h
  case h_1 heq =>
    cases h
    obtain rfl := eq_ofNat heq
    exact .inr ⟨size, by simp [encodeEnd]⟩
  case h_2 heq =>
    rw [bind_eq_ok] at h
    obtain ⟨⟨_, l₃⟩, haddr, h⟩ := h
    obtain ⟨addr, hlen, rfl, -⟩ := readUint_iff.mp haddr
    cases h
    obtain rfl := eq_ofNat heq
    exact .inl ⟨.setAddress size ⟨addr, hlen⟩, rfl, by simp [Op.encode]⟩
  case h_3 heq =>
    rw [bind_eq_ok] at h
    obtain ⟨⟨_, l₃⟩, hdisc, h⟩ := h
    obtain ⟨d, rfl, -⟩ := readUleb128_iff.mp hdisc
    cases h
    obtain rfl := eq_ofNat heq
    exact .inl ⟨.setDiscriminator size d, rfl, by simp [Op.encode]⟩
  case h_4 h1 h2 h4 =>
    cases h
    have hb : b.toNat ∉ [1, 2, 4] := by
      rw [List.mem_cons, List.mem_cons, List.mem_singleton]
      exact fun hb => hb.elim h1 fun hb => hb.elim h2 h4
    exact .inl ⟨.unknown size ⟨b, hb⟩, rfl, by simp [Op.encode]⟩

lemma lineOp_cases (h : lineOp dh fileBase s l = .ok ((goes, s'), r)) :
    (∃ op : Op, (op.divides → dh.lineRange ≠ 0) ∧ l = op.encode ++ r) ∨ ∃ size, l = encodeEnd size ++ r := by
  simp only [lineOp, bind_eq_ok] at h
  obtain ⟨⟨b, l₁⟩, hop, h⟩ := h
  obtain rfl := readByte_iff.mp hop
  dsimp only at h
  split at h
  case h_1 heq =>
    obtain rfl := eq_ofNat heq
    rcases extendedOp_cases h with ⟨op, hd, hl⟩ | hend
    · exact .inl ⟨op, by simp [hd], hl⟩
    · exact .inr hend
  case h_2 heq =>
    cases h
    obtain rfl := eq_ofNat heq
    exact .inl ⟨.copy, nofun, rfl⟩
  case h_3 heq =>
    rw [bind_eq_ok] at h
    obtain ⟨⟨_, l₂⟩, hx, h⟩ := h
    obtain ⟨x, rfl, -⟩ := readUleb128_iff.mp hx
    cases h
    obtain rfl := eq_ofNat heq
    exact .inl ⟨.advancePc x, nofun, rfl⟩
  case h_4 heq =>
    rw [bind_eq_ok] at h
    obtain ⟨⟨_, l₂⟩, hx, h⟩ := h
    obtain ⟨x, rfl, -⟩ := readSleb128_iff.mp hx
    cases h
    obtain rfl := eq_ofNat heq
    exact .inl ⟨.advanceLine x, nofun, rfl⟩
  case h_5 heq =>
    rw [bind_eq_ok] at h
    obtain ⟨⟨_, l₂⟩, hx, h⟩ := h
    obtain ⟨x, rfl, -⟩ := readUleb128_iff.mp hx
    cases h
    obtain rfl := eq_ofNat heq
    exact .inl ⟨.setFile x, nofun, rfl⟩
  case h_6 heq =>
    rw [bind_eq_ok] at h
    obtain ⟨⟨_, l₂⟩, hx, h⟩ := h
    obtain ⟨x, rfl, -⟩ := readUleb128_iff.mp hx
    cases h
    obtain rfl := eq_ofNat heq
    exact .inl ⟨.setColumn x, nofun, rfl⟩
  case h_7 heq =>
    cases h
    obtain rfl := eq_ofNat heq
    exact .inl ⟨.negateStmt, nofun, rfl⟩
  case h_8 heq =>
    cases h
    obtain rfl := eq_ofNat heq
    exact .inl ⟨.setBasicBlock, nofun, rfl⟩
  case h_9 heq =>
    split_ifs at h with hzero
    cases h
    obtain rfl := eq_ofNat heq
    exact .inl ⟨.constAddPc, fun _ => hzero, rfl⟩
  case h_10 heq =>
    rw [bind_eq_ok] at h
    obtain ⟨⟨_, l₂⟩, hx, h⟩ := h
    obtain ⟨x, hlen, rfl, -⟩ := readUint_iff.mp hx
    cases h
    obtain rfl := eq_ofNat heq
    exact .inl ⟨.fixedAdvancePc ⟨x, hlen⟩, nofun, rfl⟩
  case h_11 h0 h1 h2 h3 h4 h5 h6 h7 h8 h9 =>
    split_ifs at h with hzero
    cases h
    simp only [imp_false] at h0 h1 h2 h3 h4 h5 h6 h7 h8 h9
    have hb : 10 ≤ b.toNat := by omega
    exact .inl ⟨.special ⟨b, hb⟩, fun _ => hzero, rfl⟩

lemma lineOp_iff : lineOp dh fileBase s l = .ok ((goes, s'), r) ↔
    (goes = true ∧ ∃ op : Op, (op.divides → dh.lineRange ≠ 0) ∧ l = op.encode ++ r ∧ s' = op.effect dh fileBase s) ∨
      goes = false ∧ ∃ size, l = encodeEnd size ++ r ∧ s' = s.emit fileBase := by
  constructor
  · intro h
    rcases lineOp_cases h with ⟨op, hd, rfl⟩ | ⟨size, rfl⟩
    · rw [lineOp_encode op hd] at h
      cases h
      exact .inl ⟨rfl, op, hd, rfl, rfl⟩
    · rw [lineOp_encodeEnd] at h
      cases h
      exact .inr ⟨rfl, size, rfl, rfl⟩
  · rintro (⟨rfl, op, hd, rfl, rfl⟩ | ⟨rfl, size, rfl, rfl⟩)
    · exact lineOp_encode op hd
    · exact lineOp_encodeEnd size

lemma lineOp_length (h : lineOp dh fileBase s l = .ok ((goes, s'), r)) : r.length < l.length := by
  rcases lineOp_cases h with ⟨op, -, rfl⟩ | ⟨size, rfl⟩
  · have hpos : 0 < op.encode.length := by cases op <;> exact Nat.succ_pos _
    rw [List.length_append]
    omega
  · rw [List.length_append, encodeEnd, List.length_cons]
    omega

end Accepted

end Pke.Loader
