import Pke.Loader.LineTable

/-! The line-number program of DWARF 2 and 3, and the sections whose rows `make_addr_line` finds. -/

namespace Pke.Loader

open Lib

section Numbers

variable {b : UInt8} {n : ℕ} {l : List UInt8}

lemma sevenBits_toNat (hn : n < 64) : (sevenBits b n).toNat = 2 ^ n * (b.toNat % 128) % 2 ^ 64 := by
  have hlow : (b.toUInt64 &&& 0x7F).toNat = b.toNat % 128 := by
    rw [UInt64.toNat_and, UInt8.toNat_toUInt64]
    exact Nat.and_two_pow_sub_one_eq_mod b.toNat 7
  have hshift : (UInt64.ofNat n).toNat % 64 = n := by
    rw [UInt64.toNat_ofNat']
    omega
  rw [sevenBits, UInt64.toNat_shiftLeft, hlow, hshift, Nat.shiftLeft_eq, Nat.mul_comm]

lemma or_eq_add {c m : ℕ} (hc : c < 128) (hn : n + 7 ≤ 64) :
    2 ^ n * c % 2 ^ 64 ||| 2 ^ (n + 7) * m % 2 ^ 64 = 2 ^ n * (c + 128 * m) % 2 ^ 64 := by
  obtain ⟨k, hk⟩ := Nat.exists_eq_add_of_le hn
  have hlow : 2 ^ n * c < 2 ^ (n + 7) := by
    rw [Nat.pow_add]
    exact Nat.mul_lt_mul_of_pos_left hc (Nat.two_pow_pos n)
  have hhigh : 2 ^ (n + 7) * m % 2 ^ 64 = 2 ^ (n + 7) * (m % 2 ^ k) := by
    rw [hk, Nat.pow_add 2 (n + 7) k, Nat.mul_mod_mul_left]
  have hsum : 2 ^ n * (c + 128 * m) = 2 ^ (n + 7) * m + 2 ^ n * c := by
    rw [Nat.pow_add]
    ring
  have hle : 2 ^ (n + 7) ≤ 2 ^ 64 := Nat.pow_le_pow_right (by norm_num) hn
  have hfit : 2 ^ (n + 7) * (m % 2 ^ k) + 2 ^ n * c < 2 ^ 64 := by
    have hlt : m % 2 ^ k + 1 ≤ 2 ^ k := Nat.mod_lt _ (Nat.two_pow_pos k)
    calc 2 ^ (n + 7) * (m % 2 ^ k) + 2 ^ n * c < 2 ^ (n + 7) * (m % 2 ^ k) + 2 ^ (n + 7) := by omega
      _ = 2 ^ (n + 7) * (m % 2 ^ k + 1) := by ring
      _ ≤ 2 ^ (n + 7) * 2 ^ k := Nat.mul_le_mul_left _ hlt
      _ = 2 ^ 64 := by rw [← Nat.pow_add, ← hk]
  rw [Nat.mod_eq_of_lt (hlow.trans_le hle), hhigh, Nat.or_comm, ← Nat.two_pow_add_eq_or_of_lt hlow, hsum, Nat.add_mod, hhigh,
    Nat.mod_eq_of_lt (hlow.trans_le hle), Nat.mod_eq_of_lt hfit]

lemma ulebValue_eq (h : n + 7 * l.length ≤ 70) : ulebValue n l = UInt64.ofNat (2 ^ n * lebNat l) := by
  induction l generalizing n with
  | nil => rfl
  | cons b l ih =>
    rw [List.length_cons] at h
    rw [ulebValue, ih (by omega), lebNat]
    apply UInt64.toNat_inj.mp
    rw [UInt64.toNat_or, sevenBits_toNat (by omega), UInt64.toNat_ofNat', UInt64.toNat_ofNat']
    cases l with
    | nil => rw [lebNat, Nat.mul_zero, Nat.mul_zero, Nat.zero_mod, Nat.or_zero, Nat.add_zero]
    | cons c l =>
      rw [List.length_cons] at h
      exact or_eq_add (Nat.mod_lt _ (by norm_num)) (by omega)

lemma slebValue_eq_or (h : IsLeb l) : ∃ b ∈ l.getLast?, slebValue n l = ulebValue n l ||| signBits b (n + 7 * l.length) := by
  induction h generalizing n with
  | @last b hb => exact ⟨b, rfl, by simp [slebValue, ulebValue, hb]⟩
  | @more b l hb hl ih =>
    obtain ⟨c, hc, hval⟩ := ih (n := n + 7)
    refine ⟨c, ?_, ?_⟩
    · rw [Option.mem_def] at hc ⊢
      rw [List.getLast?_cons, hc, Option.getD_some]
    · rw [slebValue, if_neg hb, hval, ulebValue, UInt64.or_assoc, List.length_cons]
      congr 3
      ring

lemma signBits_toNat (hb : b &&& 0x40 ≠ 0) (hpos : 0 < n) (hn : n ≤ 4) : (signBits b (7 * n)).toNat = 2 ^ 64 - 2 ^ (7 * n) := by
  rw [signBits, if_pos ⟨by omega, hb⟩]
  interval_cases n <;> decide

lemma or_sign {m : ℕ} (hm : m < 2 ^ n) (hn : 2 ^ n ≤ 2 ^ 64) : m ||| (2 ^ 64 - 2 ^ n) = 2 ^ 64 - 2 ^ n + m := by
  have hle : n ≤ 64 := (Nat.pow_le_pow_iff_right (by norm_num)).mp hn
  have hmul : 2 ^ 64 - 2 ^ n = 2 ^ n * (2 ^ (64 - n) - 1) := by
    rw [Nat.mul_sub, Nat.mul_one, ← Nat.pow_add, Nat.add_sub_cancel' hle]
  rw [hmul, Nat.or_comm, ← Nat.two_pow_add_eq_or_of_lt hm]

def SlebRead (l : List UInt8) : Prop := l.length ≤ 4 ∨ l.length = 10 ∨ l.length ≤ 10 ∧ ¬ lebNegative l

lemma ofInt_eq {z : ℤ} {m : ℕ} (h : z % 2 ^ 64 = (m : ℤ) % 2 ^ 64) : UInt64.ofInt z = UInt64.ofNat m := by
  apply UInt64.toNat_inj.mp
  rw [UInt64.ofInt, h, UInt64.toNat_ofNat', UInt64.toNat_ofNat']
  omega

lemma slebValue_eq (hl : IsLeb l) (h : SlebRead l) : slebValue 0 l = UInt64.ofInt (lebInt l) := by
  obtain ⟨b, hb, hval⟩ := slebValue_eq_or (n := 0) hl
  have hlen : 0 + 7 * l.length ≤ 70 := by
    rcases h with h | h | ⟨h, -⟩ <;> omega
  rw [hval, ulebValue_eq hlen, Nat.pow_zero, Nat.one_mul, Nat.zero_add]
  have hsign : lebNegative l ↔ b &&& 0x40 ≠ 0 := by
    rw [Option.mem_def] at hb
    simp [lebNegative, hb]
  by_cases hneg : b &&& 0x40 = 0
  · -- a number that is not negative
    rw [signBits, if_neg (fun hno => hno.2 hneg), UInt64.or_zero, lebInt, if_neg (by rw [hsign, not_not]; exact hneg)]
    exact (ofInt_eq rfl).symm
  have hint : lebInt l = (lebNat l : ℤ) - 128 ^ l.length := if_pos (hsign.mpr hneg)
  have hlt := lebNat_lt l
  rcases h with h | h | ⟨-, hno⟩
  · -- the sign is extended from at most 28 bits
    have hpow : 128 ^ l.length = 2 ^ (7 * l.length) := by rw [Nat.pow_mul]
    have hle : 2 ^ (7 * l.length) ≤ 2 ^ 64 := Nat.pow_le_pow_right (by norm_num) (by omega)
    rw [hpow] at hlt
    have hz : lebInt l % 2 ^ 64 = ((2 ^ 64 - 2 ^ (7 * l.length) + lebNat l : ℕ) : ℤ) % 2 ^ 64 := by
      have hcast : ((128 : ℤ) ^ l.length) = ((2 ^ (7 * l.length) : ℕ) : ℤ) := by exact_mod_cast hpow
      rw [hint, hcast]
      omega
    rw [ofInt_eq hz]
    apply UInt64.toNat_inj.mp
    rw [UInt64.toNat_or, signBits_toNat hneg hl.length_pos h, UInt64.toNat_ofNat', UInt64.toNat_ofNat',
      Nat.mod_eq_of_lt (hlt.trans_le hle), or_sign hlt hle]
    omega
  · -- the last group ends at the highest bit
    rw [signBits, if_neg (by omega), UInt64.or_zero, hint, h]
    refine (ofInt_eq ?_).symm
    norm_num
    omega
  · exact absurd (hsign.mpr hneg) hno

end Numbers

namespace Dwarf

inductive LineOp where
  | copy
  | advancePc (delta : Leb)
  | advanceLine (delta : Leb)
  | setFile (file : Leb)
  | setColumn (column : Leb)
  | negateStmt
  | setBasicBlock
  | constAddPc
  | fixedAdvancePc (delta : {x : List UInt8 // x.length = 2})
  | setPrologueEnd
  | setEpilogueBegin
  | setIsa (isa : Leb)
  | special (op : {b : UInt8 // 13 ≤ b.toNat})
  | endSequence (size : Leb)
  | setAddress (size : Leb) (addr : {x : List UInt8 // x.length = 8})
  | defineFile (size : Leb) (file : FileEntry)
  | unknown (size : Leb) (op : {b : UInt8 // b.toNat ∉ [1, 2, 3]}) (operands : List UInt8)

namespace LineOp

def encode : LineOp → List UInt8
  | copy => [1]
  | advancePc delta => 2 :: delta.1
  | advanceLine delta => 3 :: delta.1
  | setFile file => 4 :: file.1
  | setColumn column => 5 :: column.1
  | negateStmt => [6]
  | setBasicBlock => [7]
  | constAddPc => [8]
  | fixedAdvancePc delta => 9 :: delta.1
  | setPrologueEnd => [10]
  | setEpilogueBegin => [11]
  | setIsa isa => 12 :: isa.1
  | special op => [op.1]
  | endSequence size => 0 :: (size.1 ++ [1])
  | setAddress size addr => 0 :: (size.1 ++ 2 :: addr.1)
  | defineFile size file => 0 :: (size.1 ++ 3 :: file.encode)
  | unknown size op operands => 0 :: (size.1 ++ op.1 :: operands)

def Sized : LineOp → Prop
  | endSequence size => lebNat size = 1
  | setAddress size _ => lebNat size = 9
  | defineFile size file => lebNat size = 1 + file.encode.length
  | unknown size _ operands => lebNat size = 1 + operands.length
  | _ => True

def run (dh : DebugHeader) (regs : AddrLine) : LineOp → AddrLine × Option AddrLine
  | copy => (regs, some regs)
  | advancePc delta =>
    ({ regs with addr := regs.addr + UInt64.ofNat (dh.minInstructionLength.toNat * lebNat delta) }, none)
  | advanceLine delta => ({ regs with line := regs.line + UInt64.ofInt (lebInt delta) }, none)
  | setFile file => ({ regs with file := UInt64.ofNat (lebNat file) }, none)
  | constAddPc =>
    ({ regs with addr := regs.addr +
        UInt64.ofNat (dh.minInstructionLength.toNat * ((255 - dh.opcodeBase.toNat) / dh.lineRange.toNat)) }, none)
  | fixedAdvancePc delta => ({ regs with addr := regs.addr + uintValue delta }, none)
  | special op =>
    let adjusted := op.1.toNat - dh.opcodeBase.toNat
    let regs := { regs with
      addr := regs.addr + UInt64.ofNat (dh.minInstructionLength.toNat * (adjusted / dh.lineRange.toNat))
      line := regs.line + UInt64.ofInt (dh.lineBase.toInt + (adjusted % dh.lineRange.toNat : ℕ)) }
    (regs, some regs)
  | endSequence _ => (⟨0, 1, 1⟩, some regs)
  | setAddress _ addr => ({ regs with addr := uintValue addr }, none)
  | setColumn _ | negateStmt | setBasicBlock | setPrologueEnd | setEpilogueBegin | setIsa _ | defineFile _ _ | unknown _ _ _ =>
    (regs, none)

end LineOp

def programRows (dh : DebugHeader) : AddrLine → List LineOp → List AddrLine
  | _, [] => []
  | regs, op :: ops => (op.run dh regs).2.toList ++ programRows dh (op.run dh regs).1 ops

structure CompilationUnit where
  header : {x : List UInt8 // x.length = sizeofDebugHeader}
  dirs : List Name
  files : List FileEntry
  program : List LineOp

namespace CompilationUnit

def tables (u : CompilationUnit) : List UInt8 := u.dirs.flatMap encodeDir ++ 0 :: (u.files.flatMap FileEntry.encode ++ [0])

def encode (u : CompilationUnit) : List UInt8 := u.header.1 ++ (u.tables ++ u.program.flatMap LineOp.encode)

structure WellFormed (u : CompilationUnit) : Prop where
  length : Nat.ofDigits 256 ((u.header.1.take 4).map UInt8.toNat) = u.encode.length - 4
  version : uintValue ((u.header.1.drop 4).take 2) = 2 ∨ uintValue ((u.header.1.drop 4).take 2) = 3
  headerLength : Nat.ofDigits 256 (((u.header.1.drop 6).take 4).map UInt8.toNat) = sizeofDebugHeader - 10 + u.tables.length
  lineRange : (debugHeader u.header).lineRange ≠ 0
  opcodeBase : (debugHeader u.header).opcodeBase = 13
  opcodeLengths : u.header.1.drop 15 = [0, 1, 1, 1, 1, 0, 0, 0, 1, 0, 0, 1]
  sized : ∀ op ∈ u.program, op.Sized
  ends : ∀ op ∈ u.program.getLast?, ∃ size, op = .endSequence size

def rows (u : CompilationUnit) : List AddrLine := programRows (debugHeader u.header) ⟨0, 1, 1⟩ u.program

end CompilationUnit

def rebase (fileBase : ℕ) (row : AddrLine) : AddrLine := { row with file := row.file - 1 + UInt64.ofNat fileBase }

def sectionRows (fileBase : ℕ) : List CompilationUnit → List AddrLine
  | [] => []
  | u :: us => u.rows.map (rebase fileBase) ++ sectionRows (fileBase + u.files.length) us

def lastOfRuns : List AddrLine → List AddrLine
  | [] => []
  | [row] => [row]
  | row :: next :: rest => if row.addr = next.addr then lastOfRuns (next :: rest) else row :: lastOfRuns (next :: rest)

def LineOp.Known : LineOp → Prop
  | .advancePc x | .setFile x => x.1.length ≤ 10
  | .advanceLine delta => SlebRead delta
  | .setPrologueEnd | .setEpilogueBegin | .setIsa _ | .endSequence _ | .defineFile _ _ => False
  | .unknown _ op operands => if op.1.toNat = 4 then IsLeb operands else operands = []
  | _ => True

def CompilationUnit.OneSequence (u : CompilationUnit) : Prop :=
  ∃ ops size, u.program = ops ++ [.endSequence size] ∧ ∀ op ∈ ops, op.Known

def pushRows (line : List AddrLine) (rows : List AddrLine) : List AddrLine := rows.foldl (fun line row => pushRow row line) line

section Refines

variable {dh : DebugHeader} {fileBase : ℕ} {regs : AddrLine} {line : List AddrLine}

lemma rebase_file (row : AddrLine) : rebase fileBase row = { row with file := row.file + (UInt64.ofNat fileBase - 1) } := by
  rw [rebase]
  congr 1
  grind

lemma addrDelta_eq (a : ℕ) : dh.addrDelta a = UInt64.ofNat (dh.minInstructionLength.toNat * (a / dh.lineRange.toNat)) := by
  refine ofInt_eq (congrArg (· % 2 ^ 64) ?_)
  rw [← Int.ofNat_tdiv]
  push_cast
  ring

lemma LineOp.exists_op (hbase : dh.opcodeBase = 13) (op : LineOp) (h : op.Known) :
    ∃ op' : Op, op'.encode = op.encode ∧ ∀ fileBase regs line, op'.effect dh fileBase ⟨regs, line⟩ =
      ⟨(op.run dh regs).1, pushRows line ((op.run dh regs).2.toList.map (rebase fileBase))⟩ := by
  cases op with
  | copy => exact ⟨.copy, rfl, fun fileBase regs line => by rw [run, Option.toList, List.map_singleton, rebase_file]; rfl⟩
  | advancePc delta =>
    refine ⟨.advancePc delta, rfl, fun fileBase regs line => ?_⟩
    have hlen : 0 + 7 * delta.1.length ≤ 70 := by
      change delta.1.length ≤ 10 at h
      omega
    rw [Op.effect, ulebValue_eq hlen, Nat.pow_zero, Nat.one_mul, ← UInt64.ofNat_uInt8ToNat, ← UInt64.ofNat_mul, Nat.mul_comm]
    rfl
  | advanceLine delta =>
    refine ⟨.advanceLine delta, rfl, fun fileBase regs line => ?_⟩
    rw [Op.effect, slebValue_eq delta.2 h]
    rfl
  | setFile file =>
    refine ⟨.setFile file, rfl, fun fileBase regs line => ?_⟩
    have hlen : 0 + 7 * file.1.length ≤ 70 := by
      change file.1.length ≤ 10 at h
      omega
    rw [Op.effect, ulebValue_eq hlen, Nat.pow_zero, Nat.one_mul]
    rfl
  | setColumn column => exact ⟨.setColumn column, rfl, fun _ _ _ => rfl⟩
  | negateStmt => exact ⟨.negateStmt, rfl, fun _ _ _ => rfl⟩
  | setBasicBlock => exact ⟨.setBasicBlock, rfl, fun _ _ _ => rfl⟩
  | constAddPc =>
    refine ⟨.constAddPc, rfl, fun fileBase regs line => ?_⟩
    have hadjust : (255 : ℤ) - dh.opcodeBase.toNat = (255 - dh.opcodeBase.toNat : ℕ) := by
      have := dh.opcodeBase.toNat_lt
      omega
    rw [Op.effect, hadjust, addrDelta_eq]
    rfl
  | fixedAdvancePc delta => exact ⟨.fixedAdvancePc delta, rfl, fun _ _ _ => rfl⟩
  | setPrologueEnd => exact h.elim
  | setEpilogueBegin => exact h.elim
  | setIsa isa => exact h.elim
  | special op =>
    have hop := op.2
    refine ⟨.special ⟨op.1, by omega⟩, rfl, fun fileBase regs line => ?_⟩
    have hadjust : (op.1.toNat : ℤ) - dh.opcodeBase.toNat = (op.1.toNat - dh.opcodeBase.toNat : ℕ) := by
      rw [hbase]
      change (op.1.toNat : ℤ) - (13 : ℕ) = (op.1.toNat - 13 : ℕ)
      omega
    rw [Op.effect]
    dsimp only
    rw [hadjust, addrDelta_eq, run, Option.toList, List.map_singleton, rebase_file, DebugHeader.lineDelta, ← Int.ofNat_tmod]
    rfl
  | endSequence size => exact h.elim
  | setAddress size addr => exact ⟨.setAddress size addr, rfl, fun _ _ _ => rfl⟩
  | defineFile size file => exact h.elim
  | unknown size op operands =>
    obtain ⟨b, hb⟩ := op
    rw [Known] at h
    dsimp only at h
    split_ifs at h with h4
    · obtain rfl := eq_ofNat h4
      exact ⟨.setDiscriminator size ⟨operands, h⟩, rfl, fun _ _ _ => rfl⟩
    · subst h
      refine ⟨.unknown size ⟨b, ?_⟩, rfl, fun _ _ _ => rfl⟩
      rw [List.mem_cons, List.mem_cons, List.mem_singleton] at hb ⊢
      omega

lemma pushRows_append (rows rows' : List AddrLine) : pushRows line (rows ++ rows') = pushRows (pushRows line rows) rows' :=
  List.foldl_append

lemma programRows_append (ops ops' : List LineOp) : programRows dh regs (ops ++ ops') =
    programRows dh regs ops ++ programRows dh (ops.foldl (fun regs op => (op.run dh regs).1) regs) ops' := by
  induction ops generalizing regs with
  | nil => rfl
  | cons op ops ih => rw [List.cons_append, programRows, ih, programRows, List.append_assoc, List.foldl_cons]

lemma exists_ops (hbase : dh.opcodeBase = 13) {ops : List LineOp} (h : ∀ op ∈ ops, op.Known) :
    ∃ ops' : List Op, ops'.flatMap Op.encode = ops.flatMap LineOp.encode ∧ ∀ fileBase regs line,
      ops'.foldl (Op.effect dh fileBase) ⟨regs, line⟩ = ⟨ops.foldl (fun regs op => (op.run dh regs).1) regs,
        pushRows line ((programRows dh regs ops).map (rebase fileBase))⟩ := by
  induction ops with
  | nil => exact ⟨[], rfl, fun _ _ _ => rfl⟩
  | cons op ops ih =>
    rw [List.forall_mem_cons] at h
    obtain ⟨op', henc, heff⟩ := op.exists_op hbase h.1
    obtain ⟨ops', hencs, heffs⟩ := ih h.2
    refine ⟨op' :: ops', by rw [List.flatMap_cons, List.flatMap_cons, henc, hencs], fun fileBase regs line => ?_⟩
    rw [List.foldl_cons, heff, heffs, List.foldl_cons, programRows, List.map_append, pushRows_append]

lemma CompilationUnit.exists_unit {u : CompilationUnit} (hu : u.WellFormed) (h : u.OneSequence) :
    ∃ u' : LineUnit, u'.encode = u.encode ∧ u'.dirs = u.dirs ∧ u'.files = u.files ∧ u'.Divides ∧ ∀ fileBase line,
      u'.rows fileBase line = pushRows line (u.rows.map (rebase fileBase)) := by
  obtain ⟨ops, size, hprogram, hknown⟩ := h
  obtain ⟨ops', hencs, heffs⟩ := exists_ops hu.opcodeBase hknown
  refine ⟨⟨u.header, u.dirs, u.files, ops', size⟩, ?_, rfl, rfl, fun _ _ _ => hu.lineRange, fun fileBase line => ?_⟩
  · rw [LineUnit.encode, CompilationUnit.encode, hencs, hprogram, tables]
    simp [LineOp.encode, encodeEnd]
  · rw [LineUnit.rows, heffs, CompilationUnit.rows, hprogram, programRows_append, List.map_append, pushRows_append]
    change pushRow _ _ = pushRow (rebase fileBase _) _
    rw [rebase_file]

lemma exists_units {us : List CompilationUnit} (hu : ∀ u ∈ us, u.WellFormed) (h : ∀ u ∈ us, u.OneSequence) :
    ∃ us' : List LineUnit, us'.flatMap LineUnit.encode = us.flatMap CompilationUnit.encode ∧ (∀ u ∈ us', u.Divides) ∧
      dirCount us' = (us.map fun u => u.dirs.length).sum ∧ fileCount us' = (us.map fun u => u.files.length).sum ∧
      ∀ fileBase line, unitRows fileBase line us' = pushRows line (sectionRows fileBase us) := by
  induction us with
  | nil => exact ⟨[], rfl, nofun, rfl, rfl, fun _ _ => rfl⟩
  | cons u us ih =>
    rw [List.forall_mem_cons] at hu h
    obtain ⟨u', henc, hdirs, hfiles, hdiv, hrows⟩ := CompilationUnit.exists_unit hu.1 h.1
    obtain ⟨us', hencs, hdivs, hdir, hfile, hrest⟩ := ih hu.2 h.2
    refine ⟨u' :: us', ?_, List.forall_mem_cons.mpr ⟨hdiv, hdivs⟩, ?_, ?_, fun fileBase line => ?_⟩
    · rw [List.flatMap_cons, List.flatMap_cons, henc, hencs]
    · rw [List.map_cons, List.sum_cons, ← hdir, ← hdirs]
      rfl
    · rw [List.map_cons, List.sum_cons, ← hfile, ← hfiles]
      rfl
    · rw [unitRows, hrows, hrest, hfiles, sectionRows, pushRows_append]

lemma lastOfRuns_ne_nil (row : AddrLine) (rows : List AddrLine) : lastOfRuns (row :: rows) ≠ [] := by
  induction rows generalizing row with
  | nil => simp [lastOfRuns]
  | cons next rows ih =>
    rw [lastOfRuns]
    split_ifs
    · exact ih next
    · simp

lemma pushRow_append {row : AddrLine} (h : line ≠ []) (rest : List AddrLine) :
    pushRow row (line ++ rest) = pushRow row line ++ rest := by
  cases line with
  | nil => exact absurd rfl h
  | cons last line =>
    rw [List.cons_append, pushRow, pushRow]
    split_ifs
    · rfl
    · rfl

lemma lastOfRuns_append (rows : List AddrLine) (row : AddrLine) :
    lastOfRuns (rows ++ [row]) = (pushRow row (lastOfRuns rows).reverse).reverse := by
  induction rows with
  | nil => rfl
  | cons a rows ih =>
    cases rows with
    | nil =>
      change (if a.addr = row.addr then [row] else [a, row]) = (if a.addr = row.addr then [row] else [row, a]).reverse
      split_ifs
      · rfl
      · rfl
    | cons b rows =>
      rw [List.cons_append, List.cons_append, lastOfRuns, ← List.cons_append, ih, lastOfRuns]
      split_ifs
      · rfl
      · have hne : (lastOfRuns (b :: rows)).reverse ≠ [] := by simp [lastOfRuns_ne_nil]
        rw [List.reverse_cons, pushRow_append hne, List.reverse_append, List.reverse_singleton, List.singleton_append]

lemma reverse_pushRows (rows : List AddrLine) : (pushRows [] rows).reverse = lastOfRuns rows := by
  induction rows using List.reverseRecOn with
  | nil => rfl
  | append_singleton rows row ih =>
    rw [pushRows_append, lastOfRuns_append, ← ih, List.reverse_reverse]
    rfl

end Refines

/-- Where every unit is one sequence of known opcodes, the table has the rows of the line-number program. -/
theorem makeAddrLine_rows {us : List CompilationUnit} (hu : ∀ u ∈ us, u.WellFormed) (h : ∀ u ∈ us, u.OneSequence)
    (hdirs : (us.map fun u => u.dirs.length).sum ≤ 64) (hfiles : (us.map fun u => u.files.length).sum ≤ 64) :
    ∃ t, makeAddrLine (us.flatMap CompilationUnit.encode) = .ok t ∧ t.line.reverse = lastOfRuns (sectionRows 0 us) := by
  obtain ⟨us', henc, hdiv, hdir, hfile, hrows⟩ := exists_units hu h
  obtain ⟨t, ht, hline⟩ := readUnits_encode (t := ⟨[], [], []⟩) hdiv (by rw [hdir]; simpa using hdirs)
    (by rw [hfile]; simpa using hfiles)
  rw [henc] at ht
  exact ⟨t, ht, by rw [hline, ← reverse_pushRows]; exact congrArg List.reverse (hrows 0 [])⟩

def leb (b : UInt8) (h : b &&& 0x80 = 0) : Leb := ⟨[b], .last h⟩

def sampleUnit (prologueEnd : Bool) : CompilationUnit where
  header := ⟨[48, 0, 0, 0, 3, 0, 24, 0, 0, 0, 1, 1, 251, 14, 13, 0, 1, 1, 1, 1, 0, 0, 0, 1, 0, 0, 1], rfl⟩
  dirs := []
  files := [⟨⟨[97], by decide⟩, leb 0 rfl, leb 0 rfl, leb 0 rfl⟩]
  program := [.setAddress (leb 9 rfl) ⟨[0, 16, 0, 0, 0, 0, 0, 0], rfl⟩, if prologueEnd then .setPrologueEnd else .negateStmt,
    .copy, .advancePc (leb 4 rfl), .endSequence (leb 1 rfl)]

lemma sampleUnit_wellFormed (prologueEnd : Bool) : (sampleUnit prologueEnd).WellFormed where
  length := by cases prologueEnd <;> decide
  version := .inr rfl
  headerLength := by cases prologueEnd <;> decide
  lineRange := by cases prologueEnd <;> decide
  opcodeBase := rfl
  opcodeLengths := rfl
  sized := by cases prologueEnd <;> simp [sampleUnit, LineOp.Sized, leb, lebNat]
  ends := by simp [sampleUnit]

theorem makeAddrLine_rows_of_sample : ∃ t, makeAddrLine (sampleUnit false).encode = .ok t ∧
    t.line.reverse = lastOfRuns (sectionRows 0 [sampleUnit false]) := by
  have hone : (sampleUnit false).OneSequence := by
    refine ⟨_, leb 1 rfl, (List.dropLast_append_getLast (by simp [sampleUnit])).symm, ?_⟩
    simp [sampleUnit, LineOp.Known, leb]
  have hwell : ∀ u ∈ [sampleUnit false], u.WellFormed := by simp [sampleUnit_wellFormed]
  obtain ⟨t, ht, hrows⟩ := makeAddrLine_rows hwell (by simp [hone]) (by simp [sampleUnit]) (by simp [sampleUnit])
  rw [List.flatMap_singleton] at ht
  exact ⟨t, ht, hrows⟩

theorem prologue_end_spoils_lines : (sampleUnit true).WellFormed ∧ ∃ t,
    makeAddrLine (sampleUnit true).encode = .ok t ∧
      t.line.reverse ≠ lastOfRuns (sectionRows 0 [sampleUnit true]) := by
  refine ⟨sampleUnit_wellFormed true, ?_⟩
  have hrun : (makeAddrLine (sampleUnit true).encode).toOption.any (fun t =>
      decide (t.line.reverse ≠ lastOfRuns (sectionRows 0 [sampleUnit true]))) = true := by decide +kernel
  obtain ⟨t, ht, hne⟩ := (Option.any_eq_true _ _).mp hrun
  rw [decide_eq_true_eq] at hne
  refine ⟨t, ?_, hne⟩
  cases hout : makeAddrLine (sampleUnit true).encode with
  | error e =>
    rw [hout] at ht
    cases ht
  | ok t' =>
    rw [hout] at ht
    cases ht
    rfl

end Dwarf

end Pke.Loader
