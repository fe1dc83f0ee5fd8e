import Pke.Loader.LineTable

/-! `print_errorline`, up to the line that it reports. -/

namespace Pke.Loader

inductive ReportFault where
  /-- No row was selected, and `errorline` is null. -/
  | nullLine
  | file
  | dir
  | name
  /-- `errorpath` has 100 bytes. -/
  | longPath
  deriving DecidableEq

/-- The loop over `proc->line`; `min` changes only where the loop ends. -/
def position (epc min : UInt64) : List AddrLine → Option AddrLine
  | [] => none
  | row :: line => if epc ≤ row.addr ∧ row.addr < min then some row else position epc min line

def errorLine (line : List AddrLine) (epc : UInt64) : Option AddrLine := position epc 0xffffffffffffffff line

def stringAt (sec : List UInt8) (p : ℕ) : Except ReportFault (List UInt8) :=
  if 0 ∈ sec.drop p then .ok ((sec.drop p).takeWhile (· ≠ 0)) else .error .name

def errorPath (sec : List UInt8) (t : LineTable) (errorline : AddrLine) : Except ReportFault (List UInt8) :=
  match t.file.reverse[errorline.file.toNat]? with
  | none => .error .file
  | some errorfile =>
    match t.dir.reverse[errorfile.dir.toNat]? with
    | none => .error .dir
    | some dir => do
      let dir ← stringAt sec dir
      let file ← stringAt sec errorfile.file
      if dir.length + 1 + file.length < 100 then .ok (dir ++ 47 :: file) else .error .longPath

def printErrorline (sec : List UInt8) (t : LineTable) (epc : UInt64) : Except ReportFault (List UInt8 × UInt64) :=
  match errorLine t.line.reverse epc with
  | none => .error .nullLine
  | some errorline => do
    let path ← errorPath sec t errorline
    .ok (path, errorline.line)

section Rows

variable {line : List AddrLine} {epc min : UInt64} {row r : AddrLine}

/-- The pc is in the part of the program that the rows divide up. -/
def Inside (line : List AddrLine) (epc : UInt64) : Prop :=
  ∃ first last, line.head? = some first ∧ line.getLast? = some last ∧ first.addr ≤ epc ∧ epc < last.addr

/-- The instruction at `epc` belongs to the row. -/
structure Covers (line : List AddrLine) (epc : UInt64) (row : AddrLine) : Prop where
  mem : row ∈ line
  le : row.addr ≤ epc
  greatest : ∀ r ∈ line, r.addr ≤ epc → r.addr ≤ row.addr

def SortedLines (line : List AddrLine) : Prop := line.Pairwise fun a b => a.addr ≤ b.addr

lemma position_spec (h : position epc min line = some row) : row ∈ line ∧ epc ≤ row.addr := by
  induction line with
  | nil => cases h
  | cons a line ih =>
    rw [position] at h
    split at h
    · next ha =>
      cases h
      exact ⟨List.mem_cons_self, ha.1⟩
    · exact ⟨List.mem_cons_of_mem _ (ih h).1, (ih h).2⟩

lemma position_le (hs : SortedLines line) (hr : r ∈ line) (hepc : epc ≤ r.addr) (hmin : r.addr < min) :
    ∃ row, position epc min line = some row ∧ row.addr ≤ r.addr := by
  induction line with
  | nil => cases hr
  | cons a line ih =>
    rw [SortedLines, List.pairwise_cons] at hs
    rw [position]
    split
    · refine ⟨a, rfl, ?_⟩
      cases hr with
      | head => exact UInt64.le_refl _
      | tail _ hr => exact hs.1 r hr
    · next ha =>
      cases hr with
      | head => exact absurd ⟨hepc, hmin⟩ ha
      | tail _ hr => exact ih hs.2 hr

lemma errorLine_covers_iff (hs : SortedLines line) (hin : Inside line epc) :
    (∃ row, errorLine line epc = some row ∧ Covers line epc row) ↔ ∃ row ∈ line, row.addr = epc := by
  constructor
  · rintro ⟨row, hrow, hc⟩
    obtain ⟨hmem, hge⟩ := position_spec hrow
    exact ⟨row, hmem, UInt64.le_antisymm hc.le hge⟩
  · rintro ⟨r, hr, rfl⟩
    obtain ⟨-, last, -, -, -, hlast⟩ := hin
    -- an address below another one is not the initial `min`
    have hmin : r.addr < 0xffffffffffffffff := UInt64.lt_of_lt_of_le hlast (Nat.le_of_lt_succ last.addr.toNat_lt)
    obtain ⟨row, hrow, hle⟩ := position_le hs hr (UInt64.le_refl _) hmin
    obtain ⟨hmem, hge⟩ := position_spec hrow
    refine ⟨row, hrow, hmem, hle, fun r' _ hr' => ?_⟩
    exact UInt64.le_trans hr' hge

end Rows

/-- The row that is reported covers the pc; without such a row none is selected or dereferenced. -/
structure Reports (sec : List UInt8) (t : LineTable) (epc : UInt64) : Prop where
  inside : Inside t.line.reverse epc → ∃ row, errorLine t.line.reverse epc = some row ∧ Covers t.line.reverse epc row
  outside : ¬ Inside t.line.reverse epc →
    errorLine t.line.reverse epc = none ∧ printErrorline sec t epc ≠ .error .nullLine

lemma printErrorline_of_none {sec : List UInt8} {t : LineTable} {epc : UInt64} (h : errorLine t.line.reverse epc = none) :
    printErrorline sec t epc = .error .nullLine := by
  rw [printErrorline, h]

theorem errorline_is_reported_iff (sec : List UInt8) (t : LineTable) (hs : SortedLines t.line.reverse) (epc : UInt64) :
    Reports sec t epc ↔ Inside t.line.reverse epc ∧ ∃ row ∈ t.line.reverse, row.addr = epc := by
  constructor
  · intro h
    by_cases hin : Inside t.line.reverse epc
    · exact ⟨hin, (errorLine_covers_iff hs hin).mp (h.inside hin)⟩
    · obtain ⟨hnone, hreport⟩ := h.outside hin
      exact absurd (printErrorline_of_none hnone) hreport
  · rintro ⟨hin, hrow⟩
    exact ⟨fun _ => (errorLine_covers_iff hs hin).mpr hrow, fun hout => absurd hin hout⟩

def twoLines : LineTable where
  dir := [0]
  file := [⟨0, 2⟩]
  line := [⟨16, 3, 0⟩, ⟨8, 2, 0⟩, ⟨0, 1, 0⟩]

theorem errorline_is_reported_for_first_instruction : Reports [97, 0, 98, 0] twoLines 8 := by
  refine (errorline_is_reported_iff [97, 0, 98, 0] twoLines (by rw [SortedLines]; decide) 8).mpr ⟨?_, ⟨8, 2, 0⟩, by decide, rfl⟩
  exact ⟨⟨0, 1, 0⟩, ⟨16, 3, 0⟩, rfl, rfl, by decide, by decide⟩

theorem next_line_is_reported :
    printErrorline [97, 0, 98, 0] twoLines 4 = .ok ([97, 47, 98], 2) ∧ Covers twoLines.line.reverse 4 ⟨0, 1, 0⟩ ∧
      ¬ Reports [97, 0, 98, 0] twoLines 4 := by
  have hcov : Covers twoLines.line.reverse 4 ⟨0, 1, 0⟩ := ⟨by decide, by decide, by decide⟩
  refine ⟨by decide, hcov, fun h => ?_⟩
  obtain ⟨row, hrow, hc⟩ := h.inside ⟨⟨0, 1, 0⟩, ⟨16, 3, 0⟩, rfl, rfl, by decide, by decide⟩
  obtain rfl : (⟨8, 2, 0⟩ : AddrLine) = row := Option.some.inj hrow
  exact absurd hc.le (by decide)

end Pke.Loader
