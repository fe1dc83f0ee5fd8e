import Pke.Loader.LineOps

namespace Pke.Loader

open Lib

structure CodeFile where
  dir : UInt64
  file : ℕ
  deriving DecidableEq

/-- `p->dir`, `p->file` and `p->line[0..line_ind)`, the last entry of each first. -/
structure LineTable where
  dir : List ℕ
  file : List CodeFile
  line : List AddrLine
  deriving DecidableEq

section Entries

variable {α ξ : Type} {full : Fault} {one : Reader α} {acc acc' : List α} {l r : List UInt8} {enc : ξ → List UInt8}

def readEntries (full : Fault) (one : Reader α) (hone : ∀ {l a r}, one l = .ok (a, r) → r.length < l.length) (acc : List α) :
    Reader (List α)
  | [] => .error .outside
  | b :: r =>
    if b = 0 then .ok (acc, r)
    else if 64 ≤ acc.length then .error full
    else
      match h : one (b :: r) with
      | .error e => .error e
      | .ok (a, r') => readEntries full one hone (a :: acc) r'
termination_by l => l.length
decreasing_by exact hone h

variable (hone : ∀ {l a r}, one l = .ok (a, r) → r.length < l.length)

lemma readEntries_encode (hfirst : ∀ x, ∃ b l, enc x = b :: l ∧ b ≠ 0) (henc : ∀ x r, ∃ a, one (enc x ++ r) = .ok (a, r))
    (xs : List ξ) (hroom : acc.length + xs.length ≤ 64) :
    ∃ acc', acc'.length = acc.length + xs.length ∧
      readEntries full one hone acc (xs.flatMap enc ++ 0 :: r) = .ok (acc', r) := by
  induction xs generalizing acc with
  | nil => exact ⟨acc, rfl, by simp [readEntries]⟩
  | cons x xs ih =>
    rw [List.length_cons] at hroom
    obtain ⟨b, l, hx, hb⟩ := hfirst x
    obtain ⟨a, ha⟩ := henc x (xs.flatMap enc ++ 0 :: r)
    have hnext : (a :: acc).length + xs.length ≤ 64 := by
      rw [List.length_cons]
      omega
    obtain ⟨acc', hlen, hread⟩ := ih hnext
    refine ⟨acc', by rw [hlen, List.length_cons, List.length_cons]; omega, ?_⟩
    rw [hx, List.cons_append] at ha
    rw [List.flatMap_cons, hx, List.cons_append, List.cons_append, List.append_assoc, readEntries, if_neg hb, if_neg (by omega)]
    split
    · next h => rw [ha] at h; cases h
    · next h =>
      rw [ha] at h
      cases h
      exact hread

lemma readEntries_cases (hdec : ∀ {b l a r}, b ≠ 0 → one (b :: l) = .ok (a, r) → ∃ x, b :: l = enc x ++ r)
    (h : readEntries full one hone acc l = .ok (acc', r)) :
    ∃ xs : List ξ, l = xs.flatMap enc ++ 0 :: r ∧ acc'.length = acc.length + xs.length ∧ acc'.length ≤ max 64 acc.length := by
  fun_induction readEntries full one hone acc l with
  | case1 => cases h
  | case2 =>
    cases h
    exact ⟨[], rfl, rfl, le_max_right _ _⟩
  | case3 => cases h
  | case4 => cases h
  | case5 acc b l hb hfull a r' ha ih =>
    obtain ⟨x, hx⟩ := hdec hb ha
    obtain ⟨xs, rfl, hlen, hle⟩ := ih h
    rw [List.length_cons] at hlen hle
    refine ⟨x :: xs, ?_, by rw [hlen, List.length_cons]; omega, by omega⟩
    rw [hx, List.flatMap_cons, List.append_assoc]

end Entries

def readDir (size : ℕ) : Reader ℕ := fun l => do
  let r ← skipString l
  .ok (size - l.length, r)

def readFile (size dirBase : ℕ) : Reader CodeFile := fun l => do
  let r ← skipString l
  let (dir, r) ← readUleb128 r
  let (_, r) ← readUleb128 r
  let (_, r) ← readUleb128 r
  .ok (⟨dir - 1 + UInt64.ofNat dirBase, size - l.length⟩, r)

abbrev Name := {x : List UInt8 // x ≠ [] ∧ 0 ∉ x}

structure FileEntry where
  name : Name
  dir : Leb
  time : Leb
  size : Leb

def encodeDir (x : Name) : List UInt8 := x.1 ++ [0]

def FileEntry.encode (f : FileEntry) : List UInt8 := f.name.1 ++ 0 :: (f.dir.1 ++ (f.time.1 ++ f.size.1))

section Names

variable {size dirBase n : ℕ} {l r : List UInt8} {b : UInt8} {f : CodeFile}

lemma Name.head (x : Name) : ∃ b l, x.1 = b :: l ∧ b ≠ 0 := by
  obtain ⟨x, hne, hz⟩ := x
  cases x with
  | nil => exact absurd rfl hne
  | cons b l => exact ⟨b, l, rfl, fun hb => hz (hb ▸ List.mem_cons_self)⟩

lemma skipString_name (x : Name) : skipString (x.1 ++ 0 :: r) = .ok r := skipString_iff.mpr ⟨x, x.2.2, rfl⟩

lemma name_of_skipString (hb : b ≠ 0) (h : skipString (b :: l) = .ok r) : ∃ x : Name, b :: l = x.1 ++ 0 :: r := by
  obtain ⟨x, hz, hx⟩ := skipString_iff.mp h
  refine ⟨⟨x, ?_, hz⟩, hx⟩
  rintro rfl
  exact hb (List.cons.inj hx).1

lemma readDir_length (h : readDir size l = .ok (n, r)) : r.length < l.length := by
  rw [readDir, bind_eq_ok] at h
  obtain ⟨r', hr, h⟩ := h
  cases h
  exact skipString_length hr

lemma readDir_encode (x : Name) (r : List UInt8) : ∃ a, readDir size (encodeDir x ++ r) = .ok (a, r) := by
  rw [encodeDir, List.append_assoc, readDir, bind]
  exact ⟨_, bind_eq_ok.mpr ⟨r, skipString_name x, rfl⟩⟩

lemma readDir_cases (hb : b ≠ 0) (h : readDir size (b :: l) = .ok (n, r)) : ∃ x, b :: l = encodeDir x ++ r := by
  rw [readDir, bind_eq_ok] at h
  obtain ⟨r', hr, h⟩ := h
  cases h
  obtain ⟨x, hx⟩ := name_of_skipString hb hr
  exact ⟨x, by rw [hx, encodeDir, List.append_assoc]; rfl⟩

lemma readFile_length (h : readFile size dirBase l = .ok (f, r)) : r.length < l.length := by
  simp only [readFile, bind_eq_ok] at h
  obtain ⟨r₁, h₁, ⟨_, r₂⟩, h₂, ⟨_, r₃⟩, h₃, ⟨_, r₄⟩, h₄, h⟩ := h
  dsimp only at h₃ h₄ h
  cases h
  have := skipString_length h₁
  have := readUleb128_length h₂
  have := readUleb128_length h₃
  have := readUleb128_length h₄
  omega

lemma readFile_encode (x : FileEntry) (r : List UInt8) : ∃ a, readFile size dirBase (x.encode ++ r) = .ok (a, r) := by
  simp [FileEntry.encode, readFile, skipString_name, bind, Except.bind]

lemma readFile_cases (hb : b ≠ 0) (h : readFile size dirBase (b :: l) = .ok (f, r)) : ∃ x : FileEntry, b :: l = x.encode ++ r := by
  simp only [readFile, bind_eq_ok] at h
  obtain ⟨r₁, h₁, ⟨_, r₂⟩, h₂, ⟨_, r₃⟩, h₃, ⟨_, r₄⟩, h₄, h⟩ := h
  dsimp only at h₃ h₄ h
  cases h
  obtain ⟨name, hname⟩ := name_of_skipString hb h₁
  obtain ⟨dir, rfl, -⟩ := readUleb128_iff.mp h₂
  obtain ⟨time, rfl, -⟩ := readUleb128_iff.mp h₃
  obtain ⟨sz, rfl, -⟩ := readUleb128_iff.mp h₄
  exact ⟨⟨name, dir, time, sz⟩, by simp [hname, FileEntry.encode]⟩

end Names

def readDirs (size : ℕ) : List ℕ → Reader (List ℕ) := readEntries .dirs (readDir size) readDir_length

def readFiles (size dirBase : ℕ) : List CodeFile → Reader (List CodeFile) :=
  readEntries .files (readFile size dirBase) readFile_length

def runProgram (dh : DebugHeader) (fileBase : ℕ) (s : LineState) (l : List UInt8) : Except Fault (List AddrLine × List UInt8) :=
  match h : lineOp dh fileBase s l with
  | .error e => .error e
  | .ok ((false, s'), r) => .ok (s'.line, r)
  | .ok ((true, s'), r) => runProgram dh fileBase s' r
termination_by l.length
decreasing_by exact lineOp_length h

def readUnit (size : ℕ) (t : LineTable) : Reader LineTable := fun l => do
  let (dir, r) ← readDirs size t.dir (l.drop sizeofDebugHeader)
  let (file, r) ← readFiles size t.dir.length t.file r
  let (line, r) ← runProgram (debugHeader l) t.file.length ⟨⟨0, 1, 1⟩, t.line⟩ r
  .ok (⟨dir, file, line⟩, r)

structure LineUnit where
  header : {x : List UInt8 // x.length = sizeofDebugHeader}
  dirs : List Name
  files : List FileEntry
  ops : List Op
  size : Leb

namespace LineUnit

def encode (u : LineUnit) : List UInt8 :=
  u.header.1 ++ (u.dirs.flatMap encodeDir ++ 0 :: (u.files.flatMap FileEntry.encode ++ 0 ::
    (u.ops.flatMap Op.encode ++ encodeEnd u.size)))

lemma encode_cons (u : LineUnit) : ∃ b l, u.encode = b :: l := by
  obtain ⟨⟨x, hx⟩, dirs, files, ops, n⟩ := u
  cases x with
  | nil => cases hx
  | cons b x => exact ⟨b, _, rfl⟩

def Divides (u : LineUnit) : Prop := ∀ op ∈ u.ops, op.divides → (debugHeader u.header).lineRange ≠ 0

def rows (u : LineUnit) (fileBase : ℕ) (line : List AddrLine) : List AddrLine :=
  ((u.ops.foldl (Op.effect (debugHeader u.header) fileBase) ⟨⟨0, 1, 1⟩, line⟩).emit fileBase).line

end LineUnit

section Units

variable {dh : DebugHeader} {fileBase size : ℕ} {s s' : LineState} {l r : List UInt8} {line : List AddrLine} {t t' : LineTable}

lemma runProgram_encode {ops : List Op} (hd : ∀ op ∈ ops, op.divides → dh.lineRange ≠ 0) (n : Leb) :
    runProgram dh fileBase s (ops.flatMap Op.encode ++ (encodeEnd n ++ r)) =
      .ok (((ops.foldl (Op.effect dh fileBase) s).emit fileBase).line, r) := by
  induction ops generalizing s with
  | nil =>
    rw [runProgram, List.flatMap_nil, List.nil_append]
    split
    · next h => rw [lineOp_encodeEnd] at h; cases h
    · next h =>
      rw [lineOp_encodeEnd] at h
      cases h
      rfl
    · next h => rw [lineOp_encodeEnd] at h; cases h
  | cons op ops ih =>
    rw [List.forall_mem_cons] at hd
    have hop : lineOp dh fileBase s (op.encode ++ (ops.flatMap Op.encode ++ (encodeEnd n ++ r))) = _ := lineOp_encode op hd.1
    rw [runProgram, List.flatMap_cons, List.append_assoc]
    split
    · next h => rw [hop] at h; cases h
    · next h => rw [hop] at h; cases h
    · next h =>
      rw [hop] at h
      cases h
      exact ih hd.2

lemma runProgram_cases (h : runProgram dh fileBase s l = .ok (line, r)) :
    ∃ (ops : List Op) (n : Leb), (∀ op ∈ ops, op.divides → dh.lineRange ≠ 0) ∧
      l = ops.flatMap Op.encode ++ (encodeEnd n ++ r) := by
  fun_induction runProgram dh fileBase s l with
  | case1 => cases h
  | case2 s l s' r' hop =>
    cases h
    rcases lineOp_iff.mp hop with ⟨hno, -⟩ | ⟨-, n, rfl, -⟩
    · cases hno
    · exact ⟨[], n, nofun, rfl⟩
  | case3 s l s' r' hop ih =>
    obtain ⟨ops, n, hd, rfl⟩ := ih h
    rcases lineOp_iff.mp hop with ⟨-, op, hdiv, rfl, -⟩ | ⟨hno, -⟩
    · refine ⟨op :: ops, n, List.forall_mem_cons.mpr ⟨hdiv, hd⟩, ?_⟩
      rw [List.flatMap_cons, List.append_assoc]
    · cases hno

lemma debugHeader_append (x : {x : List UInt8 // x.length = sizeofDebugHeader}) : debugHeader (x.1 ++ r) = debugHeader x := by
  have hget (k : ℕ) (hk : k < 27) : (x.1 ++ r).getD k 0 = x.1.getD k 0 := by
    have hlen : x.1.length = 27 := x.2
    rw [List.getD_eq_getElem?_getD, List.getElem?_append_left (by omega), ← List.getD_eq_getElem?_getD]
  rw [debugHeader, debugHeader, hget 10 (by omega), hget 12 (by omega), hget 13 (by omega), hget 14 (by omega)]

lemma readDirs_encode {dir : List ℕ} {xs : List Name} (h : dir.length + xs.length ≤ 64) :
    ∃ dir', dir'.length = dir.length + xs.length ∧ readDirs size dir (xs.flatMap encodeDir ++ 0 :: r) = .ok (dir', r) := by
  refine readEntries_encode readDir_length (fun x => ?_) readDir_encode xs h
  obtain ⟨b, l, hl, hb⟩ := x.head
  exact ⟨b, _, by rw [encodeDir, hl]; rfl, hb⟩

lemma readFiles_encode {dirBase : ℕ} {file : List CodeFile} {xs : List FileEntry} (h : file.length + xs.length ≤ 64) :
    ∃ file', file'.length = file.length + xs.length ∧
      readFiles size dirBase file (xs.flatMap FileEntry.encode ++ 0 :: r) = .ok (file', r) := by
  refine readEntries_encode readFile_length (fun x => ?_) readFile_encode xs h
  obtain ⟨b, l, hl, hb⟩ := x.name.head
  exact ⟨b, _, by rw [FileEntry.encode, hl]; rfl, hb⟩

lemma readUnit_encode (size : ℕ) (u : LineUnit) (r : List UInt8) (hd : u.Divides) (hdirs : t.dir.length + u.dirs.length ≤ 64)
    (hfiles : t.file.length + u.files.length ≤ 64) :
    ∃ t', readUnit size t (u.encode ++ r) = .ok (t', r) ∧ t'.dir.length = t.dir.length + u.dirs.length ∧
      t'.file.length = t.file.length + u.files.length ∧ t'.line = u.rows t.file.length t.line := by
  have hsplit : u.encode ++ r = u.header.1 ++ (u.dirs.flatMap encodeDir ++ 0 :: (u.files.flatMap FileEntry.encode ++ 0 ::
      (u.ops.flatMap Op.encode ++ (encodeEnd u.size ++ r)))) := by simp [LineUnit.encode]
  have hdrop (x : List UInt8) : (u.header.1 ++ x).drop sizeofDebugHeader = x := List.drop_left' u.header.2
  obtain ⟨dir, hlen, hreadDirs⟩ := readDirs_encode hdirs
  obtain ⟨file, hlen', hreadFiles⟩ := readFiles_encode hfiles
  refine ⟨⟨dir, file, u.rows t.file.length t.line⟩, ?_, hlen, hlen', rfl⟩
  rw [hsplit, readUnit, hdrop, debugHeader_append]
  simp only [bind_eq_ok]
  exact ⟨_, hreadDirs, _, hreadFiles, _, runProgram_encode hd u.size, rfl⟩

lemma readUnit_cases (h : readUnit size t l = .ok (t', r)) :
    ∃ u : LineUnit, l = u.encode ++ r ∧ u.Divides ∧ t.dir.length + u.dirs.length ≤ max 64 t.dir.length ∧
      t.file.length + u.files.length ≤ max 64 t.file.length := by
  simp only [readUnit, bind_eq_ok] at h
  obtain ⟨⟨dir, r₁⟩, h₁, ⟨file, r₂⟩, h₂, ⟨line, r₃⟩, h₃, h⟩ := h
  cases h
  obtain ⟨dirs, hl, hlen, hle⟩ := readEntries_cases readDir_length readDir_cases h₁
  obtain ⟨files, rfl, hlen', hle'⟩ := readEntries_cases readFile_length readFile_cases h₂
  obtain ⟨ops, n, hd, rfl⟩ := runProgram_cases h₃
  have hlong : sizeofDebugHeader ≤ l.length := by
    have hpos := congrArg List.length hl
    rw [List.length_drop, List.length_append, List.length_cons] at hpos
    omega
  obtain ⟨x, hx, rfl⟩ : ∃ x, x.length = sizeofDebugHeader ∧ l = x ++ (dirs.flatMap encodeDir ++ 0 ::
      (files.flatMap FileEntry.encode ++ 0 :: (ops.flatMap Op.encode ++ (encodeEnd n ++ r₃)))) := by
    refine ⟨l.take sizeofDebugHeader, by rw [List.length_take, min_eq_left hlong], ?_⟩
    rw [← hl, List.take_append_drop]
  rw [debugHeader_append ⟨x, hx⟩] at hd
  refine ⟨⟨⟨x, hx⟩, dirs, files, ops, n⟩, by simp [LineUnit.encode], hd, ?_, ?_⟩
  · exact hlen ▸ hle
  · exact hlen' ▸ hle'

lemma readUnit_length (h : readUnit size t l = .ok (t', r)) : r.length < l.length := by
  obtain ⟨u, rfl, -⟩ := readUnit_cases h
  have hheader : u.header.1.length = 27 := u.header.2
  rw [List.length_append, LineUnit.encode, List.length_append]
  omega

end Units

def readUnits (size : ℕ) (t : LineTable) : List UInt8 → Except Fault LineTable
  | [] => .ok t
  | b :: l =>
    match _h : readUnit size t (b :: l) with
    | .error e => .error e
    | .ok (t', r) => readUnits size t' r
termination_by l => l.length
decreasing_by exact readUnit_length _h

def makeAddrLine (debugLine : List UInt8) : Except Fault LineTable := readUnits debugLine.length ⟨[], [], []⟩ debugLine

def dirCount (us : List LineUnit) : ℕ := (us.map fun u => u.dirs.length).sum

def fileCount (us : List LineUnit) : ℕ := (us.map fun u => u.files.length).sum

def unitRows (fileBase : ℕ) (line : List AddrLine) : List LineUnit → List AddrLine
  | [] => line
  | u :: us => unitRows (fileBase + u.files.length) (u.rows fileBase line) us

section Sections

variable {size : ℕ} {t t' : LineTable} {l : List UInt8}

lemma readUnits_encode {us : List LineUnit} (hd : ∀ u ∈ us, u.Divides) (hdirs : t.dir.length + dirCount us ≤ 64)
    (hfiles : t.file.length + fileCount us ≤ 64) :
    ∃ t', readUnits size t (us.flatMap LineUnit.encode) = .ok t' ∧ t'.line = unitRows t.file.length t.line us := by
  induction us generalizing t with
  | nil => exact ⟨t, by simp [readUnits], rfl⟩
  | cons u us ih =>
    rw [List.forall_mem_cons] at hd
    rw [dirCount, List.map_cons, List.sum_cons] at hdirs
    rw [fileCount, List.map_cons, List.sum_cons] at hfiles
    obtain ⟨t₁, hread, hdir, hfile, hline⟩ := readUnit_encode size u (us.flatMap LineUnit.encode) hd.1 (t := t) (by omega) (by omega)
    obtain ⟨t₂, hrest, hrows⟩ := ih hd.2 (t := t₁) (by rw [hdir, dirCount]; omega) (by rw [hfile, fileCount]; omega)
    refine ⟨t₂, ?_, by rw [hrows, hfile, hline, unitRows]⟩
    obtain ⟨b, l, hl⟩ := u.encode_cons
    rw [hl, List.cons_append] at hread
    rw [List.flatMap_cons, hl, List.cons_append, readUnits]
    split
    · next h => rw [hread] at h; cases h
    · next h =>
      rw [hread] at h
      cases h
      exact hrest

lemma readUnits_cases (hdirs : t.dir.length ≤ 64) (hfiles : t.file.length ≤ 64) (h : readUnits size t l = .ok t') :
    ∃ us : List LineUnit, l = us.flatMap LineUnit.encode ∧ (∀ u ∈ us, u.Divides) ∧ t.dir.length + dirCount us ≤ 64 ∧
      t.file.length + fileCount us ≤ 64 := by
  fun_induction readUnits size t l with
  | case1 => exact ⟨[], rfl, nofun, hdirs, hfiles⟩
  | case2 => cases h
  | case3 t b l t₁ r hread ih =>
    obtain ⟨u, hu, hd, hdir, hfile⟩ := readUnit_cases hread
    rw [max_eq_left hdirs] at hdir
    rw [max_eq_left hfiles] at hfile
    obtain ⟨t₂, hread', hdir', hfile', -⟩ := readUnit_encode size u r hd hdir hfile
    rw [← hu, hread] at hread'
    cases hread'
    obtain ⟨us, rfl, hds, hdirs', hfiles'⟩ := ih (by omega) (by omega) h
    refine ⟨u :: us, by rw [hu, List.flatMap_cons], List.forall_mem_cons.mpr ⟨hd, hds⟩, ?_, ?_⟩
    · rw [dirCount, List.map_cons, List.sum_cons, ← Nat.add_assoc, ← hdir']
      exact hdirs'
    · rw [fileCount, List.map_cons, List.sum_cons, ← Nat.add_assoc, ← hfile']
      exact hfiles'

/-- The sections that are decoded without a fault are those that are made of whole units, each with one sequence. -/
theorem makeAddrLine_safe_iff : (∃ t, makeAddrLine l = .ok t) ↔
    ∃ us : List LineUnit, l = us.flatMap LineUnit.encode ∧ (∀ u ∈ us, u.Divides) ∧ dirCount us ≤ 64 ∧ fileCount us ≤ 64 := by
  constructor
  · rintro ⟨t, ht⟩
    obtain ⟨us, hl, hd, hdirs, hfiles⟩ := readUnits_cases (Nat.zero_le _) (Nat.zero_le _) ht
    exact ⟨us, hl, hd, by simpa using hdirs, by simpa using hfiles⟩
  · rintro ⟨us, rfl, hd, hdirs, hfiles⟩
    obtain ⟨t, ht, -⟩ := readUnits_encode (t := ⟨[], [], []⟩) hd (by simpa using hdirs) (by simpa using hfiles)
    exact ⟨t, ht⟩

theorem short_section_is_overrun : makeAddrLine [0] = .error .outside := by decide +kernel

end Sections

end Pke.Loader
