import Pke.Lib.Yields
import Pke.Loader.LineTable
import Pke.Memory.Segments

/-! `load_debug_line` reads every section into the same buffer, and `make_addr_line` builds its tables there. -/

namespace Pke.Loader

open Lib Flow Function Processes
open Memory (ElfStatus elfFpread uintAt u64)

abbrev maxShstrtabSize : ℕ := 64 * 1024
abbrev maxDebugLineSize : ℕ := 1024 * 1024

structure ElfSectHeader where
  name : ℕ
  offset : ℕ
  size : ℕ

def elfSectHeader (l : List UInt8) : ElfSectHeader where
  name := uintAt l 0 4
  offset := uintAt l 24 8
  size := uintAt l 32 8

def sizeofElfSectHeader : ℕ := 64

def ehdrShoff (file : List UInt8) : ℕ := uintAt file 40 8
def ehdrShnum (file : List UInt8) : ℕ := uintAt file 60 2
def ehdrShstrndx (file : List UInt8) : ℕ := uintAt file 62 2

def sectHeaderAt (file : List UInt8) (i : ℕ) : Option ElfSectHeader :=
  let raw := elfFpread file sizeofElfSectHeader (u64 (ehdrShoff file + i * sizeofElfSectHeader))
  if raw.length = sizeofElfSectHeader then some (elfSectHeader raw) else none

structure LineRef where
  dir : ℕ
  file : ℕ
  line : ℕ
  lineInd : ℕ
  deriving DecidableEq

structure LineStore where
  shstrtabBuf : ℕ → UInt8
  debugLineBuf : ℕ → UInt8
  table : Pid → Option LineRef

def sectionNames (file : List UInt8) : Option (ℕ × List UInt8) := do
  let shstrHdr ← sectHeaderAt file (ehdrShstrndx file)
  if maxShstrtabSize < shstrHdr.size then none
  else some (shstrHdr.size, elfFpread file shstrHdr.size shstrHdr.offset)

def debugLineName : List UInt8 := [46, 100, 101, 98, 117, 103, 95, 108, 105, 110, 101]

def findDebugLine (names : ℕ → UInt8) (file : List UInt8) (stale : ElfSectHeader) : ℕ → ℕ → Option ElfSectHeader
  | 0, _ => some stale
  | n + 1, i => do
    let sh ← sectHeaderAt file i
    if hasString names sh.name debugLineName then some sh else findDebugLine names file stale n (i + 1)

def debugSection (names : ℕ → UInt8) (file : List UInt8) (stale : ElfSectHeader) : Option (ℕ × List UInt8) := do
  let debugHdr ← findDebugLine names file stale (ehdrShnum file) 0
  if maxDebugLineSize < debugHdr.size then none
  else some (debugHdr.size, elfFpread file debugHdr.size debugHdr.offset)

def dirStart (base size : ℕ) : ℕ := (base + size + 7) / 8 * 8 - base

def word (n : ℕ) : List UInt8 := (List.range 8).map fun i => UInt8.ofNat (n / 256 ^ i)

def dirBytes (base : ℕ) (t : LineTable) : List UInt8 := t.dir.reverse.flatMap fun off => word (base + off)
def fileBytes (base : ℕ) (t : LineTable) : List UInt8 :=
  t.file.reverse.flatMap fun f => word f.dir.toNat ++ word (base + f.file)
def lineBytes (t : LineTable) : List UInt8 :=
  t.line.reverse.flatMap fun r => word r.addr.toNat ++ (word r.line.toNat ++ word r.file.toNat)

def layOut (base : ℕ) (sec : List UInt8) (t : LineTable) (b : ℕ → UInt8) : ℕ → UInt8 :=
  let dir := dirStart base sec.length
  putBytes (putBytes (putBytes (putBytes b 0 sec) dir (dirBytes base t)) (dir + 512) (fileBytes base t)) (dir + 1536) (lineBytes t)

/-- `make_addr_line` for the section that is in the buffer; the line table may run out of the buffer. -/
def buildTables (base : ℕ) (p : Pid) (sec : List UInt8) : Flow LineStore Unit :=
  let dir := dirStart base sec.length
  match makeAddrLine sec with
  | .error _ => undef
  | .ok t =>
    if maxDebugLineSize < dir + 1536 + (lineBytes t).length then undef
    else modify fun s => { s with
      debugLineBuf := layOut base sec t s.debugLineBuf
      table := update s.table p (some ⟨base + dir, base + dir + 512, base + dir + 1536, t.line.length⟩) }

def loadDebugLine (base : ℕ) (p : Pid) (file : List UInt8) (stale : ElfSectHeader) : Flow LineStore ElfStatus :=
  match sectionNames file with
  | none => pure .err
  | some (size, names) => do
    modify fun s => { s with shstrtabBuf := putBytes s.shstrtabBuf 0 names }
    if names.length ≠ size then pure .err
    else
      match debugSection (← get).shstrtabBuf file stale with
      | none => pure .err
      | some (size, bytes) => do
        modify fun s => { s with debugLineBuf := putBytes s.debugLineBuf 0 bytes }
        if bytes.length ≠ size then pure .err
        else do
          buildTables base p bytes
          pure .ok

section Loads

variable {base a x : ℕ} {p q : Pid} {file sec bytes l : List UInt8} {stale : ElfSectHeader} {s t u : LineStore} {r : ElfStatus}
  {tab : LineTable} {b c : ℕ → UInt8}

def refs (base : ℕ) (sec : List UInt8) (tab : LineTable) : LineRef :=
  ⟨base + dirStart base sec.length, base + dirStart base sec.length + 512, base + dirStart base sec.length + 1536, tab.line.length⟩

def Reads (file : List UInt8) (stale : ElfSectHeader) (s : LineStore) (n : ℕ) (bytes : List UInt8) : Prop :=
  ∃ names, sectionNames file = some (names.length, names) ∧ debugSection (putBytes s.shstrtabBuf 0 names) file stale = some (n, bytes)

lemma loadDebugLine_cases (h : loadDebugLine base q file stale s = .done r t) :
    (r = .err ∧ t.debugLineBuf = s.debugLineBuf ∧ t.table = s.table) ∨
      ∃ n bytes, Reads file stale s n bytes ∧
        ((r = .err ∧ bytes.length ≠ n ∧ t.debugLineBuf = putBytes s.debugLineBuf 0 bytes ∧ t.table = s.table) ∨
          (r = .ok ∧ bytes.length = n ∧ ∃ tab, makeAddrLine bytes = .ok tab ∧
            t.debugLineBuf = layOut base bytes tab (putBytes s.debugLineBuf 0 bytes) ∧
              t.table = update s.table q (some (refs base bytes tab)))) := by
  rw [loadDebugLine] at h
  cases hnames : sectionNames file with
  | none =>
    rw [hnames] at h
    cases h
    exact .inl ⟨rfl, rfl, rfl⟩
  | some x =>
    obtain ⟨size, names⟩ := x
    rw [hnames] at h
    dsimp only at h
    rw [modify_bind] at h
    by_cases hsize : names.length = size
    swap
    · rw [if_pos hsize] at h
      cases h
      exact .inl ⟨rfl, rfl, rfl⟩
    · subst hsize
      rw [if_neg (not_not.mpr rfl), get_bind] at h
      dsimp only at h
      cases hsec : debugSection (putBytes s.shstrtabBuf 0 names) file stale with
      | none =>
        rw [hsec] at h
        cases h
        exact .inl ⟨rfl, rfl, rfl⟩
      | some y =>
        obtain ⟨n, bytes⟩ := y
        rw [hsec] at h
        dsimp only at h
        rw [modify_bind] at h
        refine .inr ⟨n, bytes, ⟨names, hnames, hsec⟩, ?_⟩
        by_cases hlen : bytes.length = n
        swap
        · rw [if_pos hlen] at h
          cases h
          exact .inl ⟨rfl, hlen, rfl, rfl⟩
        · rw [if_neg (not_not.mpr hlen), buildTables] at h
          obtain ⟨⟨⟩, u, hbuild, hend⟩ := bind_eq_done h
          cases hend
          clear h
          cases htab : makeAddrLine bytes with
          | error e =>
            rw [htab] at hbuild
            cases hbuild
          | ok tab =>
            rw [htab] at hbuild
            dsimp only at hbuild
            by_cases hlong : maxDebugLineSize < dirStart base bytes.length + 1536 + (lineBytes tab).length
            · rw [if_pos hlong] at hbuild
              cases hbuild
            · rw [if_neg hlong] at hbuild
              cases hbuild
              exact .inr ⟨rfl, hlen, tab, rfl, rfl, rfl⟩

def Owned (base : ℕ) (sec : List UInt8) (tab : LineTable) (x : ℕ) : Prop :=
  let dir := dirStart base sec.length
  x < sec.length ∨ (dir ≤ x ∧ x < dir + (dirBytes base tab).length) ∨ (dir + 512 ≤ x ∧ x < dir + 512 + (fileBytes base tab).length) ∨
    (dir + 1536 ≤ x ∧ x < dir + 1536 + (lineBytes tab).length)

lemma length_le_dirStart (base n : ℕ) : n ≤ dirStart base n := by
  rw [dirStart]
  omega

lemma putBytes_congr (h : (a ≤ x ∧ x < a + l.length) ∨ b x = c x) : putBytes b a l x = putBytes c a l x := by
  rw [putBytes, putBytes]
  split_ifs with hin
  · rfl
  · exact h.resolve_left hin

lemma layOut_congr (hx : Owned base sec tab x) : layOut base sec tab b x = layOut base sec tab c x := by
  rw [layOut, layOut]
  rcases hx with hx | hx | hx | hx
  · refine putBytes_congr (.inr (putBytes_congr (.inr (putBytes_congr (.inr (putBytes_congr (.inl ?_)))))))
    omega
  · exact putBytes_congr (.inr (putBytes_congr (.inr (putBytes_congr (.inl hx)))))
  · exact putBytes_congr (.inr (putBytes_congr (.inl hx)))
  · exact putBytes_congr (.inl hx)

lemma putBytes_of_outside (h : x < a) : putBytes b a l x = b x := by
  rw [putBytes, if_neg (by omega)]

lemma layOut_section (hx : x < sec.length) : layOut base sec tab b x = sec.getD x 0 := by
  have hdir := length_le_dirStart base sec.length
  rw [layOut, putBytes_of_outside (by omega), putBytes_of_outside (by omega), putBytes_of_outside (by omega), putBytes, if_pos (by omega),
    Nat.sub_zero]

structure Tables (base : ℕ) (p : Pid) (sec : List UInt8) (tab : LineTable) (s : LineStore) : Prop where
  table : s.table p = some (refs base sec tab)
  bytes : ∀ x, Owned base sec tab x → s.debugLineBuf x = layOut base sec tab (fun _ => 0) x

/-- The load of another process leaves alone what the tables for `sec` need: it reads this very section, or gets no
further than into the middle of it. -/
def Harmless (sec : List UInt8) (file : List UInt8) (stale : ElfSectHeader) (s : LineStore) : Prop :=
  ∀ n bytes, Reads file stale s n bytes → bytes = sec ∨ (bytes.length ≠ n ∧ bytes <+: sec)

lemma Tables.load (h : Tables base p sec tab s) (htab : makeAddrLine sec = .ok tab) (hq : q ≠ p) (hsafe : Harmless sec file stale s)
    (hrun : loadDebugLine base q file stale s = .done r t) : Tables base p sec tab t := by
  rcases loadDebugLine_cases hrun with ⟨-, hbuf, htable⟩ | ⟨n, bytes, hreads, ⟨-, -, hbuf, htable⟩ | ⟨-, hlen, tab', htab', hbuf, htable⟩⟩
  · exact ⟨by rw [htable, h.table], fun x hx => by rw [hbuf, h.bytes x hx]⟩
  · refine ⟨by rw [htable, h.table], fun x hx => ?_⟩
    have hpre : bytes <+: sec := by
      rcases hsafe n bytes hreads with rfl | ⟨-, hpre⟩
      · exact List.prefix_rfl
      · exact hpre
    rw [hbuf, putBytes]
    split_ifs with hin
    · have hlt : x < sec.length := by
        have := hpre.length_le
        omega
      rw [layOut_section hlt, Nat.sub_zero]
      obtain ⟨rest, rfl⟩ := hpre
      have hlt' : x < bytes.length := by omega
      simp [List.getElem?_append_left hlt']
    · exact h.bytes x hx
  · obtain rfl : bytes = sec := (hsafe n bytes hreads).resolve_right fun hno => hno.1 hlen
    obtain rfl : tab' = tab := by
      rw [htab] at htab'
      cases htab'
      rfl
    exact ⟨by rw [htable, update_of_ne hq.symm, h.table], fun x hx => by rw [hbuf, layOut_congr hx]⟩

/-- Loads by processes other than `p`, each of which leaves the tables for `sec` alone. -/
inductive Loads (base : ℕ) (p : Pid) (sec : List UInt8) : LineStore → LineStore → Prop
  | refl (s : LineStore) : Loads base p sec s s
  | load {s t u : LineStore} {q : Pid} {file : List UInt8} {stale : ElfSectHeader} {r : ElfStatus} (h : Loads base p sec s t) (hq : q ≠ p) (hsafe : Harmless sec file stale t)
      (hrun : loadDebugLine base q file stale t = .done r u) : Loads base p sec s u

end Loads

end Pke.Loader
