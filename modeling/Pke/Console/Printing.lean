import Pke.Console.Format
import Pke.Memory.Exec

namespace Pke.Console

open Lib Flow Function Memory Processes

/-- The string at a physical address; there is no memory from `2 ^ 32` on. -/
def kernelString (mem : ℕ → UInt8) (pa : ℕ) : Option (List UInt8) :=
  let t := readString mem pa (2 ^ 32 - pa)
  if pa + t.length < 2 ^ 32 then some t else none

/-- A call without arguments: `out` and `vl` are what is found on the stack and in the registers. -/
def sprint (pa : ℕ) (out : ℕ → UInt8) (vl : VaList) : Flow Vm (List UInt8 × ℕ) := do
  deref pa
  match kernelString (← get).mem pa with
  | none => undef
  | some s => pure (vprintk out s vl)

def sysUserPrint (p : Pid) (buf : ℕ) (out : ℕ → UInt8) (vl : VaList) : Flow Vm (List UInt8 × ℕ) := do
  let pa ← userVaToPa p buf
  sprint pa out vl

variable {s : Vm} {p : Pid} {buf a : ℕ} {l t : List UInt8} {mem out : ℕ → UInt8} {vl : VaList}

structure UserString (s : Vm) (p : Pid) (buf : ℕ) (l : List UInt8) : Prop where
  short : l.length < 256
  nonzero : 0 ∉ l
  bytes : ∀ i < l.length, s.byteAt p (buf + i) = l[i]?
  ends : s.byteAt p (buf + l.length) = some 0

def physical (s : Vm) (p : Pid) (va : ℕ) : ℕ := (s.entry p (va / 4096)).pa + va % 4096

structure HasText (mem : ℕ → UInt8) (a : ℕ) (t : List UInt8) : Prop where
  nonzero : 0 ∉ t
  text : hasString mem a t = true
  inside : a + t.length < 2 ^ 32

/-- From the address on, there is the string, and at most a conversion that is never finished behind it. -/
def Lies (mem : ℕ → UInt8) (a : ℕ) (l : List UInt8) : Prop :=
  a ≠ 0 ∧ (HasText mem a l ∨ ∃ u, HasText mem a (l ++ 37 :: u) ∧ ∀ c ∈ u, ¬ IsConversion c)

def Verbatim (s : Vm) (p : Pid) (buf : ℕ) (out : ℕ → UInt8) (vl : VaList) (l : List UInt8) : Prop :=
  ∃ t, sysUserPrint p buf out vl s = .done (l, 0) t

lemma kernelString_eq_some : kernelString mem a = some t ↔ HasText mem a t := by
  rw [kernelString]
  constructor
  · intro h
    split_ifs at h with hlt
    cases h
    exact ⟨zero_notMem_readString, (hasString_iff zero_notMem_readString (by omega)).mpr rfl, hlt⟩
  · rintro ⟨hzero, htext, hlt⟩
    rw [readString_of_hasString hzero (by omega) htext, if_pos hlt]

lemma userVaToPa_of_byte {b : UInt8} (h : s.byteAt p a = some b) : userVaToPa p a s = .done (physical s p a) s := by
  rw [Vm.byteAt] at h
  split_ifs at h with hmapped
  obtain ⟨hlt, hv⟩ := hmapped
  have hhas := PageTable.has_of_valid hv
  have hpte : (s.space p).pagetable.pte (a / 4096) = s.entry p (a / 4096) := (PageTable.entry_of_has hhas).symm
  rw [userVaToPa, bind_done (pageWalk_false hlt), PageTable.walk_eq, if_pos hhas]
  dsimp only
  rw [get_bind, hpte, if_pos hv]
  rfl

lemma deref_of_ne (hpa : a ≠ 0) : deref a s = .done () s := by
  rw [deref, if_neg hpa]
  rfl

lemma sprint_of_text (hpa : a ≠ 0) (h : HasText s.mem a t) : sprint a out vl s = .done (vprintk out t vl) s := by
  rw [sprint, bind_done (deref_of_ne hpa), get_bind, kernelString_eq_some.mpr h]
  rfl

lemma sprint_done {r : List UInt8 × ℕ} {t : Vm} (h : sprint a out vl s = .done r t) :
    a ≠ 0 ∧ ∃ text, HasText s.mem a text ∧ vprintk out text vl = r := by
  rw [sprint] at h
  obtain ⟨⟨⟩, u, hderef, h⟩ := bind_eq_done h
  by_cases hpa : a = 0
  · subst hpa
    cases hderef
  · rw [deref_of_ne hpa] at hderef
    cases hderef
    rw [get_bind] at h
    cases htext : kernelString s.mem a with
    | none =>
      rw [htext] at h
      cases h
    | some text =>
      rw [htext] at h
      cases h
      exact ⟨hpa, text, kernelString_eq_some.mp htext, rfl⟩

namespace UserString

variable (h : UserString s p buf l)

include h

lemma mapped_at {i : ℕ} (hi : i ≤ l.length) : ∃ b, s.byteAt p (buf + i) = some b := by
  rcases hi.lt_or_eq with hlt | rfl
  · exact ⟨_, (h.bytes i hlt).trans (List.getElem?_eq_getElem hlt)⟩
  · exact ⟨0, h.ends⟩

lemma sysUserPrint_eq : sysUserPrint p buf out vl s = sprint (physical s p buf) out vl s := by
  obtain ⟨b, hb⟩ := h.mapped_at (Nat.zero_le _)
  rw [Nat.add_zero] at hb
  rw [sysUserPrint, bind_done (userVaToPa_of_byte hb)]

lemma verbatim_iff : Verbatim s p buf out vl l ↔ 37 ∉ l ∧ Lies s.mem (physical s p buf) l := by
  rw [Verbatim, h.sysUserPrint_eq]
  constructor
  · rintro ⟨t, hrun⟩
    obtain ⟨hpa, text, htext, hprint⟩ := sprint_done hrun
    have hlt : text.length < 2 ^ 32 := by
      have := htext.inside
      omega
    obtain ⟨hl, rfl | ⟨u, rfl, hu⟩⟩ := (vprintk_eq_iff hlt h.short).mp hprint
    · exact ⟨hl, hpa, .inl htext⟩
    · exact ⟨hl, hpa, .inr ⟨u, htext, hu⟩⟩
  · rintro ⟨hl, hpa, htext | ⟨u, htext, hu⟩⟩
    · exact ⟨s, by rw [sprint_of_text hpa htext, vprintk_plain h.short hl]⟩
    · exact ⟨s, by rw [sprint_of_text hpa htext, vprintk_unfinished h.short hl hu]⟩

lemma lies_of_page (hpage : buf % 4096 + l.length < 4096) (hpa : physical s p buf ≠ 0)
    (hin : physical s p buf + l.length < 2 ^ 32) : Lies s.mem (physical s p buf) l := by
  refine ⟨hpa, .inl ⟨h.nonzero, ?_, hin⟩⟩
  apply hasString_of_bytes
  intro i hi
  have hsame : s.byteAt p (buf + i) = some (s.mem (physical s p buf + i)) := by
    obtain ⟨b, hb⟩ := h.mapped_at hi
    have hdiv : (buf + i) / 4096 = buf / 4096 := by omega
    have hmod : (buf + i) % 4096 = buf % 4096 + i := by omega
    rw [Vm.byteAt, hdiv, hmod] at hb ⊢
    split_ifs at hb ⊢ with hvalid
    rw [physical, Nat.add_assoc]
  rcases hi.lt_or_eq with hlt | rfl
  · rw [h.bytes i hlt, List.getElem?_eq_getElem hlt, Option.some.injEq] at hsame
    simp [← hsame, hlt]
  · rw [h.ends, Option.some.injEq] at hsame
    simp [← hsame]

end UserString

/-- The string reaches the console unchanged unless there is a `%` in it, or it does not lie in one piece in the memory. -/
theorem printed_verbatim_iff (s : Vm) (p : Pid) (buf : ℕ) (l : List UInt8) (out : ℕ → UInt8) (vl : VaList)
    (h : UserString s p buf l) : Verbatim s p buf out vl l ↔ 37 ∉ l ∧ Lies s.mem (physical s p buf) l := h.verbatim_iff

def written (s : Vm) (p : Pid) (buf : ℕ) (l : List UInt8) : Vm := { s with mem := putString s.mem (physical s p buf) l }

instance : Decidable (UserString s p buf l) :=
  decidable_of_iff (l.length < 256 ∧ 0 ∉ l ∧ (∀ i < l.length, s.byteAt p (buf + i) = l[i]?) ∧ s.byteAt p (buf + l.length) = some 0)
    ⟨fun h => ⟨h.1, h.2.1, h.2.2.1, h.2.2.2⟩, fun h => ⟨h.1, h.2, h.3, h.4⟩⟩

theorem printed_verbatim_hello : ∃ M, MReach (fun _ _ => True) smallBoot M ∧
    ∀ out vl, Verbatim (written M.vm 0 (userStackTop - 16) [72, 105, 10]) 0 (userStackTop - 16) out vl [72, 105, 10] := by
  have hrun : (play (fun _ _ => true) [.load onePage 0x10000] smallBoot).any (fun M =>
      let s := written M.vm 0 (userStackTop - 16) [72, 105, 10]
      let pa := physical s 0 (userStackTop - 16)
      decide (UserString s 0 (userStackTop - 16) [72, 105, 10] ∧ pa ≠ 0 ∧ pa + 3 < 2 ^ 32)) = true := by decide +kernel
  obtain ⟨M, hM, hobs⟩ := play_any (fun _ _ _ => trivial) hrun
  obtain ⟨h, hpa, hin⟩ := of_decide_eq_true hobs
  exact ⟨M, hM, fun out vl => (printed_verbatim_iff _ 0 _ _ out vl h).mpr ⟨by decide, h.lies_of_page (by decide) hpa hin⟩⟩

theorem percent_formatted_twice : ∃ M, MReach (fun _ _ => True) smallBoot M ∧
    printu (fun _ => 0) [37, 115] ⟨fun _ => 0, fun _ => [37, 100]⟩ = [37, 100] ∧
      UserString (written M.vm 0 (userStackTop - 16) [37, 100]) 0 (userStackTop - 16) [37, 100] ∧
        ∀ out vl, ¬ Verbatim (written M.vm 0 (userStackTop - 16) [37, 100]) 0 (userStackTop - 16) out vl [37, 100] := by
  have hrun : (play (fun _ _ => true) [.load onePage 0x10000] smallBoot).any (fun M =>
      decide (UserString (written M.vm 0 (userStackTop - 16) [37, 100]) 0 (userStackTop - 16) [37, 100])) = true := by decide +kernel
  obtain ⟨M, hM, hobs⟩ := play_any (fun _ _ _ => trivial) hrun
  have h := of_decide_eq_true hobs
  refine ⟨M, hM, printu_string _ (by decide) (by decide), h, fun out vl hprint => ?_⟩
  exact (h.verbatim_iff.mp hprint).1 (by decide)

end Pke.Console
