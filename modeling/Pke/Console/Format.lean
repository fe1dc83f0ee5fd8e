import Pke.Lib.Bytes

/-! `vsnprintf`, and what `printu` and `vprintk` make of it. -/

namespace Pke.Console

open Lib Function

/-- The arguments behind a `va_list`, as they lie there, and the strings at those that are pointers. -/
structure VaList where
  arg : ℕ → BitVec 64
  str : BitVec 64 → List UInt8

structure Formatter where
  format : Bool
  longarg : Bool
  pos : ℕ
  out : ℕ → UInt8
  used : ℕ

namespace Formatter

variable (n : ℕ) (vl : VaList)

/-- `if (++pos < n) out[pos - 1] = c`. -/
def put (c : UInt8) (f : Formatter) : Formatter :=
  { f with pos := f.pos + 1, out := if f.pos + 1 < n then update f.out f.pos c else f.out }

/-- `longarg ? va_arg(vl, long) : va_arg(vl, int)`. -/
def number (f : Formatter) : BitVec 64 :=
  if f.longarg then vl.arg f.used else ((vl.arg f.used).truncate 32).signExtend 64

def convert (f : Formatter) : Formatter := { f with longarg := false, format := false, used := f.used + 1 }

def hexDigit (num : BitVec 64) (i : ℕ) : UInt8 :=
  let d := (num.sshiftRight (4 * i) &&& 0xF).toNat
  UInt8.ofNat (if d < 10 then 48 + d else 97 + d - 10)

def hex (f : Formatter) : Formatter :=
  let num := f.number vl
  ((List.range (2 * if f.longarg then 8 else 4)).reverse.foldl (fun f i => f.put n (hexDigit num i)) f).convert

def digits : ℕ → ℤ → ℕ
  | 0, _ => 1
  | fuel + 1, num => if num.tdiv 10 = 0 then 1 else digits fuel (num.tdiv 10) + 1

def putDigits (pos : ℕ) : ℕ → ℤ → (ℕ → UInt8) → ℕ → UInt8
  | 0, _, out => out
  | i + 1, num, out =>
    putDigits pos i (num.tdiv 10) (if pos + i + 1 < n then update out (pos + i) (UInt8.ofNat ((48 + num.tmod 10) % 256).toNat) else out)

/-- `-num` is taken in 64 bits; a `long` has at most 19 digits. -/
def dec (f : Formatter) : Formatter :=
  let num := f.number vl
  let g := if num.toInt < 0 then f.put n 45 else f
  let num := if num.toInt < 0 then (-num).toInt else num.toInt
  let k := digits 19 num
  { g with pos := g.pos + k, out := putDigits n g.pos k num g.out }.convert

def string (f : Formatter) : Formatter := ((vl.str (vl.arg f.used)).foldl (fun f c => f.put n c) f).convert

/-- The argument is read only if there is room for it. -/
def char (f : Formatter) : Formatter :=
  if f.pos + 1 < n then (f.put n (UInt8.ofNat ((vl.arg f.used).toNat % 256))).convert
  else { f with pos := f.pos + 1, longarg := false, format := false }

def step (f : Formatter) (c : UInt8) : Formatter :=
  if f.format then
    if c = 108 then { f with longarg := true }
    else if c = 112 then (({ f with longarg := true }.put n 48).put n 120).hex n vl
    else if c = 120 then f.hex n vl
    else if c = 100 then f.dec n vl
    else if c = 115 then f.string n vl
    else if c = 99 then f.char n vl
    else f
  else if c = 37 then { f with format := true }
  else f.put n c

def run (s : List UInt8) (out : ℕ → UInt8) : Formatter := s.foldl (step n vl) ⟨false, false, 0, out, 0⟩

end Formatter

/-- The result, what is in `out`, and how many arguments were read. -/
def vsnprintf (out : ℕ → UInt8) (n : ℕ) (s : List UInt8) (vl : VaList) : ℕ × (ℕ → UInt8) × ℕ :=
  let f := Formatter.run n vl s out
  (f.pos, if f.pos < n then update f.out f.pos 0 else if n ≠ 0 then update f.out (n - 1) 0 else f.out, f.used)

/-- `res < sizeof(out) ? res : sizeof(out)`, for an `int32` that is compared with a `size_t`. -/
def printed (res : ℕ) : ℕ := if res % 2 ^ 32 < 256 then res % 2 ^ 32 else 256

def vprintk (out : ℕ → UInt8) (s : List UInt8) (vl : VaList) : List UInt8 × ℕ :=
  let r := vsnprintf out 256 s vl
  (slice r.2.1 0 (printed r.1), r.2.2)

def printu (out : ℕ → UInt8) (s : List UInt8) (vl : VaList) : List UInt8 := readString (vsnprintf out 256 s vl).2.1 0 256

def IsConversion (c : UInt8) : Prop := c = 112 ∨ c = 120 ∨ c = 100 ∨ c = 115 ∨ c = 99

instance (c : UInt8) : Decidable (IsConversion c) := inferInstanceAs (Decidable (_ ∨ _))

namespace Formatter

variable {n : ℕ} {vl : VaList} {f : Formatter} {s : List UInt8} {c : UInt8} {out : ℕ → UInt8}

@[simp] lemma put_used : (f.put n c).used = f.used := rfl
@[simp] lemma put_pos : (f.put n c).pos = f.pos + 1 := rfl
@[simp] lemma convert_used : f.convert.used = f.used + 1 := rfl

lemma foldl_put_used {α : Type} (g : α → UInt8) (l : List α) : (l.foldl (fun f a => f.put n (g a)) f).used = f.used := by
  induction l generalizing f with
  | nil => rfl
  | cons a l ih => rw [List.foldl_cons, ih, put_used]

lemma hex_used : (f.hex n vl).used = f.used + 1 := by
  rw [hex, convert_used, foldl_put_used]

lemma string_used : (f.string n vl).used = f.used + 1 := by
  rw [string, convert_used, foldl_put_used]

lemma dec_used : (f.dec n vl).used = f.used + 1 := by
  rw [dec, convert_used]
  dsimp only
  split <;> rfl

variable (n vl) in
lemma step_conversion (hf : f.format = true) (hc : IsConversion c) :
    (f.step n vl c).used = f.used + 1 ∨ (f.step n vl c).used = f.used ∧ (f.step n vl c).pos = f.pos + 1 ∧ n ≤ f.pos + 1 := by
  rw [step, if_pos hf]
  rcases hc with rfl | rfl | rfl | rfl | rfl
  · simp [hex_used]
  · simp [hex_used]
  · simp [dec_used]
  · simp [string_used]
  · by_cases hroom : f.pos + 1 < n
    · simp [char, hroom]
    · simp [char, hroom, not_lt.mp hroom]

variable (n vl) in
lemma step_skipped (hf : f.format = true) (hc : ¬ IsConversion c) :
    (f.step n vl c).format = true ∧ (f.step n vl c).pos = f.pos ∧ (f.step n vl c).out = f.out ∧ (f.step n vl c).used = f.used := by
  simp only [IsConversion, not_or] at hc
  obtain ⟨hp, hx, hd, hs, hch⟩ := hc
  rw [step, if_pos hf]
  by_cases hl : c = 108
  · rw [if_pos hl]
    exact ⟨hf, rfl, rfl, rfl⟩
  · rw [if_neg hl, if_neg hp, if_neg hx, if_neg hd, if_neg hs, if_neg hch]
    exact ⟨hf, rfl, rfl, rfl⟩

variable (n vl) in
lemma step_quiet (f : Formatter) (c : UInt8) : f.used < (f.step n vl c).used ∨
    (f.step n vl c).used = f.used ∧ f.pos ≤ (f.step n vl c).pos ∧ (f.step n vl c).pos ≤ f.pos + 1 := by
  by_cases hf : f.format = true
  · by_cases hc : IsConversion c
    · rcases step_conversion n vl hf hc with hused | ⟨hused, hpos, -⟩
      · exact .inl (by rw [hused]; exact Nat.lt_succ_self _)
      · exact .inr ⟨hused, by omega, by omega⟩
    · obtain ⟨-, hpos, -, hused⟩ := step_skipped n vl hf hc
      exact .inr ⟨hused, hpos.ge, by omega⟩
  · right
    rw [step, if_neg hf]
    split
    · exact ⟨rfl, le_rfl, Nat.le_succ _⟩
    · exact ⟨rfl, Nat.le_succ _, le_rfl⟩

variable (n vl) in
lemma foldl_quiet (f : Formatter) (s : List UInt8) : f.used < (s.foldl (step n vl) f).used ∨
    (s.foldl (step n vl) f).used = f.used ∧ f.pos ≤ (s.foldl (step n vl) f).pos ∧ (s.foldl (step n vl) f).pos ≤ f.pos + s.length := by
  induction s generalizing f with
  | nil => exact .inr ⟨rfl, le_rfl, le_rfl⟩
  | cons c s ih =>
    rw [List.foldl_cons, List.length_cons]
    rcases step_quiet n vl f c with hstep | ⟨hstep, hle, hle'⟩ <;> rcases ih (f.step n vl c) with hrest | ⟨hrest, hge, hge'⟩
    · exact .inl (hstep.trans hrest)
    · exact .inl (hrest ▸ hstep)
    · exact .inl (hstep ▸ hrest)
    · exact .inr ⟨hrest.trans hstep, hle.trans hge, by omega⟩

lemma foldl_put (f : Formatter) (s : List UInt8) :
    (s.foldl (fun f c => f.put n c) f).format = f.format ∧ (s.foldl (fun f c => f.put n c) f).used = f.used ∧
      (s.foldl (fun f c => f.put n c) f).pos = f.pos + s.length ∧ ∀ x, x + 1 < n →
        (s.foldl (fun f c => f.put n c) f).out x = if f.pos ≤ x ∧ x < f.pos + s.length then s.getD (x - f.pos) 0 else f.out x := by
  induction s generalizing f with
  | nil => simp
  | cons c s ih =>
    obtain ⟨hformat, hused, hpos, hout⟩ := ih (f.put n c)
    rw [List.foldl_cons]
    refine ⟨hformat, hused, ?_, ?_⟩
    · rw [hpos, put_pos, List.length_cons]
      omega
    · intro x hx
      rw [hout x hx, put_pos, List.length_cons]
      by_cases hhead : x = f.pos
      · subst hhead
        rw [if_neg (by omega), if_pos (by omega), Nat.sub_self, put, if_pos hx]
        simp
      · by_cases hin : f.pos + 1 ≤ x ∧ x < f.pos + 1 + s.length
        · rw [if_pos hin, if_pos (by omega), show x - f.pos = x - (f.pos + 1) + 1 by omega, List.getD_cons_succ]
        · rw [if_neg hin, if_neg (by omega), put]
          dsimp only
          split_ifs
          · exact update_of_ne hhead _ _
          · rfl

lemma foldl_plain (hf : f.format = false) (hs : 37 ∉ s) : s.foldl (step n vl) f = s.foldl (fun f c => f.put n c) f := by
  induction s generalizing f with
  | nil => rfl
  | cons c s ih =>
    rw [List.mem_cons, not_or] at hs
    have hstep : f.step n vl c = f.put n c := by
      rw [step, if_neg (by simp [hf]), if_neg (Ne.symm hs.1)]
    rw [List.foldl_cons, List.foldl_cons, hstep]
    exact ih hf hs.2

variable (n vl) in
lemma foldl_silent (hf : f.format = true) (hs : ∀ c ∈ s, ¬ IsConversion c) :
    (s.foldl (step n vl) f).pos = f.pos ∧ (s.foldl (step n vl) f).out = f.out ∧ (s.foldl (step n vl) f).used = f.used := by
  induction s generalizing f with
  | nil => exact ⟨rfl, rfl, rfl⟩
  | cons c s ih =>
    obtain ⟨hformat, hpos, hout, hused⟩ := step_skipped n vl hf (hs c (by simp))
    obtain ⟨hpos', hout', hused'⟩ := ih hformat fun c' hc' => hs c' (by simp [hc'])
    exact ⟨hpos'.trans hpos, hout'.trans hout, hused'.trans hused⟩

variable (n vl) in
lemma foldl_conversion (hf : f.format = true) (hs : ∃ c ∈ s, IsConversion c) :
    f.used < (s.foldl (step n vl) f).used ∨ n ≤ (s.foldl (step n vl) f).pos := by
  induction s generalizing f with
  | nil => simp at hs
  | cons c s ih =>
    rw [List.foldl_cons]
    by_cases hc : IsConversion c
    · rcases foldl_quiet n vl (f.step n vl c) s with hlt | ⟨hused, hle, -⟩ <;>
        rcases step_conversion n vl hf hc with hstep | ⟨hstep, hpos, hfull⟩
      · exact .inl (by omega)
      · exact .inl (hstep ▸ hlt)
      · exact .inl (by omega)
      · exact .inr (by omega)
    · obtain ⟨hformat, -, -, hused⟩ := step_skipped n vl hf hc
      rw [← hused]
      apply ih hformat
      obtain ⟨c', hc', hconv⟩ := hs
      rcases List.mem_cons.mp hc' with rfl | hmem
      · exact absurd hconv hc
      · exact ⟨c', hmem, hconv⟩

variable (n vl) in
lemma run_plain (hs : 37 ∉ s) : (run n vl s out).format = false ∧ (run n vl s out).used = 0 ∧ (run n vl s out).pos = s.length ∧
    ∀ x, x < s.length → x + 1 < n → (run n vl s out).out x = s.getD x 0 := by
  obtain ⟨hformat, hused, hpos, hout⟩ := foldl_put (n := n) ⟨false, false, 0, out, 0⟩ s
  rw [run, foldl_plain rfl hs]
  refine ⟨hformat, hused, hpos.trans (Nat.zero_add _), fun x hx hn => ?_⟩
  rw [hout x hn]
  simp [hx]

variable (n vl) in
lemma run_percent (hs : 37 ∉ s) (u : List UInt8) :
    run n vl (s ++ 37 :: u) out = u.foldl (step n vl) { run n vl s out with format := true } := by
  have hstep : (run n vl s out).step n vl 37 = { run n vl s out with format := true } := by
    rw [step, if_neg (by simp [(run_plain n vl hs).1]), if_pos rfl]
  rw [run, List.foldl_append, List.foldl_cons]
  exact congrArg (u.foldl (step n vl)) hstep

end Formatter

section Prints

open Formatter

variable {out : ℕ → UInt8} {vl : VaList} {s t u : List UInt8}

lemma length_vprintk : (vprintk out t vl).1.length = printed (run 256 vl t out).pos := by simp [vprintk, vsnprintf, slice]

lemma vprintk_of_run (hlen : s.length < 256) (hpos : (run 256 vl t out).pos = s.length)
    (hout : ∀ x < s.length, (run 256 vl t out).out x = s.getD x 0) : vprintk out t vl = (s, (run 256 vl t out).used) := by
  have hprinted : printed s.length = s.length := by
    rw [printed]
    split <;> omega
  rw [vprintk, vsnprintf]
  dsimp only
  rw [hpos, hprinted, if_pos hlen]
  congr 1
  apply List.ext_getElem
  · simp [slice]
  · intro x hx hx'
    have hne : x ≠ s.length := by omega
    simp [slice, update_of_ne hne, hout x hx', hx']

lemma vprintk_plain (hlen : s.length < 256) (hs : 37 ∉ s) : vprintk out s vl = (s, 0) := by
  obtain ⟨-, hused, hpos, hout⟩ := run_plain 256 vl hs
  rw [vprintk_of_run hlen hpos fun x hx => hout x hx (by omega), hused]

lemma vprintk_unfinished (hlen : s.length < 256) (hs : 37 ∉ s) (hu : ∀ c ∈ u, ¬ IsConversion c) :
    vprintk out (s ++ 37 :: u) vl = (s, 0) := by
  obtain ⟨-, hused, hpos, hout⟩ := run_plain 256 vl hs
  have hsilent := foldl_silent 256 vl (f := { run 256 vl s out with format := true }) rfl hu
  rw [← run_percent 256 vl hs] at hsilent
  obtain ⟨hpos', hout', hused'⟩ := hsilent
  rw [vprintk_of_run hlen (hpos'.trans hpos) fun x hx => (congrFun hout' x).trans (hout x hx (by omega)), hused', hused]

lemma pos_lt_of_vprintk (ht : t.length < 2 ^ 32) (hlen : s.length < 256) (hprint : vprintk out t vl = (s, 0)) :
    (run 256 vl t out).used = 0 ∧ (run 256 vl t out).pos < 256 := by
  have hused : (run 256 vl t out).used = 0 := congrArg Prod.snd hprint
  have hprinted : printed (run 256 vl t out).pos = s.length := by rw [← length_vprintk, hprint]
  refine ⟨hused, ?_⟩
  rcases foldl_quiet 256 vl ⟨false, false, 0, out, 0⟩ t with hlt | ⟨-, -, hle⟩
  · exact absurd hused (Nat.ne_of_gt hlt)
  · change (run 256 vl t out).pos ≤ 0 + t.length at hle
    rw [printed] at hprinted
    split_ifs at hprinted <;> omega

lemma vprintk_eq_iff (ht : t.length < 2 ^ 32) (hlen : s.length < 256) :
    vprintk out t vl = (s, 0) ↔ 37 ∉ s ∧ (t = s ∨ ∃ u, t = s ++ 37 :: u ∧ ∀ c ∈ u, ¬ IsConversion c) := by
  constructor
  · intro hprint
    obtain ⟨hused, hsmall⟩ := pos_lt_of_vprintk ht hlen hprint
    by_cases hpercent : 37 ∈ t
    · obtain ⟨a, u, rfl, ha⟩ := List.eq_append_cons_of_mem hpercent
      have hu : ∀ c ∈ u, ¬ IsConversion c := by
        intro c hc hconv
        rw [run_percent 256 vl ha] at hused hsmall
        have hread := foldl_conversion 256 vl (f := { run 256 vl a out with format := true }) rfl ⟨c, hc, hconv⟩
        omega
      have hshort : a.length < 256 := by
        obtain ⟨-, -, hpos, -⟩ := run_plain 256 vl ha
        have hsilent := foldl_silent 256 vl (f := { run 256 vl a out with format := true }) rfl hu
        rw [run_percent 256 vl ha, hsilent.1, hpos] at hsmall
        exact hsmall
      rw [vprintk_unfinished hshort ha hu, Prod.mk.injEq] at hprint
      obtain ⟨rfl, -⟩ := hprint
      exact ⟨ha, .inr ⟨u, rfl, hu⟩⟩
    · have hshort : t.length < 256 := by
        obtain ⟨-, -, hpos, -⟩ := run_plain 256 vl hpercent
        rw [hpos] at hsmall
        exact hsmall
      rw [vprintk_plain hshort hpercent, Prod.mk.injEq] at hprint
      obtain ⟨rfl, -⟩ := hprint
      exact ⟨hpercent, .inl rfl⟩
  · rintro ⟨hs, rfl | ⟨u, rfl, hu⟩⟩
    · exact vprintk_plain hlen hs
    · exact vprintk_unfinished hlen hs hu

lemma printu_string (arg : ℕ → BitVec 64) (hlen : s.length < 256) (hs : (0 : UInt8) ∉ s) : printu out [37, 115] ⟨arg, fun _ => s⟩ = s := by
  obtain ⟨-, -, hpos, hout⟩ := foldl_put (n := 256) ⟨true, false, 0, out, 0⟩ s
  have hend : (run 256 ⟨arg, fun _ => s⟩ [37, 115] out).pos = s.length := hpos.trans (Nat.zero_add _)
  have htext : ∀ x < s.length, (run 256 ⟨arg, fun _ => s⟩ [37, 115] out).out x = s.getD x 0 := by
    intro x hx
    refine (hout x (by omega)).trans ?_
    simp [hx]
  rw [printu, vsnprintf]
  dsimp only
  rw [hend, if_pos hlen]
  apply readString_of_hasString hs hlen
  apply hasString_of_bytes
  intro i hi
  rw [Nat.zero_add]
  rcases hi.lt_or_eq with hlt | rfl
  · rw [update_of_ne hlt.ne, htext i hlt]
  · simp

end Prints

end Pke.Console
