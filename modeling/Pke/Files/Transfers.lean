import Mathlib.Algebra.BigOperators.Group.Finset.Basic
import Mathlib.Tactic

/-! `sys_user_read` and `sys_user_write`. What `do_read` and `do_write` answer is a sequence of `int`s; the loops keep the
position in an `int` and compare it, as well as the answers, as `uint64`s. -/

namespace Pke.Files

inductive FileCall where
  | doRead
  | doWrite
  deriving DecidableEq

structure ChunkCall where
  call : FileCall
  fd : Int32
  addr : UInt64
  buf : UInt64
  len : UInt64
  deriving DecidableEq

def extend (i : Int32) : UInt64 := UInt64.ofInt i.toInt

section Loop

variable (call : FileCall) (lookupPa : UInt64 → UInt64) (fd : Int32) (bufva count : UInt64) (results : ℕ → Int32)

def chunkAt (i : Int32) : ChunkCall :=
  let addr := bufva + extend i
  let off := addr - addr / 4096 * 4096
  { call := call
    fd := fd
    addr := addr
    buf := lookupPa addr + off
    len := if count - extend i < 4096 - off then count - extend i else 4096 - off }

def transfer : ℕ → ℕ → Int32 → Option (Int64 × List ChunkCall)
  | 0, _, _ => none
  | fuel + 1, k, i =>
    if extend i < count then
      let c := chunkAt call lookupPa fd bufva count i
      let r := extend (results k)
      let i' := Int32.ofNat (extend i + r).toNat
      if r < c.len then some (Int64.ofInt i'.toInt, [c])
      else (transfer fuel (k + 1) i').map fun x => (x.1, c :: x.2)
    else some (Int64.ofNat count.toNat, [])

def sysUserRead (fuel : ℕ) : Option (Int64 × List ChunkCall) := transfer .doRead lookupPa fd bufva count results fuel 0 0

def sysUserWrite (fuel : ℕ) : Option (Int64 × List ChunkCall) := transfer .doWrite lookupPa fd bufva count results fuel 0 0

end Loop

def asked (calls : List ChunkCall) : ℕ := (calls.map fun c => c.len.toNat).sum

def moved (results : ℕ → Int32) (n : ℕ) : ℤ := ∑ k ∈ Finset.range n, max 0 (results k).toInt

structure Reported (bufva count : UInt64) (results : ℕ → Int32) (ret : Int64) (calls : List ChunkCall) : Prop where
  inOrder : ∀ k c, calls[k]? = some c → c.addr = bufva + UInt64.ofNat (asked (calls.take k))
  within : asked calls ≤ count.toNat
  stops : ∀ k c, calls[k]? = some c → k + 1 < calls.length → (results k).toInt = c.len.toNat
  goesOn : (∀ k c, calls[k]? = some c → (results k).toInt = c.len.toNat) → asked calls = count.toNat
  failed : calls ≠ [] → (results 0).toInt < 0 → ret.toInt < 0
  returned : calls = [] ∨ 0 ≤ (results 0).toInt → ret.toInt = moved results calls.length

section Numbers

variable {i r : Int32} {n m : ℕ}

lemma extend_of_nonneg (h : 0 ≤ i.toInt) : ((extend i).toNat : ℤ) = i.toInt := by
  have hlt := i.toInt_lt
  rw [extend, UInt64.ofInt, UInt64.toNat_ofNat']
  omega

lemma extend_of_neg (h : i.toInt < 0) : ((extend i).toNat : ℤ) = 2 ^ 64 + i.toInt := by
  have hle := i.le_toInt
  rw [extend, UInt64.ofInt, UInt64.toNat_ofNat']
  omega

lemma toInt_ofNat_of_ge (h : 2 ^ 31 ≤ n) (hlt : n < 2 ^ 32) : (Int32.ofNat n).toInt = n - 2 ^ 32 := by
  rw [Int32.toInt_ofNat', Int.bmod_def, Int32.size]
  split <;> omega

lemma ofNat_extend_add (i r : Int32) : (Int32.ofNat (extend i + extend r).toNat).toInt = (i.toInt + r.toInt).bmod Int32.size := by
  rw [Int32.toInt_ofNat', Int32.size, UInt64.toNat_add, extend, extend, UInt64.ofInt, UInt64.ofInt, UInt64.toNat_ofNat', UInt64.toNat_ofNat',
    Int.bmod_def, Int.bmod_def]
  split <;> split <;> omega

end Numbers

section Chunks

def boundary (bufva count : UInt64) (k : ℕ) : ℕ := min count.toNat (4096 * k - bufva.toNat % 4096)

def Reaches (bufva count : UInt64) (n : ℕ) : Prop := ∀ k < n, boundary bufva count k < count.toNat ∧ boundary bufva count k < 2 ^ 31

def FullTo (bufva count : UInt64) (results : ℕ → Int32) (n : ℕ) : Prop :=
  ∀ k < n, (results k).toInt = boundary bufva count (k + 1) - boundary bufva count k

variable {call : FileCall} {lookupPa : UInt64 → UInt64} {fd : Int32} {bufva count : UInt64} {results : ℕ → Int32}
  {n k fuel : ℕ} {i : Int32} {x : Int64 × List ChunkCall}

lemma boundary_zero : boundary bufva count 0 = 0 := by
  rw [boundary]
  omega

lemma boundary_le_count : boundary bufva count k ≤ count.toNat := min_le_left _ _

lemma boundary_le_succ : boundary bufva count k ≤ boundary bufva count (k + 1) := by
  rw [boundary, boundary]
  omega

lemma boundary_succ_le : boundary bufva count (k + 1) ≤ boundary bufva count k + 4096 := by
  rw [boundary, boundary]
  omega

lemma extend_boundary (h : boundary bufva count k < 2 ^ 31) :
    (extend (Int32.ofNat (boundary bufva count k))).toNat = boundary bufva count k := by
  have hint := Int32.toInt_ofNat_of_lt h
  have hext := extend_of_nonneg (hint ▸ Int.natCast_nonneg _)
  omega

lemma chunkAt_addr (h : boundary bufva count k < 2 ^ 31) :
    (chunkAt call lookupPa fd bufva count (Int32.ofNat (boundary bufva count k))).addr = bufva + UInt64.ofNat (boundary bufva count k) := by
  have hext := extend_boundary h
  rw [← UInt64.toNat_inj]
  change (bufva + extend _).toNat = _
  rw [UInt64.toNat_add, UInt64.toNat_add, hext, UInt64.toNat_ofNat']
  omega

lemma chunkAt_len_min (hi : extend i < count) : (chunkAt call lookupPa fd bufva count i).len.toNat =
    min (count.toNat - (extend i).toNat) (4096 - (bufva.toNat + (extend i).toNat) % 4096) := by
  have hi' : (extend i).toNat < count.toNat := hi
  have hleft := UInt64.toNat_sub_of_le count (extend i) (Nat.le_of_lt hi')
  have hoff : (bufva + extend i - (bufva + extend i) / 4096 * 4096).toNat = (bufva.toNat + (extend i).toNat) % 4096 := by
    rw [UInt64.toNat_sub, UInt64.toNat_mul, UInt64.toNat_div, UInt64.toNat_add]
    change (2 ^ 64 - _ / 4096 * 4096 % 2 ^ 64 + _) % 2 ^ 64 = _
    omega
  have hpage : (4096 - (bufva + extend i - (bufva + extend i) / 4096 * 4096)).toNat =
      4096 - (bufva.toNat + (extend i).toNat) % 4096 := by
    rw [UInt64.toNat_sub, hoff]
    change (2 ^ 64 - _ + 4096) % 2 ^ 64 = _
    omega
  rw [chunkAt]
  dsimp only
  split
  · next h =>
    have hlt : _ < _ := UInt64.lt_iff_toNat_lt.mp h
    omega
  · next h =>
    rw [UInt64.lt_iff_toNat_lt] at h
    omega

lemma chunkAt_len (hk : boundary bufva count k < count.toNat) (h : boundary bufva count k < 2 ^ 31) :
    (chunkAt call lookupPa fd bufva count (Int32.ofNat (boundary bufva count k))).len.toNat =
      boundary bufva count (k + 1) - boundary bufva count k := by
  have hext := extend_boundary h
  rw [chunkAt_len_min (UInt64.lt_iff_toNat_lt.mpr (by omega)), hext]
  rw [boundary] at hk
  rw [boundary, boundary]
  omega

def chunks (call : FileCall) (lookupPa : UInt64 → UInt64) (fd : Int32) (bufva count : UInt64) (n : ℕ) : List ChunkCall :=
  (List.range n).map fun k => chunkAt call lookupPa fd bufva count (Int32.ofNat (boundary bufva count k))

lemma length_chunks : (chunks call lookupPa fd bufva count n).length = n := by
  rw [chunks, List.length_map, List.length_range]

lemma chunks_succ : chunks call lookupPa fd bufva count (n + 1) =
    chunks call lookupPa fd bufva count n ++ [chunkAt call lookupPa fd bufva count (Int32.ofNat (boundary bufva count n))] := by
  rw [chunks, List.range_succ, List.map_append]
  rfl

lemma Reaches.mono (h : Reaches bufva count n) (hk : k ≤ n) : Reaches bufva count k := fun j hj => h j (hj.trans_le hk)

lemma asked_append (l l' : List ChunkCall) : asked (l ++ l') = asked l + asked l' := by
  rw [asked, List.map_append, List.sum_append]
  rfl

lemma asked_chunks (h : Reaches bufva count n) : asked (chunks call lookupPa fd bufva count n) = boundary bufva count n := by
  induction n with
  | zero => exact boundary_zero.symm
  | succ n ih =>
    obtain ⟨hn, hint⟩ := h n (Nat.lt_succ_self n)
    have hle : boundary bufva count n ≤ boundary bufva count (n + 1) := boundary_le_succ
    have hlast : asked [chunkAt call lookupPa fd bufva count (Int32.ofNat (boundary bufva count n))] =
        boundary bufva count (n + 1) - boundary bufva count n := by
      rw [asked, List.map_singleton, List.sum_singleton, chunkAt_len hn hint]
    rw [chunks_succ, asked_append, ih (h.mono (Nat.le_succ n)), hlast]
    omega

lemma moved_full (h : FullTo bufva count results n) : moved results n = boundary bufva count n := by
  induction n with
  | zero => rw [moved, Finset.range_zero, Finset.sum_empty, boundary_zero, Nat.cast_zero]
  | succ n ih =>
    have hle : boundary bufva count n ≤ boundary bufva count (n + 1) := boundary_le_succ
    have hn := h n (Nat.lt_succ_self n)
    have hrest := ih fun k hk => h k (hk.trans (Nat.lt_succ_self n))
    rw [moved] at hrest ⊢
    rw [Finset.sum_range_succ, hrest, hn]
    omega

end Chunks

section Runs

variable {call : FileCall} {lookupPa : UInt64 → UInt64} {fd : Int32} {bufva count : UInt64} {results : ℕ → Int32}
  {n k fuel more : ℕ} {i : Int32} {x : Int64 × List ChunkCall}

lemma transfer_end (hi : ¬ extend i < count) :
    transfer call lookupPa fd bufva count results (fuel + 1) k i = some (Int64.ofNat count.toNat, []) := by
  rw [transfer, if_neg hi]

lemma transfer_short (hi : extend i < count) (hr : extend (results k) < (chunkAt call lookupPa fd bufva count i).len) :
    transfer call lookupPa fd bufva count results (fuel + 1) k i =
      some (Int64.ofInt (Int32.ofNat (extend i + extend (results k)).toNat).toInt, [chunkAt call lookupPa fd bufva count i]) := by
  rw [transfer, if_pos hi, if_pos hr]

lemma transfer_next (hi : extend i < count) (hr : ¬ extend (results k) < (chunkAt call lookupPa fd bufva count i).len) :
    transfer call lookupPa fd bufva count results (fuel + 1) k i =
      (transfer call lookupPa fd bufva count results fuel (k + 1) (Int32.ofNat (extend i + extend (results k)).toNat)).map
        fun x => (x.1, chunkAt call lookupPa fd bufva count i :: x.2) := by
  rw [transfer, if_pos hi, if_neg hr]

lemma transfer_mono (h : transfer call lookupPa fd bufva count results fuel k i = some x) :
    transfer call lookupPa fd bufva count results (more + fuel) k i = some x := by
  induction fuel generalizing k i x with
  | zero => cases h
  | succ fuel ih =>
    rw [← Nat.add_assoc]
    by_cases hi : extend i < count
    · by_cases hr : extend (results k) < (chunkAt call lookupPa fd bufva count i).len
      · rwa [transfer_short hi hr] at h ⊢
      · rw [transfer_next hi hr, Option.map_eq_some_iff] at h
        obtain ⟨y, hy, rfl⟩ := h
        rw [transfer_next hi hr, ih hy, Option.map_some]
    · rwa [transfer_end hi] at h ⊢

lemma next_boundary (h : boundary bufva count k < 2 ^ 31)
    (hr : (results k).toInt = boundary bufva count (k + 1) - boundary bufva count k) :
    Int32.ofNat (extend (Int32.ofNat (boundary bufva count k)) + extend (results k)).toNat = Int32.ofNat (boundary bufva count (k + 1)) := by
  rw [← Int32.toInt_inj, ofNat_extend_add, Int32.toInt_ofNat_of_lt h, hr, Int32.toInt_ofNat', add_sub_cancel]

lemma transfer_full (hreach : Reaches bufva count n) (hfull : FullTo bufva count results n) :
    transfer call lookupPa fd bufva count results (n + fuel) 0 0 =
      (transfer call lookupPa fd bufva count results fuel n (Int32.ofNat (boundary bufva count n))).map
        fun x => (x.1, chunks call lookupPa fd bufva count n ++ x.2) := by
  induction n generalizing fuel with
  | zero =>
    rw [boundary_zero, Nat.zero_add, show Int32.ofNat 0 = 0 from rfl]
    cases transfer call lookupPa fd bufva count results fuel 0 0 <;> rfl
  | succ n ih =>
    obtain ⟨hn, hint⟩ := hreach n (Nat.lt_succ_self n)
    have hr := hfull n (Nat.lt_succ_self n)
    have hext := extend_boundary hint
    have hlen : (chunkAt call lookupPa fd bufva count (Int32.ofNat (boundary bufva count n))).len.toNat = _ := chunkAt_len hn hint
    have hle : boundary bufva count n ≤ boundary bufva count (n + 1) := boundary_le_succ
    have hres : ((extend (results n)).toNat : ℤ) = _ := extend_of_nonneg (by omega)
    have hnot : ¬ extend (results n) < (chunkAt call lookupPa fd bufva count (Int32.ofNat (boundary bufva count n))).len := by
      rw [UInt64.lt_iff_toNat_lt]
      omega
    rw [show n + 1 + fuel = n + (fuel + 1) by omega, ih (hreach.mono (Nat.le_succ n)) fun k hk => hfull k (hk.trans (Nat.lt_succ_self n)),
      transfer_next (UInt64.lt_iff_toNat_lt.mpr (by omega)) hnot, next_boundary hint hr, Option.map_map, chunks_succ]
    refine congrArg (fun f => Option.map f _) (funext fun x => ?_)
    rw [Function.comp_apply, List.append_assoc, List.singleton_append]

end Runs

section Reports

variable {call : FileCall} {lookupPa : UInt64 → UInt64} {fd : Int32} {bufva count : UInt64} {results : ℕ → Int32}
  {n k fuel : ℕ} {c : ChunkCall} {ret : Int64} {calls : List ChunkCall}

lemma chunks_get (h : (chunks call lookupPa fd bufva count n)[k]? = some c) :
    k < n ∧ c = chunkAt call lookupPa fd bufva count (Int32.ofNat (boundary bufva count k)) := by
  rw [chunks, List.getElem?_map, Option.map_eq_some_iff] at h
  obtain ⟨j, hj, rfl⟩ := h
  obtain ⟨hk, rfl⟩ := List.getElem?_eq_some_iff.mp hj
  rw [List.length_range] at hk
  rw [List.getElem_range]
  exact ⟨hk, rfl⟩

lemma take_chunks (hk : k ≤ n) : (chunks call lookupPa fd bufva count n).take k = chunks call lookupPa fd bufva count k := by
  rw [chunks, ← List.map_take, List.take_range, Nat.min_eq_left hk]
  rfl

lemma chunks_inOrder (h : Reaches bufva count n) (hc : (chunks call lookupPa fd bufva count n)[k]? = some c) :
    c.addr = bufva + UInt64.ofNat (asked ((chunks call lookupPa fd bufva count n).take k)) := by
  obtain ⟨hk, rfl⟩ := chunks_get hc
  rw [take_chunks hk.le, asked_chunks (h.mono hk.le), chunkAt_addr (h k hk).2]

lemma chunks_full (h : Reaches bufva count n) (hfull : FullTo bufva count results n)
    (hc : (chunks call lookupPa fd bufva count n)[k]? = some c) : (results k).toInt = c.len.toNat := by
  obtain ⟨hk, rfl⟩ := chunks_get hc
  have hle : boundary bufva count k ≤ boundary bufva count (k + 1) := boundary_le_succ
  rw [hfull k hk, chunkAt_len (h k hk).1 (h k hk).2]
  omega

lemma FullTo.nonneg (h : FullTo bufva count results n) (hk : k < n) : 0 ≤ (results k).toInt := by
  have hle : boundary bufva count k ≤ boundary bufva count (k + 1) := boundary_le_succ
  rw [h k hk]
  omega

lemma Reaches.boundary_lt (h : Reaches bufva count n) : boundary bufva count n < 2 ^ 31 + 4096 := by
  cases n with
  | zero =>
    rw [boundary_zero]
    omega
  | succ n =>
    have hle : boundary bufva count (n + 1) ≤ boundary bufva count n + 4096 := boundary_succ_le
    have hn := (h n (Nat.lt_succ_self n)).2
    omega

lemma extend_wrapped (h : Reaches bufva count n) (hn : 2 ^ 31 ≤ boundary bufva count n) :
    (extend (Int32.ofNat (boundary bufva count n))).toNat = 2 ^ 64 - 2 ^ 32 + boundary bufva count n := by
  have hlt := h.boundary_lt
  have hint := toInt_ofNat_of_ge hn (by omega)
  have hext : ((extend (Int32.ofNat (boundary bufva count n))).toNat : ℤ) = _ := extend_of_neg (by omega)
  omega

lemma not_lt_count (h : Reaches bufva count n) (hn : boundary bufva count n = count.toNat) :
    ¬ extend (Int32.ofNat (boundary bufva count n)) < count := by
  rw [UInt64.lt_iff_toNat_lt]
  by_cases hint : boundary bufva count n < 2 ^ 31
  · rw [extend_boundary hint]
    omega
  · rw [extend_wrapped h (by omega)]
    omega

lemma Reported.of_end (hreach : Reaches bufva count n) (hfull : FullTo bufva count results n)
    (hn : boundary bufva count n = count.toNat) :
    ∃ ret calls, transfer call lookupPa fd bufva count results (n + 1) 0 0 = some (ret, calls) ∧
      Reported bufva count results ret calls := by
  have hlt := hreach.boundary_lt
  refine ⟨Int64.ofNat count.toNat, chunks call lookupPa fd bufva count n, ?_, ?_⟩
  · rw [transfer_full hreach hfull, transfer_end (not_lt_count hreach hn), Option.map_some, List.append_nil]
  · have hret : (Int64.ofNat count.toNat).toInt = boundary bufva count n := by
      rw [Int64.toInt_ofNat_of_lt (by omega), hn]
    refine ⟨fun k c => chunks_inOrder hreach, ?_, fun k c hc _ => chunks_full hreach hfull hc, fun _ => ?_, fun hne hneg => ?_, fun _ => ?_⟩
    · rw [asked_chunks hreach]
      exact boundary_le_count
    · rw [asked_chunks hreach, hn]
    · have hpos : 0 < n := by
        rw [← List.length_pos_iff, length_chunks] at hne
        exact hne
      exact absurd (hfull.nonneg hpos) (not_le.mpr hneg)
    · rw [length_chunks, moved_full hfull, hret]

lemma Reported.of_short (hreach : Reaches bufva count (n + 1)) (hfull : FullTo bufva count results n)
    (hnonneg : 0 ≤ (results n).toInt) (hr : (results n).toInt < boundary bufva count (n + 1) - boundary bufva count n)
    (hint : boundary bufva count n + (results n).toInt < 2 ^ 31) :
    ∃ ret calls, transfer call lookupPa fd bufva count results (n + 1) 0 0 = some (ret, calls) ∧
      Reported bufva count results ret calls := by
  obtain ⟨hn, hsmall⟩ := hreach n (Nat.lt_succ_self n)
  have hext := extend_boundary hsmall
  have hres := extend_of_nonneg hnonneg
  have hlen : (chunkAt call lookupPa fd bufva count (Int32.ofNat (boundary bufva count n))).len.toNat = _ := chunkAt_len hn hsmall
  have hpos : Int32.ofNat (extend (Int32.ofNat (boundary bufva count n)) + extend (results n)).toNat =
      Int32.ofNat (boundary bufva count n + (results n).toInt.toNat) := by
    have hsum : ((boundary bufva count n + (results n).toInt.toNat : ℕ) : ℤ) = boundary bufva count n + (results n).toInt := by omega
    rw [← Int32.toInt_inj, ofNat_extend_add, Int32.toInt_ofNat_of_lt hsmall, Int32.toInt_ofNat', hsum]
  have hret : (Int64.ofInt (Int32.ofNat (boundary bufva count n + (results n).toInt.toNat)).toInt).toInt =
      boundary bufva count n + (results n).toInt := by
    rw [Int32.toInt_ofNat_of_lt (by omega), Int64.toInt_ofInt_of_le (by omega) (by omega)]
    omega
  refine ⟨Int64.ofInt (Int32.ofNat (boundary bufva count n + (results n).toInt.toNat)).toInt,
    chunks call lookupPa fd bufva count (n + 1), ?_, ?_⟩
  · rw [transfer_full (hreach.mono (Nat.le_succ n)) hfull,
      transfer_short (UInt64.lt_iff_toNat_lt.mpr (by omega)) (UInt64.lt_iff_toNat_lt.mpr (by omega)), Option.map_some, hpos, chunks_succ]
  · have hlast : (chunks call lookupPa fd bufva count (n + 1))[n]? =
        some (chunkAt call lookupPa fd bufva count (Int32.ofNat (boundary bufva count n))) := by
      rw [chunks_succ, List.getElem?_append_right (length_chunks.le), length_chunks, Nat.sub_self]
      rfl
    have hfirst : 0 ≤ (results 0).toInt := by
      cases n with
      | zero => exact hnonneg
      | succ n => exact hfull.nonneg (Nat.succ_pos n)
    refine ⟨fun k c => chunks_inOrder hreach, ?_, fun k c hc hk => ?_, fun hall => ?_, fun _ hneg => absurd hfirst (not_le.mpr hneg),
      fun _ => ?_⟩
    · rw [asked_chunks hreach]
      exact boundary_le_count
    · rw [length_chunks] at hk
      obtain ⟨-, rfl⟩ := chunks_get hc
      have hle : boundary bufva count k ≤ boundary bufva count (k + 1) := boundary_le_succ
      obtain ⟨hkc, hki⟩ := hreach k (by omega)
      rw [hfull k (by omega), chunkAt_len hkc hki]
      omega
    · have hlen' := hall n _ hlast
      omega
    · have hmoved := moved_full hfull
      rw [moved] at hmoved
      rw [length_chunks, hret, moved, Finset.sum_range_succ, hmoved, max_eq_right hnonneg]

lemma transfer_failing (hreach : Reaches bufva count (n + 1)) (hfull : FullTo bufva count results n) (hneg : (results n).toInt < 0) :
    ∃ i : Int32, i.toInt = boundary bufva count n + (results n).toInt ∧ ∀ fuel,
      transfer call lookupPa fd bufva count results (n + (fuel + 1)) 0 0 =
        (transfer call lookupPa fd bufva count results fuel (n + 1) i).map
          fun x => (x.1, chunks call lookupPa fd bufva count (n + 1) ++ x.2) := by
  obtain ⟨hn, hsmall⟩ := hreach n (Nat.lt_succ_self n)
  have hext := extend_boundary hsmall
  have hres := extend_of_neg hneg
  have hmin := (results n).le_toInt
  have hlen : (chunkAt call lookupPa fd bufva count (Int32.ofNat (boundary bufva count n))).len.toNat = _ := chunkAt_len hn hsmall
  have hle : boundary bufva count (n + 1) ≤ boundary bufva count n + 4096 := boundary_succ_le
  have hnot : ¬ extend (results n) < (chunkAt call lookupPa fd bufva count (Int32.ofNat (boundary bufva count n))).len := by
    rw [UInt64.lt_iff_toNat_lt]
    omega
  refine ⟨Int32.ofNat (extend (Int32.ofNat (boundary bufva count n)) + extend (results n)).toNat, ?_, fun fuel => ?_⟩
  · rw [ofNat_extend_add, Int32.toInt_ofNat_of_lt hsmall, Int.bmod_def, Int32.size]
    split <;> omega
  · rw [transfer_full (hreach.mono (Nat.le_succ n)) hfull, transfer_next (UInt64.lt_iff_toNat_lt.mpr (by omega)) hnot, Option.map_map,
      chunks_succ]
    refine congrArg (fun f => Option.map f _) (funext fun x => ?_)
    rw [Function.comp_apply, List.append_assoc, List.singleton_append]

lemma toInt_count : (Int64.ofNat count.toNat).toInt = if count.toNat < 2 ^ 63 then (count.toNat : ℤ) else count.toNat - 2 ^ 64 := by
  have hlt := count.toNat_lt
  rw [Int64.toInt_ofNat', Int.bmod_def, Int64.size]
  split <;> split <;> omega

lemma reaches_one (hpos : 0 < count.toNat) : Reaches bufva count 1 := by
  intro k hk
  obtain rfl : k = 0 := by omega
  rw [boundary_zero]
  exact ⟨hpos, by omega⟩

lemma Reported.of_failing (hneg : (results 0).toInt < 0) (hcount : 2 ^ 63 ≤ count.toNat) (hle : count.toNat ≤ 2 ^ 64 + (results 0).toInt) :
    ∃ ret calls, transfer call lookupPa fd bufva count results 2 0 0 = some (ret, calls) ∧ Reported bufva count results ret calls := by
  have hreach : Reaches bufva count 1 := reaches_one (by omega)
  have hfull : FullTo bufva count results 0 := fun k hk => absurd hk (Nat.not_lt_zero k)
  obtain ⟨i, hi, hrun⟩ : ∃ i : Int32, _ ∧ ∀ fuel, transfer call lookupPa fd bufva count results _ 0 0 = _ :=
    transfer_failing hreach hfull hneg
  rw [boundary_zero, Nat.cast_zero, zero_add] at hi
  have hext : ((extend i).toNat : ℤ) = _ := extend_of_neg (by omega)
  have hend : ¬ extend i < count := by
    rw [UInt64.lt_iff_toNat_lt]
    omega
  have hrun' := hrun 1
  rw [transfer_end hend, Option.map_some, List.append_nil] at hrun'
  refine ⟨_, _, hrun', fun k c => chunks_inOrder hreach, ?_, fun k c hc hk => ?_, fun hall => ?_, fun _ _ => ?_, fun h => ?_⟩
  · rw [asked_chunks hreach]
    exact boundary_le_count
  · rw [length_chunks] at hk
    omega
  · have hfirst := hall 0 _ rfl
    omega
  · rw [toInt_count, if_neg (by omega)]
    have hlt := count.toNat_lt
    omega
  · cases h with
    | inl h => cases h
    | inr h => exact absurd h (not_le.mpr hneg)

lemma exists_last_full (bufva count : UInt64) (results : ℕ → Int32) : ∃ n, Reaches bufva count n ∧ FullTo bufva count results n ∧
    (boundary bufva count n = count.toNat ∨ boundary bufva count n < count.toNat ∧ 2 ^ 31 ≤ boundary bufva count n ∨
      Reaches bufva count (n + 1) ∧ (results n).toInt ≠ boundary bufva count (n + 1) - boundary bufva count n) := by
  by_contra hno
  push_neg at hno
  have hall : ∀ n, Reaches bufva count n ∧ FullTo bufva count results n := by
    intro n
    induction n with
    | zero => exact ⟨fun k hk => absurd hk (Nat.not_lt_zero k), fun k hk => absurd hk (Nat.not_lt_zero k)⟩
    | succ n ih =>
      obtain ⟨hne, hsmall, hlast⟩ := hno n ih.1 ih.2
      have hlt : boundary bufva count n < count.toNat := lt_of_le_of_ne boundary_le_count hne
      have hreach : Reaches bufva count (n + 1) := fun k hk => by
        cases Nat.lt_succ_iff_lt_or_eq.mp hk with
        | inl hk => exact ih.1 k hk
        | inr hk => exact hk ▸ ⟨hlt, hsmall hlt⟩
      refine ⟨hreach, fun k hk => ?_⟩
      cases Nat.lt_succ_iff_lt_or_eq.mp hk with
      | inl hk => exact ih.2 k hk
      | inr hk => exact hk ▸ hlast hreach
  have hend := ((hall (count.toNat + 2)).1 (count.toNat + 1) (by omega)).1
  rw [boundary] at hend
  omega

lemma run_after (hreach : Reaches bufva count n) (hfull : FullTo bufva count results n)
    (h : transfer call lookupPa fd bufva count results fuel 0 0 = some (ret, calls)) :
    ∃ more rest, transfer call lookupPa fd bufva count results (more + 1) n (Int32.ofNat (boundary bufva count n)) = some (ret, rest) ∧
      calls = chunks call lookupPa fd bufva count n ++ rest := by
  cases fuel with
  | zero => cases h
  | succ more =>
    have hrun : transfer call lookupPa fd bufva count results (n + (more + 1)) 0 0 = _ := transfer_mono h
    rw [transfer_full hreach hfull, Option.map_eq_some_iff] at hrun
    obtain ⟨y, hy, heq⟩ := hrun
    cases heq
    exact ⟨more, y.2, hy, rfl⟩

lemma exists_call {i : Int32} {rest : List ChunkCall} (hi : extend i < count)
    (h : transfer call lookupPa fd bufva count results fuel k i = some (ret, rest)) :
    ∃ tail, rest = chunkAt call lookupPa fd bufva count i :: tail := by
  cases fuel with
  | zero => cases h
  | succ fuel =>
    by_cases hr : extend (results k) < (chunkAt call lookupPa fd bufva count i).len
    · rw [transfer_short hi hr] at h
      cases h
      exact ⟨[], rfl⟩
    · rw [transfer_next hi hr, Option.map_eq_some_iff] at h
      obtain ⟨y, -, heq⟩ := h
      cases heq
      exact ⟨y.2, rfl⟩

lemma Reported.not_wrapped (hrep : Reported bufva count results ret calls) (hreach : Reaches bufva count n)
    (hfull : FullTo bufva count results n) (hn : boundary bufva count n < count.toNat)
    (h : transfer call lookupPa fd bufva count results fuel 0 0 = some (ret, calls)) : boundary bufva count n < 2 ^ 31 := by
  by_contra hbig
  have hext := extend_wrapped hreach (by omega)
  obtain ⟨more, rest, hrest, rfl⟩ := run_after hreach hfull h
  by_cases hlt : extend (Int32.ofNat (boundary bufva count n)) < count
  · obtain ⟨tail, rfl⟩ := exists_call hlt hrest
    have haddr := hrep.inOrder n (chunkAt call lookupPa fd bufva count (Int32.ofNat (boundary bufva count n)))
      (by rw [List.getElem?_append_right length_chunks.le, length_chunks, Nat.sub_self]; rfl)
    rw [List.take_append_of_le_length length_chunks.ge, take_chunks le_rfl, asked_chunks hreach, chunkAt, UInt64.add_right_inj] at haddr
    rw [haddr, UInt64.toNat_ofNat'] at hext
    omega
  · rw [transfer_end hlt] at hrest
    cases hrest
    rw [List.append_nil] at hrep
    have hall := hrep.goesOn fun k c hc => chunks_full hreach hfull hc
    rw [asked_chunks hreach] at hall
    omega

lemma moved_nonneg : 0 ≤ moved results n := Finset.sum_nonneg fun _ _ => le_max_left _ _

lemma Reported.short_small (hrep : Reported bufva count results ret calls) (hreach : Reaches bufva count (n + 1))
    (hfull : FullTo bufva count results n) (hnonneg : 0 ≤ (results n).toInt)
    (hr : (results n).toInt < boundary bufva count (n + 1) - boundary bufva count n)
    (h : transfer call lookupPa fd bufva count results fuel 0 0 = some (ret, calls)) :
    boundary bufva count n + (results n).toInt < 2 ^ 31 := by
  by_contra hbig
  obtain ⟨hn, hsmall⟩ := hreach n (Nat.lt_succ_self n)
  have hext := extend_boundary hsmall
  have hres := extend_of_nonneg hnonneg
  have hmax := (results n).toInt_lt
  have hlen : (chunkAt call lookupPa fd bufva count (Int32.ofNat (boundary bufva count n))).len.toNat = _ := chunkAt_len hn hsmall
  obtain ⟨more, rest, hrest, -⟩ := run_after (hreach.mono (Nat.le_succ n)) hfull h
  rw [transfer_short (UInt64.lt_iff_toNat_lt.mpr (by omega)) (UInt64.lt_iff_toNat_lt.mpr (by omega))] at hrest
  cases hrest
  have hfirst : 0 ≤ (results 0).toInt := by
    cases n with
    | zero => exact hnonneg
    | succ n => exact hfull.nonneg (Nat.succ_pos n)
  have hret := hrep.returned (Or.inr hfirst)
  have hmoved : 0 ≤ moved results calls.length := moved_nonneg
  have hneg : (Int32.ofNat (extend (Int32.ofNat (boundary bufva count n)) + extend (results n)).toNat).toInt =
      boundary bufva count n + (results n).toInt - 2 ^ 32 := by
    rw [ofNat_extend_add, Int32.toInt_ofNat_of_lt hsmall, Int.bmod_def, Int32.size]
    split <;> omega
  rw [hneg, Int64.toInt_ofInt_of_le (by omega) (by omega)] at hret
  omega

lemma Reported.failing (hrep : Reported bufva count results ret calls) (hreach : Reaches bufva count (n + 1))
    (hfull : FullTo bufva count results n) (hneg : (results n).toInt < 0)
    (h : transfer call lookupPa fd bufva count results fuel 0 0 = some (ret, calls)) :
    n = 0 ∧ 2 ^ 63 ≤ count.toNat ∧ count.toNat ≤ 2 ^ 64 + (results 0).toInt := by
  have hn := (hreach n (Nat.lt_succ_self n)).1
  obtain ⟨i, hi, hrun⟩ : ∃ i : Int32, _ ∧ ∀ fuel, transfer call lookupPa fd bufva count results _ 0 0 = _ :=
    transfer_failing hreach hfull hneg
  have hmore : transfer call lookupPa fd bufva count results (n + 1 + fuel) 0 0 = _ := transfer_mono h
  rw [Nat.add_assoc, Nat.add_comm 1, hrun, Option.map_eq_some_iff] at hmore
  obtain ⟨⟨_, rest⟩, hrest, heq⟩ := hmore
  cases heq
  by_cases hlt : extend i < count
  · -- the call behind the failing one
    obtain ⟨tail, rfl⟩ := exists_call hlt hrest
    have hstop := hrep.stops n (chunkAt call lookupPa fd bufva count (Int32.ofNat (boundary bufva count n)))
      (by rw [chunks_succ, List.append_assoc, List.getElem?_append_right length_chunks.le, length_chunks, Nat.sub_self]; rfl)
      (by rw [List.length_append, length_chunks, List.length_cons]; omega)
    omega
  · cases fuel with
    | zero => cases hrest
    | succ fuel =>
      rw [transfer_end hlt] at hrest
      cases hrest
      rw [List.append_nil] at hrep
      cases n with
      | zero =>
        rw [boundary_zero, Nat.cast_zero, zero_add] at hi
        have hext : ((extend i).toNat : ℤ) = _ := extend_of_neg (by omega)
        rw [UInt64.lt_iff_toNat_lt] at hlt
        have hret := hrep.failed (List.cons_ne_nil _ _) hneg
        rw [toInt_count] at hret
        split at hret <;> omega
      | succ n =>
        have hret := hrep.returned (Or.inr (hfull.nonneg (Nat.succ_pos n)))
        have hmoved := moved_full hfull
        rw [moved] at hmoved
        rw [length_chunks, moved, Finset.sum_range_succ, hmoved, toInt_count, max_eq_left hneg.le] at hret
        have hlt' := count.toNat_lt
        split at hret <;> omega

end Reports

section Statement

def Answers (bufva count : UInt64) (results : ℕ → Int32) : Prop :=
  ∀ n, Reaches bufva count (n + 1) → FullTo bufva count results n →
    (results n).toInt ≤ boundary bufva count (n + 1) - boundary bufva count n

def Fits (bufva count : UInt64) (results : ℕ → Int32) : Prop :=
  (∃ n, Reaches bufva count n ∧ FullTo bufva count results n ∧ boundary bufva count n = count.toNat) ∨
  (∃ n, Reaches bufva count (n + 1) ∧ FullTo bufva count results n ∧ 0 ≤ (results n).toInt ∧
    (results n).toInt < boundary bufva count (n + 1) - boundary bufva count n ∧ boundary bufva count n + (results n).toInt < 2 ^ 31) ∨
  ((results 0).toInt < 0 ∧ 2 ^ 63 ≤ count.toNat ∧ count.toNat ≤ 2 ^ 64 + (results 0).toInt)

variable {bufva count : UInt64} {results : ℕ → Int32}

lemma transfer_reported_iff (call : FileCall) (lookupPa : UInt64 → UInt64) (fd : Int32) (hans : Answers bufva count results) :
    (∃ fuel ret calls, transfer call lookupPa fd bufva count results fuel 0 0 = some (ret, calls) ∧
      Reported bufva count results ret calls) ↔ Fits bufva count results := by
  constructor
  · rintro ⟨fuel, ret, calls, hrun, hrep⟩
    obtain ⟨n, hreach, hfull, hend | ⟨hlt, hbig⟩ | ⟨hnext, hne⟩⟩ := exists_last_full bufva count results
    · exact Or.inl ⟨n, hreach, hfull, hend⟩
    · exact absurd (hrep.not_wrapped hreach hfull hlt hrun) (not_lt.mpr hbig)
    · have hr := lt_of_le_of_ne (hans n hnext hfull) hne
      by_cases hneg : (results n).toInt < 0
      · obtain ⟨rfl, hcount⟩ := hrep.failing hnext hfull hneg hrun
        exact Or.inr (Or.inr ⟨hneg, hcount⟩)
      · have hnonneg := not_lt.mp hneg
        exact Or.inr (Or.inl ⟨n, hnext, hfull, hnonneg, hr, hrep.short_small hnext hfull hnonneg hr hrun⟩)
  · rintro (⟨n, hreach, hfull, hend⟩ | ⟨n, hreach, hfull, hnonneg, hr, hint⟩ | ⟨hneg, hcount, hle⟩)
    · exact ⟨n + 1, Reported.of_end hreach hfull hend⟩
    · exact ⟨n + 1, Reported.of_short hreach hfull hnonneg hr hint⟩
    · exact ⟨2, Reported.of_failing hneg hcount hle⟩

end Statement

theorem transfers_are_reported_iff (lookupPa : UInt64 → UInt64) (fd : Int32) (bufva count : UInt64) (results : ℕ → Int32)
    (hans : Answers bufva count results) :
    ((∃ fuel ret calls, sysUserRead lookupPa fd bufva count results fuel = some (ret, calls) ∧
      Reported bufva count results ret calls) ↔ Fits bufva count results) ∧
    ((∃ fuel ret calls, sysUserWrite lookupPa fd bufva count results fuel = some (ret, calls) ∧
      Reported bufva count results ret calls) ↔ Fits bufva count results) :=
  ⟨transfer_reported_iff .doRead lookupPa fd hans, transfer_reported_iff .doWrite lookupPa fd hans⟩

lemma reaches_ten : Reaches 0 10 1 := reaches_one (by decide)

lemma answers_ten {r : Int32} (hr : r.toInt ≤ 10) : Answers 0 10 fun _ => r := by
  intro n hreach _
  cases n with
  | zero => exact hr
  | succ n => exact absurd (hreach 1 (by omega)).1 (by decide)

theorem short_read_is_reported : ∃ fuel ret calls, sysUserRead id 3 0 10 (fun _ => 4) fuel = some (ret, calls) ∧
    Reported 0 10 (fun _ => 4) ret calls := by
  refine (transfers_are_reported_iff id 3 0 10 (fun _ => 4) (answers_ten (by decide))).1.mpr (Or.inr (Or.inl ⟨0, reaches_ten, ?_⟩))
  exact ⟨fun k hk => absurd hk (Nat.not_lt_zero k), by decide, by decide, by decide⟩

theorem failed_read_is_reported_as_full : sysUserRead id 3 0 10 (fun _ => -1) 2 = some (10, [⟨.doRead, 3, 0, 0, 10⟩]) ∧
    Answers 0 10 (fun _ => -1) ∧
    ¬ ∃ fuel ret calls, sysUserRead id 3 0 10 (fun _ => -1) fuel = some (ret, calls) ∧ Reported 0 10 (fun _ => -1) ret calls := by
  refine ⟨by decide, answers_ten (by decide), ?_⟩
  rintro ⟨fuel, ret, calls, hrun, hrep⟩
  have hfail := hrep.failing reaches_ten (fun k hk => absurd hk (Nat.not_lt_zero k)) (by decide) hrun
  exact absurd hfail.2.1 (by decide)

end Pke.Files
