import Pke.Files.RfsEffects

namespace Pke.Files

open Lib Flow Function

inductive Reads {α : Type} (m : Flow Vfs α) (P : α → Prop) (D : ℕ → ℕ → UInt8) : Prop
  | done (a : α) (ha : P a) (h : ∀ s, s.disk = D → ∃ io, m s = .done a { s with iobuffer := io })
  | left (h : ∀ s, s.disk = D → ∃ io, m s = .left { s with iobuffer := io })
  | undefined (h : ∀ s, s.disk = D → m s = .undefined)

namespace Reads

variable {α β : Type} {m : Flow Vfs α} {f : α → Flow Vfs β} {P : α → Prop} {Q : β → Prop} {D : ℕ → ℕ → UInt8}

lemma pure {a : α} (ha : P a) : Reads (Pure.pure a : Flow Vfs α) P D := .done a ha fun s _ => ⟨s.iobuffer, rfl⟩
lemma leave : Reads (Flow.leave : Flow Vfs α) P D := .left fun s _ => ⟨s.iobuffer, rfl⟩
lemma stuck : Reads ( undef : Flow Vfs α) P D := .undefined fun _ _ => rfl

lemma bind (hm : Reads m P D) (hf : ∀ a, P a → Reads (f a) Q D) : Reads (m >>= f) Q D := by
  cases hm with
  | done a ha h =>
    cases hf a ha with
    | done b hb h' =>
      refine .done b hb fun s hs => ?_
      obtain ⟨io, hio⟩ := h s hs
      obtain ⟨io', hio'⟩ := h' { s with iobuffer := io } hs
      exact ⟨io', (bind_done hio).trans hio'⟩
    | left h' =>
      refine .left fun s hs => ?_
      obtain ⟨io, hio⟩ := h s hs
      obtain ⟨io', hio'⟩ := h' { s with iobuffer := io } hs
      exact ⟨io', (bind_done hio).trans hio'⟩
    | undefined h' =>
      refine .undefined fun s hs => ?_
      obtain ⟨io, hio⟩ := h s hs
      exact (bind_done hio).trans (h' { s with iobuffer := io } hs)
  | left h =>
    refine .left fun s hs => ?_
    obtain ⟨io, hio⟩ := h s hs
    exact ⟨io, bind_left hio⟩
  | undefined h => exact .undefined fun s hs => bind_undefined (h s hs)

end Reads

variable {i : Vinode} {D : ℕ → ℕ → UInt8}

lemma slice_overlay {b r : ℕ → UInt8} {o n : ℕ} (h : o + n ≤ 4096) : slice (overlay b r) o n = slice b o n := by
  rw [slice, slice]
  refine List.map_congr_left fun x hx => ?_
  rw [List.mem_range] at hx
  exact overlay_apply (by omega)

lemma addrAt_reads {k : ℤ} : Reads (addrAt i.addrs k) (fun _ => True) D := by
  rw [addrAt]
  split_ifs
  · exact .pure trivial
  · exact .stuck

lemma readBlock_reads {k : ℤ} {o n : ℕ} (h : o + n ≤ 4096) : Reads (readBlock i k o n) (fun _ => True) D := by
  rw [readBlock]
  refine addrAt_reads.bind fun b _ => ?_
  by_cases hb : b < 0 ∨ ramdiskBlockCount ≤ b
  · refine .left fun s _ => ⟨s.iobuffer, ?_⟩
    have hleft : rfsR1block b s = .left s := by
      rw [rfsR1block, if_pos hb]
      rfl
    exact bind_left hleft
  · have hb' : 0 ≤ b ∧ b < 128 := by
      simp only [ramdiskBlockCount] at hb
      omega
    obtain ⟨c, rfl⟩ := Int.eq_ofNat_of_zero_le hb'.1
    refine .done (slice (D c) o n) trivial fun s hs => ⟨overlay (D c) s.iobuffer, ?_⟩
    rw [bind_done (rfsR1block_eq (by omega)), get_bind]
    dsimp only
    rw [hs, slice_overlay h]
    rfl

lemma readBlocks_reads (n : ℕ) (k : ℤ) : Reads (readBlocks i n k) (fun _ => True) D := by
  induction n generalizing k with
  | zero => exact .pure trivial
  | succ n ih =>
    refine (readBlock_reads (Nat.le_of_eq (Nat.zero_add _))).bind fun _ _ => ?_
    exact (ih (k + 1)).bind fun _ _ => .pure trivial

lemma readRest_reads {t k : ℤ} {r : ℕ} (hr : r ≤ 4096) : Reads (readRest i t r k) (fun _ => True) D := by
  rw [readRest]
  by_cases ht : t < 0
  · rw [if_pos ht]
    exact .pure trivial
  · rw [if_neg ht]
    refine (readBlocks_reads _ _).bind fun _ _ => ?_
    split_ifs
    · exact (readBlock_reads (by omega)).bind fun _ _ => .pure trivial
    · exact .pure trivial

lemma rfsRead_reads (len offset : ℤ) : Reads (rfsRead i len offset)
    (fun r => 0 ≤ r.2 ∧ r.2 = if i.size < offset + len then i.size - offset else len) D := by
  rw [rfsRead]
  by_cases hsize : i.size < offset
  · rw [if_pos hsize]
    exact .leave
  · rw [if_neg hsize]
    generalize (if i.size < offset + len then i.size - offset else len) = n
    dsimp only
    by_cases hneg : offset.tmod rfsBlksize < 0 ∨ n < 0
    · rw [if_pos hneg]
      exact .stuck
    · rw [if_neg hneg]
      generalize halign : offset.tmod rfsBlksize = align at hneg
      have hlt : align < 4096 := halign ▸ Int.tmod_lt_of_pos offset (by decide)
      have hsum : 0 ≤ align + n := by omega
      rw [Int.tdiv_eq_ediv_of_nonneg hsum, Int.tmod_eq_emod_of_nonneg hsum]
      refine (readBlock_reads ?_).bind fun _ _ => ?_
      · split_ifs with hzero
        · simp only [rfsBlksize] at hzero
          omega
        · simp only [rfsBlksize]
          omega
      · refine (readRest_reads ?_).bind fun _ _ => .pure ⟨by omega, rfl⟩
        simp only [rfsBlksize]
        omega

end Pke.Files
