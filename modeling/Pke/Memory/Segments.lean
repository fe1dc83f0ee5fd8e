import Pke.Memory.Exhaustion
import Pke.Memory.Mapping
import Pke.Lib.Bytes
import Pke.Lib.Yields

namespace Pke.Memory

open Lib Flow Function Processes

inductive ElfStatus where
  | ok | eio | enomem | notelf | err
  deriving DecidableEq

structure ElfProgHeader where
  type : ℕ
  flags : ℕ
  off : ℕ
  vaddr : ℕ
  filesz : ℕ
  memsz : ℕ
  deriving DecidableEq

def elfFpread (file : List UInt8) (nb offset : ℕ) : List UInt8 := (file.drop offset).take nb

def uintAt (l : List UInt8) (i width : ℕ) : ℕ := Nat.ofDigits 256 (((l.drop i).take width).map UInt8.toNat)

def sizeofElfProgHeader : ℕ := 56

def elfProgHeader (l : List UInt8) : ElfProgHeader where
  type := uintAt l 0 4
  flags := uintAt l 4 4
  off := uintAt l 8 8
  vaddr := uintAt l 16 8
  filesz := uintAt l 32 8
  memsz := uintAt l 40 8

namespace ElfProgHeader

def segType (ph : ElfProgHeader) : Option Segment :=
  if ph.flags = 4 ||| 1 then some .code
  else if ph.flags = 4 ||| 2 then some .data
  else none

def Covers (ph : ElfProgHeader) (v : ℕ) : Prop := ph.vaddr / 4096 ≤ v ∧ v ≤ u64 (ph.vaddr + 4095) / 4096

end ElfProgHeader

def recordSegment (c : Pid) (ph : ElfProgHeader) : Flow Vm Unit := do
  let regions := ((← get).space c).regions
  match (List.range maxRegions).find? (fun j => (regions j).va = 0) with
  | none => undef
  | some j => do
    setRegion c j { regions j with va := ph.vaddr, npages := 1 }
    match ph.segType with
    | none => leave
    | some seg => do
      setRegion c j ⟨ph.vaddr, 1, seg⟩
      modify fun s => s.setSpace c fun a => { a with totalMappedRegion := a.totalMappedRegion + 1 }

def elfLoadHeader (c : Pid) (file : List UInt8) (ph : ElfProgHeader) : Flow Vm (ElfStatus × ℕ) :=
  if ph.memsz < ph.filesz then pure (.err, 0)
  else if u64 (ph.vaddr + ph.memsz) < ph.vaddr then pure (.err, 0)
  else do
    let dest ← elfAllocMb c ph.vaddr ph.memsz
    let bytes := elfFpread file ph.memsz ph.off
    modify fun s => { s with mem := putBytes s.mem dest bytes }
    if bytes.length ≠ ph.memsz then pure (.eio, dest)
    else do
      recordSegment c ph
      pure (.ok, dest)

def headerAt (file : List UInt8) (off : ℤ) : List UInt8 := elfFpread file sizeofElfProgHeader (off % 2 ^ 64).toNat

def elfLoadFrom (c : Pid) (file : List UInt8) : ℕ → ℤ → Flow Vm (ElfStatus × List ℕ)
  | 0, _ => pure (.ok, [])
  | n + 1, off =>
    if (headerAt file off).length ≠ sizeofElfProgHeader then pure (.eio, [])
    else if (elfProgHeader (headerAt file off)).type ≠ 1 then elfLoadFrom c file n (toInt (off + 56))
    else do
      let r ← elfLoadHeader c file (elfProgHeader (headerAt file off))
      if r.1 = .ok then do
        let rest ← elfLoadFrom c file n (toInt (off + 56))
        pure (rest.1, r.2 :: rest.2)
      else pure (r.1, [])

def elfLoad (c : Pid) (file : List UInt8) (phoff phnum : ℕ) : Flow Vm (ElfStatus × List ℕ) := elfLoadFrom c file phnum (toInt phoff)

def loadHeaders (file : List UInt8) : ℕ → ℤ → List ElfProgHeader
  | 0, _ => []
  | n + 1, off =>
    if (elfProgHeader (headerAt file off)).type = 1 then elfProgHeader (headerAt file off) :: loadHeaders file n (toInt (off + 56))
    else loadHeaders file n (toInt (off + 56))

def Vm.byteAt (s : Vm) (p : Pid) (a : ℕ) : Option UInt8 :=
  if a < maxva ∧ (s.entry p (a / 4096)).v = true then some (s.mem ((s.entry p (a / 4096)).pa + a % 4096)) else none

structure HoldsSegment (file : List UInt8) (t : Vm) (p : Pid) (ph : ElfProgHeader) : Prop where
  data : ∀ i < ph.filesz, ∃ b, file[ph.off + i]? = some b ∧ t.byteAt p (ph.vaddr + i) = some b
  bss : ∀ i, ph.filesz ≤ i → i < ph.memsz → t.byteAt p (ph.vaddr + i) = some 0

def OwnFrames (p : Pid) (s t : Vm) (segments : List (ElfProgHeader × ℕ)) : Prop :=
  ∀ v, (s.entry p v).v = false → (t.entry p v).v = true → ∃ x ∈ segments, x.1.Covers v ∧ (t.entry p v).pa = x.2

def ElfProgHeader.Plain (file : List UInt8) (ph : ElfProgHeader) : Prop :=
  (ph.vaddr % 4096 = 0 ∨ 2 ^ 64 < ph.vaddr + 4096 ∧ ph.memsz = 0) ∧
    ∀ i, ph.filesz ≤ i → i < ph.memsz → file[ph.off + i]? = some 0

variable {s t u : Vm} {p : Pid} {va pa v : ℕ} {perm : Pte} {file : List UInt8} {ph : ElfProgHeader} {l : List (ElfProgHeader × ℕ)}

section Mapping

lemma mapPage_entered (hal : va % 4096 = 0) :
    yields (mapPage p va pa perm) (fun b t => b = true → va < maxva ∧ Entered p (va / 4096) (Pte.leaf pa perm) s t) s := by
  by_cases hva : va < maxva
  · have hmap : wp (mapPages p va 4096 pa perm) _ _ s := mapPages_entered hal hva
    rw [mapPages_single hal (hva.trans (by norm_num)), wp_bind] at hmap
    intro b t ht hb
    subst hb
    have h := wp_done hmap ht
    rw [if_pos rfl, wp_pure] at h
    exact ⟨hva, (h.resolve_right fun h => absurd h.1 (by decide)).2⟩
  · have hwalk : pageWalk p va true s = .left s := by
      rw [pageWalk, if_pos (not_lt.mp hva)]
      rfl
    have hleft : mapPage p va pa perm s = .left s := by
      rw [mapPage]
      exact bind_left hwalk
    exact yields_left hleft

structure Spread (p : Pid) (a b pa : ℕ) (perm : Pte) (s t : Vm) : Prop where
  mem : t.mem = s.mem
  free : t.frees <:+ s.frees
  fields : t.space p = { s.space p with pagetable := (t.space p).pagetable }
  entry : ∀ v, ¬ (a ≤ v ∧ v < b) → t.entry p v = s.entry p v
  mapped : ∀ v, a ≤ v → v < b → t.entry p v = Pte.leaf (pa + (v - a) * 4096) perm ∧ (s.entry p v).v = false ∧ v * 4096 < maxva

lemma Spread.refl (s : Vm) (a : ℕ) : Spread p a a pa perm s s :=
  ⟨rfl, List.suffix_refl _, rfl, fun _ _ => rfl, fun _ h h' => absurd h (not_le.mpr h')⟩

lemma Spread.enter {a b : ℕ} (h : Spread p a b pa perm s t) (hab : a ≤ b) (hb : b * 4096 < maxva)
    (hu : Entered p b (Pte.leaf (pa + (b - a) * 4096) perm) t u) : Spread p a (b + 1) pa perm s u := by
  have hbefore : t.entry p b = s.entry p b := h.entry b fun hin => absurd hin.2 (lt_irrefl b)
  refine ⟨hu.mem.trans h.mem, hu.free.trans h.free, by rw [hu.fields, h.fields], fun v hv => ?_, fun v hav hvb => ?_⟩
  · rw [hu.entry, update_of_ne (by omega)]
    exact h.entry v (by omega)
  · rw [hu.entry]
    rcases Nat.lt_succ_iff_lt_or_eq.mp hvb with hlt | rfl
    · rw [update_of_ne hlt.ne]
      exact h.mapped v hav hlt
    · rw [update_self, ← hbefore]
      exact ⟨rfl, hu.was, hb⟩

lemma userVmMap_spread (p : Pid) (va pa : ℕ) (perm : Pte) (s : Vm) :
    yields (userVmMap p va 4096 pa perm) (fun _ t => ∃ b, Spread p (va / 4096) b pa perm s t ∧
      ∀ v, va / 4096 ≤ v → (v < b ↔ v ≤ u64 (va + 4095) / 4096)) s := by
  have hsize : va + 4096 + (2 ^ 64 - 1) = va + 4095 + 2 ^ 64 := by omega
  have hlast : u64 (va + 4096 + (2 ^ 64 - 1)) = u64 (va + 4095) := by
    rw [hsize, u64, u64, Nat.add_mod_right]
  rw [userVmMap, mapPages_eq, pagesBelow, hlast]
  apply yields_bind
  refine yields_all_range (fun k => Spread p (va / 4096) (va / 4096 + k) pa perm s) (Spread.refl s _) ?_ ?_
  · intro k _ t ht
    have hal : (roundDown va + k * 4096) % 4096 = 0 := by
      unfold roundDown
      omega
    have hdiv : (roundDown va + k * 4096) / 4096 = va / 4096 + k := by
      unfold roundDown
      omega
    refine yields_mono (mapPage_entered hal) ?_
    intro b u hu
    cases b with
    | false => exact yields_leave
    | true =>
      obtain ⟨hmax, hu⟩ := hu rfl
      have hmul : (va / 4096 + k) * 4096 < maxva := by
        rw [← hdiv, Nat.div_mul_cancel (Nat.dvd_of_mod_eq_zero hal)]
        exact hmax
      rw [hdiv, Nat.add_sub_cancel_left] at hu
      refine ht.enter (by omega) hmul ?_
      rwa [Nat.add_sub_cancel_left]
  · intro t ht
    refine yields_pure ⟨_, ht, fun v hv => ?_⟩
    generalize u64 (va + 4095) = last
    unfold roundDown
    omega

end Mapping

section Rounds

structure Laid (file : List UInt8) (p : Pid) (s t : Vm) (l : List (ElfProgHeader × ℕ)) : Prop where
  free : t.frees <:+ s.frees
  bytes : ∀ f, f % 4096 = 0 → f ∉ s.frees → SameBytes t f s f
  entry : ∀ v, (∀ x ∈ l, ¬ x.1.Covers v) → t.entry p v = s.entry p v
  mapped : ∀ x ∈ l, ∀ v, x.1.Covers v →
    t.entry p v = Pte.leaf (x.2 + (v - x.1.vaddr / 4096) * 4096) userRwx ∧ (s.entry p v).v = false ∧ v * 4096 < maxva
  apart : l.Pairwise fun x y => ∀ v, x.1.Covers v → ¬ y.1.Covers v
  frame : ∀ x ∈ l, x.2 % 4096 = 0 ∧ x.2 ∈ s.frees ∧ x.2 ∉ t.frees
  content : ∀ x ∈ l, ∀ i < x.1.memsz, file[x.1.off + i]? = some (t.mem (x.2 + i))
  sizes : ∀ x ∈ l, x.1.filesz ≤ x.1.memsz ∧ x.1.memsz < 4096 ∧ x.1.vaddr + x.1.memsz < 2 ^ 64

lemma Laid.nil (s : Vm) : Laid file p s s [] where
  free := List.suffix_refl _
  bytes _ _ _ := SameBytes.of_mem rfl
  entry _ _ := rfl
  mapped _ h := absurd h List.not_mem_nil
  apart := List.Pairwise.nil
  frame _ h := absurd h List.not_mem_nil
  content _ h := absurd h List.not_mem_nil
  sizes _ h := absurd h List.not_mem_nil

lemma Laid.cons {x : ElfProgHeader × ℕ} (h : Laid file p s u [x]) (h' : Laid file p u t l) : Laid file p s t (x :: l) := by
  have hx := List.mem_singleton_self x
  -- a page of the first segment is valid by the time the others are mapped
  have hapart : ∀ y ∈ l, ∀ v, x.1.Covers v → ¬ y.1.Covers v := by
    intro y hy v hxv hyv
    have hvalid := (h'.mapped y hy v hyv).2.1
    rw [(h.mapped x hx v hxv).1] at hvalid
    cases hvalid
  refine ⟨h'.free.trans h.free, ?_, ?_, ?_, List.pairwise_cons.mpr ⟨hapart, h'.apart⟩, ?_, ?_, ?_⟩
  · intro f hf hout
    exact (h'.bytes f hf fun hin => hout (h.free.subset hin)).trans (h.bytes f hf hout)
  · intro v hv
    rw [h'.entry v fun y hy => hv y (List.mem_cons_of_mem _ hy)]
    apply h.entry v
    intro y hy
    rw [List.mem_singleton.mp hy]
    exact hv x List.mem_cons_self
  · intro y hy v hyv
    rcases List.mem_cons.mp hy with rfl | hy
    · rw [h'.entry v fun z hz => hapart z hz v hyv]
      exact h.mapped y hx v hyv
    · obtain ⟨hentry, hwas, hmax⟩ := h'.mapped y hy v hyv
      rw [h.entry v fun z hz hzv => hapart y hy v (List.mem_singleton.mp hz ▸ hzv) hyv] at hwas
      exact ⟨hentry, hwas, hmax⟩
  · intro y hy
    rcases List.mem_cons.mp hy with rfl | hy
    · obtain ⟨hal, hin, hout⟩ := h.frame y hx
      exact ⟨hal, hin, fun hin => hout (h'.free.subset hin)⟩
    · obtain ⟨hal, hin, hout⟩ := h'.frame y hy
      exact ⟨hal, h.free.subset hin, hout⟩
  · intro y hy i hi
    rcases List.mem_cons.mp hy with rfl | hy
    · obtain ⟨hal, -, hout⟩ := h.frame y hx
      rw [h'.bytes y.2 hal hout i (hi.trans (h.sizes y hx).2.1)]
      exact h.content y hx i hi
    · exact h'.content y hy i hi
  · intro y hy
    rcases List.mem_cons.mp hy with rfl | hy
    · exact h.sizes y hx
    · exact h'.sizes y hy

lemma elfAllocMb_spread (p : Pid) (va size : ℕ) (s : Vm) :
    yields (elfAllocMb p va size) (fun dest t => size < 4096 ∧ ∃ u b, s.frees = dest :: u.frees ∧ u.space = s.space ∧
      (∀ a, ¬ (dest ≤ a ∧ a < dest + 4096) → u.mem a = s.mem a) ∧ Spread p (va / 4096) b dest userRwx u t ∧
        ∀ v, va / 4096 ≤ v → (v < b ↔ v ≤ u64 (va + 4095) / 4096)) s := by
  rw [elfAllocMb]
  split_ifs with hsize
  · exact yields_halt
  apply yields_bind
  refine yields_mono (yields_of_wp (E := fun _ => True) allocPage_frees) ?_
  rintro r u ⟨hmem, hspace, ⟨rfl, -⟩ | ⟨f, rfl, hfree⟩⟩
  · exact yields_leave
  dsimp only
  apply yields_bind
  rw [memsetPage]
  split_ifs with hf
  · exact yields_halt
  refine yields_modify (yields_bind ?_)
  refine yields_mono (userVmMap_spread p va f userRwx _) ?_
  rintro _ t ⟨b, ht, hb⟩
  refine yields_pure ⟨not_le.mp hsize, _, b, ?_, ?_, fun a ha => ?_, ht, hb⟩
  · exact hfree
  · exact hspace
  · dsimp only
    rw [if_neg ha, hmem]

lemma recordSegment_done (h : recordSegment p ph s = .done () t) :
    ∃ j seg, (List.range maxRegions).find? (fun j => decide (((s.space p).regions j).va = 0)) = some j ∧ ph.segType = some seg ∧
      (do
        setRegion p j ⟨ph.vaddr, 1, seg⟩
        modify fun s => s.setSpace p fun a => { a with totalMappedRegion := a.totalMappedRegion + 1 }) s = .done () t := by
  rw [recordSegment, get_bind] at h
  cases hj : (List.range maxRegions).find? (fun j => decide (((s.space p).regions j).va = 0)) with
  | none =>
    simp only [hj] at h
    cases h
  | some j =>
    simp only [hj] at h
    rw [setRegion, modify_bind] at h
    cases hseg : ph.segType with
    | none =>
      rw [hseg] at h
      cases h
    | some seg =>
      rw [hseg] at h
      refine ⟨j, seg, rfl, rfl, ?_⟩
      -- the entry of `mapped_info` is written twice
      have htwice : ∀ (r r' : Region), (s.setSpace p fun a => { a with regions := update a.regions j r }).setSpace p
          (fun a => { a with regions := update a.regions j r' }) =
            s.setSpace p fun a => { a with regions := update a.regions j r' } := by
        intro r r'
        simp [Vm.setSpace]
      rw [← h]
      dsimp only
      rw [setRegion, modify_bind, modify_bind, htwice]

lemma recordSegment_same (p : Pid) (ph : ElfProgHeader) (s : Vm) :
    yields (recordSegment p ph) (fun _ t => ∃ regions n,
      t = s.setSpace p fun a => { a with regions := regions, totalMappedRegion := n }) s := by
  intro _ t h
  obtain ⟨j, seg, -, -, h⟩ := recordSegment_done h
  cases h
  refine ⟨update (s.space p).regions j ⟨ph.vaddr, 1, seg⟩, (s.space p).totalMappedRegion + 1, ?_⟩
  simp only [Vm.setSpace, update_self, update_idem]

lemma elfFpread_getElem {nb offset i : ℕ} (hlen : (elfFpread file nb offset).length = nb) (hi : i < nb) :
    file[offset + i]? = some ((elfFpread file nb offset).getD i 0) := by
  have hlt : i < (elfFpread file nb offset).length := by omega
  have hget : (elfFpread file nb offset)[i]? = file[offset + i]? := by
    rw [elfFpread, List.getElem?_take_of_lt hi, List.getElem?_drop]
  rw [← hget, List.getD_eq_getElem?_getD, List.getElem?_eq_getElem hlt, Option.getD_some]

lemma elfLoadHeader_laid (hal : ∀ f ∈ s.frees, f % 4096 = 0) (hnd : s.frees.Nodup) (hin : ph.vaddr < 2 ^ 64) :
    yields (elfLoadHeader p file ph) (fun r t => r.1 = .ok → Laid file p s t [(ph, r.2)]) s := by
  rw [elfLoadHeader]
  split_ifs with hfilesz hwrap
  · exact yields_pure fun h => by cases h
  · exact yields_pure fun h => by cases h
  apply yields_bind
  refine yields_mono (elfAllocMb_spread p ph.vaddr ph.memsz s) ?_
  rintro dest t ⟨hsize, u, b, hfree, hspace, hmem, ht, hb⟩
  apply yields_modify_bind
  split_ifs with hlen
  · exact yields_pure fun h => by cases h
  apply yields_bind
  refine yields_mono (recordSegment_same p ph _) ?_
  rintro _ w ⟨regions, n, hw⟩
  refine yields_pure fun _ => ?_
  have hwmem : w.mem = putBytes t.mem dest (elfFpread file ph.memsz ph.off) := by rw [hw, Vm.setSpace_mem]
  have hwfree : w.frees = t.frees := by rw [Vm.frees, hw, Vm.setSpace_pmm]
  have hdest : dest ∈ s.frees := by
    rw [hfree]
    exact List.mem_cons_self
  have hsuffix : w.frees <:+ u.frees := by
    rw [hwfree]
    exact ht.free
  have hentry : w.entry p = t.entry p := by
    funext v
    rw [Vm.entry, Vm.entry, hw, Vm.setSpace_self]
  have huentry : u.entry p = s.entry p := by
    funext v
    rw [Vm.entry, Vm.entry, hspace]
  have hcovers : ∀ v, ph.Covers v ↔ ph.vaddr / 4096 ≤ v ∧ v < b := fun v =>
    and_congr_right fun hv => (hb v hv).symm
  have hbytes : ∀ a, w.mem a = putBytes t.mem dest (elfFpread file ph.memsz ph.off) a := fun a => by rw [hwmem]
  rw [Decidable.not_not] at hlen
  refine ⟨?_, ?_, ?_, ?_, List.pairwise_singleton _ _, ?_, ?_, ?_⟩
  · exact hsuffix.trans (hfree ▸ List.suffix_cons _ _)
  · intro f hf hout i hi
    have hne : f ≠ dest := fun h => hout (h ▸ hdest)
    have hdal := hal dest hdest
    rw [hbytes, putBytes, if_neg (by omega), ht.mem, hmem _ (by omega)]
  · intro v hv
    rw [hentry, ht.entry v fun h => hv _ (List.mem_singleton_self _) ((hcovers v).mpr h), huentry]
  · intro x hx v hv
    rw [List.mem_singleton.mp hx] at hv ⊢
    rw [hentry, ← huentry]
    exact ht.mapped v ((hcovers v).mp hv).1 ((hcovers v).mp hv).2
  · intro x hx
    rw [List.mem_singleton.mp hx]
    refine ⟨hal dest hdest, hdest, fun h => ?_⟩
    rw [hfree] at hnd
    exact (List.nodup_cons.mp hnd).1 (hsuffix.subset h)
  · intro x hx i hi
    rw [List.mem_singleton.mp hx] at hi ⊢
    rw [hbytes, putBytes, if_pos (by dsimp only at hi ⊢; omega), Nat.add_sub_cancel_left]
    exact elfFpread_getElem hlen hi
  · intro x hx
    rw [List.mem_singleton.mp hx]
    unfold u64 at hwrap
    dsimp only
    omega

lemma uintAt_lt (l : List UInt8) (i width : ℕ) : uintAt l i width < 256 ^ width := by
  have hlen : (((l.drop i).take width).map UInt8.toNat).length ≤ width := by
    rw [List.length_map]
    exact List.length_take_le _ _
  refine lt_of_lt_of_le (Nat.ofDigits_lt_base_pow_length (by norm_num) ?_) (Nat.pow_le_pow_right (by norm_num) hlen)
  intro d hd
  obtain ⟨b, -, rfl⟩ := List.mem_map.mp hd
  exact UInt8.toNat_lt b

inductive Loads (file : List UInt8) (p : Pid) : Vm → List (ElfProgHeader × ℕ) → Vm → Prop
  | nil (s : Vm) : Loads file p s [] s
  | cons {ph : ElfProgHeader} {f : ℕ} {s u t : Vm} {l : List (ElfProgHeader × ℕ)} (hvaddr : ph.vaddr < 2 ^ 64)
      (hround : elfLoadHeader p file ph s = .done (.ok, f) u) (hrest : Loads file p u l t) : Loads file p s ((ph, f) :: l) t

lemma elfLoadFrom_loads (n : ℕ) (off : ℤ) :
    yields (elfLoadFrom p file n off) (fun r t => r.1 = .ok → (loadHeaders file n off).length = r.2.length ∧
      Loads file p s ((loadHeaders file n off).zip r.2) t) s := by
  induction n generalizing off s with
  | zero => exact yields_pure fun _ => ⟨rfl, Loads.nil s⟩
  | succ n ih =>
    rw [elfLoadFrom, loadHeaders]
    by_cases hread : (headerAt file off).length ≠ sizeofElfProgHeader
    · rw [if_pos hread]
      exact yields_pure fun h => by cases h
    by_cases htype : (elfProgHeader (headerAt file off)).type ≠ 1
    · rw [if_neg hread, if_pos htype, if_neg htype]
      exact ih _
    rw [if_neg hread, if_neg htype, if_pos (Decidable.not_not.mp htype)]
    apply yields_bind
    rintro ⟨status, f⟩ u hround
    split_ifs with hok
    · cases hok
      apply yields_bind
      refine yields_mono (ih _) ?_
      intro rest t ht
      refine yields_pure fun hrest => ?_
      obtain ⟨hlen, ht⟩ := ht hrest
      exact ⟨congrArg (· + 1) hlen, Loads.cons (uintAt_lt _ 16 8) hround ht⟩
    · exact yields_pure fun h => absurd h hok

lemma elfLoad_loads {phoff phnum : ℕ} {frames : List ℕ} (h : elfLoad p file phoff phnum s = .done (.ok, frames) t) :
    ∃ l, l.map Prod.fst = loadHeaders file phnum (toInt phoff) ∧ l.map Prod.snd = frames ∧ Loads file p s l t := by
  obtain ⟨hlen, hloads⟩ := elfLoadFrom_loads phnum (toInt phoff) _ _ h rfl
  exact ⟨_, List.map_fst_zip hlen.le, List.map_snd_zip hlen.ge, hloads⟩

lemma Loads.laid (h : Loads file p s l t) (hal : ∀ f ∈ s.frees, f % 4096 = 0) (hnd : s.frees.Nodup) : Laid file p s t l := by
  induction h with
  | nil s => exact Laid.nil s
  | cons hvaddr hround _ ih =>
    have hu := elfLoadHeader_laid hal hnd hvaddr _ _ hround rfl
    exact hu.cons (ih (fun f hf => hal f (hu.free.subset hf)) (hnd.sublist hu.free.sublist))

end Rounds

section Images

def ElfProgHeader.image (file : List UInt8) (ph : ElfProgHeader) : ProgHeader where
  vaddr := ph.vaddr
  memsz := ph.memsz
  filesz := ph.filesz
  readable := decide (ph.flags = 5 ∨ ph.flags = 6)
  writable := decide (ph.flags = 6)
  executable := decide (ph.flags = 5)
  bytes i := (file[ph.off + i]?).getD 0

end Images

section Reading

variable {x : ElfProgHeader × ℕ}

lemma Laid.byteAt {i : ℕ} (h : Laid file p s t l) (hx : x ∈ l) (hal : x.1.vaddr % 4096 = 0) (hi : i < x.1.memsz) :
    t.byteAt p (x.1.vaddr + i) = file[x.1.off + i]? := by
  obtain ⟨-, hsize, hwrap⟩ := h.sizes x hx
  have hcovers : x.1.Covers (x.1.vaddr / 4096) := by
    refine ⟨le_rfl, ?_⟩
    unfold u64
    omega
  obtain ⟨hentry, -, hmax⟩ := h.mapped x hx _ hcovers
  have hpage : (x.1.vaddr + i) / 4096 = x.1.vaddr / 4096 := by omega
  have hoffset : (x.1.vaddr + i) % 4096 = i := by omega
  have hlow : x.1.vaddr + i < maxva := by
    unfold maxva at hmax ⊢
    omega
  have hpa : (Pte.leaf (x.2 + (x.1.vaddr / 4096 - x.1.vaddr / 4096) * 4096) userRwx).pa = x.2 := by
    have hframe := (h.frame x hx).1
    rw [Nat.sub_self, Nat.zero_mul, Nat.add_zero]
    exact Nat.div_mul_cancel (Nat.dvd_of_mod_eq_zero hframe)
  rw [Vm.byteAt, hpage, hoffset, hentry, if_pos ⟨hlow, rfl⟩, hpa, h.content x hx i hi]

lemma Laid.holds (h : Laid file p s t l) (hx : x ∈ l) (hplain : x.1.Plain file) : HoldsSegment file t p x.1 := by
  obtain ⟨halign, hzero⟩ := hplain
  have hle := (h.sizes x hx).1
  rcases halign with hal | ⟨-, hempty⟩
  · refine ⟨fun i hi => ?_, fun i hi hi' => ?_⟩
    · exact ⟨_, h.content x hx i (by omega), by rw [h.byteAt hx hal (by omega), h.content x hx i (by omega)]⟩
    · rw [h.byteAt hx hal hi', hzero i hi hi']
  · exact ⟨fun i hi => by omega, fun i _ hi => by omega⟩

lemma Laid.backed (h : Laid file p s t l) (hplain : ∀ x ∈ l, x.1.Plain file) : OwnFrames p s t l := by
  intro v hs ht
  have hcovered : ∃ x ∈ l, x.1.Covers v := by
    by_contra hno
    rw [h.entry v fun x hx hv => hno ⟨x, hx, hv⟩, hs] at ht
    cases ht
  obtain ⟨x, hx, hv⟩ := hcovered
  refine ⟨x, hx, hv, ?_⟩
  have hfirst : v = x.1.vaddr / 4096 := by
    obtain ⟨hge, hle⟩ := hv
    have hwrap := (h.sizes x hx).2.2
    unfold u64 at hle
    rcases (hplain x hx).1 with hal | ⟨hbig, -⟩
    · omega
    · omega
  have hframe := (h.frame x hx).1
  rw [(h.mapped x hx v hv).1, ← hfirst, Nat.sub_self, Nat.zero_mul, Nat.add_zero]
  exact Nat.div_mul_cancel (Nat.dvd_of_mod_eq_zero hframe)

lemma Laid.aligned (h : Laid file p s t l) (hx : x ∈ l) (hbacked : OwnFrames p s t l) (hfits : x.1.vaddr + 4096 ≤ 2 ^ 64) :
    x.1.vaddr % 4096 = 0 := by
  by_contra hal
  have hnext : x.1.Covers (x.1.vaddr / 4096 + 1) := by
    refine ⟨by omega, ?_⟩
    unfold u64
    omega
  obtain ⟨hentry, hwas, -⟩ := h.mapped x hx _ hnext
  obtain ⟨y, hy, hcovers, hpa⟩ := hbacked _ hwas (by rw [hentry]; rfl)
  have hframe := (h.frame x hx).1
  have hframe' : (t.entry p (x.1.vaddr / 4096 + 1)).pa = x.2 + 4096 := by
    rw [hentry, Nat.add_sub_cancel_left, Nat.one_mul]
    exact Nat.div_mul_cancel (Nat.dvd_of_mod_eq_zero (by omega))
  by_cases hxy : x = y
  · rw [hframe', hxy] at hpa
    omega
  · have : Std.Symm fun x y : ElfProgHeader × ℕ => ∀ v, x.1.Covers v → ¬ y.1.Covers v := ⟨fun a b hab v hb ha => hab v ha hb⟩
    exact h.apart.forall hx hy hxy _ hnext hcovers

end Reading

def smallFile (filesz memsz : UInt8) : List UInt8 :=
  List.replicate 64 0 ++ [1, 0, 0, 0, 5, 0, 0, 0] ++ [120, 0, 0, 0, 0, 0, 0, 0] ++ [0, 0, 1, 0, 0, 0, 0, 0] ++
    List.replicate 8 0 ++ [filesz, 0, 0, 0, 0, 0, 0, 0] ++ [memsz, 0, 0, 0, 0, 0, 0, 0] ++ List.replicate 8 0 ++ [1, 2, 3, 4]

end Pke.Memory
