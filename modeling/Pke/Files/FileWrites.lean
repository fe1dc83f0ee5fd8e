import Pke.Files.FileSpace

/-! What `rfs_write` puts in the blocks of a file. The functions take as a parameter how they get at `addrs`, so that
what is proved holds of the functions as they are and of the same functions with a check of every index. -/

namespace Pke.Files

open Lib Flow Function

abbrev Access := Vinode → ℤ → Flow Vfs ℤ

def anyAddr : Access := fun v k => addrAt v.addrs k

def ownAddr : Access := fun v k => if k < v.blocks then addrAt v.addrs k else undef

section Programs

variable (adr : Access)

def writeBlockBy (f : ℕ) (k : ℤ) (data : List UInt8) : Flow Vfs Unit := do
  growTo f k
  modify fun s => { s with iobuffer := putBytes s.iobuffer 0 data }
  let i ← getVinode f
  rfsW1block (← adr i k)

def writeBlocksBy (f : ℕ) : ℕ → ℤ → List UInt8 → Flow Vfs Unit
  | 0, k, data => if data = [] then pure () else writeBlockBy adr f k data
  | n + 1, k, data => do
    writeBlockBy adr f k (data.take rfsBlksize)
    writeBlocksBy f n (k + 1) (data.drop rfsBlksize)

def writeInsideBy (f : ℕ) (k : ℤ) (align : ℕ) (data : List UInt8) : Flow Vfs Unit := do
  let i ← getVinode f
  rfsR1block (← adr i k)
  modify fun s => { s with iobuffer := putBytes s.iobuffer align data }
  rfsW1block (← adr i k)

def writeDataBy (f : ℕ) (data : List UInt8) (offset : ℤ) : Flow Vfs Unit :=
  let align := offset.tmod rfsBlksize
  let k := offset.tdiv rfsBlksize
  let writetimes := (align.toNat + data.length) / rfsBlksize
  if align < 0 then undef
  else if align = 0 then writeBlocksBy adr f writetimes k data
  else if writetimes = 0 then writeInsideBy adr f k align.toNat data
  else do
    writeInsideBy adr f k align.toNat (data.take (rfsBlksize - align.toNat))
    writeBlocksBy adr f (writetimes - 1) (k + 1) (data.drop (rfsBlksize - align.toNat))

def rfsWriteBy (f : ℕ) (data : List UInt8) (offset : ℤ) : Flow Vfs ℤ := do
  let i ← getVinode f
  if i.size < offset then leave
  else do
    writeDataBy adr f data offset
    let i ← getVinode f
    setVinode f { i with size := if i.size < offset + data.length then offset + data.length else i.size }
    pure data.length

end Programs

lemma writeBlocksBy_any (f : ℕ) : ∀ n k data, writeBlocksBy anyAddr f n k data = writeBlocks f n k data := by
  intro n
  induction n with
  | zero => exact fun _ _ => rfl
  | succ n ih =>
    intro k data
    rw [writeBlocksBy, writeBlocks, ih]
    rfl

lemma rfsWriteBy_any (f : ℕ) (data : List UInt8) (offset : ℤ) : rfsWriteBy anyAddr f data offset = rfsWrite f data offset := by
  have hdata : writeDataBy anyAddr f data offset = rfsWrite.writeData f data offset := by
    rw [writeDataBy, rfsWrite.writeData]
    simp only [writeBlocksBy_any]
    rfl
  rw [rfsWriteBy, rfsWrite, hdata]

def Vfs.space (s : Vfs) (i : Vinode) : Space := ⟨i.addrs, i.blocks.toNat, s.freemap⟩

def Vinode.withSpace (i : Vinode) (a : Space) : Vinode := { i with addrs := a.addrs, blocks := a.blocks }

structure Stored (s : Vfs) (w : ℕ) (i : Vinode) : Prop where
  vinode : s.vinode w = some i
  nblocks : s.nblocks = 100
  nonneg : 0 ≤ i.blocks
  owns : (s.space i).Owns
  size : 0 ≤ i.size ∧ i.size ≤ 4096 * i.blocks

def Vfs.filled (s : Vfs) (w : ℕ) (i : Vinode) (D : ℕ → ℕ → UInt8) (io : ℕ → UInt8) (a : Space) : Vfs :=
  { s with disk := D, iobuffer := io, freemap := a.free, vinode := update s.vinode w (some (i.withSpace a)) }

def Vfs.patch (s : Vfs) (i : Vinode) (k o : ℕ) (data : List UInt8) : ℕ → UInt8 :=
  putBytes (overlay (s.disk ((s.space i).num k)) s.iobuffer) o data

def Vfs.patched (s : Vfs) (i : Vinode) (k o : ℕ) (data : List UInt8) : ℕ → ℕ → UInt8 :=
  update s.disk ((s.space i).num k) (overlay (s.patch i k o data) (s.disk ((s.space i).num k)))

variable {s : Vfs} {w k n o : ℕ} {i : Vinode} {a c : Space} {D D' : ℕ → ℕ → UInt8} {io io' : ℕ → UInt8}
  {data : List UInt8} {adr : Access}

lemma Vfs.space_blocks (hi : 0 ≤ i.blocks) : ((s.space i).blocks : ℤ) = i.blocks := Int.toNat_of_nonneg hi

lemma Vinode.withSpace_space (hi : 0 ≤ i.blocks) : i.withSpace (s.space i) = i := by
  rw [Vinode.withSpace, Vfs.space_blocks hi]
  rfl

lemma Vfs.filled_same (hs : Stored s w i) : s.filled w i D io (s.space i) = { s with disk := D, iobuffer := io } := by
  rw [Vfs.filled, Vinode.withSpace_space hs.nonneg, ← hs.vinode, update_eq_self]
  rfl

lemma Vfs.filled_self (hs : Stored s w i) : s.filled w i s.disk s.iobuffer (s.space i) = s := Vfs.filled_same hs

lemma Vfs.filled_filled : (s.filled w i D io a).filled w (i.withSpace a) D' io' c = s.filled w i D' io' c := by
  change Vfs.mk _ _ _ _ _ (update (update s.vinode w _) w _) _ _ _ _ _ _ _ _ _ _ _ = _
  rw [update_idem]
  rfl

lemma Vfs.filled_space : (s.filled w i D io a).space (i.withSpace a) = a := rfl

lemma Stored.filled (hs : Stored s w i) (ha : a.Owns) (hle : (s.space i).blocks ≤ a.blocks) :
    Stored (s.filled w i D io a) w (i.withSpace a) := by
  have hb := s.space_blocks hs.nonneg
  have hsize := hs.size
  exact ⟨update_self _ _ _, hs.nblocks, Int.natCast_nonneg _, ha, hsize.1, by
    change i.size ≤ 4096 * (a.blocks : ℤ)
    omega⟩

def Access.Good (adr : Access) : Prop :=
  ∀ (v : Vinode) (s : Vfs) (k : ℕ) (hk : k < 10), (k : ℤ) < v.blocks → adr v k s = .done (v.addrs ⟨k, hk⟩) s

lemma anyAddr_good : anyAddr.Good := fun _ _ _ _ _ => addrAt_eq rfl

lemma ownAddr_good : ownAddr.Good := by
  intro v s k hk hlt
  rw [ownAddr, if_pos hlt]
  exact addrAt_eq rfl

lemma rfsAllocBlock_first (hn : s.nblocks = 100) : rfsAllocBlock s = match firstFree s.freemap with
    | some b => .done ((12 + b : ℕ) : ℤ) { s with freemap := update s.freemap b 1 }
    | none => .left s := by
  have hval : rfsAllocBlock s = (match firstFree s.freemap with
    | some b => (do modify fun s => { s with freemap := update s.freemap b 1 }; pure (rfsBlkOffsetFree + b) : Flow Vfs ℤ)
    | none => leave) s := by
    rw [rfsAllocBlock, get_bind, hn]
    rfl
  rw [hval]
  cases firstFree s.freemap with
  | none => rfl
  | some b =>
    change Outcome.done (12 + (b : ℤ)) _ = Outcome.done ((12 + b : ℕ) : ℤ) _
    push_cast
    rfl

section Blocks

variable (hs : Stored s w i)
include hs

lemma growTo_full (hk : k < (s.space i).blocks) : growTo w k s = .done () s := by
  have hne : (k : ℤ) ≠ i.blocks := by
    rw [← s.space_blocks hs.nonneg]
    omega
  rw [growTo, bind_done (getVinode_eq hs.vinode), if_neg hne]
  rfl

lemma growTo_more (hk : k = (s.space i).blocks) (ha : (s.space i).more = some a) :
    growTo w k s = .done () (s.filled w i s.disk s.iobuffer a) := by
  obtain ⟨b, hb, hlt, rfl⟩ := Space.more_some ha
  have heq : (k : ℤ) = i.blocks := by
    rw [← s.space_blocks hs.nonneg, hk]
  have hfirst : firstFree s.freemap = some b := hb
  have halloc := rfsAllocBlock_first hs.nblocks
  rw [hfirst] at halloc
  have hin : 0 ≤ (k : ℤ) ∧ (k : ℤ) < 10 := by omega
  rw [growTo, bind_done (getVinode_eq hs.vinode), if_pos heq, bind_done halloc, dif_pos hin, setVinode_eq]
  have hindex : (⟨(k : ℤ).toNat, by omega⟩ : Fin 10) = ⟨(s.space i).blocks, hlt⟩ := Fin.ext hk
  have hblocks : i.blocks + 1 = (((s.space i).blocks + 1 : ℕ) : ℤ) := by
    rw [← s.space_blocks hs.nonneg]
    push_cast
    rfl
  rw [hindex, hblocks]
  rfl

lemma growTo_done (hk : k ≤ (s.space i).blocks) (ha : (s.space i).extend (k + 1 - (s.space i).blocks) = some a) :
    growTo w k s = .done () (s.filled w i s.disk s.iobuffer a) := by
  rcases Nat.lt_or_eq_of_le hk with hlt | heq
  · rw [Nat.sub_eq_zero_of_le hlt, Space.extend, Option.some.injEq] at ha
    rw [growTo_full hs hlt, ← ha, Vfs.filled_self hs]
  · rw [heq, Nat.add_sub_cancel_left, Space.extend_one] at ha
    exact growTo_more hs heq ha

lemma writeBlockBy_done (hadr : adr.Good) (hk : k ≤ (s.space i).blocks)
    (ha : (s.space i).extend (k + 1 - (s.space i).blocks) = some a) :
    writeBlockBy adr w k data s = .done () (s.filled w i
      (update s.disk (a.num k) (overlay (putBytes s.iobuffer 0 data) (s.disk (a.num k)))) (putBytes s.iobuffer 0 data) a) := by
  obtain ⟨hown, hlen, -⟩ := Space.extend_spec hs.owns ha
  have hka : k < a.blocks := by omega
  have h10 : k < 10 := by
    have := hown.le
    omega
  have hkz : (k : ℤ) < (i.withSpace a).blocks := Int.ofNat_lt.mpr hka
  have haccess := hadr (i.withSpace a) (s.filled w i s.disk (putBytes s.iobuffer 0 data) a) k h10 hkz
  have haddr : (i.withSpace a).addrs ⟨k, h10⟩ = (a.num k : ℕ) := hown.addrs_num hka h10
  rw [writeBlockBy, bind_done (growTo_done hs hk ha), modify_bind]
  change (getVinode w >>= _) (s.filled w i s.disk (putBytes s.iobuffer 0 data) a) = _
  rw [bind_done (getVinode_eq (update_self _ _ _)), bind_done haccess, haddr, rfsW1block_eq (hown.num_lt hka)]
  rfl

lemma writeInsideBy_done (hadr : adr.Good) (hk : k < (s.space i).blocks) :
    writeInsideBy adr w k o data s =
      .done () (s.filled w i (s.patched i k o data) (s.patch i k o data) (s.space i)) := by
  have h10 : k < 10 := by
    have := hs.owns.le
    omega
  have hkb : (k : ℤ) < i.blocks := by
    rw [← s.space_blocks hs.nonneg]
    exact_mod_cast hk
  have haddr : i.addrs ⟨k, h10⟩ = ((s.space i).num k : ℕ) := hs.owns.addrs_num hk h10
  have hnum := hs.owns.num_lt hk
  rw [writeInsideBy, bind_done (getVinode_eq hs.vinode), bind_done (hadr i s k h10 hkb), haddr, bind_done (rfsR1block_eq hnum),
    modify_bind, bind_done (hadr i _ k h10 hkb), haddr, rfsW1block_eq hnum, Vfs.filled_same hs]
  rfl

end Blocks

section Loop

def bufferAfter (io : ℕ → UInt8) : ℕ → List UInt8 → ℕ → UInt8
  | 0, _ => io
  | n + 1, data => bufferAfter (putBytes io 0 (data.take 4096)) n (data.drop 4096)

def laid (old io : ℕ → UInt8) (k n : ℕ) (data : List UInt8) (p : ℕ) : UInt8 :=
  if 4096 * k ≤ p ∧ p < 4096 * k + data.length then data.getD (p - 4096 * k) 0
  else if 4096 * k + data.length ≤ p ∧ p < 4096 * (k + n + 1) ∧ 4096 * n < data.length then bufferAfter io n data (p % 4096)
  else old p

variable {old : ℕ → UInt8} {p x : ℕ}

lemma putBytes_inside (hx : x < data.length) : putBytes io 0 data x = data.getD x 0 := by
  rw [putBytes, if_pos (by omega), Nat.sub_zero]

lemma putBytes_behind (hx : data.length ≤ x) : putBytes io 0 data x = io x := if_neg (by omega)

lemma bufferAfter_succ (hx : x < 4096) (hn : 4096 * (n + 1) ≤ data.length) :
    bufferAfter io (n + 1) data x = data.getD (4096 * n + x) 0 := by
  induction n generalizing io data with
  | zero =>
    rw [bufferAfter, bufferAfter, putBytes_inside (by rw [List.length_take]; omega), Nat.mul_zero, Nat.zero_add]
    simp [List.getD_eq_getElem?_getD, hx]
  | succ n ih =>
    rw [bufferAfter, ih (by rw [List.length_drop]; omega)]
    simp only [List.getD_eq_getElem?_getD, List.getElem?_drop]
    congr 2
    omega

lemma laid_succ (hn : 4096 * (n + 1) ≤ data.length) :
    laid old io k (n + 1) data p =
      laid (fun q => if q / 4096 = k then putBytes io 0 (data.take 4096) (q % 4096) else old q)
        (putBytes io 0 (data.take 4096)) (k + 1) n (data.drop 4096) p := by
  have hget : ∀ q, (data.drop 4096).getD q 0 = data.getD (4096 + q) 0 := by
    intro q
    simp only [List.getD_eq_getElem?_getD, List.getElem?_drop]
  have hlen : (data.drop 4096).length = data.length - 4096 := List.length_drop
  rw [laid, laid, hlen]
  by_cases hhere : p / 4096 = k
  · have hbyte : putBytes io 0 (data.take 4096) (p % 4096) = data.getD (p - 4096 * k) 0 := by
      rw [putBytes_inside (by rw [List.length_take]; omega)]
      have hx : p % 4096 = p - 4096 * k := by omega
      rw [hx]
      have hlt : p - 4096 * k < 4096 := by omega
      simp [List.getD_eq_getElem?_getD, hlt]
    rw [if_pos (by omega), if_neg (by omega), if_neg (by omega), if_pos hhere, hbyte]
  · by_cases hin : 4096 * (k + 1) ≤ p ∧ p < 4096 * k + data.length
    · have hindex : 4096 + (p - 4096 * (k + 1)) = p - 4096 * k := by omega
      rw [if_pos (by omega), if_pos (by omega), hget, hindex]
    · have htail : (4096 * k + data.length ≤ p ∧ p < 4096 * (k + (n + 1) + 1) ∧ 4096 * (n + 1) < data.length) ↔
          4096 * (k + 1) + (data.length - 4096) ≤ p ∧ p < 4096 * (k + 1 + n + 1) ∧ 4096 * n < data.length - 4096 := by
        omega
      have hrest : ¬ (4096 * (k + 1) ≤ p ∧ p < 4096 * (k + 1) + (data.length - 4096)) := by omega
      rw [if_neg (by omega), if_neg hrest, if_neg hhere, bufferAfter]
      by_cases h : 4096 * k + data.length ≤ p ∧ p < 4096 * (k + (n + 1) + 1) ∧ 4096 * (n + 1) < data.length
      · rw [if_pos h, if_pos (htail.mp h)]
      · rw [if_neg h, if_neg (fun h' => h (htail.mpr h'))]

lemma laid_congr {old' : ℕ → UInt8} (hn : 4096 * n ≤ data.length ∧ data.length < 4096 * (n + 1))
    (h : p / 4096 < k ∨ 4096 * k + data.length ≤ 4096 * (p / 4096) → old p = old' p) :
    laid old io k n data p = laid old' io k n data p := by
  rw [laid, laid]
  by_cases hin : 4096 * k ≤ p ∧ p < 4096 * k + data.length
  · rw [if_pos hin, if_pos hin]
  · rw [if_neg hin, if_neg hin]
    by_cases htail : 4096 * k + data.length ≤ p ∧ p < 4096 * (k + n + 1) ∧ 4096 * n < data.length
    · rw [if_pos htail, if_pos htail]
    · rw [if_neg htail, if_neg htail]
      exact h (by omega)

def blocksFor (e : ℕ) : ℕ := (e + 4095) / 4096

lemma blocksFor_bounds (e : ℕ) : e ≤ 4096 * blocksFor e ∧ 4096 * blocksFor e < e + 4096 := by
  rw [blocksFor]
  omega

lemma writeBlocksBy_done (hadr : adr.Good) (hs : Stored s w i) (hk : k ≤ (s.space i).blocks)
    (hlen : 4096 * n ≤ data.length ∧ data.length < 4096 * (n + 1))
    (ha : (s.space i).extend (blocksFor (4096 * k + data.length) - (s.space i).blocks) = some a) :
    ∃ D io, writeBlocksBy adr w n k data s = .done () (s.filled w i D io a) ∧
      ∀ p < 4096 * a.blocks, Space.byte D a p = laid (Space.byte s.disk (s.space i)) s.iobuffer k n data p := by
  have hfor := blocksFor_bounds (4096 * k + data.length)
  induction n generalizing s i k data with
  | zero =>
    rw [writeBlocksBy]
    by_cases hd : data = []
    · subst hd
      have hnone : blocksFor (4096 * k + ([] : List UInt8).length) - (s.space i).blocks = 0 := by
        rw [List.length_nil] at hfor ⊢
        omega
      rw [hnone, Space.extend, Option.some.injEq] at ha
      subst ha
      refine ⟨s.disk, s.iobuffer, ?_, ?_⟩
      · rw [if_pos rfl, Vfs.filled_self hs]
        rfl
      · intro p _
        rw [laid, List.length_nil, if_neg (by omega), if_neg (by omega)]
    · have hpos : 0 < data.length := List.length_pos_iff.mpr hd
      have hone : blocksFor (4096 * k + data.length) = k + 1 := by omega
      rw [hone] at ha
      obtain ⟨hown, hblocks, hnum⟩ := Space.extend_spec hs.owns ha
      rw [if_neg hd]
      refine ⟨_, _, writeBlockBy_done hs hadr hk ha, ?_⟩
      intro p hp
      rw [hown.byte_update (by omega) (by omega), laid]
      by_cases hhere : p / 4096 = k
      · rw [if_pos hhere, overlay_apply (by omega)]
        by_cases hin : p < 4096 * k + data.length
        · have hx : p % 4096 = p - 4096 * k := by omega
          rw [if_pos (by omega), putBytes_inside (by omega), hx]
        · rw [if_neg (by omega), if_pos (by omega), putBytes_behind (by omega), bufferAfter]
      · rw [if_neg hhere, if_neg (by omega), if_neg (by omega), Space.byte, Space.byte, hnum _ (by omega)]
  | succ n ih =>
    have hfirst : blocksFor (4096 * k + data.length) - (s.space i).blocks =
        k + 1 - (s.space i).blocks + (blocksFor (4096 * k + data.length) - max (s.space i).blocks (k + 1)) := by
      omega
    rw [hfirst, Space.extend_add] at ha
    obtain ⟨c, hc, ha⟩ := Option.bind_eq_some_iff.mp ha
    obtain ⟨hown, hblocks, hnum⟩ := Space.extend_spec hs.owns hc
    have hstep : writeBlockBy adr w k (data.take 4096) s = _ := writeBlockBy_done hs hadr hk hc
    have htotal : 4096 * (k + 1) + (data.drop 4096).length = 4096 * k + data.length := by
      rw [List.length_drop]
      omega
    have hrest : c.extend (blocksFor (4096 * (k + 1) + (data.drop 4096).length) - c.blocks) = some a := by
      have hmax : c.blocks = max (s.space i).blocks (k + 1) := by omega
      rw [htotal, hmax]
      exact ha
    have hk' : k + 1 ≤ c.blocks := by omega
    have hlen' : 4096 * n ≤ (data.drop 4096).length ∧ (data.drop 4096).length < 4096 * (n + 1) := by
      rw [List.length_drop]
      omega
    obtain ⟨D, io, hrun, hbytes⟩ := ih (hs.filled hown (by omega)) hk' hlen' hrest (blocksFor_bounds _)
    refine ⟨D, io, ?_, ?_⟩
    · rw [writeBlocksBy, bind_done hstep]
      rw [Vfs.filled_filled] at hrun
      exact_mod_cast hrun
    · intro p hp
      rw [hbytes p hp, laid_succ (by omega)]
      have hend := (Space.extend_spec hown hrest).2.1
      have hfor' := blocksFor_bounds (4096 * (k + 1) + (data.drop 4096).length)
      refine laid_congr hlen' fun hout => ?_
      have hpc : p / 4096 < c.blocks := by omega
      change Space.byte (update s.disk (c.num k) _) c p = _
      rw [hown.byte_update (by omega) hpc]
      by_cases hhere : p / 4096 = k
      · rw [if_pos hhere, if_pos hhere, overlay_apply (by omega)]
      · rw [if_neg hhere, if_neg hhere, Space.byte, Space.byte, hnum _ (by omega)]

end Loop

section Data

variable {old : ℕ → UInt8} {p x : ℕ}

def Spills (o len p : ℕ) : Prop :=
  o ≤ 4096 * ((o + len) / 4096) ∧ (o + len) % 4096 ≠ 0 ∧ o + len ≤ p ∧ p < 4096 * ((o + len) / 4096 + 1)

instance : Decidable (Spills o n p) := inferInstanceAs (Decidable (_ ∧ _ ∧ _ ∧ _))

def leftover (old io : ℕ → UInt8) (o : ℕ) (data : List UInt8) (x : ℕ) : UInt8 :=
  if o = 4096 * ((o + data.length) / 4096) then io x
  else if 4096 * ((o + data.length) / 4096 - 1) + x < o then old (4096 * ((o + data.length) / 4096 - 1) + x)
  else data.getD (4096 * ((o + data.length) / 4096 - 1) + x - o) 0

def newByte (old io : ℕ → UInt8) (o : ℕ) (data : List UInt8) (p : ℕ) : UInt8 :=
  if o ≤ p ∧ p < o + data.length then data.getD (p - o) 0
  else if Spills o data.length p then leftover old io o data (p % 4096)
  else old p

lemma newByte_inside (h : o ≤ p ∧ p < o + data.length) : newByte old io o data p = data.getD (p - o) 0 := if_pos h

lemma newByte_spilled (h : Spills o data.length p) : newByte old io o data p = leftover old io o data (p % 4096) := by
  have hin : ¬ (o ≤ p ∧ p < o + data.length) := by
    have := h.2.2.1
    omega
  rw [newByte, if_neg hin, if_pos h]

lemma newByte_outside (hin : ¬ (o ≤ p ∧ p < o + data.length)) (h : ¬ Spills o data.length p) :
    newByte old io o data p = old p := by
  rw [newByte, if_neg hin, if_neg h]

lemma laid_newByte (ho : o % 4096 = 0) :
    laid old io (o / 4096) (data.length / 4096) data p = newByte old io o data p := by
  have hstart : 4096 * (o / 4096) = o := by omega
  rw [laid, hstart]
  by_cases hin : o ≤ p ∧ p < o + data.length
  · rw [if_pos hin, newByte_inside hin]
  · rw [if_neg hin]
    by_cases hs : Spills o data.length p
    · have hcond : o + data.length ≤ p ∧ p < 4096 * (o / 4096 + data.length / 4096 + 1) ∧
          4096 * (data.length / 4096) < data.length := by
        obtain ⟨h1, h2, h3, h4⟩ := hs
        omega
      rw [if_pos hcond, newByte_spilled hs, leftover]
      -- the buffer is that of an earlier operation only if no whole block comes first
      cases hn : data.length / 4096 with
      | zero =>
        rw [if_pos (by omega)]
        rfl
      | succ n =>
        have hindex : 4096 * ((o + data.length) / 4096 - 1) + p % 4096 - o = 4096 * n + p % 4096 := by omega
        rw [bufferAfter_succ (by omega) (by omega), if_neg (by omega), if_neg (by omega), hindex]
    · have hcond : ¬ (o + data.length ≤ p ∧ p < 4096 * (o / 4096 + data.length / 4096 + 1) ∧
          4096 * (data.length / 4096) < data.length) := by
        intro h
        apply hs
        rw [Spills]
        omega
      rw [if_neg hcond, newByte_outside hin hs]

lemma writeDataBy_nat (f : ℕ) : writeDataBy adr f data o =
    if o % 4096 = 0 then writeBlocksBy adr f (data.length / 4096) (o / 4096 : ℕ) data
    else if o % 4096 + data.length < 4096 then writeInsideBy adr f (o / 4096 : ℕ) (o % 4096) data
    else (do
      writeInsideBy adr f (o / 4096 : ℕ) (o % 4096) (data.take (4096 - o % 4096))
      writeBlocksBy adr f ((o % 4096 + data.length) / 4096 - 1) (o / 4096 + 1 : ℕ) (data.drop (4096 - o % 4096))) := by
  have hdiv : (o : ℤ).tdiv rfsBlksize = (o / 4096 : ℕ) := Int.tdiv_eq_ediv_of_nonneg (by omega)
  have hmod : (o : ℤ).tmod rfsBlksize = (o % 4096 : ℕ) := Int.tmod_eq_emod_of_nonneg (by omega)
  rw [writeDataBy, hdiv, hmod, if_neg (by omega), Int.toNat_natCast]
  by_cases h0 : o % 4096 = 0
  · rw [if_pos (by omega), if_pos h0, h0, Nat.zero_add]
  · rw [if_neg (by omega), if_neg h0]
    by_cases h1 : o % 4096 + data.length < 4096
    · rw [if_pos (by simp only [rfsBlksize]; omega), if_pos h1]
    · rw [if_neg (by simp only [rfsBlksize]; omega), if_neg h1]
      rfl

lemma Stored.inside_byte (hs : Stored s w i) (hk : k < (s.space i).blocks) (hp : p / 4096 < (s.space i).blocks) :
    Space.byte (s.patched i k x data) (s.space i) p =
      if 4096 * k + x ≤ p ∧ p < 4096 * k + x + data.length ∧ p / 4096 = k then data.getD (p - (4096 * k + x)) 0
      else Space.byte s.disk (s.space i) p := by
  rw [Vfs.patched, hs.owns.byte_update hk hp]
  by_cases hhere : p / 4096 = k
  · rw [if_pos hhere, overlay_apply (by omega), Vfs.patch, putBytes]
    by_cases hin : x ≤ p % 4096 ∧ p % 4096 < x + data.length
    · have hindex : p % 4096 - x = p - (4096 * k + x) := by omega
      rw [if_pos hin, if_pos (by omega), hindex]
    · rw [if_neg hin, if_neg (by omega), overlay_apply (by omega), Space.byte, hhere]
  · rw [if_neg hhere, if_neg (by omega)]

lemma laid_crossing {old' : ℕ → UInt8} (hcross : 4096 ≤ o % 4096 + data.length)
    (hold : old' p = if o ≤ p ∧ p < o + data.length ∧ p / 4096 = o / 4096 then data.getD (p - o) 0 else old p)
    (hio : ∀ x < 4096, io' x = if o % 4096 ≤ x then data.getD (x - o % 4096) 0 else old (4096 * (o / 4096) + x)) :
    laid old' io' (o / 4096 + 1) ((o % 4096 + data.length) / 4096 - 1) (data.drop (4096 - o % 4096)) p =
      newByte old io o data p := by
  have hlen : (data.drop (4096 - o % 4096)).length = data.length - (4096 - o % 4096) := List.length_drop
  have hget : ∀ q, (data.drop (4096 - o % 4096)).getD q 0 = data.getD (4096 - o % 4096 + q) 0 := by
    intro q
    simp only [List.getD_eq_getElem?_getD, List.getElem?_drop]
  have hend : 4096 * (o / 4096 + 1) + (data.length - (4096 - o % 4096)) = o + data.length := by omega
  rw [laid, hlen, hend]
  by_cases hin : o ≤ p ∧ p < o + data.length
  · rw [newByte_inside hin]
    by_cases hfirst : p / 4096 = o / 4096
    · rw [if_neg (by omega), if_neg (by omega), hold, if_pos ⟨hin.1, hin.2, hfirst⟩]
    · have hindex : 4096 - o % 4096 + (p - 4096 * (o / 4096 + 1)) = p - o := by omega
      rw [if_pos (by omega), hget, hindex]
  · rw [if_neg (by omega)]
    by_cases hs : Spills o data.length p
    · have hcond : o + data.length ≤ p ∧ p < 4096 * (o / 4096 + 1 + ((o % 4096 + data.length) / 4096 - 1) + 1) ∧
          4096 * ((o % 4096 + data.length) / 4096 - 1) < data.length - (4096 - o % 4096) := by
        obtain ⟨h1, h2, h3, h4⟩ := hs
        omega
      rw [if_pos hcond, newByte_spilled hs, leftover, if_neg (by omega)]
      -- before the last block comes either the block in which the write starts, or a whole one
      cases hn : (o % 4096 + data.length) / 4096 - 1 with
      | zero =>
        have hprev : (o + data.length) / 4096 - 1 = o / 4096 := by omega
        rw [bufferAfter, hio _ (by omega), hprev]
        by_cases hx : o % 4096 ≤ p % 4096
        · have hindex : 4096 * (o / 4096) + p % 4096 - o = p % 4096 - o % 4096 := by omega
          rw [if_pos hx, if_neg (by omega), hindex]
        · rw [if_neg hx, if_pos (by omega)]
      | succ m =>
        have hindex : 4096 * ((o + data.length) / 4096 - 1) + p % 4096 - o = 4096 - o % 4096 + (4096 * m + p % 4096) := by
          omega
        rw [bufferAfter_succ (by omega) (by rw [hlen]; omega), hget, if_neg (by omega), hindex]
    · have hcond : ¬ (o + data.length ≤ p ∧ p < 4096 * (o / 4096 + 1 + ((o % 4096 + data.length) / 4096 - 1) + 1) ∧
          4096 * ((o % 4096 + data.length) / 4096 - 1) < data.length - (4096 - o % 4096)) := by
        intro h
        apply hs
        rw [Spills]
        omega
      rw [if_neg hcond, newByte_outside hin hs, hold, if_neg (by omega)]

lemma Stored.crossing_byte (hs : Stored s w i) (hcross : 4096 ≤ o % 4096 + data.length)
    (hk : o / 4096 < (s.space i).blocks)
    (hp : p / 4096 < o / 4096 + 1 ∨ o + data.length ≤ 4096 * (p / 4096) → p / 4096 < (s.space i).blocks) :
    laid (Space.byte (s.patched i (o / 4096) (o % 4096) (data.take (4096 - o % 4096))) (s.space i))
        (s.patch i (o / 4096) (o % 4096) (data.take (4096 - o % 4096))) (o / 4096 + 1)
        ((o % 4096 + data.length) / 4096 - 1) (data.drop (4096 - o % 4096)) p =
      newByte (Space.byte s.disk (s.space i)) s.iobuffer o data p := by
  have htake : ∀ q < 4096 - o % 4096, (data.take (4096 - o % 4096)).getD q 0 = data.getD q 0 := by
    intro q hq
    simp [List.getD_eq_getElem?_getD, hq]
  have hhead : (data.take (4096 - o % 4096)).length = 4096 - o % 4096 := by
    rw [List.length_take]
    omega
  have hstart : 4096 * (o / 4096) + o % 4096 = o := by omega
  have hio : ∀ x < 4096, s.patch i (o / 4096) (o % 4096) (data.take (4096 - o % 4096)) x =
      if o % 4096 ≤ x then data.getD (x - o % 4096) 0 else Space.byte s.disk (s.space i) (4096 * (o / 4096) + x) := by
    intro x hx
    rw [Vfs.patch, putBytes, hhead]
    by_cases hin : o % 4096 ≤ x
    · rw [if_pos hin, if_pos (by omega), htake _ (by omega)]
    · have hdiv : (4096 * (o / 4096) + x) / 4096 = o / 4096 := by omega
      have hmod : (4096 * (o / 4096) + x) % 4096 = x := by omega
      rw [if_neg hin, if_neg (by omega), overlay_apply hx, Space.byte, hdiv, hmod]
  let old (q : ℕ) : UInt8 := if o ≤ q ∧ q < o + data.length ∧ q / 4096 = o / 4096 then data.getD (q - o) 0
    else Space.byte s.disk (s.space i) q
  rw [← laid_crossing (p := p) hcross (show old p = _ from rfl) hio]
  apply laid_congr (by rw [List.length_drop]; omega)
  intro hout
  rw [List.length_drop] at hout
  rw [hs.inside_byte hk (hp (by omega)), hstart, hhead]
  by_cases hin : o ≤ p ∧ p < o + data.length ∧ p / 4096 = o / 4096
  · rw [if_pos (by omega), htake _ (by omega)]
    exact (if_pos hin).symm
  · rw [if_neg (by omega)]
    exact (if_neg hin).symm

lemma writeDataBy_done (hadr : adr.Good) (hs : Stored s w i) (ho : (o : ℤ) ≤ i.size)
    (ha : (s.space i).extend (blocksFor (o + data.length) - (s.space i).blocks) = some a) :
    ∃ D io, writeDataBy adr w data o s = .done () (s.filled w i D io a) ∧
      ∀ p < 4096 * a.blocks, Space.byte D a p = newByte (Space.byte s.disk (s.space i)) s.iobuffer o data p := by
  have hsize := hs.size
  have hblocks := s.space_blocks hs.nonneg
  have hfor := blocksFor_bounds (o + data.length)
  rw [writeDataBy_nat]
  by_cases h0 : o % 4096 = 0
  · have hstart : 4096 * (o / 4096) = o := by omega
    rw [← hstart] at ha
    obtain ⟨D, io, hrun, hbytes⟩ := writeBlocksBy_done (n := data.length / 4096) hadr hs (by omega) (by omega) ha
    refine ⟨D, io, by rw [if_pos h0, hrun], ?_⟩
    intro p hp
    rw [hbytes p hp, laid_newByte h0]
  · have hk : o / 4096 < (s.space i).blocks := by omega
    have hstart : 4096 * (o / 4096) + o % 4096 = o := by omega
    rw [if_neg h0]
    by_cases hshort : o % 4096 + data.length < 4096
    · have hnone : blocksFor (o + data.length) - (s.space i).blocks = 0 := by omega
      rw [hnone, Space.extend, Option.some.injEq] at ha
      subst ha
      refine ⟨_, _, by rw [if_pos hshort, writeInsideBy_done hs hadr hk], ?_⟩
      intro p hp
      rw [hs.inside_byte hk (by omega), hstart]
      by_cases hin : o ≤ p ∧ p < o + data.length
      · rw [if_pos (by omega), newByte_inside hin]
      · have hspill : ¬ Spills o data.length p := by
          rw [Spills]
          omega
        rw [if_neg (by omega), newByte_outside hin hspill]
    · have hown := hs.owns
      have hend : 4096 * (o / 4096 + 1) + (data.length - (4096 - o % 4096)) = o + data.length := by omega
      rw [if_neg hshort, bind_done (writeInsideBy_done hs hadr hk)]
      have hlen : 4096 * ((o % 4096 + data.length) / 4096 - 1) ≤ (data.drop (4096 - o % 4096)).length ∧
          (data.drop (4096 - o % 4096)).length < 4096 * ((o % 4096 + data.length) / 4096 - 1 + 1) := by
        rw [List.length_drop]
        omega
      have hrest : (s.space i).extend (blocksFor (4096 * (o / 4096 + 1) + (data.drop (4096 - o % 4096)).length) -
          (s.space i).blocks) = some a := by
        rw [List.length_drop, hend]
        exact ha
      have hk' : o / 4096 + 1 ≤ (s.space i).blocks := hk
      obtain ⟨D, io, hrun, hbytes⟩ := writeBlocksBy_done hadr (hs.filled hown le_rfl) hk' hlen hrest
      rw [Vfs.filled_filled] at hrun
      refine ⟨D, io, hrun, ?_⟩
      intro p hp
      have ha' := (Space.extend_spec hown ha).2.1
      rw [hbytes p hp]
      exact hs.crossing_byte (by omega) hk (by omega)

end Data

section Whole

def Vinode.reaching (i : Vinode) (e : ℤ) : Vinode := { i with size := if i.size < e then e else i.size }

def Vfs.contents (s : Vfs) (i : Vinode) : List UInt8 := (List.range i.size.toNat).map (Space.byte s.disk (s.space i))

lemma rfsWriteBy_done (hadr : adr.Good) (hs : Stored s w i) (ho : (o : ℤ) ≤ i.size)
    (ha : (s.space i).extend (blocksFor (o + data.length) - (s.space i).blocks) = some a) :
    ∃ D io, rfsWriteBy adr w data o s = .done data.length (s.filled w (i.reaching (o + data.length)) D io a) ∧
      ∀ p < 4096 * a.blocks, Space.byte D a p = newByte (Space.byte s.disk (s.space i)) s.iobuffer o data p := by
  obtain ⟨D, io, hrun, hbytes⟩ := writeDataBy_done hadr hs ho ha
  refine ⟨D, io, ?_, hbytes⟩
  rw [rfsWriteBy, bind_done (getVinode_eq hs.vinode), if_neg (by omega), bind_done hrun,
    bind_done (getVinode_eq (update_self _ _ _)), bind_done setVinode_eq]
  change Outcome.done _ (Vfs.mk _ _ _ _ _ (update (update s.vinode w _) w _) _ _ _ _ _ _ _ _ _ _ _) = _
  rw [update_idem]
  rfl

lemma Stored.written (hs : Stored s w i) (D : ℕ → ℕ → UInt8) (io : ℕ → UInt8)
    (ha : (s.space i).extend (blocksFor (o + n) - (s.space i).blocks) = some a) :
    Stored (s.filled w (i.reaching (o + n)) D io a) w ((i.reaching (o + n)).withSpace a) := by
  obtain ⟨hown, hblocks, -⟩ := Space.extend_spec hs.owns ha
  have hb := s.space_blocks hs.nonneg
  have hsize := hs.size
  have hfor := blocksFor_bounds (o + n)
  refine ⟨update_self _ _ _, hs.nblocks, Int.natCast_nonneg _, hown, ?_⟩
  change 0 ≤ (if i.size < (o : ℤ) + n then (o : ℤ) + n else i.size) ∧
    (if i.size < (o : ℤ) + n then (o : ℤ) + n else i.size) ≤ 4096 * (a.blocks : ℤ)
  split_ifs <;> omega

end Whole

end Pke.Files
