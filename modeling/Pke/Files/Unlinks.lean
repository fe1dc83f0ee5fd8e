import Pke.Files.Runs

namespace Pke.Files

open Lib Flow Function

variable {s t : Vfs} {v k n j x : ℕ} {z : ℤ} {d : Dinode} {nm : Name} {D D' : ℕ → ℕ → UInt8}

def Dinode.block (d : Dinode) (j : ℕ) : ℕ := if h : j < 10 then (d.addrs ⟨j, h⟩).toNat else 0

def stream (D : ℕ → ℕ → UInt8) (d : Dinode) (x : ℕ) : UInt8 := D (d.block (x / 4096)) (x % 4096)

def record (D : ℕ → ℕ → UInt8) (d : Dinode) (i : ℕ) : List UInt8 := slice (stream D d) (32 * i) 32

def records (D : ℕ → ℕ → UInt8) (d : Dinode) (n : ℕ) : List (List UInt8) := (List.range n).map (record D d)

def recordInum (D : ℕ → ℕ → UInt8) (d : Dinode) (i : ℕ) : ℤ := load32 (stream D d) (32 * i)

def dirBlocks (n : ℕ) : ℕ := max 1 ((n + 127) / 128)

structure Dense (d : Dinode) (n : ℕ) : Prop where
  size : d.size = 32 * n
  blocks : d.blocks = dirBlocks n
  few : dirBlocks n ≤ 10
  data : ∀ i : Fin 10, (i : ℕ) < dirBlocks n → 12 ≤ d.addrs i ∧ d.addrs i < 128
  distinct : ∀ i i' : Fin 10, (i : ℕ) < dirBlocks n → (i' : ℕ) < dirBlocks n → d.addrs i = d.addrs i' → i = i'

namespace Dense

lemma block_eq (h : Dense d n) (hj : j < dirBlocks n) : (d.block j : ℤ) = d.addrs ⟨j, hj.trans_le h.few⟩ := by
  have hlo := (h.data ⟨j, hj.trans_le h.few⟩ hj).1
  rw [Dinode.block, dif_pos (hj.trans_le h.few)]
  omega

lemma block_range (h : Dense d n) (hj : j < dirBlocks n) : 12 ≤ d.block j ∧ d.block j < 128 := by
  have hdata := h.data ⟨j, hj.trans_le h.few⟩ hj
  rw [← h.block_eq hj] at hdata
  omega

lemma addr (h : Dense d n) (hj : j < dirBlocks n) : addrAt d.addrs j s = .done (d.block j : ℤ) s := by
  rw [addrAt_eq (j := ⟨j, hj.trans_le h.few⟩) rfl, h.block_eq hj]

lemma block_inj (h : Dense d n) {i : ℕ} (hi : i < dirBlocks n) (hj : j < dirBlocks n) (he : d.block i = d.block j) : i = j := by
  have haddrs : d.addrs ⟨i, hi.trans_le h.few⟩ = d.addrs ⟨j, hj.trans_le h.few⟩ := by
    rw [← h.block_eq hi, ← h.block_eq hj, he]
  exact congrArg Fin.val (h.distinct _ _ hi hj haddrs)

lemma index_lt (hk : k < n) : k / 128 < dirBlocks n := by
  rw [dirBlocks]
  omega

end Dense

section Scan

def EntryNamed (s : Vfs) (d : Dinode) (i : ℕ) (nm : Name) : Prop :=
  hasString (overlay (s.disk (d.block (i / 128))) s.iobuffer) (i % 128 * 32 + 4) nm = true

def atEntry (s : Vfs) (d : Dinode) (i : ℕ) : Vfs := { s with iobuffer := overlay (s.disk (d.block (i / 128))) s.iobuffer }

def Ready (s : Vfs) (d : Dinode) (i : ℕ) (io : ℕ → UInt8) : Prop :=
  (∀ b, overlay b io = overlay b s.iobuffer) ∧ (i % 128 = 0 ∨ io = overlay (s.disk (d.block (i / 128))) s.iobuffer)

lemma loadDirentry_eq (h : Dense d n) {i : ℕ} (hi : i < n) {io : ℕ → UInt8} (hio : Ready s d i io) :
    loadDirentry d.addrs i { s with iobuffer := io } = .done () (atEntry s d i) := by
  rw [loadDirentry]
  split_ifs with hmod
  · refine (bind_done (h.addr (Dense.index_lt hi))).trans ((rfsR1block_eq (h.block_range (Dense.index_lt hi)).2).trans ?_)
    rw [atEntry]
    congr 2
    exact hio.1 _
  · rw [atEntry, ← hio.2.resolve_left hmod]
    rfl

lemma Ready.next {i : ℕ} : Ready s d (i + 1) (atEntry s d i).iobuffer := by
  refine ⟨fun b => ?_, ?_⟩
  · funext y
    rw [atEntry, overlay, overlay]
    split_ifs with hy
    · rfl
    · exact if_neg hy
  · by_cases hmod : (i + 1) % 128 = 0
    · exact .inl hmod
    · have hsame : (i + 1) / 128 = i / 128 := by omega
      exact .inr (by rw [atEntry, hsame])

lemma findDirentry_first (h : Dense d n) (hk : k < n) (hname : EntryNamed s d k nm) {c : ℕ} :
    ∀ {i io}, i ≤ k → k < i + c → (∀ x, i ≤ x → x < k → ¬ EntryNamed s d x nm) → Ready s d i io →
      findDirentry d.addrs nm (List.range' i c) { s with iobuffer := io } = .done (some k) (atEntry s d k) := by
  induction c with
  | zero => exact fun hik hki => absurd hki (by omega)
  | succ c ih =>
    intro i io hik hki hfirst hio
    rw [List.range'_succ, findDirentry, bind_done (loadDirentry_eq h (hik.trans_lt hk) hio), get_bind]
    by_cases hi : i = k
    · subst hi
      exact congrFun (if_pos hname) _
    · have hno : ¬ hasString (atEntry s d i).iobuffer (i % 128 * 32 + 4) nm = true := hfirst i le_rfl (by omega)
      rw [if_neg hno]
      exact ih (by omega) (by omega) (fun x hx => hfirst x (by omega)) Ready.next

lemma findDirentry_none (h : Dense d n) {c : ℕ} : ∀ {i io}, i + c ≤ n → (∀ x < n, ¬ EntryNamed s d x nm) → Ready s d i io →
    ∃ io', findDirentry d.addrs nm (List.range' i c) { s with iobuffer := io } = .done none { s with iobuffer := io' } := by
  induction c with
  | zero => exact fun _ _ _ => ⟨_, rfl⟩
  | succ c ih =>
    intro i io hi hnone hio
    have hno : ¬ hasString (atEntry s d i).iobuffer (i % 128 * 32 + 4) nm = true := hnone i (by omega)
    rw [List.range'_succ, findDirentry, bind_done (loadDirentry_eq h (by omega) hio), get_bind, if_neg hno]
    exact ih (by omega) hnone Ready.next

end Scan

section Move

def erased (D : ℕ → ℕ → UInt8) (d : Dinode) (k x : ℕ) : UInt8 :=
  if x < 32 * k then stream D d x else stream D d (x + 32)

structure Moved (d : Dinode) (n k : ℕ) (D D' : ℕ → ℕ → UInt8) (previous : ℕ → UInt8) (j : ℕ) : Prop where
  finished : ∀ x < 4096 * j, stream D' d x = erased D d k x
  carried : ∀ y < 4064, previous y = erased D d k (4096 * j + y)
  rest : ∀ i, j < i → i < dirBlocks n → D' (d.block i) = D (d.block i)
  others : ∀ b, (∀ i < dirBlocks n, b ≠ d.block i) → D' b = D b

variable {previous : ℕ → UInt8}

lemma stream_block (D : ℕ → ℕ → UInt8) (d : Dinode) {y : ℕ} (hy : y < 4096) : stream D d (4096 * j + y) = D (d.block j) y := by
  have hdiv : (4096 * j + y) / 4096 = j := by omega
  have hmod : (4096 * j + y) % 4096 = y := by omega
  rw [stream, hdiv, hmod]

lemma withLast_apply (io previous block : ℕ → UInt8) (y : ℕ) : withLast io previous block y =
    if y < 4064 then previous y else if y < 4096 then block (y - 4064) else io y := rfl

lemma Moved.start (io : ℕ → UInt8) :
    Moved d n k D D (shiftDirentrys (overlay (D (d.block (k / 128))) io) (k % 128)) (k / 128) := by
  refine ⟨fun x hx => ?_, fun y hy => ?_, fun _ _ _ => rfl, fun _ _ => rfl⟩
  · rw [erased, if_pos (by omega)]
  · rw [shiftDirentrys_apply, erased]
    by_cases hlt : k % 128 * 32 ≤ y
    · rw [if_pos ⟨hlt, hy⟩, if_neg (by omega), overlay_apply (by omega), Nat.add_assoc, stream_block _ _ (by omega)]
    · rw [if_neg (fun hno => hlt hno.1), if_pos (by omega), overlay_apply (by omega), stream_block _ _ (by omega)]

lemma Moved.step (h : Dense d n) (hm : Moved d n k D D' previous j) (hkj : k / 128 ≤ j) (hj : j + 1 < dirBlocks n)
    (io rest : ℕ → UInt8) :
    Moved d n k D (update D' (d.block j) (overlay (withLast io previous (overlay (D' (d.block (j + 1))) rest)) (D' (d.block j))))
      (shiftDirentrys (overlay (D' (d.block (j + 1))) rest) 0) (j + 1) := by
  have hnext := hm.rest (j + 1) (by omega) hj
  have hne : ∀ i < dirBlocks n, i ≠ j → d.block i ≠ d.block j := fun i hi hij he => hij (h.block_inj hi (by omega) he)
  refine ⟨fun x hx => ?_, fun y hy => ?_, fun i hji hi => ?_, fun b hb => ?_⟩
  · rw [stream]
    by_cases hlow : x < 4096 * j
    · rw [update_of_ne (hne _ (by omega) (by omega))]
      exact hm.finished x hlow
    · obtain ⟨y, rfl⟩ := Nat.exists_eq_add_of_le (not_lt.mp hlow)
      have hdiv : (4096 * j + y) / 4096 = j := by omega
      have hmod : (4096 * j + y) % 4096 = y := by omega
      have hy : y < 4096 := by omega
      rw [hdiv, hmod, update_self, overlay_apply hy, withLast_apply]
      by_cases hin : y < 4064
      · rw [if_pos hin, hm.carried y hin]
      · have hto : 4096 * j + y + 32 = 4096 * (j + 1) + (y - 4064) := by omega
        rw [if_neg hin, if_pos hy, overlay_apply (by omega), hnext, erased, if_neg (by omega), hto,
          stream_block _ _ (by omega)]
  · rw [shiftDirentrys_apply, if_pos ⟨by omega, hy⟩, overlay_apply (by omega), hnext, erased, if_neg (by omega), Nat.add_assoc,
      stream_block _ _ (by omega)]
  · rw [update_of_ne (hne i hi (by omega)), hm.rest i (by omega) hi]
  · rw [update_of_ne (hb j (by omega)), hm.others b hb]

lemma shiftBlocks_eq (h : Dense d n) {c : ℕ} : ∀ {j previous D'} io, k / 128 ≤ j → j + 1 + c = dirBlocks n →
    Moved d n k D D' previous j → ∃ last D'' io', shiftBlocks d.addrs previous (List.range' (j + 1) c)
      { s with disk := D', iobuffer := io } = .done last { s with disk := D'', iobuffer := io' } ∧
        Moved d n k D D'' last (dirBlocks n - 1) := by
  induction c with
  | zero =>
    intro j previous D' io _ hc hm
    have hj : dirBlocks n - 1 = j := by omega
    exact ⟨previous, D', io, rfl, hj ▸ hm⟩
  | succ c ih =>
    intro j previous D' io hkj hc hm
    have hj : j < dirBlocks n := by omega
    have hnext : j + 1 < dirBlocks n := by omega
    rw [List.range'_succ, shiftBlocks, bind_done (h.addr hnext), bind_done (rfsR1block_eq (h.block_range hnext).2), get_bind,
      modify_bind, Nat.add_sub_cancel (n := j) (m := 1), bind_done (h.addr hj), bind_done (rfsW1block_eq (h.block_range hj).2)]
    dsimp only
    exact ih _ (by omega) (by omega) (hm.step h hkj (by omega) _ _)

lemma Moved.finish (h : Dense d n) (hm : Moved d n k D D' previous (dirBlocks n - 1)) (io : ℕ → UInt8) :
    ∀ x < 4096 * dirBlocks n - 32, stream (update D' (d.block (dirBlocks n - 1))
      (overlay (fun y => if y < rfsBlksize then previous y else io y) (D' (d.block (dirBlocks n - 1))))) d x = erased D d k x := by
  intro x hx
  have hpos : 1 ≤ dirBlocks n := le_max_left _ _
  by_cases hlow : x < 4096 * (dirBlocks n - 1)
  · have hne : d.block (x / 4096) ≠ d.block (dirBlocks n - 1) := fun he => by
      have := h.block_inj (by omega) (by omega) he
      omega
    rw [stream, update_of_ne hne]
    exact hm.finished x hlow
  · obtain ⟨y, rfl⟩ := Nat.exists_eq_add_of_le (not_lt.mp hlow)
    rw [stream_block _ _ (by omega), update_self, overlay_apply (by omega), if_pos (show y < 4096 by omega), hm.carried y (by omega)]

end Move

lemma records_erased (hk : k < n) (h : ∀ x < 32 * (n - 1), stream D' d x = erased D d k x) :
    records D' d (n - 1) = (records D d n).eraseIdx k := by
  rw [records, records, map_range_eraseIdx _ hk]
  apply List.map_congr_left
  intro i hi
  rw [List.mem_range] at hi
  have hbyte : ∀ y < 32, stream D' d (32 * i + y) = stream D d (32 * (if i < k then i else i + 1) + y) := by
    intro y hy
    rw [h _ (by omega), erased]
    split_ifs with hlt hik hik
    · rfl
    · omega
    · omega
    · congr 1
      omega
  have hslice : record D' d i = record D d (if i < k then i else i + 1) := by
    exact List.map_congr_left fun y hy => hbyte y (List.mem_range.mp hy)
  rw [hslice]
  split_ifs
  · rfl
  · rfl

section Remove

variable {u : Vfs} {p : Vinode} {m : ℕ}

def Vinode.shrunk (p : Vinode) (n : ℕ) : Vinode := { p with size := 32 * (n - 1 : ℕ), blocks := dirBlocks (n - 1) }

structure Removed (v : ℕ) (p : Vinode) (n k m : ℕ) (u t : Vfs) : Prop where
  vinode : t.vinode = update u.vinode v (some (p.shrunk n))
  disk : ∃ D', (∀ x < 32 * (n - 1), stream D' p.toDinode x = erased u.disk p.toDinode k x) ∧
    (∀ b < 12, D' b = u.disk b) ∧ t.disk = setDnode D' m (p.shrunk n).toDinode
  dropped : dirBlocks (n - 1) < dirBlocks n → t.freemap (p.block (dirBlocks n - 1) - 12) = 0

lemma dirBlocks_pred (hn : 0 < n) :
    dirBlocks (n - 1) = if (n - 1) % 128 = 0 ∧ 1 < dirBlocks n then dirBlocks n - 1 else dirBlocks n := by
  unfold dirBlocks
  split_ifs <;> omega

lemma storeBack_yields {w : Vfs} {q : Vinode} (hi : q.inum = m) (hm : m < ninodes) :
    yields (do setVinode v q; rfsWriteBackVinode v) (fun _ t => t.vinode = update w.vinode v (some q) ∧
      t.disk = setDnode w.disk m q.toDinode ∧ t.freemap = w.freemap) w := by
  obtain ⟨io, hio⟩ := rfsWriteBackVinode_eq (s := { w with vinode := update w.vinode v (some q) }) (update_self v _ _) hi hm
  exact yields_bind_done setVinode_eq (yields_done hio ⟨rfl, rfl, rfl⟩)

lemma shrink_yields {w : Vfs} (h : Dense p.toDinode n) (hn : 0 < n) (hi : p.inum = m) (hm : m < ninodes) :
    yields (do
      if (totalDirentrys p.size - 1) % oneBlockDirentrys = 0 ∧ 1 < p.blocks then do
        rfsFreeBlock (p.block (dirBlocks n - 1))
        setVinode v { p with blocks := p.blocks - 1, size := p.size - direntrySize }
        rfsWriteBackVinode v
      else do
        setVinode v { p with size := p.size - direntrySize }
        rfsWriteBackVinode v)
      (fun _ t => t.vinode = update w.vinode v (some (p.shrunk n)) ∧ t.disk = setDnode w.disk m (p.shrunk n).toDinode ∧
        (dirBlocks (n - 1) < dirBlocks n → t.freemap (p.block (dirBlocks n - 1) - 12) = 0)) w := by
  have hpos : 1 ≤ dirBlocks n := le_max_left _ _
  have hblocks : p.blocks = dirBlocks n := h.blocks
  have hsize : p.size - direntrySize = 32 * (n - 1 : ℕ) := by
    have hold : p.size = 32 * n := h.size
    rw [hold]
    change 32 * (n : ℤ) - 32 = _
    omega
  have hpred := dirBlocks_pred hn
  rw [totalDirentrys_eq h.size]
  by_cases hcond : (n - 1) % 128 = 0 ∧ 1 < dirBlocks n
  · have hshrunk : { p with blocks := p.blocks - 1, size := p.size - direntrySize } = p.shrunk n := by
      rw [hsize, Vinode.shrunk, hpred, if_pos hcond, hblocks, Nat.cast_sub hpos]
      rfl
    have hdata := (h.block_range (j := dirBlocks n - 1) (by omega)).1
    have hblock : ((p.block (dirBlocks n - 1) : ℕ) : ℤ) = ((12 + (p.block (dirBlocks n - 1) - 12) : ℕ) : ℤ) := by omega
    rw [if_pos ⟨hcond.1, by omega⟩, hblock, hshrunk]
    refine yields_bind_done rfsFreeBlock_eq (yields_mono (storeBack_yields hi hm) ?_)
    rintro _ t ⟨hvinode, hdisk, hmap⟩
    exact ⟨hvinode, hdisk, fun _ => (congrFun hmap _).trans (update_self _ _ _)⟩
  · have hshrunk : { p with size := p.size - direntrySize } = p.shrunk n := by
      rw [hsize, Vinode.shrunk, hpred, if_neg hcond, ← hblocks]
    rw [if_neg (fun hc => hcond ⟨hc.1, by omega⟩), hshrunk]
    refine yields_mono (storeBack_yields hi hm) ?_
    rintro _ t ⟨hvinode, hdisk, -⟩
    exact ⟨hvinode, hdisk, fun hlt => absurd hlt (by rw [hpred, if_neg hcond]; exact lt_irrefl _)⟩

lemma removeDirentry_removed (hv : u.vinode v = some p) (h : Dense p.toDinode n) (hk : k < n) (hi : p.inum = m)
    (hm : m < ninodes) : yields (removeDirentry v k) (fun _ t => Removed v p n k m u t) u := by
  have hpos : 1 ≤ dirBlocks n := le_max_left _ _
  have hq : k / 128 < dirBlocks n := Dense.index_lt hk
  have hdrop : (List.range p.blocks.toNat).drop (k / oneBlockDirentrys + 1) =
      List.range' (k / 128 + 1) (dirBlocks n - (k / 128 + 1)) := by
    rw [h.blocks, Int.toNat_natCast, List.range_eq_range', List.drop_range']
    simp
  have hend (w : Vfs) : addrAt p.addrs (p.blocks - 1) w = .done (p.block (dirBlocks n - 1) : ℤ) w := by
    have hlast : p.blocks - 1 = ((dirBlocks n - 1 : ℕ) : ℤ) := by
      rw [h.blocks]
      omega
    rw [hlast]
    exact h.addr (by omega)
  have hfull : 32 * (n - 1) ≤ 4096 * dirBlocks n - 32 := by
    rw [dirBlocks]
    omega
  have hothers : ∀ b < 12, ∀ i < dirBlocks n, b ≠ p.block i := fun b hb i hi he => by
    have := (h.block_range hi).1
    omega
  obtain ⟨last, D', io', hshift, hmoved⟩ := shiftBlocks_eq (s := u) (D := u.disk) (k := k) (c := dirBlocks n - (k / 128 + 1)) h
    (overlay (u.disk (p.block (k / 128))) u.iobuffer) le_rfl (by omega) (Moved.start u.iobuffer)
  refine yields_bind_done (getVinode_eq hv) (yields_bind_done (h.addr hq)
    (yields_bind_done (rfsR1block_eq (h.block_range hq).2) (yields_get_bind ?_)))
  rw [hdrop]
  refine yields_bind_done hshift (yields_modify_bind ?_)
  refine yields_bind_done (hend _) (yields_bind_done (rfsW1block_eq (h.block_range (by omega)).2) ?_)
  refine yields_mono (shrink_yields h (by omega) hi hm) ?_
  rintro _ t ⟨hvinode, hdisk, hdropped⟩
  refine ⟨hvinode, ⟨_, fun x hx => hmoved.finish h io' x (hx.trans_le hfull), fun b hb => ?_, hdisk⟩, hdropped⟩
  rw [update_of_ne (hothers b hb _ (by omega)), hmoved.others b (hothers b hb)]

structure Unlinked (node q : ℕ) (s t : Vfs) : Prop where
  disk : ∃ d', t.disk = setDnode s.disk q d'
  vinode : ∃ i l, s.vinode node = some i ∧ t.vinode = update s.vinode node (some { i with nlinks := l })

def FreemapOnly (s t : Vfs) : Prop := t.disk = s.disk ∧ t.vinode = s.vinode

lemma FreemapOnly.refl (s : Vfs) : FreemapOnly s s := ⟨rfl, rfl⟩

lemma FreemapOnly.trans (s t u : Vfs) (h : FreemapOnly s t) (h' : FreemapOnly t u) : FreemapOnly s u :=
  ⟨h'.1.trans h.1, h'.2.trans h.2⟩

lemma freeBlocks_carries (addrs : Fin 10 → ℤ) (l : List ℕ) :
    Carries FreemapOnly (each (fun k : ℕ => do rfsFreeBlock (← addrAt addrs k)) l) := by
  refine .each_mem .refl .trans fun k _ => .bind .trans ?_ fun _ => .ite .undef (.modify fun _ => ⟨rfl, rfl⟩)
  unfold addrAt
  split_ifs
  · exact .pure .refl _
  · exact .undef

lemma dropLink_unlinked {node q : ℕ} (hq : q < ninodes) : yields (dropLink node q) (fun _ t => Unlinked node q s t) s := by
  obtain ⟨io, hread⟩ := rfsReadDinode_eq (s := s) hq
  refine yields_bind_done hread (yields_bind (yields_mono getVinode_yields ?_))
  rintro i w ⟨hi, rfl⟩
  have hwrite {d' : Dinode} {x : Vfs}
      (hx : FreemapOnly { s with vinode := update s.vinode node (some { i with nlinks := i.nlinks - 1 }), iobuffer := io } x) :
      yields (rfsWriteDinode d' q) (fun _ t => Unlinked node q s t) x := by
    obtain ⟨io', hdone⟩ := rfsWriteDinode_eq (s := x) (d := d') hq
    exact yields_done hdone ⟨⟨d', by rw [← hx.1]⟩, i, i.nlinks - 1, hi, hx.2⟩
  split_ifs
  · exact yields_halt
  · refine yields_bind_done setVinode_eq (yields_bind ?_)
    exact yields_mono (freeBlocks_carries _ _ _) fun _ x hx => hwrite hx
  · exact yields_bind_done setVinode_eq (hwrite (.refl _))

lemma Dense.congr {d' : Dinode} (h : Dense d n) (hsize : d'.size = d.size) (hblocks : d'.blocks = d.blocks)
    (haddrs : ∀ i : Fin 10, (i : ℕ) < dirBlocks n → d'.addrs i = d.addrs i) : Dense d' n := by
  refine ⟨hsize.trans h.size, hblocks.trans h.blocks, h.few, fun i hi => by rw [haddrs i hi]; exact h.data i hi, fun i i' hi hi' he => ?_⟩
  rw [haddrs i hi, haddrs i' hi'] at he
  exact h.distinct i i' hi hi' he

lemma dirBlocks_mono {n' : ℕ} (h : n' ≤ n) : dirBlocks n' ≤ dirBlocks n := by
  unfold dirBlocks
  omega

lemma Dense.shrunk (h : Dense p.toDinode n) : Dense (p.shrunk n).toDinode (n - 1) := by
  have hle : dirBlocks (n - 1) ≤ dirBlocks n := dirBlocks_mono (Nat.sub_le n 1)
  exact ⟨rfl, rfl, hle.trans h.few, fun i hi => h.data i (hi.trans_le hle),
    fun i i' hi hi' he => h.distinct i i' (hi.trans_le hle) (hi'.trans_le hle) he⟩

lemma Dense.stored (h : Dense d n) : Dense (dnode (setDnode D m d) m) n ∧
    ∀ j < dirBlocks n, (dnode (setDnode D m d) m).block j = d.block j := by
  have hsize := h.size
  have hblocks := h.blocks
  have hfew := h.few
  have hn : n ≤ 1280 := by
    unfold dirBlocks at hfew
    omega
  have haddrs : ∀ i : Fin 10, (i : ℕ) < dirBlocks n → (dnode (setDnode D m d) m).addrs i = d.addrs i := by
    intro i hi
    obtain ⟨hlo, hhi⟩ := h.data i hi
    have hword : d.word (i + 4) = d.addrs i := by rw [Dinode.word, dif_pos i.isLt]
    have hback : (dnode (setDnode D m d) m).word (i + 4) = d.word (i + 4) :=
      dnode_setDnode_word (by omega) (by rw [hword]; omega)
    rwa [hword, Dinode.word, dif_pos i.isLt] at hback
  refine ⟨h.congr ?_ ?_ haddrs, fun j hj => ?_⟩
  · exact dnode_setDnode_word (k := 0) (by norm_num) (by change -2 ^ 31 ≤ d.size ∧ d.size < 2 ^ 31; omega)
  · exact dnode_setDnode_word (k := 3) (by norm_num) (by change -2 ^ 31 ≤ d.blocks ∧ d.blocks < 2 ^ 31; omega)
  · have hj' : j < 10 := hj.trans_le h.few
    rw [Dinode.block, Dinode.block, dif_pos hj', dif_pos hj', haddrs ⟨j, hj'⟩ hj]

lemma records_congr {d' : Dinode} (h : ∀ x < 32 * n, stream D' d' x = stream D d x) : records D' d' n = records D d n := by
  apply List.map_congr_left
  intro i hi
  rw [List.mem_range] at hi
  exact List.map_congr_left fun y hy => h _ (by have := List.mem_range.mp hy; omega)

lemma stream_congr (h : Dense d n) (hD : ∀ b, 12 ≤ b → D' b = D b) : ∀ x < 32 * n, stream D' d x = stream D d x := by
  intro x hx
  have hindex : x / 4096 < dirBlocks n := by
    rw [dirBlocks]
    omega
  rw [stream, stream, hD _ (h.block_range hindex).1]

lemma recordInum_eq (hk : recordInum s.disk d k = z) : direntryInum (atEntry s d k).iobuffer k = z := by
  rw [← hk]
  apply load32_congr
  intro y hy
  have hx : 32 * k + y = 4096 * (k / 128) + (k % 128 * 32 + y) := by omega
  have hin : k % 128 * 32 + y < 4096 := by omega
  rw [hx, stream_block _ _ hin]
  exact overlay_apply hin

structure EntryGone (s : Vfs) (p : Vinode) (n k q m : ℕ) (t : Vfs) (p' : Vinode) : Prop where
  size : p'.size = p.size - 32
  dense : Dense p'.toDinode (n - 1)
  entries : records t.disk p'.toDinode (n - 1) = (records s.disk p.toDinode n).eraseIdx k
  stored : Dense (dnode t.disk m) (n - 1)
  storedEntries : records t.disk (dnode t.disk m) (n - 1) = (records s.disk p.toDinode n).eraseIdx k
  dropped : p'.blocks < p.blocks → t.freemap (p.block (dirBlocks n - 1) - 12) = 0
  inodes : ∀ r < ninodes, r ≠ q → r ≠ m → dnode t.disk r = dnode s.disk r

lemma Removed.entryGone {q : ℕ} {d' : Dinode} (h : Dense p.toDinode n) (hk : k < n) (hm : m < ninodes) (hq : q < ninodes)
    (hdisk : u.disk = setDnode s.disk q d') (hr : Removed v p n k m u t) : EntryGone s p n k q m t (p.shrunk n) := by
  obtain ⟨D', hmoved, hlow, ht⟩ := hr.disk
  have hdata : ∀ b, 12 ≤ b → t.disk b = D' b := fun b hb => by rw [ht, setDnode_block hm (by omega)]
  have hold : ∀ x < 32 * n, stream u.disk p.toDinode x = stream s.disk p.toDinode x :=
    stream_congr h fun b hb => by rw [hdisk, setDnode_block hq (by omega)]
  have hnew : ∀ x < 32 * (n - 1), stream t.disk (p.shrunk n).toDinode x = erased s.disk p.toDinode k x := by
    intro x hx
    rw [stream_congr h.shrunk hdata x hx]
    refine (hmoved x hx).trans ?_
    rw [erased, erased]
    split_ifs
    · exact hold x (by omega)
    · exact hold _ (by omega)
  have hentries : records t.disk (p.shrunk n).toDinode (n - 1) = (records s.disk p.toDinode n).eraseIdx k :=
    records_erased (d := p.toDinode) hk hnew
  obtain ⟨hstored, hblock⟩ := h.shrunk.stored (D := D') (m := m)
  rw [← ht] at hstored hblock
  refine ⟨?_, h.shrunk, hentries, hstored, ?_, fun hlt => hr.dropped ?_, fun r hrn hrq hrm => ?_⟩
  · have hsize : p.size = 32 * n := h.size
    change 32 * ((n - 1 : ℕ) : ℤ) = p.size - 32
    omega
  · rw [← hentries]
    refine records_congr fun x hx => ?_
    rw [stream, stream, hblock]
    rw [dirBlocks]
    omega
  · have hblocks : p.blocks = dirBlocks n := h.blocks
    change (dirBlocks (n - 1) : ℤ) < p.blocks at hlt
    omega
  · have hblk : r / 32 + 1 < 12 := by
      change r < 320 at hrn
      omega
    rw [ht, dnode_setDnode_of_ne hrm, dnode, hlow _ hblk, hdisk]
    exact dnode_setDnode_of_ne hrq

end Remove

/-- `rfs_unlink` removes the first entry with the name from a directory of any number of blocks. -/
theorem unlink_removes_first {parent node q m : ℕ} {p : Vinode} (hp : s.vinode parent = some p) (h : Dense p.toDinode n)
    (hi : p.inum = m) (hm : m < ninodes) (hk : k < n) (hfirst : ∀ x < k, ¬ EntryNamed s p.toDinode x nm)
    (hname : EntryNamed s p.toDinode k nm) (hinum : recordInum s.disk p.toDinode k = q) (hq : q < ninodes)
    (hret : rfsUnlink parent nm node s = .done 0 t) : ∃ p', t.vinode parent = some p' ∧ EntryGone s p n k q m t p' := by
  suffices hall : yields (rfsUnlink parent nm node) (fun _ t => ∃ p', t.vinode parent = some p' ∧ EntryGone s p n k q m t p') s from
    hall 0 t hret
  have hfind : findDirentry p.addrs nm (List.range n) s = .done (some k) (atEntry s p.toDinode k) := by
    rw [List.range_eq_range']
    exact findDirentry_first h hk hname (Nat.zero_le k) (by omega) (fun x _ hx => hfirst x hx) ⟨fun _ => rfl, .inl rfl⟩
  refine yields_bind_done (getVinode_eq hp) ?_
  rw [totalDirentrys_eq h.size, if_neg (by omega)]
  refine yields_bind_done hfind (yields_get_bind ?_)
  rw [recordInum_eq hinum]
  refine yields_bind (yields_mono (dropLink_unlinked hq) fun _ u hu => ?_)
  obtain ⟨⟨d', hdisk⟩, i, l, hnode, hvinode⟩ := hu
  obtain ⟨l', hparent⟩ : ∃ l', u.vinode parent = some { p with nlinks := l' } := by
    rw [hvinode]
    by_cases he : parent = node
    · subst he
      obtain rfl : i = p := Option.some.inj (hnode.symm.trans hp)
      exact ⟨l, update_self _ _ _⟩
    · exact ⟨p.nlinks, by rw [update_of_ne he]; exact hp⟩
  have h' : Dense ({ p with nlinks := l' } : Vinode).toDinode n := h.congr rfl rfl fun _ _ => rfl
  refine yields_bind (yields_mono (removeDirentry_removed hparent h' hk hi hm) fun _ w hw => yields_pure ?_)
  have hgone := hw.entryGone h' hk hm hq hdisk
  exact ⟨_, by rw [hw.vinode, update_self], hgone.size, hgone.dense, hgone.entries, hgone.stored, hgone.storedEntries,
    hgone.dropped, hgone.inodes⟩

def twoBlocks : Vfs := { blank with
  disk := fun b x => if b = 1 ∧ x = 136 ∨ b = 12 ∧ x = 0 then 1 else if b = 12 ∧ x = 4 then 97 else 0
  vinode := fun v =>
    if v = 0 then some ⟨⟨4128, dirI, 1, 2, fun i => if i = 0 then 12 else if i = 1 then 13 else 0⟩, 0, 1, .null, .rfs⟩
    else if v = 1 then some ⟨⟨0, fileI, 1, 0, fun _ => 0⟩, 1, 1, .null, .rfs⟩ else none }

theorem unlink_removes_first_of_two_blocks : ∃ p t p', twoBlocks.vinode 0 = some p ∧ p.blocks = 2 ∧ t.vinode 0 = some p' ∧
    EntryGone twoBlocks p 129 0 1 0 t p' := by
  have hrun : (rfsUnlink 0 [97] 1 twoBlocks).ends (fun r _ => decide (r = 0)) = true := by decide +kernel
  obtain ⟨r, t, ht, hr⟩ := Outcome.ends_done hrun
  obtain rfl : r = 0 := of_decide_eq_true hr
  have hdense : Dense ⟨4128, dirI, 1, 2, fun i => if i = 0 then 12 else if i = 1 then 13 else 0⟩ 129 :=
    ⟨rfl, rfl, by decide, by decide, by decide⟩
  have hname : EntryNamed twoBlocks ⟨4128, dirI, 1, 2, fun i => if i = 0 then 12 else if i = 1 then 13 else 0⟩ 0 [97] := by
    unfold EntryNamed
    decide
  obtain ⟨p', hp', hgone⟩ := unlink_removes_first (k := 0) (m := 0) (q := 1) rfl hdense rfl (by decide) (by decide)
    (fun x hx => absurd hx (Nat.not_lt_zero x)) hname (by decide) (by decide) ht
  exact ⟨_, t, p', rfl, rfl, hp', hgone⟩

end Pke.Files
