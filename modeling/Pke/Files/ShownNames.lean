import Pke.Files.Shown

namespace Pke.Files

open Lib Flow Function

namespace Shows

variable {s : Vfs} {h : ℕ → Option ℕ} {V : Vol} {d k v w : ℕ} {nm : Name}

structure Made (s : Vfs) (h : ℕ → Option ℕ) (V : Vol) (d : ℕ) (nm : Name) (type : ℤ) (t : Vfs) (k : ℕ) (new : Dinode)
    (b : ℤ) : Prop where
  lt : k < ninodes
  free : (V.node k).type = rFree
  fresh : Vol.Fresh new b
  type : new.type = type
  unused : b ∉ V.used
  range : b ∈ Set.Ico (12 : ℤ) 112
  shows' : Shows t (update h k (some s.next)) (V.append d nm k new (insert b V.used))
  vinode : t.vinode s.next = some ⟨new, k, 0, .null, .rfs⟩
  others : ∀ x > s.next, t.vinode x = s.vinode x
  same : SameCaches s t
  next : t.next = s.next + 1

def fresh (d : Dinode) (type blocks : ℤ) (b : ℕ) : Dinode := ⟨0, type, 1, blocks, update d.addrs 0 (12 + b : ℕ)⟩

lemma fresh_block {c : Dinode} {type blocks : ℤ} {b : ℕ} : (fresh c type blocks b).addrs 0 = (12 + b : ℕ) := by
  simp [fresh]

lemma fresh_fits {c : Dinode} (hc : c.Fits) {type blocks : ℤ}
    (hkind : type = fileI ∧ blocks = 0 ∨ type = dirI ∧ blocks = 1) {b : ℕ} (hb : b < 100) :
    (fresh c type blocks b).Fits := by
  apply Dinode.fits_of
  · norm_num [fresh]
  · change -2 ^ 31 ≤ type ∧ type < 2 ^ 31
    rcases hkind with ⟨rfl, -⟩ | ⟨rfl, -⟩ <;> norm_num
  · norm_num [fresh]
  · change -2 ^ 31 ≤ blocks ∧ blocks < 2 ^ 31
    rcases hkind with ⟨-, rfl⟩ | ⟨-, rfl⟩ <;> norm_num
  · intro j
    change -2 ^ 31 ≤ update c.addrs 0 ((12 + b : ℕ) : ℤ) j ∧ update c.addrs 0 ((12 + b : ℕ) : ℤ) j < 2 ^ 31
    by_cases hj : j = 0
    · rw [hj, update_self]
      norm_num
      omega
    · rw [update_of_ne hj]
      exact hc.addrs j

lemma node_fits (hs : Shows s h V) {n : ℕ} (hn : n < ninodes) : (V.node n).Fits := by
  rw [← hs.node n hn]
  exact dnode_fits _ _

lemma made_of (hs : Shows s h V) (hV : V.Ok) (hd : V.IsDir d) (hv : h d = some v) {i : Vinode} (hi : s.vinode v = some i)
    (hlen : (V.dir d).length < 128) (hnm : nm.length < 28) (hz : (0 : UInt8) ∉ nm) (hlow : v < s.next)
    (hold : ∀ n x, h n = some x → x < s.next) {blk b : ℕ} (hblk : (V.node d).addrs 0 = blk) (hge : 12 ≤ blk)
    (hk : k < ninodes) (hfree : (V.node k).type = rFree) (hb : b < 100) (hbz : s.freemap b = 0) {type blocks : ℤ}
    (hkind : type = fileI ∧ blocks = 0 ∨ type = dirI ∧ blocks = 1) (io : ℕ → UInt8) (W : ℕ → Option Vinode)
    (hW : W = update (update s.vinode s.next (some ⟨fresh (V.node k) type blocks b, k, 0, .null, .rfs⟩)) v
      (some { i with size := 32 * ((V.dir d).length + 1 : ℕ) })) :
    Made s h V d nm type { s with
      disk := setDnode (update (setDnode s.disk k (fresh (V.node k) type blocks b)) blk
        (putDirentry (s.disk blk) ((V.dir d).length * 32) nm k)) d
        { V.node d with size := 32 * ((V.dir d).length + 1 : ℕ) }
      freemap := update s.freemap b 1, vinode := W, next := s.next + 1, iobuffer := io } k
      (fresh (V.node k) type blocks b) (12 + b : ℕ) := by
  have htype : (V.node k).type ≠ dirI := by rw [hfree]; decide
  have hne : d ≠ k := by
    rintro rfl
    exact htype hd.2
  have hvn : v ≠ s.next := by omega
  have hfits := fresh_fits (hs.node_fits hk) hkind hb
  have hsize : -2 ^ 31 ≤ 32 * (((V.dir d).length + 1 : ℕ) : ℤ) ∧ 32 * (((V.dir d).length + 1 : ℕ) : ℤ) < 2 ^ 31 := by
    norm_num
    omega
  have hki : -2 ^ 31 ≤ (k : ℤ) ∧ (k : ℤ) < 2 ^ 31 := by
    change k < 320 at hk
    norm_num
    omega
  have hinode : i.toDinode = V.node d := by
    obtain ⟨i', hi', -, -, hnode⟩ := hs.dir_vinode hV hd hv
    rw [hi, Option.some.injEq] at hi'
    rw [hi', hnode]
  have hunused : ((12 + b : ℕ) : ℤ) ∉ V.used := fun hin => ((hs.used b).mp hin).2 hbz
  have hlength : (V.dir d ++ [(nm, (k : ℤ))]).length = (V.dir d).length + 1 := by
    rw [List.length_append, List.length_singleton]
  refine ⟨hk, hfree, ⟨rfl, rfl, hkind, fresh_block⟩, rfl, hunused, ⟨by omega, by omega⟩, ?_, ?_, ?_, ?_, rfl⟩
  · refine hs.relist hV hd hv hi hk htype hblk ?_ ?_ ?_ ?_ ?_ ?_ ?_ ?_ ?_
      (.inr ⟨s.next, ⟨fresh (V.node k) type blocks b, k, 0, .null, .rfs⟩, rfl, rfl, ?_⟩)
    · rw [hlength]
      change direntrys (setDnode _ d _ blk) _ = _
      rw [setDnode_block hd.1 (by omega), update_self, direntrys_putDirentry hnm hz hki, hs.dir_entries hd hblk]
    · intro b' hb' hne'
      change setDnode _ d _ b' = _
      rw [setDnode_block hd.1 (by omega), update_of_ne hne', setDnode_block hk (by omega)]
    · rw [hlength]
      exact dnode_setDnode ((hs.node_fits hd.1).withSize hsize)
    · change dnode (setDnode _ d _) k = _
      rw [dnode_setDnode_of_ne hne.symm, dnode_update_block hk (by omega), dnode_setDnode hfits]
    · intro n hn hnd hnk
      change dnode (setDnode _ d _) n = _
      rw [dnode_setDnode_of_ne hnd, dnode_update_block hn (by omega), dnode_setDnode_of_ne hnk]
    · intro b'
      change _ ↔ b' < 100 ∧ update s.freemap b 1 b' ≠ 0
      by_cases hbb : b' = b
      · subst hbb
        rw [update_self]
        exact iff_of_true (Set.mem_insert _ _) ⟨hb, one_ne_zero⟩
      · rw [update_of_ne hbb, ← hs.used b', Set.mem_insert_iff]
        exact or_iff_right fun e => hbb (by omega)
    · exact hs.nblocks
    · rw [hlength]
      change W v = _
      rw [hW, update_self, Vol.withLength, ← hinode]
    · intro n x hnd hnk hx
      change W x = _
      have hxv : x ≠ v := by
        rintro rfl
        exact hnd (hs.held_inj hx hv)
      have hxn := hold n x hx
      rw [hW, update_of_ne hxv, update_of_ne (by omega)]
    · refine ⟨?_, rfl, rfl, hfits⟩
      change W s.next = _
      rw [hW, update_of_ne hvn.symm, update_self]
  · change W s.next = _
    rw [hW, update_of_ne hvn.symm, update_self]
  · intro x hx
    change W x = _
    rw [hW, update_of_ne (by omega), update_of_ne (by omega)]
  · refine ⟨rfl, rfl, rfl, rfl, rfl, rfl, ?_⟩
    intro x hx
    change (W x).map _ = _
    by_cases hxv : x = v
    · subst hxv
      rw [hW, update_self, hi]
      rfl
    · rw [hW, update_of_ne hxv, update_of_ne (by omega)]

lemma add {t : Vfs} (hV : V.Ok) (hd : V.IsDir d) (hlen : (V.dir d).length < 128) (hnm : nm.length < 28) (hk : k < ninodes) {i : Vinode} (hi : t.vinode v = some i) (hin : i.inum = d)
    (hnode : i.toDinode = V.node d) {blk : ℕ} (hblk : (V.node d).addrs 0 = blk) (hge : 12 ≤ blk) (hlt : blk < 112)
    {new : Dinode} (hdisk : t.disk = setDnode s.disk k new) : ∃ io, rfsAddDirentry v nm k t = .done 0 { t with
      disk := setDnode (update (setDnode s.disk k new) blk (putDirentry (s.disk blk) ((V.dir d).length * 32) nm k)) d
        { V.node d with size := 32 * ((V.dir d).length + 1 : ℕ) }
      vinode := update t.vinode v (some { i with size := 32 * ((V.dir d).length + 1 : ℕ) }), iobuffer := io } := by
  obtain ⟨-, -, hsize, -⟩ := hV.tree.isDir d hd
  have htype : i.type = dirI := by rw [hnode]; exact hd.2
  have hsize' : i.size = 32 * ((V.dir d).length : ℤ) := by rw [hnode, hsize]
  have haddr : i.addrs 0 = blk := by rw [hnode, hblk]
  have hend : (V.dir d).length * 32 + 4 + nm.length < 4096 := by omega
  obtain ⟨io, hio⟩ := rfsAddDirentry_eq (z := (k : ℤ)) hi htype hsize' hend haddr (by omega) hin hd.1
  refine ⟨io, ?_⟩
  rw [hio, hdisk, setDnode_block hk (by omega), hnode]

section Make

variable (hs : Shows s h V) (hV : V.Ok) (hd : V.IsDir d) (hv : h d = some v) (hlen : (V.dir d).length < 128)
  (hnm : nm.length < 28) (hz : (0 : UInt8) ∉ nm) (hold : ∀ n x, h n = some x → x < s.next)
include hs hV hd hv

lemma take {type blocks : ℤ} : (∃ io, takeDinode type blocks s = .left { s with iobuffer := io }) ∨
    ∃ k < ninodes, (V.node k).type = rFree ∧ k ≠ d ∧ ∃ b < 100, s.freemap b = 0 ∧ ∃ io,
      takeDinode type blocks s = .done (k : ℤ) { s with
        disk := setDnode s.disk k (fresh (V.node k) type blocks b), freemap := update s.freemap b 1, iobuffer := io } := by
  obtain ⟨n, hn, hnf⟩ := hV.exists_free
  rcases takeDinode_eq hs.nblocks ⟨n, hn, by rw [hs.node n hn, hnf]⟩ with
    hleft | ⟨k, hk, hkf, b, hb, hbz, io, hdone⟩
  · exact .inl hleft
  · rw [hs.node k hk] at hkf hdone
    refine .inr ⟨k, hk, hkf, ?_, b, hb, hbz, io, hdone⟩
    rintro rfl
    exact absurd (hkf.symm.trans hd.2) (by decide)

include hlen hnm hz hold

lemma create : (∃ io, rfsCreate v nm s = .left { s with iobuffer := io }) ∨
    ∃ t k new b, rfsCreate v nm s = .done (some s.next) t ∧ Made s h V d nm fileI t k new b := by
  obtain ⟨i, hi, hin, -, hnode⟩ := hs.dir_vinode hV hd hv
  obtain ⟨blk, hblk, hge, hlt, -⟩ := dir_block hV hd
  have hlow := hold d v hv
  rcases hs.take hV hd hv with ⟨io, hleft⟩ | ⟨k, hk, hkf, hkd, b, hb, hbz, io, hdone⟩
  · left
    refine ⟨io, ?_⟩
    rw [rfsCreate]
    change andThen _ _ _ = _
    rw [andThen, hleft]
  · right
    obtain ⟨io₁, h₁⟩ := alloc_and_update (n := k) (s := { s with
      disk := setDnode s.disk k (fresh (V.node k) fileI 0 b), freemap := update s.freemap b 1, iobuffer := io }) hk
    have hread : dnode (setDnode s.disk k (fresh (V.node k) fileI 0 b)) k = fresh (V.node k) fileI 0 b :=
      dnode_setDnode (fresh_fits (hs.node_fits hk) (.inl ⟨rfl, rfl⟩) hb)
    obtain ⟨io₂, h₂⟩ := add (s := s) hV hd hlen hnm (t := { s with
      disk := setDnode s.disk k (fresh (V.node k) fileI 0 b), freemap := update s.freemap b 1, iobuffer := io₁
      vinode := update s.vinode s.next (some ⟨fresh (V.node k) fileI 0 b, k, 0, .null, .rfs⟩), next := s.next + 1 })
      hk (by rw [← hi]; exact update_of_ne (by omega) _ _) hin hnode hblk hge hlt rfl
    refine ⟨_, k, fresh (V.node k) fileI 0 b, ((12 + b : ℕ) : ℤ), ?_,
      hs.made_of hV hd hv hi hlen hnm hz hlow hold hblk hge hk hkf hb hbz (.inl ⟨rfl, rfl⟩) io₂ _ rfl⟩
    rw [rfsCreate, bind_done hdone, h₁, hread, bind_done h₂]
    rfl

lemma mkdir : (∃ io, rfsMkdir v nm s = .left { s with iobuffer := io }) ∨
    ∃ t k new b, rfsMkdir v nm s = .done (some s.next) t ∧ Made s h V d nm dirI t k new b := by
  obtain ⟨i, hi, hin, -, hnode⟩ := hs.dir_vinode hV hd hv
  obtain ⟨blk, hblk, hge, hlt, -⟩ := dir_block hV hd
  have hlow := hold d v hv
  rcases hs.take hV hd hv with ⟨io, hleft⟩ | ⟨k, hk, hkf, hkd, b, hb, hbz, io, hdone⟩
  · left
    refine ⟨io, ?_⟩
    rw [rfsMkdir]
    change andThen _ _ _ = _
    rw [andThen, hleft]
  · right
    obtain ⟨io₁, h₁⟩ := add (s := s) hV hd hlen hnm (t := { s with
      disk := setDnode s.disk k (fresh (V.node k) dirI 1 b), freemap := update s.freemap b 1, iobuffer := io })
      hk hi hin hnode hblk hge hlt rfl
    obtain ⟨io₂, h₂⟩ := alloc_and_update (n := k) (s := { s with
      disk := setDnode (update (setDnode s.disk k (fresh (V.node k) dirI 1 b)) blk
        (putDirentry (s.disk blk) ((V.dir d).length * 32) nm k)) d { V.node d with size := 32 * ((V.dir d).length + 1 : ℕ) }
      freemap := update s.freemap b 1, iobuffer := io₁
      vinode := update s.vinode v (some { i with size := 32 * ((V.dir d).length + 1 : ℕ) }) }) hk
    have hread : dnode (setDnode (update (setDnode s.disk k (fresh (V.node k) dirI 1 b)) blk
        (putDirentry (s.disk blk) ((V.dir d).length * 32) nm k)) d
        { V.node d with size := 32 * ((V.dir d).length + 1 : ℕ) }) k = fresh (V.node k) dirI 1 b := by
      rw [dnode_setDnode_of_ne hkd, dnode_update_block hk (by omega)]
      exact dnode_setDnode (fresh_fits (hs.node_fits hk) (.inr ⟨rfl, rfl⟩) hb)
    refine ⟨_, k, fresh (V.node k) dirI 1 b, ((12 + b : ℕ) : ℤ), ?_,
      hs.made_of hV hd hv hi hlen hnm hz hlow hold hblk hge hk hkf hb hbz (.inr ⟨rfl, rfl⟩) io₂ _
        (update_comm (by omega : v ≠ s.next) _ _ _)⟩
    rw [rfsMkdir, bind_done hdone, bind_done h₁, if_neg (by decide), h₂, hread]
    rfl

end Make

end Shows

end Pke.Files
