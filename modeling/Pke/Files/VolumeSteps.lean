import Pke.Files.Volume

namespace Pke.Files

open Lib Function

namespace Vol

variable {V W : Vol} {n m d i j k : ℕ} {c : Dinode} {nm : Name} {b : ℤ}

lemma count_of_ne (h : (V.node d).type ≠ dirI) : V.count n d = 0 := if_neg h

lemma count_of_dir (h : (V.node d).type = dirI) :
    V.count n d = (V.dir d).countP (fun e : Name × ℤ => e.2 = (n : ℤ)) := if_pos h

lemma Ok.recache (h : V.Ok) (htree : W.Tree) (hlive : W.live ⊆ V.live) (hcur : ∀ n ∈ W.live, W.cur n = V.cur n)
    (hused : W.used = V.used) : W.Ok where
  tree := htree
  blocks := by
    rw [hused]
    refine h.blocks.congr hlive ?_
    rintro n i b ⟨hn, hi, hb⟩
    rw [hcur n hn] at hi hb
    exact ⟨hlive hn, hi, hb⟩
  range := by
    rw [hused]
    exact h.range

def load (V : Vol) (n : ℕ) : Vol := { V with cached := update V.cached n (some (V.node n)) }

lemma load_cached : (V.load n).cached = update V.cached n (some (V.node n)) := rfl

lemma cur_load (hc : V.cached n = none) (m : ℕ) : (V.load n).cur m = V.cur m := by
  by_cases hm : m = n
  · subst hm
    rw [cur_uncached hc, cur, load_cached, update_self]
    rfl
  · rw [cur, cur, load_cached, update_of_ne hm]
    rfl

lemma Ok.load (h : V.Ok) (hn : n ∈ V.live) (hc : V.cached n = none) : (V.load n).Ok := by
  refine h.recache ?_ le_rfl (fun m _ => cur_load hc m) rfl
  refine h.tree.reshape (fun _ _ => rfl) (fun _ _ => ⟨rfl, rfl⟩) (fun m hm => ⟨rfl, h.tree.bounds m hm⟩) ?_
  intro m c' hm
  by_cases hmn : m = n
  · subst hmn
    rw [load_cached, update_self, Option.some.injEq] at hm
    subst hm
    exact ⟨hn, h.tree.ahead_self hn⟩
  · rw [load_cached, update_of_ne hmn] at hm
    exact h.tree.cached m c' hm

def sync (V : Vol) (n : ℕ) (o : Option Dinode) : Vol :=
  { V with node := update V.node n (V.cur n), cached := update V.cached n o }

lemma sync_node {o : Option Dinode} : (V.sync n o).node = update V.node n (V.cur n) := rfl
lemma sync_cached {o : Option Dinode} : (V.sync n o).cached = update V.cached n o := rfl

lemma Ok.sync (h : V.Ok) (hn : n ∈ V.live) {o : Option Dinode} (ho : o = none ∨ o = some (V.cur n)) :
    (V.sync n o).Ok := by
  have ha := h.tree.cur_ahead hn
  have hb := h.tree.bounds n hn
  have hnode : ∀ m, (V.sync n o).node m = V.node m ∨ m = n ∧ (V.sync n o).node m = V.cur n := by
    intro m
    by_cases hm : m = n
    · subst hm
      exact .inr ⟨rfl, update_self _ _ _⟩
    · exact .inl (update_of_ne hm _ _)
  have htype : ∀ m, ((V.sync n o).node m).type = (V.node m).type := by
    intro m
    rcases hnode m with e | ⟨rfl, e⟩
    · rw [e]
    · rw [e, ha.type]
  have hlive : (V.sync n o).live = V.live := by
    ext m
    exact and_congr_right fun _ => by rw [htype m]
  refine h.recache ?_ hlive.le ?_ rfl
  · refine h.tree.reshape (fun m _ => htype m) ?_ ?_ ?_
    · intro m hm
      refine ⟨?_, rfl⟩
      rcases hnode m with e | ⟨rfl, e⟩
      · exact e
      · rw [e, h.tree.cur_dir hm]
    · intro m hm
      rcases hnode m with e | ⟨rfl, e⟩
      · rw [e]
        exact ⟨rfl, h.tree.bounds m hm⟩
      · rw [e]
        exact ⟨ha.nlinks, hb.1.trans ha.blocks.1, ha.blocks.2, ha.size⟩
    · intro m c' hm
      by_cases hmn : m = n
      · subst hmn
        rw [sync_cached, update_self] at hm
        rcases ho with rfl | rfl
        · cases hm
        · cases hm
          refine ⟨hn, ?_⟩
          rw [sync_node, update_self]
          exact ⟨rfl, rfl, fun _ => rfl, ⟨le_rfl, ha.blocks.2⟩, fun _ _ => rfl, ha.size⟩
      · rw [sync_cached, update_of_ne hmn] at hm
        rw [sync_node, update_of_ne hmn]
        exact h.tree.cached m c' hm
  · intro m _
    by_cases hmn : m = n
    · subst hmn
      rw [cur, sync_cached, sync_node, update_self, update_self]
      rcases ho with rfl | rfl <;> rfl
    · rw [cur, cur, sync_cached, sync_node, update_of_ne hmn, update_of_ne hmn]

def setCached (V : Vol) (n : ℕ) (c : Dinode) (used : Set ℤ) : Vol :=
  { V with cached := update V.cached n (some c), used := used }

lemma setCached_cached {used : Set ℤ} : (V.setCached n c used).cached = update V.cached n (some c) := rfl

lemma Tree.setCached (h : V.Tree) (hn : n ∈ V.live) (hc : c.Ahead (V.node n)) (used : Set ℤ) :
    (V.setCached n c used).Tree := by
  refine h.reshape (fun _ _ => rfl) (fun _ _ => ⟨rfl, rfl⟩) (fun m hm => ⟨rfl, h.bounds m hm⟩) ?_
  intro m c' hm
  by_cases hmn : m = n
  · subst hmn
    rw [setCached_cached, update_self, Option.some.injEq] at hm
    subst hm
    exact ⟨hn, hc⟩
  · rw [setCached_cached, update_of_ne hmn] at hm
    exact h.cached m c' hm

lemma cur_setCached_of_ne (hm : m ≠ n) {used : Set ℤ} : (V.setCached n c used).cur m = V.cur m := by
  rw [cur, cur, setCached_cached, update_of_ne hm]
  rfl

lemma cur_setCached {used : Set ℤ} : (V.setCached n c used).cur n = c := by
  rw [cur, setCached_cached, update_self]
  rfl

lemma Ok.resize (h : V.Ok) (hc : V.cached n = some c) (hfile : (V.node n).type = fileI) {z : ℤ}
    (hz : 0 ≤ z ∧ z ≤ 4096 * c.blocks) : (V.setCached n { c with size := z } V.used).Ok := by
  obtain ⟨hn, ha⟩ := h.tree.cached n c hc
  have hahead : Dinode.Ahead { c with size := z } (V.node n) :=
    { ha with dir := fun hd => absurd (hfile.symm.trans hd) (by decide), size := hz }
  refine ⟨h.tree.setCached hn hahead _, ?_, h.range⟩
  refine h.blocks.congr le_rfl ?_
  rintro m i b ⟨hm, hi, hb⟩
  refine ⟨hm, ?_⟩
  by_cases hmn : m = n
  · subst hmn
    rw [cur_setCached] at hi hb
    rw [cur_cached hc]
    exact ⟨hi, hb⟩
  · rw [cur_setCached_of_ne hmn] at hi hb
    exact ⟨hi, hb⟩

lemma grow_holds (hc : V.cached n = some c) {i j : Fin 10} (hi : (i : ℤ) = c.blocks) {b' : ℤ} {used : Set ℤ}
    (h : (V.setCached n { c with addrs := update c.addrs i b, blocks := c.blocks + 1 } used).Holds m j b') :
    V.Holds m j b' ∨ m = n ∧ j = i ∧ b' = b := by
  obtain ⟨hm, hj, hb'⟩ := h
  by_cases hmn : m = n
  · subst hmn
    rw [cur_setCached] at hj hb'
    change update c.addrs i b j = b' at hb'
    by_cases hji : j = i
    · subst hji
      rw [update_self] at hb'
      exact .inr ⟨rfl, rfl, hb'.symm⟩
    · rw [update_of_ne hji] at hb'
      have hval : (j : ℤ) ≠ i := by
        rw [ne_eq, Nat.cast_inj, ← Fin.ext_iff]
        exact hji
      change (j : ℤ) < c.blocks + 1 at hj
      refine .inl ⟨hm, ?_, ?_⟩
      · rw [cur_cached hc]
        omega
      · rw [cur_cached hc]
        exact hb'
  · rw [cur_setCached_of_ne hmn] at hj hb'
    exact .inl ⟨hm, hj, hb'⟩

lemma Ok.grow (h : V.Ok) (hc : V.cached n = some c) (hfile : (V.node n).type = fileI) {i : Fin 10}
    (hi : (i : ℤ) = c.blocks) (hb : b ∉ V.used) (hrange : b ∈ Set.Ico (12 : ℤ) 112) :
    (V.setCached n { c with addrs := update c.addrs i b, blocks := c.blocks + 1 } (insert b V.used)).Ok := by
  obtain ⟨hn, ha⟩ := h.tree.cached n c hc
  have hlt := i.isLt
  have hle := ha.blocks.1
  have hahead : Dinode.Ahead { c with addrs := update c.addrs i b, blocks := c.blocks + 1 } (V.node n) := by
    refine { ha with dir := fun hd => absurd (hfile.symm.trans hd) (by decide), blocks := ?_, addrs := ?_, size := ?_ }
    · change (V.node n).blocks ≤ c.blocks + 1 ∧ c.blocks + 1 ≤ 10
      omega
    · intro j hj
      have hji : j ≠ i := by
        rintro rfl
        omega
      exact (update_of_ne hji _ _).trans (ha.addrs j hj)
    · have hs := ha.size
      change 0 ≤ c.size ∧ c.size ≤ 4096 * (c.blocks + 1)
      omega
  refine ⟨h.tree.setCached hn hahead _, ?_, Set.insert_subset hrange h.range⟩
  exact h.blocks.gain (n := n) (i := i) hb fun m j b' hh => grow_holds hc hi hh

structure Differs (V W : Vol) (d k : ℕ) : Prop where
  isDir : V.IsDir d
  lt : k < ninodes
  type : (V.node k).type ≠ dirI
  other : ∀ n, n ≠ d → n ≠ k → W.node n = V.node n ∧ W.cached n = V.cached n ∧ W.dir n = V.dir n
  node : W.node d = { V.node d with size := 32 * (W.dir d).length }
  cached : W.cached d = some (W.node d)
  empty : (W.node k).type = dirI → W.dir k = []

namespace Differs

lemma ne (h : Differs V W d k) : d ≠ k := by
  rintro rfl
  exact h.type h.isDir.2

lemma isDir' (h : Differs V W d k) : W.IsDir d := by
  refine ⟨h.isDir.1, ?_⟩
  rw [h.node]
  exact h.isDir.2

lemma count_other (h : Differs V W d k) (hm : m ≠ d) : W.count n m = V.count n m := by
  by_cases hmk : m = k
  · subst hmk
    rw [count_of_ne h.type]
    by_cases hdir : (W.node m).type = dirI
    · rw [count_of_dir hdir, h.empty hdir, List.countP_nil]
    · exact count_of_ne hdir
  · obtain ⟨hnode, -, hents⟩ := h.other m hm hmk
    rw [count, count, hnode, hents]

lemma links (h : Differs V W d k) :
    W.links n + (V.dir d).countP (fun e : Name × ℤ => e.2 = (n : ℤ)) =
      V.links n + (W.dir d).countP (fun e : Name × ℤ => e.2 = (n : ℤ)) := by
  rw [← count_of_dir h.isDir.2, ← count_of_dir h.isDir'.2]
  exact links_change h.isDir.1 fun m _ hm => h.count_other hm

lemma type_eq (h : Differs V W d k) (hn : n ≠ k) : (W.node n).type = (V.node n).type := by
  by_cases hnd : n = d
  · subst hnd
    rw [h.node]
  · rw [(h.other n hnd hn).1]

lemma live_iff (h : Differs V W d k) (hn : n ≠ k) : n ∈ W.live ↔ n ∈ V.live :=
  and_congr_right fun _ => by rw [h.type_eq hn]

lemma links_pos (hm : W.IsDir m) {e : Name × ℤ} (he : e ∈ W.dir m) (hn : e.2 = (n : ℤ)) : 0 < W.links n := by
  have hcount : 0 < W.count n m := by
    rw [count_of_dir hm.2, List.countP_pos_iff]
    exact ⟨e, he, decide_eq_true hn⟩
  have hle : W.count n m ≤ W.links n :=
    Finset.single_le_sum (f := W.count n) (fun _ _ => Nat.zero_le _) (Finset.mem_range.mpr hm.1)
  omega

lemma tree (h : Differs V W d k) (hV : V.Tree) (hlen : (W.dir d).length ≤ 128)
    (hnames : ((W.dir d).map Prod.fst).Nodup)
    (hents : ∀ e ∈ W.dir d, e ∈ V.dir d ∨ e.1.length < rfsMaxFileNameLen ∧ e.2 = (k : ℤ))
    (hcount : ∀ n : ℕ, n ≠ k → (W.dir d).countP (fun e : Name × ℤ => e.2 = (n : ℤ)) =
      (V.dir d).countP (fun e : Name × ℤ => e.2 = (n : ℤ)))
    (hkind : (W.node k).type = fileI ∨ (W.node k).type = dirI ∧ (W.node k).blocks = 1 ∧ (W.node k).nlinks = 1 ∧
      (W.node k).size = 0 ∨ (W.node k).type = rFree ∧ W.links k = 0)
    (hk : (W.node k).type ≠ rFree → (0 ≤ (W.node k).blocks ∧ (W.node k).blocks ≤ 10 ∧ 0 ≤ (W.node k).size ∧
      (W.node k).size ≤ 4096 * (W.node k).blocks) ∧ (W.node k).nlinks = W.links k ∧ 0 < (W.node k).nlinks)
    (hkc : ∀ c, W.cached k = some c → (W.node k).type ≠ rFree ∧ c.Ahead (W.node k)) : W.Tree := by
  have hk0 : k ≠ 0 := by
    rintro rfl
    exact h.type hV.root
  have hdirs : ∀ n, W.IsDir n → n ≠ k → V.IsDir n := by
    intro n hn hnk
    exact ⟨hn.1, (h.type_eq hnk).symm.trans hn.2⟩
  -- an entry leads to a live inode: to an old one, or to `k`
  have hentry : ∀ m, W.IsDir m → ∀ e ∈ W.dir m, e.1.length < rfsMaxFileNameLen ∧
      ∃ n : ℕ, e.2 = n ∧ 0 < n ∧ n ∈ W.live := by
    intro m hm e he
    have hold : (∃ m', V.IsDir m' ∧ e ∈ V.dir m') ∨ e.1.length < rfsMaxFileNameLen ∧ e.2 = (k : ℤ) := by
      by_cases hmd : m = d
      · subst hmd
        exact (hents e he).imp_left fun he => ⟨m, h.isDir, he⟩
      · by_cases hmk : m = k
        · subst hmk
          rw [h.empty hm.2] at he
          cases he
        · exact .inl ⟨m, hdirs m hm hmk, by rwa [(h.other m hmd hmk).2.2] at he⟩
    have hklive : e.2 = (k : ℤ) → k ∈ W.live := by
      intro hek
      refine ⟨h.lt, fun hfree => ?_⟩
      have hpos := links_pos hm he hek
      rcases hkind with hf | ⟨hf, -⟩ | ⟨-, hz⟩
      · rw [hf] at hfree
        cases hfree
      · rw [hf] at hfree
        cases hfree
      · omega
    rcases hold with ⟨m', hm', he'⟩ | ⟨hshort, hek⟩
    · obtain ⟨hshort, n, hn, hpos, hlive⟩ := hV.entry m' hm' e he'
      refine ⟨hshort, n, hn, hpos, ?_⟩
      by_cases hnk : n = k
      · subst hnk
        exact hklive hn
      · exact (h.live_iff hnk).mpr hlive
    · exact ⟨hshort, k, hek, by omega, hklive hek⟩
  refine ⟨?_, ?_, ?_, ?_, ?_, hentry, ?_, ?_, ?_⟩
  · rw [h.type_eq hk0.symm]
    exact hV.root
  · intro n hn
    by_cases hnk : n = k
    · subst hnk
      rcases hkind with hf | ⟨hf, -⟩ | ⟨hf, -⟩
      · exact .inl hf
      · exact .inr (.inl hf)
      · exact .inr (.inr hf)
    · rw [h.type_eq hnk]
      exact hV.kind n hn
  · intro n hn
    by_cases hnk : n = k
    · subst hnk
      rcases hkind with hf | ⟨-, hb, hl, hs⟩ | ⟨hf, -⟩
      · rw [hn.2] at hf
        cases hf
      · rw [h.empty hn.2]
        exact ⟨hb, hl, by rw [hs]; rfl, by norm_num⟩
      · rw [hn.2] at hf
        cases hf
    · obtain ⟨hb, hl, hs, hle⟩ := hV.isDir n (hdirs n hn hnk)
      by_cases hnd : n = d
      · subst hnd
        rw [h.node]
        exact ⟨hb, hl, rfl, hlen⟩
      · obtain ⟨hnode, -, hdir⟩ := h.other n hnd hnk
        rw [hnode, hdir]
        exact ⟨hb, hl, hs, hle⟩
  · intro n hn
    by_cases hnk : n = k
    · subst hnk
      exact (hk hn.2).1
    · have hVn := (h.live_iff hnk).mp hn
      by_cases hnd : n = d
      · subst hnd
        have hb := (hV.isDir n h.isDir).1
        rw [h.node]
        change 0 ≤ (V.node n).blocks ∧ (V.node n).blocks ≤ 10 ∧ 0 ≤ 32 * ((W.dir n).length : ℤ) ∧
          32 * ((W.dir n).length : ℤ) ≤ 4096 * (V.node n).blocks
        omega
      · rw [(h.other n hnd hnk).1]
        exact hV.bounds n hVn
  · intro n hn
    by_cases hnd : n = d
    · subst hnd
      exact hnames
    · by_cases hnk : n = k
      · subst hnk
        rw [h.empty hn.2]
        exact List.nodup_nil
      · rw [(h.other n hnd hnk).2.2]
        exact hV.names n (hdirs n hn hnk)
  · intro n hn hn0
    by_cases hnk : n = k
    · subst hnk
      exact (hk hn.2).2.1
    · have hlinks := h.links (n := n)
      rw [hcount n hnk] at hlinks
      have heq : W.links n = V.links n := by omega
      have hVn := hV.links n ((h.live_iff hnk).mp hn) hn0
      rw [heq, ← hVn]
      by_cases hnd : n = d
      · subst hnd
        rw [h.node]
      · rw [(h.other n hnd hnk).1]
  · intro n hn
    by_cases hnk : n = k
    · subst hnk
      exact (hk hn.2).2.2
    · have hpos := hV.linked n ((h.live_iff hnk).mp hn)
      by_cases hnd : n = d
      · subst hnd
        rw [h.node]
        exact hpos
      · rw [(h.other n hnd hnk).1]
        exact hpos
  · intro n c hc
    by_cases hnk : n = k
    · subst hnk
      obtain ⟨hf, ha⟩ := hkc c hc
      exact ⟨⟨h.lt, hf⟩, ha⟩
    · by_cases hnd : n = d
      · subst hnd
        rw [h.cached, Option.some.injEq] at hc
        subst hc
        refine ⟨h.isDir'.live, ⟨rfl, rfl, fun _ => rfl, ⟨le_rfl, ?_⟩, fun _ _ => rfl, ?_⟩⟩
        · have hb := (hV.isDir n h.isDir).1
          rw [h.node]
          change (V.node n).blocks ≤ 10
          omega
        · have hb := (hV.isDir n h.isDir).1
          rw [h.node]
          change 0 ≤ 32 * ((W.dir n).length : ℤ) ∧ 32 * ((W.dir n).length : ℤ) ≤ 4096 * (V.node n).blocks
          omega
      · obtain ⟨hnode, hcache, -⟩ := h.other n hnd hnk
        rw [hcache] at hc
        obtain ⟨hlive, ha⟩ := hV.cached n c hc
        rw [hnode]
        exact ⟨(h.live_iff hnk).mpr hlive, ha⟩

end Differs

end Vol

end Pke.Files
