import Pke.Files.State
import Pke.Lib.Holdings

/-! The RAM disk as the kernel goes by it: inodes, of which some are cached, directories that name inodes, and
the blocks that inodes hold. -/

namespace Pke.Files

open Lib Function

structure Vol where
  node : ℕ → Dinode
  cached : ℕ → Option Dinode
  dir : ℕ → List (Name × ℤ)
  used : Set ℤ

structure Dinode.Ahead (c d : Dinode) : Prop where
  type : c.type = d.type
  nlinks : c.nlinks = d.nlinks
  dir : d.type = dirI → c = d
  blocks : d.blocks ≤ c.blocks ∧ c.blocks ≤ 10
  addrs : ∀ i : Fin 10, (i : ℤ) < d.blocks → c.addrs i = d.addrs i
  size : 0 ≤ c.size ∧ c.size ≤ 4096 * c.blocks

namespace Vol

def cur (V : Vol) (n : ℕ) : Dinode := (V.cached n).getD (V.node n)

def live (V : Vol) : Set ℕ := {n | n < ninodes ∧ (V.node n).type ≠ rFree}

def IsDir (V : Vol) (n : ℕ) : Prop := n < ninodes ∧ (V.node n).type = dirI

def Holds (V : Vol) (n : ℕ) (i : Fin 10) (b : ℤ) : Prop :=
  n ∈ V.live ∧ (i : ℤ) < (V.cur n).blocks ∧ (V.cur n).addrs i = b

def count (V : Vol) (n d : ℕ) : ℕ :=
  if (V.node d).type = dirI then (V.dir d).countP (fun e : Name × ℤ => e.2 = (n : ℤ)) else 0

def links (V : Vol) (n : ℕ) : ℕ := ∑ d ∈ Finset.range ninodes, V.count n d

structure Tree (V : Vol) : Prop where
  root : (V.node 0).type = dirI
  kind : ∀ n < ninodes, (V.node n).type = fileI ∨ (V.node n).type = dirI ∨ (V.node n).type = rFree
  isDir : ∀ n, V.IsDir n →
    (V.node n).blocks = 1 ∧ (V.node n).nlinks = 1 ∧ (V.node n).size = 32 * (V.dir n).length ∧ (V.dir n).length ≤ 128
  bounds : ∀ n ∈ V.live, 0 ≤ (V.node n).blocks ∧ (V.node n).blocks ≤ 10 ∧
    0 ≤ (V.node n).size ∧ (V.node n).size ≤ 4096 * (V.node n).blocks
  names : ∀ d, V.IsDir d → ((V.dir d).map Prod.fst).Nodup
  entry : ∀ d, V.IsDir d → ∀ e ∈ V.dir d,
    e.1.length < rfsMaxFileNameLen ∧ ∃ k : ℕ, e.2 = k ∧ 0 < k ∧ k ∈ V.live
  links : ∀ n ∈ V.live, n ≠ 0 → (V.node n).nlinks = V.links n
  linked : ∀ n ∈ V.live, 0 < (V.node n).nlinks
  cached : ∀ n c, V.cached n = some c → n ∈ V.live ∧ c.Ahead (V.node n)

structure Ok (V : Vol) : Prop where
  tree : V.Tree
  blocks : Holdings V.live V.Holds V.used
  range : V.used ⊆ Set.Ico 12 112

variable {V W : Vol} {n m d k : ℕ}

lemma IsDir.live (h : V.IsDir n) : n ∈ V.live := ⟨h.1, by rw [h.2]; decide⟩

lemma cur_cached {c : Dinode} (h : V.cached n = some c) : V.cur n = c := by rw [cur, h]; rfl

lemma cur_uncached (h : V.cached n = none) : V.cur n = V.node n := by rw [cur, h]; rfl

lemma links_change (hd : d < ninodes) (hother : ∀ m < ninodes, m ≠ d → W.count n m = V.count n m) :
    W.links n + V.count n d = V.links n + W.count n d := by
  have hmem : d ∈ Finset.range ninodes := Finset.mem_range.mpr hd
  have hrest : ∑ m ∈ (Finset.range ninodes).erase d, W.count n m =
      ∑ m ∈ (Finset.range ninodes).erase d, V.count n m := by
    refine Finset.sum_congr rfl ?_
    intro m hm
    rw [Finset.mem_erase, Finset.mem_range] at hm
    exact hother m hm.2 hm.1
  have hW := Finset.sum_erase_add _ (W.count n) hmem
  have hV := Finset.sum_erase_add _ (V.count n) hmem
  rw [links, links]
  omega

lemma links_congr (h : ∀ m < ninodes, W.count n m = V.count n m) : W.links n = V.links n :=
  Finset.sum_congr rfl fun m hm => h m (Finset.mem_range.mp hm)

namespace Tree

lemma links_eq_zero (h : V.Tree) (hn : n ∉ V.live ∨ n = 0) : V.links n = 0 := by
  refine Finset.sum_eq_zero ?_
  intro d hd
  rw [count]
  by_cases hdir : (V.node d).type = dirI
  · rw [if_pos hdir, List.countP_eq_zero]
    intro e he
    obtain ⟨-, k, hk, hpos, hlive⟩ := h.entry d ⟨Finset.mem_range.mp hd, hdir⟩ e he
    rw [decide_eq_true_eq, hk, Nat.cast_inj]
    rintro rfl
    rcases hn with hn | hn
    · exact hn hlive
    · omega
  · rw [if_neg hdir]

lemma zero_live (h : V.Tree) : 0 ∈ V.live := ⟨by norm_num, by rw [h.root]; decide⟩

lemma ahead_self (h : V.Tree) (hn : n ∈ V.live) : (V.node n).Ahead (V.node n) :=
  have hb := h.bounds n hn
  ⟨rfl, rfl, fun _ => rfl, ⟨le_rfl, hb.2.1⟩, fun _ _ => rfl, hb.2.2⟩

lemma cur_ahead (h : V.Tree) (hn : n ∈ V.live) : (V.cur n).Ahead (V.node n) := by
  cases hc : V.cached n with
  | none =>
    rw [cur_uncached hc]
    exact h.ahead_self hn
  | some c =>
    rw [cur_cached hc]
    exact (h.cached n c hc).2

lemma cur_dir (h : V.Tree) (hd : V.IsDir d) : V.cur d = V.node d := (h.cur_ahead hd.live).dir hd.2

lemma entry_inj (h : V.Tree) (hd : V.IsDir d) {e e' : Name × ℤ} (he : e ∈ V.dir d) (he' : e' ∈ V.dir d)
    (hname : e.1 = e'.1) : e = e' :=
  List.inj_on_of_nodup_map (h.names d hd) he he' hname

lemma reshape (h : V.Tree) (htype : ∀ n < ninodes, (W.node n).type = (V.node n).type)
    (hdir : ∀ n, V.IsDir n → W.node n = V.node n ∧ W.dir n = V.dir n)
    (hnode : ∀ n ∈ V.live, (W.node n).nlinks = (V.node n).nlinks ∧ 0 ≤ (W.node n).blocks ∧
      (W.node n).blocks ≤ 10 ∧ 0 ≤ (W.node n).size ∧ (W.node n).size ≤ 4096 * (W.node n).blocks)
    (hcached : ∀ n c, W.cached n = some c → n ∈ V.live ∧ c.Ahead (W.node n)) : W.Tree := by
  have hlive : ∀ n, n ∈ W.live ↔ n ∈ V.live := fun n => and_congr_right fun hn => by rw [htype n hn]
  have hisdir : ∀ n, W.IsDir n ↔ V.IsDir n := fun n => and_congr_right fun hn => by rw [htype n hn]
  have hcount : ∀ n, ∀ m < ninodes, W.count n m = V.count n m := by
    intro n m hm
    by_cases hd : (V.node m).type = dirI
    · rw [count, count, if_pos hd, if_pos ((htype m hm).trans hd), (hdir m ⟨hm, hd⟩).2]
    · rw [count, count, if_neg hd, if_neg (fun e => hd ((htype m hm).symm.trans e))]
  refine ⟨?_, ?_, ?_, ?_, ?_, ?_, ?_, ?_, ?_⟩
  · rw [htype 0 (by norm_num)]
    exact h.root
  · intro n hn
    rw [htype n hn]
    exact h.kind n hn
  · intro n hn
    rw [hisdir] at hn
    rw [(hdir n hn).1, (hdir n hn).2]
    exact h.isDir n hn
  · intro n hn
    exact (hnode n ((hlive n).mp hn)).2
  · intro n hn
    rw [hisdir] at hn
    rw [(hdir n hn).2]
    exact h.names n hn
  · intro n hn e he
    rw [hisdir] at hn
    rw [(hdir n hn).2] at he
    obtain ⟨hlen, k, hk, hpos, hk'⟩ := h.entry n hn e he
    exact ⟨hlen, k, hk, hpos, (hlive k).mpr hk'⟩
  · intro n hn hne
    rw [hlive] at hn
    rw [(hnode n hn).1, links_congr (hcount n)]
    exact h.links n hn hne
  · intro n hn
    rw [hlive] at hn
    rw [(hnode n hn).1]
    exact h.linked n hn
  · intro n c hc
    obtain ⟨hn, ha⟩ := hcached n c hc
    exact ⟨(hlive n).mpr hn, ha⟩

end Tree

end Vol

end Pke.Files
