import Pke.Files.Lookups

namespace Pke.Files

open Lib Flow Function

namespace Vol

inductive Change (V W : Vol) : Prop
  | caches (node : W.node = V.node) (cur : ∀ n, W.cur n = V.cur n) (used : W.used = V.used)
  | makes (k : ℕ) (new : Dinode) (b : ℤ) (dead : k ∉ V.live) (lt : k < ninodes) (fresh : Vol.Fresh new b)
      (unused : b ∉ V.used) (used : W.used = insert b V.used) (node : W.node k = new) (cur : W.cur k = new)
      (type : ∀ n ≠ k, (W.node n).type = (V.node n).type)
      (held : ∀ n ≠ k, (W.cur n).blocks = (V.cur n).blocks ∧ (W.cur n).addrs = (V.cur n).addrs)
  | file (n : ℕ) (live : n ∈ V.live) (type : (V.node n).type = fileI)

def Lost (V : Vol) (b : ℤ) : Prop := b ∈ V.used ∧ ∀ n i, ¬ V.Holds n i b

/-- Cached files do not shrink; an inode that is as on the disk stays so unless it is among those written to; what
leaves the cache is on the disk; and an inode that is as on the disk leaves no block behind. -/
structure Keeps (own : Set ℕ) (V W : Vol) : Prop where
  sizes : ∀ {n c c'}, (V.node n).type = fileI → V.cached n = some c → W.cached n = some c' → c.size ≤ c'.size
  synced : ∀ {n}, n ∈ W.live → n ∉ own → (n ∈ V.live → V.cur n = V.node n) → W.cur n = W.node n
  kept : ∀ {n}, n ∈ W.live → W.cached n = none → n ∈ V.live ∧ W.node n = V.cur n
  types : ∀ {n}, n ∈ V.live → n ∈ W.live → (W.node n).type = (V.node n).type
  freed : ∀ {n i b}, n ∉ W.live → V.cur n = V.node n → V.Holds n i b → b ∉ W.used
  lost : ∀ {b}, V.Lost b → W.Lost b

variable {own : Set ℕ} {V W X : Vol} {d k n : ℕ} {l : List (Name × ℤ)} {node : Dinode} {o : Option Dinode} {used : Set ℤ}

lemma cur_loaded (hnode : W.node = V.node)
    (hloaded : ∀ n, W.cached n = V.cached n ∨ V.cached n = none ∧ W.cached n = some (V.node n)) (n : ℕ) :
    W.cur n = V.cur n := by
  rcases hloaded n with heq | ⟨hnone, hsome⟩
  · rw [cur, cur, heq, hnode]
  · rw [cur_cached hsome, cur_uncached hnone]

lemma holds_iff (hlive : W.live = V.live) (hcur : ∀ n, W.cur n = V.cur n) {i : Fin 10} {b : ℤ} :
    W.Holds n i b ↔ V.Holds n i b := by
  rw [Holds, Holds, hlive, hcur]

lemma lost_iff (hlive : W.live = V.live) (hcur : ∀ n, W.cur n = V.cur n) (hused : W.used = V.used) {b : ℤ} :
    W.Lost b ↔ V.Lost b := by
  rw [Lost, Lost, hused]
  exact and_congr_right fun _ => forall₂_congr fun _ _ => not_congr (holds_iff hlive hcur)

lemma Change.after_caches (hnode : W.node = V.node) (hcur : ∀ n, W.cur n = V.cur n) (hused : W.used = V.used)
    (h : W.Change X) : V.Change X := by
  have hlive : W.live = V.live := by rw [Vol.live, Vol.live, hnode]
  cases h with
  | caches node cur used =>
    exact .caches (node.trans hnode) (fun n => (cur n).trans (hcur n)) (used.trans hused)
  | makes k new b dead lt fresh unused used node cur type held =>
    rw [hlive] at dead
    rw [hused] at unused used
    refine .makes k new b dead lt fresh unused used node cur ?_ ?_
    · exact fun n hn => hnode ▸ type n hn
    · exact fun n hn => hcur n ▸ held n hn
  | file n live type =>
    rw [hlive] at live
    rw [hnode] at type
    exact .file n live type

namespace Keeps

lemma refl : Keeps own V V where
  sizes _ hc hc' := by
    rw [hc, Option.some.injEq] at hc'
    rw [hc']
  synced hn _ h := h hn
  kept hn hc := ⟨hn, (cur_uncached hc).symm⟩
  types _ _ := rfl
  freed hn _ hb := absurd hb.1 hn
  lost h := h

lemma after_loads (hnode : W.node = V.node) (hused : W.used = V.used)
    (hloaded : ∀ n, W.cached n = V.cached n ∨ V.cached n = none ∧ W.cached n = some (V.node n))
    (h : Keeps own W X) : Keeps own V X := by
  have hcur := cur_loaded hnode hloaded
  have hlive : W.live = V.live := by rw [Vol.live, Vol.live, hnode]
  refine ⟨?_, ?_, ?_, ?_, ?_, fun hb => h.lost ((lost_iff hlive hcur hused).mpr hb)⟩
  · intro n c c' htype hc hc'
    rcases hloaded n with heq | ⟨hnone, -⟩
    · exact h.sizes (hnode ▸ htype) (heq.trans hc) hc'
    · rw [hc] at hnone
      cases hnone
  · intro n hn hown hsync
    refine h.synced hn hown fun hl => ?_
    rw [hcur, hnode]
    exact hsync (hlive ▸ hl)
  · intro n hn hc
    obtain ⟨hl, heq⟩ := h.kept hn hc
    exact ⟨hlive ▸ hl, heq.trans (hcur n)⟩
  · intro n hn hn'
    rw [← hnode]
    exact h.types (hlive ▸ hn) hn'
  · intro n i b hn hsync hb
    refine h.freed hn ?_ ((holds_iff hlive hcur).mpr hb)
    rw [hcur, hnode, hsync]

lemma relist (h : V.Tree) (hd : V.IsDir d) (hk : k < ninodes) (htype : (V.node k).type ≠ dirI)
    (hsame : k ∈ V.live → node.type ≠ rFree → node.type = (V.node k).type)
    (hfreed : node.type = rFree → V.cur k = V.node k → ∀ {i b}, V.Holds k i b → b ∉ used)
    (hlost : ∀ {b}, V.Lost b → b ∈ used ∧ (node.type ≠ rFree → ∀ i : Fin 10, (i : ℤ) < (o.getD node).blocks →
      (o.getD node).addrs i ≠ b))
    (hsize : ∀ {c c'}, (V.node k).type = fileI → V.cached k = some c → o = some c' → c.size ≤ c'.size)
    (hsync : node.type ≠ rFree → (k ∈ V.live → V.cur k = V.node k) → o.getD node = node)
    (hgone : o = none → node.type = rFree) : Keeps own V (V.relist d k l node o used) := by
  have hdiff : Differs V (V.relist d k l node o used) d k := relist_differs hd hk htype
  have hcases : ∀ n, n = d ∨ n = k ∨ n ≠ d ∧ n ≠ k := fun n => by tauto
  have hdc : (V.relist d k l node o used).cached d = some (V.withLength d l.length) := update_self _ _ _
  refine ⟨?_, ?_, ?_, ?_, ?_, ?_⟩
  · intro n c c' htn hc hc'
    rcases hcases n with rfl | rfl | ⟨hnd, hnk⟩
    · exact absurd (htn.symm.trans hd.2) (by decide)
    · rw [relist_cached_self hdiff.ne] at hc'
      exact hsize htn hc hc'
    · rw [(hdiff.other n hnd hnk).2.1, hc, Option.some.injEq] at hc'
      rw [hc']
  · intro n hn _ hs
    rcases hcases n with rfl | rfl | ⟨hnd, hnk⟩
    · rw [cur_cached hdc, relist_node, update_self]
    · rw [relist_cur_self hdiff.ne, relist_node_self hdiff.ne]
      refine hsync ?_ hs
      have htn := hn.2
      rwa [relist_node_self hdiff.ne] at htn
    · have hlive := (hdiff.live_iff hnk).mp hn
      rw [cur, (hdiff.other n hnd hnk).1, (hdiff.other n hnd hnk).2.1]
      exact hs hlive
  · intro n hn hc
    rcases hcases n with rfl | rfl | ⟨hnd, hnk⟩
    · rw [hdc] at hc
      cases hc
    · rw [relist_cached_self hdiff.ne] at hc
      have htn := hn.2
      rw [relist_node_self hdiff.ne] at htn
      exact absurd (hgone hc) htn
    · have hlive := (hdiff.live_iff hnk).mp hn
      rw [(hdiff.other n hnd hnk).2.1] at hc
      rw [(hdiff.other n hnd hnk).1, cur_uncached hc]
      exact ⟨hlive, rfl⟩
  · intro n hn hn'
    by_cases hnk : n = k
    · subst hnk
      have htn := hn'.2
      rw [relist_node_self hdiff.ne] at htn ⊢
      exact hsame hn htn
    · exact hdiff.type_eq hnk
  · intro n i b hn hs hb
    by_cases hnk : n = k
    · subst hnk
      refine hfreed ?_ hs hb
      by_contra hne
      exact hn ⟨hk, by rwa [relist_node_self hdiff.ne]⟩
    · exact absurd ((hdiff.live_iff hnk).mpr hb.1) hn
  · intro b hb
    obtain ⟨hused, hself⟩ := hlost hb
    refine ⟨hused, ?_⟩
    intro n i hn
    by_cases hnk : n = k
    · subst hnk
      obtain ⟨hlive, hi, haddr⟩ := hn
      have htn := hlive.2
      rw [relist_node_self hdiff.ne] at htn
      rw [relist_cur_self hdiff.ne] at hi haddr
      exact hself htn i hi haddr
    · exact hb.2 n i (relist_holds h hd hk htype hnk hn)

lemma sync (h : V.Tree) (hn : n ∈ V.live) : Keeps own V (V.sync n none) := by
  have hlive : (V.sync n none).live = V.live := by
    ext m
    rw [Vol.live, Vol.live, Set.mem_ofPred, Set.mem_ofPred, sync_node]
    by_cases hm : m = n
    · subst hm
      rw [update_self, (h.cur_ahead hn).type]
    · rw [update_of_ne hm]
  have hcur : ∀ m, (V.sync n none).cur m = V.cur m := by
    intro m
    by_cases hm : m = n
    · subst hm
      rw [cur_uncached (update_self _ _ _), sync_node, update_self]
    · rw [cur, cur, sync_cached, sync_node, update_of_ne hm, update_of_ne hm]
  refine ⟨?_, ?_, ?_, ?_, ?_, (lost_iff hlive hcur rfl).mpr⟩
  · intro m c c' _ hc hc'
    rw [sync_cached] at hc'
    by_cases hm : m = n
    · rw [hm, update_self] at hc'
      cases hc'
    · rw [update_of_ne hm, hc, Option.some.injEq] at hc'
      rw [hc']
  · intro m hm _ hs
    by_cases hmn : m = n
    · subst hmn
      exact cur_uncached (update_self _ _ _)
    · rw [cur, sync_cached, sync_node, update_of_ne hmn, update_of_ne hmn]
      exact hs (hlive ▸ hm)
  · intro m hm hc
    refine ⟨hlive ▸ hm, ?_⟩
    by_cases hmn : m = n
    · rw [hmn, sync_node, update_self]
    · rw [sync_cached, update_of_ne hmn] at hc
      rw [sync_node, update_of_ne hmn, cur_uncached hc]
  · intro m hm _
    rw [sync_node]
    by_cases hmn : m = n
    · subst hmn
      rw [update_self, (h.cur_ahead hn).type]
    · rw [update_of_ne hmn]
  · intro m i b hm _ hb
    exact absurd hb.1 (hlive ▸ hm)

lemma wrote {c c' : Dinode} (hnode : W.node = V.node) (hoth : ∀ m ≠ n, W.cached m = V.cached m) (hc : V.cached n = some c)
    (hc' : W.cached n = some c') (hsize : c.size ≤ c'.size) (hused : V.used ⊆ W.used)
    (hholds : ∀ {m i b}, W.Holds m i b → V.Holds m i b ∨ b ∉ V.used) : Keeps {n} V W := by
  have hlive : W.live = V.live := by rw [Vol.live, Vol.live, hnode]
  refine ⟨?_, ?_, ?_, fun _ _ => by rw [hnode], fun hm _ hb => absurd hb.1 (hlive ▸ hm), ?_⟩
  · intro m a a' _ ha ha'
    by_cases hm : m = n
    · subst hm
      rw [hc, Option.some.injEq] at ha
      rw [hc', Option.some.injEq] at ha'
      rwa [← ha, ← ha']
    · rw [hoth m hm, ha, Option.some.injEq] at ha'
      rw [ha']
  · intro m hm hmn hs
    rw [cur, hoth m hmn, hnode]
    exact hs (hlive ▸ hm)
  · intro m hm hnone
    have hmn : m ≠ n := by
      rintro rfl
      rw [hc'] at hnone
      cases hnone
    rw [hoth m hmn] at hnone
    rw [hnode, cur_uncached hnone]
    exact ⟨hlive ▸ hm, rfl⟩
  · intro b hb
    refine ⟨hused hb.1, ?_⟩
    intro m i hm
    rcases hholds hm with hm | hno
    · exact hb.2 m i hm
    · exact hno hb.1

end Keeps

end Vol

structure Scope where
  writes : Set ℕ
  closes : Set ℕ

inductive FileChange (own : Scope) (s t : Vfs) (W : Vol) : Prop
  | same (h : t.file = s.file)
  | opens (f d : ℕ) (r w : Bool) (hnew : s.file f = none) (h : t.file = update s.file f (some ⟨true, r, w, 0, d⟩))
  | moves (f : ℕ) (F : File) (o : ℤ) (hF : s.file f = some F) (h : t.file = update s.file f (some { F with offset := o }))
      (hin : ∀ n c, t.num F.dentry = some n → W.cached n = some c → (W.node n).type = fileI ∧ o ≤ c.size)
  | closes (f : ℕ) (F : File) (hown : f ∈ own.closes) (hF : s.file f = some F)
      (h : t.file = update s.file f (some { F with opened := false }))

structure Follows (own : Scope) (s : Vfs) (V : Vol) (t : Vfs) (W : Vol) : Prop where
  sound : Sound t W
  change : V.Change W
  vol : V.Keeps own.writes W
  num : ∀ d, Listed s.dentryHash d → Listed t.dentryHash d → t.num d = s.num d
  files : FileChange own s t W

def Kept (own : Scope) (s : Vfs) (V : Vol) (t : Vfs) : Prop := ∃ W, Follows own s V t W

variable {own : Scope} {s t u : Vfs} {V W X : Vol}

lemma Looked.follows (h : Looked s V t W) : Follows own s V t W where
  sound := h.sound
  change := .caches h.node (Vol.cur_loaded h.node h.loaded) h.used
  vol := Vol.Keeps.refl.after_loads h.node h.used h.loaded
  num d hd _ := h.num d hd
  files := .same h.file

lemma Looked.kept (h : Looked s V t W) : Kept own s V t := ⟨W, h.follows⟩

lemma Sound.kept (h : Sound s V) : Kept own s V s := (Looked.refl h).kept

lemma Follows.after (hlook : Looked s V t W) (h : Follows own t W u X) : Follows own s V u X where
  sound := h.sound
  change := h.change.after_caches hlook.node (Vol.cur_loaded hlook.node hlook.loaded) hlook.used
  vol := h.vol.after_loads hlook.node hlook.used hlook.loaded
  num d hd hd' := (h.num d (hlook.listed hd) hd').trans (hlook.num d hd)
  files := by
    cases h.files with
    | same h => exact .same (h.trans hlook.file)
    | opens f d r w hnew h => exact .opens f d r w (hlook.file ▸ hnew) (hlook.file ▸ h)
    | moves f F o hF h hin => exact .moves f F o (hlook.file ▸ hF) (hlook.file ▸ h) hin
    | closes f F hown hF h => exact .closes f F hown (hlook.file ▸ hF) (hlook.file ▸ h)

structure SameNames (own : Scope) (s : Vfs) (V : Vol) (t : Vfs) : Prop where
  sound : Sound t V
  table : t.dentryHash = s.dentryHash
  num : ∀ d, Listed s.dentryHash d → t.num d = s.num d
  files : FileChange own s t V

lemma SameNames.follows (h : SameNames own s V t) : Follows own s V t V where
  sound := h.sound
  change := .caches rfl (fun _ => rfl) rfl
  vol := .refl
  num d hd _ := h.num d hd
  files := h.files

lemma SameNames.kept (h : SameNames own s V t) : Kept own s V t := ⟨V, h.follows⟩

lemma Follows.then (h : Follows own s V t X) (hfile : t.file = s.file) (h' : SameNames own t X u) : Follows own s V u X where
  sound := h'.sound
  change := h.change
  vol := h.vol
  num d hd hd' := by
    rw [h'.table] at hd'
    exact (h'.num d hd').trans (h.num d hd hd')
  files := by
    cases h'.files with
    | same h' => exact .same (h'.trans hfile)
    | opens f d r w hnew h' => exact .opens f d r w (hfile ▸ hnew) (hfile ▸ h')
    | moves f F o hF h' hin => exact .moves f F o (hfile ▸ hF) (hfile ▸ h') hin
    | closes f F hown hF h' => exact .closes f F hown (hfile ▸ hF) (hfile ▸ h')

lemma Kept.after (hlook : Looked s V t W) (h : Kept own t W u) : Kept own s V u :=
  let ⟨X, hX⟩ := h
  ⟨X, hX.after hlook⟩

end Pke.Files
