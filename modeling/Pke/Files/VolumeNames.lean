import Pke.Files.VolumeSteps

namespace Pke.Files

open Lib Function

namespace Vol

variable {V W : Vol} {n m d j k : ℕ} {c new : Dinode} {nm : Name} {b : ℤ} {used : Set ℤ}

def withLength (V : Vol) (d len : ℕ) : Dinode := { V.node d with size := 32 * len }

def relist (V : Vol) (d k : ℕ) (l : List (Name × ℤ)) (node : Dinode) (o : Option Dinode) (used : Set ℤ) : Vol where
  node := update (update V.node k node) d (V.withLength d l.length)
  cached := update (update V.cached k o) d (some (V.withLength d l.length))
  dir := update (update V.dir k []) d l
  used := used

section Relist

variable {l : List (Name × ℤ)} {node : Dinode} {o : Option Dinode}

lemma relist_node : (V.relist d k l node o used).node = update (update V.node k node) d (V.withLength d l.length) := rfl
lemma relist_cached :
    (V.relist d k l node o used).cached = update (update V.cached k o) d (some (V.withLength d l.length)) := rfl
lemma relist_dir : (V.relist d k l node o used).dir = update (update V.dir k []) d l := rfl

lemma relist_node_self (hne : d ≠ k) : (V.relist d k l node o used).node k = node := by
  rw [relist_node, update_of_ne hne.symm, update_self]

lemma relist_cached_self (hne : d ≠ k) : (V.relist d k l node o used).cached k = o := by
  rw [relist_cached, update_of_ne hne.symm, update_self]

lemma relist_dir_self : (V.relist d k l node o used).dir d = l := by rw [relist_dir, update_self]

lemma relist_differs (hd : V.IsDir d) (hk : k < ninodes) (htype : (V.node k).type ≠ dirI) :
    Differs V (V.relist d k l node o used) d k where
  isDir := hd
  lt := hk
  type := htype
  other n hnd hnk := by
    rw [relist_node, relist_cached, relist_dir]
    simp only [update_of_ne hnd, update_of_ne hnk, and_self]
  node := by
    rw [relist_node, relist_dir, update_self, update_self]
    rfl
  cached := by rw [relist_cached, relist_node, update_self, update_self]
  empty := by
    have hne : k ≠ d := by
      rintro rfl
      exact htype hd.2
    intro
    rw [relist_dir, update_of_ne hne, update_self]

lemma relist_cur_self (hne : d ≠ k) : (V.relist d k l node o used).cur k = o.getD node := by
  rw [cur, relist_cached_self hne, relist_node_self hne]

lemma relist_holds (h : V.Tree) (hd : V.IsDir d) (hk : k < ninodes) (htype : (V.node k).type ≠ dirI) (hn : n ≠ k)
    {i : Fin 10} (hh : (V.relist d k l node o used).Holds n i b) : V.Holds n i b := by
  obtain ⟨hlive, hi, hb⟩ := hh
  refine ⟨((relist_differs hd hk htype).live_iff hn).mp hlive, ?_⟩
  by_cases hnd : n = d
  · subst hnd
    rw [cur, relist_cached, update_self] at hi hb
    rw [h.cur_dir hd]
    exact ⟨hi, hb⟩
  · rw [cur, relist_cached, relist_node, update_of_ne hnd, update_of_ne hnd, update_of_ne hn, update_of_ne hn] at hi hb
    exact ⟨hi, hb⟩

end Relist

def append (V : Vol) (d : ℕ) (nm : Name) (k : ℕ) (new : Dinode) (used : Set ℤ) : Vol :=
  V.relist d k (V.dir d ++ [(nm, (k : ℤ))]) new (some new) used

section Append

lemma append_names (h : V.Tree) (hd : V.IsDir d) (hnew : nm ∉ (V.dir d).map Prod.fst) :
    ((V.dir d ++ [(nm, (k : ℤ))]).map Prod.fst).Nodup := by
  rw [List.map_append, List.map_singleton]
  exact List.Nodup.append (h.names d hd) (List.nodup_singleton _) (by simpa using hnew)

lemma append_count (hn : n ≠ k) :
    (V.dir d ++ [(nm, (k : ℤ))]).countP (fun e : Name × ℤ => e.2 = (n : ℤ)) =
      (V.dir d).countP (fun e : Name × ℤ => e.2 = (n : ℤ)) := by
  rw [List.countP_append, List.countP_singleton]
  simp [hn.symm]

lemma append_count_self :
    (V.dir d ++ [(nm, (k : ℤ))]).countP (fun e : Name × ℤ => e.2 = (k : ℤ)) =
      (V.dir d).countP (fun e : Name × ℤ => e.2 = (k : ℤ)) + 1 := by
  rw [List.countP_append, List.countP_singleton]
  simp

lemma Tree.append (h : V.Tree) (hd : V.IsDir d) (hlen : (V.dir d).length < 128) (hnm : nm.length < rfsMaxFileNameLen)
    (hnew : nm ∉ (V.dir d).map Prod.fst) (hk : k < ninodes) (htype : (V.node k).type ≠ dirI)
    (hkind : new.type = fileI ∨ new.type = dirI ∧ new.blocks = 1 ∧ new.nlinks = 1 ∧ new.size = 0)
    (hbounds : 0 ≤ new.blocks ∧ new.blocks ≤ 10 ∧ 0 ≤ new.size ∧ new.size ≤ 4096 * new.blocks)
    (hlinks : new.nlinks = V.links k + 1) : (V.append d nm k new used).Tree := by
  have hdiff : Differs V (V.append d nm k new used) d k := relist_differs hd hk htype
  have hnode : (V.append d nm k new used).node k = new := relist_node_self hdiff.ne
  have hdir : (V.append d nm k new used).dir d = V.dir d ++ [(nm, (k : ℤ))] := relist_dir_self
  have hmore := hdiff.links (n := k)
  rw [hdir, append_count_self] at hmore
  have hnot : new.type ≠ rFree := by
    rcases hkind with ht | ⟨ht, -⟩ <;> rw [ht] <;> decide
  refine hdiff.tree h ?_ ?_ ?_ ?_ ?_ ?_ ?_
  · rw [hdir, List.length_append, List.length_singleton]
    omega
  · rw [hdir]
    exact append_names h hd hnew
  · rw [hdir]
    intro e he
    rcases List.mem_append.mp he with he | he
    · exact .inl he
    · rw [List.mem_singleton.mp he]
      exact .inr ⟨hnm, rfl⟩
  · intro n hn
    rw [hdir]
    exact append_count hn
  · rw [hnode]
    exact hkind.imp_right .inl
  · intro
    rw [hnode]
    refine ⟨hbounds, ?_, ?_⟩
    · rw [hlinks]
      omega
    · omega
  · intro c hc
    have hcached : (V.append d nm k new used).cached k = some new := relist_cached_self hdiff.ne
    rw [hcached, Option.some.injEq] at hc
    subst hc
    rw [hnode]
    exact ⟨hnot, rfl, rfl, fun _ => rfl, ⟨le_rfl, hbounds.2.1⟩, fun _ _ => rfl, hbounds.2.2⟩

structure Fresh (new : Dinode) (b : ℤ) : Prop where
  size : new.size = 0
  nlinks : new.nlinks = 1
  kind : new.type = fileI ∧ new.blocks = 0 ∨ new.type = dirI ∧ new.blocks = 1
  block : new.addrs 0 = b

lemma Ok.make (h : V.Ok) (hd : V.IsDir d) (hlen : (V.dir d).length < 128) (hnm : nm.length < rfsMaxFileNameLen)
    (hnew : nm ∉ (V.dir d).map Prod.fst) (hk : k < ninodes) (hfree : (V.node k).type = rFree) (hfresh : Fresh new b)
    (hb : b ∉ V.used) (hrange : b ∈ Set.Ico (12 : ℤ) 112) : (V.append d nm k new (insert b V.used)).Ok := by
  have htype : (V.node k).type ≠ dirI := by rw [hfree]; decide
  have hdead : k ∉ V.live := fun hl => hl.2 hfree
  have hdiff : Differs V (V.append d nm k new (insert b V.used)) d k := relist_differs hd hk htype
  refine ⟨h.tree.append hd hlen hnm hnew hk htype ?_ ?_ ?_, ?_, Set.insert_subset hrange h.range⟩
  · rcases hfresh.kind with ⟨ht, -⟩ | ⟨ht, hbl⟩
    · exact .inl ht
    · exact .inr ⟨ht, hbl, hfresh.nlinks, hfresh.size⟩
  · have hs := hfresh.size
    rcases hfresh.kind with ⟨-, hbl⟩ | ⟨-, hbl⟩ <;> omega
  · rw [h.tree.links_eq_zero (.inl hdead), hfresh.nlinks]
    rfl
  · have hlive : (V.append d nm k new (insert b V.used)).live ⊆ insert k V.live := by
      intro n hn
      by_cases hnk : n = k
      · exact .inl hnk
      · exact .inr ((hdiff.live_iff hnk).mp hn)
    refine (h.blocks.spawn (i := (0 : Fin 10)) hdead hb ?_).congr hlive fun _ _ _ h => h
    intro n i b' hh
    by_cases hnk : n = k
    · subst hnk
      obtain ⟨-, hi, hb'⟩ := hh
      rw [Vol.append, relist_cur_self hdiff.ne] at hi hb'
      change (i : ℤ) < new.blocks at hi
      change new.addrs i = b' at hb'
      have hi0 : i = 0 := by
        rw [Fin.ext_iff]
        change (i : ℕ) = 0
        rcases hfresh.kind with ⟨-, hbl⟩ | ⟨-, hbl⟩ <;> omega
      subst hi0
      exact .inr ⟨rfl, rfl, hb'.symm.trans hfresh.block⟩
    · exact .inl (relist_holds h.tree hd hk htype hnk hh)

lemma Ok.link (h : V.Ok) (hd : V.IsDir d) (hlen : (V.dir d).length < 128) (hnm : nm.length < rfsMaxFileNameLen)
    (hnew : nm ∉ (V.dir d).map Prod.fst) (hfile : (V.node k).type = fileI) (hc : V.cached k = some c) :
    (V.append d nm k { c with nlinks := c.nlinks + 1 } V.used).Ok := by
  obtain ⟨hlive, ha⟩ := h.tree.cached k c hc
  have htype : (V.node k).type ≠ dirI := by rw [hfile]; decide
  have hk0 : k ≠ 0 := by
    rintro rfl
    exact htype h.tree.root
  have hdiff : Differs V (V.append d nm k { c with nlinks := c.nlinks + 1 } V.used) d k :=
    relist_differs hd hlive.1 htype
  refine ⟨h.tree.append hd hlen hnm hnew hlive.1 htype (.inl (ha.type.trans hfile)) ?_ ?_, ?_, h.range⟩
  · exact ⟨(h.tree.bounds k hlive).1.trans ha.blocks.1, ha.blocks.2, ha.size⟩
  · change c.nlinks + 1 = _
    rw [ha.nlinks, h.tree.links k hlive hk0]
  · refine h.blocks.congr ?_ ?_
    · intro n hn
      by_cases hnk : n = k
      · exact hnk ▸ hlive
      · exact (hdiff.live_iff hnk).mp hn
    · intro n i b' hh
      by_cases hnk : n = k
      · subst hnk
        obtain ⟨-, hi, hb'⟩ := hh
        rw [Vol.append, relist_cur_self hdiff.ne] at hi hb'
        rw [Vol.Holds, cur_cached hc]
        exact ⟨hlive, hi, hb'⟩
      · exact relist_holds h.tree hd hlive.1 htype hnk hh

end Append

def remove (V : Vol) (d j k : ℕ) (node : Dinode) (o : Option Dinode) (used : Set ℤ) : Vol :=
  V.relist d k ((V.dir d).eraseIdx j) node o used

section Remove

variable {e : Name × ℤ}

lemma countP_eraseIdx {α : Type} {l : List α} {x : α} (hj : l[j]? = some x) (p : α → Bool) :
    (l.eraseIdx j).countP p + (if p x then 1 else 0) = l.countP p := by
  induction l generalizing j with
  | nil => cases hj
  | cons y l ih =>
    cases j with
    | zero =>
      rw [List.getElem?_cons_zero, Option.some.injEq] at hj
      subst hj
      rw [List.eraseIdx_cons_zero, List.countP_cons]
    | succ j =>
      rw [List.getElem?_cons_succ] at hj
      rw [List.eraseIdx_cons_succ, List.countP_cons, List.countP_cons, ← ih hj]
      omega

lemma remove_links (hd : V.IsDir d) (hk : k < ninodes) (htype : (V.node k).type ≠ dirI) (hj : (V.dir d)[j]? = some e)
    (he : e.2 = (k : ℤ)) {o : Option Dinode} : (V.remove d j k new o used).links k + 1 = V.links k := by
  have hdiff : Differs V (V.remove d j k new o used) d k := relist_differs hd hk htype
  have hdir : (V.remove d j k new o used).dir d = (V.dir d).eraseIdx j := relist_dir_self
  have hless := hdiff.links (n := k)
  have hcount := countP_eraseIdx hj (fun e : Name × ℤ => e.2 = (k : ℤ))
  rw [if_pos (decide_eq_true he)] at hcount
  rw [hdir] at hless
  omega

lemma Tree.remove (h : V.Tree) (hd : V.IsDir d) (hfile : (V.node k).type = fileI) (hlive : k ∈ V.live)
    (hj : (V.dir d)[j]? = some e) (he : e.2 = (k : ℤ)) {o : Option Dinode}
    (hkind : new.type = fileI ∧ new.nlinks = (V.node k).nlinks - 1 ∧ (V.node k).nlinks ≠ 1 ∧
      new.blocks = (V.node k).blocks ∧ new.size = (V.node k).size ∨ new.type = rFree ∧ (V.node k).nlinks = 1)
    (ho : ∀ c, o = some c → new.type = fileI ∧ c.Ahead new) : (V.remove d j k new o used).Tree := by
  have htype : (V.node k).type ≠ dirI := by rw [hfile]; decide
  have hk0 : k ≠ 0 := by
    rintro rfl
    exact htype h.root
  have hdiff : Differs V (V.remove d j k new o used) d k := relist_differs hd hlive.1 htype
  have hnode : (V.remove d j k new o used).node k = new := relist_node_self hdiff.ne
  have hdir : (V.remove d j k new o used).dir d = (V.dir d).eraseIdx j := relist_dir_self
  have hless : (V.remove d j k new o used).links k + 1 = V.links k := remove_links hd hlive.1 htype hj he
  have hold := h.links k hlive hk0
  refine hdiff.tree h ?_ ?_ ?_ ?_ ?_ ?_ ?_
  · have hle := (h.isDir d hd).2.2.2
    rw [hdir]
    exact (List.length_eraseIdx_le _ _).trans hle
  · rw [hdir]
    exact (h.names d hd).sublist ((List.eraseIdx_sublist _ _).map _)
  · rw [hdir]
    exact fun e' he' => .inl (List.mem_of_mem_eraseIdx he')
  · intro n hn
    have hcount := countP_eraseIdx hj (fun e : Name × ℤ => e.2 = (n : ℤ))
    have hno : ¬ e.2 = (n : ℤ) := by
      rw [he, Nat.cast_inj]
      exact hn.symm
    rw [if_neg (by rwa [decide_eq_true_eq])] at hcount
    rw [hdir]
    omega
  · rw [hnode]
    rcases hkind with ⟨ht, -⟩ | ⟨ht, hone⟩
    · exact .inl ht
    · exact .inr (.inr ⟨ht, by omega⟩)
  · rw [hnode]
    intro hnot
    rcases hkind with ⟨-, hl, hmore, hbl, hs⟩ | ⟨ht, -⟩
    · have hbounds := h.bounds k hlive
      have hpos := h.linked k hlive
      rw [hbl, hs]
      exact ⟨hbounds, by omega, by omega⟩
    · exact absurd ht hnot
  · intro c hc
    have hcached : (V.remove d j k new o used).cached k = o := relist_cached_self hdiff.ne
    rw [hcached] at hc
    obtain ⟨ht, ha⟩ := ho c hc
    rw [hnode]
    refine ⟨?_, ha⟩
    rw [ht]
    decide

lemma Ok.unlink (h : V.Ok) (hd : V.IsDir d) (hfile : (V.node k).type = fileI) (hc : V.cached k = some c)
    (hj : (V.dir d)[j]? = some e) (he : e.2 = (k : ℤ)) (hmore : (V.node k).nlinks ≠ 1) :
    (V.remove d j k { V.node k with nlinks := (V.node k).nlinks - 1 } (some { c with nlinks := c.nlinks - 1 })
      V.used).Ok := by
  obtain ⟨hlive, ha⟩ := h.tree.cached k c hc
  have htype : (V.node k).type ≠ dirI := by rw [hfile]; decide
  have hdiff : Differs V (V.remove d j k { V.node k with nlinks := (V.node k).nlinks - 1 }
      (some { c with nlinks := c.nlinks - 1 }) V.used) d k := relist_differs hd hlive.1 htype
  refine ⟨h.tree.remove hd hfile hlive hj he (.inl ⟨hfile, rfl, hmore, rfl, rfl⟩) ?_, ?_, h.range⟩
  · rintro c' ⟨⟩
    refine ⟨hfile, ⟨ha.type, ?_, fun hd => absurd hd htype, ha.blocks, ha.addrs, ha.size⟩⟩
    change c.nlinks - 1 = (V.node k).nlinks - 1
    rw [ha.nlinks]
  · refine h.blocks.congr ?_ ?_
    · intro n hn
      by_cases hnk : n = k
      · exact hnk ▸ hlive
      · exact (hdiff.live_iff hnk).mp hn
    · intro n i b' hh
      by_cases hnk : n = k
      · subst hnk
        obtain ⟨-, hi, hb'⟩ := hh
        rw [Vol.remove, relist_cur_self hdiff.ne] at hi hb'
        rw [Vol.Holds, cur_cached hc]
        exact ⟨hlive, hi, hb'⟩
      · exact relist_holds h.tree hd hlive.1 htype hnk hh

lemma Ok.delete (h : V.Ok) (hd : V.IsDir d) (hfile : (V.node k).type = fileI) (hlive : k ∈ V.live)
    (hj : (V.dir d)[j]? = some e) (he : e.2 = (k : ℤ)) (hone : (V.node k).nlinks = 1) (hnew : new.type = rFree)
    (hsub : used ⊆ V.used)
    (hused : ∀ b ∈ V.used, b ∈ used ∨ ∃ i : Fin 10, (i : ℤ) < (V.node k).blocks ∧ (V.node k).addrs i = b) :
    (V.remove d j k new none used).Ok := by
  have htype : (V.node k).type ≠ dirI := by rw [hfile]; decide
  have hdiff : Differs V (V.remove d j k new none used) d k := relist_differs hd hlive.1 htype
  have hnode : (V.remove d j k new none used).node k = new := relist_node_self hdiff.ne
  have ha := h.tree.cur_ahead hlive
  refine ⟨h.tree.remove hd hfile hlive hj he (.inr ⟨hnew, hone⟩) nofun, ?_, hsub.trans h.range⟩
  have hgone : ∀ n ∈ (V.remove d j k new none used).live, n ≠ k := by
    rintro n hn rfl
    exact hn.2 (by rw [hnode, hnew])
  refine h.blocks.die (n := k) ?_ ?_ ?_
  · intro n hn
    have hnk := hgone n hn
    exact ⟨(hdiff.live_iff hnk).mp hn, hnk⟩
  · intro n i b' hh
    have hnk := hgone n hh.1
    exact ⟨relist_holds h.tree hd hlive.1 htype hnk hh, hnk⟩
  · intro b hb
    rcases hused b hb with hb | ⟨i, hi, hib⟩
    · exact .inl hb
    · exact .inr ⟨i, hlive, hi.trans_le ha.blocks.1, (ha.addrs i hi).trans hib⟩

end Remove

lemma Ok.exists_free (h : V.Ok) : ∃ n < ninodes, (V.node n).type = rFree := by
  by_contra hno
  have hall : (Finset.range ninodes : Set ℕ) ⊆ V.live := by
    intro n hn
    rw [Finset.mem_coe, Finset.mem_range] at hn
    exact ⟨hn, fun e => hno ⟨n, hn, e⟩⟩
  have hused : V.used.encard ≤ 100 := by
    refine (Set.encard_le_encard h.range).trans ?_
    rw [← Finset.coe_Ico, Set.encard_coe_eq_coe_finsetCard, Int.card_Ico]
    norm_num
  have hlive : (320 : ℕ∞) ≤ V.live.encard := by
    refine le_trans ?_ (Set.encard_le_encard hall)
    rw [Set.encard_coe_eq_coe_finsetCard, Finset.card_range]
    norm_num
  have hle := hlive.trans (h.blocks.encard_le.trans hused)
  exact absurd hle (by decide)

end Vol

end Pke.Files
