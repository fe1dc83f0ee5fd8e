import Pke.Memory.PageTree

namespace Pke.Memory

open Lib Flow Function

def Frames.Stocked (f : Frames) (P : Set ℕ) : Prop :=
  ∃ pages l, f.Layout pages ∧ f.FreeList l ∧ ∀ a ∈ l, a ∈ pages ∧ a ∉ P

structure Tree.Stands (t : Tree) (f : Frames) (m : PageMap) : Prop where
  holds : t.Holds f.mem m
  stocked : f.Stocked t.pages

namespace Tree

variable {t : Tree} {f : Frames} {m : PageMap} {n : Node} {a b c k va : ℕ} {alloc : Bool}

lemma nextTable_found (h : t.Holds f.mem m) (hn : n.Inner) (hb : t.page n = some b) (hk : k < 512)
    (hc : t.page (n.child k) = some c) : Frames.nextTable alloc b k f = .done (some c) f := by
  have hword : f.word (slot b k) = linkWord (some c) := by
    rw [Frames.word, h.words n b hb k hk, content_inner hn, hc]
  obtain ⟨hal, hlt⟩ := h.aligned _ c hc
  rw [Frames.nextTable, get_bind, hword, if_pos (linkWord_valid c), pte2pa_linkWord hlt hal]
  rfl

lemma nextTable_missing (h : t.Holds f.mem m) (hn : n.Inner) (hb : t.page n = some b) (hk : k < 512)
    (hc : t.page (n.child k) = none) : Frames.nextTable false b k f = .done none f := by
  have hword : f.word (slot b k) = 0 := by
    rw [Frames.word, h.words n b hb k hk, content_inner hn, hc]
    rfl
  rw [Frames.nextTable, get_bind, hword, if_neg (by simp)]
  rfl

lemma nextTable_alloc (h : t.Stands f m) (hn : n.Inner) (hb : t.page n = some b) (hk : k < 512)
    (hc : t.page (n.child k) = none) :
    (Frames.nextTable true b k f = .done none f ∧ f.gFreeMemList = 0) ∨
      ∃ a g, Frames.nextTable true b k f = .done (some a) g ∧ (t.attach (n.child k) a).Stands g m := by
  have hword : f.word (slot b k) = 0 := by
    rw [Frames.word, h.holds.words n b hb k hk, content_inner hn, hc]
    rfl
  obtain ⟨pages, l, hlay, hlist, hl⟩ := h.stocked
  rw [Frames.nextTable, get_bind, hword, if_neg (by simp), if_pos rfl]
  by_cases hf : f.gFreeMemList = 0
  · left
    refine ⟨?_, hf⟩
    rw [bind_done (Frames.allocPage_nil hf), if_neg (by simp)]
    rfl
  · right
    obtain ⟨r, rfl⟩ := hlist.head_cons hf
    obtain ⟨hpage, hnew⟩ := hl f.gFreeMemList (by simp)
    obtain ⟨hal, hpos, hlo, hhi⟩ := hlay.page _ hpage
    have hlt : f.gFreeMemList < 2 ^ 64 := by
      have := hlay.small
      omega
    have hnd := hlist.nodup
    rw [List.nodup_cons] at hnd
    let g : Frames := { f.taken with
      mem := store64 (clearPage f.mem f.gFreeMemList) (slot b k) (linkWord (some f.gFreeMemList)) }
    refine ⟨f.gFreeMemList, g, ?_, h.holds.attach hn hb hk hc hal hlt hnew, pages, r, hlay.congr rfl rfl, ?_, ?_⟩
    · rw [bind_done (Frames.allocPage_eq hlay hpage), if_pos hf, modify_bind]
      rfl
    · have hrest : f.taken.FreeList r := hlist.2
      refine hrest.of_mem rfl ?_
      intro d hd
      obtain ⟨hdp, hdt⟩ := hl d (by simp [hd])
      have hda := (hlay.page d hdp).1
      have hdne : d ≠ f.gFreeMemList := ne_of_mem_of_not_mem hd hnd.1
      have hdb : d ≠ b := fun e => hdt ⟨n, e ▸ hb⟩
      have hbal := (h.holds.aligned n b hb).1
      have hzero : slot d 0 = d := rfl
      change load64 (store64 (clearPage f.mem f.gFreeMemList) _ _) d = load64 f.mem d
      rw [← hzero, load64_store64_slot _ _ hbal hda hk (by norm_num) (fun e => absurd e hdb),
        load64_clearPage_of_ne _ hal hda hdne (by norm_num)]
    · intro d hd
      obtain ⟨hdp, hdt⟩ := hl d (by simp [hd])
      refine ⟨hdp, ?_⟩
      rintro ⟨y, hy⟩
      by_cases hyx : y = n.child k
      · have hroot : n.child k ≠ .root := by
          cases n <;> simp [Node.child]
        subst hyx
        rw [page_attach_self hroot, Option.some.injEq] at hy
        exact hnd.1 (hy ▸ hd)
      · rw [page_attach_of_ne hyx] at hy
        exact hdt ⟨y, hy⟩

def leafSlot (t : Tree) (va : ℕ) : Option ℕ := (t.low (va / 2 ^ 21)).map fun a => slot a (va / 2 ^ 12 % 512)

lemma px_two (hva : va < maxva) : px 2 va = va / 2 ^ 30 := by
  unfold px
  norm_num [maxva] at hva ⊢
  omega

lemma px_lt (level va : ℕ) : px level va < 512 := Nat.mod_lt _ (by norm_num)

lemma child_mid (va : ℕ) : (Node.mid (va / 2 ^ 30)).child (px 1 va) = .low (va / 2 ^ 21) := by
  rw [Node.child, px]
  congr 1
  norm_num
  omega

lemma child_root (hva : va < maxva) : Node.root.child (px 2 va) = .mid (va / 2 ^ 30) := by
  rw [Node.child, px_two hva]

lemma pageWalk_read (h : t.Holds f.mem m) (hva : va < maxva) :
    Frames.pageWalk t.dir va false f = .done (t.leafSlot va) f := by
  rw [Frames.pageWalk, if_neg (by omega), leafSlot]
  cases hm : t.mid (va / 2 ^ 30) with
  | none =>
    have hlow : t.low (va / 2 ^ 21) = none := by
      rw [Option.eq_none_iff_forall_ne_some]
      intro c hc
      obtain ⟨d, hd⟩ := h.within.2 _ c hc
      have hdiv : va / 2 ^ 21 / 512 = va / 2 ^ 30 := by omega
      rw [hdiv, hm] at hd
      cases hd
    have hpage : t.page (Node.root.child (px 2 va)) = none := by rw [child_root hva]; exact hm
    rw [bind_done (nextTable_missing h (n := .root) trivial rfl (px_lt 2 va) hpage), hlow]
    rfl
  | some mid =>
    have hpage : t.page (Node.root.child (px 2 va)) = some mid := by rw [child_root hva]; exact hm
    rw [bind_done (nextTable_found h (n := .root) trivial rfl (px_lt 2 va) hpage)]
    cases hl : t.low (va / 2 ^ 21) with
    | none =>
      have hpage' : t.page ((Node.mid (va / 2 ^ 30)).child (px 1 va)) = none := by rw [child_mid]; exact hl
      exact bind_done (nextTable_missing h (n := .mid _) trivial hm (px_lt 1 va) hpage')
    | some low =>
      have hpage' : t.page ((Node.mid (va / 2 ^ 30)).child (px 1 va)) = some low := by rw [child_mid]; exact hl
      exact bind_done (nextTable_found h (n := .mid _) trivial hm (px_lt 1 va) hpage')

lemma pageWalk_alloc (h : t.Stands f m) (hva : va < maxva) :
    ∃ o g, ∃ t' : Tree, Frames.pageWalk t.dir va true f = .done o g ∧ t'.Stands g m ∧ t'.dir = t.dir ∧
      (o = none ∧ g.gFreeMemList = 0 ∨ o = t'.leafSlot va ∧ o.isSome) := by
  rw [Frames.pageWalk, if_neg (by omega)]
  -- the middle level: there, added, or no page left
  have hmid : (Frames.nextTable true t.dir (px 2 va) f = .done none f ∧ f.gFreeMemList = 0) ∨
      ∃ mid g, ∃ t' : Tree, Frames.nextTable true t.dir (px 2 va) f = .done (some mid) g ∧ t'.Stands g m ∧
        t'.dir = t.dir ∧ t'.page (.mid (va / 2 ^ 30)) = some mid := by
    cases hm : t.page (Node.root.child (px 2 va)) with
    | some mid =>
      refine .inr ⟨mid, f, t, nextTable_found h.holds (n := .root) trivial rfl (px_lt 2 va) hm, h, rfl, ?_⟩
      rwa [child_root hva] at hm
    | none =>
      rcases nextTable_alloc h (n := .root) trivial rfl (px_lt 2 va) hm with hnone | ⟨a, g, hrun, hst⟩
      · exact .inl hnone
      · refine .inr ⟨a, g, _, hrun, hst, attach_dir _ _ _, ?_⟩
        rw [child_root hva]
        exact page_attach_self (by simp)
  rcases hmid with hnone | ⟨mid, g, t', hrun, hst, hdir, hpage⟩
  · exact ⟨none, f, t, bind_done hnone.1, h, rfl, .inl ⟨rfl, hnone.2⟩⟩
  · rw [bind_done hrun]
    cases hl : t'.page ((Node.mid (va / 2 ^ 30)).child (px 1 va)) with
    | some low =>
      have hlow : t'.low (va / 2 ^ 21) = some low := by rwa [child_mid] at hl
      refine ⟨some (slot low (px 0 va)), g, t', ?_, hst, hdir, .inr ⟨?_, rfl⟩⟩
      · exact bind_done (nextTable_found hst.holds (n := .mid _) trivial hpage (px_lt 1 va) hl)
      · rw [leafSlot, hlow]
        rfl
    | none =>
      rcases nextTable_alloc hst (n := .mid _) trivial hpage (px_lt 1 va) hl with hnone | ⟨a, g', hrun', hst'⟩
      · exact ⟨none, g, t', bind_done hnone.1, hst, hdir, .inl ⟨rfl, hnone.2⟩⟩
      · refine ⟨some (slot a (px 0 va)), g', _, bind_done hrun', hst', ?_, .inr ⟨?_, rfl⟩⟩
        · rw [attach_dir, hdir]
        · have hlow : (t'.attach ((Node.mid (va / 2 ^ 30)).child (px 1 va)) a).low (va / 2 ^ 21) = some a := by
            rw [child_mid]
            exact page_attach_self (x := .low _) (by simp)
          rw [leafSlot, hlow]
          rfl

lemma leaf_word (h : t.Holds f.mem m) (hs : t.leafSlot va = some a) : f.word a = encodeEntry (m (va / 2 ^ 12)) := by
  obtain ⟨b, hb, rfl⟩ := Option.map_eq_some_iff.mp hs
  have hv : 512 * (va / 2 ^ 21) + va / 2 ^ 12 % 512 = va / 2 ^ 12 := by omega
  rw [Frames.word, h.words (.low _) b hb _ (Nat.mod_lt _ (by norm_num)), content, hv]

lemma leaf_missing (h : t.Holds f.mem m) (hs : t.leafSlot va = none) : m (va / 2 ^ 12) = none := by
  rw [leafSlot, Option.map_eq_none_iff] at hs
  rw [Option.eq_none_iff_forall_ne_some]
  intro e he
  obtain ⟨b, hb⟩ := h.covered _ e he
  have hv : va / 2 ^ 12 / 512 = va / 2 ^ 21 := by omega
  rw [hv, hs] at hb
  cases hb

lemma leaf_store (h : t.Holds f.mem m) (hs : t.leafSlot va = some a) {o : Option Entry} (ho : ∀ e, o = some e → e.Wf) :
    t.Holds (store64 f.mem a (encodeEntry o)) (update m (va / 2 ^ 12) o) := by
  obtain ⟨b, hb, rfl⟩ := Option.map_eq_some_iff.mp hs
  have hv : 512 * (va / 2 ^ 21) + va / 2 ^ 12 % 512 = va / 2 ^ 12 := by omega
  have hset := h.setEntry hb (Nat.mod_lt (va / 2 ^ 12) (by norm_num : 0 < 512)) ho
  rwa [hv] at hset

lemma Stands.store (h : t.Stands f m) (hs : t.leafSlot va = some a) {o : Option Entry} (ho : ∀ e, o = some e → e.Wf) :
    t.Stands { f with mem := store64 f.mem a (encodeEntry o) } (update m (va / 2 ^ 12) o) := by
  refine ⟨leaf_store h.holds hs ho, ?_⟩
  obtain ⟨b, hb, rfl⟩ := Option.map_eq_some_iff.mp hs
  obtain ⟨pages, l, hlay, hlist, hl⟩ := h.stocked
  refine ⟨pages, l, hlay.congr rfl rfl, hlist.of_mem rfl ?_, hl⟩
  intro d hd
  obtain ⟨hdp, hdt⟩ := hl d hd
  have hda := (hlay.page d hdp).1
  have hdb : d ≠ b := fun e => hdt ⟨.low _, e ▸ hb⟩
  have hbal := (h.holds.aligned (.low _) b hb).1
  have hzero : slot d 0 = d := rfl
  change load64 (store64 f.mem _ _) d = load64 f.mem d
  rw [← hzero, load64_store64_slot _ _ hbal hda (Nat.mod_lt _ (by norm_num)) (by norm_num) (fun e => absurd e hdb)]

end Tree

namespace Frames

variable {t : Tree} {f : Frames} {m : PageMap} {a va pa perm : ℕ}

lemma readEntry_eq (h : t.Holds f.mem m) (hva : va < maxva) :
    readEntry t.dir va f = .done (encodeEntry (m (va / 2 ^ 12))) f := by
  rw [readEntry, bind_done (Tree.pageWalk_read h hva)]
  cases hs : t.leafSlot va with
  | none =>
    rw [Tree.leaf_missing h hs]
    rfl
  | some a =>
    rw [← Tree.leaf_word h hs]
    rfl

def Maps (f : Frames) (dir : ℕ) (m : PageMap) : Prop := ∃ t : Tree, t.dir = dir ∧ t.Stands f m

lemma mapPage_meets {dir : ℕ} (h : f.Maps dir m) (hva : va < maxva) (hpa : pa < 2 ^ 56) (hperm : perm < 2 ^ 10) :
    meets False (mapPage dir va pa perm)
      (fun b g => if b then g.Maps dir (update m (va / 2 ^ 12) (some ⟨pa / 2 ^ 12, perm ||| pteV⟩))
        else g.gFreeMemList = 0 ∧ g.Maps dir m)
      (fun g => m (va / 2 ^ 12) ≠ none ∧ g.Maps dir m) f := by
  obtain ⟨t, rfl, hst⟩ := h
  obtain ⟨o, g, t', hrun, hst', hdir, ho⟩ := Tree.pageWalk_alloc hst hva
  rw [mapPage]
  refine meets_bind (meets_done hrun ?_)
  rcases ho with ⟨rfl, hnone⟩ | ⟨ho, hsome⟩
  · exact meets_pure ⟨hnone, t', hdir, hst'⟩
  · obtain ⟨a, rfl⟩ := Option.isSome_iff_exists.mp hsome
    have hword := Tree.leaf_word hst'.holds ho.symm
    have hzero := encodeEntry_valid_iff (hst'.holds.wf (va / 2 ^ 12))
    refine meets_bind (meets_done rfl ?_)
    rw [hword]
    by_cases hv : m (va / 2 ^ 12) = none
    · rw [if_neg (by simpa using hzero.mpr hv), mapped_word pa hperm]
      have hnew := hst'.store ho.symm (o := some ⟨pa / 2 ^ 12, perm ||| pteV⟩) (by
        rintro e ⟨⟩
        exact Entry.mapped_wf hpa hperm)
      exact meets_bind (meets_done rfl (meets_pure ⟨t', hdir, hnew⟩))
    · rw [if_pos (fun e => hv (hzero.mp e))]
      exact meets_leave ⟨hv, t', hdir, hst'⟩

lemma unmapPage_meets {free : Bool} {pages : List ℕ} (h : t.Holds f.mem m) (hlay : f.Layout pages) (hva : va < maxva)
    (hfree : free = true → ∀ e, m (va / 2 ^ 12) = some e → e.ppn * 4096 ∉ t.pages) :
    meets (free = true ∧ ∃ e, m (va / 2 ^ 12) = some e ∧ e.ppn * 4096 ∉ pages) (unmapPage t.dir va free)
      (fun _ g => t.Holds g.mem (update m (va / 2 ^ 12) none) ∧ g.Layout pages)
      (fun g => g = f ∧ ∀ e, m (va / 2 ^ 12) = some e → e.flags = pteV) f := by
  rw [unmapPage]
  refine meets_bind (meets_done (Tree.pageWalk_read h hva) ?_)
  cases hs : t.leafSlot va with
  | none =>
    refine meets_leave ⟨rfl, fun e he => ?_⟩
    rw [Tree.leaf_missing h hs] at he
    cases he
  | some a =>
    have hword := Tree.leaf_word h hs
    refine meets_bind (meets_done rfl ?_)
    simp only [hword]
    cases hv : m (va / 2 ^ 12) with
    | none =>
      rw [if_pos ((encodeEntry_valid_iff (by simp)).mpr rfl)]
      exact meets_leave ⟨rfl, by simp⟩
    | some e =>
      have hwf := h.wf _ e hv
      have hvalid : ¬ encodeEntry (some e) &&& pteV = 0 := by
        rw [encodeEntry_valid_iff (by rintro e' ⟨⟩; exact hwf)]
        simp
      rw [if_neg hvalid, encodeEntry, Entry.flags_encode hwf, pte2pa_encode hwf]
      by_cases hf : e.flags = pteV
      · rw [if_pos hf]
        refine meets_leave ⟨rfl, ?_⟩
        rintro e' ⟨⟩
        exact hf
      · rw [if_neg hf]
        have hstore := fun (g : Frames) (hg : t.Holds g.mem m) => Tree.leaf_store hg hs (o := none) (by simp)
        cases free with
        | false =>
          exact meets_done rfl ⟨hstore f h, hlay.congr rfl rfl⟩
        | true =>
          rcases freePage_cases hlay (e.ppn * 4096) with hhalt | ⟨hdone, hlay'⟩
          · have hout : e.ppn * 4096 ∉ pages := by
              intro hin
              rw [freePage_eq hlay hin] at hhalt
              cases hhalt
            rw [if_pos rfl]
            refine meets_bind ?_
            rw [meets, hhalt]
            exact ⟨rfl, e, rfl, hout⟩
          · rw [if_pos rfl]
            refine meets_bind (meets_done hdone ?_)
            have hkeep : t.Holds (f.freed (e.ppn * 4096)).mem m := by
              refine h.congr ?_
              rintro b ⟨n, hn⟩ x hx hx'
              have hb := (h.aligned n b hn).1
              have hne : b ≠ e.ppn * 4096 := fun e' => hfree rfl e hv (e' ▸ ⟨n, hn⟩)
              exact freed_mem f (by omega)
            exact meets_done rfl ⟨hstore _ hkeep, (hlay.freed _).congr rfl rfl⟩

lemma userVmSetCow_eq (h : t.Holds f.mem m) (hva : va < maxva) :
    ∃ g, userVmSetCow t.dir va f = .done () g ∧
      t.Holds g.mem (update m (va / 2 ^ 12) ((m (va / 2 ^ 12)).map Entry.cow)) := by
  rw [userVmSetCow, bind_done (Tree.pageWalk_read h hva)]
  cases hs : t.leafSlot va with
  | none =>
    have hm := Tree.leaf_missing h hs
    refine ⟨f, rfl, ?_⟩
    rwa [hm, Option.map_none, ← hm, update_eq_self]
  | some a =>
    have hword := Tree.leaf_word h hs
    simp only [get_bind, hword]
    cases hv : m (va / 2 ^ 12) with
    | none =>
      rw [if_pos ((encodeEntry_valid_iff (by simp)).mpr rfl)]
      refine ⟨f, rfl, ?_⟩
      rwa [Option.map_none, ← hv, update_eq_self]
    | some e =>
      have hwf := h.wf _ e hv
      have hvalid : ¬ encodeEntry (some e) &&& pteV = 0 := by
        rw [encodeEntry_valid_iff (by rintro e' ⟨⟩; exact hwf)]
        simp
      rw [if_neg hvalid, encodeEntry, cow_word hwf]
      have hnew := Tree.leaf_store h hs (o := some e.cow) (by
        rintro e' ⟨⟩
        exact hwf.cow)
      exact ⟨_, rfl, hnew⟩

lemma lookupPa_eq (h : t.Holds f.mem m) (hva : va < maxva) {e : Entry} (he : m (va / 2 ^ 12) = some e)
    (hrw : e.flags.testBit 1 = true ∨ e.flags.testBit 2 = true) :
    lookupPa t.dir va f = .done (e.ppn * 4096) f := by
  have hwf := h.wf _ e he
  rw [lookupPa, if_neg (by omega), bind_done (Tree.pageWalk_read h hva)]
  cases hs : t.leafSlot va with
  | none =>
    rw [Tree.leaf_missing h hs] at he
    cases he
  | some a =>
    have hword := Tree.leaf_word h hs
    simp only [get_bind, hword, he, encodeEntry]
    have hR : e.encode &&& pteR = 0 ↔ e.flags.testBit 1 = false := by
      rw [← Entry.testBit_encode hwf (by norm_num : 1 < 10)]
      exact and_pow_eq_zero_iff e.encode 1
    have hW : e.encode &&& pteW = 0 ↔ e.flags.testBit 2 = false := by
      rw [← Entry.testBit_encode hwf (by norm_num : 2 < 10)]
      exact and_pow_eq_zero_iff e.encode 2
    have hV : ¬ e.encode &&& pteV = 0 := by
      rw [and_pteV_eq_zero_iff, Entry.testBit_encode hwf (by norm_num), hwf.valid]
      simp
    rw [if_neg, pte2pa_encode hwf]
    · rfl
    · rw [hR, hW, not_or, not_and_or]
      refine ⟨hV, ?_⟩
      simpa using hrw

lemma userVaToPa_eq (h : t.Holds f.mem m) (hva : va < maxva) {e : Entry} (he : m (va / 2 ^ 12) = some e) :
    userVaToPa t.dir va f = .done (e.ppn * 4096 + va % 4096) f := by
  have hwf := h.wf _ e he
  have hp := hwf.ppn
  have hf := hwf.flags
  rw [userVaToPa, bind_done (Tree.pageWalk_read h hva)]
  cases hs : t.leafSlot va with
  | none =>
    rw [Tree.leaf_missing h hs] at he
    cases he
  | some a =>
    have hword := Tree.leaf_word h hs
    simp only [get_bind, hword, he, encodeEntry]
    have hV : ¬ e.encode &&& pteV = 0 := by
      rw [and_pteV_eq_zero_iff, Entry.testBit_encode hwf (by norm_num), hwf.valid]
      simp
    have hdiv : e.encode / 2 ^ 10 = e.ppn := by
      rw [Entry.encode]
      omega
    have hmask : e.ppn &&& 0x3fffffffffff = e.ppn :=
      Nat.and_two_pow_sub_one_of_lt_two_pow (n := 46) (by omega)
    rw [if_neg hV, hdiv, hmask]
    have hval : u64 (e.ppn * 2 ^ 12 + va % 2 ^ 12) = e.ppn * 4096 + va % 4096 := by
      unfold u64
      omega
    rw [hval]
    rfl

end Frames

end Pke.Memory
