import Pke.Memory.Allocator

namespace Pke.Memory

open Lib Flow Function

lemma sub64_of_le {a b : ℕ} (h : b ≤ a) (ha : a < 2 ^ 64) : sub64 a b = a - b := by
  unfold sub64 u64
  omega

namespace Frames

variable {f g : Frames} {pages l : List ℕ} {pa pb : ℕ}

def count (f : Frames) (pa : ℕ) : ℕ := f.pageRefCount (f.index pa)

structure Layout (f : Frames) (pages : List ℕ) : Prop where
  aligned : f.freeMemStartAddr % 4096 = 0
  above : 0 < f.freeMemStartAddr
  page : ∀ pa ∈ pages, pa % 4096 = 0 ∧ 0 < pa ∧ f.freeMemStartAddr ≤ pa ∧ pa + 4096 ≤ f.freeMemEndAddr
  bound : f.freeMemEndAddr ≤ f.freeMemStartAddr + pmmMaxPages * 4096
  small : f.freeMemEndAddr < 2 ^ 64

namespace Layout

lemma congr (h : f.Layout pages) (hs : g.freeMemStartAddr = f.freeMemStartAddr)
    (he : g.freeMemEndAddr = f.freeMemEndAddr) : g.Layout pages := by
  refine ⟨?_, ?_, ?_, ?_, ?_⟩
  · rw [hs]
    exact h.aligned
  · rw [hs]
    exact h.above
  · rw [hs, he]
    exact h.page
  · rw [hs, he]
    exact h.bound
  · rw [he]
    exact h.small

lemma index_eq (h : f.Layout pages) (hpa : pa ∈ pages) : f.index pa = (pa - f.freeMemStartAddr) / 4096 := by
  have := h.page pa hpa
  have := h.small
  rw [index, sub64_of_le (by omega) (by omega)]

lemma index_lt (h : f.Layout pages) (hpa : pa ∈ pages) : f.index pa < f.maxPages ∧ f.index pa < pmmMaxPages := by
  have hp := h.page pa hpa
  have hb := h.bound
  have hs := h.small
  rw [h.index_eq hpa, maxPages, sub64_of_le (by omega) hs]
  omega

lemma index_inj (h : f.Layout pages) (hpa : pa ∈ pages) (hpb : pb ∈ pages) (e : f.index pa = f.index pb) :
    pa = pb := by
  rw [h.index_eq hpa, h.index_eq hpb] at e
  have ha := h.page pa hpa
  have hb := h.page pb hpb
  have hs := h.aligned
  omega

lemma apart (h : f.Layout pages) (hpa : pa ∈ pages) (hpb : pb ∈ pages) (hne : pa ≠ pb) :
    pa + 4096 ≤ pb ∨ pb + 4096 ≤ pa := by
  have ha := h.page pa hpa
  have hb := h.page pb hpb
  omega

end Layout

def setCount (f : Frames) (pa n : ℕ) : Frames := { f with pageRefCount := update f.pageRefCount (f.index pa) n }

def push (f : Frames) (pa : ℕ) : Frames :=
  { f with mem := store64 f.mem pa f.gFreeMemList, gFreeMemList := pa }

lemma count_setCount_self (f : Frames) (pa n : ℕ) : (f.setCount pa n).count pa = n := update_self _ _ _

lemma count_setCount_of_ne (h : f.Layout pages) (hpa : pa ∈ pages) (hpb : pb ∈ pages) (hne : pb ≠ pa) (n : ℕ) :
    (f.setCount pa n).count pb = f.count pb :=
  update_of_ne (fun e => hne (h.index_inj hpb hpa e)) _ _

lemma setCount_count (f : Frames) (pa : ℕ) : f.setCount pa (f.count pa) = f := by
  rw [setCount, count, update_eq_self]

lemma refCount_eq {i : ℕ} (hi : i < pmmMaxPages) : refCount i f = .done (f.pageRefCount i) f := by
  rw [refCount, get_bind, if_pos hi]
  rfl

lemma setRefCount_eq {i : ℕ} (hi : i < pmmMaxPages) (n : ℕ) :
    setRefCount i n f = .done () { f with pageRefCount := update f.pageRefCount i n } := by
  rw [setRefCount, if_pos hi]
  rfl

def freed (f : Frames) (pa : ℕ) : Frames :=
  let g := f.setCount pa (f.count pa - 1)
  if f.count pa ≤ 1 then g.push pa else g

lemma lowerCount_eq (hi : f.index pa < pmmMaxPages) :
    lowerCount (f.index pa) f = .done () (f.setCount pa (f.count pa - 1)) := by
  rw [lowerCount, bind_done (refCount_eq hi)]
  by_cases hc : 0 < f.pageRefCount (f.index pa)
  · rw [if_pos hc]
    exact setRefCount_eq hi _
  · have hz : f.count pa - 1 = f.count pa := by
      rw [count]
      omega
    rw [if_neg hc, hz, setCount_count]
    rfl

lemma freePage_eq (h : f.Layout pages) (hpa : pa ∈ pages) : freePage pa f = .done () (f.freed pa) := by
  obtain ⟨ha, -, hs, he⟩ := h.page pa hpa
  obtain ⟨hm, hi⟩ := h.index_lt hpa
  have hguard : ¬ (pa % 4096 ≠ 0 ∨ pa < f.freeMemStartAddr ∨ f.freeMemEndAddr ≤ pa) := by omega
  have hleft : refCount (f.index pa) (f.setCount pa (f.count pa - 1)) =
      .done (f.count pa - 1) (f.setCount pa (f.count pa - 1)) := by
    rw [refCount_eq hi]
    exact congrArg (Outcome.done · _) (count_setCount_self f pa _)
  rw [freePage, get_bind, if_neg hguard, if_neg (not_le.mpr hm), bind_done (lowerCount_eq hi),
    bind_done hleft, freed]
  by_cases hc : f.count pa ≤ 1
  · rw [if_pos hc, if_pos (by omega)]
    rfl
  · rw [if_neg hc, if_neg (by omega)]
    rfl

lemma freePage_cases (h : f.Layout pages) (pa : ℕ) :
    freePage pa f = .halted ∨ freePage pa f = .done () (f.freed pa) ∧ f.Layout [pa] := by
  by_cases hguard : pa % 4096 ≠ 0 ∨ pa < f.freeMemStartAddr ∨ f.freeMemEndAddr ≤ pa
  · left
    rw [freePage, get_bind, if_pos hguard]
    rfl
  · by_cases hm : f.maxPages ≤ f.index pa
    · left
      rw [freePage, get_bind, if_neg hguard, if_pos hm]
      rfl
    · right
      have hlay : f.Layout [pa] := by
        have hal := h.aligned
        have hab := h.above
        have hsmall := h.small
        rw [maxPages, index, sub64_of_le (by omega) hsmall, sub64_of_le (by omega) (by omega)] at hm
        refine { h with page := ?_ }
        intro p hp
        rw [List.mem_singleton.mp hp]
        omega
      exact ⟨freePage_eq hlay (by simp), hlay⟩

lemma Layout.freed (h : f.Layout pages) (pa : ℕ) : (f.freed pa).Layout pages := by
  unfold Frames.freed
  dsimp only
  split_ifs
  · exact h.congr rfl rfl
  · exact h.congr rfl rfl

lemma freed_mem (f : Frames) {pa x : ℕ} (hx : x < pa ∨ pa + 8 ≤ x) : (f.freed pa).mem x = f.mem x := by
  unfold freed
  dsimp only
  split_ifs
  · exact store64_apply hx
  · rfl

lemma allocPage_nil (hf : f.gFreeMemList = 0) : allocPage f = .done 0 f := by
  rw [allocPage, get_bind, if_neg (by simpa using hf)]
  rfl

def taken (f : Frames) : Frames :=
  { f with gFreeMemList := load64 f.mem f.gFreeMemList }.setCount f.gFreeMemList 1

lemma allocPage_eq (h : f.Layout pages) (hpa : f.gFreeMemList ∈ pages) :
    allocPage f = .done f.gFreeMemList f.taken := by
  obtain ⟨hm, hi⟩ := h.index_lt hpa
  have hne : f.gFreeMemList ≠ 0 := (h.page _ hpa).2.1.ne'
  rw [allocPage, get_bind, if_pos hne, modify_bind]
  simp only [if_pos hm]
  rw [bind_done (setRefCount_eq hi 1)]
  rfl

lemma incPageRef_eq (h : f.Layout pages) (hpa : pa ∈ pages) :
    incPageRef pa f = .done () (f.setCount pa ((f.count pa + 1) % 2 ^ 16)) := by
  obtain ⟨-, -, hs, he⟩ := h.page pa hpa
  obtain ⟨hm, hi⟩ := h.index_lt hpa
  have hguard : ¬ (pa < f.freeMemStartAddr ∨ f.freeMemEndAddr ≤ pa) := by omega
  rw [incPageRef, get_bind, if_neg hguard, if_pos hm, bind_done (refCount_eq hi)]
  exact setRefCount_eq hi _

namespace FreeList

lemma nil_of_head (h : f.FreeList l) (hf : f.gFreeMemList = 0) : l = [] :=
  Chain.unique h (by simp [toLink, hf])

lemma head_cons (h : f.FreeList l) (hf : f.gFreeMemList ≠ 0) : ∃ m, l = f.gFreeMemList :: m := by
  cases l with
  | nil => exact absurd h (by simp [FreeList, toLink, hf])
  | cons a m =>
    have ha : toLink f.gFreeMemList = some a := h.1
    rw [toLink, if_neg hf, Option.some.injEq] at ha
    exact ⟨m, by rw [ha]⟩

lemma push (h : f.FreeList l) (hpa : pa ≠ 0) (hf : f.gFreeMemList < 2 ^ 64)
    (hl : ∀ b ∈ l, b + 8 ≤ pa ∨ pa + 8 ≤ b) : (f.push pa).FreeList (pa :: l) := by
  refine ⟨?_, ?_⟩
  · exact if_neg hpa
  · change Chain _ (toLink (load64 (store64 f.mem pa f.gFreeMemList) pa)) l
    rw [load64_store64_self _ _ hf]
    refine Chain.congr (fun b hb => ?_) h
    change toLink (load64 (store64 f.mem pa f.gFreeMemList) b) = _
    rw [load64_store64 _ _ (hl b hb)]

lemma of_mem (h : f.FreeList l) (hg : g.gFreeMemList = f.gFreeMemList)
    (hm : ∀ b ∈ l, load64 g.mem b = load64 f.mem b) : g.FreeList l := by
  unfold FreeList
  rw [hg]
  exact Chain.congr (fun b hb => by rw [hm b hb]) h

end FreeList

end Frames

def Usage.refs (u : Usage) : ℕ := if u.given then u.incs + 1 - u.frees else 0

lemma Usage.out_iff (u : Usage) : u.Out ↔ 0 < u.refs := by
  unfold Usage.Out Usage.refs
  cases u.given <;> simp

structure Books.Kept (pages : List ℕ) (b : Books) (l : List ℕ) : Prop where
  layout : b.frames.Layout pages
  chain : b.frames.FreeList l
  nodup : l.Nodup
  free : ∀ pa, pa ∈ l ↔ pa ∈ pages ∧ (b.usage pa).refs = 0
  counts : ∀ pa ∈ pages, b.frames.count pa = (b.usage pa).refs
  given : ∀ pa, (b.usage pa).given = true → pa ∈ pages
  balance : ∀ pa, (b.usage pa).frees ≤ (b.usage pa).incs + 1

namespace Books.Kept

variable {pages l l' : List ℕ} {b c : Books} {f : Frames} {u : Usage} {op : PageOp} {pa r : ℕ}

lemma mem_of_out (h : b.Kept pages l) (ho : (b.usage pa).Out) : pa ∈ pages := h.given pa ho.1

lemma notMem_of_out (h : b.Kept pages l) (ho : (b.usage pa).Out) : pa ∉ l := by
  rw [h.free]
  exact fun e => ((Usage.out_iff _).mp ho).ne' e.2

lemma head_lt (h : b.Kept pages l) : b.frames.gFreeMemList < 2 ^ 64 := by
  by_cases hf : b.frames.gFreeMemList = 0
  · omega
  · obtain ⟨m, rfl⟩ := h.chain.head_cons hf
    have hpage := h.layout.page _ ((h.free b.frames.gFreeMemList).mp (by simp)).1
    have hsmall := h.layout.small
    omega

lemma record (h : b.Kept pages l) (hpa : pa ∈ pages) (hu : u.frees ≤ u.incs + 1)
    (hstart : f.freeMemStartAddr = b.frames.freeMemStartAddr) (hend : f.freeMemEndAddr = b.frames.freeMemEndAddr)
    (hcount : f.pageRefCount = (b.frames.setCount pa u.refs).pageRefCount) (hl : f.FreeList l') (hnd : l'.Nodup)
    (hmem : ∀ p, p ∈ l' ↔ if p = pa then u.refs = 0 else p ∈ l) : Kept pages ⟨f, update b.usage pa u⟩ l' := by
  have hix : ∀ p, f.count p = (b.frames.setCount pa u.refs).count p := by
    intro p
    simp only [Frames.count, Frames.index, hcount, hstart]
    rfl
  refine ⟨h.layout.congr hstart hend, hl, hnd, ?_, ?_, ?_, ?_⟩
  · intro p
    rw [hmem]
    by_cases hp : p = pa
    · subst hp
      simp [hpa]
    · simp [hp, h.free]
  · intro p hp
    rw [hix]
    by_cases he : p = pa
    · subst he
      simp [Frames.count_setCount_self]
    · simp only [update_of_ne he]
      rw [Frames.count_setCount_of_ne h.layout hpa hp he, h.counts p hp]
  · intro p hp
    by_cases he : p = pa
    · rwa [he]
    · exact h.given p (by simpa [he] using hp)
  · intro p
    by_cases he : p = pa
    · subst he
      simpa using hu
    · simpa [he] using h.balance p

lemma alloc_none (h : b.Kept pages l) (hf : b.frames.gFreeMemList = 0) :
    Frames.allocPage b.frames = .done 0 b.frames ∧ ∀ pa ∈ pages, (b.usage pa).Out := by
  refine ⟨Frames.allocPage_nil hf, ?_⟩
  intro pa hpa
  have hnot : pa ∉ l := by simp [h.chain.nil_of_head hf]
  rw [h.free] at hnot
  rw [Usage.out_iff]
  exact Nat.pos_of_ne_zero fun e => hnot ⟨hpa, e⟩

lemma alloc_some (h : b.Kept pages l) (hf : b.frames.gFreeMemList ≠ 0) :
    Frames.allocPage b.frames = .done b.frames.gFreeMemList b.frames.taken ∧
    b.frames.gFreeMemList ∈ pages ∧ ¬ (b.usage b.frames.gFreeMemList).Out ∧
    Kept pages ⟨b.frames.taken, update b.usage b.frames.gFreeMemList { given := true }⟩ l.tail := by
  obtain ⟨m, hm⟩ := h.chain.head_cons hf
  have hfree := (h.free b.frames.gFreeMemList).mp (by simp [hm])
  have hnd := h.nodup
  rw [hm, List.nodup_cons] at hnd
  refine ⟨Frames.allocPage_eq h.layout hfree.1, hfree.1, ?_, ?_⟩
  · rw [Usage.out_iff, hfree.2]
    exact lt_irrefl 0
  · have hchain := h.chain
    rw [hm] at hchain
    rw [hm, List.tail_cons]
    have hone : Usage.refs { given := true } = 1 := rfl
    have hcount : b.frames.taken.pageRefCount = (b.frames.setCount b.frames.gFreeMemList 1).pageRefCount := rfl
    refine h.record (f := b.frames.taken) hfree.1 (Nat.zero_le _) rfl rfl ?_ hchain.2 hnd.2 ?_
    · rw [hcount, hone]
    intro p
    by_cases hp : p = b.frames.gFreeMemList
    · simp [hp, hnd.1, hone]
    · simp [hp, hm]

lemma inc (h : b.Kept pages l) (ho : (b.usage pa).Out)
    (hlt : (b.usage pa).incs + 1 - (b.usage pa).frees + 1 < 2 ^ 16) :
    ∃ f, Frames.incPageRef pa b.frames = .done () f ∧
      Kept pages ⟨f, update b.usage pa { b.usage pa with incs := (b.usage pa).incs + 1 }⟩ l := by
  have hpa := h.mem_of_out ho
  have hrefs : (b.usage pa).refs = (b.usage pa).incs + 1 - (b.usage pa).frees := by simp [Usage.refs, ho.1]
  have hout := ho.2
  have hnew : Usage.refs { b.usage pa with incs := (b.usage pa).incs + 1 } = (b.frames.count pa + 1) % 2 ^ 16 := by
    rw [h.counts pa hpa, hrefs, Nat.mod_eq_of_lt hlt]
    simp only [Usage.refs, ho.1, if_true]
    omega
  refine ⟨b.frames.setCount pa ((b.frames.count pa + 1) % 2 ^ 16), Frames.incPageRef_eq h.layout hpa, ?_⟩
  rw [← hnew]
  refine h.record hpa ?_ rfl rfl rfl h.chain h.nodup ?_
  · simp only
    omega
  · intro p
    by_cases hp : p = pa
    · subst hp
      simp only [if_true, h.notMem_of_out ho, false_iff, Usage.refs, ho.1]
      omega
    · simp [hp]

lemma free_page (h : b.Kept pages l) (ho : (b.usage pa).Out) :
    ∃ f m, Frames.decPageRef pa b.frames = .done () f ∧
      Kept pages ⟨f, update b.usage pa { b.usage pa with frees := (b.usage pa).frees + 1 }⟩ m := by
  have hpa := h.mem_of_out ho
  have hnot := h.notMem_of_out ho
  have hout := ho.2
  have hrefs : (b.usage pa).refs = (b.usage pa).incs + 1 - (b.usage pa).frees := by simp [Usage.refs, ho.1]
  have hnew : Usage.refs { b.usage pa with frees := (b.usage pa).frees + 1 } = b.frames.count pa - 1 := by
    rw [h.counts pa hpa, hrefs]
    simp only [Usage.refs, ho.1, if_true]
    omega
  have hcnt : b.frames.count pa = (b.usage pa).incs + 1 - (b.usage pa).frees := by rw [h.counts pa hpa, hrefs]
  refine ⟨b.frames.freed pa, if b.frames.count pa ≤ 1 then pa :: l else l, Frames.freePage_eq h.layout hpa, ?_⟩
  by_cases hc : b.frames.count pa ≤ 1
  · rw [if_pos hc, Frames.freed, if_pos hc]
    refine h.record hpa (by simp; omega) rfl rfl (by rw [hnew]; rfl) ?_ (List.nodup_cons.mpr ⟨hnot, h.nodup⟩) ?_
    · refine Frames.FreeList.push h.chain (h.layout.page pa hpa).2.1.ne' h.head_lt ?_
      intro p hp
      have hap := h.layout.apart ((h.free p).mp hp).1 hpa (ne_of_mem_of_not_mem hp hnot)
      omega
    · intro p
      by_cases hp : p = pa
      · subst hp
        simp only [if_true, hnew, List.mem_cons, true_or, true_iff]
        omega
      · simp [hp]
  · rw [if_neg hc, Frames.freed, if_neg hc]
    refine h.record hpa (by simp; omega) rfl rfl (by rw [hnew]) h.chain h.nodup ?_
    intro p
    by_cases hp : p = pa
    · subst hp
      simp only [if_true, hnew, hnot, false_iff]
      omega
    · simp [hp]

lemma store (h : b.Kept pages l) {a : ℕ} {x : UInt8} (ha : (PageOp.store a x).Allowed pages b) :
    Kept pages ⟨{ b.frames with mem := update b.frames.mem a x }, b.usage⟩ l := by
  refine { h with layout := h.layout.congr rfl rfl, chain := ?_ }
  refine Frames.FreeList.of_mem h.chain rfl ?_
  intro p hp
  apply load64_congr
  intro i hi
  obtain ⟨hpage, hzero⟩ := (h.free p).mp hp
  have hfar := ha p hpage (by rw [Usage.out_iff, hzero]; exact lt_irrefl 0)
  exact update_of_ne (by omega) _ _

lemma step_exists (h : b.Kept pages l) (ha : op.Allowed pages b) :
    ∃ r c l', b.Step pages op r c ∧ c.Kept pages l' := by
  cases op with
  | alloc =>
    by_cases hf : b.frames.gFreeMemList = 0
    · exact ⟨0, b, l, ⟨trivial, (h.alloc_none hf).1, by simp [PageOp.enter]⟩, h⟩
    · obtain ⟨hrun, -, -, hkept⟩ := h.alloc_some hf
      refine ⟨b.frames.gFreeMemList, ⟨b.frames.taken, _⟩, _, ⟨trivial, hrun, ?_⟩, hkept⟩
      exact (if_neg hf).symm
  | inc pa =>
    obtain ⟨f, hrun, hkept⟩ := h.inc ha.1 ha.2
    exact ⟨0, _, l, ⟨ha, bind_done hrun, rfl⟩, hkept⟩
  | free pa =>
    obtain ⟨f, m, hrun, hkept⟩ := h.free_page ha
    exact ⟨0, _, m, ⟨ha, bind_done hrun, rfl⟩, hkept⟩
  | store a x =>
    exact ⟨0, ⟨{ b.frames with mem := update b.frames.mem a x }, b.usage⟩, l, ⟨ha, rfl, rfl⟩, h.store ha⟩

lemma step (h : b.Kept pages l) (hs : b.Step pages op r c) : ∃ l', c.Kept pages l' := by
  obtain ⟨r', c', l', hs', hkept⟩ := h.step_exists hs.1
  have hrun := hs'.2.1
  rw [hs.2.1, Outcome.done.injEq] at hrun
  have hframes := hrun.2
  have husage : c.usage = c'.usage := by rw [hs.2.2, hs'.2.2, hrun.1]
  have hsame : c = c' := by
    cases c
    cases c'
    rw [mk.injEq]
    exact ⟨hframes, husage⟩
  exact ⟨l', hsame ▸ hkept⟩

lemma reach (h : Kept pages ⟨f, fun _ => {}⟩ l) (hb : Books.Reach pages f b) : ∃ l', b.Kept pages l' := by
  induction hb with
  | refl => exact ⟨l, h⟩
  | tail _ hstep ih =>
    obtain ⟨l', hl'⟩ := ih
    obtain ⟨op, r, hs⟩ := hstep
    exact hl'.step hs

end Books.Kept

namespace Frames

variable {f : Frames} {pages l rest : List ℕ} {kernelEnd gMemSize : ℕ} {mem : ℕ → UInt8}

lemma freed_fresh (hz : f.pageRefCount = fun _ => 0) (pa : ℕ) : f.freed pa = f.push pa := by
  have hc : f.count pa = 0 := by rw [count, hz]
  have hsame : f.setCount pa 0 = f := by
    rw [← hc, setCount_count]
  rw [freed, hc, if_pos (by omega), hsame]

lemma each_freePage (h : f.Layout pages) (hrest : ∀ pa ∈ rest, pa ∈ pages) (hnd : rest.Nodup)
    (hl : ∀ pa ∈ l, pa ∈ pages ∧ pa ∉ rest) (hlist : f.FreeList l) (hhead : f.gFreeMemList < 2 ^ 64)
    (hz : f.pageRefCount = fun _ => 0) :
    ∃ g, each freePage rest f = .done () g ∧ g.freeMemStartAddr = f.freeMemStartAddr ∧
      g.freeMemEndAddr = f.freeMemEndAddr ∧ g.FreeList (rest.reverse ++ l) ∧ g.pageRefCount = fun _ => 0 := by
  induction rest generalizing f l with
  | nil => exact ⟨f, rfl, rfl, rfl, hlist, hz⟩
  | cons pa rest ih =>
    have hpa : pa ∈ pages := hrest pa (by simp)
    have hpage := h.page pa hpa
    have hsmall := h.small
    rw [List.nodup_cons] at hnd
    have hrun : freePage pa f = .done () (f.push pa) := by rw [freePage_eq h hpa, freed_fresh hz]
    have hpush : (f.push pa).FreeList (pa :: l) := by
      refine hlist.push hpage.2.1.ne' hhead ?_
      intro b hb
      have hne : b ≠ pa := fun e => (hl b hb).2 (by simp [e])
      have hap := h.apart (hl b hb).1 hpa hne
      omega
    have hlay' : (f.push pa).Layout pages := h.congr rfl rfl
    have hl' : ∀ b ∈ pa :: l, b ∈ pages ∧ b ∉ rest := by
      intro b hb
      rcases List.mem_cons.mp hb with rfl | hb
      · exact ⟨hpa, hnd.1⟩
      · exact ⟨(hl b hb).1, fun e => (hl b hb).2 (by simp [e])⟩
    have hhead' : (f.push pa).gFreeMemList < 2 ^ 64 := by
      change pa < 2 ^ 64
      omega
    obtain ⟨g, hg, hstart, hend, hchain, hzero⟩ :=
      ih hlay' (fun b hb => hrest b (by simp [hb])) hnd.2 hl' hpush hhead' hz
    refine ⟨g, ?_, hstart, hend, ?_, hzero⟩
    · rw [each, bind_done hrun, hg]
    · simpa using hchain

def managed (kernelEnd gMemSize : ℕ) : List ℕ :=
  freepages (roundUp kernelEnd) (u64 (min pkeMaxAllowableRam gMemSize + dramBase))

lemma mem_freepages {start stop pa : ℕ} (h : pa ∈ freepages start stop) :
    ∃ i, pa = roundUp start + i * 4096 ∧ pa + 4096 < stop := by
  unfold freepages pagesBelow at h
  obtain ⟨i, hi, rfl⟩ := List.mem_map.mp h
  rw [List.mem_range] at hi
  exact ⟨i, rfl, by omega⟩

lemma freepages_nodup (start stop : ℕ) : (freepages start stop).Nodup := by
  unfold freepages pagesBelow
  refine List.nodup_range.map fun i j hij => ?_
  omega

lemma kernelEnd_bounds (hk : kernelEnd < 2 ^ 64)
    (hacc : ¬ min pkeMaxAllowableRam gMemSize < sub64 kernelEnd kernBase) :
    kernBase ≤ kernelEnd ∧ kernelEnd ≤ kernBase + pkeMaxAllowableRam := by
  have hmin : min pkeMaxAllowableRam gMemSize ≤ pkeMaxAllowableRam := min_le_left _ _
  simp only [sub64, u64, kernBase, pkeMaxAllowableRam] at hacc hmin ⊢
  omega

lemma roundUp_bounds {a : ℕ} (ha : 0 < a) (ha' : a ≤ 2 ^ 63) :
    a ≤ roundUp a ∧ roundUp a < a + 4096 ∧ roundUp a % 4096 = 0 := by
  unfold roundUp sub64 u64
  omega

lemma managed_layout (hk : kernelEnd < 2 ^ 64)
    (hacc : ¬ min pkeMaxAllowableRam gMemSize < sub64 kernelEnd kernBase)
    (hs : f.freeMemStartAddr = roundUp kernelEnd)
    (he : f.freeMemEndAddr = u64 (min pkeMaxAllowableRam gMemSize + dramBase)) :
    f.Layout (managed kernelEnd gMemSize) := by
  obtain ⟨hlo, hhi⟩ := kernelEnd_bounds hk hacc
  simp only [kernBase, pkeMaxAllowableRam] at hlo hhi
  obtain ⟨h₁, h₂, h₃⟩ := roundUp_bounds (a := kernelEnd) (by omega) (by omega)
  obtain ⟨h₄, h₅, h₆⟩ := roundUp_bounds (a := roundUp kernelEnd) (by omega) (by omega)
  have hmin : min pkeMaxAllowableRam gMemSize ≤ 128 * 1024 * 1024 := min_le_left _ _
  have hend : u64 (min pkeMaxAllowableRam gMemSize + dramBase) = min pkeMaxAllowableRam gMemSize + dramBase := by
    unfold u64
    simp only [dramBase]
    omega
  refine ⟨by rw [hs, h₃], by omega, ?_, ?_, ?_⟩
  · intro pa hpa
    obtain ⟨i, hi, hlt⟩ := mem_freepages hpa
    rw [hs, he]
    omega
  · rw [hs, he, hend]
    simp only [pmmMaxPages, dramBase]
    omega
  · rw [he]
    exact Nat.mod_lt _ (by norm_num)

lemma pmmInit_halts (h : min pkeMaxAllowableRam gMemSize < sub64 kernelEnd kernBase) :
    pmmInit kernelEnd gMemSize f = .halted := by
  rw [pmmInit, if_pos h]
  rfl

lemma createFreepageList_eq (start stop : ℕ) (f : Frames) :
    createFreepageList start stop f = each freePage (freepages start stop) { f with gFreeMemList := 0 } :=
  modify_bind _ _

lemma pmmInit_eq (hacc : ¬ min pkeMaxAllowableRam gMemSize < sub64 kernelEnd kernBase) :
    pmmInit kernelEnd gMemSize { mem := mem } = each freePage (managed kernelEnd gMemSize)
      { freeMemStartAddr := roundUp kernelEnd
        freeMemEndAddr := u64 (min pkeMaxAllowableRam gMemSize + dramBase)
        mem := mem } := by
  rw [pmmInit, if_neg hacc, modify_bind, createFreepageList_eq]
  rfl

lemma pmmInit_done (hk : kernelEnd < 2 ^ 64)
    (hacc : ¬ min pkeMaxAllowableRam gMemSize < sub64 kernelEnd kernBase) :
    ∃ f, pmmInit kernelEnd gMemSize { mem := mem } = .done () f ∧ f.freeMemStartAddr = roundUp kernelEnd ∧
      f.freeMemEndAddr = u64 (min pkeMaxAllowableRam gMemSize + dramBase) ∧ (f.pageRefCount = fun _ => 0) ∧
      Books.Kept (managed kernelEnd gMemSize) ⟨f, fun _ => {}⟩ (managed kernelEnd gMemSize).reverse := by
  rw [pmmInit_eq hacc]
  have hlay := managed_layout hk hacc (f := ⟨_, _, 0, fun _ => 0, mem⟩) rfl rfl
  have hnd : (managed kernelEnd gMemSize).Nodup := freepages_nodup _ _
  generalize managed kernelEnd gMemSize = pages at hlay hnd ⊢
  obtain ⟨f, hf, hstart, hend, hchain, hz⟩ := each_freePage hlay (fun _ h => h) hnd
    (l := []) (by simp) rfl (Nat.two_pow_pos 64) rfl
  refine ⟨f, hf, hstart, hend, hz, hlay.congr hstart hend, by simpa using hchain, ?_, ?_, ?_, ?_, ?_⟩
  · rwa [List.nodup_reverse]
  · simp [Usage.refs]
  · intro pa _
    simp [count, hz, Usage.refs]
  · simp
  · simp

end Frames

/-- What the allocator promises in a state: the list threaded through memory has no page twice and
consists of the managed pages whose count is 0; every call goes through, so that no index leaves
the table; a page is handed out only when nobody holds it, and `NULL` only when all are held; a page
that was handed out is back on the list exactly if it was freed once more than its count was raised. -/
structure AllocatorSound (pages : List ℕ) (b : Books) : Prop where
  list : ∃ l, b.frames.FreeList l ∧ l.Nodup ∧ ∀ pa, pa ∈ l ↔ pa ∈ pages ∧ b.frames.count pa = 0
  goes : ∀ op : PageOp, op.Allowed pages b → ∃ r c, b.Step pages op r c
  fresh : ∀ r c, b.Step pages .alloc r c → r ≠ 0 → r ∈ pages ∧ ¬ (b.usage r).Out
  full : ∀ c, b.Step pages .alloc 0 c → ∀ pa ∈ pages, (b.usage pa).Out
  back : ∀ pa, (b.usage pa).given = true →
    ((∃ l, b.frames.FreeList l ∧ pa ∈ l) ↔ (b.usage pa).frees = (b.usage pa).incs + 1)

lemma Books.Kept.sound {pages l : List ℕ} {b : Books} (h : b.Kept pages l) : AllocatorSound pages b where
  list := by
    refine ⟨l, h.chain, h.nodup, fun pa => ?_⟩
    rw [h.free, and_congr_right_iff]
    intro hpa
    rw [h.counts pa hpa]
  goes op ha := by
    obtain ⟨r, c, -, hs, -⟩ := h.step_exists ha
    exact ⟨r, c, hs⟩
  fresh r c hs hr := by
    by_cases hf : b.frames.gFreeMemList = 0
    · have hrun : Frames.allocPage b.frames = .done r c.frames := hs.2.1
      rw [(h.alloc_none hf).1, Outcome.done.injEq] at hrun
      exact absurd hrun.1.symm hr
    · obtain ⟨hrun, hpage, hout, -⟩ := h.alloc_some hf
      have hrun' : Frames.allocPage b.frames = .done r c.frames := hs.2.1
      rw [hrun, Outcome.done.injEq] at hrun'
      rw [← hrun'.1]
      exact ⟨hpage, hout⟩
  full c hs := by
    by_cases hf : b.frames.gFreeMemList = 0
    · exact (h.alloc_none hf).2
    · have hrun : Frames.allocPage b.frames = .done 0 c.frames := hs.2.1
      rw [(h.alloc_some hf).1, Outcome.done.injEq] at hrun
      exact absurd hrun.1 hf
  back pa hg := by
    have hmem : (∃ l, b.frames.FreeList l ∧ pa ∈ l) ↔ pa ∈ l := by
      constructor
      · rintro ⟨m, hm, hpa⟩
        rwa [Chain.unique h.chain hm]
      · exact fun hpa => ⟨l, h.chain, hpa⟩
    have hbal := h.balance pa
    rw [hmem, h.free]
    simp only [h.given pa hg, true_and, Usage.refs, hg, if_true]
    omega

theorem page_allocator_sound (kernelEnd gMemSize : ℕ) (mem : ℕ → UInt8) (hk : kernelEnd < 2 ^ 64)
    (hacc : Frames.pmmInit kernelEnd gMemSize { mem := mem } ≠ .halted) :
    ∃ f, Frames.pmmInit kernelEnd gMemSize { mem := mem } = .done () f ∧
      ∀ b, Books.Reach (Frames.managed kernelEnd gMemSize) f b →
        AllocatorSound (Frames.managed kernelEnd gMemSize) b := by
  have hsize : ¬ min pkeMaxAllowableRam gMemSize < sub64 kernelEnd kernBase :=
    fun e => hacc (Frames.pmmInit_halts e)
  obtain ⟨f, hf, -, -, -, hkept⟩ := Frames.pmmInit_done hk hsize
  refine ⟨f, hf, fun b hb => ?_⟩
  obtain ⟨l, hl⟩ := hkept.reach hb
  exact hl.sound

theorem page_allocator_sound_one_megabyte :
    ∃ f, Frames.pmmInit 0x80010000 0x100000 { mem := fun _ => 0 } = .done () f ∧
      ∀ b, Books.Reach (Frames.managed 0x80010000 0x100000) f b →
        AllocatorSound (Frames.managed 0x80010000 0x100000) b := by
  refine page_allocator_sound _ _ _ (by norm_num) ?_
  have hsize : ¬ min pkeMaxAllowableRam 0x100000 < sub64 0x80010000 kernBase := by norm_num [sub64, u64]
  obtain ⟨f, hf, -⟩ := Frames.pmmInit_done (by norm_num) hsize
  rw [hf]
  nofun

end Pke.Memory
