import Mathlib
import Pke.Memory.PageWalks

namespace Pke.Memory

open Lib Flow Function

namespace PageMap

def alter (m : PageMap) (v n : ℕ) (g : ℕ → Option Entry → Option Entry) : PageMap :=
  fun x => if v ≤ x ∧ x < v + n then g (x - v) (m x) else m x

variable {m : PageMap} {v n : ℕ} {g : ℕ → Option Entry → Option Entry}

@[simp] lemma alter_zero : m.alter v 0 g = m := by
  funext x
  simp only [alter]
  rw [if_neg (by omega)]

lemma alter_end : m.alter v n g (v + n) = m (v + n) := by
  rw [alter, if_neg (by omega)]

lemma alter_succ : update (m.alter v n g) (v + n) (g n (m (v + n))) = m.alter v (n + 1) g := by
  funext x
  by_cases hx : x = v + n
  · subst hx
    rw [update_self, alter, if_pos (by omega), Nat.add_sub_cancel_left]
  · rw [update_of_ne hx, alter, alter]
    by_cases hin : v ≤ x ∧ x < v + n
    · rw [if_pos hin, if_pos (by omega)]
    · rw [if_neg hin, if_neg (by omega)]

end PageMap

def pageCount (va size : ℕ) : ℕ := (va + size - 1) / 4096 + 1 - va / 4096

def mapEntry (pa flags i : ℕ) (_ : Option Entry) : Option Entry := some ⟨(pa + i * 4096) / 4096, flags⟩

namespace Frames

variable {f : Frames} {m : PageMap} {dir va size pa perm : ℕ}

lemma range_pages (hlow : 0 < va + size) (hhigh : va + size ≤ maxva) :
    pagesBelow (roundDown va) (roundDown (u64 (va + size + (2 ^ 64 - 1))) + 1) =
      (List.range (pageCount va size)).map (roundDown va + · * 4096) := by
  have hlast : u64 (va + size + (2 ^ 64 - 1)) = va + size - 1 := by
    unfold u64
    norm_num [maxva] at hhigh ⊢
    omega
  have hcount : (roundDown (va + size - 1) + 1 - roundDown va + 4095) / 4096 = pageCount va size := by
    unfold roundDown pageCount
    omega
  rw [hlast, pagesBelow, hcount]

lemma mapRange_meets (h : f.Maps dir m) (hlow : 0 < va + size) (hhigh : va + size ≤ maxva)
    (hpa : ∀ i < pageCount va size, pa + i * 4096 < 2 ^ 56) (hperm : perm < 2 ^ 10) :
    meets False (mapRange dir va size pa perm)
      (fun b g => if b then g.Maps dir (m.alter (va / 4096) (pageCount va size) (mapEntry pa (perm ||| pteV)))
        else g.gFreeMemList = 0 ∧
          ∃ n < pageCount va size, g.Maps dir (m.alter (va / 4096) n (mapEntry pa (perm ||| pteV))))
      (fun g => ∃ n < pageCount va size, m (va / 4096 + n) ≠ none ∧
        g.Maps dir (m.alter (va / 4096) n (mapEntry pa (perm ||| pteV)))) f := by
  rw [mapRange, range_pages hlow hhigh]
  refine meets_all_range (fun i g => g.Maps dir (m.alter (va / 4096) i (mapEntry pa (perm ||| pteV)))) ?_ ?_ ?_
  · rwa [PageMap.alter_zero]
  · intro i hi g hg
    have hpage : (roundDown va + i * 4096) / 2 ^ 12 = va / 4096 + i := by
      unfold roundDown
      omega
    have hlt : roundDown va + i * 4096 < maxva := by
      unfold pageCount at hi
      unfold roundDown
      omega
    have haddr : u64 (pa + (roundDown va + i * 4096 - roundDown va)) = pa + i * 4096 := by
      have := hpa i hi
      unfold u64
      omega
    have hstep := mapPage_meets hg hlt (hpa i hi) hperm
    rw [hpage, PageMap.alter_end] at hstep
    simp only [haddr]
    refine meets_mono hstep id ?_ ?_
    · intro b u hu
      cases b with
      | false => exact ⟨hu.1, i, hi, hu.2⟩
      | true =>
        rw [if_pos rfl] at hu ⊢
        rwa [← PageMap.alter_succ]
    · rintro u ⟨hne, hu⟩
      exact ⟨i, hi, hne, hu⟩
  · exact fun g hg => hg

lemma userVmUnmap_meets {t : Tree} {free : Bool} {pages : List ℕ} (h : t.Holds f.mem m) (hlay : f.Layout pages)
    (hal : va % 4096 = 0) (hhigh : va + size ≤ maxva)
    (hfree : free = true → ∀ i < (size + 4095) / 4096, ∀ e, m (va / 4096 + i) = some e → e.ppn * 4096 ∉ t.pages) :
    meets (free = true ∧ ∃ i < (size + 4095) / 4096, ∃ e, m (va / 4096 + i) = some e ∧ e.ppn * 4096 ∉ pages)
      (userVmUnmap t.dir va size free)
      (fun _ g => t.Holds g.mem (m.alter (va / 4096) ((size + 4095) / 4096) fun _ _ => none))
      (fun g => ∃ n < (size + 4095) / 4096, (∀ e, m (va / 4096 + n) = some e → e.flags = pteV) ∧
        t.Holds g.mem (m.alter (va / 4096) n fun _ _ => none)) f := by
  have hlist : pagesBelow va (u64 (va + size)) = (List.range ((size + 4095) / 4096)).map (va + · * 4096) := by
    have hu : u64 (va + size) = va + size := by
      unfold u64
      norm_num [maxva] at hhigh ⊢
      omega
    rw [hu, pagesBelow, Nat.add_sub_cancel_left]
  rw [userVmUnmap, if_neg (by omega), hlist]
  refine meets_each_range
    (fun i g => t.Holds g.mem (m.alter (va / 4096) i fun _ _ => none) ∧ g.Layout pages) ?_ ?_ ?_
  · rw [PageMap.alter_zero]
    exact ⟨h, hlay⟩
  · rintro i hi g ⟨hg, hgl⟩
    have hpage : (va + i * 4096) / 2 ^ 12 = va / 4096 + i := by omega
    have hkeep : free = true → ∀ e, (m.alter (va / 4096) i fun _ _ => none) ((va + i * 4096) / 2 ^ 12) = some e →
        e.ppn * 4096 ∉ t.pages := by
      rw [hpage, PageMap.alter_end]
      exact fun hf => hfree hf i hi
    have hstep := unmapPage_meets hg hgl (by omega) hkeep
    rw [hpage, PageMap.alter_end] at hstep
    refine meets_mono hstep ?_ ?_ ?_
    · rintro ⟨hf, e, he, hout⟩
      exact ⟨hf, i, hi, e, he, hout⟩
    · rintro - u ⟨hu, hul⟩
      rw [← PageMap.alter_succ]
      exact ⟨hu, hul⟩
    · rintro u ⟨rfl, hflags⟩
      exact ⟨i, hi, hflags, hg⟩
  · exact fun g hg => hg.1

end Frames

def links (mem : ℕ → UInt8) (pt : ℕ) : Set ℕ :=
  {a | ∃ k < 512, load64 mem (slot pt k) &&& pteV ≠ 0 ∧ a = pte2pa (load64 mem (slot pt k))}

def treePages (mem : ℕ → UInt8) (dir : ℕ) : Set ℕ :=
  {a | a = dir ∨ a ∈ links mem dir ∨ ∃ b ∈ links mem dir, a ∈ links mem b}

inductive DirOp where
  | map (va size pa perm : ℕ)
  | unmap (va size : ℕ) (free : Bool)
  | setCow (va : ℕ)
  | mapCow (va size pa : ℕ)

inductive Ended where
  | returned (ok : Bool)
  | killed

namespace DirOp

def perform (dir : ℕ) : DirOp → Flow Frames Bool
  | map va size pa perm => Frames.mapPages dir va size pa perm
  | unmap va size free => do
    Frames.userVmUnmap dir va size free
    pure true
  | setCow va => do
    Frames.userVmSetCow dir va
    pure true
  | mapCow va size pa => do
    Frames.userVmMapCow dir va size pa
    pure true

def ran (dir : ℕ) (op : DirOp) (f : Frames) : Option (Ended × Frames) :=
  match op.perform dir f with
  | .done b g => some (.returned b, g)
  | .left g => some (.killed, g)
  | _ => none

def first : DirOp → ℕ
  | map va _ _ _ | unmap va _ _ | setCow va | mapCow va _ _ => va / 4096

def count : DirOp → ℕ
  | map va size _ _ | mapCow va size _ => pageCount va size
  | unmap _ size _ => (size + 4095) / 4096
  | setCow _ => 1

def entry : DirOp → ℕ → Option Entry → Option Entry
  | map _ _ pa perm => mapEntry pa (perm ||| pteV)
  | unmap _ _ _ => fun _ _ => none
  | setCow _ => fun _ o => o.map Entry.cow
  | mapCow _ _ pa => mapEntry pa (pteR ||| pteA ||| pteU ||| pteCow ||| pteV)

def after (op : DirOp) (n : ℕ) (m : PageMap) : PageMap := m.alter op.first n op.entry

def shortAnswer : DirOp → Option Bool
  | map _ _ _ _ => some false
  | mapCow _ _ _ => some true
  | _ => none

def Refuses : DirOp → ℕ → PageMap → Prop
  | map va size _ _, n, m | mapCow va size _, n, m => n < pageCount va size ∧ m (va / 4096 + n) ≠ none
  | unmap va size _, n, m => (va % 4096 ≠ 0 ∧ n = 0) ∨
      n < (size + 4095) / 4096 ∧ ∀ e, m (va / 4096 + n) = some e → e.flags = pteV
  | setCow _, _, _ => False

inductive Effect (op : DirOp) (m : PageMap) (g : Frames) : Ended → PageMap → Prop where
  | full : Effect op m g (.returned true) (op.after op.count m)
  | short {n : ℕ} {b : Bool} (hn : n < op.count) (hb : op.shortAnswer = some b) (hg : g.gFreeMemList = 0) :
      Effect op m g (.returned b) (op.after n m)
  | refused {n : ℕ} (h : op.Refuses n m) : Effect op m g .killed (op.after n m)

def freed (dir : ℕ) (f : Frames) : DirOp → Set ℕ
  | unmap va size true => {a | ∃ i < (size + 4095) / 4096, ∃ w,
      Frames.readEntry dir (va + i * 4096) f = .done w f ∧ w &&& pteV ≠ 0 ∧ a = pte2pa w}
  | _ => ∅

def Allowed (dir : ℕ) (f : Frames) : DirOp → Prop
  | map va size pa perm => 0 < va + size ∧ va + size ≤ maxva ∧ (∀ i < pageCount va size, pa + i * 4096 < 2 ^ 56) ∧
      perm < 2 ^ 10 ∧ f.Stocked (treePages f.mem dir)
  | mapCow va size pa => 0 < va + size ∧ va + size ≤ maxva ∧ (∀ i < pageCount va size, pa + i * 4096 < 2 ^ 56) ∧
      f.Stocked (treePages f.mem dir)
  | unmap va size free => va + size ≤ maxva ∧ (∃ pages, f.Layout pages) ∧
      Disjoint (freed dir f (unmap va size free)) (treePages f.mem dir)
  | setCow va => va < maxva

def Managed (dir : ℕ) (f : Frames) (op : DirOp) : Prop :=
  (op.freed dir f).Nonempty → ∃ pages, f.Layout pages ∧ ∀ a ∈ op.freed dir f, a ∈ pages

end DirOp

inductive DirRun (dir : ℕ) (f₀ : Frames) : List (DirOp × Ended × Frames) → Frames → Prop where
  | start : DirRun dir f₀ [] f₀
  | op {log f} (h : DirRun dir f₀ log f) {op : DirOp} {r : Ended} {g : Frames} (hallow : op.Allowed dir f)
      (hran : op.ran dir f = some (r, g)) : DirRun dir f₀ (log ++ [(op, r, g)]) g
  | other {log f} (h : DirRun dir f₀ log f) {g : Frames}
      (hkeep : ∀ a ∈ treePages f.mem dir, ∀ x, a ≤ x → x < a + 4096 → g.mem x = f.mem x) : DirRun dir f₀ log g

inductive RefRun : List (DirOp × Ended × Frames) → PageMap → Prop where
  | start : RefRun [] fun _ => none
  | op {log m} (h : RefRun log m) {op : DirOp} {r : Ended} {g : Frames} {m' : PageMap} (heff : op.Effect m g r m') :
      RefRun (log ++ [(op, r, g)]) m'

structure Frames.Reads (f : Frames) (dir : ℕ) (m : PageMap) : Prop where
  entry : ∀ va < maxva, Frames.readEntry dir va f = .done (encodeEntry (m (va / 4096))) f
  wf : ∀ v e, m v = some e → e.Wf
  finite : {v | m v ≠ none}.Finite
  translate : ∀ va < maxva, ∀ e, m (va / 4096) = some e → e.flags.testBit 1 = true ∨ e.flags.testBit 2 = true →
    ∃ pa, Frames.lookupPa dir va f = .done pa f ∧ Frames.userVaToPa dir va f = .done (pa + va % 4096) f

namespace Tree.Holds

variable {t : Tree} {f : Frames} {m : PageMap}

lemma mem_links {n : Node} {b c : ℕ} (h : t.Holds f.mem m) (hn : n.Inner) (hb : t.page n = some b) :
    c ∈ links f.mem b ↔ ∃ k < 512, t.page (n.child k) = some c := by
  have hword : ∀ k < 512, load64 f.mem (slot b k) = linkWord (t.page (n.child k)) := by
    intro k hk
    rw [h.words n b hb k hk, content_inner hn]
  constructor
  · rintro ⟨k, hk, hv, rfl⟩
    refine ⟨k, hk, ?_⟩
    rw [hword k hk] at hv ⊢
    cases hp : t.page (n.child k) with
    | none => simp [hp, linkWord] at hv
    | some a =>
      obtain ⟨hal, hlt⟩ := h.aligned _ a hp
      rw [pte2pa_linkWord hlt hal]
  · rintro ⟨k, hk, hp⟩
    obtain ⟨hal, hlt⟩ := h.aligned _ c hp
    refine ⟨k, hk, ?_, ?_⟩
    · rw [hword k hk, hp]
      exact linkWord_valid c
    · rw [hword k hk, hp, pte2pa_linkWord hlt hal]

lemma treePages_eq (h : t.Holds f.mem m) : treePages f.mem t.dir = t.pages := by
  have hroot := fun c => h.mem_links (n := .root) (c := c) trivial rfl
  ext a
  constructor
  · rintro (rfl | ha | ⟨b, hb, ha⟩)
    · exact ⟨.root, rfl⟩
    · obtain ⟨k, -, hk⟩ := (hroot a).mp ha
      exact ⟨_, hk⟩
    · obtain ⟨i, -, hi⟩ := (hroot b).mp hb
      obtain ⟨k, -, hk⟩ := (h.mem_links (n := .mid i) trivial hi).mp ha
      exact ⟨_, hk⟩
  · rintro ⟨n, hn⟩
    cases n with
    | root => exact .inl (Option.some.inj hn).symm
    | mid i => exact .inr (.inl ((hroot a).mpr ⟨i, h.within.1 i a hn, hn⟩))
    | low j =>
      obtain ⟨b, hb⟩ := h.within.2 j a hn
      refine .inr (.inr ⟨b, (hroot b).mpr ⟨j / 512, h.within.1 _ b hb, hb⟩, ?_⟩)
      refine (h.mem_links (n := .mid (j / 512)) trivial hb).mpr ⟨j % 512, Nat.mod_lt _ (by norm_num), ?_⟩
      rwa [Node.child, Nat.div_add_mod]

lemma reads (h : t.Holds f.mem m) : f.Reads t.dir m where
  entry _ hva := Frames.readEntry_eq h hva
  wf := h.wf
  finite := by
    refine (Set.finite_lt_nat (2 ^ 27)).subset ?_
    intro v hv
    obtain ⟨e, he⟩ := Option.ne_none_iff_exists'.mp hv
    obtain ⟨a, ha⟩ := h.covered v e he
    obtain ⟨b, hb⟩ := h.within.2 _ a ha
    have := h.within.1 _ b hb
    change v < 2 ^ 27
    omega
  translate va hva e he hrw := ⟨e.ppn * 4096, Frames.lookupPa_eq h hva he hrw, Frames.userVaToPa_eq h hva he⟩

lemma empty {dir : ℕ} (hal : dir % 4096 = 0) (hlt : dir < 2 ^ 64)
    (hzero : ∀ x, dir ≤ x → x < dir + 4096 → f.mem x = 0) :
    Tree.Holds ⟨dir, fun _ => none, fun _ => none⟩ f.mem fun _ => none := by
  refine ⟨?_, ?_, ?_, ⟨by simp, by simp⟩, by simp, by simp⟩
  · intro n a hn k hk
    cases n with
    | root =>
      cases hn
      rw [content, linkWord, load64_zero]
      intro i hi
      change f.mem (slot dir k + i) = 0
      apply hzero <;> unfold slot <;> omega
    | mid i => cases hn
    | low j => cases hn
  · intro n a hn
    cases n with
    | root =>
      cases hn
      exact ⟨hal, hlt⟩
    | mid i => cases hn
    | low j => cases hn
  · intro n n' a hn hn'
    cases n with
    | root =>
      cases n' with
      | root => rfl
      | mid i => cases hn'
      | low j => cases hn'
    | mid i => cases hn
    | low j => cases hn

end Tree.Holds

namespace DirOp

variable {t : Tree} {f g : Frames} {m : PageMap} {op : DirOp}

def Reaches (op : DirOp) (dir : ℕ) (m : PageMap) (r : Ended) (g : Frames) : Prop :=
  ∃ m', op.Effect m g r m' ∧ ∃ t' : Tree, t'.dir = dir ∧ t'.Holds g.mem m'

lemma Managed.pages (h : op.Managed t.dir f) (hlay : ∃ pages, f.Layout pages) :
    ∃ pages, f.Layout pages ∧ ∀ a ∈ op.freed t.dir f, a ∈ pages := by
  by_cases hne : (op.freed t.dir f).Nonempty
  · exact h hne
  · obtain ⟨pages, hlay⟩ := hlay
    exact ⟨pages, hlay, fun a ha => absurd ⟨a, ha⟩ hne⟩

lemma mem_freed (h : t.Holds f.mem m) {va size i : ℕ} (hal : va % 4096 = 0) (hhigh : va + size ≤ maxva)
    (hi : i < (size + 4095) / 4096) {e : Entry} (he : m (va / 4096 + i) = some e) :
    e.ppn * 4096 ∈ freed t.dir f (unmap va size true) := by
  have hwf := h.wf _ e he
  have hpage : (va + i * 4096) / 2 ^ 12 = va / 4096 + i := by omega
  refine ⟨i, hi, e.encode, ?_, ?_, (pte2pa_encode hwf).symm⟩
  · rw [Frames.readEntry_eq h (by omega), hpage, he]
    rfl
  · rw [ne_eq, and_pteV_eq_zero_iff, Entry.testBit_encode hwf (by norm_num), hwf.valid]
    simp

lemma unmap_meets (h : t.Holds f.mem m) {va size : ℕ} {free : Bool} (hal : va % 4096 = 0)
    (hallow : (unmap va size free).Allowed t.dir f) :
    meets (¬ (unmap va size free).Managed t.dir f) (Frames.userVmUnmap t.dir va size free)
      (fun _ g => t.Holds g.mem ((unmap va size free).after ((size + 4095) / 4096) m))
      (fun g => ∃ n, (unmap va size free).Refuses n m ∧ t.Holds g.mem ((unmap va size free).after n m)) f := by
  obtain ⟨hhigh, hlay, hdisj⟩ := hallow
  have hpages : ∃ pages, f.Layout pages ∧
      ((unmap va size free).Managed t.dir f → ∀ a ∈ freed t.dir f (unmap va size free), a ∈ pages) := by
    by_cases hman : (unmap va size free).Managed t.dir f
    · obtain ⟨pages, hp, hin⟩ := hman.pages hlay
      exact ⟨pages, hp, fun _ => hin⟩
    · obtain ⟨pages, hp⟩ := hlay
      exact ⟨pages, hp, fun hm => absurd hm hman⟩
  obtain ⟨pages, hp, hin⟩ := hpages
  rw [h.treePages_eq] at hdisj
  refine meets_mono (Frames.userVmUnmap_meets h hp hal hhigh ?_) ?_ (fun _ _ hg => hg) ?_
  · rintro rfl i hi e he
    exact Set.disjoint_left.mp hdisj (mem_freed h hal hhigh hi he)
  · rintro ⟨rfl, i, hi, e, he, hout⟩ hman
    exact hout (hin hman _ (mem_freed h hal hhigh hi he))
  · rintro g ⟨n, hn, hflags, hg⟩
    exact ⟨n, .inr ⟨hn, hflags⟩, hg⟩

lemma perform_meets (h : t.Holds f.mem m) (hallow : op.Allowed t.dir f) :
    meets (¬ op.Managed t.dir f) (op.perform t.dir) (fun b => op.Reaches t.dir m (.returned b))
      (op.Reaches t.dir m .killed) f := by
  cases op with
  | map va size pa perm =>
    obtain ⟨hlow, hhigh, hpa, hperm, hst⟩ := hallow
    rw [h.treePages_eq] at hst
    refine meets_mono (Frames.mapRange_meets ⟨t, rfl, h, hst⟩ hlow hhigh hpa hperm) False.elim ?_ ?_
    · intro b g hg
      cases b with
      | true =>
        obtain ⟨t', hdir, hst'⟩ := hg
        exact ⟨_, .full, t', hdir, hst'.holds⟩
      | false =>
        obtain ⟨hnone, n, hn, t', hdir, hst'⟩ := hg
        exact ⟨_, .short hn rfl hnone, t', hdir, hst'.holds⟩
    · rintro g ⟨n, hn, hne, t', hdir, hst'⟩
      exact ⟨_, .refused ⟨hn, hne⟩, t', hdir, hst'.holds⟩
  | mapCow va size pa =>
    obtain ⟨hlow, hhigh, hpa, hst⟩ := hallow
    rw [h.treePages_eq] at hst
    have hperm : pteR ||| pteA ||| pteU ||| pteCow ||| pteV < 2 ^ 10 := by decide
    have hrange := Frames.mapRange_meets ⟨t, rfl, h, hst⟩ hlow hhigh hpa hperm
    refine meets_bind (meets_bind (meets_mono hrange False.elim ?_ ?_))
    · intro b g hg
      cases b with
      | true =>
        obtain ⟨t', hdir, hst'⟩ := hg
        exact ⟨_, .full, t', hdir, hst'.holds⟩
      | false =>
        obtain ⟨hnone, n, hn, t', hdir, hst'⟩ := hg
        exact ⟨_, .short hn rfl hnone, t', hdir, hst'.holds⟩
    · rintro g ⟨n, hn, hne, t', hdir, hst'⟩
      exact ⟨_, .refused ⟨hn, hne⟩, t', hdir, hst'.holds⟩
  | unmap va size free =>
    by_cases hal : va % 4096 = 0
    · refine meets_bind (meets_mono (unmap_meets h hal hallow) id ?_ ?_)
      · intro _ g hg
        exact ⟨_, .full, t, rfl, hg⟩
      · rintro g ⟨n, hn, hg⟩
        exact ⟨_, .refused hn, t, rfl, hg⟩
    · refine meets_bind ?_
      rw [Frames.userVmUnmap, if_pos hal]
      refine meets_leave ⟨_, .refused (n := 0) (.inl ⟨hal, rfl⟩), t, rfl, ?_⟩
      rwa [after, PageMap.alter_zero]
  | setCow va =>
    obtain ⟨g, hrun, hg⟩ := Frames.userVmSetCow_eq h hallow
    refine meets_bind (meets_done hrun (meets_pure ⟨_, .full, t, rfl, ?_⟩))
    rw [after, count, ← PageMap.alter_succ, PageMap.alter_zero]
    exact hg

lemma ran_reaches (h : t.Holds f.mem m) (hallow : op.Allowed t.dir f) {r : Ended}
    (hran : op.ran t.dir f = some (r, g)) : op.Reaches t.dir m r g := by
  have hmeets := perform_meets h hallow
  unfold meets at hmeets
  unfold ran at hran
  cases hp : op.perform t.dir f with
  | done b u =>
    rw [hp] at hran hmeets
    cases hran
    exact hmeets
  | left u =>
    rw [hp] at hran hmeets
    cases hran
    exact hmeets
  | halted =>
    rw [hp] at hran
    cases hran
  | undefined =>
    rw [hp] at hran
    cases hran

lemma ran_isSome (h : t.Holds f.mem m) (hallow : op.Allowed t.dir f) (hman : op.Managed t.dir f) :
    (op.ran t.dir f).isSome := by
  have hmeets := perform_meets h hallow
  unfold meets at hmeets
  unfold ran
  cases hp : op.perform t.dir f with
  | done b u => rfl
  | left u => rfl
  | halted =>
    rw [hp] at hmeets
    exact absurd hman hmeets
  | undefined =>
    rw [hp] at hmeets
    exact hmeets.elim

end DirOp

lemma DirRun.holds {dir : ℕ} {f₀ f : Frames} {log : List (DirOp × Ended × Frames)} (hrun : DirRun dir f₀ log f)
    (hal : dir % 4096 = 0) (hlt : dir < 2 ^ 64) (hzero : ∀ x, dir ≤ x → x < dir + 4096 → f₀.mem x = 0) :
    ∃ m, RefRun log m ∧ ∃ t : Tree, t.dir = dir ∧ t.Holds f.mem m := by
  induction hrun with
  | start => exact ⟨_, .start, _, rfl, .empty hal hlt hzero⟩
  | op _ hallow hran ih =>
    obtain ⟨m, href, t, rfl, ht⟩ := ih
    obtain ⟨m', heff, t', hdir, ht'⟩ := DirOp.ran_reaches ht hallow hran
    exact ⟨m', href.op heff, t', hdir, ht'⟩
  | other _ hkeep ih =>
    obtain ⟨m, href, t, rfl, ht⟩ := ih
    rw [ht.treePages_eq] at hkeep
    exact ⟨m, href, t, rfl, ht.congr hkeep⟩

/-- A page directory is a finite map: whatever operations were made on it, it reads as the map that the same
operations make of the empty map; and the operations come to an end. -/
theorem page_directory_reads_map {dir : ℕ} {f₀ f : Frames} {log : List (DirOp × Ended × Frames)}
    (hal : dir % 4096 = 0) (hlt : dir < 2 ^ 64) (hzero : ∀ x, dir ≤ x → x < dir + 4096 → f₀.mem x = 0)
    (hrun : DirRun dir f₀ log f) :
    (∃ m, RefRun log m ∧ f.Reads dir m) ∧
      ∀ op : DirOp, op.Allowed dir f → op.Managed dir f → (op.ran dir f).isSome := by
  obtain ⟨m, href, t, rfl, ht⟩ := hrun.holds hal hlt hzero
  exact ⟨⟨m, href, ht.reads⟩, fun op hallow hman => DirOp.ran_isSome ht hallow hman⟩

def twoPages : Frames where
  freeMemStartAddr := 0x10000
  freeMemEndAddr := 0x12000
  gFreeMemList := 0x10000
  pageRefCount := fun _ => 0
  mem := store64 (fun _ => 0) 0x10000 0x11000

lemma twoPages_stocked : twoPages.Stocked (treePages twoPages.mem 0x20000) := by
  have hzero : ∀ x, 0x20000 ≤ x → x < 0x20000 + 4096 → twoPages.mem x = 0 := by
    intro x hx hx'
    exact store64_apply (by omega)
  have hempty := Tree.Holds.empty (by norm_num) (by norm_num) hzero
  have htree := hempty.treePages_eq
  have hout : ∀ a, a < 0x20000 → a ∉ treePages twoPages.mem 0x20000 := by
    rw [htree]
    rintro a ha ⟨n, hn⟩
    cases n with
    | root =>
      cases hn
      exact absurd ha (lt_irrefl _)
    | mid i => cases hn
    | low j => cases hn
  refine ⟨[0x10000, 0x11000], [0x10000, 0x11000], ⟨by decide, by decide, by decide, by decide, by decide⟩, ?_, ?_⟩
  · refine ⟨rfl, ?_, Chain.nil_iff.mpr ?_⟩
    · decide +kernel
    · decide +kernel
  · intro a ha
    refine ⟨ha, hout a ?_⟩
    rcases List.mem_cons.mp ha with rfl | ha
    · norm_num
    · rw [List.mem_singleton.mp ha]
      norm_num

theorem page_directory_reads_map_two_pages :
    ∃ g, DirRun 0x20000 twoPages [(.map 0x40000000 8192 0x80000000 pteR, .returned true, g)] g ∧
      ∃ m, RefRun [(.map 0x40000000 8192 0x80000000 pteR, .returned true, g)] m ∧ g.Reads 0x20000 m := by
  have hsome : ((DirOp.map 0x40000000 8192 0x80000000 pteR).ran 0x20000 twoPages).any
      (fun p => match p.1 with | .returned b => b | .killed => false) = true := by decide +kernel
  obtain ⟨⟨r, g⟩, hg, hr⟩ := (Option.any_eq_true _ _).mp hsome
  cases r with
  | killed => cases hr
  | returned b =>
    cases b with
    | false => cases hr
    | true =>
      have hrun : DirRun 0x20000 twoPages [(.map 0x40000000 8192 0x80000000 pteR, .returned true, g)] g :=
        DirRun.start.op ⟨by norm_num, by norm_num, by decide, by decide, twoPages_stocked⟩ hg
      refine ⟨g, hrun, (page_directory_reads_map (by norm_num) (by norm_num) ?_ hrun).1⟩
      intro x hx hx'
      exact store64_apply (by omega)

end Pke.Memory
