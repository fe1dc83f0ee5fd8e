import Pke.Files.Rfs
import Pke.Memory.AllocatorRuns

/-! The pages behind the copies of directories: `rfs_hook_opendir` takes them from `alloc_page`, and `rfs_hook_closedir` passes those
to `free_page` that it finds through `i_fs_info`. -/

namespace Pke.Files.CachePages

open Lib Flow Function Memory

inductive PageEvent where
  | taken (v pa : ℕ)
  | freed (v pa : ℕ)
  deriving DecidableEq

structure DirCaches where
  frames : Frames
  info : ℕ → ℕ
  log : List PageEvent

namespace DirCaches

def withMem (s : DirCaches) (mem : ℕ → UInt8) : DirCaches := { s with frames := { s.frames with mem := mem } }

def taken (s : DirCaches) (v pa : ℕ) : ℕ := s.log.count (.taken v pa)
def freed (s : DirCaches) (v pa : ℕ) : ℕ := s.log.count (.freed v pa)

def Holds (s : DirCaches) (v pa : ℕ) : Prop := s.freed v pa < s.taken v pa

end DirCaches

def onFrames {α : Type} (m : Flow Frames α) : Flow DirCaches α := within DirCaches.frames (fun f s => { s with frames := f }) leave m

def takePage (v : ℕ) : Flow DirCaches ℕ := do
  let pa ← onFrames Frames.allocPage
  modify fun s => { s with log := .taken v pa :: s.log }
  pure pa

def givePage (v pa : ℕ) : Flow DirCaches Unit := do
  onFrames (Frames.freePage pa)
  modify fun s => { s with log := .freed v pa :: s.log }

def copyBlock (pa : ℕ) (block : ℕ → UInt8) : Flow DirCaches Unit :=
  if pa = 0 then undef
  else modify fun s => s.withMem fun x => if pa ≤ x ∧ x < pa + rfsBlksize then block (x - pa) else s.frames.mem x

def readDirPages (v previous : ℕ) : List (ℕ → UInt8) → Flow DirCaches ℕ
  | [] => pure previous
  | block :: rest => do
    let pdire ← takePage v
    if previous ≠ 0 ∧ (previous : ℤ) - pdire ≠ rfsBlksize then leave
    else do
      copyBlock pdire block
      readDirPages v pdire rest

def rfsHookOpendir (v : ℕ) (blocks : List (ℕ → UInt8)) : Flow DirCaches Unit :=
  if 10 < blocks.length then undef
  else do
    let pdire ← readDirPages v 0 blocks.reverse
    let dirCache ← takePage v
    if dirCache = 0 then undef
    else modify fun s =>
      { s.withMem (store64 (store32 s.frames.mem dirCache blocks.length) (dirCache + 8) pdire) with info := update s.info v dirCache }

def freeBlocks (v dirCache : ℕ) : ℕ → ℕ → Flow DirCaches Unit
  | 0, _ => pure ()
  | fuel + 1, i => do
    let s ← get
    if (i : ℤ) < load32 s.frames.mem dirCache then do
      givePage v (u64 (load64 s.frames.mem (dirCache + 8) + i * rfsBlksize))
      freeBlocks v dirCache fuel (i + 1)
    else pure ()

def rfsHookClosedir (v : ℕ) : Flow DirCaches Unit := do
  let s ← get
  freeBlocks v (s.info v) (2 ^ 31) 0

inductive DirOp where
  | opendir (v : ℕ) (blocks : List (ℕ → UInt8))
  | closedir (v : ℕ)
  | other

namespace DirOp

def perform : DirOp → Flow DirCaches Unit
  | opendir v blocks => rfsHookOpendir v blocks
  | closedir v => rfsHookClosedir v
  | other => do
    let _ ← onFrames Frames.allocPage
    pure ()

def opens (v : ℕ) : DirOp → Bool
  | opendir w _ => v = w
  | closedir _ | other => false

def closes (v : ℕ) : DirOp → Bool
  | opendir _ _ | other => false
  | closedir w => v = w

end DirOp

structure Balanced (ops : List DirOp) : Prop where
  follows : ∀ pre, pre <+: ops → ∀ v, pre.countP (DirOp.closes v) ≤ pre.countP (DirOp.opens v)
  closed : ∀ v, ops.countP (DirOp.closes v) = ops.countP (DirOp.opens v)

def NoExcess (log : List PageEvent) : Prop :=
  ∀ earlier, earlier <:+ log → ∀ v pa, earlier.count (.freed v pa) ≤ earlier.count (.taken v pa)

structure Returned (log : List PageEvent) : Prop where
  never : NoExcess log
  all : ∀ v pa, log.count (.freed v pa) = log.count (.taken v pa)

section Growth

variable {s t : DirCaches} {v pa : ℕ}

def Grows (s t : DirCaches) : Prop := s.log <:+ t.log

namespace Grows

lemma refl (s : DirCaches) : Grows s s := List.suffix_refl _
lemma trans (s t u : DirCaches) (h : Grows s t) (h' : Grows t u) : Grows s u := List.IsSuffix.trans h h'

lemma onFrames {α : Type} (m : Flow Frames α) : Carries Grows (onFrames m) := by
  intro s a t ht
  rw [CachePages.onFrames, within] at ht
  cases hm : m s.frames with
  | done b f =>
    rw [hm] at ht
    cases ht
    exact refl s
  | left | halted | undefined =>
    rw [hm] at ht
    cases ht

lemma takePage : Carries Grows (takePage v) :=
  .bind trans (onFrames _) fun _ => .bind trans (.modify fun _ => List.suffix_cons _ _) fun _ => .pure refl _

lemma givePage : Carries Grows (givePage v pa) := .bind trans (onFrames _) fun _ => .modify fun _ => List.suffix_cons _ _

lemma readDirPages (blocks : List (ℕ → UInt8)) : ∀ previous, Carries Grows (readDirPages v previous blocks) := by
  induction blocks with
  | nil => exact fun _ => .pure refl _
  | cons block rest ih =>
    intro previous
    refine .bind trans takePage fun pdire => .ite .leave (.bind trans (.ite .undef (.modify fun s => ?_)) fun _ => ih pdire)
    exact refl s

lemma freeBlocks {dirCache : ℕ} (fuel : ℕ) : ∀ i, Carries Grows (freeBlocks v dirCache fuel i) := by
  induction fuel with
  | zero => exact fun _ => .pure refl ()
  | succ fuel ih => exact fun i => .get fun _ => .ite (.bind trans givePage fun _ => ih (i + 1)) (.pure refl ())

lemma perform (op : DirOp) : Carries Grows op.perform := by
  cases op with
  | opendir v blocks =>
    refine .ite .undef (.bind trans (readDirPages _ _) fun _ => .bind trans takePage fun _ => .ite .undef (.modify fun s => ?_))
    exact refl s
  | closedir v => exact .get fun _ => freeBlocks _ _
  | other => exact .bind trans (onFrames _) fun _ => .pure refl ()

end Grows

lemma NoExcess.of_suffix {l l' : List PageEvent} (h : NoExcess l) (hs : l' <:+ l) : NoExcess l' := fun earlier he => h earlier (he.trans hs)

def guards {α : Type} (m : Flow DirCaches α) (Q : α → DirCaches → Prop) (s : DirCaches) : Prop :=
  yields m (fun a t => NoExcess t.log → Q a t) s

lemma guards_bind {α β : Type} {m : Flow DirCaches α} {f : α → Flow DirCaches β} {Q : β → DirCaches → Prop}
    (hf : ∀ a, Carries Grows (f a)) (h : guards m (fun a => guards (f a) Q) s) : guards (m >>= f) Q s := by
  refine yields_bind (fun a u hu b t ht hlog => ?_)
  exact h a u hu (hlog.of_suffix (hf a u b t ht)) b t ht hlog

lemma guards_mono {α : Type} {m : Flow DirCaches α} {Q R : α → DirCaches → Prop} (h : guards m Q s) (hq : ∀ a t, Q a t → R a t) :
    guards m R s := yields_mono h fun a t ht hlog => hq a t (ht hlog)

end Growth

structure Cached (s : DirCaches) (v : ℕ) : Prop where
  held : s.Holds v (s.info v)
  cache : ∃ count base : ℕ, load32 s.frames.mem (s.info v) = count ∧ load64 s.frames.mem (s.info v + 8) = base ∧
    base + count * 4096 < 2 ^ 64 ∧ ∀ i < count, base + i * 4096 ≠ s.info v

lemma Cached.congr {s t : DirCaches} {v : ℕ} (h : Cached s v) (hinfo : t.info v = s.info v) (hheld : t.Holds v (s.info v))
    (hmem : ∀ x, s.info v ≤ x → x < s.info v + 16 → t.frames.mem x = s.frames.mem x) : Cached t v := by
  obtain ⟨count, base, hcount, hbase, hcache⟩ := h.cache
  refine ⟨by rwa [hinfo], count, base, ?_, ?_, ?_⟩
  · rw [hinfo, ← hcount]
    exact load32_congr fun i hi => hmem _ (by omega) (by omega)
  · rw [hinfo, ← hbase]
    exact load64_congr fun i hi => hmem _ (by omega) (by omega)
  · rwa [hinfo]

structure Inv (pages : List ℕ) (opened : Set ℕ) (s : DirCaches) : Prop where
  kept : ∃ usage l, Books.Kept pages ⟨s.frames, usage⟩ l ∧ ∀ v pa, s.Holds v pa → (usage pa).Out
  paid : ∀ v pa, s.freed v pa ≤ s.taken v pa ∧ s.taken v pa ≤ s.freed v pa + 1
  unique : ∀ v w pa, s.Holds v pa → s.Holds w pa → v = w
  cached : ∀ v ∈ opened, Cached s v

namespace Inv

variable {pages : List ℕ} {opened : Set ℕ} {s t : DirCaches} {v pa : ℕ}

lemma page (h : Inv pages opened s) (hh : s.Holds v pa) : pa ∈ pages ∧ pa % 4096 = 0 ∧ pa + 4096 < 2 ^ 64 := by
  obtain ⟨usage, l, hk, hout⟩ := h.kept
  have hpa := hk.mem_of_out (hout v pa hh)
  have hpage := hk.layout.page pa hpa
  have hsmall := hk.layout.small
  exact ⟨hpa, hpage.1, by omega⟩

lemma apart (h : Inv pages opened s) {w qa : ℕ} (hh : s.Holds v pa) (hh' : s.Holds w qa) (hne : pa ≠ qa) :
    pa + 4096 ≤ qa ∨ qa + 4096 ≤ pa := by
  obtain ⟨usage, l, hk, -⟩ := h.kept
  exact hk.layout.apart (h.page hh).1 (h.page hh').1 hne

lemma write (h : Inv pages opened s) (hh : s.Holds v pa) (hno : ∀ w ∈ opened, s.info w ≠ pa) {mem : ℕ → UInt8}
    (hmem : ∀ x, x < pa ∨ pa + 4096 ≤ x → mem x = s.frames.mem x) : Inv pages opened (s.withMem mem) := by
  obtain ⟨usage, l, hk, hout⟩ := h.kept
  refine ⟨⟨usage, l, { hk with layout := hk.layout.congr rfl rfl, chain := ?_ }, hout⟩, h.paid, h.unique, fun w hw => ?_⟩
  · refine Frames.FreeList.of_mem hk.chain rfl fun p hp => load64_congr fun i hi => hmem _ ?_
    have hfree := (hk.free p).mp hp
    have hapart := hk.layout.apart hfree.1 (h.page hh).1 (ne_of_mem_of_not_mem hp (hk.notMem_of_out (hout v pa hh)))
    omega
  · have hc := h.cached w hw
    have hapart := h.apart hc.held hh (hno w hw)
    exact hc.congr rfl hc.held fun x hx hx' => hmem x (by omega)

section Events

lemma taken_cons (v pa w qa : ℕ) (log : List PageEvent) :
    (PageEvent.taken v pa :: log).count (.taken w qa) = log.count (.taken w qa) + if v = w ∧ pa = qa then 1 else 0 := by
  rw [List.count_cons]
  simp only [beq_iff_eq, PageEvent.taken.injEq]

lemma freed_cons (v pa w qa : ℕ) (log : List PageEvent) :
    (PageEvent.freed v pa :: log).count (.freed w qa) = log.count (.freed w qa) + if v = w ∧ pa = qa then 1 else 0 := by
  rw [List.count_cons]
  simp only [beq_iff_eq, PageEvent.freed.injEq]

end Events

lemma enter (h : Inv pages opened s) {f : Frames} {usage : ℕ → Usage} {l : List ℕ} (hfree : ∀ w, ¬ s.Holds w pa)
    (hk : Books.Kept pages ⟨f, usage⟩ l) (hout : ∀ w qa, s.Holds w qa → (usage qa).Out) (hpa : (usage pa).Out)
    (hmem : f.mem = s.frames.mem) (ht : t = { s with frames := f, log := .taken v pa :: s.log }) :
    Inv pages opened t ∧ t.Holds v pa ∧ ∀ w qa, s.Holds w qa → t.Holds w qa := by
  have htaken (w qa : ℕ) : t.taken w qa = s.taken w qa + if v = w ∧ pa = qa then 1 else 0 := by
    rw [ht]
    exact taken_cons v pa w qa s.log
  have hfreed (w qa : ℕ) : t.freed w qa = s.freed w qa := by
    rw [ht]
    exact List.count_cons_of_ne (show PageEvent.taken v pa ≠ .freed w qa from nofun)
  have hold (w qa : ℕ) (hw : s.Holds w qa) : t.Holds w qa := by
    rw [DirCaches.Holds, htaken, hfreed]
    exact Nat.lt_add_right _ hw
  have hcases (w qa : ℕ) (hw : t.Holds w qa) : s.Holds w qa ∨ v = w ∧ pa = qa := by
    rw [DirCaches.Holds, htaken, hfreed] at hw
    split_ifs at hw with he
    · exact .inr he
    · exact .inl hw
  refine ⟨⟨⟨usage, l, ?_, fun w qa hw => ?_⟩, fun w qa => ?_, fun w w' qa hw hw' => ?_, fun w hw => ?_⟩, ?_, hold⟩
  · rw [ht]
    exact hk
  · rcases hcases w qa hw with hw | ⟨-, rfl⟩
    · exact hout w qa hw
    · exact hpa
  · have hpaid := h.paid w qa
    rw [htaken, hfreed]
    split_ifs with he
    · obtain ⟨rfl, rfl⟩ := he
      have hnot := hfree v
      rw [DirCaches.Holds] at hnot
      omega
    · omega
  · rcases hcases w qa hw with hw | ⟨rfl, rfl⟩
    · rcases hcases w' qa hw' with hw' | ⟨rfl, rfl⟩
      · exact h.unique w w' qa hw hw'
      · exact absurd hw (hfree w)
    · rcases hcases w' pa hw' with hw' | ⟨rfl, -⟩
      · exact absurd hw' (hfree w')
      · rfl
  · have hc := h.cached w hw
    exact hc.congr (by rw [ht]) (hold _ _ hc.held) fun x _ _ => by rw [ht]; exact congrFun hmem x
  · have hpaid := (h.paid v pa).1
    rw [DirCaches.Holds, htaken, hfreed, if_pos ⟨rfl, rfl⟩]
    exact Nat.lt_succ_of_le hpaid

lemma takePage_yields (h : Inv pages opened s) : yields (takePage v) (fun pa t => t.info = s.info ∧ (pa ≠ 0 →
    (∀ w, ¬ s.Holds w pa) ∧ Inv pages opened t ∧ t.Holds v pa ∧ ∀ w qa, s.Holds w qa → t.Holds w qa)) s := by
  obtain ⟨usage, l, hk, hout⟩ := h.kept
  by_cases hf : s.frames.gFreeMemList = 0
  · have hrun : onFrames Frames.allocPage s = .done 0 s := by
      rw [onFrames, within, Frames.allocPage_nil hf]
    exact yields_bind_done hrun (yields_modify_bind (yields_pure ⟨rfl, fun hne => absurd rfl hne⟩))
  · obtain ⟨halloc, -, hnot, hkept⟩ := hk.alloc_some hf
    have hrun : onFrames Frames.allocPage s = .done s.frames.gFreeMemList { s with frames := s.frames.taken } := by
      rw [onFrames, within, halloc]
    refine yields_bind_done hrun (yields_modify_bind (yields_pure ⟨rfl, fun _ => ?_⟩))
    have hfree (w : ℕ) : ¬ s.Holds w s.frames.gFreeMemList := fun hw => hnot (hout w _ hw)
    refine ⟨hfree, h.enter hfree hkept (fun w qa hw => ?_) ?_ rfl rfl⟩
    · dsimp only
      rw [update_of_ne]
      · exact hout w qa hw
      · rintro rfl
        exact hfree w hw
    · rw [update_self]
      exact ⟨rfl, Nat.le_refl 0⟩

lemma giveBack (h : Inv pages opened s) (hh : s.Holds v pa) (hno : ∀ w ∈ opened, s.info w ≠ pa) :
    Inv pages opened { s with frames := s.frames.freed pa, log := .freed v pa :: s.log } := by
  obtain ⟨usage, l, hk, hout⟩ := h.kept
  obtain ⟨f, m, hrun, hkept⟩ := hk.free_page (hout v pa hh)
  have hf : f = s.frames.freed pa := by
    have hdone := Frames.freePage_eq hk.layout (h.page hh).1
    rw [Frames.decPageRef, hdone] at hrun
    cases hrun
    rfl
  subst hf
  generalize ht : ({ s with frames := s.frames.freed pa, log := .freed v pa :: s.log } : DirCaches) = t
  have htaken (w qa : ℕ) : t.taken w qa = s.taken w qa := by
    rw [← ht]
    exact List.count_cons_of_ne (show PageEvent.freed v pa ≠ .taken w qa from nofun)
  have hfreed (w qa : ℕ) : t.freed w qa = s.freed w qa + if v = w ∧ pa = qa then 1 else 0 := by
    rw [← ht]
    exact freed_cons v pa w qa s.log
  have hcases (w qa : ℕ) : t.Holds w qa ↔ s.Holds w qa ∧ pa ≠ qa := by
    rw [DirCaches.Holds, DirCaches.Holds, htaken, hfreed]
    have hpaid := h.paid w qa
    split_ifs with he
    · refine iff_of_false (by omega) fun hne => hne.2 he.2
    · refine ⟨fun hw => ⟨hw, ?_⟩, fun hw => hw.1⟩
      rintro rfl
      exact he ⟨h.unique v w pa hh hw, rfl⟩
  refine ⟨⟨update usage pa { usage pa with frees := (usage pa).frees + 1 }, m, ?_, fun w qa hw => ?_⟩, fun w qa => ?_,
    fun w w' qa hw hw' => ?_, fun w hw => ?_⟩
  · rw [← ht]
    exact hkept
  · obtain ⟨hw, hne⟩ := (hcases w qa).mp hw
    dsimp only
    rw [update_of_ne hne.symm]
    exact hout w qa hw
  · have hpaid := h.paid w qa
    rw [htaken, hfreed]
    split_ifs with he
    · obtain ⟨rfl, rfl⟩ := he
      have hlt : s.freed v pa < s.taken v pa := hh
      omega
    · omega
  · exact h.unique w w' qa ((hcases w qa).mp hw).1 ((hcases w' qa).mp hw').1
  · have hc := h.cached w hw
    have hapart := h.apart hc.held hh (hno w hw)
    refine hc.congr (by rw [← ht]) ((hcases w _).mpr ⟨hc.held, (hno w hw).symm⟩) fun x hx hx' => ?_
    rw [← ht]
    exact Frames.freed_mem s.frames (by omega)

lemma givePage_guards (h : Inv pages opened s) (hno : ∀ w ∈ opened, s.Holds v pa → s.info w ≠ pa) :
    guards (givePage v pa) (fun _ t => Inv pages opened t ∧ s.Holds v pa ∧ t.info = s.info ∧
      ∀ x, x < pa ∨ pa + 8 ≤ x → t.frames.mem x = s.frames.mem x) s := by
  intro _ t ht hlog
  obtain ⟨_, u, hu, hrest⟩ := bind_eq_done ht
  cases hrest
  have hlogs : u.log = s.log := by
    rw [onFrames, within] at hu
    cases hm : Frames.freePage pa s.frames with
    | done b f =>
      rw [hm] at hu
      cases hu
      rfl
    | left | halted | undefined =>
      rw [hm] at hu
      cases hu
  -- the call was paid for, so that the page is held
  have hh : s.Holds v pa := by
    have hcount := hlog _ (List.suffix_refl _) v pa
    dsimp only at hcount
    rw [hlogs, freed_cons, if_pos ⟨rfl, rfl⟩, List.count_cons_of_ne (show PageEvent.freed v pa ≠ .taken v pa from nofun)] at hcount
    exact hcount
  obtain ⟨usage, l, hk, -⟩ := h.kept
  have hrun : onFrames (Frames.freePage pa) s = .done () { s with frames := s.frames.freed pa } := by
    rw [onFrames, within, Frames.freePage_eq hk.layout (h.page hh).1]
  rw [hrun] at hu
  cases hu
  exact ⟨h.giveBack hh fun w hw => hno w hw hh, hh, rfl, fun x hx => Frames.freed_mem s.frames hx⟩

lemma freeBlocks_guards (h : Inv pages opened s) (hv : v ∈ opened) (fuel : ℕ) : ∀ i,
    guards (freeBlocks v (s.info v) fuel i) (fun _ t => Inv pages opened t) s := by
  induction fuel generalizing s with
  | zero => exact fun i => yields_pure fun _ => h
  | succ fuel ih =>
    intro i
    refine yields_get_bind ?_
    obtain ⟨count, base, hcount, hbase, hsmall, hne⟩ := (h.cached v hv).cache
    rw [hcount, hbase]
    split_ifs with hlt
    · have hi : i < count := by omega
      have haddr : u64 (base + i * rfsBlksize) = base + i * 4096 := by
        change (base + i * 4096) % 2 ^ 64 = _
        omega
      rw [haddr]
      refine guards_bind (fun _ => Grows.freeBlocks fuel _) (guards_mono (h.givePage_guards fun w hw hh hinfo => ?_) ?_)
      · have hw' := h.unique w v _ (hinfo ▸ (h.cached w hw).held) hh
        subst hw'
        exact hne i hi hinfo.symm
      · rintro _ t ⟨ht, -, hinfo, -⟩
        rw [← hinfo]
        exact ih ht (i + 1)
    · exact yields_pure fun _ => h

structure Run (v : ℕ) (s : DirCaches) (base n : ℕ) : Prop where
  empty : n = 0 ↔ base = 0
  held : ∀ i < n, s.Holds v (base + i * 4096)

lemma readDirPages_yields (blocks : List (ℕ → UInt8)) : ∀ {s previous n}, Inv pages opened s → Run v s previous n →
    yields (readDirPages v previous blocks) (fun base t => Inv pages opened t ∧ t.info = s.info ∧ Run v t base (n + blocks.length)) s := by
  induction blocks with
  | nil => exact fun h hrun => yields_pure ⟨h, rfl, hrun⟩
  | cons block rest ih =>
    intro s previous n h hrun
    refine yields_bind (yields_mono h.takePage_yields ?_)
    rintro pdire t ⟨hinfo, hpdire⟩
    split_ifs with hgap
    · exact yields_leave
    · by_cases hz : pdire = 0
      · rw [copyBlock, if_pos hz]
        exact yields_bind yields_undef
      · obtain ⟨hfree, ht, hheld, hold⟩ := hpdire hz
        rw [copyBlock, if_neg hz]
        refine yields_modify_bind ?_
        have hno (w : ℕ) (hw : w ∈ opened) : t.info w ≠ pdire := by
          rintro rfl
          exact hfree w (hinfo ▸ (h.cached w hw).held)
        have hmem : ∀ x, x < pdire ∨ pdire + 4096 ≤ x →
            (if pdire ≤ x ∧ x < pdire + rfsBlksize then block (x - pdire) else t.frames.mem x) = t.frames.mem x :=
          fun x hx => if_neg fun hin => hx.elim (fun hlt => absurd hin.1 (Nat.not_le.mpr hlt)) fun hle => absurd hin.2 (Nat.not_lt.mpr hle)
        refine yields_mono (ih (n := n + 1) (ht.write hheld hno hmem) ⟨iff_of_false (Nat.succ_ne_zero n) hz, fun i hi => ?_⟩) ?_
        · cases i with
          | zero =>
            rw [Nat.zero_mul, Nat.add_zero]
            exact hheld
          | succ i =>
            have hne : previous ≠ 0 := fun hp => absurd (hrun.empty.mpr hp) (by omega)
            have hnext : pdire + (i + 1) * 4096 = previous + i * 4096 := by
              change ¬ (previous ≠ 0 ∧ (previous : ℤ) - pdire ≠ 4096) at hgap
              omega
            rw [hnext]
            exact hold v _ (hrun.held i (by omega))
        · rintro base u ⟨hu, hinfo', hrun'⟩
          refine ⟨hu, hinfo'.trans hinfo, ?_⟩
          rwa [Nat.add_right_comm] at hrun'

lemma describe (h : Inv pages opened s) {c base n : ℕ} (hn : n ≤ 10) (hrun : Run v s base n) (hc : s.Holds v c)
    (hno : ∀ w ∈ opened, s.info w ≠ c) (hne : ∀ i < n, base + i * 4096 ≠ c) :
    Inv pages (insert v opened)
      { s.withMem (store64 (store32 s.frames.mem c n) (c + 8) base) with info := update s.info v c } := by
  have hsmall : base + n * 4096 < 2 ^ 64 := by
    cases n with
    | zero =>
      have hbase := hrun.empty.mp rfl
      omega
    | succ n =>
      have hlast := (h.page (hrun.held n (Nat.lt_succ_self n))).2.2
      omega
  have hmem : ∀ x, x < c ∨ c + 4096 ≤ x → store64 (store32 s.frames.mem c n) (c + 8) base x = s.frames.mem x := by
    intro x hx
    rw [store64_apply (by omega), store32_apply (by omega)]
  have hw := h.write hc hno hmem
  refine ⟨hw.kept, hw.paid, hw.unique, fun w hmemw => ?_⟩
  by_cases he : w = v
  · subst he
    refine ⟨?_, n, base, ?_, ?_, hsmall, fun i hi => ?_⟩
    · dsimp only
      rw [update_self]
      exact hc
    · dsimp only
      rw [update_self]
      refine (load32_congr fun i hi => ?_).trans (load32_store32 (b := s.frames.mem) (a := c) (v := (n : ℤ)) (by omega))
      exact store64_apply (by omega)
    · dsimp only
      rw [update_self]
      exact load64_store64_self _ _ (by omega)
    · dsimp only
      rw [update_self]
      exact hne i hi
  · have hin : w ∈ opened := hmemw.resolve_left he
    exact (hw.cached w hin).congr (update_of_ne he _ _) (hw.cached w hin).held fun _ _ _ => rfl

lemma opendir_yields (h : Inv pages opened s) (blocks : List (ℕ → UInt8)) :
    yields (rfsHookOpendir v blocks) (fun _ t => Inv pages (insert v opened) t) s := by
  rw [rfsHookOpendir]
  split_ifs with hlen
  · exact yields_undef
  · have hstart : Run v s 0 0 := ⟨by omega, fun i hi => absurd hi (Nat.not_lt_zero i)⟩
    refine yields_bind (yields_mono (readDirPages_yields _ h hstart) ?_)
    rintro base t ⟨ht, hinfo, hrun⟩
    rw [List.length_reverse, Nat.zero_add] at hrun
    refine yields_bind (yields_mono ht.takePage_yields ?_)
    rintro c u ⟨hinfo', hc⟩
    split_ifs with hz
    · exact yields_undef
    · obtain ⟨hfree, hu, hheld, hold⟩ := hc hz
      refine yields_modify (hu.describe (by omega) ⟨hrun.empty, fun i hi => hold v _ (hrun.held i hi)⟩ hheld ?_ ?_)
      · rintro w hw rfl
        exact hfree w (hinfo' ▸ (ht.cached w hw).held)
      · rintro i hi rfl
        exact hfree v (hrun.held i hi)

lemma other_eq (h : Inv pages opened s) : ∃ t, DirOp.other.perform s = .done () t ∧ t.log = s.log ∧ Inv pages opened t := by
  obtain ⟨usage, l, hk, hout⟩ := h.kept
  by_cases hf : s.frames.gFreeMemList = 0
  · have hrun : onFrames Frames.allocPage s = .done 0 s := by
      rw [onFrames, within, Frames.allocPage_nil hf]
    exact ⟨s, bind_done hrun, rfl, h⟩
  · obtain ⟨halloc, -, hnot, hkept⟩ := hk.alloc_some hf
    have hrun : onFrames Frames.allocPage s = .done s.frames.gFreeMemList { s with frames := s.frames.taken } := by
      rw [onFrames, within, halloc]
    refine ⟨_, bind_done hrun, rfl, ⟨_, l.tail, hkept, fun w qa hw => ?_⟩, h.paid, h.unique, fun w hw => ?_⟩
    · dsimp only
      rw [update_of_ne]
      · exact hout w qa hw
      · rintro rfl
        exact hnot (hout w _ hw)
    · exact (h.cached w hw).congr rfl (h.cached w hw).held fun _ _ _ => rfl

end Inv

def openedBy (ops : List DirOp) : Set ℕ := {v | 0 < ops.countP (DirOp.opens v)}

section Runs

variable {pages : List ℕ} {s t : DirCaches} {pre rest ops : List DirOp}

lemma openedBy_append (pre : List DirOp) (op : DirOp) :
    openedBy (pre ++ [op]) = {v | v ∈ openedBy pre ∨ op.opens v = true} := by
  ext v
  change 0 < (pre ++ [op]).countP (DirOp.opens v) ↔ 0 < pre.countP (DirOp.opens v) ∨ op.opens v = true
  rw [List.countP_append, List.countP_singleton]
  split_ifs with h <;> simp [h]

lemma run_guards (h : Inv pages (openedBy pre) s) (hb : ∀ l, l <+: pre ++ rest → ∀ v, l.countP (DirOp.closes v) ≤ l.countP (DirOp.opens v)) :
    guards (each DirOp.perform rest) (fun _ t => Inv pages (openedBy (pre ++ rest)) t) s := by
  induction rest generalizing pre s with
  | nil =>
    rw [List.append_nil]
    exact yields_pure fun _ => h
  | cons op rest ih =>
    have hrest : pre ++ op :: rest = pre ++ [op] ++ rest := by simp
    rw [hrest] at hb ⊢
    refine guards_bind (fun _ => .each_mem Grows.refl Grows.trans fun op' _ => Grows.perform op') ?_
    refine guards_mono (Q := fun _ t => Inv pages (openedBy (pre ++ [op])) t) ?_ fun _ t ht => ih ht hb
    rw [openedBy_append]
    cases op with
    | opendir v blocks =>
      have hset : {w | w ∈ openedBy pre ∨ (DirOp.opendir v blocks).opens w = true} = insert v (openedBy pre) := by
        ext w
        simp [DirOp.opens, or_comm]
      rw [hset]
      exact yields_mono (h.opendir_yields blocks) fun _ _ ht _ => ht
    | closedir v =>
      have hset : {w | w ∈ openedBy pre ∨ (DirOp.closedir v).opens w = true} = openedBy pre := by
        ext w
        simp [DirOp.opens]
      have hopen : v ∈ openedBy pre := by
        have hle := hb (pre ++ [.closedir v]) (List.prefix_append _ _) v
        rw [List.countP_append, List.countP_append, List.countP_singleton, List.countP_singleton] at hle
        simp only [DirOp.closes, DirOp.opens, decide_true, if_true, Bool.false_eq_true, if_false, Nat.add_zero] at hle
        exact Nat.lt_of_lt_of_le (Nat.succ_pos _) hle
      rw [hset]
      exact yields_get_bind (h.freeBlocks_guards hopen _ 0)
    | other =>
      have hset : {w | w ∈ openedBy pre ∨ DirOp.other.opens w = true} = openedBy pre := by
        ext w
        simp [DirOp.opens]
      rw [hset]
      obtain ⟨t, hrun, -, ht⟩ := h.other_eq
      exact yields_done hrun fun _ => ht

lemma run_others (h : Inv pages ∅ s) (hops : ∀ op ∈ ops, op = .other) : ∃ t, each DirOp.perform ops s = .done () t ∧ t.log = s.log := by
  induction ops generalizing s with
  | nil => exact ⟨s, rfl, rfl⟩
  | cons op ops ih =>
    obtain rfl := hops op List.mem_cons_self
    obtain ⟨t, hrun, hlog, ht⟩ := h.other_eq
    obtain ⟨u, hu, hlog'⟩ := ih ht fun op' h' => hops op' (List.mem_cons_of_mem _ h')
    refine ⟨u, ?_, hlog'.trans hlog⟩
    rw [each, bind_done hrun, hu]

lemma Balanced.others (hb : Balanced ops) (hnone : openedBy ops = ∅) : ∀ op ∈ ops, op = .other := by
  have hzero (v : ℕ) : ops.countP (DirOp.opens v) = 0 := by
    have hv : v ∉ openedBy ops := by
      rw [hnone]
      exact Set.notMem_empty v
    exact Nat.le_zero.mp (Nat.not_lt.mp hv)
  intro op hop
  cases op with
  | opendir v blocks => exact absurd (List.countP_eq_zero.mp (hzero v) _ hop) (by simp [DirOp.opens])
  | closedir v => exact absurd (List.countP_eq_zero.mp ((hb.closed v).trans (hzero v)) _ hop) (by simp [DirOp.closes])
  | other => rfl

end Runs

def Fresh (s : DirCaches) : Prop := s.log = [] ∧ ∃ kernelEnd gMemSize mem f b, kernelEnd < 2 ^ 64 ∧
  Frames.pmmInit kernelEnd gMemSize { mem := mem } = .done () f ∧ Books.Reach (Frames.managed kernelEnd gMemSize) f b ∧ s.frames = b.frames

lemma Fresh.inv {s : DirCaches} (h : Fresh s) : ∃ pages, Inv pages ∅ s := by
  obtain ⟨hlog, kernelEnd, gMemSize, mem, f, b, hk, hf, hb, hframes⟩ := h
  have hacc : ¬ min pkeMaxAllowableRam gMemSize < sub64 kernelEnd kernBase := by
    intro hlt
    rw [Frames.pmmInit_halts hlt] at hf
    cases hf
  obtain ⟨f', hf', -, -, -, hkept⟩ : ∃ f, Frames.pmmInit kernelEnd gMemSize { mem := mem } = .done () f ∧ _ := Frames.pmmInit_done hk hacc
  rw [hf] at hf'
  cases hf'
  obtain ⟨l, hl⟩ := hkept.reach hb
  have hholds (v pa : ℕ) : ¬ s.Holds v pa := by
    rw [DirCaches.Holds, DirCaches.freed, DirCaches.taken, hlog]
    exact Nat.lt_irrefl 0
  have hbooks : Books.Kept (Frames.managed kernelEnd gMemSize) ⟨s.frames, b.usage⟩ l := by
    rw [hframes]
    exact hl
  refine ⟨_, ⟨b.usage, l, hbooks, fun v pa hh => absurd hh (hholds v pa)⟩, fun v pa => ?_, fun v _ pa hh => absurd hh (hholds v pa),
    fun v hv => absurd hv (Set.notMem_empty v)⟩
  rw [DirCaches.freed, DirCaches.taken, hlog]
  exact ⟨Nat.le_refl 0, Nat.zero_le _⟩

theorem cache_pages_return_iff (s : DirCaches) (hs : Fresh s) (ops : List DirOp) (hb : Balanced ops) :
    (∃ t, each DirOp.perform ops s = .done () t ∧ Returned t.log) ↔ openedBy ops = ∅ := by
  obtain ⟨pages, hinv⟩ := hs.inv
  constructor
  · rintro ⟨t, hrun, hret⟩
    have hstart : Inv pages (openedBy []) s := { hinv with cached := fun v hv => absurd hv (Nat.lt_irrefl 0) }
    have hend : Inv pages (openedBy ([] ++ ops)) t := run_guards hstart hb.follows () t hrun hret.never
    -- the page behind `i_fs_info` is never given back
    refine Set.eq_empty_of_forall_notMem fun v hv => ?_
    exact absurd (hret.all v (t.info v)) (Nat.ne_of_lt (hend.cached v hv).held)
  · intro hnone
    obtain ⟨t, hrun, hlog⟩ := run_others hinv (hb.others hnone)
    refine ⟨t, hrun, ?_⟩
    rw [hlog, hs.1]
    refine ⟨fun earlier he v pa => ?_, fun v pa => rfl⟩
    rw [List.suffix_nil.mp he]
    exact Nat.le_refl 0

def small : Outcome Frames Unit := Frames.pmmInit 0x80001000 0x11000 { mem := fun _ => 0 }

lemma small_fresh {f : Frames} (hf : small = .done () f) : Fresh ⟨f, fun _ => 0, []⟩ :=
  ⟨rfl, 0x80001000, 0x11000, fun _ => 0, f, ⟨f, fun _ => {}⟩, by norm_num, hf, .refl, rfl⟩

theorem cache_pages_return_unused : ∃ f t, small = .done () f ∧ each DirOp.perform [.other] ⟨f, fun _ => 0, []⟩ = .done () t ∧
    Returned t.log := by
  have hsize : ¬ min pkeMaxAllowableRam 0x11000 < sub64 0x80001000 kernBase := by norm_num [sub64, u64]
  obtain ⟨f, hf, -⟩ : ∃ f, small = .done () f ∧ _ := Frames.pmmInit_done (by norm_num) hsize
  have hb : Balanced [.other] := by
    refine ⟨fun pre hpre v => ?_, fun v => rfl⟩
    rcases List.prefix_cons_iff.mp hpre with rfl | ⟨l, rfl, hl⟩
    · exact Nat.le_refl 0
    · obtain rfl := List.prefix_nil.mp hl
      exact Nat.le_refl 0
  have hnone : openedBy [.other] = ∅ := Set.eq_empty_of_forall_notMem fun v hv => absurd hv (Nat.lt_irrefl 0)
  obtain ⟨t, ht, hret⟩ := (cache_pages_return_iff _ (small_fresh hf) [.other] hb).mpr hnone
  exact ⟨f, t, hf, ht, hret⟩

def openedTwice : List DirOp := [.opendir 7 [fun _ => 0], .opendir 7 [fun _ => 0], .closedir 7, .closedir 7]

theorem page_is_freed_twice : ∃ f t u w pa, small = .done () f ∧ each DirOp.perform openedTwice ⟨f, fun _ => 0, []⟩ = .done () t ∧
    t.taken 7 pa = 1 ∧ t.freed 7 pa = 2 ∧ Frames.allocPage t.frames = .done pa u ∧ Frames.allocPage u = .done pa w := by
  have hrun : (small.ends fun _ f => (each DirOp.perform openedTwice ⟨f, fun _ => 0, []⟩).ends fun _ t =>
      (Frames.allocPage t.frames).ends fun pa u => decide (t.taken 7 pa = 1 ∧ t.freed 7 pa = 2) &&
        (Frames.allocPage u).ends fun pa' _ => decide (pa' = pa)) = true := by decide +kernel
  obtain ⟨_, f, hf, h⟩ := Outcome.ends_done hrun
  obtain ⟨_, t, ht, h⟩ := Outcome.ends_done h
  obtain ⟨pa, u, hu, h⟩ := Outcome.ends_done h
  rw [Bool.and_eq_true, decide_eq_true_eq] at h
  obtain ⟨⟨htaken, hfreed⟩, h⟩ := h
  obtain ⟨pa', w, hw, h⟩ := Outcome.ends_done h
  obtain rfl := of_decide_eq_true h
  exact ⟨f, t, u, w, _, hf, ht, htaken, hfreed, hu, hw⟩

end Pke.Files.CachePages
