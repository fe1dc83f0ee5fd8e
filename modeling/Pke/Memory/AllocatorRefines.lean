import Pke.Memory.AllocatorRuns

/-! The allocator with a list of free pages, on which the rest of the kernel is modelled, does what the
one with links in memory does. -/

namespace Pke.Memory

open Lib Flow Function

structure Frames.Shows (f : Frames) (s : Vm) : Prop where
  start : s.pmm.freeMemStartAddr = f.freeMemStartAddr
  stop : s.pmm.freeMemEndAddr = f.freeMemEndAddr
  list : f.FreeList s.pmm.gFreeMemList
  count : s.pmm.pageRefCount = f.pageRefCount
  mem : s.mem = f.mem

lemma linkNode_eq_store64 (mem : ℕ → UInt8) (pa next : ℕ) : linkNode mem pa next = store64 mem pa next := by
  funext a
  rw [linkNode, store64]

namespace Frames.Shows

variable {f : Frames} {s : Vm} {pages : List ℕ} {b : Books} {pa : ℕ}

lemma head (h : f.Shows s) : s.pmm.gFreeMemList.headD 0 = f.gFreeMemList := by
  by_cases hf : f.gFreeMemList = 0
  · rw [h.list.nil_of_head hf, hf]
    rfl
  · obtain ⟨m, hm⟩ := h.list.head_cons hf
    rw [hm]
    rfl

lemma index (h : f.Shows s) (hl : f.Layout pages) (hpa : pa ∈ pages) : s.pmm.index pa = f.index pa := by
  rw [hl.index_eq hpa, Pmm.index, h.start]

lemma maxPages (h : f.Shows s) (hl : f.Layout pages) (hpa : pa ∈ pages) : s.pmm.maxPages = f.maxPages := by
  have hp := hl.page pa hpa
  rw [Pmm.maxPages, Frames.maxPages, h.start, h.stop, sub64_of_le (by omega) hl.small]

lemma covers (h : f.Shows s) (hl : f.Layout pages) (hpa : pa ∈ pages) : s.pmm.Covers pa := by
  have hp := hl.page pa hpa
  rw [Pmm.Covers, h.start, h.stop]
  omega

lemma inRange (h : f.Shows s) (hl : f.Layout pages) (hpa : pa ∈ pages) : s.pmm.index pa < s.pmm.maxPages := by
  rw [h.index hl hpa, h.maxPages hl hpa]
  exact (hl.index_lt hpa).1

lemma setCount (h : f.Shows s) (hl : f.Layout pages) (hpa : pa ∈ pages) (n : ℕ) :
    (f.setCount pa n).Shows { s with pmm := s.pmm.setRef pa n } := by
  refine { h with list := h.list, count := ?_ }
  rw [Frames.setCount, Pmm.setRef, h.index hl hpa, h.count]

lemma push (h : f.Shows s) (hpa : pa ≠ 0) (hf : f.gFreeMemList < 2 ^ 64)
    (hl : ∀ a ∈ s.pmm.gFreeMemList, a + 8 ≤ pa ∨ pa + 8 ≤ a) :
    (f.push pa).Shows { s with
      pmm := { s.pmm with gFreeMemList := pa :: s.pmm.gFreeMemList }
      mem := linkNode s.mem pa (s.pmm.gFreeMemList.headD 0) } := by
  refine { h with list := h.list.push hpa hf hl, mem := ?_ }
  rw [linkNode_eq_store64, h.head, h.mem]
  rfl

lemma freePage (h : b.frames.Shows s) (hk : b.Kept pages s.pmm.gFreeMemList) (ho : (b.usage pa).Out) :
    ∃ t, Memory.freePage pa s = .done () t ∧ (b.frames.freed pa).Shows t := by
  have hpa := hk.mem_of_out ho
  have hnot := hk.notMem_of_out ho
  have hl := hk.layout
  have hguard : ¬ (pa % 4096 ≠ 0 ∨ ¬ s.pmm.Covers pa ∨ s.pmm.maxPages ≤ s.pmm.index pa) := by
    rw [not_or, not_or, not_not, not_not, not_le]
    exact ⟨(hl.page pa hpa).1, h.covers hl hpa, h.inRange hl hpa⟩
  have hcount : s.pmm.pageRefCount (s.pmm.index pa) = b.frames.count pa := by
    rw [h.count, h.index hl hpa]
    rfl
  have hset := h.setCount hl hpa (b.frames.count pa - 1)
  rw [Memory.freePage, get_bind, if_neg hguard, hcount, modify_bind, Frames.freed]
  by_cases hc : b.frames.count pa ≤ 1
  · rw [if_pos (by omega), if_pos hc]
    refine ⟨_, rfl, hset.push (hl.page pa hpa).2.1.ne' hk.head_lt ?_⟩
    intro a ha
    have hap := hl.apart ((hk.free a).mp ha).1 hpa (ne_of_mem_of_not_mem ha hnot)
    omega
  · rw [if_neg (by omega), if_neg hc]
    exact ⟨_, rfl, hset⟩

lemma allocPage (h : b.frames.Shows s) (hk : b.Kept pages s.pmm.gFreeMemList) :
    ∃ t f r, Memory.allocPage s = .done (toLink r) t ∧ Frames.allocPage b.frames = .done r f ∧ f.Shows t := by
  by_cases hf : b.frames.gFreeMemList = 0
  · have hnil := h.list.nil_of_head hf
    refine ⟨s, b.frames, 0, ?_, (hk.alloc_none hf).1, h⟩
    rw [Memory.allocPage, get_bind, hnil]
    rfl
  · obtain ⟨m, hm⟩ := h.list.head_cons hf
    obtain ⟨hrun, hpa, -, -⟩ := hk.alloc_some hf
    have hl := hk.layout
    have hchain := h.list
    rw [hm] at hchain
    have hrest : Frames.Shows { b.frames with gFreeMemList := load64 b.frames.mem b.frames.gFreeMemList }
        { s with pmm := { s.pmm with gFreeMemList := m } } := { h with list := hchain.2 }
    refine ⟨_, b.frames.taken, b.frames.gFreeMemList, ?_, hrun, hrest.setCount (hl.congr rfl rfl) hpa 1⟩
    rw [Memory.allocPage, get_bind, hm]
    simp only [modify_bind, h.inRange hl hpa, if_true, toLink, if_neg hf]
    rfl

lemma incPageRef (h : f.Shows s) (hl : f.Layout pages) (hpa : pa ∈ pages) :
    ∃ t, Memory.incPageRef pa s = .done () t ∧ (f.setCount pa ((f.count pa + 1) % 2 ^ 16)).Shows t := by
  have hcount : s.pmm.pageRefCount (s.pmm.index pa) = f.count pa := by
    rw [h.count, h.index hl hpa]
    rfl
  refine ⟨_, ?_, h.setCount hl hpa _⟩
  rw [Memory.incPageRef, get_bind, if_pos ⟨h.covers hl hpa, h.inRange hl hpa⟩, hcount]
  rfl

end Frames.Shows

lemma pmmInit_shows {kernelEnd gMemSize : ℕ} {mem : ℕ → UInt8} (hk : kernelEnd < 2 ^ 64)
    (hacc : ¬ min pkeMaxAllowableRam gMemSize < sub64 kernelEnd kernBase) (trapSec : ℕ) :
    ∃ f, Frames.pmmInit kernelEnd gMemSize { mem := mem } = .done () f ∧
      f.Shows (Machine.boot (roundUp kernelEnd) (u64 (min pkeMaxAllowableRam gMemSize + dramBase)) trapSec f.mem).vm := by
  obtain ⟨f, hf, hstart, hend, hz, hkept⟩ := Frames.pmmInit_done hk hacc
  refine ⟨f, hf, hstart.symm, hend.symm, ?_, hz.symm, rfl⟩
  have hround : roundUp (roundUp kernelEnd) = roundUp kernelEnd := by
    obtain ⟨hlo, hhi⟩ := Frames.kernelEnd_bounds hk hacc
    simp only [kernBase, pkeMaxAllowableRam] at hlo hhi
    obtain ⟨h₁, h₂, h₃⟩ := Frames.roundUp_bounds (a := kernelEnd) (by omega) (by omega)
    obtain ⟨h₄, h₅, h₆⟩ := Frames.roundUp_bounds (a := roundUp kernelEnd) (by omega) (by omega)
    omega
  have hlist := hkept.chain
  rw [Frames.managed, Frames.freepages, hround, pagesBelow] at hlist
  generalize u64 (min pkeMaxAllowableRam gMemSize + dramBase) = stop at hlist ⊢
  have hlen : (stop - 4096 - roundUp kernelEnd + 4095) / 4096 = (stop - roundUp kernelEnd - 1) / 4096 := by omega
  rw [hlen] at hlist
  exact hlist

namespace PageOp

/-- The same calls of the allocator with the list. -/
def onList : PageOp → Flow Vm ℕ
  | .alloc => do pure ((← allocPage).getD 0)
  | .inc pa => do incPageRef pa; pure 0
  | .free pa => do freePage pa; pure 0
  | .store a b => do modify fun s => { s with mem := update s.mem a b }; pure 0

def allOnList : List PageOp → Flow Vm (List ℕ)
  | [] => pure []
  | op :: l => do
    let r ← op.onList
    pure (r :: (← allOnList l))

end PageOp

/-- A run of the allocator with the links, with the answers. -/
def Books.Runs (pages : List ℕ) : List (PageOp × ℕ) → Books → Books → Prop
  | [], b, c => c = b
  | (op, r) :: l, b, c => ∃ d, b.Step pages op r d ∧ Runs pages l d c

namespace Frames.Shows

variable {pages : List ℕ} {b c : Books} {s : Vm} {op : PageOp} {r : ℕ} {l : List (PageOp × ℕ)}

lemma onList (h : b.frames.Shows s) (hk : b.Kept pages s.pmm.gFreeMemList) (hs : b.Step pages op r c) :
    ∃ t, op.onList s = .done r t ∧ c.frames.Shows t := by
  obtain ⟨ha, hrun, -⟩ := hs
  cases op with
  | alloc =>
    obtain ⟨t, f, r', halloc, hframes, hf⟩ := h.allocPage hk
    obtain ⟨rfl, rfl⟩ := Outcome.done.inj (hframes.symm.trans hrun)
    refine ⟨t, ?_, hf⟩
    rw [PageOp.onList, bind_done halloc, toLink]
    split_ifs with hr
    · rw [hr]
      rfl
    · rfl
  | inc pa =>
    have hpa := hk.mem_of_out ha.1
    obtain ⟨t, hinc, ht⟩ := h.incPageRef hk.layout hpa
    rw [PageOp.run, bind_done (Frames.incPageRef_eq hk.layout hpa)] at hrun
    obtain ⟨rfl, hc⟩ := Outcome.done.inj hrun
    exact ⟨t, bind_done hinc, hc ▸ ht⟩
  | free pa =>
    obtain ⟨t, hfree, ht⟩ := h.freePage hk ha
    rw [PageOp.run, Frames.decPageRef, bind_done (Frames.freePage_eq hk.layout (hk.mem_of_out ha))] at hrun
    obtain ⟨rfl, hc⟩ := Outcome.done.inj hrun
    exact ⟨t, bind_done hfree, hc ▸ ht⟩
  | store a x =>
    obtain ⟨rfl, hc⟩ := Outcome.done.inj hrun
    refine ⟨_, rfl, ?_⟩
    rw [← hc]
    exact { h with list := (hk.store ha).chain, mem := congrArg (update · a x) h.mem }

lemma step (h : b.frames.Shows s) (hk : b.Kept pages s.pmm.gFreeMemList) (hs : b.Step pages op r c) :
    ∃ t, op.onList s = .done r t ∧ c.frames.Shows t ∧ c.Kept pages t.pmm.gFreeMemList := by
  obtain ⟨t, ht, hshows⟩ := h.onList hk hs
  obtain ⟨l, hl⟩ := hk.step hs
  refine ⟨t, ht, hshows, ?_⟩
  rwa [Chain.unique hshows.list hl.chain]

lemma runs (h : b.frames.Shows s) (hk : b.Kept pages s.pmm.gFreeMemList) (hr : Books.Runs pages l b c) :
    ∃ t, PageOp.allOnList (l.map Prod.fst) s = .done (l.map Prod.snd) t ∧ c.frames.Shows t := by
  induction l generalizing b s with
  | nil =>
    cases hr
    exact ⟨s, rfl, h⟩
  | cons x l ih =>
    obtain ⟨d, hs, hr⟩ := hr
    obtain ⟨t, ht, hshows, hkept⟩ := h.step hk hs
    obtain ⟨u, hu, hc⟩ := ih hshows hkept hr
    refine ⟨u, ?_, hc⟩
    rw [List.map_cons, List.map_cons, PageOp.allOnList, bind_done ht, bind_done hu]
    rfl

end Frames.Shows

/-- Whatever calls are made after `pmm_init`, the allocator with a list of free pages gives the answers that the one
with the links in memory gives, and ends with the same counts, free pages and bytes. -/
theorem allocators_agree (kernelEnd gMemSize trapSec : ℕ) (mem : ℕ → UInt8) (hk : kernelEnd < 2 ^ 64)
    (hacc : Frames.pmmInit kernelEnd gMemSize { mem := mem } ≠ .halted) :
    ∃ f, Frames.pmmInit kernelEnd gMemSize { mem := mem } = .done () f ∧
      ∀ l b, Books.Runs (Frames.managed kernelEnd gMemSize) l ⟨f, fun _ => {}⟩ b →
        ∃ t, PageOp.allOnList (l.map Prod.fst)
            (Machine.boot (roundUp kernelEnd) (u64 (min pkeMaxAllowableRam gMemSize + dramBase)) trapSec f.mem).vm =
          .done (l.map Prod.snd) t ∧ b.frames.Shows t := by
  have hsize : ¬ min pkeMaxAllowableRam gMemSize < sub64 kernelEnd kernBase := fun e => hacc (Frames.pmmInit_halts e)
  obtain ⟨f, hf, hshows⟩ := @pmmInit_shows kernelEnd gMemSize mem hk hsize trapSec
  obtain ⟨g, hg, -, -, -, hkept⟩ := @Frames.pmmInit_done kernelEnd gMemSize mem hk hsize
  obtain ⟨-, rfl⟩ := Outcome.done.inj (hf.symm.trans hg)
  refine ⟨f, hf, fun l b hr => hshows.runs ?_ hr⟩
  rwa [Chain.unique hshows.list hkept.chain]

theorem allocators_agree_one_megabyte : ∃ f, Frames.pmmInit 0x80010000 0x100000 { mem := fun _ => 0 } = .done () f ∧
    ∀ l b, Books.Runs (Frames.managed 0x80010000 0x100000) l ⟨f, fun _ => {}⟩ b →
      ∃ t, PageOp.allOnList (l.map Prod.fst) (Machine.boot (roundUp 0x80010000)
          (u64 (min pkeMaxAllowableRam 0x100000 + dramBase)) 0x80001000 f.mem).vm = .done (l.map Prod.snd) t ∧
        b.frames.Shows t := by
  apply allocators_agree _ _ _ _ (by norm_num)
  have hsize : ¬ min pkeMaxAllowableRam 0x100000 < sub64 0x80010000 kernBase := by norm_num [sub64, u64]
  obtain ⟨f, hf, -⟩ := Frames.pmmInit_done (by norm_num) hsize
  rw [hf]
  intro e
  cases e

end Pke.Memory
