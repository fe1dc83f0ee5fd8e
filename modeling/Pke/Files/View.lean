import Pke.Files.Walks

namespace Pke.Files

open Lib Flow Function

def Vfs.vol (s : Vfs) : Vol where
  node n := dnode s.disk n
  cached n := (s.held n).bind fun v => (s.vinode v).map Vinode.toDinode
  dir n := direntrys (s.disk ((dnode s.disk n).addrs 0).toNat) ((dnode s.disk n).size / 32).toNat
  used := {b | ∃ k : ℕ, k < 100 ∧ b = (12 + k : ℕ) ∧ s.freemap k ≠ 0}

namespace Vol

structure Agree (V W : Vol) : Prop where
  node : ∀ n < ninodes, W.node n = V.node n
  dir : ∀ n, V.IsDir n → W.dir n = V.dir n
  cached : W.cached = V.cached
  used : W.used = V.used

namespace Agree

variable {V W : Vol} {n m : ℕ}

lemma live (h : V.Agree W) : W.live = V.live := by
  ext n
  refine and_congr_right fun hn => ?_
  rw [h.node n hn]

lemma isDir (h : V.Agree W) : W.IsDir n ↔ V.IsDir n := by
  refine and_congr_right fun hn => ?_
  rw [h.node n hn]

lemma cur (h : V.Agree W) (hn : n < ninodes) : W.cur n = V.cur n := by rw [Vol.cur, Vol.cur, h.cached, h.node n hn]

lemma holds (h : V.Agree W) {i : Fin 10} {b : ℤ} : W.Holds n i b ↔ V.Holds n i b := by
  rw [Holds, Holds, h.live]
  refine and_congr_right fun hn => ?_
  rw [h.cur hn.1]

lemma tree (h : V.Agree W) (hV : V.Tree) : W.Tree := by
  refine hV.reshape (fun n hn => by rw [h.node n hn]) (fun n hn => ⟨h.node n hn.1, h.dir n hn⟩) ?_ ?_
  · intro n hn
    rw [h.node n hn.1]
    exact ⟨rfl, hV.bounds n hn⟩
  · intro n c hc
    rw [h.cached] at hc
    obtain ⟨hlive, ha⟩ := hV.cached n c hc
    rw [h.node n hlive.1]
    exact ⟨hlive, ha⟩

lemma ok (h : V.Agree W) (hV : V.Ok) : W.Ok :=
  hV.recache (h.tree hV.tree) h.live.le (fun _ hn => h.cur hn.1) h.used

lemma walks (h : V.Agree W) {adds : Bool} {l : List Name} (hw : W.Walks adds n l) : V.Walks adds n l := by
  induction l generalizing n with
  | nil => trivial
  | cons tok rest ih =>
    obtain ⟨hdir, hlen, hroom, hnext⟩ := hw
    have hdir' := h.isDir.mp hdir
    rw [h.dir n hdir'] at hroom hnext
    exact ⟨hdir', hlen, hroom, fun k hk => ih (hnext k hk)⟩

end Agree

end Vol

namespace Sound

variable {s : Vfs} {V : Vol}

lemma agree (h : Sound s V) : V.Agree s.vol where
  node := h.shown.node
  dir n hn := by
    have hsize := (h.ok.tree.isDir n hn).2.2.1
    have hnode := h.shown.node n hn.1
    change direntrys (s.disk ((dnode s.disk n).addrs 0).toNat) ((dnode s.disk n).size / 32).toNat = _
    have hlen : ((V.node n).size / 32).toNat = (V.dir n).length := by omega
    rw [hnode, hlen]
    exact h.shown.dir n hn
  cached := by
    funext n
    change (s.held n).bind (fun v => (s.vinode v).map Vinode.toDinode) = _
    cases hv : s.held n with
    | none => rw [h.shown.clear n hv]; rfl
    | some v =>
      obtain ⟨i, hi, -, -, hc, -⟩ := h.shown.held n v hv
      rw [Option.bind_some, hi, hc]
      rfl
  used := by
    ext b
    constructor
    · rintro ⟨k, hk, rfl, hz⟩
      exact (h.shown.used k).mpr ⟨hk, hz⟩
    · intro hb
      have hrange := h.ok.range hb
      rw [Set.mem_Ico] at hrange
      obtain ⟨k, rfl⟩ : ∃ k : ℕ, b = (12 + k : ℕ) := ⟨(b - 12).toNat, by omega⟩
      obtain ⟨hk, hz⟩ := (h.shown.used k).mp hb
      exact ⟨k, hk, rfl, hz⟩

lemma onRam (h : Sound s V) {adds : Bool} {start : Option ℕ × Name} {q : ℕ} {path : Name}
    (hon : s.OnRam s.vol adds start q path) : s.OnRam V adds start q path := by
  refine ⟨hon.base, hon.string, ?_⟩
  rcases hon.walks with hdot | hdd | ⟨h1, h2, hw⟩
  · exact .inl hdot
  · exact .inr (.inl hdd)
  · refine .inr (.inr ⟨h1, h2, ?_⟩)
    rcases hw with ⟨hroot, hnil | ⟨rest, hrest, hw⟩⟩ | ⟨m, hm, hw⟩
    · exact .inl ⟨hroot, .inl hnil⟩
    · exact .inl ⟨hroot, .inr ⟨rest, hrest, h.agree.walks hw⟩⟩
    · exact .inr ⟨m, hm, h.agree.walks hw⟩

end Sound

end Pke.Files
