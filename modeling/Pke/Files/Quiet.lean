import Pke.Files.Descriptors

/-! Below `proc_file.c` no function looks at the descriptors: opening makes a new file, and nothing but closing, reading,
writing and seeking changes a file that is there. -/

namespace Pke.Files

open Lib Flow Function

structure SameTable (s t : Vfs) : Prop where
  slots : t.slots = s.slots
  nfiles : t.nfiles = s.nfiles
  file : ∀ f < s.next, t.file f = s.file f
  next : s.next ≤ t.next

namespace SameTable

variable {s t u : Vfs}

lemma refl (s : Vfs) : SameTable s s := ⟨rfl, rfl, fun _ _ => rfl, le_rfl⟩

lemma trans (h : SameTable s t) (h' : SameTable t u) : SameTable s u :=
  ⟨h'.slots.trans h.slots, h'.nfiles.trans h.nfiles,
    fun f hf => (h'.file f (hf.trans_le h.next)).trans (h.file f hf), h.next.trans h'.next⟩

end SameTable

def Quiet {α : Type} (m : Flow Vfs α) : Prop := Stays SameTable m

namespace Quiet

variable {α β : Type} {m m' : Flow Vfs α}

lemma pure (a : α) : Quiet (Pure.pure a : Flow Vfs α) := fun s => safe_pure (.refl s)
lemma leave : Quiet (Flow.leave : Flow Vfs α) := fun s => safe_leave (.refl s)
lemma stuck : Quiet ( undef : Flow Vfs α) := fun _ => safe_undef trivial
lemma bind {f : α → Flow Vfs β} (hm : Quiet m) (hf : ∀ a, Quiet (f a)) : Quiet (m >>= f) := Stays.bind .trans hm hf
lemma get {f : Vfs → Flow Vfs α} (hf : ∀ s, Quiet (f s)) : Quiet (Flow.get >>= f) := Stays.get hf

lemma ite {c : Prop} [Decidable c] (h : Quiet m) (h' : Quiet m') : Quiet (if c then m else m') := by
  split_ifs
  · exact h
  · exact h'

lemma modify {g : Vfs → Vfs} (h : ∀ s, SameTable s (g s)) : Quiet (Flow.modify g) := h

lemma change {g : Vfs → Vfs} (hs : ∀ s, (g s).slots = s.slots) (hn : ∀ s, (g s).nfiles = s.nfiles)
    (hf : ∀ s, (g s).file = s.file) (hx : ∀ s, s.next ≤ (g s).next) : Quiet (Flow.modify g) :=
  fun s => ⟨hs s, hn s, fun f _ => congrFun (hf s) f, hx s⟩

lemma same {g : Vfs → Vfs} (hs : ∀ s, (g s).slots = s.slots) (hn : ∀ s, (g s).nfiles = s.nfiles)
    (hf : ∀ s, (g s).file = s.file) (hx : ∀ s, (g s).next = s.next) : Quiet (Flow.modify g) :=
  change hs hn hf fun s => (hx s).ge

section Objects

variable {v d f : ℕ}

lemma getVinode : Quiet (getVinode v) := by
  refine get fun s => ?_
  cases s.vinode v with
  | none => exact stuck
  | some i => exact pure i

lemma getDentry : Quiet (getDentry d) := by
  refine get fun s => ?_
  cases s.dentry d with
  | none => exact stuck
  | some e => exact pure e

lemma getFile : Quiet (getFile f) := by
  refine get fun s => ?_
  cases s.file f with
  | none => exact stuck
  | some F => exact pure F

lemma deref {q : Option ℕ} : Quiet (deref q) := by
  cases q with
  | none => exact stuck
  | some q => exact pure q

lemma setVinode {i : Vinode} : Quiet (setVinode v i) := same (fun _ => rfl) (fun _ => rfl) (fun _ => rfl) fun _ => rfl
lemma setDentry {e : Dentry} : Quiet (setDentry d e) := same (fun _ => rfl) (fun _ => rfl) (fun _ => rfl) fun _ => rfl
lemma freeVinode : Quiet (freeVinode v) := same (fun _ => rfl) (fun _ => rfl) (fun _ => rfl) fun _ => rfl
lemma freeDentry : Quiet (freeDentry d) := same (fun _ => rfl) (fun _ => rfl) (fun _ => rfl) fun _ => rfl
lemma setHandle {h : ℕ} {g : Handle} : Quiet (setHandle h g) := same (fun _ => rfl) (fun _ => rfl) (fun _ => rfl) fun _ => rfl

lemma fresh : Quiet (Flow.modify fun s : Vfs => { s with next := s.next + 1 }) :=
  change (fun _ => rfl) (fun _ => rfl) (fun _ => rfl) fun s => Nat.le_succ s.next

end Objects

section Rfs

variable {v : ℕ} {n z : ℤ} {nm : Name}

lemma rfsR1block : Quiet (rfsR1block n) := ite leave (same (fun _ => rfl) (fun _ => rfl) (fun _ => rfl) fun _ => rfl)
lemma rfsW1block : Quiet (rfsW1block n) := ite leave (same (fun _ => rfl) (fun _ => rfl) (fun _ => rfl) fun _ => rfl)

lemma addrAt {addrs : Fin 10 → ℤ} : Quiet (addrAt addrs n) := by
  rw [Files.addrAt]
  split_ifs
  · exact pure _
  · exact stuck

lemma rfsReadDinode : Quiet (rfsReadDinode n) :=
  bind rfsR1block fun _ => ite stuck (get fun _ => pure _)

lemma rfsWriteDinode {d : Dinode} : Quiet (rfsWriteDinode d n) :=
  bind rfsR1block fun _ => ite stuck
    (bind (same (fun _ => rfl) (fun _ => rfl) (fun _ => rfl) fun _ => rfl) fun _ => rfsW1block)

lemma rfsAllocBlock : Quiet rfsAllocBlock := by
  refine get fun s => ?_
  cases (List.range s.nblocks.toNat).find? fun b => s.freemap b = 0 with
  | none => exact leave
  | some b => exact bind (same (fun _ => rfl) (fun _ => rfl) (fun _ => rfl) fun _ => rfl) fun _ => pure _

lemma rfsWriteBackVinode : Quiet (rfsWriteBackVinode v) := bind getVinode fun _ => rfsWriteDinode
lemma rfsUpdateVinode : Quiet (rfsUpdateVinode v) := bind getVinode fun _ => bind rfsReadDinode fun _ => setVinode
lemma rfsAllocVinode : Quiet (rfsAllocVinode n) := get fun _ => bind fresh fun _ => bind setVinode fun _ => pure _

lemma rfsAddDirentry : Quiet (rfsAddDirentry v nm n) := by
  refine bind getVinode fun d => ite (pure _) (bind addrAt fun _ => bind rfsR1block fun _ => ite stuck ?_)
  refine bind (same (fun _ => rfl) (fun _ => rfl) (fun _ => rfl) fun _ => rfl) fun _ => bind rfsW1block fun _ => ?_
  exact bind setVinode fun _ => bind rfsWriteBackVinode fun _ => pure _

lemma loadDirentry {addrs : Fin 10 → ℤ} {i : ℕ} : Quiet (loadDirentry addrs i) :=
  ite (bind addrAt fun _ => rfsR1block) (pure _)

lemma findDirentry {addrs : Fin 10 → ℤ} (l : List ℕ) : Quiet (findDirentry addrs nm l) := by
  induction l with
  | nil => exact pure _
  | cons i l ih => exact bind loadDirentry fun _ => get fun _ => ite (pure _) ih

lemma rfsLookup : Quiet (rfsLookup v nm) := by
  refine bind getVinode fun p => bind (findDirentry _) fun r => ?_
  cases r with
  | none => exact pure _
  | some i => exact get fun _ => bind rfsAllocVinode fun _ => bind rfsUpdateVinode fun _ => pure _

lemma findFreeDinode (l : List ℕ) : Quiet (findFreeDinode l) := by
  induction l with
  | nil => exact pure _
  | cons i l ih => exact bind rfsReadDinode fun _ => ite (pure _) ih

lemma takeDinode : Quiet (takeDinode n z) := by
  refine bind (findFreeDinode _) fun r => ?_
  cases r with
  | none => exact stuck
  | some r => exact bind rfsAllocBlock fun _ => bind rfsWriteDinode fun _ => pure _

lemma rfsCreate : Quiet (rfsCreate v nm) :=
  bind takeDinode fun _ => bind rfsAllocVinode fun _ => bind rfsUpdateVinode fun _ =>
    bind rfsAddDirentry fun _ => ite (pure _) (pure _)

lemma readDirBlocks {addrs : Fin 10 → ℤ} {base : ℕ → UInt8} (l : List ℕ) : Quiet (readDirBlocks addrs base l) := by
  induction l generalizing base with
  | nil => exact pure _
  | cons i l ih => exact bind addrAt fun _ => bind rfsR1block fun _ => get fun _ => ih

lemma rfsHookOpendir : Quiet (rfsHookOpendir v) :=
  bind getVinode fun _ => get fun _ => ite leave (bind (readDirBlocks _) fun _ => bind getVinode fun _ => setVinode)

lemma rfsHookClosedir : Quiet (rfsHookClosedir v) := by
  refine bind getVinode fun i => ?_
  cases i.info with
  | dirCache => exact pure _
  | null => exact stuck
  | handle => exact stuck
  | error => exact stuck

end Rfs

section Hostfs

variable {v d : ℕ} {nm : Name}

lemma pathBacktrack (n : ℕ) : ∀ d, Quiet (pathBacktrack n d) := by
  induction n with
  | zero => exact fun _ => stuck
  | succ n ih =>
    refine fun d => bind getDentry fun e => ?_
    cases e.parent with
    | none => exact pure _
    | some q => exact bind (ih q) fun _ => pure _

lemma getPathString : Quiet (getPathString d) := bind (pathBacktrack _ _) fun _ => ite stuck (pure _)

lemma spikeFileOpen : Quiet (spikeFileOpen nm) := by
  refine get fun s => ?_
  cases s.host.entry nm with
  | none => exact pure _
  | some e => exact bind (change (fun _ => rfl) (fun _ => rfl) (fun _ => rfl) fun s => Nat.le_succ s.next) fun _ => pure _

lemma getHandle {info : FsInfo} : Quiet (getHandle info) := by
  refine get fun s => ?_
  cases info with
  | handle h =>
    dsimp only
    cases s.handle h with
    | none => exact stuck
    | some g => exact pure _
  | null => exact stuck
  | dirCache => exact stuck
  | error => exact stuck

lemma hostfsVinode {info : FsInfo} : Quiet (hostfsVinode nm info) :=
  get fun _ => bind fresh fun _ => bind setVinode fun _ => pure _

lemma hostfsLookup : Quiet (hostfsLookup d) :=
  bind getPathString fun _ => bind spikeFileOpen fun _ => bind hostfsVinode fun _ => pure _

lemma hostCreate : Quiet (hostCreate nm) :=
  get fun _ => ite (same (fun _ => rfl) (fun _ => rfl) (fun _ => rfl) fun _ => rfl) (pure _)

lemma hostfsCreate : Quiet (hostfsCreate d) := by
  refine bind getPathString fun _ => bind hostCreate fun _ => bind spikeFileOpen fun info => ?_
  cases info with
  | handle h => exact bind hostfsVinode fun _ => pure _
  | null => exact pure _
  | dirCache => exact pure _
  | error => exact pure _

lemma hostfsHookOpen : Quiet (hostfsHookOpen v d) := by
  refine bind getVinode fun i => ?_
  cases i.info with
  | null =>
    refine bind getPathString fun _ => bind spikeFileOpen fun info => ?_
    cases info with
    | handle h => exact setVinode
    | null => exact pure _
    | dirCache => exact pure _
    | error => exact pure _
  | handle => exact pure _
  | dirCache => exact pure _
  | error => exact pure _

lemma hostfsHookClose : Quiet (hostfsHookClose v) := by
  refine bind getVinode fun i => ?_
  cases i.info with
  | null => exact pure _
  | handle => exact bind getHandle fun _ => setHandle
  | dirCache => exact bind getHandle fun _ => setHandle
  | error => exact bind getHandle fun _ => setHandle

end Hostfs

section Tables

variable {v d : ℕ} {nm : Name}

lemma hashPutDentry : Quiet (hashPutDentry d) := by
  refine bind getDentry fun e => modify fun s => ?_
  split_ifs
  · exact .refl s
  · exact ⟨rfl, rfl, fun _ _ => rfl, le_rfl⟩

lemma hashEraseDentry : Quiet (hashEraseDentry d) :=
  bind getDentry fun _ => same (fun _ => rfl) (fun _ => rfl) (fun _ => rfl) fun _ => rfl

lemma hashPutVinode : Quiet (hashPutVinode v) := by
  refine bind getVinode fun i => modify fun s => ?_
  split_ifs
  · exact .refl s
  · exact ⟨rfl, rfl, fun _ _ => rfl, le_rfl⟩

lemma hashEraseVinode : Quiet (hashEraseVinode v) := by
  refine bind getVinode fun i => modify fun s => ?_
  split_ifs
  · exact .refl s
  · exact ⟨rfl, rfl, fun _ _ => rfl, le_rfl⟩

lemma addRef {n : ℤ} : Quiet (addRef v n) := bind getVinode fun _ => setVinode
lemma addDRef {n : ℤ} : Quiet (addDRef d n) := bind getDentry fun _ => setDentry
lemma setInode : Quiet (setInode d v) := bind getDentry fun _ => setDentry

lemma allocVfsDentry {inode parent : Option ℕ} : Quiet (allocVfsDentry nm inode parent) := by
  refine get fun s => bind fresh fun _ => bind setDentry fun _ => ?_
  cases inode with
  | none => exact pure _
  | some v => exact bind addRef fun _ => pure _

lemma freeVfsDentry : Quiet (freeVfsDentry d) := bind getDentry fun _ => ite (pure _) freeDentry
lemma inodeOf : Quiet (inodeOf d) := bind getDentry fun _ => deref

lemma viopLookup : Quiet (viopLookup v d nm) := by
  refine bind getVinode fun i => ?_
  cases i.sb with
  | rfs => exact rfsLookup
  | hostfs => exact hostfsLookup

lemma viopCreate : Quiet (viopCreate v d nm) := by
  refine bind getVinode fun i => ?_
  cases i.sb with
  | rfs => exact rfsCreate
  | hostfs => exact hostfsCreate

lemma viopWriteBackVinode : Quiet (viopWriteBackVinode v) := by
  refine bind getVinode fun i => ?_
  cases i.sb with
  | rfs => exact rfsWriteBackVinode
  | hostfs => exact pure _

lemma adopt : Quiet (adopt d v) := by
  refine bind getVinode fun i => get fun s => ?_
  cases hashGetVinode s i.sb i.inum with
  | none => exact bind setInode fun _ => bind addRef fun _ => bind hashPutVinode fun _ => hashPutDentry
  | some same => exact bind setInode fun _ => bind addRef fun _ => bind freeVinode fun _ => hashPutDentry

end Tables

section Paths

variable {q : Option ℕ} {path : Name}

lemma lookupToken : Quiet (lookupToken q path) := by
  refine get fun s => ?_
  cases s.dentryHash (q, path) with
  | some d => exact pure _
  | none =>
    refine bind allocVfsDentry fun d => bind deref fun _ => bind inodeOf fun v => bind viopLookup fun r => ?_
    cases r with
    | none => exact bind freeDentry fun _ => pure _
    | some found => exact bind adopt fun _ => pure _

lemma walkTokens (l : List Name) : ∀ this parent, Quiet (walkTokens this parent l) := by
  induction l with
  | nil => exact fun _ _ => pure _
  | cons tok l ih =>
    refine fun this parent => bind lookupToken fun r => ?_
    cases r with
    | none => exact pure _
    | some d => exact ih _ _

lemma parentOf : Quiet (parentOf q) := bind deref fun _ => bind getDentry fun _ => pure _

lemma lookupPath : Quiet (lookupPath path q) :=
  ite (pure _) (ite (bind parentOf fun _ => pure _) (ite stuck (walkTokens _ _ _)))

lemma lookupFinalDentry : Quiet (lookupFinalDentry path q) := ite (bind parentOf fun _ => lookupPath) lookupPath

lemma startOf {p : ℕ} : Quiet (startOf p path) := get fun _ => ite (bind parentOf fun _ => pure _) (pure _)

lemma getBaseName : Quiet (getBaseName path) := by
  rw [Files.getBaseName]
  cases (tokens path).getLast? with
  | none => exact stuck
  | some t => exact pure _

lemma missedLast {l : Lookup} : Quiet (missedLast l path) := by
  rw [Files.missedLast]
  cases l.miss with
  | none => exact stuck
  | some t => exact pure _

lemma publish {d v : ℕ} : Quiet (publish d v) :=
  bind setInode fun _ => bind addRef fun _ => bind hashPutDentry fun _ => hashPutVinode

lemma createFile {l : Lookup} : Quiet (createFile l path) := by
  refine bind getBaseName fun base => bind missedLast fun b => ite ?_ (pure _)
  refine bind allocVfsDentry fun d => bind deref fun _ => bind inodeOf fun _ => bind viopCreate fun r => ?_
  cases r with
  | none => exact leave
  | some v => exact bind publish fun _ => pure _

end Paths

section Closing

variable {d v : ℕ}

lemma dropDentry : Quiet (dropDentry d v) := by
  refine bind hashEraseDentry fun _ => bind freeVfsDentry fun _ => bind addRef fun _ => bind getVinode fun _ => ite ?_ (pure _)
  exact bind viopWriteBackVinode fun _ => bind hashEraseVinode fun _ => freeVinode

lemma closeDentry : Quiet (closeDentry d v) := bind addDRef fun _ => bind getDentry fun _ => ite dropDentry (pure _)

lemma hookClose {sb : FsType} : Quiet (hookClose v sb) := by
  cases sb with
  | rfs => exact pure _
  | hostfs => exact hostfsHookClose

lemma fileInode {F : File} : Quiet (fileInode F) := inodeOf

end Closing

section Boot

lemma each {ι : Type} {g : ι → Flow Vfs Unit} (hg : ∀ a, Quiet (g a)) (l : List ι) : Quiet (Flow.each g l) := by
  induction l with
  | nil => exact pure _
  | cons a l ih => exact bind (hg a) fun _ => ih

lemma mountHostfs : Quiet mountHostfs :=
  get fun _ => bind fresh fun _ => bind setVinode fun _ => bind allocVfsDentry fun _ =>
    bind (same (fun _ => rfl) (fun _ => rfl) (fun _ => rfl) fun _ => rfl) fun _ => hashPutDentry

lemma setBuffer (g : Vfs → ℕ → UInt8) : Quiet (Flow.modify fun s => { s with iobuffer := g s }) :=
  same (fun _ => rfl) (fun _ => rfl) (fun _ => rfl) fun _ => rfl

lemma rfsFormatDev (rest : Fin 10 → ℤ) : Quiet (rfsFormatDev rest) := by
  rw [Files.rfsFormatDev]
  refine bind (setBuffer _) fun _ => bind rfsW1block fun _ => bind (setBuffer _) fun _ => ?_
  exact bind (each (fun _ => rfsW1block) _) fun _ => bind rfsWriteDinode fun _ => bind (setBuffer _) fun _ => rfsW1block

lemma rfsGetSuperblock : Quiet rfsGetSuperblock := by
  refine bind rfsR1block fun _ => bind (same (fun _ => rfl) (fun _ => rfl) (fun _ => rfl) fun _ => rfl) fun _ => ?_
  refine get fun _ => ite leave (bind rfsAllocVinode fun _ => bind rfsUpdateVinode fun _ => bind allocVfsDentry fun _ => ?_)
  exact bind rfsR1block fun _ => bind (same (fun _ => rfl) (fun _ => rfl) (fun _ => rfl) fun _ => rfl) fun _ => pure _

lemma mountRfs : Quiet mountRfs :=
  bind rfsGetSuperblock fun _ => bind inodeOf fun _ => bind hashPutVinode fun _ => get fun _ => bind getDentry fun _ =>
    bind setDentry fun _ => hashPutDentry

lemma fsInit (rest : Fin 10 → ℤ) : Quiet (fsInit rest) := by
  rw [Files.fsInit]
  refine bind (same (fun _ => rfl) (fun _ => rfl) (fun _ => rfl) fun _ => rfl) fun _ => ?_
  refine bind mountHostfs fun _ => ?_
  have hformat := rfsFormatDev rest
  -- the unifier would unfold it
  generalize Files.rfsFormatDev rest = m at hformat ⊢
  exact bind hformat fun _ => mountRfs

end Boot

end Quiet

end Pke.Files
