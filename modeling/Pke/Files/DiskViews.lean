import Pke.Files.Rfs

namespace Pke.Files

open Lib Function

def Dinode.Fits (d : Dinode) : Prop := ∀ k, -2 ^ 31 ≤ d.word k ∧ d.word k < 2 ^ 31

def dnode (disk : ℕ → ℕ → UInt8) (n : ℕ) : Dinode := loadDinode (disk (n / 32 + 1)) (n % 32 * 128)

def setDnode (disk : ℕ → ℕ → UInt8) (n : ℕ) (d : Dinode) : ℕ → ℕ → UInt8 :=
  update disk (n / 32 + 1) (storeDinode (disk (n / 32 + 1)) (n % 32 * 128) d)

section Inodes

variable {b c : ℕ → UInt8} {o o' n m : ℕ} {d : Dinode} {disk : ℕ → ℕ → UInt8}

lemma load32_fits (b : ℕ → UInt8) (a : ℕ) : -2 ^ 31 ≤ load32 b a ∧ load32 b a < 2 ^ 31 := by
  have h0 := (b a).toNat_lt
  have h1 := (b (a + 1)).toNat_lt
  have h2 := (b (a + 2)).toNat_lt
  have h3 := (b (a + 3)).toNat_lt
  rw [load32]
  norm_num
  split <;> omega

lemma loadDinode_word (b : ℕ → UInt8) (o k : ℕ) (hk : k < 14) : (loadDinode b o).word k = load32 b (o + 4 * k) := by
  match k with
  | 0 => rfl
  | 1 => rfl
  | 2 => rfl
  | 3 => rfl
  | k + 4 =>
    rw [Dinode.word, dif_pos (by omega)]
    change load32 b (o + 16 + 4 * k) = _
    congr 1
    omega

lemma word_large (d : Dinode) (k : ℕ) (hk : 14 ≤ k) : d.word k = 0 := by
  match k with
  | k + 4 => rw [Dinode.word, dif_neg (by omega)]

lemma Dinode.ext_word {d d' : Dinode} (h : ∀ k < 14, d.word k = d'.word k) : d = d' := by
  ext i
  · exact h 0 (by norm_num)
  · exact h 1 (by norm_num)
  · exact h 2 (by norm_num)
  · exact h 3 (by norm_num)
  · have hi := h (i + 4) (by omega)
    rwa [Dinode.word, Dinode.word, dif_pos i.isLt, dif_pos i.isLt] at hi

lemma loadDinode_fits (b : ℕ → UInt8) (o : ℕ) : (loadDinode b o).Fits := by
  intro k
  by_cases hk : k < 14
  · rw [loadDinode_word b o k hk]
    exact load32_fits b _
  · rw [word_large _ k (by omega)]
    norm_num

lemma loadDinode_congr (h : ∀ i < 56, b (o + i) = c (o' + i)) : loadDinode b o = loadDinode c o' := by
  apply Dinode.ext_word
  intro k hk
  rw [loadDinode_word b o k hk, loadDinode_word c o' k hk]
  apply load32_congr
  intro i hi
  rw [Nat.add_assoc, Nat.add_assoc]
  exact h (4 * k + i) (by omega)

lemma storeDinode_word {k : ℕ} (hk : k < 14) (hd : -2 ^ 31 ≤ d.word k ∧ d.word k < 2 ^ 31) :
    (loadDinode (storeDinode b o d) o).word k = d.word k := by
  rw [loadDinode_word _ o k hk]
  apply load32_bytes hd
  intro i hi
  have hdiv : (o + 4 * k + i - o) / 4 = k := by omega
  have hmod : (o + 4 * k + i - o) % 4 = i := by omega
  rw [storeDinode, if_pos (by omega), hdiv, hmod]

lemma loadDinode_storeDinode (hd : d.Fits) : loadDinode (storeDinode b o d) o = d :=
  Dinode.ext_word fun k hk => storeDinode_word hk (hd k)

lemma storeDinode_apply {x : ℕ} (h : x < o ∨ o + 56 ≤ x) : storeDinode b o d x = b x := by
  rw [storeDinode, if_neg (by omega)]

lemma dnode_fits (disk : ℕ → ℕ → UInt8) (n : ℕ) : (dnode disk n).Fits := loadDinode_fits _ _

lemma dnode_setDnode_word {k : ℕ} (hk : k < 14) (hd : -2 ^ 31 ≤ d.word k ∧ d.word k < 2 ^ 31) :
    (dnode (setDnode disk n d) n).word k = d.word k := by
  rw [dnode, setDnode, update_self, storeDinode_word hk hd]

lemma dnode_setDnode (hd : d.Fits) : dnode (setDnode disk n d) n = d := by
  rw [dnode, setDnode, update_self, loadDinode_storeDinode hd]

lemma dnode_setDnode_of_ne (h : m ≠ n) : dnode (setDnode disk n d) m = dnode disk m := by
  by_cases hb : m / 32 + 1 = n / 32 + 1
  · rw [dnode, dnode, setDnode, hb, update_self]
    apply loadDinode_congr
    intro i hi
    exact storeDinode_apply (by omega)
  · rw [dnode, dnode, setDnode, update_of_ne hb]

lemma setDnode_block {k : ℕ} (hn : n < ninodes) (hk : 11 ≤ k) : setDnode disk n d k = disk k := by
  have hlt : n / 32 < 10 := by
    change n < 320 at hn
    omega
  exact update_of_ne (by omega) _ _

lemma dnode_update_block {k : ℕ} (hn : n < ninodes) (hk : 11 ≤ k) (blk : ℕ → UInt8) :
    dnode (update disk k blk) n = dnode disk n := by
  have hlt : n / 32 < 10 := by
    change n < 320 at hn
    omega
  rw [dnode, dnode, update_of_ne (by omega)]

end Inodes

def direntry (b : ℕ → UInt8) (i : ℕ) : Name × ℤ := (readString b (i * 32 + 4) 28, load32 b (i * 32))

def direntrys (b : ℕ → UInt8) (k : ℕ) : List (Name × ℤ) := (List.range k).map (direntry b)

section Entries

variable {b c : ℕ → UInt8} {i j k : ℕ} {nm : Name} {inum : ℤ}

lemma direntry_congr (h : ∀ x < 32, b (i * 32 + x) = c (j * 32 + x)) : direntry b i = direntry c j := by
  have hname : readString b (i * 32 + 4) 28 = readString c (j * 32 + 4) 28 := by
    apply readString_congr
    intro x hx
    rw [Nat.add_assoc, Nat.add_assoc]
    exact h (4 + x) (by omega)
  have hinum : load32 b (i * 32) = load32 c (j * 32) := by
    apply load32_congr
    intro x hx
    exact h x (by omega)
  rw [direntry, direntry, hname, hinum]

lemma direntrys_get (hi : i < k) : (direntrys b k)[i]? = some (direntry b i) := by
  simp [direntrys, hi]

lemma putDirentry_of_notMem {x o : ℕ} (h : x < o ∨ o + 4 + nm.length < x) : putDirentry b o nm inum x = b x := by
  rw [putDirentry, putString_apply (by omega), store32_apply (by omega)]

lemma putDirentry_apply {x o : ℕ} (hnm : nm.length < 28) (h : x < o ∨ o + 32 ≤ x) :
    putDirentry b o nm inum x = b x := putDirentry_of_notMem (by omega)

lemma putDirentry_congr {x o : ℕ} (h : b x = c x) : putDirentry b o nm inum x = putDirentry c o nm inum x := by
  have hstore : store32 b o inum x = store32 c o inum x := by rw [store32, store32, h]
  rw [putDirentry, putDirentry]
  generalize o + 4 = a
  induction nm generalizing a with
  | nil =>
    by_cases hx : x = a
    · rw [putString, putString, hx, update_self, update_self]
    · rw [putString, putString, update_of_ne hx, update_of_ne hx, hstore]
  | cons y nm ih =>
    by_cases hx : x = a
    · rw [putString, putString, hx, update_self, update_self]
    · rw [putString, putString, update_of_ne hx, update_of_ne hx]
      exact ih (a + 1)

lemma direntry_putDirentry (hnm : nm.length < 28) (hz : (0 : UInt8) ∉ nm) (hv : -2 ^ 31 ≤ inum ∧ inum < 2 ^ 31) :
    direntry (putDirentry b (i * 32) nm inum) i = (nm, inum) := by
  have hinum : load32 (putDirentry b (i * 32) nm inum) (i * 32) = inum := by
    rw [← load32_store32 (b := b) (a := i * 32) hv]
    apply load32_congr
    intro x hx
    rw [putDirentry, putString_apply (by omega), load32_store32 hv]
  rw [direntry, hinum, putDirentry, readString_putString hz hnm]

lemma direntrys_putDirentry (hnm : nm.length < 28) (hz : (0 : UInt8) ∉ nm) (hv : -2 ^ 31 ≤ inum ∧ inum < 2 ^ 31) :
    direntrys (putDirentry b (k * 32) nm inum) (k + 1) = direntrys b k ++ [(nm, inum)] := by
  rw [direntrys, List.range_succ, List.map_append, List.map_singleton, direntry_putDirentry hnm hz hv]
  congr 1
  apply List.map_congr_left
  intro i hi
  rw [List.mem_range] at hi
  apply direntry_congr
  intro x hx
  exact putDirentry_apply hnm (by omega)

lemma shiftDirentrys_apply (b : ℕ → UInt8) (j x : ℕ) :
    shiftDirentrys b j x = if j * 32 ≤ x ∧ x < 4064 then b (x + 32) else b x := rfl

lemma direntry_shift_of_lt (hi : i < j) : direntry (shiftDirentrys b j) i = direntry b i := by
  apply direntry_congr
  intro x hx
  rw [shiftDirentrys_apply, if_neg (by omega)]

lemma direntry_shift_of_le (hi : j ≤ i) (hlt : i < 127) : direntry (shiftDirentrys b j) i = direntry b (i + 1) := by
  apply direntry_congr
  intro x hx
  rw [shiftDirentrys_apply, if_pos (by omega)]
  congr 1
  omega

lemma map_range_eraseIdx {α : Type} (f : ℕ → α) (hj : j < k) :
    ((List.range k).map f).eraseIdx j = (List.range (k - 1)).map fun i => if i < j then f i else f (i + 1) := by
  apply List.ext_getElem?
  intro i
  rw [List.getElem?_eraseIdx]
  split_ifs with hi
  · rw [List.getElem?_map, List.getElem?_map, List.getElem?_range (by omega), List.getElem?_range (by omega)]
    simp [hi]
  · by_cases hin : i < k - 1
    · rw [List.getElem?_map, List.getElem?_map, List.getElem?_range (by omega), List.getElem?_range hin]
      simp [hi]
    · rw [List.getElem?_eq_none (by simp; omega), List.getElem?_eq_none (by simp; omega)]

lemma direntrys_shift (hj : j < k) (hk : k ≤ 128) :
    direntrys (shiftDirentrys b j) (k - 1) = (direntrys b k).eraseIdx j := by
  rw [direntrys, direntrys, map_range_eraseIdx _ hj]
  apply List.map_congr_left
  intro i hi
  rw [List.mem_range] at hi
  split_ifs with hij
  · exact direntry_shift_of_lt hij
  · exact direntry_shift_of_le (by omega) (by omega)

lemma find_direntry {r : Option ℕ} (hr : (List.range k).find? (fun i => decide ((direntry b i).1 = nm)) = r) :
    (∀ j, r = some j → j < k ∧ (direntrys b k)[j]? = some (nm, (direntry b j).2)) ∧
      (r = none → nm ∉ (direntrys b k).map Prod.fst) := by
  constructor
  · rintro j rfl
    have hj := List.find?_some hr
    have hmem := List.mem_of_find?_eq_some hr
    rw [List.mem_range] at hmem
    rw [decide_eq_true_eq] at hj
    refine ⟨hmem, ?_⟩
    rw [direntrys_get hmem, ← hj]
  · rintro rfl hin
    rw [List.find?_eq_none] at hr
    obtain ⟨e, he, hnm⟩ := List.mem_map.mp hin
    obtain ⟨i, hi, rfl⟩ := List.mem_map.mp he
    exact hr i hi (decide_eq_true hnm)

end Entries

end Pke.Files
