import Pke.Files.HashTable

/-! The chained table as a finite map, along every run of puts, gets and erasures. -/

namespace Pke.Files

open Lib Flow Function

variable {K V : Type}

inductive HashEvent (K V : Type) where
  | put (key : K) (value : V)
  | erase (key : K)

def lastPut (H : HashKeys K) : List (HashEvent K V) → K → Option V
  | [], _ => none
  | .put key value :: log, k => if H.equal key k then some value else lastPut H log k
  | .erase key :: log, k => if H.equal key k then none else lastPut H log k

def HashTable.nexts (t : HashTable K V) (a : ℕ) : Option ℕ := (t.node a).next

def HashTable.Holds (t : HashTable K V) (a : ℕ) : Prop := ∃ i < hashTableSize, ∃ l, Chain t.nexts (t.head i) l ∧ a ∈ l

inductive HashRun (H : HashKeys K) : HashTable K V → List (HashEvent K V) → Prop
  | init {t u} (h : hashTableInit t = .done 0 u) : HashRun H u []
  | get {t u log n key r} (h : HashRun H t log) (hrun : defalutGet H n key t = .done r u) : HashRun H u log
  | put {t u log n page key value r} (h : HashRun H t log) (hpage : ¬ t.Holds page)
      (hrun : defaultPut H n page key (some value) t = .done r u) : HashRun H u (if r = 0 then .put key value :: log else log)
  | erase {t u log n key r} (h : HashRun H t log) (hrun : defaultErase H n key t = .done r u) :
      HashRun H u (if r = 0 then .erase key :: log else log)
  | elsewhere {t u log} (h : HashRun H t log) (hhead : ∀ i < hashTableSize, u.head i = t.head i)
      (hnode : ∀ a, t.Holds a → u.node a = t.node a) : HashRun H u log

lemma HashKeys.equal_comm (H : HashKeys K) {k l : K} : H.equal k l = H.equal l k :=
  Bool.eq_iff_iff.mpr ⟨H.symm k l, H.symm l k⟩

section Walks

variable {H : HashKeys K} {t : HashTable K V} {key : K} {l m : List ℕ} {n a : ℕ} {h : Option ℕ} {link : Link}

def HashKeys.hits (H : HashKeys K) (t : HashTable K V) (key : K) (a : ℕ) : Bool := H.equal (t.node a).key key

lemma getFrom_chain (hl : Chain t.nexts h l) (hn : l.length < n) :
    getFrom H key n h t = .done ((l.find? (H.hits t key)).bind fun a => (t.node a).value) t := by
  induction l generalizing h n with
  | nil =>
    obtain ⟨n, rfl⟩ := Nat.exists_eq_add_of_lt hn
    rw [Chain.nil_iff] at hl
    subst hl
    rfl
  | cons a l ih =>
    obtain ⟨rfl, hl⟩ := hl
    cases n with
    | zero => cases hn
    | succ n =>
      rw [getFrom, get_bind, List.find?_cons]
      by_cases hit : H.equal (t.node a).key key = true
      · rw [if_pos hit, show H.hits t key a = true from hit]
        rfl
      · rw [if_neg hit, show H.hits t key a = false from Bool.eq_false_iff.mpr hit]
        exact ih hl (Nat.lt_of_succ_lt_succ hn)

lemma eraseFrom_none (hl : Chain t.nexts (t.next link) l) (hn : l.length < n) (hno : ∀ b ∈ l, H.hits t key b = false) :
    eraseFrom H key n link t = .done (-1) t := by
  induction l generalizing link n with
  | nil =>
    obtain ⟨n, rfl⟩ := Nat.exists_eq_add_of_lt hn
    rw [eraseFrom, get_bind, Chain.nil_iff.mp hl]
    rfl
  | cons a l ih =>
    obtain ⟨hnext, hl⟩ := hl
    cases n with
    | zero => cases hn
    | succ n =>
      have ha : H.equal (t.node a).key key = false := hno a (by simp)
      rw [eraseFrom, get_bind, hnext]
      dsimp only
      rw [if_neg (by simp [ha])]
      exact ih hl (Nat.lt_of_succ_lt_succ hn) fun b hb => hno b (by simp [hb])

def linkAfter (link : Link) (m : List ℕ) : Link := m.foldl (fun _ b => .node b) link

lemma eraseFrom_some (hl : Chain t.nexts (t.next link) (m ++ a :: l)) (hn : m.length < n) (hno : ∀ b ∈ m, H.hits t key b = false)
    (ha : H.hits t key a = true) : eraseFrom H key n link t = .done 0 (t.setNext (t.nexts a) (linkAfter link m)) := by
  induction m generalizing link n with
  | nil =>
    obtain ⟨n, rfl⟩ := Nat.exists_eq_add_of_lt hn
    rw [eraseFrom, get_bind, hl.1]
    dsimp only
    rw [if_pos (show H.equal (t.node a).key key = true from ha)]
    rfl
  | cons b m ih =>
    obtain ⟨hnext, hl⟩ := hl
    cases n with
    | zero => cases hn
    | succ n =>
      have hb : H.equal (t.node b).key key = false := hno b (by simp)
      rw [eraseFrom, get_bind, hnext]
      dsimp only
      rw [if_neg (by simp [hb])]
      exact ih hl (Nat.lt_of_succ_lt_succ hn) fun c hc => hno c (by simp [hc])

end Walks

structure Chained (H : HashKeys K) (t : HashTable K V) (chain : ℕ → List ℕ) : Prop where
  links : ∀ i < hashTableSize, Chain t.nexts (t.head i) (chain i)
  apart : ∀ i < hashTableSize, ∀ j < hashTableSize, ∀ a ∈ chain i, a ∈ chain j → i = j
  own : ∀ i < hashTableSize, ∀ a ∈ chain i, H.func (t.node a).key = i
  once : ∀ i < hashTableSize, (chain i).Pairwise fun a b => H.equal (t.node a).key (t.node b).key = false
  value : ∀ i < hashTableSize, ∀ a ∈ chain i, (t.node a).value ≠ none

def HashTable.lookup (H : HashKeys K) (t : HashTable K V) (chain : ℕ → List ℕ) (key : K) : Option V :=
  ((chain (H.func key)).find? (H.hits t key)).bind fun a => (t.node a).value

section Buckets

variable {H : HashKeys K} {t : HashTable K V} {chain : ℕ → List ℕ} {key k : K} {page a i : ℕ} {value : V} {l m : List ℕ}

lemma bucket_eq (hkey : H.func key < hashTableSize) : bucket H key t = .done (H.func key) t := by
  rw [bucket, if_pos hkey]
  rfl

lemma Chained.notMem (h : Chained H t chain) (hpage : ¬ t.Holds page) (hi : i < hashTableSize) : page ∉ chain i :=
  fun hmem => hpage ⟨i, hi, chain i, h.links i hi, hmem⟩

lemma Chained.get (h : Chained H t chain) (hkey : H.func key < hashTableSize) {n : ℕ} (hn : (chain (H.func key)).length < n) :
    defalutGet H n key t = .done (t.lookup H chain key) t := by
  rw [defalutGet, bind_done (bucket_eq hkey), get_bind]
  exact getFrom_chain (h.links _ hkey) hn

lemma Chained.lookup_none (h : Chained H t chain) (hkey : H.func key < hashTableSize) :
    t.lookup H chain key = none ↔ ∀ b ∈ chain (H.func key), H.hits t key b = false := by
  constructor
  · intro hno
    cases hfind : (chain (H.func key)).find? (H.hits t key) with
    | none => simpa using List.find?_eq_none.mp hfind
    | some a =>
      rw [HashTable.lookup, hfind] at hno
      exact absurd hno (h.value _ hkey a (List.mem_of_find?_eq_some hfind))
  · intro hno
    have hfind : (chain (H.func key)).find? (H.hits t key) = none := List.find?_eq_none.mpr fun b hb => by simp [hno b hb]
    rw [HashTable.lookup, hfind]
    rfl

lemma HashTable.lookup_some (hsome : t.lookup H chain key ≠ none) :
    ∃ m a l, chain (H.func key) = m ++ a :: l ∧ (∀ b ∈ m, H.hits t key b = false) ∧ H.hits t key a = true := by
  cases hfind : (chain (H.func key)).find? (H.hits t key) with
  | none =>
    rw [HashTable.lookup, hfind] at hsome
    exact absurd rfl hsome
  | some a =>
    obtain ⟨ha, m, l, hsplit, hno⟩ := List.find?_eq_some_iff_append.mp hfind
    exact ⟨m, a, l, hsplit, fun b hb => by simpa using hno b hb, ha⟩

def HashTable.pushed (H : HashKeys K) (t : HashTable K V) (page : ℕ) (key : K) (value : V) : HashTable K V where
  head := update t.head (H.func key) (some page)
  node := update t.node page ⟨t.head (H.func key), key, some value⟩

lemma HashTable.pushed_self : (t.pushed H page key value).node page = ⟨t.head (H.func key), key, some value⟩ := update_self _ _ _

lemma HashTable.pushed_head : (t.pushed H page key value).head (H.func key) = some page := update_self _ _ _

lemma HashTable.pushed_head_of_ne (hi : i ≠ H.func key) : (t.pushed H page key value).head i = t.head i := update_of_ne hi _ _

lemma HashTable.pushed_node (ha : a ≠ page) : (t.pushed H page key value).node a = t.node a := update_of_ne ha _ _

lemma HashTable.pushed_nexts : (t.pushed H page key value).nexts = update t.nexts page (t.head (H.func key)) := by
  funext a
  by_cases ha : a = page
  · subst ha
    rw [update_self, HashTable.nexts, HashTable.pushed_self]
  · rw [update_of_ne ha, HashTable.nexts, HashTable.pushed_node ha, HashTable.nexts]

lemma Chained.put (h : Chained H t chain) (hpage : ¬ t.Holds page)
    (hno : ∀ b ∈ chain (H.func key), H.hits t key b = false) :
    Chained H (t.pushed H page key value) (update chain (H.func key) (page :: chain (H.func key))) := by
  have hfresh : ∀ i < hashTableSize, ∀ a ∈ chain i, a ≠ page := by
    rintro i hi a ha rfl
    exact h.notMem hpage hi ha
  have hmem : ∀ i < hashTableSize, ∀ a ∈ update chain (H.func key) (page :: chain (H.func key)) i,
      a = page ∧ i = H.func key ∨ a ≠ page ∧ a ∈ chain i := by
    intro i hi a ha
    by_cases hik : i = H.func key
    · subst hik
      rw [update_self, List.mem_cons] at ha
      rcases ha with rfl | ha
      · exact .inl ⟨rfl, rfl⟩
      · exact .inr ⟨hfresh _ hi a ha, ha⟩
    · rw [update_of_ne hik] at ha
      exact .inr ⟨hfresh i hi a ha, ha⟩
  constructor
  · intro i hi
    rw [HashTable.pushed_nexts]
    by_cases hik : i = H.func key
    · subst hik
      rw [update_self, HashTable.pushed_head]
      exact (h.links _ hi).push (h.notMem hpage hi)
    · rw [update_of_ne hik, HashTable.pushed_head_of_ne hik]
      exact (h.links i hi).update_of_notMem (h.notMem hpage hi) _
  · intro i hi j hj a ha ha'
    rcases hmem i hi a ha with ⟨rfl, rfl⟩ | ⟨hne, hold⟩
    · rcases hmem j hj a ha' with ⟨-, rfl⟩ | ⟨hne, -⟩
      · rfl
      · exact absurd rfl hne
    · rcases hmem j hj a ha' with ⟨rfl, -⟩ | ⟨-, hold'⟩
      · exact absurd rfl hne
      · exact h.apart i hi j hj a hold hold'
  · intro i hi a ha
    rcases hmem i hi a ha with ⟨rfl, rfl⟩ | ⟨hne, hold⟩
    · rw [HashTable.pushed_self]
    · rw [HashTable.pushed_node hne]
      exact h.own i hi a hold
  · intro i hi
    have hrest : (chain i).Pairwise fun a b =>
        H.equal ((t.pushed H page key value).node a).key ((t.pushed H page key value).node b).key = false := by
      refine (h.once i hi).imp_of_mem fun {a b} ha hb hab => ?_
      rwa [HashTable.pushed_node (hfresh i hi a ha), HashTable.pushed_node (hfresh i hi b hb)]
    by_cases hik : i = H.func key
    · subst hik
      rw [update_self, List.pairwise_cons]
      refine ⟨fun b hb => ?_, hrest⟩
      rw [HashTable.pushed_self, HashTable.pushed_node (hfresh _ hi b hb)]
      exact H.equal_comm ▸ hno b hb
    · rwa [update_of_ne hik]
  · intro i hi a ha
    rcases hmem i hi a ha with ⟨rfl, -⟩ | ⟨hne, hold⟩
    · rw [HashTable.pushed_self]
      exact Option.some_ne_none _
    · rw [HashTable.pushed_node hne]
      exact h.value i hi a hold

lemma Chained.lookup_put (h : Chained H t chain) (hpage : ¬ t.Holds page) (hk : H.func k < hashTableSize) :
    (t.pushed H page key value).lookup H (update chain (H.func key) (page :: chain (H.func key))) k =
      if H.equal key k then some value else t.lookup H chain k := by
  have hold : ((chain (H.func k)).find? (H.hits (t.pushed H page key value) k)).bind
      (fun a => ((t.pushed H page key value).node a).value) = t.lookup H chain k := by
    have hnode : ∀ a ∈ chain (H.func k), (t.pushed H page key value).node a = t.node a := by
      intro a ha
      refine HashTable.pushed_node ?_
      rintro rfl
      exact h.notMem hpage hk ha
    have hfind : (chain (H.func k)).find? (H.hits (t.pushed H page key value) k) = (chain (H.func k)).find? (H.hits t k) :=
      List.find?_congr fun a ha => by rw [HashKeys.hits, HashKeys.hits, hnode a ha]
    rw [hfind, HashTable.lookup]
    exact Option.bind_congr fun a ha => by rw [hnode a (List.mem_of_find?_eq_some ha)]
  by_cases hik : H.func k = H.func key
  · rw [HashTable.lookup, hik, update_self, List.find?_cons, HashKeys.hits, HashTable.pushed_self]
    cases heq : H.equal key k with
    | true => simp [HashTable.pushed_self]
    | false => simpa [hik] using hold
  · have hne : H.equal key k = false := Bool.eq_false_iff.mpr fun heq => hik (H.same _ _ heq).symm
    rw [HashTable.lookup, update_of_ne hik, hold, hne]
    rfl

def HashTable.unlinked (t : HashTable K V) (i : ℕ) (m : List ℕ) (a : ℕ) : HashTable K V :=
  t.setNext (t.nexts a) (linkAfter (.head i) m)

lemma linkAfter_concat (link : Link) (m : List ℕ) (b : ℕ) : linkAfter link (m ++ [b]) = .node b := by
  rw [linkAfter, List.foldl_append]
  rfl

lemma HashTable.setNext_entry (t : HashTable K V) (o : Option ℕ) (link : Link) (b : ℕ) :
    ((t.setNext o link).node b).key = (t.node b).key ∧ ((t.setNext o link).node b).value = (t.node b).value := by
  cases link with
  | head i => exact ⟨rfl, rfl⟩
  | node c =>
    by_cases hb : b = c
    · subst hb
      simp [HashTable.setNext]
    · simp [HashTable.setNext, hb]

lemma HashTable.unlinked_links (hi : Chain t.nexts (t.head i) (m ++ a :: l)) :
    Chain (t.unlinked i m a).nexts ((t.unlinked i m a).head i) (m ++ l) ∧
      ∀ j o, j ≠ i → (∀ b ∈ o, b ∉ m) → Chain t.nexts (t.head j) o → Chain (t.unlinked i m a).nexts ((t.unlinked i m a).head j) o := by
  rcases List.eq_nil_or_concat m with rfl | ⟨m, p, rfl⟩
  · have hhead : (t.unlinked i [] a).head = update t.head i (t.nexts a) := rfl
    constructor
    · rw [hhead, update_self]
      exact hi.2
    · intro j o hj _ ho
      rw [hhead, update_of_ne hj]
      exact ho
  · rw [List.concat_eq_append] at hi ⊢
    have hnexts : (t.unlinked i (m ++ [p]) a).nexts = update t.nexts p (t.nexts a) := by
      funext b
      rw [HashTable.nexts, HashTable.unlinked, linkAfter_concat]
      by_cases hb : b = p
      · subst hb
        simp [HashTable.setNext]
      · simp [HashTable.setNext, hb, HashTable.nexts]
    have hhead : (t.unlinked i (m ++ [p]) a).head = t.head := by
      rw [HashTable.unlinked, linkAfter_concat]
      rfl
    rw [hnexts, hhead]
    constructor
    · rw [List.append_assoc] at hi ⊢
      exact hi.unlink
    · intro j o _ hm ho
      exact ho.update_of_notMem (fun hp => hm p hp (by simp)) _

lemma Chained.erase (h : Chained H t chain) (hi : i < hashTableSize) (hsplit : chain i = m ++ a :: l) :
    Chained H (t.unlinked i m a) (update chain i (m ++ l)) := by
  have hkey : ∀ b, ((t.unlinked i m a).node b).key = (t.node b).key := fun b => (t.setNext_entry _ _ b).1
  have hvalue : ∀ b, ((t.unlinked i m a).node b).value = (t.node b).value := fun b => (t.setNext_entry _ _ b).2
  have hsub : (m ++ l).Sublist (chain i) := by
    rw [hsplit]
    exact List.Sublist.append_left (List.sublist_cons_self a l) m
  have hmem : ∀ j, ∀ b ∈ update chain i (m ++ l) j, b ∈ chain j := by
    intro j b hb
    by_cases hj : j = i
    · subst hj
      rw [update_self] at hb
      exact hsub.subset hb
    · rwa [update_of_ne hj] at hb
  obtain ⟨hchain, hothers⟩ := HashTable.unlinked_links (hsplit ▸ h.links i hi)
  constructor
  · intro j hj
    by_cases hji : j = i
    · subst hji
      rwa [update_self]
    · rw [update_of_ne hji]
      refine hothers j (chain j) hji (fun b hb hbm => hji ?_) (h.links j hj)
      exact h.apart j hj i hi b hb (by rw [hsplit]; simp [hbm])
  · exact fun j hj j' hj' b hb hb' => h.apart j hj j' hj' b (hmem j b hb) (hmem j' b hb')
  · intro j hj b hb
    rw [hkey]
    exact h.own j hj b (hmem j b hb)
  · intro j hj
    simp only [hkey]
    by_cases hji : j = i
    · subst hji
      rw [update_self]
      exact (h.once j hj).sublist hsub
    · rw [update_of_ne hji]
      exact h.once j hj
  · intro j hj b hb
    rw [hvalue]
    exact h.value j hj b (hmem j b hb)

lemma Chained.lookup_erase (h : Chained H t chain) (hkey : H.func key < hashTableSize) (hsplit : chain (H.func key) = m ++ a :: l)
    (hno : ∀ b ∈ m, H.hits t key b = false) (ha : H.hits t key a = true) :
    (t.unlinked (H.func key) m a).lookup H (update chain (H.func key) (m ++ l)) k =
      if H.equal key k then none else t.lookup H chain k := by
  have hhits : H.hits (t.unlinked (H.func key) m a) k = H.hits t k := by
    funext b
    rw [HashKeys.hits, HashKeys.hits]
    exact congrArg (H.equal · k) (t.setNext_entry _ _ b).1
  have hvalue : ∀ b, ((t.unlinked (H.func key) m a).node b).value = (t.node b).value := fun b => (t.setNext_entry _ _ b).2
  rw [HashTable.lookup, hhits]
  simp only [hvalue]
  cases heq : H.equal key k with
  | true =>
    -- no node of the bucket but `a` has an equal key
    have hsame := H.same _ _ heq
    have hak : H.equal (t.node a).key k = true := H.trans _ _ _ ha heq
    have hnone : (m ++ l).find? (H.hits t k) = none := by
      refine List.find?_eq_none.mpr fun b hb hbk => ?_
      rcases List.mem_append.mp hb with hbm | hbl
      · have hbkey : H.equal (t.node b).key key = true := H.trans _ _ _ hbk (H.symm _ _ heq)
        rw [show H.equal (t.node b).key key = false from hno b hbm] at hbkey
        cases hbkey
      · have honce := h.once _ hkey
        rw [hsplit, List.pairwise_append] at honce
        have hab := (List.pairwise_cons.mp honce.2.1).1 b hbl
        rw [H.trans _ _ _ hak (H.symm _ _ hbk)] at hab
        cases hab
    rw [← hsame, update_self, hnone]
    rfl
  | false =>
    by_cases hik : H.func k = H.func key
    · have hak : H.hits t k a = false := by
        refine Bool.eq_false_iff.mpr fun hak => ?_
        rw [H.trans _ _ _ (H.symm _ _ ha) hak] at heq
        cases heq
      rw [hik, update_self, HashTable.lookup, hik, hsplit, List.find?_append, List.find?_append, List.find?_cons, hak]
      rfl
    · rw [update_of_ne hik]
      rfl

end Buckets

section Operations

variable {H : HashKeys K} {t u : HashTable K V} {chain : ℕ → List ℕ} {key k : K} {page n m : ℕ} {value : V} {h : Option ℕ} {link : Link}

lemma getFrom_mono {r : Option V} (hrun : getFrom H key n h t = .done r u) (hle : n ≤ m) : getFrom H key m h t = .done r u := by
  induction n generalizing h m with
  | zero => cases hrun
  | succ n ih =>
    cases m with
    | zero => cases hle
    | succ m =>
      cases h with
      | none => exact hrun
      | some a =>
        rw [getFrom, get_bind] at hrun ⊢
        by_cases hit : H.equal (t.node a).key key = true
        · rw [if_pos hit] at hrun ⊢
          exact hrun
        · rw [if_neg hit] at hrun ⊢
          exact ih hrun (Nat.le_of_succ_le_succ hle)

lemma eraseFrom_mono {r : ℤ} (hrun : eraseFrom H key n link t = .done r u) (hle : n ≤ m) : eraseFrom H key m link t = .done r u := by
  induction n generalizing link m with
  | zero => cases hrun
  | succ n ih =>
    cases m with
    | zero => cases hle
    | succ m =>
      rw [eraseFrom, get_bind] at hrun ⊢
      cases hnext : t.next link with
      | none =>
        rw [hnext] at hrun
        exact hrun
      | some a =>
        rw [hnext] at hrun
        dsimp only at hrun ⊢
        by_cases hit : H.equal (t.node a).key key = true
        · rw [if_pos hit] at hrun ⊢
          exact hrun
        · rw [if_neg hit] at hrun ⊢
          exact ih hrun (Nat.le_of_succ_le_succ hle)

lemma bucket_done {i : ℕ} (hrun : bucket H key t = .done i u) : H.func key < hashTableSize ∧ i = H.func key ∧ u = t := by
  rw [bucket] at hrun
  by_cases hkey : H.func key < hashTableSize
  · rw [if_pos hkey] at hrun
    cases hrun
    exact ⟨hkey, rfl, rfl⟩
  · rw [if_neg hkey] at hrun
    cases hrun

lemma defalutGet_mono {r : Option V} (hrun : defalutGet H n key t = .done r u) (hle : n ≤ m) : defalutGet H m key t = .done r u := by
  obtain ⟨i, t', hi, hwalk⟩ := bind_eq_done hrun
  obtain ⟨-, -, rfl⟩ := bucket_done hi
  rw [get_bind] at hwalk
  rw [defalutGet, bind_done hi, get_bind]
  exact getFrom_mono hwalk hle

lemma defaultPut_mono {r : ℤ} (hrun : defaultPut H n page key (some value) t = .done r u) (hle : n ≤ m) :
    defaultPut H m page key (some value) t = .done r u := by
  obtain ⟨old, t', hold, hrun⟩ := bind_eq_done hrun
  rw [defaultPut, bind_done (defalutGet_mono hold hle)]
  exact hrun

lemma defaultErase_mono {r : ℤ} (hrun : defaultErase H n key t = .done r u) (hle : n ≤ m) : defaultErase H m key t = .done r u := by
  obtain ⟨i, t', hi, hwalk⟩ := bind_eq_done hrun
  obtain ⟨-, -, rfl⟩ := bucket_done hi
  rw [defaultErase, bind_done hi]
  exact eraseFrom_mono hwalk hle

variable (hc : Chained H t chain) (hkey : H.func key < hashTableSize) (hn : (chain (H.func key)).length < n)
include hc hkey hn

lemma Chained.defaultPut_present (hsome : t.lookup H chain key ≠ none) : defaultPut H n page key (some value) t = .done (-1) t := by
  obtain ⟨v, hv⟩ := Option.ne_none_iff_exists'.mp hsome
  rw [defaultPut, bind_done (hc.get hkey hn), hv]
  rfl

lemma Chained.defaultPut_absent (hnone : t.lookup H chain key = none) :
    defaultPut H n page key (some value) t = .done 0 (t.pushed H page key value) := by
  rw [defaultPut, bind_done (hc.get hkey hn), hnone, if_neg (by simp), bind_done (bucket_eq hkey)]
  rfl

lemma Chained.defaultErase_missing (hnone : t.lookup H chain key = none) : defaultErase H n key t = .done (-1) t := by
  rw [defaultErase, bind_done (bucket_eq hkey)]
  exact eraseFrom_none (hc.links _ hkey) hn ((hc.lookup_none hkey).mp hnone)

lemma Chained.defaultErase_erased (hsome : t.lookup H chain key ≠ none) :
    ∃ u chain', defaultErase H n key t = .done 0 u ∧ Chained H u chain' ∧
      ∀ k, u.lookup H chain' k = if H.equal key k then none else t.lookup H chain k := by
  obtain ⟨m, a, l, hsplit, hno, ha⟩ := HashTable.lookup_some hsome
  have hlen : m.length < n := by
    rw [hsplit, List.length_append] at hn
    omega
  refine ⟨t.unlinked (H.func key) m a, _, ?_, hc.erase hkey hsplit, fun k => hc.lookup_erase hkey hsplit hno ha⟩
  rw [defaultErase, bind_done (bucket_eq hkey)]
  have hlinks : Chain t.nexts (t.next (.head (H.func key))) (m ++ a :: l) := by
    rw [← hsplit]
    exact hc.links _ hkey
  exact eraseFrom_some hlinks hlen hno ha

end Operations

def Mapped (H : HashKeys K) (t : HashTable K V) (log : List (HashEvent K V)) : Prop :=
  ∃ chain, Chained H t chain ∧ ∀ key, H.func key < hashTableSize → t.lookup H chain key = lastPut H log key

section Runs

variable {H : HashKeys K} {t u : HashTable K V} {log : List (HashEvent K V)} {key : K}

lemma Mapped.get (h : Mapped H t log) (hkey : H.func key < hashTableSize) :
    ∃ N, ∀ n ≥ N, defalutGet H n key t = .done (lastPut H log key) t := by
  obtain ⟨chain, hc, hlog⟩ := h
  refine ⟨(chain (H.func key)).length + 1, fun n hn => ?_⟩
  rw [hc.get hkey hn, hlog key hkey]

lemma Mapped.init (h : hashTableInit t = .done 0 u) : Mapped H u [] := by
  cases h
  refine ⟨fun _ => [], ⟨?_, by simp, by simp, by simp, by simp⟩, fun _ _ => rfl⟩
  intro i hi
  exact if_pos hi

lemma Mapped.put (h : Mapped H t log) {n page : ℕ} {value : V} {r : ℤ} (hpage : ¬ t.Holds page)
    (hrun : defaultPut H n page key (some value) t = .done r u) :
    Mapped H u (if r = 0 then .put key value :: log else log) := by
  obtain ⟨old, t', hold, -⟩ := bind_eq_done hrun
  obtain ⟨i, t'', hi, -⟩ := bind_eq_done hold
  obtain ⟨hkey, -, -⟩ := bucket_done hi
  obtain ⟨chain, hc, hlog⟩ := h
  have hmono := defaultPut_mono hrun (le_max_left n ((chain (H.func key)).length + 1))
  have hfuel : (chain (H.func key)).length < max n ((chain (H.func key)).length + 1) := by omega
  by_cases hnone : t.lookup H chain key = none
  · rw [hc.defaultPut_absent hkey hfuel hnone] at hmono
    cases hmono
    rw [if_pos rfl]
    refine ⟨_, hc.put hpage ((hc.lookup_none hkey).mp hnone), fun k hk => ?_⟩
    rw [hc.lookup_put hpage hk, lastPut, hlog k hk]
  · rw [hc.defaultPut_present hkey hfuel hnone] at hmono
    cases hmono
    exact ⟨chain, hc, hlog⟩

lemma Mapped.erase (h : Mapped H t log) {n : ℕ} {r : ℤ} (hrun : defaultErase H n key t = .done r u) :
    Mapped H u (if r = 0 then .erase key :: log else log) := by
  obtain ⟨i, t', hi, -⟩ := bind_eq_done hrun
  obtain ⟨hkey, -, -⟩ := bucket_done hi
  obtain ⟨chain, hc, hlog⟩ := h
  have hmono := defaultErase_mono hrun (le_max_left n ((chain (H.func key)).length + 1))
  have hfuel : (chain (H.func key)).length < max n ((chain (H.func key)).length + 1) := by omega
  by_cases hnone : t.lookup H chain key = none
  · rw [hc.defaultErase_missing hkey hfuel hnone] at hmono
    cases hmono
    exact ⟨chain, hc, hlog⟩
  · obtain ⟨v, chain', hdone, hc', hlook⟩ := hc.defaultErase_erased hkey hfuel hnone
    rw [hdone] at hmono
    cases hmono
    rw [if_pos rfl]
    refine ⟨chain', hc', fun k hk => ?_⟩
    rw [hlook k, lastPut, hlog k hk]

lemma Mapped.elsewhere (h : Mapped H t log) (hhead : ∀ i < hashTableSize, u.head i = t.head i)
    (hnode : ∀ a, t.Holds a → u.node a = t.node a) : Mapped H u log := by
  obtain ⟨chain, hc, hlog⟩ := h
  have hsame : ∀ i < hashTableSize, ∀ a ∈ chain i, u.node a = t.node a :=
    fun i hi a ha => hnode a ⟨i, hi, chain i, hc.links i hi, ha⟩
  refine ⟨chain, ⟨?_, hc.apart, ?_, ?_, ?_⟩, ?_⟩
  · intro i hi
    rw [hhead i hi]
    refine (hc.links i hi).congr fun a ha => ?_
    rw [HashTable.nexts, HashTable.nexts, hsame i hi a ha]
  · intro i hi a ha
    rw [hsame i hi a ha]
    exact hc.own i hi a ha
  · intro i hi
    refine (hc.once i hi).imp_of_mem fun {a b} ha hb hab => ?_
    rwa [hsame i hi a ha, hsame i hi b hb]
  · intro i hi a ha
    rw [hsame i hi a ha]
    exact hc.value i hi a ha
  · intro k hk
    rw [← hlog k hk, HashTable.lookup, HashTable.lookup]
    have hfind : (chain (H.func k)).find? (H.hits u k) = (chain (H.func k)).find? (H.hits t k) :=
      List.find?_congr fun a ha => by rw [HashKeys.hits, HashKeys.hits, hsame _ hk a ha]
    rw [hfind]
    exact Option.bind_congr fun a ha => by rw [hsame _ hk a (List.mem_of_find?_eq_some ha)]

lemma HashRun.mapped (h : HashRun H t log) : Mapped H t log := by
  induction h with
  | init h => exact .init h
  | @get t u log n key r _ hrun ih =>
    obtain ⟨i, t', hi, -⟩ := bind_eq_done hrun
    obtain ⟨N, hget⟩ := ih.get (bucket_done hi).1
    have hmono := defalutGet_mono hrun (le_max_left n N)
    rw [hget _ (le_max_right n N)] at hmono
    cases hmono
    exact ih
  | put _ hpage hrun ih => exact ih.put hpage hrun
  | erase _ hrun ih => exact ih.erase hrun
  | elsewhere _ hhead hnode ih => exact ih.elsewhere hhead hnode

end Runs

end Pke.Files
