import Pke.Lib.Chains
import Pke.Lib.Flow

/-! `hash_table.c`, over the two kinds of keys of `vfs.c`: chains of nodes behind a row of heads. The nodes lie on pages that are
named by numbers; a walk that does not end is undefined for every fuel. -/

namespace Pke.Files

open Lib Flow Function

abbrev hashTableSize : ℕ := 128

structure HashNode (K V : Type) where
  next : Option ℕ
  key : K
  value : Option V

structure HashTable (K V : Type) where
  head : ℕ → Option ℕ
  node : ℕ → HashNode K V

structure HashKeys (K : Type) where
  equal : K → K → Bool
  func : K → ℕ
  refl : ∀ k, equal k k = true
  symm : ∀ k l, equal k l = true → equal l k = true
  trans : ∀ k l m, equal k l = true → equal l m = true → equal k m = true
  same : ∀ k l, equal k l = true → func k = func l

section Program

variable {K V : Type} (H : HashKeys K)

def hashTableInit : Flow (HashTable K V) ℤ := do
  modify fun t => { t with head := fun i => if i < hashTableSize then none else t.head i }
  pure 0

def bucket (key : K) : Flow (HashTable K V) ℕ := if H.func key < hashTableSize then pure (H.func key) else undef

def getFrom (key : K) : ℕ → Option ℕ → Flow (HashTable K V) (Option V)
  | 0, _ => undef
  | _ + 1, none => pure none
  | n + 1, some a => do
    let t ← get
    if H.equal (t.node a).key key then pure (t.node a).value
    else getFrom key n (t.node a).next

def defalutGet (fuel : ℕ) (key : K) : Flow (HashTable K V) (Option V) := do
  let i ← bucket H key
  let t ← get
  getFrom H key fuel (t.head i)

/-- `page` is what `alloc_page` returned; if the key is there already, it is neither used nor given back. -/
def defaultPut (fuel page : ℕ) (key : K) (value : Option V) : Flow (HashTable K V) ℤ := do
  let old ← defalutGet H fuel key
  if old.isSome then pure (-1)
  else do
    let i ← bucket H key
    modify fun t => { head := update t.head i (some page), node := update t.node page ⟨t.head i, key, value⟩ }
    pure 0

inductive Link where
  | head (i : ℕ)
  | node (a : ℕ)

def HashTable.next (t : HashTable K V) : Link → Option ℕ
  | .head i => t.head i
  | .node a => (t.node a).next

def HashTable.setNext (t : HashTable K V) (b : Option ℕ) : Link → HashTable K V
  | .head i => { t with head := update t.head i b }
  | .node a => { t with node := update t.node a { t.node a with next := b } }

def eraseFrom (key : K) : ℕ → Link → Flow (HashTable K V) ℤ
  | 0, _ => undef
  | n + 1, link => do
    let t ← get
    match t.next link with
    | none => pure (-1)
    | some a =>
      if H.equal (t.node a).key key then do
        modify fun t => t.setNext (t.node a).next link
        pure 0
      else eraseFrom key n (.node a)

def defaultErase (fuel : ℕ) (key : K) : Flow (HashTable K V) ℤ := do
  let i ← bucket H key
  eraseFrom H key fuel (.head i)

end Program

section Keys

end Keys

end Pke.Files
