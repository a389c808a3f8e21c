import Mathlib.Logic.Function.Basic
import NeoCoin.Types

/-!
# The trie

`Trie` of `internal/trie/trie.go`. A nil pointer is a node of its own, and a node that is written to is replaced by a new one: no two
nodes of a trie share a child. An index that is out of range is a panic; it can only come from the byte -1 that `compact` writes, so that
`insert` alone may panic.
-/

namespace NeoCoin.Internal

open GoLib

-- named, so that the definitions on children do not each hold a proof of it
instance neZero_nibble : NeZero 16 := inferInstance

/-- `NodeType`; a node is never an `EmptyNode`. -/
inductive NodeType where
  | leaf
  | extension
  | branch
  deriving DecidableEq, Repr

/-- `*Node`. -/
inductive Trie.Node where
  | nil
  | mk (type : NodeType) (keyPath : Bytes) (value : GoSlice) (children : Fin 16 → Trie.Node) (hash : Bytes)

structure Trie where
  root : Trie.Node := .nil

namespace Trie

/-! ## Paths -/

def decodeKey (key : Bytes) : Bytes :=
  let b : Bytes := match hexDecode key with
    | .ok b => b
    | .error _ => key
  b.flatMap fun (x : UInt8) => [x >>> 4, x &&& 0x0F]

def joinNibbles : Bytes → Bytes
  | a :: b :: rest => (a <<< 4 ||| b) :: joinNibbles rest
  | _ => []

/-- `encodeKey`. A nibble that is left over is dropped. -/
def encodeKey (nibbles : Bytes) : Bytes := hexEncode (joinNibbles nibbles)

def index (b : UInt8) : Option (Fin 16) := if h : b.toNat < 16 then some ⟨b.toNat, h⟩ else none

/-- The number of bytes that two paths have in common at their start. -/
def commonPrefix : Bytes → Bytes → Nat
  | a :: as, b :: bs => if a = b then commonPrefix as bs + 1 else 0
  | _, _ => 0

namespace Node

def isNil : Node → Bool
  | .nil => true
  | .mk .. => false

/-- `n.Hash`, or what `rehash` writes for no child. -/
def hash : Node → Bytes
  | .nil => []
  | .mk _ _ _ _ hash => hash

def leaf (keyPath : Bytes) (value : GoSlice) : Node := .mk .leaf keyPath value (fun _ => .nil) []

def extension (keyPath : Bytes) (children : Fin 16 → Node) : Node := .mk .extension keyPath none children []

/-- `[16]*Node\x7bchild\x7d`. -/
def single (child : Node) : Fin 16 → Node := fun i => if i = 0 then child else .nil

def live (children : Fin 16 → Node) : List (Fin 16) := (List.finRange 16).filter fun i => !(children i).isNil

def entries (value : GoSlice) (children : Fin 16 → Node) : Nat := (live children).length + if value = none then 0 else 1

/-! ## Hashes -/

def childHash : Node → Bytes
  | .nil => List.replicate 32 0
  | .mk _ _ _ _ hash => hash

/-- `rehash`. Only the child of an extension is hashed again. -/
def rehash (C : Crypto) : Node → Node
  | .nil => .nil
  | .mk .leaf keyPath value children _ => .mk .leaf keyPath value children (C.sha256 (0x00 :: (keyPath ++ value.bytes)))
  | .mk .extension keyPath value children _ =>
    let child := rehash C (children 0)
    .mk .extension keyPath value (Function.update children 0 child) (C.sha256 (0x01 :: (keyPath ++ child.hash)))
  | .mk .branch keyPath value children _ =>
    .mk .branch keyPath value children
      (C.sha256 (0x02 :: ((List.finRange 16).flatMap (fun i => (children i).childHash) ++ value.bytes)))

/-! ## Reading -/

def get : Node → Bytes → Option GoSlice
  | .nil, _ => none
  | .mk type _ value _ _, [] => if type = .branch ∧ value ≠ none then some value else none
  | .mk .leaf keyPath value _ _, path => if path = keyPath then some value else none
  | .mk .extension keyPath _ children _, path =>
    if keyPath.isPrefixOf path then (children 0).get (path.drop keyPath.length) else none
  | .mk .branch _ _ children _, b :: rest =>
    match index b with
    | none => none
    | some i => (children i).get rest

/-! ## Writing -/

/-- What both cases that split a node do with the rest of a path: the value of the new branch if nothing is left, otherwise a child of
it. -/
def place (slots : GoSlice × (Fin 16 → Node)) (rest : Bytes) (value : GoSlice) (child : Bytes → Node) :
    Option (GoSlice × (Fin 16 → Node)) :=
  match rest with
  | [] => some (value, slots.2)
  | b :: rest => (index b).map fun i => (slots.1, Function.update slots.2 i (child rest))

/-- The new branch, behind an extension if the paths have something in common. -/
def splitAt (C : Crypto) (common : Bytes) (slots : GoSlice × (Fin 16 → Node)) : Node :=
  let branch := rehash C (.mk .branch [] slots.1 slots.2 [])
  if common = [] then branch else extension common (single branch)

def insertIntoLeaf (C : Crypto) (keyPath : Bytes) (leafValue : GoSlice) (path value : Bytes) : Option Node := do
  let cp := commonPrefix keyPath path
  if cp = keyPath.length ∧ cp = path.length then some (leaf keyPath (some value))
  else
    let slots ← place (none, fun _ => .nil) (keyPath.drop cp) leafValue fun rest => leaf rest leafValue
    let slots ← place slots (path.drop cp) (some value) fun rest => leaf rest (some value)
    some (splitAt C (keyPath.take cp) slots)

/-- The end of `insertIntoExtension`, where the path leaves the extension. -/
def splitExtension (C : Crypto) (keyPath : Bytes) (children : Fin 16 → Node) (path value : Bytes) : Option Node := do
  let cp := commonPrefix keyPath path
  let slots ← place (none, fun _ => .nil) (keyPath.drop cp) none fun rest => extension rest children
  let slots ← place slots (path.drop cp) (some value) fun rest => leaf rest (some value)
  some (splitAt C (keyPath.take cp) slots)

/-- `insert`; `none` if it panics. -/
def insert (C : Crypto) : Node → Bytes → Bytes → Option Node
  | .nil, path, value => some (leaf path (some value))
  | .mk .leaf keyPath leafValue _ _, path, value => insertIntoLeaf C keyPath leafValue path value
  | .mk .extension keyPath extValue children hash, path, value =>
    if commonPrefix keyPath path = keyPath.length then
      (insert C (children 0) (path.drop keyPath.length) value).map fun child =>
        rehash C (.mk .extension keyPath extValue (Function.update children 0 child) hash)
    else splitExtension C keyPath children path value
  | .mk .branch keyPath _ children hash, [], value => some (rehash C (.mk .branch keyPath (some value) children hash))
  | .mk .branch keyPath branchValue children hash, b :: rest, value =>
    match index b with
    | none => none
    | some i =>
      (insert C (children i) rest value).map fun child =>
        rehash C (.mk .branch keyPath branchValue (Function.update children i child) hash)

/-! ## Deleting -/

/-- `compact`, on a branch. -/
def compact (C : Crypto) (keyPath : Bytes) (value : GoSlice) (children : Fin 16 → Node) (hash : Bytes) : Node :=
  let branch := rehash C (.mk .branch keyPath value children hash)
  match entries value children, (live children).getLast? with
  | 0, _ => .nil
  -- there is no last child, and its number is -1
  | 1, none => leaf [255] value
  | 1, some i =>
    match children i with
    | .mk .extension childPath childValue grandchildren childHash =>
      rehash C (.mk .extension (UInt8.ofNat i :: childPath) childValue grandchildren childHash)
    | .mk .leaf childPath childValue _ _ => leaf (UInt8.ofNat i :: childPath) childValue
    | _ => branch
  | _, _ => branch

def delete (C : Crypto) : Node → Bytes → Node
  | .nil, _ => .nil
  | .mk .leaf keyPath value children hash, path => if path = keyPath then .nil else .mk .leaf keyPath value children hash
  | .mk .extension keyPath value children hash, path =>
    if keyPath.isPrefixOf path then
      match (children 0).delete C (path.drop keyPath.length) with
      | .nil => .nil
      | .mk type childPath childValue grandchildren childHash =>
        -- the node stays an extension, also where it takes the path and the value of a leaf
        if type = .leaf ∧ value = none then rehash C (.mk .extension (keyPath ++ childPath) childValue grandchildren hash)
        else
          let child := .mk type childPath childValue grandchildren childHash
          rehash C (.mk .extension keyPath value (Function.update children 0 child) hash)
    else .mk .extension keyPath value children hash
  | .mk .branch keyPath _ children hash, [] => compact C keyPath none children hash
  | .mk .branch keyPath value children hash, b :: rest =>
    match index b with
    | none => .mk .branch keyPath value children hash
    | some i => compact C keyPath value (Function.update children i ((children i).delete C rest)) hash

/-! ## Iterating -/

/-- `iterate`: what the callback is called with. -/
def iterate : Node → Bytes → List (Bytes × GoSlice)
  | .nil, _ => []
  | .mk .leaf keyPath value _ _, front => [(encodeKey (front ++ keyPath), value)]
  | .mk .extension keyPath _ children _, front => (children 0).iterate (front ++ keyPath)
  | .mk .branch _ value children _, front =>
    (List.finRange 16).flatMap (fun i => (children i).iterate (front ++ [UInt8.ofNat i])) ++
      if value = none then [] else [(encodeKey front, value)]

end Node

/-! ## Tries -/

def get (t : Trie) (key : Bytes) : Option GoSlice := t.root.get (decodeKey key)

def delete (C : Crypto) (t : Trie) (key : Bytes) : Trie := ⟨(t.root.delete C (decodeKey key)).rehash C⟩

/-- `Put`; `none` if it panics. -/
def put (C : Crypto) (t : Trie) (key : Bytes) : GoSlice → Option Trie
  | none => some (t.delete C key)
  | some value => (t.root.insert C (decodeKey key) value).map fun root => ⟨root.rehash C⟩

def rootHash (C : Crypto) (t : Trie) : Bytes :=
  match t.root with
  | .nil => C.sha256 []
  | root => root.hash

def size (t : Trie) : Nat := (t.root.iterate []).length

/-- What `Next` gives for an `Iterator`, one after another. The keys are sorted, and the values are not moved with them. -/
def iterator (t : Trie) : List (Bytes × GoSlice) :=
  (((t.root.iterate []).map Prod.fst).insertionSort (· ≤ ·)).zip ((t.root.iterate []).map Prod.snd)

end Trie

end NeoCoin.Internal
