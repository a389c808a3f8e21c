import NeoCoin.Lib.GoMap
import NeoCoin.Lib.LinkedList

/-!
# Caches

`internal/cache`: a cache that forgets what was used least recently, and one on top of it with a limit on the size of the values. An
operation without a result panics, or its loop does not end.
-/

namespace NeoCoin.Internal

open GoLib

variable {K V : Type*} [DecidableEq K]

/-! ## The cache -/

/-- `LRU`, without the mutex and the callback: what is evicted is a result of the operations. -/
structure LRU (K V : Type*) where
  maxItems : Int
  items : GoMap K Nat
  lruList : LinkedList (K × V)

def newLRU (maxItems : Int64) : LRU K V :=
  { maxItems := if maxItems ≤ 0 then 1024 else maxItems.toInt, items := ∅, lruList := .new }

namespace LRU

/-- `evictOldest`, with the entry for the callback. -/
def evictOldest (c : LRU K V) : Option (List (K × V) × LRU K V) :=
  match c.lruList.back with
  | none => some ([], c)
  | some el =>
    match c.lruList.remove el, c.lruList.value el with
    | some list, some e => some ([e], { c with lruList := list, items := c.items.delete e.1 })
    | _, _ => none

/-- `Set`, with the entries that it evicts. -/
def set (c : LRU K V) (key : K) (val : V) : Option (List (K × V) × LRU K V) :=
  match c.items.lookup key with
  | some el =>
    match c.lruList.moveToFront el, c.lruList.value el with
    | some list, some e => some ([], { c with lruList := list.setValue el (e.1, val) })
    | _, _ => none
  | none =>
    match if c.lruList.len ≥ c.maxItems then c.evictOldest else some ([], c) with
    | none => none
    | some (evicted, c) =>
      match c.lruList.pushFront (key, val) with
      | none => none
      | some (el, list) => some (evicted, { c with lruList := list, items := c.items.set key el })

def getLookup (c : LRU K V) (key : K) : Option Nat := c.items.lookup key

def getMove (c : LRU K V) (el : Nat) : Option (LRU K V) := (c.lruList.moveToFront el).map fun list => { c with lruList := list }

/-- `Get` without another call between its two sections. -/
def get (c : LRU K V) (key : K) : Option (Option V × LRU K V) :=
  match c.getLookup key with
  | none => some (none, c)
  | some el =>
    match c.getMove el with
    | none => none
    | some c =>
      match c.lruList.value el with
      | none => none
      | some e => some (some e.2, c)

def delete (c : LRU K V) (key : K) : Option (LRU K V) :=
  match c.items.lookup key with
  | none => some c
  | some el => (c.lruList.remove el).map fun list => { c with lruList := list, items := c.items.delete key }

/-- `Clear`, with the entries for the callback. -/
def clear (c : LRU K V) : Option (List (K × V) × LRU K V) :=
  match c.lruList.elements.bind fun es => es.mapM c.lruList.value with
  | none => none
  | some evicted => some (evicted, { c with items := ∅, lruList := c.lruList.init })

def len (c : LRU K V) : Int := c.lruList.len

end LRU

inductive CacheCall (K V : Type*) where
  | set (key : K) (val : V)
  | get (key : K)
  | delete (key : K)
  | clear

def LRU.call (c : LRU K V) : CacheCall K V → Option (Option V × LRU K V)
  | .set key val => (c.set key val).map fun r => (none, r.2)
  | .get key => c.get key
  | .delete key => (c.delete key).map fun c => (none, c)
  | .clear => c.clear.map fun r => (none, r.2)

def LRU.run : List (CacheCall K V) → LRU K V → Option (List (Option V) × LRU K V)
  | [], c => some ([], c)
  | call :: rest, c =>
    match c.call call with
    | none => none
    | some (answer, c) => (run rest c).map fun r => (answer :: r.1, r.2)

/-! ## Calls of several goroutines -/

/-- A step of a goroutine: a call that is one critical section, or one of the two sections of a `Get`. -/
inductive CacheStep (K V : Type*) where
  | set (key : K) (val : V)
  | lookup (goroutine : Nat) (key : K)
  | move (goroutine : Nat)
  | delete (key : K)
  | clear

/-- A cache, and the elements that goroutines have looked up and not yet moved. -/
structure SharedLRU (K V : Type*) where
  cache : LRU K V
  found : Nat → Option Nat

def newSharedLRU (maxItems : Int64) : SharedLRU K V := { cache := newLRU maxItems, found := fun _ => none }

inductive SharedLRU.Steps (s : SharedLRU K V) : CacheStep K V → SharedLRU K V → Prop where
  | set {key : K} {val : V} {evicted : List (K × V)} {c : LRU K V} (h : s.cache.set key val = some (evicted, c)) :
      Steps s (.set key val) { s with cache := c }
  | lookup {g : Nat} {key : K} (h : s.found g = none) :
      Steps s (.lookup g key) { s with found := Function.update s.found g (s.cache.getLookup key) }
  | move {g el : Nat} {c : LRU K V} (hfound : s.found g = some el) (h : s.cache.getMove el = some c) :
      Steps s (.move g) { cache := c, found := Function.update s.found g none }
  | delete {key : K} {c : LRU K V} (h : s.cache.delete key = some c) : Steps s (.delete key) { s with cache := c }
  | clear {evicted : List (K × V)} {c : LRU K V} (h : s.cache.clear = some (evicted, c)) : Steps s .clear { s with cache := c }

/-! ## A limit on the size of the values -/

structure SizeLimitedCache (K V : Type*) where
  lru : LRU K V
  maxBytes : Int64
  currentBytes : Int64

def newSizeLimitedCache (maxBytes : Int64) : SizeLimitedCache K V :=
  let items := maxBytes / 1024
  { lru := newLRU (if items < 100 then 100 else items), maxBytes, currentBytes := 0 }

namespace SizeLimitedCache

variable (valueSize : V → Int64)

def onEvict (evicted : List (K × V)) (currentBytes : Int64) : Int64 :=
  evicted.foldl (fun bytes e => bytes - valueSize e.2) currentBytes

/-- The loop of `Set`: a cleared list has no elements, so the loop clears at most once. -/
def makeRoom (sz : Int64) (c : SizeLimitedCache K V) : Option (SizeLimitedCache K V) :=
  if c.currentBytes + sz > c.maxBytes ∧ c.lru.len > 0 then
    c.lru.clear.map fun r => { c with lru := r.2, currentBytes := 0 }
  else some c

def set (c : SizeLimitedCache K V) (key : K) (val : V) : Option (SizeLimitedCache K V) :=
  let sz := valueSize val
  match makeRoom sz c with
  | none => none
  | some c =>
    let c := { c with currentBytes := c.currentBytes + sz }
    (c.lru.set key val).map fun r => { c with lru := r.2, currentBytes := onEvict valueSize r.1 c.currentBytes }

def get (c : SizeLimitedCache K V) (key : K) : Option (Option V × SizeLimitedCache K V) :=
  (c.lru.get key).map fun r => (r.1, { c with lru := r.2 })

def bytesUsed (c : SizeLimitedCache K V) : Int64 := c.currentBytes

end SizeLimitedCache

inductive SizeLimitedCall (K V : Type*) where
  | set (key : K) (val : V)
  | get (key : K)

def SizeLimitedCache.call (valueSize : V → Int64) (c : SizeLimitedCache K V) : SizeLimitedCall K V → Option (SizeLimitedCache K V)
  | .set key val => c.set valueSize key val
  | .get key => (c.get key).map Prod.snd

end NeoCoin.Internal
