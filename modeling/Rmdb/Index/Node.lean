import Rmdb.Lib.Bisect

namespace Rmdb

abbrev Bytes := List UInt8

/-- A record position: page number and slot number in a table file. Inside an
internal node the same pair holds a child page number and the slot `-1`. -/
structure Rid where
  pageNo : Int
  slotNo : Int
deriving DecidableEq, Repr

/-- What the index code needs of a key: the column order `ix_compare`, the byte
comparison `memcmp` over `col_tot_len_` bytes, and the all-zero key that a freshly
cleared page holds. -/
class IxKey (K : Type) where
  ixCompare : K → K → Int
  memcmp : K → K → Int
  zero : K

/-- The contents of an index page. `pairs` is the live part of the `keys` and `rids`
arrays (`num_key` is its length); `stale` is what the arrays still hold behind it,
since `erase_pair` and `split` shrink `num_key` without clearing memory. Slots behind
both lists hold zeros. `insert_pairs` on an internal node also shifts one stale rid;
no function reads a stale rid of an internal node, so keys and rids stay zipped. -/
structure IxNode (K : Type) where
  parent : Int
  isLeaf : Bool
  prevLeaf : Int
  nextLeaf : Int
  pairs : List (K × Rid)
  stale : List (K × Rid)

namespace IxNode

open IxKey

variable {K : Type} [IxKey K]

def getSize (n : IxNode K) : Nat := n.pairs.length

def slot (n : IxNode K) (i : Nat) : K × Rid :=
  (n.pairs ++ n.stale).getD i (zero, ⟨0, 0⟩)

def getKey (n : IxNode K) (i : Nat) : K := (n.slot i).1

def getRid (n : IxNode K) (i : Nat) : Rid := (n.slot i).2

def valueAt (n : IxNode K) (i : Nat) : Int := (n.getRid i).pageNo

def isRootPage (n : IxNode K) : Bool := n.parent = -1

def lowerBound (n : IxNode K) (target : K) : Nat :=
  Bisect.loop (fun i => ixCompare (n.getKey i) target < 0) n.getSize 0 n.getSize

/-- Searches one key fewer and decides the last step by an extra comparison. -/
def upperBound (n : IxNode K) (target : K) : Nat :=
  let first := Bisect.loop (fun i => ixCompare (n.getKey i) target ≤ 0) (n.getSize - 1) 0 (n.getSize - 1)
  if ixCompare (n.getKey first) target > 0 then first else n.getSize

/-- The position found is not compared with `num_key` before its key is read. -/
def leafLookup (n : IxNode K) (key : K) : Option Rid :=
  let keyIdx := n.lowerBound key
  if memcmp (n.getKey keyIdx) key = 0 then some (n.getRid keyIdx) else none

def internalLookup (n : IxNode K) (key : K) : Int :=
  let keyIdx := n.lowerBound key
  if keyIdx = 0 then n.valueAt keyIdx
  else if keyIdx < n.getSize ∧ memcmp (n.getKey keyIdx) key = 0 then n.valueAt keyIdx
  else n.valueAt (keyIdx - 1)

def insertPairs (n : IxNode K) (pos : Nat) (new : List (K × Rid)) : IxNode K :=
  { n with pairs := n.pairs.take pos ++ new ++ n.pairs.drop pos, stale := n.stale.drop new.length }

def insert (n : IxNode K) (key : K) (value : Rid) : IxNode K :=
  let pos := n.lowerBound key
  if n.getSize ≤ pos ∨ memcmp (n.getKey pos) key ≠ 0 then n.insertPairs pos [(key, value)] else n

/-- Closing the gap leaves a second copy of the last pair behind the live part. -/
def erasePair (n : IxNode K) (pos : Nat) : IxNode K :=
  { n with pairs := n.pairs.eraseIdx pos, stale := n.pairs.getLast?.toList ++ n.stale }

def remove (n : IxNode K) (key : K) (rid : Option Rid) : IxNode K :=
  let pos := n.lowerBound key
  if pos < n.getSize ∧ ixCompare (n.getKey pos) key = 0 ∧ (rid = none ∨ rid = some (n.getRid pos)) then
    n.erasePair pos
  else n

/-- `page_hdr->num_key = size`, for a size below the current one. -/
def truncate (n : IxNode K) (size : Nat) : IxNode K :=
  { n with pairs := n.pairs.take size, stale := n.pairs.drop size ++ n.stale }

def setKey (n : IxNode K) (i : Nat) (key : K) : IxNode K :=
  { n with pairs := n.pairs.modify i (fun e => (key, e.2)) }

def findChild (n : IxNode K) (child : Int) : Nat := n.pairs.findIdx (fun e => e.2.pageNo == child)

end IxNode

end Rmdb
