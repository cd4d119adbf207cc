import Rmdb.Index.Node

namespace Rmdb

inductive IxError
  | internalError
  | assertFailed
  | indexEntryNotFound
  | outOfFuel
deriving DecidableEq, Repr

abbrev Ix := Except IxError

structure IxFileHdr where
  numPages : Int
  rootPage : Int
  btreeOrder : Nat
  firstLeaf : Int
  lastLeaf : Int

/-- An open index: the header held in memory, the current contents of every page of the
file as `fetch_node` returns them, and the page counter `fd2pageno_[fd]`. -/
structure IxIndexHandle (K : Type) where
  fileHdr : IxFileHdr
  pages : Int → Option (IxNode K)
  fd2pageno : Nat

structure Iid where
  pageNo : Int
  slotNo : Nat
deriving DecidableEq, Repr

namespace IxIndexHandle

open IxKey

variable {K : Type} [IxKey K]

omit [IxKey K] in
/-- A page number outside the file makes `read_page` throw `InternalError`. -/
def fetchNode (ih : IxIndexHandle K) (p : Int) : Ix (IxNode K) :=
  match ih.pages p with
  | some n => .ok n
  | none => .error .internalError

def writeNode (ih : IxIndexHandle K) (p : Int) (n : IxNode K) : IxIndexHandle K :=
  { ih with pages := Function.update ih.pages p (some n) }

/-- The new page is cleared by `update_page`. -/
def createNode (ih : IxIndexHandle K) : Int × IxIndexHandle K :=
  (ih.fd2pageno,
    { fileHdr := { ih.fileHdr with numPages := ih.fileHdr.numPages + 1 }
      pages := Function.update ih.pages ih.fd2pageno (some ⟨0, false, 0, 0, [], []⟩)
      fd2pageno := ih.fd2pageno + 1 })

def findChild (parent : IxNode K) (child : Int) : Ix Nat :=
  let rank := parent.findChild child
  if rank < parent.getSize then .ok rank else .error .assertFailed

/-- The descent of `find_leaf_page`; it visits a page at most once, so the number of
pages handed out bounds the number of rounds. -/
def descend (ih : IxIndexHandle K) (key : K) : Nat → Int → Ix Int
  | 0, _ => .error .outOfFuel
  | fuel + 1, p => do
      let node ← ih.fetchNode p
      if node.isLeaf then .ok p else descend ih key fuel (node.internalLookup key)

def findLeafPage (ih : IxIndexHandle K) (key : K) : Ix Int :=
  ih.descend key ih.fd2pageno ih.fileHdr.rootPage

def getValue (ih : IxIndexHandle K) (key : K) : Ix (Option Rid) := do
  let leaf ← ih.findLeafPage key
  let node ← ih.fetchNode leaf
  return node.leafLookup key

def maintainChild (ih : IxIndexHandle K) (p : Int) (childIdx : Nat) : Ix (IxIndexHandle K) := do
  let node ← ih.fetchNode p
  if node.isLeaf then return ih
  else
    let childPageNo := node.valueAt childIdx
    let child ← ih.fetchNode childPageNo
    return ih.writeNode childPageNo { child with parent := p }

def maintainChildren (ih : IxIndexHandle K) (p : Int) (start : Nat) : Nat → Ix (IxIndexHandle K)
  | 0 => .ok ih
  | count + 1 => do
      let ih ← ih.maintainChild p start
      maintainChildren ih p (start + 1) count

def maintainParentLoop (ih : IxIndexHandle K) : Nat → Int → Ix (IxIndexHandle K)
  | 0, _ => .error .outOfFuel
  | fuel + 1, p => do
      let curr ← ih.fetchNode p
      if curr.parent = -1 then return ih
      else
        let parent ← ih.fetchNode curr.parent
        let rank ← findChild parent p
        if memcmp (parent.getKey rank) (curr.getKey 0) = 0 then return ih
        else
          maintainParentLoop (ih.writeNode curr.parent (parent.setKey rank (curr.getKey 0))) fuel
            curr.parent

def maintainParent (ih : IxIndexHandle K) (p : Int) : Ix (IxIndexHandle K) :=
  ih.maintainParentLoop ih.fd2pageno p

/-- `if (memcmp(leaf->get_key(0), key) == 0) maintain_parent(leaf)`, with which both
`insert_entry` and `delete_entry` go on after they have changed the leaf. -/
def maintainFirst (ih : IxIndexHandle K) (leaf : Int) (node : IxNode K) (key : K) : Ix (IxIndexHandle K) :=
  if memcmp (node.getKey 0) key = 0 then ih.maintainParent leaf else .ok ih

def split (ih : IxIndexHandle K) (p : Int) : Ix (Int × IxIndexHandle K) := do
  let (q, ih) := ih.createNode
  let node ← ih.fetchNode p
  let newNode ← ih.fetchNode q
  let mid := node.getSize / 2
  let newNode := { newNode with parent := node.parent, isLeaf := node.isLeaf }
  let newNode := newNode.insertPairs 0 (node.pairs.drop mid)
  let node := node.truncate mid
  if node.isLeaf then
    let newNode := { newNode with prevLeaf := p, nextLeaf := node.nextLeaf }
    let node := { node with nextLeaf := q }
    let ih := (ih.writeNode q newNode).writeNode p node
    let nextNode ← ih.fetchNode newNode.nextLeaf
    return (q, ih.writeNode newNode.nextLeaf { nextNode with prevLeaf := q })
  else
    let ih := (ih.writeNode q newNode).writeNode p node
    let ih ← ih.maintainChildren q 0 newNode.getSize
    return (q, ih)

def insertIntoParent : Nat → IxIndexHandle K → Int → K → Int → Ix (IxIndexHandle K)
  | 0, _, _, _, _ => .error .outOfFuel
  | fuel + 1, ih, oldPage, key, newPage => do
      let oldNode ← ih.fetchNode oldPage
      if oldNode.isRootPage then
        let (r, ih) := ih.createNode
        let root ← ih.fetchNode r
        let oldNode ← ih.fetchNode oldPage
        let newNode ← ih.fetchNode newPage
        let root := { root with isLeaf := false, parent := -1 }
        let root := root.insertPairs 0 [(oldNode.getKey 0, ⟨oldPage, -1⟩)]
        let root := root.insertPairs 1 [(newNode.getKey 0, ⟨newPage, -1⟩)]
        let ih := ih.writeNode r root
        let ih := ih.writeNode oldPage { oldNode with parent := r }
        let ih := ih.writeNode newPage { newNode with parent := r }
        return { ih with fileHdr := { ih.fileHdr with rootPage := r } }
      else
        let parent ← ih.fetchNode oldNode.parent
        let ih := ih.writeNode oldNode.parent (parent.insert key ⟨newPage, -1⟩)
        if (parent.insert key ⟨newPage, -1⟩).getSize = ih.fileHdr.btreeOrder then
          let (newParent, ih) ← ih.split oldNode.parent
          let newParentNode ← ih.fetchNode newParent
          insertIntoParent fuel ih oldNode.parent (newParentNode.getKey 0) newParent
        else return ih

/-- Returns the leaf's page number, the `success` flag and the new state. -/
def insertEntry (ih : IxIndexHandle K) (key : K) (value : Rid) : Ix (Int × Bool × IxIndexHandle K) := do
  let leaf ← ih.findLeafPage key
  let node ← ih.fetchNode leaf
  let node' := node.insert key value
  let ih := ih.writeNode leaf node'
  if node'.getSize = node.getSize then return (leaf, false, ih)
  else
    let ih ← ih.maintainFirst leaf node' key
    if node'.getSize = ih.fileHdr.btreeOrder then
      let (newLeaf, ih) ← ih.split leaf
      let newNode ← ih.fetchNode newLeaf
      let ih ← insertIntoParent ih.fd2pageno ih leaf (newNode.getKey 0) newLeaf
      let ih := if ih.fileHdr.lastLeaf = leaf then
          { ih with fileHdr := { ih.fileHdr with lastLeaf := newLeaf } } else ih
      return (leaf, true, ih)
    else return (leaf, true, ih)

/-- The page itself is left in the file and its number is never handed out again. -/
def releaseNodeHandle (ih : IxIndexHandle K) : IxIndexHandle K :=
  { ih with fileHdr := { ih.fileHdr with numPages := ih.fileHdr.numPages - 1 } }

def eraseLeaf (ih : IxIndexHandle K) (p : Int) : Ix (IxIndexHandle K) := do
  let leaf ← ih.fetchNode p
  if leaf.isLeaf then
    let prev ← ih.fetchNode leaf.prevLeaf
    let ih := ih.writeNode leaf.prevLeaf { prev with nextLeaf := leaf.nextLeaf }
    let leaf ← ih.fetchNode p
    let next ← ih.fetchNode leaf.nextLeaf
    return ih.writeNode leaf.nextLeaf { next with prevLeaf := leaf.prevLeaf }
  else .error .assertFailed

/-- What `coalesce` does with the emptied node when it is a leaf. -/
def retireLeaf (ih : IxIndexHandle K) (neighbor node : Int) (isLeaf : Bool) : Ix (IxIndexHandle K) :=
  if isLeaf then
    let ih := if node = ih.fileHdr.lastLeaf then
      { ih with fileHdr := { ih.fileHdr with lastLeaf := neighbor } } else ih
    ih.eraseLeaf node
  else .ok ih

def adjustRoot (ih : IxIndexHandle K) (root : Int) : Ix (Bool × IxIndexHandle K) := do
  let oldRoot ← ih.fetchNode root
  if oldRoot.isLeaf then
    if oldRoot.getSize = 0 then
      let ih := ih.releaseNodeHandle
      return (true, { ih with fileHdr := { ih.fileHdr with rootPage := -1 } })
    else return (false, ih)
  else if oldRoot.getSize = 1 then
    let newRoot := oldRoot.valueAt 0
    let node ← ih.fetchNode newRoot
    let ih := ih.writeNode newRoot { node with parent := -1 }
    return (true, { ih with fileHdr := { ih.fileHdr with rootPage := newRoot } })
  else return (false, ih)

def redistribute (ih : IxIndexHandle K) (neighbor node parent : Int) (index : Nat) :
    Ix (IxIndexHandle K) := do
  let neighborNode ← ih.fetchNode neighbor
  let thisNode ← ih.fetchNode node
  let parentNode ← ih.fetchNode parent
  if index = 0 then
    let pair := neighborNode.slot 0
    let thisNode := thisNode.insertPairs thisNode.getSize [pair]
    let neighborNode := neighborNode.erasePair 0
    let parentNode := parentNode.setKey 1 (neighborNode.getKey 0)
    let ih := ((ih.writeNode node thisNode).writeNode neighbor neighborNode).writeNode parent parentNode
    ih.maintainChild node (thisNode.getSize - 1)
  else
    let pair := neighborNode.slot (neighborNode.getSize - 1)
    let thisNode := thisNode.insertPairs 0 [pair]
    let neighborNode := neighborNode.erasePair (neighborNode.getSize - 1)
    let parentNode := parentNode.setKey index (thisNode.getKey 0)
    let ih := ((ih.writeNode node thisNode).writeNode neighbor neighborNode).writeNode parent parentNode
    ih.maintainChild node 0

/-- Merges `node` into its left sibling `neighbor`; with `index = 0` the two are
swapped first. `again` is the call back into `coalesce_or_redistribute`. -/
def coalesce (again : IxIndexHandle K → Int → Ix (Bool × IxIndexHandle K))
    (ih : IxIndexHandle K) (neighbor node parent : Int) (index : Nat) : Ix (Bool × IxIndexHandle K) := do
  let (neighbor, node, index) := if index = 0 then (node, neighbor, 1) else (neighbor, node, index)
  let neighborNode ← ih.fetchNode neighbor
  let thisNode ← ih.fetchNode node
  let size := neighborNode.getSize
  let ih := ih.writeNode neighbor (neighborNode.insertPairs size thisNode.pairs)
  let ih ← ih.maintainChildren neighbor size thisNode.getSize
  let ih ← ih.retireLeaf neighbor node thisNode.isLeaf
  let ih := ih.releaseNodeHandle
  let parentNode ← ih.fetchNode parent
  if index < parentNode.getSize then
    let parentNode := parentNode.erasePair index
    let ih := ih.writeNode parent parentNode
    if parentNode.getSize < ih.fileHdr.btreeOrder / 2 then again ih parent
    else return (false, ih)
  else .error .assertFailed

def coalesceOrRedistribute : Nat → IxIndexHandle K → Int → Ix (Bool × IxIndexHandle K)
  | 0, _, _ => .error .outOfFuel
  | fuel + 1, ih, p => do
      let node ← ih.fetchNode p
      if node.isRootPage then ih.adjustRoot p
      else if ih.fileHdr.btreeOrder / 2 ≤ node.getSize then return (false, ih)
      else
        let parent ← ih.fetchNode node.parent
        let index ← findChild parent p
        let neighbor := if index = 0 then parent.valueAt 1 else parent.valueAt (index - 1)
        let neighborNode ← ih.fetchNode neighbor
        if ih.fileHdr.btreeOrder ≤ node.getSize + neighborNode.getSize then
          let ih ← ih.redistribute neighbor p node.parent index
          return (false, ih)
        else coalesce (coalesceOrRedistribute fuel) ih neighbor p node.parent index

/-- Always returns true; the argument order is that of the source. -/
def deleteEntry (ih : IxIndexHandle K) (key : K) (rid : Option Rid) : Ix (Bool × IxIndexHandle K) := do
  let leaf ← ih.findLeafPage key
  let node ← ih.fetchNode leaf
  let node := node.remove key rid
  let ih := ih.writeNode leaf node
  let ih ← ih.maintainFirst leaf node key
  let (_, ih) ← coalesceOrRedistribute ih.fd2pageno ih leaf
  return (true, ih)

def getRid (ih : IxIndexHandle K) (iid : Iid) : Ix Rid := do
  let node ← ih.fetchNode iid.pageNo
  if node.getSize ≤ iid.slotNo then .error .indexEntryNotFound
  else return node.getRid iid.slotNo

def leafBegin (ih : IxIndexHandle K) : Iid := ⟨ih.fileHdr.firstLeaf, 0⟩

def leafEnd (ih : IxIndexHandle K) : Ix Iid := do
  let node ← ih.fetchNode ih.fileHdr.lastLeaf
  return ⟨ih.fileHdr.lastLeaf, node.getSize⟩

/-- The part `lower_bound` and `upper_bound` share after the in-node search. -/
def boundAt (ih : IxIndexHandle K) (leaf : Int) (node : IxNode K) (pos : Nat) : Ix Iid :=
  if pos = node.getSize ∧ leaf ≠ ih.fileHdr.lastLeaf then do
    let _ ← ih.fetchNode node.nextLeaf
    return ⟨node.nextLeaf, 0⟩
  else return ⟨leaf, pos⟩

def lowerBound (ih : IxIndexHandle K) (key : K) : Ix Iid := do
  let leaf ← ih.findLeafPage key
  let node ← ih.fetchNode leaf
  ih.boundAt leaf node (node.lowerBound key)

def upperBound (ih : IxIndexHandle K) (key : K) : Ix Iid := do
  let leaf ← ih.findLeafPage key
  let node ← ih.fetchNode leaf
  ih.boundAt leaf node (node.upperBound key)

def scanNext (ih : IxIndexHandle K) (iid last : Iid) : Ix Iid :=
  if iid = last then .error .assertFailed
  else do
    let node ← ih.fetchNode iid.pageNo
    if node.isLeaf ∧ iid.slotNo < node.getSize then
      if iid.pageNo ≠ ih.fileHdr.lastLeaf ∧ iid.slotNo + 1 = node.getSize then return ⟨node.nextLeaf, 0⟩
      else return ⟨iid.pageNo, iid.slotNo + 1⟩
    else .error .assertFailed

def scanFrom (ih : IxIndexHandle K) (last : Iid) : Nat → Iid → Ix (List (K × Rid))
  | 0, iid => if iid = last then .ok [] else .error .outOfFuel
  | fuel + 1, iid =>
      if iid = last then .ok []
      else do
        let rid ← ih.getRid iid
        let node ← ih.fetchNode iid.pageNo
        let next ← ih.scanNext iid last
        let rest ← ih.scanFrom last fuel next
        return (node.getKey iid.slotNo, rid) :: rest

end IxIndexHandle

end Rmdb
