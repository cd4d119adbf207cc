import Rmdb.Index.Handle
import Rmdb.Lib.PinTrace

namespace Rmdb

abbrev PinIx := Traced (PinEvent Int) IxError

namespace IxPins

open IxKey Traced

variable {K : Type}

/-- A page that cannot be read is not pinned. -/
def fetchNode (ih : IxIndexHandle K) (p : Int) : PinIx (IxNode K) :=
  match ih.fetchNode p with
  | .ok n => ⟨[.pin p], .ok n⟩
  | .error e => ⟨[], .error e⟩

def unpinPage (p : Int) : PinIx PUnit := emit (.unpin p)

def touch (p : Int) : PinIx PUnit := emit (.touch p)

def read (ih : IxIndexHandle K) (p : Int) : PinIx (IxNode K) := do
  touch p
  lift (ih.fetchNode p)

/-- `new_page` gives the page out pinned. -/
def createNode (ih : IxIndexHandle K) : PinIx (Int × IxIndexHandle K) :=
  ⟨[.pin ih.createNode.1], .ok ih.createNode⟩

variable [IxKey K]

def descend (ih : IxIndexHandle K) (key : K) : Nat → Int → PinIx Int
  | 0, _ => lift (.error .outOfFuel)
  | fuel + 1, p => do
      let node ← read ih p
      if node.isLeaf then return p
      else
        let child := node.internalLookup key
        let _ ← fetchNode ih child
        unpinPage p
        descend ih key fuel child

/-- The leaf is left pinned. -/
def findLeafPage (ih : IxIndexHandle K) (key : K) : PinIx Int := do
  let _ ← fetchNode ih ih.fileHdr.rootPage
  descend ih key ih.fd2pageno ih.fileHdr.rootPage

def getValue (ih : IxIndexHandle K) (key : K) : PinIx (Option Rid) := do
  let leaf ← findLeafPage ih key
  let node ← read ih leaf
  unpinPage leaf
  return node.leafLookup key

def maintainChild (ih : IxIndexHandle K) (p : Int) (childIdx : Nat) : PinIx (IxIndexHandle K) := do
  let node ← read ih p
  if node.isLeaf then return ih
  else
    let childPageNo := node.valueAt childIdx
    let child ← fetchNode ih childPageNo
    touch childPageNo
    unpinPage childPageNo
    return ih.writeNode childPageNo { child with parent := p }

def maintainChildren (ih : IxIndexHandle K) (p : Int) (start : Nat) : Nat → PinIx (IxIndexHandle K)
  | 0 => return ih
  | count + 1 => do
      let ih ← maintainChild ih p start
      maintainChildren ih p (start + 1) count

/-- `held` says that `curr != node`: the loop has fetched the node itself. -/
def maintainParentLoop (ih : IxIndexHandle K) (held : Bool) : Nat → Int → PinIx (IxIndexHandle K)
  | 0, _ => lift (.error .outOfFuel)
  | fuel + 1, p => do
      let curr ← read ih p
      if curr.parent = -1 then return ih
      else
        let parent ← fetchNode ih curr.parent
        touch curr.parent
        let rank ← lift (IxIndexHandle.findChild parent p)
        touch p
        if IxKey.memcmp (parent.getKey rank) (curr.getKey 0) = 0 then
          unpinPage curr.parent
          return ih
        else
          touch curr.parent
          (if held then unpinPage p else pure ⟨⟩ : PinIx PUnit)
          maintainParentLoop (ih.writeNode curr.parent (parent.setKey rank (curr.getKey 0)))
            true fuel curr.parent

def maintainFirst (ih : IxIndexHandle K) (leaf : Int) (node : IxNode K) (key : K) :
    PinIx (IxIndexHandle K) := do
  touch leaf
  if IxKey.memcmp (node.getKey 0) key = 0 then maintainParentLoop ih false ih.fd2pageno leaf else return ih

/-- The new node is left pinned. -/
def split (ih : IxIndexHandle K) (p : Int) : PinIx (Int × IxIndexHandle K) := do
  let (q, ih) ← createNode ih
  let node ← read ih p
  let newNode ← read ih q
  let mid := node.getSize / 2
  let newNode := { newNode with parent := node.parent, isLeaf := node.isLeaf }
  let newNode := newNode.insertPairs 0 (node.pairs.drop mid)
  let node := node.truncate mid
  if node.isLeaf then
    let newNode := { newNode with prevLeaf := p, nextLeaf := node.nextLeaf }
    let node := { node with nextLeaf := q }
    let ih := (ih.writeNode q newNode).writeNode p node
    let nextNode ← fetchNode ih newNode.nextLeaf
    touch newNode.nextLeaf
    unpinPage newNode.nextLeaf
    return (q, ih.writeNode newNode.nextLeaf { nextNode with prevLeaf := q })
  else
    let ih := (ih.writeNode q newNode).writeNode p node
    let ih ← maintainChildren ih q 0 newNode.getSize
    return (q, ih)

/-- The size of the parent is read behind its unpin. -/
def insertIntoParent : Nat → IxIndexHandle K → Int → K → Int → PinIx (IxIndexHandle K)
  | 0, _, _, _, _ => lift (.error .outOfFuel)
  | fuel + 1, ih, oldPage, key, newPage => do
      let oldNode ← read ih oldPage
      if oldNode.isRootPage then
        let (r, ih) ← createNode ih
        let root ← read ih r
        let oldNode ← read ih oldPage
        let newNode ← read ih newPage
        let root := { root with isLeaf := false, parent := -1 }
        let root := root.insertPairs 0 [(oldNode.getKey 0, ⟨oldPage, -1⟩)]
        let root := root.insertPairs 1 [(newNode.getKey 0, ⟨newPage, -1⟩)]
        let ih := ih.writeNode r root
        let ih := ih.writeNode oldPage { oldNode with parent := r }
        let ih := ih.writeNode newPage { newNode with parent := r }
        unpinPage r
        return { ih with fileHdr := { ih.fileHdr with rootPage := r } }
      else
        let parent ← fetchNode ih oldNode.parent
        touch newPage
        touch oldNode.parent
        let ih := ih.writeNode oldNode.parent (parent.insert key ⟨newPage, -1⟩)
        unpinPage oldNode.parent
        touch oldNode.parent
        if (parent.insert key ⟨newPage, -1⟩).getSize = ih.fileHdr.btreeOrder then
          let (newParent, ih) ← split ih oldNode.parent
          let newParentNode ← read ih newParent
          let ih ← insertIntoParent fuel ih oldNode.parent (newParentNode.getKey 0) newParent
          unpinPage newParent
          return ih
        else return ih

def insertEntry (ih : IxIndexHandle K) (key : K) (value : Rid) : PinIx (Int × Bool × IxIndexHandle K) := do
  let leaf ← findLeafPage ih key
  let node ← read ih leaf
  let node' := node.insert key value
  let ih := ih.writeNode leaf node'
  if node'.getSize = node.getSize then
    unpinPage leaf
    return (leaf, false, ih)
  else
    let ih ← maintainFirst ih leaf node' key
    if node'.getSize = ih.fileHdr.btreeOrder then
      let (newLeaf, ih) ← split ih leaf
      let newNode ← read ih newLeaf
      let ih ← insertIntoParent ih.fd2pageno ih leaf (newNode.getKey 0) newLeaf
      let ih := if ih.fileHdr.lastLeaf = leaf then
          { ih with fileHdr := { ih.fileHdr with lastLeaf := newLeaf } } else ih
      unpinPage newLeaf
      unpinPage leaf
      return (leaf, true, ih)
    else
      unpinPage leaf
      return (leaf, true, ih)

/-- `release_node_handle` gives back the pin of its caller. -/
def releaseNodeHandle (ih : IxIndexHandle K) (p : Int) : PinIx (IxIndexHandle K) := do
  unpinPage p
  return ih.releaseNodeHandle

def eraseLeaf (ih : IxIndexHandle K) (p : Int) : PinIx (IxIndexHandle K) := do
  let leaf ← read ih p
  if leaf.isLeaf then
    let prev ← fetchNode ih leaf.prevLeaf
    touch leaf.prevLeaf
    let ih := ih.writeNode leaf.prevLeaf { prev with nextLeaf := leaf.nextLeaf }
    unpinPage leaf.prevLeaf
    let leaf ← read ih p
    let next ← fetchNode ih leaf.nextLeaf
    touch leaf.nextLeaf
    unpinPage leaf.nextLeaf
    return ih.writeNode leaf.nextLeaf { next with prevLeaf := leaf.prevLeaf }
  else lift (.error .assertFailed)

def retireLeaf (ih : IxIndexHandle K) (neighbor node : Int) (isLeaf : Bool) : PinIx (IxIndexHandle K) :=
  if isLeaf then
    let ih := if node = ih.fileHdr.lastLeaf then
      { ih with fileHdr := { ih.fileHdr with lastLeaf := neighbor } } else ih
    eraseLeaf ih node
  else return ih

def adjustRoot (ih : IxIndexHandle K) (root : Int) : PinIx (Bool × IxIndexHandle K) := do
  let oldRoot ← read ih root
  if oldRoot.isLeaf then
    if oldRoot.getSize = 0 then
      let ih ← releaseNodeHandle ih root
      return (true, { ih with fileHdr := { ih.fileHdr with rootPage := -1 } })
    else return (false, ih)
  else if oldRoot.getSize = 1 then
    let newRoot := oldRoot.valueAt 0
    let node ← fetchNode ih newRoot
    touch newRoot
    let ih := ih.writeNode newRoot { node with parent := -1 }
    unpinPage newRoot
    return (true, { ih with fileHdr := { ih.fileHdr with rootPage := newRoot } })
  else return (false, ih)

def redistribute (ih : IxIndexHandle K) (neighbor node parent : Int) (index : Nat) :
    PinIx (IxIndexHandle K) := do
  let neighborNode ← read ih neighbor
  let thisNode ← read ih node
  let parentNode ← read ih parent
  if index = 0 then
    let pair := neighborNode.slot 0
    let thisNode := thisNode.insertPairs thisNode.getSize [pair]
    let neighborNode := neighborNode.erasePair 0
    let parentNode := parentNode.setKey 1 (neighborNode.getKey 0)
    let ih := ((ih.writeNode node thisNode).writeNode neighbor neighborNode).writeNode parent parentNode
    maintainChild ih node (thisNode.getSize - 1)
  else
    let pair := neighborNode.slot (neighborNode.getSize - 1)
    let thisNode := thisNode.insertPairs 0 [pair]
    let neighborNode := neighborNode.erasePair (neighborNode.getSize - 1)
    let parentNode := parentNode.setKey index (thisNode.getKey 0)
    let ih := ((ih.writeNode node thisNode).writeNode neighbor neighborNode).writeNode parent parentNode
    maintainChild ih node 0

def coalesce (again : IxIndexHandle K → Int → PinIx (Bool × IxIndexHandle K))
    (ih : IxIndexHandle K) (neighbor node parent : Int) (index : Nat) : PinIx (Bool × IxIndexHandle K) := do
  let (neighbor, node, index) := if index = 0 then (node, neighbor, 1) else (neighbor, node, index)
  let neighborNode ← read ih neighbor
  let thisNode ← read ih node
  let size := neighborNode.getSize
  let ih := ih.writeNode neighbor (neighborNode.insertPairs size thisNode.pairs)
  let ih ← maintainChildren ih neighbor size thisNode.getSize
  touch node
  let ih ← retireLeaf ih neighbor node thisNode.isLeaf
  let ih ← releaseNodeHandle ih node
  let parentNode ← read ih parent
  if index < parentNode.getSize then
    let parentNode := parentNode.erasePair index
    let ih := ih.writeNode parent parentNode
    if parentNode.getSize < ih.fileHdr.btreeOrder / 2 then again ih parent
    else return (false, ih)
  else lift (.error .assertFailed)

/-- The unpins of the parent and of the neighbor are commented out in the source. -/
def coalesceOrRedistribute : Nat → IxIndexHandle K → Int → PinIx (Bool × IxIndexHandle K)
  | 0, _, _ => lift (.error .outOfFuel)
  | fuel + 1, ih, p => do
      let node ← read ih p
      if node.isRootPage then adjustRoot ih p
      else if ih.fileHdr.btreeOrder / 2 ≤ node.getSize then return (false, ih)
      else
        let parent ← fetchNode ih node.parent
        touch node.parent
        let index ← lift (IxIndexHandle.findChild parent p)
        let neighbor := if index = 0 then parent.valueAt 1 else parent.valueAt (index - 1)
        let neighborNode ← fetchNode ih neighbor
        touch p
        touch neighbor
        if ih.fileHdr.btreeOrder ≤ node.getSize + neighborNode.getSize then
          let ih ← redistribute ih neighbor p node.parent index
          return (false, ih)
        else coalesce (coalesceOrRedistribute fuel) ih neighbor p node.parent index

def deleteEntry (ih : IxIndexHandle K) (key : K) (rid : Option Rid) : PinIx (Bool × IxIndexHandle K) := do
  let leaf ← findLeafPage ih key
  let node ← read ih leaf
  let node := node.remove key rid
  let ih := ih.writeNode leaf node
  let ih ← maintainFirst ih leaf node key
  let (_, ih) ← coalesceOrRedistribute ih.fd2pageno ih leaf
  unpinPage leaf
  return (true, ih)

/-- The rid is read behind the unpin, and nothing is unpinned when there is none. -/
def getRid (ih : IxIndexHandle K) (iid : Iid) : PinIx Rid := do
  let node ← fetchNode ih iid.pageNo
  touch iid.pageNo
  if node.getSize ≤ iid.slotNo then lift (.error .indexEntryNotFound)
  else
    unpinPage iid.pageNo
    touch iid.pageNo
    return node.getRid iid.slotNo

def boundAt (ih : IxIndexHandle K) (leaf : Int) (node : IxNode K) (pos : Nat) : PinIx Iid := do
  touch leaf
  if pos = node.getSize ∧ leaf ≠ ih.fileHdr.lastLeaf then
    let _ ← fetchNode ih node.nextLeaf
    unpinPage leaf
    unpinPage node.nextLeaf
    return ⟨node.nextLeaf, 0⟩
  else
    unpinPage leaf
    return ⟨leaf, pos⟩

def lowerBound (ih : IxIndexHandle K) (key : K) : PinIx Iid := do
  let leaf ← findLeafPage ih key
  let node ← read ih leaf
  boundAt ih leaf node (node.lowerBound key)

def upperBound (ih : IxIndexHandle K) (key : K) : PinIx Iid := do
  let leaf ← findLeafPage ih key
  let node ← read ih leaf
  boundAt ih leaf node (node.upperBound key)

def scanNext (ih : IxIndexHandle K) (iid last : Iid) : PinIx Iid :=
  if iid = last then lift (.error .assertFailed)
  else do
    let node ← fetchNode ih iid.pageNo
    touch iid.pageNo
    if node.isLeaf ∧ iid.slotNo < node.getSize then
      unpinPage iid.pageNo
      if iid.pageNo ≠ ih.fileHdr.lastLeaf ∧ iid.slotNo + 1 = node.getSize then return ⟨node.nextLeaf, 0⟩
      else return ⟨iid.pageNo, iid.slotNo + 1⟩
    else lift (.error .assertFailed)

end IxPins

end Rmdb
