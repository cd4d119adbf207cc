import Mathlib.Data.List.Nodup
import Mathlib.Order.Nat
import Mathlib.Logic.Function.Basic
import Rmdb.Lib.Trace

namespace Rmdb

abbrev PageData := Fin 4096 → UInt8

def PageData.zero : PageData := fun _ => 0

structure PageId where
  fd : Nat
  pageNo : Nat
deriving DecidableEq, Repr

/-- The page files. A page behind the end of its file is `none`. -/
abbrev Disk := PageId → Option PageData

/-- `DiskManager::write_page`. Writing behind the end of a file fills the gap with zeros. -/
def Disk.writePage (disk : Disk) (p : PageId) (data : PageData) : Disk := fun q =>
  if q = p then some data
  else match disk q with
    | some old => some old
    | none => if q.fd = p.fd ∧ q.pageNo < p.pageNo then some .zero else none

/-- A frame of the pool. A frame that has never been used has no page id (`INVALID_PAGE_ID`). -/
structure Page where
  id : Option PageId
  data : PageData
  isDirty : Bool
  pinCount : Nat

namespace LRUReplacer

variable {F : Type} [DecidableEq F]

/-- The least recently used frame is the last one of the list. -/
def victim (lruList : List F) : Option (F × List F) := lruList.getLast?.map fun f => (f, lruList.dropLast)

def pin (lruList : List F) (f : F) : List F := lruList.erase f

def unpin (lruList : List F) (f : F) : List F := if f ∈ lruList then lruList else f :: lruList

end LRUReplacer

structure BufferPoolManager (n : Nat) where
  pages : Fin n → Page
  pageTable : PageId → Option (Fin n)
  freeList : List (Fin n)
  lruList : List (Fin n)
  disk : Disk
  fd2pageno : Nat → Nat

inductive Fetched (n : Nat)
  | page (frame : Fin n)
  | nullptr
  | internalError
deriving DecidableEq

namespace BufferPoolManager

variable {n : Nat}

def init (n : Nat) (disk : Disk) (fd2pageno : Nat → Nat) : BufferPoolManager n where
  pages _ := ⟨none, .zero, false, 0⟩
  pageTable _ := none
  freeList := List.finRange n
  lruList := []
  disk := disk
  fd2pageno := fd2pageno

def setPage (b : BufferPoolManager n) (f : Fin n) (page : Page) : BufferPoolManager n :=
  { b with pages := Function.update b.pages f page }

def eraseId (table : PageId → Option (Fin n)) (id : Option PageId) : PageId → Option (Fin n) := fun q =>
  if id = some q then none else table q

/-- A dirty page goes to the disk under the id of its frame. -/
def writeBack (disk : Disk) (page : Page) : Disk :=
  match page.id with
  | some p => if page.isDirty then disk.writePage p page.data else disk
  | none => disk

def findVictimPage (b : BufferPoolManager n) : Option (Fin n × BufferPoolManager n) :=
  match b.freeList with
  | f :: rest => some (f, { b with freeList := rest })
  | [] =>
      (LRUReplacer.victim b.lruList).map fun v =>
        (v.1, { b with lruList := v.2, pageTable := eraseId b.pageTable (b.pages v.1).id })

def updatePage (b : BufferPoolManager n) (f : Fin n) (newId : PageId) : BufferPoolManager n :=
  { b with
    disk := writeBack b.disk (b.pages f)
    pageTable := Function.update (eraseId b.pageTable (b.pages f).id) newId (some f)
    pages := Function.update b.pages f { b.pages f with id := some newId, data := .zero, isDirty := false } }

/-- The read of a page behind the end of the file throws when the frame has already been given
to it. -/
def fetchPage (b : BufferPoolManager n) (p : PageId) : Fetched n × BufferPoolManager n :=
  match b.pageTable p with
  | some f =>
      (.page f, { b with
        lruList := LRUReplacer.pin b.lruList f
        pages := Function.update b.pages f { b.pages f with pinCount := (b.pages f).pinCount + 1 } })
  | none =>
      match b.findVictimPage with
      | none => (.nullptr, b)
      | some (f, b1) =>
          let b2 := b1.updatePage f p
          match b2.disk p with
          | none => (.internalError, b2)
          | some data =>
              (.page f, { b2 with
                lruList := LRUReplacer.pin b2.lruList f
                pages := Function.update b2.pages f { b2.pages f with data := data, pinCount := 1 } })

def unpinPage (b : BufferPoolManager n) (p : PageId) (isDirty : Bool) : Bool × BufferPoolManager n :=
  match b.pageTable p with
  | none => (false, b)
  | some f =>
      if (b.pages f).pinCount = 0 then (false, b)
      else (true, { b with
        lruList := if (b.pages f).pinCount = 1 then LRUReplacer.unpin b.lruList f else b.lruList
        pages := Function.update b.pages f { b.pages f with
          pinCount := (b.pages f).pinCount - 1
          isDirty := (b.pages f).isDirty || isDirty } })

/-- Writes the page whether it is dirty or not. -/
def flushPage (b : BufferPoolManager n) (p : PageId) : Bool × BufferPoolManager n :=
  match b.pageTable p with
  | none => (false, b)
  | some f =>
      (true, { b with
        disk := b.disk.writePage p (b.pages f).data
        pages := Function.update b.pages f { b.pages f with isDirty := false } })

/-- The new page is neither dirty nor on the disk. -/
def newPage (b : BufferPoolManager n) (fd : Nat) : Option (Fin n × PageId) × BufferPoolManager n :=
  match b.findVictimPage with
  | none => (none, b)
  | some (f, b1) =>
      let p : PageId := ⟨fd, b1.fd2pageno fd⟩
      let b2 := { b1 with fd2pageno := Function.update b1.fd2pageno fd (b1.fd2pageno fd + 1) }.updatePage f p
      (some (f, p), { b2 with
        lruList := LRUReplacer.pin b2.lruList f
        pages := Function.update b2.pages f { b2.pages f with pinCount := 1 } })

def flushEntry (only : PageId → Bool) (b : BufferPoolManager n) (p : PageId) : BufferPoolManager n :=
  match b.pageTable p with
  | none => b
  | some f =>
      if only p && (b.pages f).isDirty then
        { b with
          disk := writeBack b.disk (b.pages f)
          pages := Function.update b.pages f { b.pages f with isDirty := false } }
      else b

/-- `flush_all_pages`, for all files or for one; `order` lists the page table in the order in
which it is walked through. -/
def flushAllPages (b : BufferPoolManager n) (only : PageId → Bool) (order : List PageId) :
    BufferPoolManager n :=
  order.foldl (flushEntry only) b

/-- The frame goes to the end of the free list. It keeps its old page id, and its place in the
replacer. -/
def freeFrame (b : BufferPoolManager n) (p : PageId) (f : Fin n) : BufferPoolManager n :=
  { b with
    disk := writeBack b.disk (b.pages f)
    pageTable := Function.update b.pageTable p none
    pages := Function.update b.pages f { b.pages f with data := .zero, isDirty := false }
    freeList := b.freeList ++ [f] }

def deletePage (b : BufferPoolManager n) (p : PageId) : Bool × BufferPoolManager n :=
  match b.pageTable p with
  | none => (true, b)
  | some f => if (b.pages f).pinCount ≠ 0 then (false, b) else (true, b.freeFrame p f)

/-- Stops at the first page that is pinned. -/
def deleteAllPages (fd : Nat) : BufferPoolManager n → List PageId → Bool × BufferPoolManager n
  | b, [] => (true, b)
  | b, p :: order =>
      if p.fd = fd then
        match b.pageTable p with
        | none => deleteAllPages fd b order
        | some f => if (b.pages f).pinCount ≠ 0 then (false, b) else deleteAllPages fd (b.freeFrame p f) order
      else deleteAllPages fd b order

/-- A holder of a pin changes the bytes of the frame. -/
def write (b : BufferPoolManager n) (f : Fin n) (data : PageData) : BufferPoolManager n :=
  b.setPage f { b.pages f with data := data }

end BufferPoolManager

inductive PoolCall (n : Nat)
  | fetch (p : PageId)
  | new (fd : Nat)
  | unpin (p : PageId) (isDirty : Bool)
  | flush (p : PageId)
  | flushAll (only : PageId → Bool) (order : List PageId)
  | delete (p : PageId)
  | deleteAll (fd : Nat) (order : List PageId)
  | write (f : Fin n) (data : PageData)

def PoolCall.exec {n : Nat} (b : BufferPoolManager n) : PoolCall n → BufferPoolManager n
  | .fetch p => (b.fetchPage p).2
  | .new fd => (b.newPage fd).2
  | .unpin p isDirty => (b.unpinPage p isDirty).2
  | .flush p => (b.flushPage p).2
  | .flushAll only order => b.flushAllPages only order
  | .delete p => (b.deletePage p).2
  | .deleteAll fd order => (BufferPoolManager.deleteAllPages fd b order).2
  | .write f data => b.write f data

end Rmdb
