import Rmdb.Index.Node
import Rmdb.Record.Bitmap

namespace Rmdb

open Bitmap

def memcpy (mem : Memory) (dst : Nat) (src : Bytes) (len : Nat) : Memory := fun a =>
  if dst ≤ a ∧ a < dst + len then src.getD (a - dst) 0 else mem a

def bytesAt (mem : Memory) (src len : Nat) : Bytes := (List.range len).map fun i => mem (src + i)

structure RmFileHdr where
  recordSize : Nat
  numPages : Nat
  numRecordsPerPage : Nat
  firstFreePageNo : Int
  bitmapSize : Nat

structure RmPageHdr where
  nextFreePageNo : Int
  numRecords : Int

/-- A page of a table file: its header, which takes the first `OFFSET_PAGE_HDR + sizeof(RmPageHdr)`
bytes, and the bytes behind it. -/
structure RmPage where
  pageHdr : RmPageHdr
  data : Memory

inductive RmError
  | invalidRecordSize
  | pageNotExist
  | noFreeSlot
deriving DecidableEq, Repr

abbrev Rm := Except RmError

def rmNoPage : Int := -1

def bitmapStart : Nat := 12

/-- An open table file. The pages are those of the flat page store that the buffer pool keeps. -/
structure RmFileHandle where
  fileHdr : RmFileHdr
  pages : Int → Option RmPage
  fd2pageno : Nat

structure RmFile where
  fileHdr : RmFileHdr
  pages : Int → Option RmPage

namespace RmManager

def createFile (recordSize : Nat) : Rm RmFile :=
  if recordSize < 1 ∨ 512 < recordSize then .error .invalidRecordSize
  else
    let numRecordsPerPage := (8 * (4096 - 1 - 20) + 1) / (1 + recordSize * 8)
    .ok ⟨⟨recordSize, 1, numRecordsPerPage, rmNoPage, (numRecordsPerPage + 8 - 1) / 8⟩, fun _ => none⟩

/-- The page numbers go on from `num_pages`. -/
def openFile (file : RmFile) : RmFileHandle := ⟨file.fileHdr, file.pages, file.fileHdr.numPages⟩

def closeFile (f : RmFileHandle) : RmFile := ⟨f.fileHdr, f.pages⟩

end RmManager

namespace RmFileHandle

variable (f : RmFileHandle)

def slotStart (slotNo : Nat) : Nat := bitmapStart + f.fileHdr.bitmapSize + slotNo * f.fileHdr.recordSize

def setPage (pageNo : Int) (page : RmPage) : RmFileHandle :=
  { f with pages := Function.update f.pages pageNo (some page) }

def setFirstFree (pageNo : Int) : RmFileHandle :=
  { f with fileHdr := { f.fileHdr with firstFreePageNo := pageNo } }

def fetchPageHandle (pageNo : Int) : Rm RmPage :=
  match f.pages pageNo with
  | some page => .ok page
  | none => .error .pageNotExist

/-- Does not look at the bitmap. -/
def getRecord (rid : Rid) : Rm Bytes := do
  let page ← f.fetchPageHandle rid.pageNo
  return bytesAt page.data (f.slotStart rid.slotNo.toNat) f.fileHdr.recordSize

/-- The new page is the head of the free list. -/
def createNewPageHandle : Int × RmFileHandle :=
  (f.fd2pageno,
    { f with
      fileHdr := { f.fileHdr with numPages := f.fileHdr.numPages + 1, firstFreePageNo := f.fd2pageno }
      pages := Function.update f.pages f.fd2pageno (some ⟨⟨f.fileHdr.firstFreePageNo, 0⟩, fun _ => 0⟩)
      fd2pageno := f.fd2pageno + 1 })

def createPageHandle : Int × RmFileHandle :=
  if f.fileHdr.firstFreePageNo = rmNoPage then f.createNewPageHandle else (f.fileHdr.firstFreePageNo, f)

/-- The slot is not reserved. -/
def getFreeRecord : Rm Rid × RmFileHandle :=
  let (pageNo, f) := f.createPageHandle
  match f.fetchPageHandle pageNo with
  | .error e => (.error e, f)
  | .ok page =>
      let slotNo := firstBit page.data bitmapStart false f.fileHdr.numRecordsPerPage
      if slotNo = f.fileHdr.numRecordsPerPage then (.error .noFreeSlot, f) else (.ok ⟨pageNo, slotNo⟩, f)

/-- A page that has become full leaves the free list: the page behind it becomes the head. -/
def unlinkFull (pageNo : Int) (page : RmPage) : RmFileHandle :=
  if page.pageHdr.numRecords = f.fileHdr.numRecordsPerPage then
    (f.setFirstFree page.pageHdr.nextFreePageNo).setPage pageNo
      { page with pageHdr := { page.pageHdr with nextFreePageNo := rmNoPage } }
  else f.setPage pageNo page

def insertRecord (buf : Bytes) : Rm Rid × RmFileHandle :=
  let (pageNo, f) := f.createPageHandle
  match f.fetchPageHandle pageNo with
  | .error e => (.error e, f)
  | .ok page =>
      let slotNo := firstBit page.data bitmapStart false f.fileHdr.numRecordsPerPage
      if slotNo = f.fileHdr.numRecordsPerPage then (.error .noFreeSlot, f)
      else
        let page : RmPage :=
          ⟨{ page.pageHdr with numRecords := page.pageHdr.numRecords + 1 },
            set (memcpy page.data (f.slotStart slotNo) buf f.fileHdr.recordSize) bitmapStart slotNo⟩
        (.ok ⟨pageNo, slotNo⟩, f.unlinkFull pageNo page)

/-- `insert_record(rid, buf)`. A full page takes the head of the free list with it wherever it
stands. -/
def insertRecordAt (rid : Rid) (buf : Bytes) : Rm RmFileHandle := do
  let page ← f.fetchPageHandle rid.pageNo
  let data := memcpy page.data (f.slotStart rid.slotNo.toNat) buf f.fileHdr.recordSize
  let page : RmPage :=
    if isSet page.data bitmapStart rid.slotNo.toNat then { page with data := data }
    else
      ⟨{ page.pageHdr with numRecords := page.pageHdr.numRecords + 1 },
        set data bitmapStart rid.slotNo.toNat⟩
  return f.unlinkFull rid.pageNo page

def releasePageHandle (pageNo : Int) (page : RmPage) : RmFileHandle :=
  if page.pageHdr.numRecords = f.fileHdr.numRecordsPerPage then f.setPage pageNo page
  else if page.pageHdr.nextFreePageNo ≠ f.fileHdr.firstFreePageNo then
    (f.setFirstFree pageNo).setPage pageNo
      { page with pageHdr := { page.pageHdr with nextFreePageNo := f.fileHdr.firstFreePageNo } }
  else f.setPage pageNo { page with pageHdr := { page.pageHdr with nextFreePageNo := rmNoPage } }

/-- A slot that is not set is tolerated. -/
def deleteRecord (rid : Rid) : Rm RmFileHandle := do
  let page ← f.fetchPageHandle rid.pageNo
  let page : RmPage :=
    if isSet page.data bitmapStart rid.slotNo.toNat then
      ⟨{ page.pageHdr with numRecords := page.pageHdr.numRecords - 1 },
        reset page.data bitmapStart rid.slotNo.toNat⟩
    else page
  if page.pageHdr.numRecords = (f.fileHdr.numRecordsPerPage : Int) - 1
    then return f.releasePageHandle rid.pageNo page
  else return f.setPage rid.pageNo page

def updateRecord (rid : Rid) (buf : Bytes) : Rm RmFileHandle := do
  let page ← f.fetchPageHandle rid.pageNo
  return f.setPage rid.pageNo
    { page with data := memcpy page.data (f.slotStart rid.slotNo.toNat) buf f.fileHdr.recordSize }

end RmFileHandle

end Rmdb
