import Rmdb.Lib.Restart
import Rmdb.System.MetaFile

namespace Rmdb.SmMeta

def DbMeta.getTable (db : DbMeta) (tabName : String) : Option TabMeta :=
  db.tabs.find? fun tab => tab.name = tabName

def DbMeta.isTable (db : DbMeta) (tabName : String) : Bool := (db.getTable tabName).isSome

def DbMeta.erase (db : DbMeta) (tabName : String) : DbMeta :=
  ⟨db.name, db.tabs.filter fun tab => tab.name ≠ tabName, db.sorted.filter _⟩

def TabMeta.getCol (tab : TabMeta) (colName : String) : Option ColMeta :=
  tab.cols.find? fun col => col.name = colName

def TabMeta.getIndexMeta (tab : TabMeta) (colNames : List String) : Option Nat :=
  tab.indexes.findIdx? fun index => index.colNum = Int32.ofNat colNames.length ∧
    index.cols.map ColMeta.name = colNames

def TabMeta.indexNames (tab : TabMeta) : List String :=
  tab.indexes.map fun index => getIndexName tab.name (index.cols.map ColMeta.name)

open Restart

structure ColDef where
  name : String
  type : ColType
  len : Int32
deriving DecidableEq

/-- The file header of an index, as far as the columns decide it. -/
structure IndexHdr where
  colTypes : List ColType
  colLens : List Int32
  colTotLen : Int32
deriving DecidableEq

/-- A file, by what its first page says. Of an index, `pages` pages have been written. -/
inductive FileContent
  | empty
  | record (recordSize : Int32)
  | index (hdr : IndexHdr) (pages : Nat)
deriving DecidableEq

structure Disk where
  dbMeta : List Char
  files : String → Option FileContent

/-- `isOpen` has the paths of `path2fd_`. A handle is what has been read when the file was opened. -/
structure SmState where
  db : DbMeta
  fhs : String → Option Int32
  ihs : String → Option IndexHdr
  isOpen : String → Bool
  disk : Disk

inductive DdlError
  | tableExists (tabName : String)
  | tableNotFound (tabName : String)
  | columnNotFound (colName : String)
  | indexNotFound (tabName : String) (colNames : List String)
  | invalidRecordSize (recordSize : Int32)
  | invalidColLength (colLen : Int32)
  | fileExists (path : String)
  | fileNotFound (path : String)
  | fileNotClosed (path : String)
  | fileNotOpen
  | readPage
  | transactionAbort
deriving DecidableEq

inductive Stop
  | error (e : DdlError)
  | ended
  | undefined
deriving DecidableEq

def Stop.ends : Stop → Bool
  | .error _ => false
  | .ended | .undefined => true

abbrev Sm := Prog Stop SmState Disk

def rmMaxRecordSize : Int32 := .ofNat 512

def ixMaxColLen : Int32 := .ofNat 512

def SmState.setFile (s : SmState) (path : String) (content : Option FileContent) : SmState :=
  { s with disk := { s.disk with files := Function.update s.disk.files path content } }

def SmState.setMeta (s : SmState) (text : List Char) : SmState :=
  { s with disk := { s.disk with dbMeta := text } }

def SmState.setOpen (s : SmState) (path : String) (b : Bool) : SmState :=
  { s with isOpen := Function.update s.isOpen path b }

def SmState.setDb (s : SmState) (db : DbMeta) : SmState := { s with db := db }

def SmState.setFh (s : SmState) (tabName : String) (fh : Option Int32) : SmState :=
  { s with fhs := Function.update s.fhs tabName fh }

def SmState.setIh (s : SmState) (indexName : String) (ih : Option IndexHdr) : SmState :=
  { s with ihs := Function.update s.ihs indexName ih }

def writeFile (path : String) (content : Option FileContent) : Sm Unit := fun s =>
  ⟨.ok (), s.setFile path content, [(s.setFile path content).disk]⟩

def writeMeta (text : List Char) : Sm Unit := fun s => ⟨.ok (), s.setMeta text, [(s.setMeta text).disk]⟩

namespace DiskManager

def createFile (path : String) : Sm Unit := do
  let s ← get
  if (s.disk.files path).isSome then fail (.error (.fileExists path)) else writeFile path (some .empty)

def destroyFile (path : String) : Sm Unit := do
  let s ← get
  if (s.disk.files path).isNone then fail (.error (.fileNotFound ("Failed to delete file: " ++ path)))
  else writeFile path none

def openFile (path : String) : Sm FileContent := do
  let s ← get
  if s.isOpen path then fail (.error (.fileNotClosed path))
  else match s.disk.files path with
    | none => fail (.error (.fileNotFound path))
    | some content => do
        set (s.setOpen path true)
        return content

def closeFile (path : String) : Sm Unit := do
  let s ← get
  if s.isOpen path then set (s.setOpen path false) else fail (.error .fileNotOpen)

end DiskManager

namespace RmManager

def createFile (filename : String) (recordSize : Int32) : Sm Unit :=
  if recordSize < .ofNat 1 ∨ rmMaxRecordSize < recordSize then fail (.error (.invalidRecordSize recordSize))
  else do
    DiskManager.createFile filename
    let _ ← DiskManager.openFile filename
    writeFile filename (some (.record recordSize))
    DiskManager.closeFile filename

def openFile (filename : String) : Sm Int32 := do
  match ← DiskManager.openFile filename with
  | .record recordSize => return recordSize
  | _ => fail (.error .readPage)

def closeFile (filename : String) (fh : Int32) : Sm Unit := do
  writeFile filename (some (.record fh))
  DiskManager.closeFile filename

end RmManager

namespace IxManager

def btreeOrder (colTotLen : Int32) : Option Int32 :=
  let size := colTotLen.toInt64.toUInt64 + .ofNat 8
  if size = .ofNat 0 then none else some (.ofInt ((.ofNat (4096 - 24) / size - .ofNat 1 : UInt64).toNat))

def indexHdr (indexCols : List ColMeta) : IndexHdr :=
  ⟨indexCols.map ColMeta.type, indexCols.map ColMeta.len, (indexCols.map ColMeta.len).sum⟩

def orderHolds (colTotLen : Int32) : Bool := (btreeOrder colTotLen).any fun order => .ofNat 2 < order

def writePages (ixName : String) (hdr : IndexHdr) : Sm Unit :=
  if ixMaxColLen < hdr.colTotLen then fail (.error (.invalidColLength hdr.colTotLen))
  else if orderHolds hdr.colTotLen = false then fail .ended
  else do
    writeFile ixName (some (.index hdr 1))
    writeFile ixName (some (.index hdr 2))
    writeFile ixName (some (.index hdr 3))
    DiskManager.closeFile ixName

/-- The file is there, and open, before the length of the columns is looked at. -/
def createIndex (filename : String) (indexCols : List ColMeta) : Sm Unit := do
  let ixName := getIndexName filename (indexCols.map ColMeta.name)
  DiskManager.createFile ixName
  let _ ← DiskManager.openFile ixName
  writePages ixName (indexHdr indexCols)

/-- The constructor of the handle reads the whole first page. -/
def openIndex (filename : String) (indexCols : List String) : Sm IndexHdr := do
  match ← DiskManager.openFile (getIndexName filename indexCols) with
  | .index hdr pages => if pages < 2 then fail (.error .readPage) else return hdr
  | _ => fail (.error .readPage)

/-- The header goes back to the first page, the other pages are there. -/
def closeIndex (indexName : String) (ih : IndexHdr) : Sm Unit := do
  writeFile indexName (some (.index ih 3))
  DiskManager.closeFile indexName

end IxManager

namespace SmManager

/-- The stream is opened, which empties the file, and closed, which writes the text. -/
def flushMeta : Sm Unit := do
  writeMeta []
  let s ← get
  writeMeta s.db.write

def emplaceFh (tabName : String) (fh : Int32) : Sm Unit := do
  let s ← get
  if (s.fhs tabName).isNone then set (s.setFh tabName (some fh)) else return

def emplaceIh (indexName : String) (ih : IndexHdr) : Sm Unit := do
  let s ← get
  if (s.ihs indexName).isNone then set (s.setIh indexName (some ih)) else return

def openIndexes (tabName : String) : List IndexMeta → Sm Unit
  | [] => return
  | index :: indexes => do
      let ih ← IxManager.openIndex tabName (index.cols.map ColMeta.name)
      emplaceIh (getIndexName tabName (index.cols.map ColMeta.name)) ih
      openIndexes tabName indexes

def openTables : List TabMeta → Sm Unit
  | [] => return
  | tab :: tabs => do
      let fh ← RmManager.openFile tab.name
      emplaceFh tab.name fh
      openIndexes tab.name tab.indexes
      openTables tabs

def openDb : Sm Unit := do
  let s ← get
  match DbMeta.fresh.read s.disk.dbMeta with
  | none => fail .undefined
  | some (db, _) => do
      set (s.setDb db)
      openTables db.tabs

def layCols (tabName : String) : Int32 → List ColDef → List ColMeta × Int32
  | currOffset, [] => ([], currOffset)
  | currOffset, colDef :: colDefs =>
      let (cols, size) := layCols tabName (currOffset + colDef.len) colDefs
      (⟨tabName, colDef.name, colDef.type, colDef.len, currOffset, false⟩ :: cols, size)

def createTable (tabName : String) (colDefs : List ColDef) : Sm Unit := do
  let s ← get
  if s.db.isTable tabName then fail (.error (.tableExists tabName))
  else do
    let (cols, recordSize) := layCols tabName (.ofNat 0) colDefs
    RmManager.createFile tabName recordSize
    modifyGet fun s => ((), s.setDb (s.db.setTab ⟨tabName, cols, []⟩))
    let fh ← RmManager.openFile tabName
    emplaceFh tabName fh
    flushMeta

/-- The rest of `drop_index`, when the index is closed. `pinned` has the files with a pinned page
in the pool, for which the `assert` on `clear_pages` fails. -/
def clearAndDestroy (indexName : String) (pinned : List String) : Sm Unit :=
  if indexName ∈ pinned then fail .ended
  else do
    DiskManager.destroyFile indexName
    modifyGet fun s => ((), s.setIh indexName none)
    flushMeta

def dropIndex (tabName : String) (colNames : List String) (pinned : List String) : Sm Unit := do
  let indexName := getIndexName tabName colNames
  let s ← get
  match s.ihs indexName with
  | none => fail (.error (.indexNotFound tabName colNames))
  | some ih => match s.db.getTable tabName with
    | none => fail (.error (.tableNotFound tabName))
    | some tab => match tab.getIndexMeta colNames with
      | none => fail (.error (.indexNotFound tab.name colNames))
      | some i => do
          set (s.setDb (s.db.setTab { tab with indexes := tab.indexes.eraseIdx i }))
          IxManager.closeIndex indexName ih
          clearAndDestroy indexName pinned

def dropIndexOf (tabName : String) (cols : List ColMeta) (pinned : List String) : Sm Unit :=
  dropIndex tabName (cols.map ColMeta.name) pinned

def dropIndexes (tabName : String) (pinned : List String) : List IndexMeta → Sm Unit
  | [] => return
  | index :: indexes => do
      dropIndexOf tabName index.cols pinned
      dropIndexes tabName pinned indexes

def destroyTable (tabName : String) : Sm Unit := do
  let s ← get
  match s.fhs tabName with
  | none => fail .ended
  | some fh => do
      RmManager.closeFile tabName fh
      DiskManager.destroyFile tabName
      modifyGet fun s => ((), (s.setDb (s.db.erase tabName)).setFh tabName none)
      flushMeta

def dropTable (tabName : String) (pinned : List String) : Sm Unit := do
  let s ← get
  match s.db.getTable tabName with
  | none => fail (.error (.tableNotFound tabName))
  | some tab => do
      dropIndexes tabName pinned tab.indexes
      destroyTable tabName

def getCols (tab : TabMeta) : List String → Sm (List ColMeta)
  | [] => return []
  | colName :: colNames => match tab.getCol colName with
    | none => fail (.error (.columnNotFound colName))
    | some col => do
        let cols ← getCols tab colNames
        return col :: cols

def throwIf : Option DdlError → Sm Unit
  | none => return
  | some e => fail (.error e)

/-- `fill` is the exception, if any, that the loop over the records throws, which puts them into
the new index. -/
def createIndex (tabName : String) (colNames : List String) (fill : Option DdlError) : Sm Unit := do
  let s ← get
  match s.db.getTable tabName with
  | none => fail (.error (.tableNotFound tabName))
  | some tab => do
      let cols ← getCols tab colNames
      IxManager.createIndex tabName cols
      let index : IndexMeta := ⟨tabName, (cols.map ColMeta.len).sum, .ofNat cols.length, cols⟩
      modifyGet fun s => ((), s.setDb (s.db.setTab { tab with indexes := tab.indexes ++ [index] }))
      let ih ← IxManager.openIndex tabName colNames
      emplaceIh (getIndexName tabName colNames) ih
      flushMeta
      throwIf fill

def closeTables : List (String × Int32) → Sm Unit
  | [] => return
  | (tabName, fh) :: fhs => do
      RmManager.closeFile tabName fh
      closeTables fhs

def closeIndexes : List (String × IndexHdr) → Sm Unit
  | [] => return
  | (indexName, ih) :: ihs => do
      IxManager.closeIndex indexName ih
      closeIndexes ihs

/-- The entries of the two maps, which have no order of their own, come in the order of the tables. -/
def closeDb : Sm Unit := do
  flushMeta
  let s ← get
  closeTables (s.db.tabs.filterMap fun tab => (s.fhs tab.name).map fun fh => (tab.name, fh))
  let s ← get
  closeIndexes ((s.db.tabs.flatMap TabMeta.indexNames).filterMap fun name =>
    (s.ihs name).map fun ih => (name, ih))

def showTables : Sm (List (List String)) := do
  let s ← get
  return ["Tables"] :: s.db.tabs.map fun tab => [tab.name]

def coltype2str : ColType → String
  | .int => "INT"
  | .float => "FLOAT"
  | .string => "STRING"
  | .null => "NULL"

def descTable (tabName : String) : Sm (List (List String)) := do
  let s ← get
  match s.db.getTable tabName with
  | none => fail (.error (.tableNotFound tabName))
  | some tab =>
      return ["Field", "Type", "Index"] ::
        tab.cols.map fun col => [col.name, coltype2str col.type, if col.index then "YES" else "NO"]

def showIndex (tabName : String) : Sm (List (List String)) := do
  let s ← get
  match s.db.getTable tabName with
  | none => fail (.error (.tableNotFound tabName))
  | some tab =>
      return tab.indexes.map fun index => [tabName, "unique",
        "(" ++ ",".intercalate (index.cols.map ColMeta.name) ++ ")"]

def createDb (dbName : String) : Disk :=
  ⟨DbMeta.write { DbMeta.fresh with name := dbName }, fun path => if path = "db.log" ∨
    path = "restart.log" then some .empty else none⟩

end SmManager

inductive DdlCall
  | createTable (tabName : String) (colDefs : List ColDef)
  | dropTable (tabName : String) (pinned : List String)
  | createIndex (tabName : String) (colNames : List String) (fill : Option DdlError)
  | dropIndex (tabName : String) (colNames : List String) (pinned : List String)
  | showTables
  | descTable (tabName : String)
  | showIndex (tabName : String)
  | closeDb
deriving DecidableEq

def DdlCall.exec : DdlCall → Sm (List (List String))
  | .createTable tabName colDefs => do
      SmManager.createTable tabName colDefs
      return []
  | .dropTable tabName pinned => do
      SmManager.dropTable tabName pinned
      return []
  | .createIndex tabName colNames fill => do
      SmManager.createIndex tabName colNames fill
      return []
  | .dropIndex tabName colNames pinned => do
      SmManager.dropIndex tabName colNames pinned
      return []
  | .showTables => SmManager.showTables
  | .descTable tabName => SmManager.descTable tabName
  | .showIndex tabName => SmManager.showIndex tabName
  | .closeDb => do
      SmManager.closeDb
      fail .ended

/-- A new process, in the directory of the database. -/
def SmState.fresh (disk : Disk) : SmState := ⟨.fresh, fun _ => none, fun _ => none, fun _ => false, disk⟩

def server : Machine DdlCall Stop (List (List String)) SmState Disk where
  call := DdlCall.exec
  ends := Stop.ends
  disk := SmState.disk
  start d :=
    let o := SmManager.openDb (.fresh d)
    o.result.map fun _ => o.state

end Rmdb.SmMeta
