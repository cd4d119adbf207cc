import Mathlib.Data.Finmap
import Mathlib.Data.Finset.Sort
import Mathlib.Data.String.Basic
import Rmdb.System.Ddl

namespace Rmdb.SmMeta.Schema

open Restart

structure Table where
  cols : List ColDef
  indexes : List (List String)

abbrev Tables := Finmap fun _ : String => Table

structure Database where
  tables : Tables
  files : Finset String

/-- What is kept on the disk. There are no tables while their description is being written. -/
structure Stored where
  tables : Option Tables
  files : Finset String

abbrev Db := Prog Stop Database Stored

def Table.recordSize (t : Table) : Int32 := (t.cols.map ColDef.len).sum

def Table.keyCols (t : Table) (ix : List String) : List ColDef :=
  ix.filterMap fun name => t.cols.find? fun col => col.name = name

def Table.keyHdr (t : Table) (ix : List String) : IndexHdr :=
  ⟨(t.keyCols ix).map ColDef.type, (t.keyCols ix).map ColDef.len, ((t.keyCols ix).map ColDef.len).sum⟩

def entries (tables : Tables) : List (String × Table) :=
  (tables.keys.sort (· ≤ ·)).filterMap fun name => (tables.lookup name).map fun t => (name, t)

def indexNames (e : String × Table) : List String := e.2.indexes.map (getIndexName e.1)

def fileNames (tables : Tables) : List String := (entries tables).flatMap fun e => e.1 :: indexNames e

def Database.stored (d : Database) : Stored := ⟨some d.tables, d.files⟩

def refuse {α : Type} (e : DdlError) : Db α := fail (.error e)

def Database.described (d : Database) : List Stored := [⟨none, d.files⟩, d.stored]

def createTable (name : String) (cols : List ColDef) : Db Unit := fun d =>
  let t : Table := ⟨cols, []⟩
  let half : Database := ⟨d.tables, insert name d.files⟩
  let after : Database := ⟨d.tables.insert name t, insert name d.files⟩
  if name ∈ d.tables then refuse (.tableExists name) d
  else
    if t.recordSize < .ofNat 1 ∨ rmMaxRecordSize < t.recordSize
      then refuse (.invalidRecordSize t.recordSize) d
  else if name ∈ d.files then refuse (.fileExists name) d
  else ⟨.ok (), after, [half.stored, half.stored] ++ after.described⟩

def fillResult : Option DdlError → Except Stop Unit
  | none => .ok ()
  | some e => .error (.error e)

/-- A key that is too long is refused when the file is there. -/
def createIndexOn (name : String) (t : Table) (ix : List String) (fill : Option DdlError) :
    Db Unit := fun d =>
  let file := getIndexName name ix
  let len := (t.keyHdr ix).colTotLen
  let half : Database := ⟨d.tables, insert file d.files⟩
  let after : Database := ⟨d.tables.insert name { t with indexes := t.indexes ++ [ix] }, insert file d.files⟩
  if file ∈ d.files then refuse (.fileExists file) d
  else if ixMaxColLen < len then ⟨.error (.error (.invalidColLength len)), half, [half.stored]⟩
  else if IxManager.orderHolds len = false then ⟨.error .ended, half, [half.stored]⟩
  else ⟨fillResult fill, after, List.replicate 4 half.stored ++ after.described⟩

def createIndex (name : String) (ix : List String) (fill : Option DdlError) : Db Unit := fun d =>
  match d.tables.lookup name with
  | none => refuse (.tableNotFound name) d
  | some t => match ix.find? fun col => col ∉ t.cols.map ColDef.name with
    | some col => refuse (.columnNotFound col) d
    | none => createIndexOn name t ix fill d

/-- A file goes before the tables that are left are described. -/
def removed (d : Database) (file : String) (tables : Tables) : Outcome Stop Unit Database Stored :=
  let after : Database := ⟨tables, d.files.erase file⟩
  ⟨.ok (), after, [d.stored, ⟨some d.tables, d.files.erase file⟩] ++ after.described⟩

def dropIndex (name : String) (ix : List String) (pinned : List String) : Db Unit := fun d =>
  let file := getIndexName name ix
  if file ∉ (entries d.tables).flatMap indexNames then refuse (.indexNotFound name ix) d
  else match d.tables.lookup name with
    | none => refuse (.tableNotFound name) d
    | some t =>
        if ix ∉ t.indexes then refuse (.indexNotFound name ix) d
        else if file ∈ pinned then ⟨.error .ended, d, [d.stored]⟩
        else removed d file (d.tables.insert name { t with indexes := t.indexes.erase ix })

def dropIndexes (name : String) (pinned : List String) : List (List String) → Db Unit
  | [] => return
  | ix :: ixs => do
      dropIndex name ix pinned
      dropIndexes name pinned ixs

def removeTable (name : String) : Db Unit := fun d => removed d name (d.tables.erase name)

def dropTable (name : String) (pinned : List String) : Db Unit := do
  let d ← get
  match d.tables.lookup name with
  | none => refuse (.tableNotFound name)
  | some t => do
      dropIndexes name pinned t.indexes
      removeTable name

def closeDb : Db Unit := fun d => ⟨.ok (), d, d.described ++ (fileNames d.tables).map fun _ => d.stored⟩

def showTables : Db (List (List String)) := do
  let d ← get
  return ["Tables"] :: (entries d.tables).map fun e => [e.1]

def descTable (name : String) : Db (List (List String)) := do
  let d ← get
  match d.tables.lookup name with
  | none => refuse (.tableNotFound name)
  | some t =>
      return ["Field", "Type", "Index"] :: t.cols.map fun col => [col.name,
        SmManager.coltype2str col.type, "NO"]

def showIndex (name : String) : Db (List (List String)) := do
  let d ← get
  match d.tables.lookup name with
  | none => refuse (.tableNotFound name)
  | some t => return t.indexes.map fun ix => [name, "unique", "(" ++ ",".intercalate ix ++ ")"]

def exec : DdlCall → Db (List (List String))
  | .createTable name cols => do
      createTable name cols
      return []
  | .dropTable name pinned => do
      dropTable name pinned
      return []
  | .createIndex name ix fill => do
      createIndex name ix fill
      return []
  | .dropIndex name ix pinned => do
      dropIndex name ix pinned
      return []
  | .showTables => showTables
  | .descTable name => descTable name
  | .showIndex name => showIndex name
  | .closeDb => do
      closeDb
      fail .ended

/-- A database opens when it has a description, and all the files that are in it. -/
def openDb (st : Stored) : Except Stop Database :=
  match st.tables with
  | none => .error .undefined
  | some tables => match (fileNames tables).find? fun file => file ∉ st.files with
    | some file => .error (.error (.fileNotFound file))
    | none => .ok ⟨tables, st.files⟩

def spec : Machine DdlCall Stop (List (List String)) Database Stored where
  call := exec
  ends := Stop.ends
  disk := Database.stored
  start := openDb

def empty : Stored := ⟨some ∅, {"db.log", "restart.log"}⟩

end Rmdb.SmMeta.Schema
