import Rmdb.Lib.TextStream
import Rmdb.System.IndexName
import Mathlib.Data.String.Basic

namespace Rmdb.SmMeta

open TextStream

/-- The column of the meta file, with the flag that nothing reads. -/
structure ColMeta where
  tabName : String
  name : String
  type : ColType
  len : Int32
  offset : Int32
  index : Bool
deriving DecidableEq

structure IndexMeta where
  tabName : String
  colTotLen : Int32
  colNum : Int32
  cols : List ColMeta
deriving DecidableEq

structure TabMeta where
  name : String
  cols : List ColMeta
  indexes : List IndexMeta
deriving DecidableEq

/-- `tabs_` maps every table from its own name; it is kept in the order of the names. -/
structure DbMeta where
  name : String
  tabs : List TabMeta
  sorted : tabs.Pairwise fun a b => a.name < b.name

def typeCode : ColType → Int32
  | .int => 0
  | .float => 1
  | .string => 2
  | .null => 3

/-- `operator>>` of an enumeration. No other number is a column type. -/
def readType : Reader ColType := do
  match ← integer with
  | 0 => return .int
  | 1 => return .float
  | 2 => return .string
  | 3 => return .null
  | _ => failure

def readName : Reader String := do return String.ofList (← word)

def ColMeta.write (col : ColMeta) : List Char :=
  col.tabName.toList ++ [' '] ++ col.name.toList ++ [' '] ++ integerText (typeCode col.type) ++ [' '] ++
    integerText col.len ++ [' '] ++ integerText col.offset ++ [' '] ++ booleanText col.index

def ColMeta.read : Reader ColMeta := do
  let tabName ← readName
  let name ← readName
  let type ← readType
  let len ← integer
  let offset ← integer
  let index ← boolean
  return ⟨tabName, name, type, len, offset, index⟩

def IndexMeta.write (index : IndexMeta) : List Char :=
  index.tabName.toList ++ [' '] ++ integerText index.colTotLen ++ [' '] ++ integerText index.colNum ++
    index.cols.flatMap fun col => '\n' :: col.write

/-- A negative `col_num` makes no rounds. -/
def IndexMeta.read : Reader IndexMeta := do
  let tabName ← readName
  let colTotLen ← integer
  let colNum ← integer
  let cols ← many ColMeta.read colNum.toInt.toNat
  return ⟨tabName, colTotLen, colNum, cols⟩

def TabMeta.write (tab : TabMeta) : List Char :=
  tab.name.toList ++ ['\n'] ++ naturalText tab.cols.length ++ ['\n'] ++
    (tab.cols.flatMap fun col => col.write ++ ['\n']) ++
    naturalText tab.indexes.length ++ ['\n'] ++ tab.indexes.flatMap fun index => index.write ++ ['\n']

def TabMeta.read : Reader TabMeta := do
  let name ← readName
  let n ← natural
  let cols ← many ColMeta.read n
  let n ← natural
  let indexes ← many IndexMeta.read n
  return ⟨name, cols, indexes⟩

def putTab (tab : TabMeta) : List TabMeta → List TabMeta
  | [] => [tab]
  | t :: tabs =>
      if tab.name < t.name then tab :: t :: tabs
      else if t.name < tab.name then t :: putTab tab tabs
      else tab :: tabs

theorem mem_putTab {tab t : TabMeta} {tabs : List TabMeta} (h : t ∈ putTab tab tabs) :
    t = tab ∨ t ∈ tabs := by
  induction tabs with
  | nil => exact .inl (List.mem_singleton.1 h)
  | cons t' tabs ih =>
      rw [putTab] at h
      split at h
      · exact List.mem_cons.1 h
      · split at h
        · rcases List.mem_cons.1 h with rfl | h
          · exact .inr List.mem_cons_self
          · exact (ih h).imp id (List.mem_cons_of_mem t')
        · exact (List.mem_cons.1 h).imp id (List.mem_cons_of_mem t')

theorem sorted_putTab (tab : TabMeta) {tabs : List TabMeta} (h : tabs.Pairwise fun a b => a.name < b.name) :
    (putTab tab tabs).Pairwise fun a b => a.name < b.name := by
  induction h with
  | nil => exact List.pairwise_singleton _ _
  | @cons t tabs ht htabs ih =>
      rw [putTab]
      split
      · rename_i hlt
        refine .cons ?_ (.cons ht htabs)
        intro t' ht'
        rcases List.mem_cons.1 ht' with rfl | ht'
        · exact hlt
        · exact hlt.trans (ht t' ht')
      · rename_i hnlt
        split
        · rename_i hgt
          refine .cons ?_ ih
          intro t' ht'
          rcases mem_putTab ht' with rfl | ht'
          · exact hgt
          · exact ht t' ht'
        · rename_i hngt
          have heq : tab.name = t.name := le_antisymm (not_lt.1 hngt) (not_lt.1 hnlt)
          exact .cons (fun t' ht' => heq ▸ ht t' ht') htabs

def DbMeta.setTab (db : DbMeta) (tab : TabMeta) : DbMeta :=
  ⟨db.name, putTab tab db.tabs, sorted_putTab tab db.sorted⟩

def DbMeta.fresh : DbMeta := ⟨"", [], .nil⟩

def DbMeta.write (db : DbMeta) : List Char :=
  db.name.toList ++ ['\n'] ++ naturalText db.tabs.length ++ ['\n'] ++ db.tabs.flatMap fun tab =>
    tab.write ++ ['\n']

def DbMeta.read (db : DbMeta) : Reader DbMeta := do
  let name ← readName
  let n ← natural
  let tabs ← many TabMeta.read n
  return tabs.foldl DbMeta.setTab { db with name := name }

def IsWord (s : String) : Prop := s.toList ≠ [] ∧ ∀ c ∈ s.toList, isSpace c = false

structure ColMeta.Named (col : ColMeta) : Prop where
  tabName : IsWord col.tabName
  name : IsWord col.name

structure IndexMeta.Named (index : IndexMeta) : Prop where
  tabName : IsWord index.tabName
  colNum : index.colNum.toInt = index.cols.length
  cols : ∀ col ∈ index.cols, col.Named

structure TabMeta.Named (tab : TabMeta) : Prop where
  name : IsWord tab.name
  cols : ∀ col ∈ tab.cols, col.Named
  indexes : ∀ index ∈ tab.indexes, index.Named

structure DbMeta.Named (db : DbMeta) : Prop where
  name : IsWord db.name
  tabs : ∀ tab ∈ db.tabs, tab.Named

theorem le_toNat_of_isAlphanum {d : Char} (h : d.isAlphanum = true) : 48 ≤ d.toNat := by
  rcases Bool.or_eq_true_iff.1 h with h | h
  · rcases Bool.or_eq_true_iff.1 h with h | h
    · exact le_trans (by decide) (UInt32.le_iff_toNat_le.1 (of_decide_eq_true h).1)
    · exact le_trans (by decide) (UInt32.le_iff_toNat_le.1 (of_decide_eq_true (Bool.and_eq_true_iff.1 h).1))
  · exact UInt32.le_iff_toNat_le.1 (of_decide_eq_true (Bool.and_eq_true_iff.1 h).1)

theorem isWord_of_isIdentifier {s : String} (h : isIdentifier s = true) : IsWord s := by
  rw [isIdentifier] at h
  split at h
  · cases h
  · rename_i c cs heq
    simp only [Bool.and_eq_true, List.all_eq_true, Bool.or_eq_true, decide_eq_true_eq] at h
    have hletter : ∀ d : Char, d = '_' ∨ d.isAlphanum = true → isSpace d = false := by
      rintro d (rfl | hd)
      · rfl
      · have hn : 48 ≤ d.toNat := le_toNat_of_isAlphanum hd
        have hne : d ≠ ' ' := by
          rintro rfl
          exact absurd hn (by decide)
        simp only [isSpace, hne, decide_false, Bool.false_or, Bool.and_eq_false_iff, decide_eq_false_iff_not]
        omega
    refine ⟨by rw [heq]; simp, fun d hd => ?_⟩
    rw [heq] at hd
    rcases List.mem_cons.1 hd with rfl | hd
    · exact hletter d (.inr (by simp [Char.isAlphanum, h.1]))
    · exact hletter d (h.2 d hd)

section RoundTrip

variable {c : Char}

theorem reads_name {s : String} (h : IsWord s) (hc : isSpace c = true) :
    Reads readName (s.toList ++ [c]) s := by
  have hr := (reads_word h.1 h.2 hc).bind_pure String.ofList
  rwa [String.ofList_toList] at hr

theorem reads_type (t : ColType) (hc : isSpace c = true) :
    Reads readType (integerText (typeCode t) ++ [c]) t := by
  have hr : Reads readType (integerText (typeCode t) ++ [c] ++ []) t := by
    refine (reads_integer (typeCode t) hc).bind ?_
    cases t <;> exact Reads.pure _
  rwa [List.append_nil] at hr

theorem ColMeta.Named.reads {col : ColMeta} (h : col.Named) (hc : isSpace c = true) :
    Reads ColMeta.read (col.write ++ [c]) col := by
  have hspace : isSpace ' ' = true := rfl
  have htext : col.write ++ [c] = col.tabName.toList ++ [' '] ++ (col.name.toList ++ [' '] ++
      (integerText (typeCode col.type) ++ [' '] ++ (integerText col.len ++ [' '] ++
        (integerText col.offset ++ [' '] ++ (booleanText col.index ++ [c]))))) := by
    simp only [ColMeta.write, List.append_assoc]
  rw [htext, ColMeta.read]
  refine (reads_name h.tabName hspace).bind ?_
  refine (reads_name h.name hspace).bind ?_
  refine (reads_type col.type hspace).bind ?_
  refine (reads_integer col.len hspace).bind ?_
  refine (reads_integer col.offset hspace).bind ?_
  exact (reads_boolean col.index hc).bind_pure _

/-- The columns of an index stand on lines of their own, each with its line break before it. -/
theorem lines_shift (cols : List ColMeta) :
    (cols.flatMap fun col => '\n' :: col.write) ++ ['\n'] = ['\n'] ++ cols.flatMap fun col =>
      col.write ++ ['\n'] := by
  induction cols with
  | nil => rfl
  | cons col cols ih =>
      rw [List.flatMap_cons, List.append_assoc, ih, List.flatMap_cons]
      simp only [List.cons_append, List.append_assoc, List.nil_append]

theorem IndexMeta.Named.reads {index : IndexMeta} (h : index.Named) :
    Reads IndexMeta.read (index.write ++ ['\n']) index := by
  have hspace : isSpace ' ' = true := rfl
  have hline : isSpace '\n' = true := rfl
  have htext : index.write ++ ['\n'] =
    index.tabName.toList ++ [' '] ++ (integerText index.colTotLen ++ [' '] ++
      (integerText index.colNum ++ ['\n'] ++ index.cols.flatMap fun col => col.write ++ ['\n'])) := by
    simp only [IndexMeta.write, List.append_assoc, lines_shift]
  have hnum : index.colNum.toInt.toNat = index.cols.length := by rw [h.colNum, Int.toNat_natCast]
  rw [htext, IndexMeta.read]
  refine (reads_name h.tabName hspace).bind ?_
  refine (reads_integer index.colTotLen hspace).bind ?_
  refine (reads_integer index.colNum hline).bind ?_
  rw [hnum]
  exact (Reads.many fun col hcol => (h.cols col hcol).reads hline).bind_pure _

theorem TabMeta.Named.reads {tab : TabMeta} (h : tab.Named) : Reads TabMeta.read tab.write tab := by
  have hline : isSpace '\n' = true := rfl
  have htext : tab.write = tab.name.toList ++ ['\n'] ++ (naturalText tab.cols.length ++ ['\n'] ++
      ((tab.cols.flatMap fun col => col.write ++ ['\n']) ++ (naturalText tab.indexes.length ++ ['\n'] ++
        tab.indexes.flatMap fun index => index.write ++ ['\n']))) := by
    simp only [TabMeta.write, List.append_assoc]
  rw [htext, TabMeta.read]
  refine (reads_name h.name hline).bind ?_
  refine (reads_natural tab.cols.length hline).bind ?_
  refine (Reads.many fun col hcol => (h.cols col hcol).reads hline).bind ?_
  refine (reads_natural tab.indexes.length hline).bind ?_
  exact (Reads.many fun index hindex => (h.indexes index hindex).reads).bind_pure _

theorem putTab_last {tab : TabMeta} {tabs : List TabMeta} (h : ∀ t ∈ tabs, t.name < tab.name) :
    putTab tab tabs = tabs ++ [tab] := by
  induction tabs with
  | nil => rfl
  | cons t tabs ih =>
      have ht := h t List.mem_cons_self
      rw [putTab, if_neg (lt_asymm ht), if_pos ht,
        ih fun t' ht' => h t' (List.mem_cons_of_mem t ht'), List.cons_append]

theorem foldl_setTab (db : DbMeta) (tabs : List TabMeta)
    (h : (db.tabs ++ tabs).Pairwise fun a b => a.name < b.name) :
    tabs.foldl DbMeta.setTab db = ⟨db.name, db.tabs ++ tabs, h⟩ := by
  induction tabs generalizing db with
  | nil =>
      obtain ⟨name, tabs, hsorted⟩ := db
      simp only [List.foldl_nil, List.append_nil]
  | cons tab tabs ih =>
      have hlast : putTab tab db.tabs = db.tabs ++ [tab] :=
        putTab_last fun t ht => (List.pairwise_append.1 h).2.2 t ht tab List.mem_cons_self
      have htabs : (db.setTab tab).tabs ++ tabs = db.tabs ++ tab :: tabs := by
        change putTab tab db.tabs ++ tabs = _
        rw [hlast, List.append_assoc, List.singleton_append]
      rw [List.foldl_cons, ih (db.setTab tab) (htabs ▸ h)]
      simp only [htabs]
      rfl

theorem DbMeta.Named.reads {db : DbMeta} (h : db.Named) : Reads DbMeta.fresh.read db.write db := by
  have hline : isSpace '\n' = true := rfl
  have htext : db.write = db.name.toList ++ ['\n'] ++ (naturalText db.tabs.length ++ ['\n'] ++
      db.tabs.flatMap fun tab => tab.write ++ ['\n']) := by
    simp only [DbMeta.write, List.append_assoc]
  have hput : db.tabs.foldl DbMeta.setTab { DbMeta.fresh with name := db.name } = db :=
    foldl_setTab { DbMeta.fresh with name := db.name } db.tabs db.sorted
  rw [htext, DbMeta.read]
  refine (reads_name h.name hline).bind ?_
  refine (reads_natural db.tabs.length hline).bind ?_
  have hmany := Reads.many fun tab htab => (h.tabs tab htab).reads.blank hline
  have hr := hmany.bind_pure fun tabs => tabs.foldl DbMeta.setTab { DbMeta.fresh with name := db.name }
  rwa [hput] at hr

end RoundTrip

/-- What `flush_meta` writes, `open_db` reads back. -/
theorem db_read_back (db : DbMeta) (h : db.Named) : ∃ left, DbMeta.fresh.read db.write = some (db, left) := by
  obtain ⟨left, -, hrun⟩ := h.reads [] [] nofun
  simp only [List.nil_append, List.append_nil] at hrun
  exact ⟨left, hrun⟩

def keyCol : ColMeta := ⟨"t", "k", .int, 4, 0, false⟩

def noteCol : ColMeta := ⟨"t", "note_2", .string, 20, 4, true⟩

def twoTables : DbMeta :=
  ⟨"db", [⟨"t", [keyCol, noteCol], [⟨"t", 20, 1, [noteCol]⟩]⟩, ⟨"u", [], []⟩], by decide⟩

example : String.ofList twoTables.write =
    "db\n2\nt\n2\nt k 0 4 0 0\nt note_2 2 20 4 1\n1\nt 20 1\nt note_2 2 20 4 1\n\nu\n0\n0\n\n" := by
    decide

theorem twoTables_named : twoTables.Named := by
  have hkey : keyCol.Named := ⟨isWord_of_isIdentifier rfl, isWord_of_isIdentifier rfl⟩
  have hnote : noteCol.Named := ⟨isWord_of_isIdentifier rfl, isWord_of_isIdentifier rfl⟩
  have hindex : IndexMeta.Named ⟨"t", 20, 1, [noteCol]⟩ :=
    ⟨isWord_of_isIdentifier rfl, rfl, fun col hcol => List.mem_singleton.1 hcol ▸ hnote⟩
  refine ⟨isWord_of_isIdentifier rfl, fun tab htab => ?_⟩
  rcases List.mem_pair.1 htab with rfl | rfl
  · refine ⟨isWord_of_isIdentifier rfl, fun col hcol => ?_, fun index hix =>
      List.mem_singleton.1 hix ▸ hindex⟩
    rcases List.mem_pair.1 hcol with rfl | rfl
    · exact hkey
    · exact hnote
  · exact ⟨isWord_of_isIdentifier rfl, nofun, nofun⟩

theorem twoTables_read_back : ∃ left, DbMeta.fresh.read twoTables.write = some (twoTables, left) :=
  db_read_back twoTables twoTables_named

end Rmdb.SmMeta
