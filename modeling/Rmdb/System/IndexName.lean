import Rmdb.System.CreateIndex

namespace Rmdb

/-- `identifier {alpha}(_|{alpha}|{digit})*` of the lexer. -/
def isIdentifier (s : String) : Bool :=
  match s.toList with
  | [] => false
  | c :: cs => c.isAlpha && cs.all fun c => c = '_' || c.isAlphanum

def words (name : String) : List (List Char) := name.toList.splitOn '_'

/-- The pieces between the underscores of a file name: those of the table name, then those of the columns. -/
def indexWords (tabName : String) (indexCols : List String) : List (List Char) :=
  (tabName :: indexCols).flatMap words

section Names

variable {tabName tabName' : String} {indexCols indexCols' : List String}

theorem words_join (name col : String) : words (name ++ "_" ++ col) = words name ++ words col := by
  have hlist : (name ++ "_" ++ col).toList = name.toList ++ '_' :: col.toList := by simp
  rw [words, hlist, List.splitOn_append_cons_self, words, words]

theorem words_foldl (tabName : String) (indexCols : List String) :
    words (indexCols.foldl (fun name col => name ++ "_" ++ col) tabName) = indexWords tabName indexCols := by
  induction indexCols generalizing tabName with
  | nil => simp [indexWords]
  | cons col indexCols ih =>
      rw [List.foldl_cons, ih, indexWords, indexWords, List.flatMap_cons, words_join, List.flatMap_cons,
        List.flatMap_cons, List.append_assoc]

theorem words_inj {s s' : String} : words s = words s' ↔ s = s' := by
  constructor
  · intro h
    apply String.toList_inj.1
    calc s.toList = ['_'].intercalate (words s) := (List.intercalate_splitOn _).symm
      _ = ['_'].intercalate (words s') := congrArg _ h
      _ = s'.toList := List.intercalate_splitOn _
  · exact congrArg words

/-- A file name tells the pieces, but not which underscores join the parts. -/
theorem getIndexName_inj_iff :
    getIndexName tabName indexCols = getIndexName tabName' indexCols' ↔
    indexWords tabName indexCols = indexWords tabName' indexCols' := by
  rw [← words_foldl, ← words_foldl, words_inj, getIndexName, getIndexName]
  constructor
  · intro h
    have hlist := congrArg String.toList h
    rw [String.toList_append, String.toList_append, List.append_cancel_right_eq] at hlist
    exact String.toList_inj.1 hlist
  · exact congrArg (· ++ ".idx")

theorem words_of_plain {name : String} (h : '_' ∉ name.toList) : words name = [name.toList] :=
  List.splitOn_eq_singleton h

theorem indexWords_of_plain (h : ∀ name ∈ tabName :: indexCols, '_' ∉ name.toList) :
    indexWords tabName indexCols = (tabName :: indexCols).map String.toList := by
  rw [indexWords, List.map_eq_flatMap]
  apply List.flatMap_congr
  intro name hname
  exact words_of_plain (h name hname)

theorem getIndexName_inj_of_plain (h : ∀ name ∈ tabName :: indexCols, '_' ∉ name.toList)
    (h' : ∀ name ∈ tabName' :: indexCols', '_' ∉ name.toList)
    (heq : getIndexName tabName indexCols = getIndexName tabName' indexCols') :
    tabName = tabName' ∧ indexCols = indexCols' := by
  rw [getIndexName_inj_iff, indexWords_of_plain h, indexWords_of_plain h'] at heq
  have hinj : Function.Injective String.toList := fun _ _ => String.toList_injective
  exact List.cons.inj (List.map_injective_iff.2 hinj heq)

end Names

namespace SmManager

variable {Key : List ColMeta → Type} [∀ cols, IxKey (Key cols)] (copy : ∀ cols, List Bytes → Key cols)

inductive DropError
  | indexNotFound (tabName : String) (colNames : List String)
  | tableNotFound (tabName : String)

/-- `drop_index`. The handle is looked for under the name of the file, the metadata under the columns. -/
def dropIndex (tabName : String) (colNames : List String) (s : SmManager Key) :
    Except DropError Unit × SmManager Key :=
  match s.ihs (getIndexName tabName colNames) with
  | none => (.error (.indexNotFound tabName colNames), s)
  | some _ => match s.tabs tabName with
    | none => (.error (.tableNotFound tabName), s)
    | some tab => match tab.indexes.findIdx? fun cols => cols.map ColMeta.name = colNames with
      | none => (.error (.indexNotFound tabName colNames), s)
      | some i => (.ok (), { s with
          tabs := Function.update s.tabs tabName (some { tab with indexes := tab.indexes.eraseIdx i })
          ihs := Function.update s.ihs (getIndexName tabName colNames) none
          isFile := Function.update s.isFile (getIndexName tabName colNames) false })

def KeepsFile (name : String) (s s' : SmManager Key) : Prop :=
  s'.ihs name = s.ihs name ∧ s'.isFile name = s.isFile name

/-- The file of one index is not that of the other, and no call for the one touches the file or the handle of
the other. -/
structure OwnFile (tabName : String) (indexCols : List String) (tabName' : String)
    (indexCols' : List String) : Prop where
  name : getIndexName tabName indexCols ≠ getIndexName tabName' indexCols'
  create : ∀ lock fuel s, KeepsFile (getIndexName tabName' indexCols') s
    (createIndex copy lock fuel tabName indexCols s).2
  drop : ∀ s : SmManager Key, KeepsFile (getIndexName tabName' indexCols') s (dropIndex tabName indexCols s).2

section Frame

variable {copy} {tabName name : String} {colNames : List String} {tab : TabEntry} {cols : List ColMeta}
  {s : SmManager Key} {lock : Granted} {fuel : Nat}

omit [∀ cols, IxKey (Key cols)] in
theorem KeepsFile.refl (name : String) (s : SmManager Key) : KeepsFile name s s := ⟨rfl, rfl⟩

theorem names_of_getCol (h : colNames.mapM tab.getCol = .ok cols) : cols.map ColMeta.name = colNames := by
  induction colNames generalizing cols with
  | nil =>
      cases h
      rfl
  | cons colName colNames ih =>
      rw [List.mapM_cons] at h
      cases hcol : tab.getCol colName with
      | error e =>
          rw [hcol] at h
          cases h
      | ok col =>
          cases hcols : colNames.mapM tab.getCol with
          | error e =>
              rw [hcol, hcols] at h
              cases h
          | ok rest =>
              rw [hcol, hcols] at h
              cases h
              have hname : col.name = colName := by
                rw [TabEntry.getCol] at hcol
                split at hcol
                · rename_i col' hfind
                  cases hcol
                  simpa using List.find?_some hfind
                · cases hcol
              rw [List.map_cons, hname, ih hcols]

theorem createIndexOn_keepsFile (hne : getIndexName tabName (cols.map ColMeta.name) ≠ name) :
    KeepsFile name s (createIndexOn copy lock fuel tabName tab cols s).2 := by
  have hihs : ∀ ix, Function.update s.ihs (getIndexName tabName (cols.map ColMeta.name)) ix name =
      s.ihs name :=
    fun ix => Function.update_of_ne hne.symm ix s.ihs
  have hfile : Function.update s.isFile (getIndexName tabName (cols.map ColMeta.name)) true name =
      s.isFile name :=
    Function.update_of_ne hne.symm true s.isFile
  rw [createIndexOn]
  split
  · exact .refl name s
  · split
    · exact ⟨rfl, hfile⟩
    · simp only
      split
      · exact ⟨hihs _, hfile⟩
      · refine ⟨?_, hfile⟩
        simp only [putBack, openIndex, Function.update_idem]
        exact hihs _

theorem createIndex_keepsFile (hne : getIndexName tabName colNames ≠ name) :
    KeepsFile name s (createIndex copy lock fuel tabName colNames s).2 := by
  rw [createIndex]
  split
  · exact .refl name s
  · split
    · exact .refl name s
    · rename_i cols hcols
      exact createIndexOn_keepsFile (by rwa [names_of_getCol hcols])

omit [∀ cols, IxKey (Key cols)] in
theorem dropIndex_keepsFile (hne : getIndexName tabName colNames ≠ name) :
    KeepsFile name s (dropIndex tabName colNames s).2 := by
  rw [dropIndex]
  split
  · exact .refl name s
  · split
    · exact .refl name s
    · split
      · exact .refl name s
      · exact ⟨Function.update_of_ne hne.symm _ _, Function.update_of_ne hne.symm _ _⟩

end Frame

/-- Two indexes have files of their own exactly when their names, cut at every underscore, give
different pieces. -/
theorem ownFile_iff (tabName : String) (indexCols : List String) (tabName' : String)
    (indexCols' : List String) :
    OwnFile copy tabName indexCols tabName' indexCols' ↔
    indexWords tabName indexCols ≠ indexWords tabName' indexCols' := by
  constructor
  · intro h heq
    exact h.name (getIndexName_inj_iff.2 heq)
  · intro h
    have hne := mt getIndexName_inj_iff.1 h
    exact ⟨hne, fun _ _ _ => createIndex_keepsFile hne, fun _ => dropIndex_keepsFile hne⟩

/-- The index on `a_b` and the index on `a` and `b`. -/
theorem one_file_for_two : (∀ name ∈ ["t", "a_b", "a", "b"], isIdentifier name) ∧
    ¬ OwnFile copyBytes "t" ["a_b"] "t" ["a", "b"] := by
  refine ⟨by decide, fun h => h.name ?_⟩
  decide

end SmManager

end Rmdb
