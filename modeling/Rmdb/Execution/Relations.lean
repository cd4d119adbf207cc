import Rmdb.Execution.TableChanges

namespace Rmdb

open IxManager

namespace QueryData

variable {ρ σ β : Type} [LinearOrder β] {data : QueryData ρ β} {other : QueryData σ β}
  {f : String → ρ → σ} {ts : List String} {t : String} {x : ρ} {row : JoinedRow ρ} {cond : Condition}

def mapRow (f : String → ρ → σ) (row : JoinedRow ρ) : JoinedRow σ := fun t => (row t).map (f t)

/-- The rows in another form, in any order. -/
structure Represents (data : QueryData ρ β) (other : QueryData σ β) (f : String → ρ → σ)
    (ts : List String) : Prop where
  rows : ∀ t ∈ ts, (other.rows t).Perm ((data.rows t).map (f t))
  value : ∀ (c : TabCol), c.tabName ∈ ts →
    ∀ x ∈ data.rows c.tabName, other.value c (f c.tabName x) = data.value c x
  literal : other.literal = data.literal

theorem mapRow_merge {l r : JoinedRow ρ} : mapRow f (merge l r) = merge (mapRow f l) (mapRow f r) := by
  funext t
  simp only [mapRow, merge]
  cases l t <;> rfl

theorem mapRow_single : mapRow f (single t x) = single t (f t x) := by
  funext u
  by_cases hu : u = t
  · subst hu
    simp [mapRow, single]
  · simp [mapRow, single, hu]

omit [LinearOrder β] in
theorem Represents.cross (h : data.Represents other f ts) :
    (other.cross ts).Perm ((data.cross ts).map (mapRow f)) := by
  induction ts with
  | nil => exact .refl _
  | cons t ts ih =>
      have hrest :=
        ih ⟨fun u hu => h.rows u (List.mem_cons_of_mem t hu), fun c hc =>
          h.value c (List.mem_cons_of_mem t hc), h.literal⟩
      have hrows := h.rows t List.mem_cons_self
      have hall : ((data.rows t).flatMap fun r => (data.cross ts).map (merge (single t r))).map (mapRow f) =
          ((data.rows t).map (f t)).flatMap fun r => ((data.cross ts).map (mapRow f)).map
            (merge (single t r)) := by
        rw [List.map_flatMap, List.flatMap_map]
        refine List.flatMap_congr fun r _ => ?_
        rw [List.map_map, List.map_map]
        refine List.map_congr_left fun row _ => ?_
        rw [Function.comp_apply, mapRow_merge, mapRow_single]
        rfl
      rw [QueryData.cross, QueryData.cross, hall]
      exact (hrows.flatMap_right _).trans (.flatMap_left _ fun r _ => hrest.map _)

theorem Represents.meets (h : data.Represents other f ts) (hwithin : cond.Within ts)
    (hrow : ∀ t ∈ ts, ∃ x ∈ data.rows t, row t = some x) :
    other.meets (mapRow f row) cond = data.meets row cond := by
  have hcell : ∀ c : TabCol, c.tabName ∈ ts → other.cell (mapRow f row) c = data.cell row c := by
    intro c hc
    obtain ⟨x, hx, hrow⟩ := hrow _ hc
    simp only [cell, mapRow, hrow, Option.map_some, h.value c hc x hx]
  have hrhs : other.rhs (mapRow f row) cond = data.rhs row cond := by
    obtain ⟨lhs, op, v | c⟩ := cond
    · simp only [rhs, h.literal]
    · exact hcell c (hwithin.2 c rfl)
  rw [QueryData.meets, QueryData.meets, hcell _ hwithin.1, hrhs]

end QueryData

structure Heading where
  cols : List ColMeta
  indexes : List IndexMeta

abbrev Headings := String → Option Heading

/-- The state of the abstract database: the tuples of each table, without an order. -/
abbrev Bags := String → Multiset Tuple

namespace Headings

variable (H : Headings)

def cols (tabName : String) : List ColMeta := (H tabName).elim [] Heading.cols

def indexes (tabName : String) : List IndexMeta := (H tabName).elim [] Heading.indexes

def col (c : TabCol) : Option ColMeta :=
  match getCol (H.cols c.tabName) c with
  | .ok col => some col
  | .error _ => none

noncomputable def data (B : Bags) : QueryData Tuple CellValue where
  rows t := (B t).toList
  value c tup := (Tuple.get (H.cols c.tabName) c tup).elim (Sum.inrₗ []) Datum.cell
  literal := Value.cell

def printed (row : JoinedRow Tuple) (c : TabCol) : Bytes :=
  ((row c.tabName).bind (Tuple.get (H.cols c.tabName) c)).elim [] Datum.printed

noncomputable def selects (tabName : String) (conds : List Condition) (tup : Tuple) : Bool :=
  conds.all ((H.data fun _ => 0).meets (QueryData.single tabName tup))

/-- The condition compares columns with these types in the plain ways. -/
def Plain (cond : Condition) : Prop := ∀ db : Database, db.col = H.col → db.Plain cond

def planner (env : DmlEnv) : Planner where
  enableNestedloopJoin := env.enableNestedloopJoin
  enableSortmergeJoin := env.enableSortmergeJoin
  indexes t := (H t).elim [] fun h => h.indexes.map fun ix => ix.cols.map ColMeta.name

/-- No tuple lies above the upper end of the range and below the lower one. -/
def Upright (cols : List ColMeta) (bag : Multiset Tuple) (ix : IndexMeta) (conds : List Condition) : Prop :=
  ∀ lo hi, IndexScanExecutor.lowerKey ix conds = .ok lo →
    IndexScanExecutor.upperKey ix conds = .ok hi → ∀ tup ∈ bag,
    ¬ (IndexScanExecutor.endCode ix hi < keyCode ix.layout.cols (ix.rowKey (Tuple.encode cols tup)) ∧
      keyCode ix.layout.cols (ix.rowKey (Tuple.encode cols tup)) < IndexScanExecutor.endCode ix lo)

/-- A scan with an index compares with literals, and its range is not turned round. -/
def Ready (B : Bags) (x : ScanPlan) : Prop :=
  ∀ names, x.indexColNames = some names → (∀ cond ∈ x.conds, cond.isRhsCol = false) ∧
    ∀ h, H x.tabName = some h →
    ∀ ix ∈ h.indexes, ix.cols.map ColMeta.name = names → Upright h.cols (B x.tabName) ix x.conds

def dmlScan (env : DmlEnv) (tabName : String) (conds : List Condition) : ScanPlan :=
  ⟨tabName, conds, (H.planner env).getIndexCols tabName conds⟩

def Selective (env : DmlEnv) (B : Bags) (tabName : String) (conds : List Condition) : Prop :=
  (∀ cond ∈ conds, H.Plain cond ∧ cond.Within [tabName]) ∧ H.Ready B (H.dmlScan env tabName conds)

/-- What a statement has to be for the tables as they are: an INSERT brings fitting values, if any
row has as many as there are columns; a DELETE leaves a row in a table with indexes, or finds
none; an UPDATE assigns fitting values, to one column of an index at most, and gives the rows keys
that are not in the table; a SELECT has conditions of the kinds that the executors answer. -/
def Legal (env : DmlEnv) (B : Bags) : DmlStmt → Prop
  | .insert t values => ∃ h, H t = some h ∧
      ((∀ vals ∈ values, vals.length = h.cols.length) → ∀ vals ∈ values, Fitting h.cols vals)
  | .delete t conds => ∃ h, H t = some h ∧ H.Selective env B t conds ∧
      (h.indexes ≠ [] → (∃ tup ∈ B t, H.selects t conds tup = true) →
        ∃ tup ∈ B t, H.selects t conds tup = false)
  | .update t clauses conds =>
      ∃ h, H t = some h ∧ H.Selective env B t conds ∧ Assigns h.cols clauses ∧ ∀ ix ∈ h.indexes,
      UpdateExecutor.setCount clauses ix = 0 ∨
        UpdateExecutor.setCount clauses ix = 1 ∧
        UpdateExecutor.NewKeys h.cols clauses (H.selects t conds) (B t) ix
  | .select q selCols =>
      (env.enableNestedloopJoin = true ∨ env.enableSortmergeJoin = true) ∧ q.Known ∧ q.InnerFirst ∧
      (∀ cond ∈ q.conds, H.Plain cond) ∧ (∀ t ∈ q.tables, H t ≠ none) ∧
      (∀ c ∈ selCols, c.tabName ∈ q.tables ∧ ∃ col, H.col c = some col) ∧
      ∀ x ∈ ((H.planner env).tableScans q.tables q.conds).1, H.Ready B x

/-- A statement of the abstract database. A SELECT answers with the selected columns of the rows
of the cross product that meet all conditions. -/
noncomputable def exec (B : Bags) : DmlStmt → Except DmlError (Multiset (List Bytes)) × Bags
  | .insert t values =>
      if ∃ vals ∈ values, vals.length ≠ (H.cols t).length then (.error .invalidValueCount, B)
      else
        let (res, bag) := Tuple.insertRows (H.cols t) (H.indexes t) values (B t)
        (res.map fun _ => 0, Function.update B t bag)
  | .delete t conds => (.ok 0, Function.update B t ((B t).filter fun tup => H.selects t conds tup = false))
  | .update t clauses conds => (.ok 0, Function.update B t
      ((B t).map fun tup => if H.selects t conds tup =
        true then Tuple.assign (H.cols t) clauses tup else tup))
  | .select q selCols =>
      (.ok ↑((((H.data B).cross q.tables).filter fun row =>
        q.conds.all ((H.data B).meets row)).map fun row =>
      selCols.map (H.printed row)), B)

noncomputable def run : List DmlStmt → Bags → List (Except DmlError (Multiset (List Bytes))) × Bags
  | [], B => ([], B)
  | stmt :: stmts, B =>
      let (res, B) := H.exec B stmt
      let (outs, B) := run stmts B
      (res :: outs, B)

def LegalRun (env : DmlEnv) : Bags → List DmlStmt → Prop
  | _, [] => True
  | B, stmt :: stmts => H.Legal env B stmt ∧ LegalRun env (H.exec B stmt).2 stmts

end Headings

end Rmdb
