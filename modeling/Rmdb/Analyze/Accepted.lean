import Rmdb.Analyze.Analyze
import Rmdb.Execution.CountStar

namespace Rmdb

open Analyze

/-- The column that a name stands for: the only one with it, or the one of the table in front of it. -/
inductive Resolves (allCols : List ColMeta) (c : SelectedCol) : SelectedCol → Prop
  | qualified (h : c.col.tabName ≠ "") : Resolves allCols c c
  | named {col : ColMeta} (h : c.col.tabName = "")
      (honly : (allCols.filter fun d => d.name = c.col.colName) = [col]) :
      Resolves allCols c ⟨⟨col.tabName, c.col.colName⟩, c.aggr⟩
  | star (h : c.col.tabName = "") (hnone : ∀ d ∈ allCols, d.name ≠ c.col.colName)
      (haggr : c.aggr = .count) (hcol : c.col.colName = "*") :
      Resolves allCols c c

def IsColumn (db : String → Option (List ColMeta)) (c : TabCol) (col : ColMeta) : Prop :=
  ∃ cols, db c.tabName = some cols ∧ cols.find? (fun d => d.name = c.colName) = some col

def ColType.IsNumber (type : ColType) : Prop := type = .int ∨ type = .float

inductive Comparable (db : String → Option (List ColMeta)) (type : ColType) (len : Nat) : QueryRhs → Prop
  | number {v : Value} (htype : type.IsNumber) (hv : v.type.IsNumber) (hlen : len = 4) :
      Comparable db type len (.val v)
  | text {s : Bytes} {n : Int} (htype : type = .string) (hlen : s.length ≤ len) :
      Comparable db type len (.val (.string s n))
  | col {c : SelectedCol} {col : ColMeta} (hcol : IsColumn db c.col col)
      (htype : type = col.type ∨ type.IsNumber ∧ col.type.IsNumber) :
      Comparable db type len (.col c)

inductive RhsResolves (allCols : List ColMeta) : QueryRhs → QueryRhs → Prop
  | val (v : Value) : RhsResolves allCols (.val v) (.val v)
  | col {c c' : SelectedCol} (haggr : c.aggr = .none) (h : Resolves allCols c c') :
      RhsResolves allCols (.col c) (.col c')

def SelectedCol.IsCountStar (c : SelectedCol) : Prop := c.aggr = .count ∧ c.col.colName = "*"

structure CondResolves (db : String → Option (List ColMeta)) (allCols : List ColMeta) (isHaving : Bool)
    (cond cond' : QueryCond) : Prop where
  aggr : isHaving = true ∨ cond.lhs.aggr = .none
  lhs : Resolves allCols cond.lhs cond'.lhs
  op : cond'.op = cond.op
  rhs : RhsResolves allCols cond.rhs cond'.rhs
  count : cond'.lhs.IsCountStar → Comparable db .int 4 cond'.rhs
  column : ¬ cond'.lhs.IsCountStar → ∃ col, IsColumn db cond'.lhs.col col ∧
    Comparable db col.type col.len cond'.rhs

def colsOf (db : String → Option (List ColMeta)) (tabs : List String) : List ColMeta :=
  tabs.flatMap fun t => (db t).getD []

/-- The statement is a query, and this is it. Without GROUP BY the select list has aggregates only
or none; with it, every other column of the list is grouped by. -/
structure SelectResolves (db : String → Option (List ColMeta)) (strLen : Int) (x : SelectStmt)
    (q : Query) : Prop where
  tables : q.tables = x.tabs ∧ ∀ t ∈ x.tabs, db t ≠ none
  unused : q.setClauses = [] ∧ q.values = []
  hasAggr : q.hasAggr = true ↔ ∃ c ∈ x.cols, c.aggr ≠ .none
  star : x.cols = [] → q.cols = (colsOf db x.tabs).map fun col => ⟨⟨col.tabName, col.name⟩, .none⟩
  cols : x.cols ≠ [] → List.Forall₂ (Resolves (colsOf db x.tabs)) x.cols q.cols
  ungrouped : x.group = none → ((∀ c ∈ x.cols, c.aggr = .none) ∨ ∀ c ∈ x.cols, c.aggr ≠ .none) ∧
    q.groupCols = [] ∧ q.havingConds = []
  grouped : ∀ g, x.group = some g → (x.cols ≠ [] → g.cols ≠ []) ∧
    List.Forall₂ (Resolves (colsOf db x.tabs)) g.cols q.groupCols ∧
    List.Forall₂ (CondResolves db (colsOf db x.tabs) true) (getClause strLen g.conds) q.havingConds ∧
    ∀ sel ∈ q.cols, sel.aggr = .none → ∃ g ∈ q.groupCols, g.col = sel.col
  onConds : List.Forall₂ (CondResolves db (colsOf db x.tabs) false) (getClause strLen x.onConds) q.onConds
  conds : List.Forall₂ (CondResolves db (colsOf db x.tabs) false) (getClause strLen x.conds) q.conds

def Accepts (db : String → Option (List ColMeta)) (strLen : Int) : SvStmt → Query → Prop
  | .select x, q => SelectResolves db strLen x q
  | .update t setClauses conds, q => db t ≠ none ∧
      List.Forall₂ (CondResolves db (colsOf db [t]) false) (getClause strLen conds) q.conds ∧
      q = { conds := q.conds, setClauses := setClauses.map fun c => ⟨⟨t, c.1⟩, c.2.value strLen⟩ }
  | .delete t conds, q => db t ≠ none ∧
      List.Forall₂ (CondResolves db (colsOf db [t]) false) (getClause strLen conds) q.conds ∧
      q = { conds := q.conds }
  | .insert _ vals, q => q = { values := vals.map fun values => values.map (SvValue.value strLen) }

section Columns

variable {db : String → Option (List ColMeta)} {cols allCols : List ColMeta} {col : ColMeta}
  {c c' : SelectedCol} {colName tabName : String} {tabs : List String} {type : ColType}
  {len : Nat} {rhs : QueryRhs}

theorem inferTable_found (colName : String) (cols : List ColMeta) (h : tabName ≠ "") :
    inferTable colName cols tabName = .ok tabName ∧ (cols.filter fun d => d.name = colName) = [] ∨
      inferTable colName cols tabName = .error (.ambiguousColumn colName) ∧
      (cols.filter fun d => d.name = colName) ≠ [] := by
  induction cols with
  | nil => exact .inl ⟨rfl, rfl⟩
  | cons d cols ih =>
      by_cases hd : d.name = colName
      · refine .inr ⟨by rw [inferTable, if_pos hd, if_pos h], ?_⟩
        rw [List.filter_cons, if_pos (by simpa using hd)]
        exact List.cons_ne_nil _ _
      · rw [inferTable, if_neg hd, List.filter_cons, if_neg (by simpa using hd)]
        exact ih

theorem inferTable_ok_iff (hnamed : ∀ d ∈ cols, d.tabName ≠ "") : inferTable colName cols "" = .ok tabName ↔
    (cols.filter fun d => d.name = colName) = [] ∧ tabName = "" ∨
      ∃ col, (cols.filter fun d => d.name = colName) = [col] ∧ tabName = col.tabName := by
  induction cols with
  | nil => simp [inferTable, eq_comm]
  | cons d cols ih =>
      by_cases hd : d.name = colName
      · have hne := hnamed d List.mem_cons_self
        rw [inferTable, if_pos hd, if_neg (not_not.2 rfl), List.filter_cons, if_pos (by simpa using hd)]
        rcases inferTable_found colName cols hne with ⟨hrun, hnil⟩ | ⟨hrun, hnil⟩
        · rw [hrun, hnil]
          constructor
          · intro h
            cases h
            exact .inr ⟨d, rfl, rfl⟩
          · rintro (⟨h, -⟩ | ⟨col, hcol, rfl⟩)
            · cases h
            · cases hcol
              rfl
        · simp [hrun, hnil]
      · rw [inferTable, if_neg hd, List.filter_cons, if_neg (by simpa using hd)]
        exact ih fun e he => hnamed e (List.mem_cons_of_mem _ he)

theorem checkColumn_ok_iff (hnamed : ∀ d ∈ allCols, d.tabName ≠ "") :
    checkColumn allCols c = .ok c' ↔ Resolves allCols c c' := by
  constructor
  · intro h
    rw [checkColumn] at h
    split at h
    · next hempty =>
      cases hinfer : inferTable c.col.colName allCols "" with
      | error e =>
          rw [hinfer] at h
          cases h
      | ok tabName =>
          simp only [hinfer, bind, Except.bind] at h
          rcases (inferTable_ok_iff hnamed).1 hinfer with ⟨hnil, rfl⟩ | ⟨col, hcol, rfl⟩
          · rw [if_pos rfl] at h
            split at h
            · next hstar =>
              cases h
              refine .star hempty (fun d hd hname => ?_) hstar.1 hstar.2
              exact List.filter_eq_nil_iff.1 hnil d hd (decide_eq_true hname)
            · cases h
          · have hmem : col ∈ allCols := List.mem_of_mem_filter (hcol ▸ List.mem_cons_self)
            rw [if_neg (hnamed col hmem)] at h
            cases h
            exact .named hempty hcol
    · next hne =>
      cases h
      exact .qualified hne
  · intro h
    cases h with
    | qualified hne => rw [checkColumn, if_neg hne]; rfl
    | @named col hempty hcol =>
        have hmem : col ∈ allCols := List.mem_of_mem_filter (hcol ▸ List.mem_cons_self)
        have hinfer := (inferTable_ok_iff hnamed).2 (.inr ⟨col, hcol, rfl⟩)
        rw [checkColumn, if_pos hempty]
        simp only [hinfer, bind, Except.bind, if_neg (hnamed col hmem)]
        rfl
    | star hempty hnone haggr hcol =>
        have hinfer := (inferTable_ok_iff hnamed).2 (.inl ⟨List.filter_eq_nil_iff.2 fun d hd hname =>
          hnone d hd (of_decide_eq_true hname), rfl⟩)
        rw [checkColumn, if_pos hempty]
        simp only [hinfer, bind, Except.bind, if_true, if_pos (And.intro haggr hcol)]
        rfl

theorem findCol_ok_iff {c : TabCol} : findCol db c = .ok col ↔ IsColumn db c col := by
  rw [findCol, getTable]
  constructor
  · intro h
    cases hdb : db c.tabName with
    | none =>
        rw [hdb] at h
        cases h
    | some cols =>
        simp only [hdb, bind, Except.bind] at h
        split at h
        · next hfind =>
          cases h
          exact ⟨cols, hdb, hfind⟩
        · cases h
  · rintro ⟨cols, hdb, hfind⟩
    simp only [hdb, bind, Except.bind, hfind]

theorem valueTypeMatch_iff {type1 type2 : ColType} :
    valueTypeMatch type1 type2 = true ↔ type1 = type2 ∨ type1.IsNumber ∧ type2.IsNumber := by
  cases type1 <;> cases type2 <;> simp [valueTypeMatch, ColType.IsNumber]

theorem checkRhs_iff : checkRhs db type len rhs = .ok () ↔
    ∃ t, rhsType db len rhs = .ok t ∧ (type = t ∨ type.IsNumber ∧ t.IsNumber) := by
  rw [checkRhs]
  cases hrhs : rhsType db len rhs with
  | error e => simp [bind, Except.bind]
  | ok t =>
      simp only [bind, Except.bind, Except.ok.injEq, exists_eq_left', ← valueTypeMatch_iff]
      cases valueTypeMatch type t <;> simp [pure, Except.pure]

/-- A literal gets its bytes if it is a number of four bytes or a text that is not too long. -/
theorem rhsType_val_iff {v : Value} {t : ColType} : rhsType db len (.val v) = .ok t ↔
    t = v.type ∧ (v.type.IsNumber ∧ len = 4 ∨ ∃ s n, v = .string s n ∧ s.length ≤ len) := by
  cases v with
  | int i =>
      by_cases hlen : len = 4 <;>
        simp [rhsType, Value.initRaw, Value.type, ColType.IsNumber, hlen, Except.mapError,
          Except.map, eq_comm]
  | float x =>
      by_cases hlen : len = 4 <;>
        simp [rhsType, Value.initRaw, Value.type, ColType.IsNumber, hlen, Except.mapError,
          Except.map, eq_comm]
  | string s n =>
      by_cases hlen : len < s.length
      · simp [rhsType, Value.initRaw, Value.type, ColType.IsNumber, hlen, Except.mapError, Except.map]
      · simp [rhsType, Value.initRaw, Value.type, ColType.IsNumber, hlen, Nat.not_lt.1 hlen,
          Except.mapError, Except.map, eq_comm]

theorem checkRhs_ok_iff : checkRhs db type len rhs = .ok () ↔ Comparable db type len rhs := by
  rw [checkRhs_iff]
  constructor
  · rintro ⟨t, hrhs, hmatch⟩
    cases rhs with
    | val v =>
        obtain ⟨rfl, ⟨hv, hlen⟩ | ⟨s, n, rfl, hlen⟩⟩ := rhsType_val_iff.1 hrhs
        · exact .number (hmatch.elim (fun heq => heq ▸ hv) And.left) hv hlen
        · exact .text (hmatch.resolve_right fun hc => by simp [ColType.IsNumber, Value.type] at hc) hlen
    | col c =>
        obtain ⟨col, hcol, rfl⟩ : ∃ col, findCol db c.col = .ok col ∧ col.type = t := by
          rw [rhsType] at hrhs
          cases hfind : findCol db c.col with
          | error e =>
              rw [hfind] at hrhs
              cases hrhs
          | ok col =>
              rw [hfind] at hrhs
              cases hrhs
              exact ⟨col, rfl, rfl⟩
        exact .col (findCol_ok_iff.1 hcol) hmatch
  · intro h
    cases h with
    | @number v htype hv hlen => exact ⟨v.type, rhsType_val_iff.2 ⟨rfl, .inl ⟨hv, hlen⟩⟩, .inr ⟨htype, hv⟩⟩
    | @text s n htype hlen => exact ⟨.string, rhsType_val_iff.2 ⟨rfl, .inr ⟨s, n, rfl, hlen⟩⟩, .inl htype⟩
    | @col c col hcol htype => exact ⟨col.type, by rw [rhsType, findCol_ok_iff.2 hcol]; rfl, htype⟩

theorem getAllCols_ok_iff :
    getAllCols db tabs = .ok allCols ↔ (∀ t ∈ tabs, db t ≠ none) ∧ allCols = colsOf db tabs := by
  induction tabs generalizing allCols with
  | nil => simp [getAllCols, colsOf, eq_comm]
  | cons t tabs ih =>
      rw [getAllCols, getTable]
      cases hdb : db t with
      | none => simp [hdb, bind, Except.bind]
      | some cols =>
          cases hrest : getAllCols db tabs with
          | error e =>
              have hno : ¬ ∀ u ∈ tabs, db u ≠ none := fun hall => by
                have hok := ih.2 ⟨hall, rfl⟩
                rw [hrest] at hok
                cases hok
              simp [hdb, hno, bind, Except.bind]
          | ok rest =>
              obtain ⟨hall, rfl⟩ := ih.1 hrest
              simp only [hdb, bind, Except.bind, pure, Except.pure, Except.ok.injEq, List.forall_mem_cons,
                colsOf, List.flatMap_cons, Option.getD_some, ne_eq, reduceCtorEq, not_false_iff, true_and]
              exact ⟨fun heq => ⟨hall, heq.symm⟩, fun heq => heq.2.symm⟩

theorem tabName_of_colsOf (tabs : List String)
    (hnamed : ∀ t cols, db t = some cols → ∀ d ∈ cols, d.tabName ≠ "") :
    ∀ d ∈ colsOf db tabs, d.tabName ≠ "" := by
  intro d hd
  obtain ⟨t, -, hmem⟩ := List.mem_flatMap.1 hd
  cases hdb : db t with
  | none =>
      rw [hdb] at hmem
      cases hmem
  | some cols =>
      rw [hdb] at hmem
      exact hnamed t cols hdb d hmem

end Columns

section Clauses

variable {db : String → Option (List ColMeta)} {strLen : Int} {allCols : List ColMeta} {isHaving : Bool}
  {cond cond' : QueryCond} {conds conds' : List QueryCond} {rhs rhs' : QueryRhs} {tabs : List String}
  {group : Option GroupBy} {cols : List SelectedCol}

theorem bind_ok_iff {ε α β : Type} {x : Except ε α} {f : α → Except ε β} {b : β} :
    (x >>= f) = .ok b ↔ ∃ a, x = .ok a ∧ f a = .ok b := by
  cases x <;> simp [bind, Except.bind]

theorem checkRhsCol_ok_iff (hnamed : ∀ d ∈ allCols, d.tabName ≠ "") :
    rhs.hasAggr = false ∧ checkRhsCol allCols rhs = .ok rhs' ↔ RhsResolves allCols rhs rhs' := by
  constructor
  · rintro ⟨haggr, h⟩
    cases rhs with
    | val v =>
        cases h
        exact .val v
    | col c =>
        rw [checkRhsCol] at h
        cases hcol : checkColumn allCols c with
        | error e =>
            rw [hcol] at h
            cases h
        | ok c' =>
            rw [hcol] at h
            cases h
            exact .col (by simpa [QueryRhs.hasAggr] using haggr) ((checkColumn_ok_iff hnamed).1 hcol)
  · intro h
    cases h with
    | val v => exact ⟨rfl, rfl⟩
    | @col c c' haggr h =>
        refine ⟨by simp [QueryRhs.hasAggr, haggr], ?_⟩
        rw [checkRhsCol, (checkColumn_ok_iff hnamed).2 h]
        rfl

theorem checkTypes_ok_iff {lhs : SelectedCol} :
    checkTypes db lhs rhs = .ok () ↔ (lhs.IsCountStar → Comparable db .int 4 rhs) ∧
    (¬ lhs.IsCountStar → ∃ col, IsColumn db lhs.col col ∧ Comparable db col.type col.len rhs) := by
  rw [checkTypes]
  by_cases hstar : lhs.IsCountStar
  · have hcond : lhs.aggr = .count ∧ lhs.col.colName = "*" := hstar
    rw [if_pos hcond, checkRhs_ok_iff]
    exact ⟨fun h => ⟨fun _ => h, fun hc => absurd hstar hc⟩, fun h => h.1 hstar⟩
  · have hcond : ¬ (lhs.aggr = .count ∧ lhs.col.colName = "*") := hstar
    rw [if_neg hcond, bind_ok_iff]
    simp only [findCol_ok_iff, checkRhs_ok_iff]
    exact ⟨fun h => ⟨fun hc => absurd hc hstar, fun _ => h⟩, fun h => h.2 hstar⟩

theorem checkCond_ok_iff (hnamed : ∀ d ∈ allCols, d.tabName ≠ "") :
    checkCond db allCols isHaving cond = .ok cond' ↔ CondResolves db allCols isHaving cond cond' := by
  rw [checkCond]
  constructor
  · intro h
    split at h
    · cases h
    · next haggr =>
      obtain ⟨hleft, hright⟩ := not_or.1 haggr
      obtain ⟨lhs, hlhs, h⟩ := bind_ok_iff.1 h
      obtain ⟨rhs, hrhs, h⟩ := bind_ok_iff.1 h
      obtain ⟨⟨⟩, htypes, h⟩ := bind_ok_iff.1 h
      cases h
      obtain ⟨hcount, hcolumn⟩ := checkTypes_ok_iff.1 htypes
      refine ⟨?_, (checkColumn_ok_iff hnamed).1 hlhs, rfl,
        (checkRhsCol_ok_iff hnamed).1 ⟨by simpa using hright, hrhs⟩, hcount, hcolumn⟩
      cases isHaving with
      | true => exact .inl rfl
      | false => exact .inr (not_not.1 fun hne => hleft ⟨rfl, hne⟩)
  · rintro ⟨haggr, hlhs, hop, hrhs, hcount, hcolumn⟩
    obtain ⟨hright, hrun⟩ := (checkRhsCol_ok_iff hnamed).2 hrhs
    have hno : ¬ (isHaving = false ∧ cond.lhs.aggr ≠ .none ∨ cond.rhs.hasAggr = true) := by
      rintro (⟨hfalse, hne⟩ | htrue)
      · rcases haggr with htrue | hnone
        · rw [hfalse] at htrue
          cases htrue
        · exact hne hnone
      · rw [hright] at htrue
        cases htrue
    rw [if_neg hno, (checkColumn_ok_iff hnamed).2 hlhs, hrun]
    simp only [bind, Except.bind, checkTypes_ok_iff.2 ⟨hcount, hcolumn⟩, ← hop]
    rfl

theorem checkClause_ok_iff (hnamed : ∀ t cols, db t = some cols → ∀ d ∈ cols, d.tabName ≠ "")
    (htabs : ∀ t ∈ tabs, db t ≠ none) :
    checkClause db tabs conds isHaving = .ok conds' ↔
    List.Forall₂ (CondResolves db (colsOf db tabs) isHaving) conds conds' := by
  have hcols := tabName_of_colsOf tabs hnamed
  rw [checkClause, getAllCols_ok_iff.2 ⟨htabs, rfl⟩]
  constructor
  · intro h
    exact (mapM_ok h).imp fun cond cond' hc => (checkCond_ok_iff hcols).1 hc
  · intro h
    exact mapM_of_forall₂ (h.imp fun cond cond' hc => (checkCond_ok_iff hcols).2 hc)

theorem checkTables_ok_iff : checkTables db tabs = .ok () ↔ ∀ t ∈ tabs, db t ≠ none := by
  induction tabs with
  | nil => simp [checkTables]
  | cons t tabs ih =>
      rw [checkTables, List.forall_mem_cons]
      cases hdb : db t with
      | none => simp
      | some cols => simpa using ih

/-- The flags say what the list has had so far; without GROUP BY they are never both raised. -/
theorem checkTargets_ok_iff {hasAggr hasNonAggr b : Bool}
    (hflags : group = none → ¬ (hasAggr = true ∧ hasNonAggr = true)) :
    checkTargets group cols hasAggr hasNonAggr = .ok b ↔ (cols ≠ [] → ∀ g, group = some g → g.cols ≠ []) ∧
      (group = none → ¬ ((hasAggr = true ∨ ∃ c ∈ cols, c.aggr ≠ .none) ∧
        (hasNonAggr = true ∨ ∃ c ∈ cols, c.aggr = .none))) ∧
      (b = true ↔ hasAggr = true ∨ ∃ c ∈ cols, c.aggr ≠ .none) := by
  induction cols generalizing hasAggr hasNonAggr with
  | nil =>
      have hb : hasAggr = b ↔ (b = true ↔ hasAggr = true) := by cases hasAggr <;> cases b <;> simp
      simp only [checkTargets, Except.ok.injEq, hb, ne_eq, not_true_eq_false, false_implies,
        List.not_mem_nil, false_and, exists_false, or_false, true_and]
      exact ⟨fun h => ⟨hflags, h⟩, fun h => h.2⟩
  | cons c cols ih =>
      have haggr : ((hasAggr || decide (c.aggr ≠ .none)) = true ∨ ∃ d ∈ cols, d.aggr ≠ .none) ↔
          hasAggr = true ∨ ∃ d ∈ c :: cols, d.aggr ≠ .none := by simp [or_assoc]
      have hnon : ((hasNonAggr || decide (c.aggr = .none)) = true ∨ ∃ d ∈ cols, d.aggr = .none) ↔
          hasNonAggr = true ∨ ∃ d ∈ c :: cols, d.aggr = .none := by simp [or_assoc]
      rw [checkTargets]
      cases group with
      | none =>
          by_cases hboth : (hasAggr || decide (c.aggr ≠ .none)) = true ∧
            (hasNonAggr || decide (c.aggr = .none)) = true
          · have hmixed := And.intro (haggr.1 (.inl hboth.1)) (hnon.1 (.inl hboth.2))
            simp only [Option.any_none, Bool.false_eq_true, if_false, hboth.1, hboth.2,
              Option.isNone_none, Bool.and_self, if_true, reduceCtorEq, false_iff]
            exact fun h => h.2.1 trivial hmixed
          · have hpass : ((hasAggr || decide (c.aggr ≠ .none)) &&
                (hasNonAggr || decide (c.aggr = .none)) && true) = false := by
              rw [Bool.and_true, Bool.eq_false_iff, ne_eq, Bool.and_eq_true]
              exact hboth
            simp only [Option.any_none, Bool.false_eq_true, if_false, Option.isNone_none, hpass,
              ih fun _ => hboth, haggr, hnon, reduceCtorEq, false_implies, implies_true, true_and]
      | some g =>
          by_cases hempty : g.cols = []
          · simp only [Option.any_some, hempty, List.isEmpty_nil, if_true, reduceCtorEq, false_iff]
            exact fun h => h.1 (List.cons_ne_nil _ _) g rfl hempty
          · have hne : g.cols.isEmpty = false := by simpa using hempty
            simp only [Option.any_some, hne, Bool.false_eq_true, if_false, Option.isNone_some, Bool.and_false]
            have hsome : some g = none → ¬ ((hasAggr || decide (c.aggr ≠ .none)) = true ∧
                (hasNonAggr || decide (c.aggr = .none)) = true) := fun hc => by cases hc
            rw [ih hsome, haggr]
            simp [hempty]

theorem foldlM_const {ε α β : Type} {r : Except ε β} {l : List α} {init b : β} :
    l.foldlM (fun _ _ => r) init = .ok b ↔ l = [] ∧ b = init ∨ l ≠ [] ∧ r = .ok b := by
  induction l generalizing init with
  | nil => simp [pure, Except.pure, eq_comm]
  | cons a l ih =>
      rw [List.foldlM_cons]
      cases r with
      | error e => simp [bind, Except.bind]
      | ok c =>
          simp only [bind, Except.bind]
          rw [ih]
          by_cases hl : l = [] <;> simp [hl, eq_comm]

theorem groupClause_ok_iff {g : GroupBy} {res : List SelectedCol × List QueryCond}
    (hnamed : ∀ t cols, db t = some cols → ∀ d ∈ cols, d.tabName ≠ "") (htabs : ∀ t ∈ tabs, db t ≠ none) :
    groupClause db strLen tabs (colsOf db tabs) cols g = .ok res ↔
    List.Forall₂ (Resolves (colsOf db tabs)) g.cols res.1 ∧
      List.Forall₂ (CondResolves db (colsOf db tabs) true) (getClause strLen g.conds) res.2 ∧
      ∀ sel ∈ cols, sel.aggr = .none → ∃ c ∈ res.1, c.col = sel.col := by
  have hcols := tabName_of_colsOf tabs hnamed
  have hhaving : ∀ conds,
    g.conds.foldlM (fun _ _ => checkClause db tabs (getClause strLen g.conds) true) [] = .ok conds ↔
      List.Forall₂ (CondResolves db (colsOf db tabs) true) (getClause strLen g.conds) conds := by
    intro conds
    rw [foldlM_const, checkClause_ok_iff hnamed htabs]
    by_cases hnil : g.conds = []
    · rw [hnil]
      simp [getClause]
    · simp [hnil]
  have hlist : ∀ groupCols, g.cols.mapM (checkColumn (colsOf db tabs)) = .ok groupCols ↔
      List.Forall₂ (Resolves (colsOf db tabs)) g.cols groupCols := fun groupCols =>
    ⟨fun h => (mapM_ok h).imp fun _ _ hc => (checkColumn_ok_iff hcols).1 hc,
      fun h => mapM_of_forall₂ (h.imp fun _ _ hc => (checkColumn_ok_iff hcols).2 hc)⟩
  have hgrouped : ∀ groupCols : List SelectedCol, (¬ ∃ sel ∈ cols, sel.aggr = .none ∧
      ∀ g ∈ groupCols, ¬ (sel.col.colName = g.col.colName ∧ sel.col.tabName = g.col.tabName)) ↔
      ∀ sel ∈ cols, sel.aggr = .none → ∃ c ∈ groupCols, c.col = sel.col := by
    intro groupCols
    have heq : ∀ c d : TabCol, c = d ↔ d.colName = c.colName ∧ d.tabName = c.tabName := fun c d => by
      cases c
      cases d
      simp [TabCol.mk.injEq, and_comm, eq_comm]
    simp only [heq]
    push Not
    rfl
  rw [groupClause]
  constructor
  · intro h
    obtain ⟨having, hrun, h⟩ := bind_ok_iff.1 h
    obtain ⟨groupCols, hmap, h⟩ := bind_ok_iff.1 h
    split at h
    · cases h
    · next hno =>
      cases h
      exact ⟨(hlist _).1 hmap, (hhaving _).1 hrun, (hgrouped _).1 hno⟩
  · rintro ⟨hres, hconds, hsel⟩
    rw [(hhaving _).2 hconds]
    simp only [bind, Except.bind, (hlist _).2 hres, if_neg ((hgrouped _).2 hsel)]
    rfl

theorem selectList_ok_iff {cols' : List SelectedCol} (hnamed : ∀ d ∈ allCols, d.tabName ≠ "") :
    selectList allCols cols = .ok cols' ↔
    (cols = [] → cols' = allCols.map fun col => ⟨⟨col.tabName, col.name⟩, .none⟩) ∧
      (cols ≠ [] → List.Forall₂ (Resolves allCols) cols cols') := by
  rw [selectList]
  by_cases hnil : cols = []
  · rw [if_pos (by simpa using hnil)]
    simp [hnil, eq_comm]
  · rw [if_neg (by simpa using hnil)]
    refine ⟨fun h => ⟨fun hc => absurd hc hnil, fun _ => (mapM_ok h).imp fun _ _ hc =>
      (checkColumn_ok_iff hnamed).1 hc⟩,
      fun h => mapM_of_forall₂ ((h.2 hnil).imp fun _ _ hc => (checkColumn_ok_iff hnamed).2 hc)⟩

theorem select_ok_iff {x : SelectStmt} {q : Query}
    (hnamed : ∀ t cols, db t = some cols → ∀ d ∈ cols, d.tabName ≠ "") :
    select db strLen x = .ok q ↔ SelectResolves db strLen x q := by
  have hflags : x.group = none → ¬ (false = true ∧ false = true) := fun _ h => Bool.false_ne_true h.1
  have hcols := tabName_of_colsOf x.tabs hnamed
  rw [select]
  constructor
  · intro h
    obtain ⟨⟨⟩, htabs, h⟩ := bind_ok_iff.1 h
    obtain ⟨hasAggr, htargets, h⟩ := bind_ok_iff.1 h
    obtain ⟨allCols, hall, h⟩ := bind_ok_iff.1 h
    obtain ⟨cols, hlist, h⟩ := bind_ok_iff.1 h
    obtain ⟨grouped, hgroup, h⟩ := bind_ok_iff.1 h
    obtain ⟨onConds, hon, h⟩ := bind_ok_iff.1 h
    obtain ⟨conds, hwhere, h⟩ := bind_ok_iff.1 h
    cases h
    have hknown := checkTables_ok_iff.1 htabs
    obtain ⟨-, rfl⟩ := getAllCols_ok_iff.1 hall
    obtain ⟨hgroupCols, hmixed, haggr⟩ := (checkTargets_ok_iff hflags).1 htargets
    obtain ⟨hstar, hresolved⟩ := (selectList_ok_iff hcols).1 hlist
    simp only [Bool.false_eq_true, false_or] at hmixed haggr
    refine ⟨⟨rfl, hknown⟩, ⟨rfl, rfl⟩, haggr, hstar, hresolved, fun hnone => ?_, fun g hg => ?_,
      (checkClause_ok_iff hnamed hknown).1 hon, (checkClause_ok_iff hnamed hknown).1 hwhere⟩
    · rw [hnone] at hgroup
      cases hgroup
      refine ⟨?_, rfl, rfl⟩
      by_cases hsome : ∃ c ∈ x.cols, c.aggr ≠ .none
      · exact .inr fun c hc hcnone => hmixed hnone ⟨hsome, c, hc, hcnone⟩
      · exact .inl fun c hc => not_not.1 fun hne => hsome ⟨c, hc, hne⟩
    · rw [hg] at hgroup
      obtain ⟨hby, hhaving, hsel⟩ := (groupClause_ok_iff hnamed hknown).1 hgroup
      exact ⟨fun hne => hgroupCols hne g hg, hby, hhaving, hsel⟩
  · rintro ⟨⟨htables, hknown⟩, ⟨hset, hvalues⟩, haggr, hstar, hresolved, hungrouped, hgrouped, hon, hwhere⟩
    have htargets : checkTargets x.group x.cols false false = .ok q.hasAggr := by
      refine (checkTargets_ok_iff hflags).2 ⟨fun hne g hg => (hgrouped g hg).1 hne, fun hnone hboth => ?_,
        by simpa using haggr⟩
      simp only [Bool.false_eq_true, false_or] at hboth
      obtain ⟨⟨c, hc, hcne⟩, d, hd, hdnone⟩ := hboth
      exact (hungrouped hnone).1.elim (fun hall => hcne (hall c hc)) fun hall => hall d hd hdnone
    have hgroup : checkGroup db strLen x.tabs (colsOf db x.tabs) q.cols x.group =
        .ok (q.groupCols, q.havingConds) := by
      cases hg : x.group with
      | none =>
          obtain ⟨-, hno, hnone⟩ := hungrouped hg
          rw [checkGroup, hno, hnone]
      | some g =>
          obtain ⟨-, hby, hhaving, hsel⟩ := hgrouped g hg
          exact (groupClause_ok_iff hnamed hknown).2 ⟨hby, hhaving, hsel⟩
    rw [checkTables_ok_iff.2 hknown, htargets, getAllCols_ok_iff.2 ⟨hknown, rfl⟩]
    simp only [bind, Except.bind, (selectList_ok_iff hcols).2 ⟨hstar, hresolved⟩, hgroup,
      (checkClause_ok_iff hnamed hknown).2 hon, (checkClause_ok_iff hnamed hknown).2 hwhere,
      pure, Except.pure]
    cases q
    simp only at htables hset hvalues
    rw [htables, hset, hvalues]

theorem checkClause_table_iff {t : String}
    (hnamed : ∀ t cols, db t = some cols → ∀ d ∈ cols, d.tabName ≠ "") :
    checkClause db [t] conds isHaving = .ok conds' ↔
      db t ≠ none ∧ List.Forall₂ (CondResolves db (colsOf db [t]) isHaving) conds conds' := by
  by_cases ht : db t = none
  · have hfail : ∃ e, checkClause db [t] conds isHaving = .error e := by
      rw [checkClause, getAllCols, getTable, ht]
      exact ⟨_, rfl⟩
    obtain ⟨e, hfail⟩ := hfail
    rw [hfail]
    simp [ht]
  · rw [checkClause_ok_iff hnamed (List.forall_mem_singleton.2 ht)]
    exact ⟨fun h => ⟨ht, h⟩, And.right⟩

end Clauses

/-- The analysis accepts exactly the statements that make sense, and resolves all their names. -/
theorem doAnalyze_ok_iff (db : String → Option (List ColMeta)) (strLen : Int) (stmt : SvStmt) (q : Query)
    (hnamed : ∀ t cols, db t = some cols → ∀ d ∈ cols, d.tabName ≠ "") :
    doAnalyze db strLen stmt = .ok q ↔ Accepts db strLen stmt q := by
  cases stmt with
  | select x => exact select_ok_iff hnamed
  | insert t vals => exact ⟨fun h => by cases h; rfl, fun h => by rw [h]; rfl⟩
  | delete t conds =>
      rw [doAnalyze, bind_ok_iff]
      simp only [checkClause_table_iff hnamed, Accepts]
      constructor
      · rintro ⟨conds', ⟨ht, hconds⟩, h⟩
        cases h
        exact ⟨ht, hconds, rfl⟩
      · rintro ⟨ht, hconds, hq⟩
        exact ⟨q.conds, ⟨ht, hconds⟩, by rw [hq]; rfl⟩
  | update t setClauses conds =>
      rw [doAnalyze, bind_ok_iff]
      simp only [checkClause_table_iff hnamed, Accepts]
      constructor
      · rintro ⟨conds', ⟨ht, hconds⟩, h⟩
        cases h
        exact ⟨ht, hconds, rfl⟩
      · rintro ⟨ht, hconds, hq⟩
        exact ⟨q.conds, ⟨ht, hconds⟩, by rw [hq]; rfl⟩

section Example

def sampleCols (tabName : String) : Option (List ColMeta) :=
  if tabName = "t" then some [⟨"t", "a", .int, 4, 0⟩]
  else if tabName = "u" then some [⟨"u", "b", .int, 4, 0⟩, ⟨"u", "c", .string, 2, 4⟩] else none

/-- `SELECT c, COUNT(*) FROM t, u WHERE b = t.a GROUP BY c HAVING COUNT(*) > 1`. -/
def sampleSelect : SelectStmt where
  cols := [⟨⟨"", "c"⟩, .none⟩, ⟨⟨"", "*"⟩, .count⟩]
  tabs := ["t", "u"]
  onConds := []
  conds := [⟨⟨⟨"", "b"⟩, .none⟩, .eq, .col ⟨⟨"t", "a"⟩, .none⟩⟩]
  group := some ⟨[⟨⟨"", "c"⟩, .none⟩], [⟨⟨⟨"", "*"⟩, .count⟩, .gt, .val (.int 1)⟩]⟩

theorem doAnalyze_ok_grouped : Accepts sampleCols 0 (.select sampleSelect) {
    tables := ["t", "u"]
    cols := [⟨⟨"u", "c"⟩, .none⟩, ⟨⟨"", "*"⟩, .count⟩]
    conds := [⟨⟨⟨"u", "b"⟩, .none⟩, .eq, .col ⟨⟨"t", "a"⟩, .none⟩⟩]
    hasAggr := true
    groupCols := [⟨⟨"u", "c"⟩, .none⟩]
    havingConds := [⟨⟨⟨"", "*"⟩, .count⟩, .gt, .val (.int 1)⟩] } := by
  refine (doAnalyze_ok_iff sampleCols 0 (.select sampleSelect) _ fun t cols ht => ?_).1 rfl
  rw [sampleCols] at ht
  split at ht
  · cases ht
    decide
  · split at ht
    · cases ht
      decide
    · cases ht

/-- A number against a text column of two bytes stops the process. -/
example :
    doAnalyze sampleCols 0 (.delete "u" [⟨⟨⟨"", "c"⟩, .none⟩, .eq, .val (.int 1)⟩]) =
      .error (.value .assertFailed) := rfl

end Example

end Rmdb
