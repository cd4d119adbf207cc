import Rmdb.Optimizer.JoinOrder

namespace Rmdb

theorem CompOp.holds_swap {β : Type} [LinearOrder β] {a b : β} (op : CompOp) :
    op.swap.holds b a = op.holds a b := by
  cases op <;> simp [CompOp.holds, CompOp.swap, eq_comm]

abbrev JoinedRow (ρ : Type) := String → Option ρ

structure QueryData (ρ β : Type) where
  rows : String → List ρ
  value : TabCol → ρ → β
  literal : Value → β

namespace QueryData

variable {ρ β : Type} (data : QueryData ρ β)

def cell (row : JoinedRow ρ) (c : TabCol) : Option β := (row c.tabName).map (data.value c)

def rhs (row : JoinedRow ρ) (cond : Condition) : Option β :=
  match cond.rhs with
  | .val v => some (data.literal v)
  | .col c => data.cell row c

def meets [LinearOrder β] (row : JoinedRow ρ) (cond : Condition) : Bool :=
  match data.cell row cond.lhsCol, data.rhs row cond with
  | some a, some b => cond.op.holds a b
  | _, _ => false

def merge (l r : JoinedRow ρ) : JoinedRow ρ := fun t => (l t).or (r t)

def single (tab : String) (r : ρ) : JoinedRow ρ := Function.update (fun _ => none) tab (some r)

def cross : List String → List (JoinedRow ρ)
  | [] => [fun _ => none]
  | tab :: tables => (data.rows tab).flatMap fun r => (cross tables).map (merge (single tab r))

end QueryData

instance (tables : List String) (cond : Condition) : Decidable (cond.Within tables) :=
  decidable_of_iff (cond.lhsCol.tabName ∈ tables ∧
    (cond.isRhsCol = true → cond.rhsCol.tabName ∈ tables)) <| by
    obtain ⟨lhs, op, v | c⟩ := cond <;> simp [Condition.Within, Condition.isRhsCol, Condition.rhsCol]

namespace QueryData

variable {ρ β : Type} [LinearOrder β] (data : QueryData ρ β)

/-- The executors of a plan. Their constructors look up the columns of the conditions, which
throws when a column is not there; a child that is missing is taken for an exception too. A scan
returns the rows of its table that meet its conditions, and a join the pairs that meet its own,
the left rows in the outer loop. -/
def exec : Plan → Except ScanError (List (JoinedRow ρ))
  | .null => .error .assertFailed
  | .scan x =>
      if ∀ cond ∈ x.conds, cond.Within [x.tabName] then
        .ok (((data.rows x.tabName).map (single x.tabName)).filter fun row => x.conds.all (data.meets row))
      else .error .columnNotFound
  | .join _ left right conds => do
      let ls ← exec left
      let rs ← exec right
      if ∀ cond ∈ conds, cond.Within (left.tables ++ right.tables) then
        return (ls.flatMap fun l => rs.map (merge l)).filter fun row => conds.all (data.meets row)
      else throw .columnNotFound

/-- Executing the plan returns the rows of the cross product that meet all conditions of the query. -/
def Answers (q : SelectQuery) (p : Plan) : Prop :=
  ∃ rows, data.exec p = .ok rows ∧
    rows.Perm ((data.cross q.tables).filter fun row => q.conds.all (data.meets row))

section Cross

omit [LinearOrder β]

variable {data} {ts us : List String} {row l r : JoinedRow ρ} {cond : Condition}

theorem merge_none : merge (fun _ => none) r = r := by
  funext t
  rfl

theorem none_merge {l : JoinedRow ρ} : merge l (fun _ => none) = l := by
  funext t
  exact Option.or_none

theorem merge_merge {a b : JoinedRow ρ} : merge (merge a b) = fun c => merge a (merge b c) := by
  funext c t
  exact Option.or_assoc

theorem cross_append :
    data.cross (ts ++ us) = (data.cross ts).flatMap fun l => (data.cross us).map (merge l) := by
  induction ts with
  | nil =>
      have hid : merge (fun _ => none) = fun r : JoinedRow ρ => r := funext fun r => merge_none
      simp [cross, hid]
  | cons tab ts ih =>
      simp only [List.cons_append, cross, ih, List.map_flatMap, List.flatMap_assoc,
        List.flatMap_map, List.map_map, Function.comp_def, merge_merge]

theorem mem_cross (h : row ∈ data.cross ts) (tab : String) : row tab = none ↔ tab ∉ ts := by
  induction ts generalizing row with
  | nil => simp [List.mem_singleton.1 h]
  | cons t ts ih =>
      obtain ⟨r, -, h⟩ := List.mem_flatMap.1 h
      obtain ⟨row', hrow', rfl⟩ := List.mem_map.1 h
      by_cases ht : tab = t
      · simp [merge, single, ht]
      · simp [merge, single, ht, ih hrow']

theorem merge_single_comm {t u : String} {a b : ρ} (hne : t ≠ u) :
    merge (single t a) (merge (single u b) row) = merge (single u b) (merge (single t a) row) := by
  funext tab
  by_cases ht : tab = t
  · subst ht
    simp [merge, single, hne]
  · by_cases hu : tab = u
    · subst hu
      simp [merge, single, ht]
    · simp [merge, single, ht, hu]

/-- The order of the tables does not matter for the rows of the product. -/
theorem cross_perm (h : ts.Perm us) (hnd : ts.Nodup) : (data.cross ts).Perm (data.cross us) := by
  induction h with
  | nil => exact .refl _
  | cons tab _ ih => exact .flatMap_left _ fun r _ => (ih (List.nodup_cons.1 hnd).2).map _
  | swap t u ts =>
      have hne : u ≠ t := fun hc => (List.nodup_cons.1 hnd).1 (hc ▸ List.mem_cons_self)
      rw [← Multiset.coe_eq_coe]
      simp only [cross, ← Multiset.coe_bind, ← Multiset.map_coe, Multiset.map_bind, Multiset.map_map,
        Function.comp_def, merge_single_comm hne]
      exact Multiset.bind_bind _ _
  | trans h₁ h₂ ih₁ ih₂ => exact (ih₁ hnd).trans (ih₂ (h₁.nodup_iff.1 hnd))

end Cross

section Meets

variable {data} {ts us : List String} {row row' l r : JoinedRow ρ} {cond cond' : Condition}

theorem meets_congr (hwithin : cond.Within ts) (h : ∀ t ∈ ts, row t = row' t) :
    data.meets row cond = data.meets row' cond := by
  obtain ⟨lhs, op, v | c⟩ := cond
  · simp only [meets, cell, rhs, h _ hwithin.1]
  · simp only [meets, cell, rhs, h _ hwithin.1, h _ (hwithin.2 c rfl)]

theorem meets_same (h : cond.Same cond') : data.meets row cond' = data.meets row cond := by
  rcases h with rfl | ⟨hcol, rfl⟩
  · rfl
  · obtain ⟨lhs, op, v | c⟩ := cond
    · cases hcol
    · simp only [meets, rhs, Condition.reverse, Condition.rhsCol]
      cases data.cell row lhs <;> cases data.cell row c <;> simp [CompOp.holds_swap]

theorem all_meets_rel {conds conds' : List Condition} (h : Multiset.Rel Condition.Same conds conds') :
    conds'.all (data.meets row) = conds.all (data.meets row) := by
  rw [Bool.eq_iff_iff, List.all_eq_true, List.all_eq_true]
  constructor
  · intro hall cond hc
    obtain ⟨cond', hc', hsame⟩ := Multiset.exists_mem_of_rel_of_mem h hc
    rw [← meets_same hsame]
    exact hall cond' hc'
  · intro hall cond' hc'
    obtain ⟨cond, hc, hsame⟩ := Multiset.exists_mem_of_rel_of_mem (Multiset.rel_flip.2 h) hc'
    rw [meets_same hsame]
    exact hall cond hc

end Meets

section Exec

variable {data} {ts us : List String} {row l r : JoinedRow ρ} {cond : Condition} {p : Plan}

/-- What the conditions on one side allow may be tested before the pairs are made. -/
theorem filter_pairs {α β γ : Type} {m : α → β → γ} {ls : List α} {rs : List β} {left : α → Bool}
    {right : β → Bool} {here all : γ → Bool}
    (h : ∀ l ∈ ls, ∀ r ∈ rs, all (m l r) = (left l && right r && here (m l r))) :
    (ls.flatMap fun l => rs.map (m l)).filter all =
      ((ls.filter left).flatMap fun l => (rs.filter right).map (m l)).filter here := by
  induction ls with
  | nil => rfl
  | cons l ls ih =>
      have hl : ((rs.map (m l)).filter all) = if left l
          then ((rs.filter right).map (m l)).filter here else [] := by
        rw [List.filter_map, List.filter_map, List.filter_filter]
        split
        · rename_i hleft
          refine congrArg _ (List.filter_congr fun r hr => ?_)
          simp [h l List.mem_cons_self r hr, hleft, Bool.and_comm]
        · rename_i hleft
          rw [List.map_eq_nil_iff, List.filter_eq_nil_iff]
          intro r hr
          simp [h l List.mem_cons_self r hr, hleft]
      rw [List.flatMap_cons, List.filter_append, hl,
        ih fun l' hl' => h l' (List.mem_cons_of_mem _ hl'), List.filter_cons]
      split
      · rw [List.flatMap_cons, List.filter_append]
      · rfl

theorem meets_merge_left (hl : l ∈ data.cross ts) (hwithin : cond.Within ts) :
    data.meets (merge l r) cond = data.meets l cond := by
  refine meets_congr hwithin fun t ht => ?_
  cases hrow : l t with
  | none => exact absurd ht ((mem_cross hl t).1 hrow)
  | some x => simp [merge, hrow]

theorem meets_merge_right (hl : l ∈ data.cross ts) (hdis : ts.Disjoint us) (hwithin : cond.Within us) :
    data.meets (merge l r) cond = data.meets r cond := by
  refine meets_congr hwithin fun t ht => ?_
  rw [merge, (mem_cross hl t).2 fun hc => hdis hc ht, Option.none_or]

theorem all_congr {conds : List Condition} {f g : Condition → Bool} (h : ∀ cond ∈ conds, f cond = g cond) :
    conds.all f = conds.all g := by
  rw [Bool.eq_iff_iff, List.all_eq_true, List.all_eq_true]
  exact forall₂_congr fun cond hc => by rw [h cond hc]

theorem all_conds_join {b : Bool} {left right : Plan} {conds : List Condition} {test : Condition → Bool} :
    (Plan.join b left right conds).conds.all test =
      (left.conds.all test && right.conds.all test && conds.all test) := by
  simp only [Plan.conds, Plan.scans, Plan.joinConds, List.flatMap_append, List.all_append]
  ac_rfl

theorem Placed.children {b : Bool} {left right : Plan} {conds : List Condition}
    (h : (Plan.join b left right conds).Placed) :
    left.Placed ∧ right.Placed ∧ ∀ cond ∈ conds, cond.Within (left.tables ++ right.tables) := by
  obtain ⟨⟨hl, hr, hconds⟩, hscans⟩ := h
  exact ⟨⟨hl, fun x hx => hscans x (List.mem_append_left _ hx)⟩,
    ⟨hr, fun x hx => hscans x (List.mem_append_right _ hx)⟩, hconds⟩

/-- A plan whose conditions are placed returns the rows of the product that meet them all. -/
theorem exec_spec (hp : p.Placed) (hnd : p.tables.Nodup) :
    data.exec p = .ok ((data.cross p.tables).filter fun row => p.conds.all (data.meets row)) := by
  induction p with
  | null => exact hp.1.elim
  | scan x =>
      have hconds := hp.2 x List.mem_cons_self
      have hcross : data.cross (Plan.scan x).tables = (data.rows x.tabName).map (single x.tabName) := by
        simp [cross, none_merge, List.map_eq_flatMap]
      rw [exec, if_pos hconds, hcross]
      simp [Plan.conds, Plan.scans, Plan.joinConds]
  | join b left right conds ihl ihr =>
      rw [Plan.tables_join] at hnd ⊢
      obtain ⟨hndl, hndr, hdis⟩ := List.nodup_append'.1 hnd
      obtain ⟨hl, hr, hconds⟩ := Placed.children hp
      rw [exec, ihl hl hndl, ihr hr hndr, cross_append]
      simp only [bind, Except.bind, pure, Except.pure]
      rw [if_pos hconds]
      refine congrArg _ (filter_pairs fun l hl' r _ => ?_).symm
      rw [all_conds_join]
      rw [all_congr fun cond hc => meets_merge_left hl' (hl.within cond hc),
        all_congr fun cond hc => meets_merge_right hl' hdis (hr.within cond hc)]

theorem answers_of_planned {q : SelectQuery} (h : q.Planned p) : data.Answers q p := by
  have hnd : p.tables.Nodup := h.tables.nodup_iff.2 q.distinct
  refine ⟨_, exec_spec h.placed hnd, ?_⟩
  rw [List.filter_congr fun row _ => all_meets_rel h.conds]
  exact (cross_perm h.tables hnd).filter _

end Exec

/-- The planner keeps a query if and only if every condition is about tables of the query, and
every comparison of two columns of one table is about the first table. -/
theorem makeOneRel_preserves_iff (planner : Planner) (q : SelectQuery) :
    (planner.enableNestedloopJoin = true ∨ planner.enableSortmergeJoin = true →
      ∃ p, planner.makeOneRel q.tables q.conds [] = .ok p) ∧
    ∀ p, planner.makeOneRel q.tables q.conds [] = .ok p →
      ((q.Planned p ∧ data.Answers q p) ↔ q.Known ∧ q.InnerFirst) := by
  refine ⟨fun h => makeOneRel_total h _ _ _, fun p hrun => ⟨?_, ?_⟩⟩
  · rintro ⟨hplanned, -⟩
    exact ⟨hplanned.known, (planned_iff hplanned.known hrun).1 hplanned⟩
  · rintro ⟨hknown, hfirst⟩
    have hplanned := (planned_iff hknown hrun).2 hfirst
    exact ⟨hplanned, answers_of_planned hplanned⟩

end QueryData

section Example

/-- `SELECT * FROM a, b WHERE b.x = b.y`. -/
def innerSecond : SelectQuery where
  tables := ["a", "b"]
  conds := [⟨⟨"b", "x"⟩, .eq, .col ⟨"b", "y"⟩⟩]
  nonempty := by simp
  distinct := by simp
  named := by simp

def onesData : QueryData Unit Nat := ⟨fun _ => [()], fun _ _ => 1, fun _ => 1⟩

/-- The condition on `b` is looked up in the columns of `a`. -/
theorem inner_second_throws :
    ∃ p, (Planner.mk true false fun _ => []).makeOneRel innerSecond.tables innerSecond.conds [] = .ok p ∧
      ¬ innerSecond.Planned p ∧ onesData.exec p = .error .columnNotFound ∧
      ((onesData.cross innerSecond.tables).filter fun row =>
        innerSecond.conds.all (onesData.meets row)).length = 1 := by
  have hthrow : onesData.exec
    (.join false (.scan ⟨"b", [], none⟩) (.scan ⟨"a", innerSecond.conds, none⟩) []) =
      .error .columnNotFound := rfl
  refine ⟨_, rfl, fun h => ?_, hthrow, by decide⟩
  have hnd := h.tables.nodup_iff.2 innerSecond.distinct
  exact absurd (hthrow.symm.trans (QueryData.exec_spec h.placed hnd)) (by simp)

end Example

end Rmdb
