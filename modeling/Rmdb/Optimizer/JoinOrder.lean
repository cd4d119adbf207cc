import Rmdb.Optimizer.Planner
import Mathlib.Data.Multiset.Bind
import Mathlib.Data.Multiset.ZeroCons

namespace Rmdb

namespace Condition

def Within (tables : List String) (cond : Condition) : Prop :=
  cond.lhsCol.tabName ∈ tables ∧ ∀ c, cond.rhs = .col c → c.tabName ∈ tables

def Same (cond cond' : Condition) : Prop := cond' = cond ∨ cond.isRhsCol = true ∧ cond' = cond.reverse

end Condition

namespace Plan

def scans : Plan → List ScanPlan
  | .null => []
  | .scan x => [x]
  | .join _ left right _ => left.scans ++ right.scans

def tables (p : Plan) : List String := p.scans.map fun x => x.tabName

def joinConds : Plan → List Condition
  | .join _ left right conds => conds ++ (left.joinConds ++ right.joinConds)
  | _ => []

def conds (p : Plan) : List Condition := p.scans.flatMap (fun x => x.conds) ++ p.joinConds

def JoinsPlaced : Plan → Prop
  | .null => False
  | .scan _ => True
  | .join _ left right conds =>
      left.JoinsPlaced ∧ right.JoinsPlaced ∧ ∀ cond ∈ conds, cond.Within (left.tables ++ right.tables)

def Placed (p : Plan) : Prop := p.JoinsPlaced ∧ ∀ x ∈ p.scans, ∀ cond ∈ x.conds, cond.Within [x.tabName]

end Plan

section Push

variable {cond : Condition} {p left right : Plan} {ts : List String}

theorem Condition.Within.mono {us : List String} (h : cond.Within ts)
    (hsub : ∀ t ∈ ts, t ∈ us) : cond.Within us :=
  ⟨hsub _ h.1, fun c hc => hsub _ (h.2 c hc)⟩

theorem Condition.within_iff (hcol : cond.isRhsCol = true) :
    cond.Within ts ↔ cond.lhsCol.tabName ∈ ts ∧ cond.rhsCol.tabName ∈ ts := by
  obtain ⟨lhs, op, v | c⟩ := cond
  · cases hcol
  · simp [Condition.Within, Condition.rhsCol]

theorem Condition.within_reverse (hcol : cond.isRhsCol = true) : cond.reverse.Within ts ↔ cond.Within ts := by
  obtain ⟨lhs, op, v | c⟩ := cond
  · cases hcol
  · simp [Condition.Within, Condition.reverse, Condition.rhsCol, and_comm]

@[simp] theorem Plan.tables_scan (x : ScanPlan) : (Plan.scan x).tables = [x.tabName] := rfl

@[simp] theorem Plan.tables_join (b : Bool) (left right : Plan) (conds : List Condition) :
    (Plan.join b left right conds).tables = left.tables ++ right.tables := List.map_append

def sides (cond : Condition) (ts : List String) : Nat :=
  (if cond.lhsCol.tabName ∈ ts then 1 else 0) + (if cond.rhsCol.tabName ∈ ts then 2 else 0)

structure Pushed (cond : Condition) (p q : Plan) : Prop where
  scans : q.scans = p.scans
  placed : q.JoinsPlaced
  conds : ∃ cond', cond.Same cond' ∧ (q.joinConds : Multiset Condition) = cond' ::ₘ p.joinConds

theorem Pushed.tables {q : Plan} (h : Pushed cond p q) : q.tables = p.tables := by
  rw [Plan.tables, Plan.tables, h.scans]

theorem sides_append {us : List String} (hdis : ts.Disjoint us) :
    sides cond (ts ++ us) = sides cond ts + sides cond us := by
  have hl := hdis (a := cond.lhsCol.tabName)
  have hr := hdis (a := cond.rhsCol.tabName)
  simp only [sides, List.mem_append]
  by_cases h1 : cond.lhsCol.tabName ∈ ts <;> by_cases h2 : cond.rhsCol.tabName ∈ ts <;>
    (simp_all; try omega)

theorem sides_le : sides cond ts ≤ 3 := by
  rw [sides]
  split <;> split <;> omega

/-- If each of two lists has a side of the condition and none has both, then together they have both. -/
theorem sides_add {us : List String} (hdis : ts.Disjoint us) (hts : sides cond ts ≠ 0)
    (hus : sides cond us ≠ 0) :
    sides cond ts + sides cond us = 3 := by
  have hl := hdis (a := cond.lhsCol.tabName)
  have hr := hdis (a := cond.rhsCol.tabName)
  simp only [sides] at hts hus ⊢
  by_cases h1 : cond.lhsCol.tabName ∈ ts
  · have h2 : cond.lhsCol.tabName ∉ us := hl h1
    by_cases h3 : cond.rhsCol.tabName ∈ us
    · simp [h1, h2, h3, hr.mt (not_not.2 h3)]
    · simp [h2, h3] at hus
  · by_cases h3 : cond.rhsCol.tabName ∈ ts
    · have h4 : cond.rhsCol.tabName ∉ us := hr h3
      by_cases h2 : cond.lhsCol.tabName ∈ us
      · simp [h1, h2, h3, h4]
      · simp [h2, h4] at hus
    · simp [h1, h3] at hts

theorem sides_eq_three : sides cond ts = 3 ↔ cond.lhsCol.tabName ∈ ts ∧ cond.rhsCol.tabName ∈ ts := by
  rw [sides]
  by_cases hl : cond.lhsCol.tabName ∈ ts <;> by_cases hr : cond.rhsCol.tabName ∈ ts <;> simp [hl, hr]

theorem Pushed.inLeft {b : Bool} {conds : List Condition} {q : Plan} (h : Pushed cond left q)
    (hp : (Plan.join b left right conds).JoinsPlaced) :
    Pushed cond (.join b left right conds) (.join b q right conds) := by
  obtain ⟨hpl, hpr, hconds⟩ := hp
  obtain ⟨cond', hsame, hmulti⟩ := h.conds
  refine ⟨congrArg (· ++ right.scans) h.scans,
    ⟨h.placed, hpr, by rw [h.tables]; exact hconds⟩, cond', hsame, ?_⟩
  simp only [Plan.joinConds, ← Multiset.coe_add, hmulti, Multiset.cons_add, Multiset.add_cons]

theorem Pushed.inRight {b : Bool} {conds : List Condition} {q : Plan} (h : Pushed cond right q)
    (hp : (Plan.join b left right conds).JoinsPlaced) :
    Pushed cond (.join b left right conds) (.join b left q conds) := by
  obtain ⟨hpl, hpr, hconds⟩ := hp
  obtain ⟨cond', hsame, hmulti⟩ := h.conds
  refine ⟨congrArg (left.scans ++ ·) h.scans,
    ⟨hpl, h.placed, by rw [h.tables]; exact hconds⟩, cond', hsame, ?_⟩
  simp only [Plan.joinConds, ← Multiset.coe_add, hmulti, Multiset.add_cons]

theorem Pushed.here {b : Bool} {conds : List Condition} {cond' : Condition} (hsame : cond.Same cond')
    (hwithin : cond'.Within (left.tables ++ right.tables)) (hp : (Plan.join b left right conds).JoinsPlaced) :
    Pushed cond (.join b left right conds) (.join b left right (conds ++ [cond'])) := by
  obtain ⟨hpl, hpr, hconds⟩ := hp
  refine ⟨rfl, ⟨hpl, hpr, fun c hc => ?_⟩, cond', hsame, ?_⟩
  · rcases List.mem_append.1 hc with hc | hc
    · exact hconds c hc
    · rw [List.mem_singleton.1 hc]
      exact hwithin
  · simp only [Plan.joinConds, ← Multiset.coe_add, ← Multiset.singleton_add, Multiset.coe_singleton]
    ac_rfl

theorem pushConds_spec (hcol : cond.isRhsCol = true) (hne : cond.lhsCol.tabName ≠ cond.rhsCol.tabName)
    (hnd : p.tables.Nodup) (hp : p.JoinsPlaced) :
    (Planner.pushConds cond p).1 = sides cond p.tables ∧
      (if sides cond p.tables = 3 then Pushed cond p (Planner.pushConds cond p).2
        else (Planner.pushConds cond p).2 = p) := by
  induction p with
  | null => exact hp.elim
  | scan x =>
      have hboth : sides cond (Plan.scan x).tables ≠ 3 := by
        rw [Ne, sides_eq_three, Plan.tables_scan, List.mem_singleton, List.mem_singleton]
        exact fun h => hne (h.1.trans h.2.symm)
      rw [if_neg hboth]
      refine ⟨?_, rfl⟩
      simp only [Planner.pushConds, sides, Plan.tables_scan, List.mem_singleton, eq_comm (a := x.tabName)]
      by_cases hl : cond.lhsCol.tabName = x.tabName
      · have hr : cond.rhsCol.tabName ≠ x.tabName := fun hr => hne (hl.trans hr.symm)
        simp [hl, hr]
      · simp [hl]
  | join b left right conds ihl ihr =>
      rw [Plan.tables_join] at hnd ⊢
      obtain ⟨hndl, hndr, hdis⟩ := List.nodup_append'.1 hnd
      obtain ⟨hpl, hpr, hconds⟩ := hp
      obtain ⟨hl, hleft⟩ := ihl hndl hpl
      obtain ⟨hr, hright⟩ := ihr hndr hpr
      have hsum : sides cond (left.tables ++ right.tables) =
          sides cond left.tables + sides cond right.tables :=
        sides_append hdis
      have hle : sides cond (left.tables ++ right.tables) ≤ 3 := sides_le
      simp only [Planner.pushConds, hl, hr]
      by_cases hl3 : sides cond left.tables = 3
      · have hr0 : sides cond right.tables = 0 := by omega
        have hboth : sides cond (left.tables ++ right.tables) = 3 := by omega
        rw [if_pos hl3] at hleft
        rw [if_pos hl3, hboth, if_pos rfl]
        exact ⟨rfl, hleft.inLeft ⟨hpl, hpr, hconds⟩⟩
      · rw [if_neg hl3] at hleft ⊢
        by_cases hr3 : sides cond right.tables = 3
        · have hboth : sides cond (left.tables ++ right.tables) = 3 := by omega
          rw [if_pos hr3] at hright
          rw [if_pos hr3, hboth, if_pos rfl, hleft]
          exact ⟨rfl, hright.inRight ⟨hpl, hpr, hconds⟩⟩
        · rw [if_neg hr3] at hright ⊢
          by_cases h0 : sides cond left.tables = 0 ∨ sides cond right.tables = 0
          · have hnot : sides cond (left.tables ++ right.tables) ≠ 3 := by omega
            rw [if_pos h0, if_neg hnot, hleft, hright]
            exact ⟨hsum.symm, rfl⟩
          · rw [if_neg h0]
            rw [not_or] at h0
            have hboth : sides cond (left.tables ++ right.tables) = 3 := hsum.trans (sides_add hdis h0.1 h0.2)
            have hwithin : cond.Within (left.tables ++ right.tables) :=
              (Condition.within_iff hcol).2 (sides_eq_three.1 hboth)
            rw [hboth, if_pos rfl, hleft, hright]
            refine ⟨rfl, Pushed.here ?_ ?_ ⟨hpl, hpr, hconds⟩⟩
            · split
              · exact .inr ⟨hcol, rfl⟩
              · exact .inl rfl
            · split
              · exact (Condition.within_reverse hcol).2 hwithin
              · exact hwithin

end Push

section Join

open Planner

variable {scans : List ScanPlan} {s s' : Joining} {T : List String} {table : String}
  {done : List Condition} {cond : Condition}

structure Marks (scans : List ScanPlan) (s : Joining) (T : List String) : Prop where
  flags : ∀ i x, scans[i]? = some x → (s.scantbl i = true ↔ x.tabName ∈ T)
  joined : ∀ x ∈ scans, x.tabName ∈ s.joinedTables ↔ x.tabName ∈ T

theorem popScan_eq {i : Nat} (h : table ∈ scans.map fun x => x.tabName) :
    ∃ k x, scans[k]? = some x ∧ x.tabName = table ∧
    popScan table s i scans = (.scan x, { s with
      scantbl := Function.update s.scantbl (i + k) true, joinedTables := s.joinedTables ++ [table] }) := by
  induction scans generalizing i with
  | nil => cases h
  | cons x scans ih =>
      by_cases hx : x.tabName = table
      · refine ⟨0, x, rfl, hx, ?_⟩
        rw [popScan, if_pos hx, hx]
        rfl
      · obtain ⟨k, y, hk, hy, hpop⟩ := ih (i := i + 1) ((List.mem_cons.1 h).resolve_left (Ne.symm hx))
        refine ⟨k + 1, y, hk, hy, ?_⟩
        rw [popScan, if_neg hx, hpop, Nat.add_right_comm i 1 k]
        rfl

theorem Marks.popScan (hnd : (scans.map fun x => x.tabName).Nodup) (h : Marks scans s T)
    (ht : table ∈ scans.map fun x => x.tabName) :
    ∃ x s', Planner.popScan table s 0 scans = (.scan x, s') ∧ x ∈ scans ∧
      x.tabName = table ∧ s'.executors = s.executors ∧ Marks scans s' (table :: T) := by
  obtain ⟨k, x, hk, hx, hpop⟩ := popScan_eq (s := s) (i := 0) ht
  refine ⟨x, _, hpop, List.mem_of_getElem? hk, hx, rfl, fun i y hy => ?_, fun y hy => ?_⟩
  · have hsame : y.tabName = table ↔ i = 0 + k := by
      rw [Nat.zero_add]
      constructor
      · intro heq
        have hi := congrArg (Option.map fun x => x.tabName) hy
        have hk' := congrArg (Option.map fun x => x.tabName) hk
        rw [← List.getElem?_map] at hi hk'
        exact (List.getElem?_inj (List.getElem?_eq_some_iff.1 hi).1 hnd).1
          (hi.trans (by rw [hk']; simp [heq, hx]))
      · rintro rfl
        rw [hk] at hy
        exact Option.some.inj hy ▸ hx
    rw [List.mem_cons, hsame]
    by_cases hi : i = 0 + k
    · simp [hi]
    · simp only [Function.update_of_ne hi, hi, false_or]
      exact h.flags i y hy
  · rw [List.mem_append, List.mem_singleton, List.mem_cons, h.joined y hy, or_comm]

/-- While the joins are made: the scans below are different ones of the query, the conditions that were looked
at stand in the joins, and the marks tell the tables below. -/
structure JoinInv (scans : List ScanPlan) (done : List Condition) (s : Joining) : Prop where
  marks : Marks scans s s.executors.tables
  taken : ∀ x ∈ s.executors.scans, x ∈ scans
  nodup : s.executors.tables.Nodup
  placed : s.executors.JoinsPlaced
  conds : Multiset.Rel Condition.Same done s.executors.joinConds

structure Links (tables : List String) (cond : Condition) : Prop where
  col : cond.isRhsCol = true
  distinct : cond.lhsCol.tabName ≠ cond.rhsCol.tabName
  lhs : cond.lhsCol.tabName ∈ tables
  rhs : cond.rhsCol.tabName ∈ tables

theorem Marks.mem_joined (h : Marks scans s T) (ht : table ∈ scans.map fun x => x.tabName) :
    table ∈ s.joinedTables ↔ table ∈ T := by
  obtain ⟨x, hx, rfl⟩ := List.mem_map.1 ht
  exact h.joined x hx

theorem rel_snoc {old new : List Condition} {cond' : Condition} (h : Multiset.Rel Condition.Same done old)
    (hsame : cond.Same cond') (hnew : (new : Multiset Condition) = cond' ::ₘ old) :
    Multiset.Rel Condition.Same (done ++ [cond] : List Condition) new := by
  rw [hnew, ← Multiset.coe_add, Multiset.coe_singleton, Multiset.add_comm, Multiset.singleton_add]
  exact .cons hsame h

theorem Marks.of_mem {T' : List String} (h : Marks scans s T) (p : Plan) (hsame : ∀ t, t ∈ T ↔ t ∈ T') :
    Marks scans { s with executors := p } T' :=
  ⟨fun i x hx => (h.flags i x hx).trans (hsame _), fun x hx => (h.joined x hx).trans (hsame _)⟩

theorem JoinInv.joinScan {x : ScanPlan} {cond' : Condition} (h : JoinInv scans done s)
    (hmarks : Marks scans s' (x.tabName :: s.executors.tables)) (hx : x ∈ scans)
    (hnew : x.tabName ∉ s.executors.tables) (hsame : cond.Same cond')
    (hwithin : cond'.Within (x.tabName :: s.executors.tables)) :
    JoinInv scans (done ++ [cond]) { s' with executors := .join false (.scan x) s.executors [cond'] } where
  marks := hmarks.of_mem _ fun _ => Iff.rfl
  taken := List.forall_mem_cons.2 ⟨hx, h.taken⟩
  nodup := List.nodup_cons.2 ⟨hnew, h.nodup⟩
  placed := ⟨trivial, h.placed, List.forall_mem_singleton.2 hwithin⟩
  conds := rel_snoc h.conds hsame rfl

theorem JoinInv.step (hnd : (scans.map fun x => x.tabName).Nodup) (h : JoinInv scans done s)
    (hlinks : Links (scans.map fun x => x.tabName) cond) :
    JoinInv scans (done ++ [cond]) (joinStep scans s cond) := by
  have hlj := h.marks.mem_joined hlinks.lhs
  have hrj := h.marks.mem_joined hlinks.rhs
  by_cases hl : cond.lhsCol.tabName ∈ s.executors.tables
  · by_cases hr : cond.rhsCol.tabName ∈ s.executors.tables
    · -- both tables are joined already
      have hstep : joinStep scans s cond = { s with executors := (pushConds cond s.executors).2 } := by
        simp [joinStep, hlj.2 hl, hrj.2 hr, Plan.isNull]
      have hpush := (pushConds_spec hlinks.col hlinks.distinct h.nodup h.placed).2
      rw [if_pos (sides_eq_three.2 ⟨hl, hr⟩)] at hpush
      obtain ⟨cond', hsame, hnew⟩ := hpush.conds
      rw [hstep]
      refine ⟨?_, ?_, ?_, hpush.placed, rel_snoc h.conds hsame hnew⟩
      · rw [hpush.tables]
        exact h.marks.of_mem _ fun _ => Iff.rfl
      · rw [hpush.scans]
        exact h.taken
      · rw [hpush.tables]
        exact h.nodup
    · obtain ⟨x, s', hpop, hx, htab, -, hmarks⟩ := h.marks.popScan hnd hlinks.rhs
      have hstep : joinStep scans s cond =
          { s' with executors := .join false (.scan x) s.executors [cond.reverse] } := by
        simp [joinStep, hlj.2 hl, hrj.not.2 hr, hpop, Plan.isNull]
      rw [hstep]
      refine h.joinScan (htab ▸ hmarks) hx (htab ▸ hr) (.inr ⟨hlinks.col, rfl⟩) ?_
      rw [Condition.within_reverse hlinks.col, Condition.within_iff hlinks.col, htab]
      exact ⟨List.mem_cons_of_mem _ hl, List.mem_cons_self⟩
  · obtain ⟨x, s₁, hpop, hx, htab, hexec, hmarks⟩ := h.marks.popScan hnd hlinks.lhs
    have hrj' := hmarks.mem_joined hlinks.rhs
    rw [List.mem_cons, or_iff_right hlinks.distinct.symm] at hrj'
    by_cases hr : cond.rhsCol.tabName ∈ s.executors.tables
    · have hstep : joinStep scans s cond =
          { s₁ with executors := .join false (.scan x) s.executors [cond] } := by
        simp [joinStep, hlj.not.2 hl, hrj'.2 hr, hpop, Plan.isNull]
      rw [hstep]
      refine h.joinScan (htab ▸ hmarks) hx (htab ▸ hl) (.inl rfl) ?_
      rw [Condition.within_iff hlinks.col, htab]
      exact ⟨List.mem_cons_self, List.mem_cons_of_mem _ hr⟩
    · obtain ⟨y, s₂, hpop', hy, htab', -, hmarks'⟩ := hmarks.popScan hnd hlinks.rhs
      have hstep : joinStep scans s cond =
          { s₂ with executors := .join false (.join false (.scan x) (.scan y) [cond]) s.executors [] } := by
        simp [joinStep, hlj.not.2 hl, hrj'.not.2 hr, hpop, hpop', Plan.isNull]
      rw [hstep]
      have hmem : ∀ t, t ∈ cond.rhsCol.tabName :: cond.lhsCol.tabName :: s.executors.tables ↔
          t ∈ x.tabName :: y.tabName :: s.executors.tables := by
        intro t
        rw [htab, htab', List.mem_cons, List.mem_cons, List.mem_cons, List.mem_cons, or_left_comm]
      refine ⟨hmarks'.of_mem _ hmem, ?_, ?_, ⟨⟨trivial, trivial, ?_⟩, h.placed, by simp⟩,
        rel_snoc h.conds (.inl rfl) rfl⟩
      · exact List.forall_mem_cons.2 ⟨hx, List.forall_mem_cons.2 ⟨hy, h.taken⟩⟩
      · change (x.tabName :: y.tabName :: s.executors.tables).Nodup
        rw [htab, htab', List.nodup_cons, List.nodup_cons, List.mem_cons, not_or]
        exact ⟨⟨hlinks.distinct, hl⟩, hr, h.nodup⟩
      · rw [List.forall_mem_singleton, Condition.within_iff hlinks.col, Plan.tables_scan,
          Plan.tables_scan, htab, htab']
        simp

theorem JoinInv.foldl {conds : List Condition} (hnd : (scans.map fun x => x.tabName).Nodup)
    (h : JoinInv scans done s) (hlinks : ∀ cond ∈ conds, Links (scans.map fun x => x.tabName) cond) :
    JoinInv scans (done ++ conds) (conds.foldl (joinStep scans) s) := by
  induction conds generalizing done s with
  | nil => rwa [List.append_nil]
  | cons cond conds ih =>
      have hrest :=
        ih (h.step hnd (hlinks cond List.mem_cons_self)) fun c hc => hlinks c (List.mem_cons_of_mem _ hc)
      rwa [List.append_assoc] at hrest

theorem firstJoin_inv {planner : Planner} (hnd : (scans.map fun x => x.tabName).Nodup)
    (hnamed : "" ∉ scans.map fun x => x.tabName) (hlinks : Links (scans.map fun x => x.tabName) cond)
    (hrun : firstJoin planner scans cond = .ok s) : JoinInv scans [cond] s := by
  have hstart : Marks scans ⟨fun _ => false, List.replicate scans.length "", .null⟩ [] := by
    refine ⟨fun i x hx => by simp, fun x hx => ?_⟩
    have hne : x.tabName ≠ "" := fun hc => hnamed (hc ▸ List.mem_map_of_mem hx)
    simp [hne]
  obtain ⟨x, s₁, hpop, hx, htab, -, hmarks⟩ := hstart.popScan hnd hlinks.lhs
  obtain ⟨y, s₂, hpop', hy, htab', -, hmarks'⟩ := hmarks.popScan hnd hlinks.rhs
  have hmem : ∀ t, t ∈ [cond.rhsCol.tabName, cond.lhsCol.tabName] ↔ t ∈ [x.tabName, y.tabName] := by
    intro t
    rw [htab, htab', List.mem_pair, List.mem_pair, or_comm]
  have hinv : ∀ b, JoinInv scans [cond] { s₂ with executors := .join b (.scan x) (.scan y) [cond] } := by
    intro b
    refine ⟨hmarks'.of_mem _ hmem, ?_, ?_, ⟨trivial, trivial, ?_⟩, .cons (.inl rfl) .zero⟩
    · exact List.forall_mem_cons.2 ⟨hx, List.forall_mem_singleton.2 hy⟩
    · change [x.tabName, y.tabName].Nodup
      rw [htab, htab']
      simpa using hlinks.distinct
    · rw [List.forall_mem_singleton, Condition.within_iff hlinks.col, Plan.tables_scan,
        Plan.tables_scan, htab, htab']
      simp
  simp only [firstJoin, hpop, hpop'] at hrun
  split at hrun
  · cases hrun
    exact hinv false
  · split at hrun
    · cases hrun
      exact hinv true
    · cases hrun

structure Joins (scans : List ScanPlan) (conds : List Condition) (p : Plan) : Prop where
  scans : p.scans.Perm scans
  placed : p.JoinsPlaced
  conds : Multiset.Rel Condition.Same conds p.joinConds

theorem joinRest_spec {scantbl : Nat → Bool} {p : Plan} {i : Nat}
    (hflags : ∀ k x, scans[k]? = some x → (scantbl (i + k) = true ↔ x.tabName ∈ T))
    (hplaced : p.JoinsPlaced) :
    ((joinRest scantbl i scans p).scans.Perm (scans.filter (fun x => x.tabName ∉ T) ++ p.scans)) ∧
      (joinRest scantbl i scans p).JoinsPlaced ∧ (joinRest scantbl i scans p).joinConds = p.joinConds := by
  induction scans generalizing i p with
  | nil => exact ⟨.refl _, hplaced, rfl⟩
  | cons x scans ih =>
      have hrest : ∀ k y, scans[k]? = some y → (scantbl (i + 1 + k) = true ↔ y.tabName ∈ T) := by
        intro k y hy
        rw [Nat.add_right_comm]
        exact hflags (k + 1) y hy
      have hfirst : scantbl i = true ↔ x.tabName ∈ T := hflags 0 x rfl
      by_cases hx : x.tabName ∈ T
      · rw [joinRest, if_pos (hfirst.2 hx), List.filter_cons_of_neg (by simpa using hx)]
        exact ih hrest hplaced
      · rw [joinRest, if_neg (mt hfirst.1 hx), List.filter_cons_of_pos (by simpa using hx)]
        obtain ⟨hperm, hp, hc⟩ := ih (p := .join false (.scan x) p []) hrest ⟨trivial, hplaced, by simp⟩
        exact ⟨hperm.trans List.perm_middle, hp, hc⟩

theorem JoinInv.joins (hnd : (scans.map fun x => x.tabName).Nodup) (h : JoinInv scans done s) :
    Joins scans done (joinRest s.scantbl 0 scans s.executors) := by
  obtain ⟨hperm, hplaced, hconds⟩ :=
    joinRest_spec (i := 0) (fun k x hx => by rw [Nat.zero_add]; exact h.marks.flags k x hx) h.placed
  refine ⟨hperm.trans ?_, hplaced, hconds ▸ h.conds⟩
  have hjoined : s.executors.scans.Perm (scans.filter fun x => x.tabName ∈ s.executors.tables) := by
    rw [List.perm_ext_iff_of_nodup (.of_map _ h.nodup) ((List.Nodup.of_map _ hnd).filter _)]
    intro x
    rw [List.mem_filter, decide_eq_true_eq]
    constructor
    · exact fun hx => ⟨h.taken x hx, List.mem_map_of_mem hx⟩
    · rintro ⟨hx, ht⟩
      obtain ⟨y, hy, hxy⟩ := List.mem_map.1 ht
      exact List.inj_on_of_nodup_map hnd (h.taken y hy) hx hxy ▸ hy
  refine (List.Perm.append_left _ hjoined).trans (List.perm_append_comm.trans ?_)
  simpa using List.filter_append_perm (fun x : ScanPlan => x.tabName ∈ s.executors.tables) scans

end Join

section Scans

open Planner

variable {planner : Planner} {tables : List String} {conds : List Condition} {tab : String}
  {cond : Condition} {x : ScanPlan}

def Condition.Inner (cond : Condition) : Prop := cond.lhsCol.tabName = cond.rhsCol.tabName

theorem tableScans_tables : (tableScans planner tables conds).1.map (fun x => x.tabName) = tables := by
  induction tables generalizing conds with
  | nil => rfl
  | cons tab tables ih => exact congrArg (tab :: ·) ih

theorem popConds_eq :
    popConds conds tab = (conds.filter (Pops tab), conds.filter fun cond => !Pops tab cond) :=
  List.partition_eq_filter_filter

theorem tableScans_cons : tableScans planner (tab :: tables) conds =
    (⟨tab, conds.filter (Pops tab), planner.getIndexCols tab (conds.filter (Pops tab))⟩ ::
      (tableScans planner tables (conds.filter fun cond => !Pops tab cond)).1,
      (tableScans planner tables (conds.filter fun cond => !Pops tab cond)).2) := by
  rw [tableScans, popConds_eq]

/-- No condition is lost, and none is taken twice. -/
theorem tableScans_perm : ((tableScans planner tables conds).1.flatMap (fun x => x.conds) ++
    (tableScans planner tables conds).2).Perm conds := by
  induction tables generalizing conds with
  | nil => exact .refl _
  | cons tab tables ih =>
      rw [tableScans_cons, List.flatMap_cons, List.append_assoc]
      exact (List.Perm.append_left _ ih).trans (List.filter_append_perm _ _)

theorem mem_scan_conds (hx : x ∈ (tableScans planner tables conds).1) (hc : cond ∈ x.conds) :
    cond ∈ conds ∧ Pops x.tabName cond = true := by
  induction tables generalizing conds with
  | nil => cases hx
  | cons tab tables ih =>
      rw [tableScans_cons] at hx
      rcases List.mem_cons.1 hx with rfl | hx
      · exact List.mem_filter.1 hc
      · exact (ih hx).imp_left fun h => (List.mem_filter.1 h).1

theorem mem_left (hc : cond ∈ (tableScans planner tables conds).2) :
    cond ∈ conds ∧ ∀ tab ∈ tables, Pops tab cond = false := by
  induction tables generalizing conds with
  | nil => exact ⟨hc, by simp⟩
  | cons tab tables ih =>
      rw [tableScans_cons] at hc
      obtain ⟨hmem, hnot⟩ := ih hc
      obtain ⟨hmem, hpop⟩ := List.mem_filter.1 hmem
      exact ⟨hmem, List.forall_mem_cons.2 ⟨by simpa using hpop, hnot⟩⟩

theorem Pops.of_inner (h : cond.Inner) : Pops tab cond = true := by
  simp [Pops, show cond.lhsCol.tabName = cond.rhsCol.tabName from h]

theorem pops_iff (h : ¬ cond.Inner) :
    Pops tab cond = true ↔ cond.lhsCol.tabName = tab ∧ cond.isRhsCol = false := by
  simp [Pops, show ¬ cond.lhsCol.tabName = cond.rhsCol.tabName from h, eq_comm (a := tab)]

/-- The scan of the first table takes the conditions inside one table, whichever it is. -/
theorem inner_scan (hx : x ∈ (tableScans planner (tab :: tables) conds).1) (hc : cond ∈ x.conds)
    (hinner : cond.Inner) :
    x.tabName = tab := by
  rw [tableScans_cons] at hx
  rcases List.mem_cons.1 hx with rfl | hx
  · rfl
  · have hleft := (List.mem_filter.1 (mem_scan_conds hx hc).1).2
    rw [Pops.of_inner hinner] at hleft
    cases hleft

end Scans

structure SelectQuery where
  tables : List String
  conds : List Condition
  nonempty : tables ≠ []
  distinct : tables.Nodup
  named : "" ∉ tables

namespace SelectQuery

def Known (q : SelectQuery) : Prop := ∀ cond ∈ q.conds, cond.Within q.tables

def InnerFirst (q : SelectQuery) : Prop :=
  ∀ cond ∈ q.conds, cond.isRhsCol = true → cond.Inner → q.tables.head? = some cond.lhsCol.tabName

/-- The plan scans every table once, and has every condition once, where its columns are found. -/
structure Planned (q : SelectQuery) (p : Plan) : Prop where
  tables : p.tables.Perm q.tables
  conds : Multiset.Rel Condition.Same q.conds p.conds
  placed : p.Placed

end SelectQuery

section Query

open Planner

variable {planner : Planner} {q : SelectQuery} {p : Plan} {cond : Condition}

theorem Condition.isRhsCol_of_inner {tables : List String} (hnamed : "" ∉ tables)
    (hwithin : cond.Within tables) (h : cond.Inner) : cond.isRhsCol = true := by
  obtain ⟨lhs, op, v | c⟩ := cond
  · have hempty : lhs.tabName = "" := h
    have hlhs : lhs.tabName ∈ tables := hwithin.1
    exact absurd (hempty ▸ hlhs) hnamed
  · rfl

theorem links_left (hknown : q.Known) (hc : cond ∈ (tableScans planner q.tables q.conds).2) :
    Links q.tables cond := by
  obtain ⟨hmem, hnot⟩ := mem_left hc
  obtain ⟨tab, htab⟩ := List.exists_mem_of_ne_nil _ q.nonempty
  have houter : ¬ cond.Inner := by
    intro hinner
    have hpop := hnot tab htab
    rw [Pops.of_inner hinner] at hpop
    cases hpop
  have hwithin := hknown cond hmem
  have hcol : cond.isRhsCol = true := by
    by_contra hval
    have hpop := hnot _ hwithin.1
    rw [(pops_iff houter).2 ⟨rfl, by simpa using hval⟩] at hpop
    cases hpop
  obtain ⟨hl, hr⟩ := (Condition.within_iff hcol).1 hwithin
  exact ⟨hcol, houter, hl, hr⟩

theorem start_inv {x : ScanPlan} {rest : List ScanPlan} (hnd : ((x :: rest).map fun x => x.tabName).Nodup) :
    JoinInv (x :: rest) [] ⟨Function.update (fun _ => false) 0 true, [x.tabName], .scan x⟩ := by
  refine ⟨⟨fun i y hy => ?_, fun y _ => Iff.rfl⟩, List.forall_mem_singleton.2 List.mem_cons_self,
    List.nodup_singleton _, trivial, .zero⟩
  rw [Plan.tables_scan, List.mem_singleton]
  cases i with
  | zero =>
      cases hy
      exact iff_of_true rfl rfl
  | succ i =>
      have hy' : y ∈ rest := List.mem_of_getElem? hy
      rw [List.map_cons, List.nodup_cons] at hnd
      refine iff_of_false (by simp) fun hc => ?_
      rw [← hc] at hnd
      exact hnd.1 (List.mem_map_of_mem hy')

/-- The plan joins all scans, by the conditions that no scan takes. -/
theorem makeOneRel_joins (hknown : q.Known) (hrun : makeOneRel planner q.tables q.conds [] = .ok p) :
    Joins (tableScans planner q.tables q.conds).1 (tableScans planner q.tables q.conds).2 p := by
  have htables : (tableScans planner q.tables q.conds).1.map (fun x => x.tabName) = q.tables :=
    tableScans_tables
  have hnd := htables ▸ q.distinct
  have hnamed := htables ▸ q.named
  have hlinks : ∀ cond ∈ (tableScans planner q.tables q.conds).2,
      Links ((tableScans planner q.tables q.conds).1.map fun x => x.tabName) cond := by
    rw [htables]
    exact fun cond => links_left hknown
  rw [makeOneRel] at hrun
  cases hscans : tableScans planner q.tables q.conds with
  | mk scans conds =>
  simp only [hscans, List.append_nil] at *
  cases scans with
  | nil => exact absurd htables.symm q.nonempty
  | cons x rest =>
      cases rest with
      | nil =>
          cases hrun
          have hnone : conds = [] := by
            refine List.eq_nil_iff_forall_not_mem.2 fun cond hc => ?_
            obtain ⟨-, hne, hl, hr⟩ := hlinks cond hc
            exact hne ((List.mem_singleton.1 hl).trans (List.mem_singleton.1 hr).symm)
          subst hnone
          exact ⟨.refl _, trivial, .zero⟩
      | cons y rest =>
          cases conds with
          | nil =>
              cases hrun
              exact (start_inv hnd).joins hnd
          | cons cond conds =>
              cases hfirst : firstJoin planner (x :: y :: rest) cond with
              | error e => simp [hfirst, bind, Except.bind] at hrun
              | ok s =>
                  simp only [hfirst, bind, Except.bind, pure, Except.pure, List.isEmpty_cons,
                    Bool.false_eq_true, if_false, Except.ok.injEq] at hrun
                  have hinv := firstJoin_inv hnd hnamed (hlinks cond List.mem_cons_self) hfirst
                  rw [← hrun]
                  exact (hinv.foldl hnd fun c hc => hlinks c (List.mem_cons_of_mem _ hc)).joins hnd

/-- Where a join executor is enabled there is a plan. -/
theorem makeOneRel_total (henabled : planner.enableNestedloopJoin = true ∨ planner.enableSortmergeJoin = true)
    (tables : List String) (conds onConds : List Condition) :
    ∃ p, makeOneRel planner tables conds onConds = .ok p := by
  rw [makeOneRel]
  cases hscans : tableScans planner tables conds with
  | mk scans conds =>
  cases scans with
  | nil => exact ⟨_, rfl⟩
  | cons x rest =>
      simp only
      split
      · exact ⟨_, rfl⟩
      · cases conds ++ onConds with
        | nil => exact ⟨_, rfl⟩
        | cons cond conds =>
            have hfirst : ∃ s, firstJoin planner (x :: rest) cond = .ok s := by
              simp only [firstJoin]
              split
              · exact ⟨_, rfl⟩
              · rw [if_pos (henabled.resolve_left ‹_›)]
                exact ⟨_, rfl⟩
            obtain ⟨s, hs⟩ := hfirst
            simp only [hs]
            exact ⟨_, rfl⟩

theorem Joins.conds_rel
    (h : Joins (tableScans planner q.tables q.conds).1 (tableScans planner q.tables q.conds).2 p) :
    Multiset.Rel Condition.Same q.conds p.conds := by
  have hscans : (p.scans.flatMap fun x => x.conds).Perm
      ((tableScans planner q.tables q.conds).1.flatMap fun x => x.conds) :=
    h.scans.flatMap_right _
  rw [← Multiset.coe_eq_coe.2 tableScans_perm, Plan.conds, ← Multiset.coe_add, ← Multiset.coe_add,
    Multiset.coe_eq_coe.2 hscans]
  exact (Multiset.rel_refl_of_refl_on fun cond _ => .inl rfl).add h.conds

/-- The scans alone decide: a condition inside a table that is not the first one is on the wrong scan. -/
theorem planned_iff (hknown : q.Known) (hrun : makeOneRel planner q.tables q.conds [] = .ok p) :
    q.Planned p ↔ q.InnerFirst := by
  have hjoins := makeOneRel_joins hknown hrun
  have htables : (tableScans planner q.tables q.conds).1.map (fun x => x.tabName) = q.tables :=
    tableScans_tables
  obtain ⟨tab, tables, hq⟩ := List.exists_cons_of_ne_nil q.nonempty
  constructor
  · intro h cond hc hcol hinner
    have hhead : ∃ x ∈ (tableScans planner q.tables q.conds).1, x.tabName = tab ∧ cond ∈ x.conds := by
      rw [hq, tableScans_cons]
      exact ⟨_, List.mem_cons_self, rfl, List.mem_filter.2 ⟨hc, Pops.of_inner hinner⟩⟩
    obtain ⟨x, hx, rfl, hxc⟩ := hhead
    have hwithin := h.placed.2 x (hjoins.scans.mem_iff.2 hx) cond hxc
    rw [hq, List.head?_cons, List.mem_singleton.1 hwithin.1]
  · intro h
    refine ⟨htables ▸ hjoins.scans.map _, hjoins.conds_rel, hjoins.placed, fun x hx cond hc => ?_⟩
    have hx := hjoins.scans.mem_iff.1 hx
    obtain ⟨hmem, hpop⟩ := mem_scan_conds hx hc
    by_cases hinner : cond.Inner
    · have hcol := Condition.isRhsCol_of_inner q.named (hknown cond hmem) hinner
      have hfirst := h cond hmem hcol hinner
      rw [hq] at hx hfirst
      rw [Condition.within_iff hcol, List.mem_singleton, List.mem_singleton, ← hinner, and_self,
        inner_scan hx hc hinner]
      exact (Option.some.inj hfirst).symm
    · obtain ⟨hlhs, hval⟩ := (pops_iff hinner).1 hpop
      obtain ⟨lhs, op, v | c⟩ := cond
      · exact ⟨List.mem_singleton.2 hlhs, fun c hc => by cases hc⟩
      · cases hval

theorem Plan.JoinsPlaced.within (h : p.JoinsPlaced) : ∀ cond ∈ p.joinConds, cond.Within p.tables := by
  induction p with
  | null => exact h.elim
  | scan x => simp [Plan.joinConds]
  | join b left right conds ihl ihr =>
      obtain ⟨hl, hr, hconds⟩ := h
      rw [Plan.tables_join]
      intro cond hc
      rcases List.mem_append.1 hc with hc | hc
      · exact hconds cond hc
      · rcases List.mem_append.1 hc with hc | hc
        · exact (ihl hl cond hc).mono fun _ => List.mem_append_left _
        · exact (ihr hr cond hc).mono fun _ => List.mem_append_right _

theorem Plan.Placed.within (h : p.Placed) : ∀ cond ∈ p.conds, cond.Within p.tables := by
  intro cond hc
  rcases List.mem_append.1 hc with hc | hc
  · obtain ⟨x, hx, hc⟩ := List.mem_flatMap.1 hc
    refine (h.2 x hx cond hc).mono fun t ht => ?_
    rw [List.mem_singleton.1 ht]
    exact List.mem_map_of_mem hx
  · exact h.1.within cond hc

theorem SelectQuery.Planned.known (h : q.Planned p) : q.Known := by
  intro cond hc
  obtain ⟨cond', hc', hsame⟩ := Multiset.exists_mem_of_rel_of_mem h.conds hc
  have hwithin : cond'.Within q.tables := (h.placed.within cond' hc').mono fun _ => h.tables.mem_iff.1
  rcases hsame with rfl | ⟨hcol, rfl⟩
  · exact hwithin
  · exact (Condition.within_reverse hcol).1 hwithin

end Query

end Rmdb
