import Rmdb.Execution.GroupBy

namespace Rmdb

open Value ConditionCheck AggregationExecutor

def CompOp.rel {α : Type} [LT α] [DecidableEq α] [DecidableLT α] (op : CompOp) (a b : α) : Bool :=
  match op with
  | .eq => a = b
  | .ne => a ≠ b
  | .lt => a < b
  | .gt => b < a
  | .le => ¬ b < a
  | .ge => ¬ a < b

def CompOp.reflexive : CompOp → Bool
  | .eq | .le | .ge => true
  | .ne | .lt | .gt => false

def upToNul (s : Bytes) : Bytes := s.takeWhile (· ≠ 0)

section Texts

variable {a b : Bytes} {n m : Int} {op : CompOp}

/-- What the comparison finds over a number of bytes is right, unless it ends before the texts do. -/
theorem compareFirst_cases {k : Nat} (ha : (0 : UInt8) ∉ a) (hb : (0 : UInt8) ∉ b) :
    compareFirst k a b = 0 ∧ (a.length < k → a = b) ∨ compareFirst k a b < 0 ∧ a < b ∨
    0 < compareFirst k a b ∧ b < a := by
  induction k generalizing a b with
  | zero => exact .inl ⟨rfl, fun h => absurd h (Nat.not_lt_zero _)⟩
  | succ k ih =>
      have hpos : ∀ {c : UInt8} {t : Bytes}, (0 : UInt8) ∉ c :: t → 0 < c := fun h =>
        UInt8.pos_iff_ne_zero.2 fun hc => h (hc ▸ List.mem_cons_self)
      cases a with
      | nil =>
          cases b with
          | nil => exact .inl ⟨by simp [compareFirst], fun _ => rfl⟩
          | cons d b => exact .inr (.inl ⟨by simp [compareFirst, hpos hb], List.nil_lt_cons d b⟩)
      | cons c a =>
          cases b with
          | nil =>
              refine .inr (.inr ⟨?_, List.nil_lt_cons c a⟩)
              simp [compareFirst, hpos ha]
          | cons d b =>
              rw [compareFirst, List.headD_cons, List.headD_cons, List.tail_cons, List.tail_cons,
                List.cons_lt_cons_iff, List.cons_lt_cons_iff]
              by_cases hlt : c < d
              · exact .inr (.inl ⟨by rw [if_pos hlt]; decide, .inl hlt⟩)
              · by_cases hgt : d < c
                · exact .inr (.inr ⟨by rw [if_neg hlt, if_pos hgt]; decide, .inl hgt⟩)
                · obtain rfl : c = d := UInt8.le_antisymm (UInt8.not_lt.1 hgt) (UInt8.not_lt.1 hlt)
                  have hc : c ≠ 0 := UInt8.pos_iff_ne_zero.1 (hpos ha)
                  rw [if_neg hlt, if_neg hc]
                  rcases ih (fun h => ha (List.mem_cons_of_mem _ h))
                    (fun h => hb (List.mem_cons_of_mem _ h)) with
                    ⟨h, hfull⟩ | ⟨h, hless⟩ | ⟨h, hless⟩
                  · exact .inl ⟨by rw [if_neg hlt, h], fun hlen => by rw [hfull (by simpa using hlen)]⟩
                  · exact .inr (.inl ⟨by rwa [if_neg hlt], .inr ⟨rfl, hless⟩⟩)
                  · exact .inr (.inr ⟨by rwa [if_neg hlt], .inr ⟨rfl, hless⟩⟩)

theorem strncmp_cases (a b : Bytes) (n : Int) :
    strncmp a b n = 0 ∧ (n < 0 → upToNul a = upToNul b) ∨ strncmp a b n < 0 ∧ upToNul a < upToNul b ∨
      0 < strncmp a b n ∧ upToNul b < upToNul a := by
  have h :=
    compareFirst_cases (k := if n < 0 then a.length + b.length + 1 else n.toNat)
      (a := upToNul a) (b := upToNul b)
    zero_notMem_takeWhile zero_notMem_takeWhile
  rw [upToNul, upToNul, compareFirst_takeWhile, ← strncmp] at h
  refine h.imp_left fun hzero => ⟨hzero.1, fun hn => hzero.2 ?_⟩
  have hlen : (a.takeWhile (· ≠ 0)).length ≤ a.length := (List.takeWhile_prefix _).length_le
  rw [if_pos hn]
  omega

/-- Equality over a number of bytes: all of the texts, or none of them, or something between. -/
theorem strncmp_eq_cases (a b : Bytes) (n : Int) :
    ((strncmp a b n = 0 ↔ upToNul a = upToNul b) ∨ strncmp a b n = 0) ∧
      (n < 0 → (strncmp a b n = 0 ↔ upToNul a = upToNul b)) ∧ (n = 0 → strncmp a b n = 0) := by
  have hzero : n = 0 → strncmp a b n = 0 := fun hn => by rw [hn]; rfl
  rcases strncmp_cases a b n with ⟨h, hfull⟩ | ⟨h, hless⟩ | ⟨h, hless⟩
  · exact ⟨.inr h, fun hn => iff_of_true h (hfull hn), hzero⟩
  · have hne : upToNul a ≠ upToNul b := fun he => List.lt_irrefl _ (he ▸ hless)
    exact ⟨.inl (iff_of_false (by omega) hne), fun _ => iff_of_false (by omega) hne, hzero⟩
  · have hne : upToNul a ≠ upToNul b := fun he => List.lt_irrefl _ (he ▸ hless)
    exact ⟨.inl (iff_of_false (by omega) hne), fun _ => iff_of_false (by omega) hne, hzero⟩

theorem strncmp_lt_cases (a b : Bytes) (n : Int) :
    ((strncmp a b n < 0 ↔ upToNul a < upToNul b) ∨ 0 ≤ strncmp a b n) ∧
      (n < 0 → (strncmp a b n < 0 ↔ upToNul a < upToNul b)) ∧ (n = 0 → 0 ≤ strncmp a b n) := by
  have hzero : n = 0 → 0 ≤ strncmp a b n := fun hn => by rw [hn]; exact le_refl _
  rcases strncmp_cases a b n with ⟨h, hfull⟩ | ⟨h, hless⟩ | ⟨h, hless⟩
  · refine ⟨.inr (by omega), fun hn => iff_of_false (by omega) ?_, hzero⟩
    rw [hfull hn]
    exact List.lt_irrefl _
  · exact ⟨.inl (iff_of_true h hless), fun _ => iff_of_true h hless, hzero⟩
  · have hnot : ¬ upToNul a < upToNul b := List.lt_asymm hless
    exact ⟨.inl (iff_of_false (by omega) hnot), fun _ => iff_of_false (by omega) hnot, hzero⟩

/-- A comparison of texts finds what it should or takes them for equal; it is right over their
whole length, and over none it takes all texts for equal. -/
theorem check_text (op : CompOp) (a b : Bytes) (n m : Int) :
    ∃ v, op.check (.string a n) (.string b m) = .ok v ∧
    (v = op.rel (upToNul a) (upToNul b) ∨ v = op.reflexive) ∧
    (n < 0 → m < 0 → v = op.rel (upToNul a) (upToNul b)) ∧ (n = 0 → m = 0 → v = op.reflexive) := by
  obtain ⟨heq, hefull, hezero⟩ := strncmp_eq_cases a b n
  obtain ⟨hlt, hlfull, hlzero⟩ := strncmp_lt_cases a b n
  obtain ⟨hgt, hgfull, hgzero⟩ := strncmp_lt_cases b a m
  cases op with
  | eq =>
      exact ⟨_, rfl, by
        simpa [CompOp.rel, CompOp.reflexive, -List.not_lt]
          using ⟨heq, fun h _ => hefull h, fun h _ => hezero h⟩⟩
  | ne =>
      exact ⟨_, rfl, by
        simpa [CompOp.rel, CompOp.reflexive, -List.not_lt]
          using ⟨heq, fun h _ => hefull h, fun h _ => hezero h⟩⟩
  | lt =>
      exact ⟨_, rfl, by
        simpa [CompOp.rel, CompOp.reflexive, -List.not_lt]
          using ⟨hlt, fun h _ => hlfull h, fun h _ => hlzero h⟩⟩
  | ge =>
      exact ⟨_, rfl, by
        simpa [CompOp.rel, CompOp.reflexive, -List.not_lt]
          using ⟨hlt, fun h _ => hlfull h, fun h _ => hlzero h⟩⟩
  | gt =>
      exact ⟨_, rfl, by
        simpa [CompOp.rel, CompOp.reflexive, -List.not_lt]
          using ⟨hgt, fun _ h => hgfull h, fun _ h => hgzero h⟩⟩
  | le =>
      exact ⟨_, rfl, by
        simpa [CompOp.rel, CompOp.reflexive, -List.not_lt]
          using ⟨hgt, fun _ h => hgfull h, fun _ h => hgzero h⟩⟩

end Texts

def SvValue.type : SvValue → ColType
  | int _ => .int
  | float _ => .float
  | text _ => .string

namespace AggrCol

def groupInt (c : AggrCol) (records : List Bytes) : Int :=
  let vals := records.map fun record => (c.readInt record).toInt
  match c.aggr with
  | .none => vals.head?.getD 0
  | .count => records.length
  | .sum => vals.sum
  | .max => vals.max?.getD 0
  | .min => vals.min?.getD 0

def groupText (c : AggrCol) (records : List Bytes) : Bytes := (records.head?.map c.readText).getD []

def groupOut (c : AggrCol) (records : List Bytes) : OutCol :=
  if c.aggr = .none ∧ c.col.type = .string then ⟨.string, padTo c.col.len (c.groupText records)⟩
  else ⟨.int, intBytes (Int32.ofInt (c.groupInt records))⟩

end AggrCol

namespace MatchedCond

def truth (cond : MatchedCond) (records : List Bytes) : Bool :=
  match cond.rhsVal with
  | .int w => cond.op.rel (Int32.ofInt (cond.lhs.groupInt records)) w
  | .text s => cond.op.rel (cond.lhs.groupText records) (upToNul s)
  | .float _ => false

/-- The condition when all texts are taken for equal. -/
def loose (cond : MatchedCond) (records : List Bytes) : Bool :=
  match cond.rhsVal with
  | .text _ => cond.op.reflexive
  | _ => cond.truth records

/-- The lengths of the texts do not matter to the condition. -/
def Stable (cond : MatchedCond) (records : List Bytes) : Prop := cond.loose records = cond.truth records

end MatchedCond

def groupValues (groupCols : List ColMeta) (record : Bytes) : List Bytes :=
  groupCols.map fun c => c.slice record

/-- The records of each value of the grouping columns, in order of the first appearance of the values. -/
def groupsBy (groupCols : List ColMeta) (records : List Bytes) : List (List Bytes) :=
  (keysOf (groupValues groupCols) records).map fun value => records.filter fun record =>
    groupValues groupCols record = value

section Values

variable {ops : FloatOps Float32} {c : AggrCol} {records : List Bytes} {strLen : Nat → Int}

theorem foldl_sum (v : Int32) : records.foldl (fun sum record => sum + c.readInt record) v =
    Int32.ofInt (v.toInt + (records.map fun record => (c.readInt record).toInt).sum) := by
  induction records generalizing v with
  | nil => simp
  | cons record records ih =>
      rw [List.foldl_cons, ih, List.map_cons, List.sum_cons, ← Int.add_assoc, Int32.ofInt_add,
        Int32.ofInt_add, Int32.ofInt_add, Int32.ofInt_toInt, Int32.ofInt_toInt, Int32.ofInt_toInt]

theorem foldl_max (v : Int32) :
    records.foldl (fun v record => if v < c.readInt record then c.readInt record else v) v =
    Int32.ofInt ((records.map fun record => (c.readInt record).toInt).foldl max v.toInt) := by
  induction records generalizing v with
  | nil => simp
  | cons record records ih =>
      have hstep : (if v < c.readInt record then c.readInt record else v).toInt =
          max v.toInt (c.readInt record).toInt := by
        by_cases hlt : v < c.readInt record
        · rw [if_pos hlt, max_eq_right (Int32.lt_iff_toInt_lt.1 hlt).le]
        · rw [if_neg hlt, max_eq_left (Int.not_lt.1 fun h => hlt (Int32.lt_iff_toInt_lt.2 h))]
      rw [List.foldl_cons, ih, hstep, List.map_cons, List.foldl_cons]

theorem foldl_min (v : Int32) :
    records.foldl (fun v record => if c.readInt record < v then c.readInt record else v) v =
    Int32.ofInt ((records.map fun record => (c.readInt record).toInt).foldl min v.toInt) := by
  induction records generalizing v with
  | nil => simp
  | cons record records ih =>
      have hstep : (if c.readInt record < v then c.readInt record else v).toInt =
          min v.toInt (c.readInt record).toInt := by
        by_cases hlt : c.readInt record < v
        · rw [if_pos hlt, min_eq_right (Int32.lt_iff_toInt_lt.1 hlt).le]
        · rw [if_neg hlt, min_eq_left (Int.not_lt.1 fun h => hlt (Int32.lt_iff_toInt_lt.2 h))]
      rw [List.foldl_cons, ih, hstep, List.map_cons, List.foldl_cons]

theorem aggregateValue_int (ht : c.col.type = .int) (hne : records ≠ []) :
    aggregateValue ops strLen c records = .ok (.int (Int32.ofInt (c.groupInt records))) := by
  obtain ⟨first, rest, rfl⟩ := List.exists_cons_of_ne_nil hne
  rw [AggrCol.groupInt]
  cases haggr : c.aggr with
  | none =>
      simp only [aggregateValue, haggr, toValue, ht, List.map_cons, List.head?_cons, Option.getD_some,
        Int32.ofInt_toInt]
  | count => simp only [aggregateValue, haggr, Int32.ofInt_eq_ofNat]
  | sum =>
      simp only [aggregateValue, haggr, sumValue, ht, foldl_sum]
      rw [Int32.toInt_zero, Int.zero_add]
  | max =>
      rw [max_value haggr ht, foldl_max, List.map_cons, List.foldl_cons, max_self]
      rfl
  | min =>
      rw [min_value haggr ht, foldl_min, List.map_cons, List.foldl_cons, min_self]
      rfl

theorem collected (hc : c.aggr = .none ∧ c.col.type = .string ∨ c.col.type = .int) (hne : records ≠ []) :
    (aggregateValue ops strLen c records).map (AggrValue.out ops c) = .ok (c.groupOut records) := by
  rcases hc with ⟨haggr, ht⟩ | ht
  · obtain ⟨first, rest, rfl⟩ := List.exists_cons_of_ne_nil hne
    rw [AggrCol.groupOut, if_pos ⟨haggr, ht⟩]
    simp only [aggregateValue, haggr, toValue, ht, Except.map, AggrValue.out, AggrCol.selCol, AggrValue.raw]
    rfl
  · have htype : c.selCol.type = .int := by
      rw [AggrCol.selCol]
      cases c.aggr <;> simp [ht]
    rw [AggrCol.groupOut, if_neg (by simp [ht]), aggregateValue_int ht hne]
    simp only [Except.map, AggrValue.out, htype, AggrValue.raw]

end Values

structure IsGroup (groupCols : List ColMeta) (records : List Bytes) : Prop where
  ne_nil : records ≠ []
  same : ∀ record ∈ records, ∀ record' ∈ records, groupValues groupCols record = groupValues groupCols record'
  fits : ∀ record ∈ records, ∀ c ∈ groupCols, c.offset + c.len ≤ record.length

def Groupable (c : ColMeta) : Prop := c.type = .int ∧ c.len = 4 ∨ c.type = .string

def MatchedCond.Comparable (groupCols : List ColMeta) (cond : MatchedCond) : Prop :=
  (if cond.lhs.aggr = .none then cond.lhs.col ∈ groupCols else cond.lhs.col.type = .int) ∧
    cond.rhsVal.type = cond.lhs.col.type

section Groups

variable {gcols : List ColMeta} {records group : List Bytes} {record record' : Bytes}

theorem groupValues_of_key (hfits : ∀ c ∈ gcols, c.offset + c.len ≤ record.length)
    (hfits' : ∀ c ∈ gcols, c.offset + c.len ≤ record'.length)
    (h : groupKey gcols record = groupKey gcols record') :
    groupValues gcols record = groupValues gcols record' := by
  induction gcols with
  | nil => rfl
  | cons c gcols ih =>
      rw [groupKey, groupKey, List.map_cons, List.map_cons, List.flatten_cons, List.flatten_cons] at h
      have hlen : (c.slice record).length = (c.slice record').length := by
        rw [slice_length (hfits c List.mem_cons_self), slice_length (hfits' c List.mem_cons_self)]
      obtain ⟨hhead, htail⟩ := List.append_inj h hlen
      have hrest :=
        ih (fun d hd => hfits d (List.mem_cons_of_mem _ hd))
          (fun d hd => hfits' d (List.mem_cons_of_mem _ hd)) htail
      rw [groupValues, groupValues, List.map_cons, List.map_cons, hhead]
      exact congrArg _ hrest

/-- The concatenated fields keep the groups apart. -/
theorem stored_groups (hfits : ∀ record ∈ records, ∀ c ∈ gcols, c.offset + c.len ≤ record.length) :
    (groupsOf (groupKey gcols) records).map Prod.snd = groupsBy gcols records := by
  have h : (groupsOf (fun record => (groupValues gcols record).flatten) records).map Prod.snd =
      (groupsOf (groupValues gcols) records).map Prod.snd :=
    groupsOf_renamed fun a ha b hb hab => groupValues_of_key (hfits a ha) (hfits b hb) hab
  rw [groupsOf_eq, groupsOf_eq, List.map_map, List.map_map] at h
  rw [groupsOf_eq, List.map_map]
  exact h

theorem isGroup_of_mem (hfits : ∀ record ∈ records, ∀ c ∈ gcols, c.offset + c.len ≤ record.length)
    (h : group ∈ groupsBy gcols records) : IsGroup gcols group := by
  obtain ⟨value, hvalue, rfl⟩ := List.mem_map.1 h
  have hmem : ∀ {r}, r ∈ records.filter (fun record => groupValues gcols record = value) →
      r ∈ records ∧ groupValues gcols r = value := fun hr => by simpa using List.mem_filter.1 hr
  refine ⟨?_, fun r hr r' hr' => by rw [(hmem hr).2, (hmem hr').2], fun r hr => hfits r (hmem hr).1⟩
  obtain ⟨r, hr, hkey⟩ := mem_keysOf.1 hvalue
  exact List.ne_nil_of_mem (List.mem_filter.2 ⟨hr, by simpa using hkey⟩)

variable {c : AggrCol}

theorem IsGroup.slice (hg : IsGroup gcols group) (hc : c.col ∈ gcols) (hr : record ∈ group)
    (hr' : record' ∈ group) :
    c.col.slice record = c.col.slice record' := List.map_inj_left.1 (hg.same record hr record' hr') c.col hc

theorem IsGroup.readText (hg : IsGroup gcols group) (hc : c.col ∈ gcols) (hr : record ∈ group) :
    c.groupText group = c.readText record := by
  obtain ⟨first, rest, rfl⟩ := List.exists_cons_of_ne_nil hg.ne_nil
  exact congrArg upToNul (hg.slice hc List.mem_cons_self hr)

theorem IsGroup.readInt (hg : IsGroup gcols group) (hc : c.col ∈ gcols) (haggr : c.aggr = .none)
    (hlen : c.col.len = 4) (hr : record ∈ group) : Int32.ofInt (c.groupInt group) = c.readInt record := by
  have hread : ∀ r ∈ group, c.readInt r = Int32.ofInt (Rmdb.readInt (c.col.slice r)) := by
    intro r hr
    have := hg.fits r hr c.col hc
    rw [AggrCol.readInt, ColMeta.slice, hlen, readInt_take (by rw [List.length_drop]; omega)]
  obtain ⟨first, rest, rfl⟩ := List.exists_cons_of_ne_nil hg.ne_nil
  rw [AggrCol.groupInt, haggr, List.map_cons, List.head?_cons, Option.getD_some, Int32.ofInt_toInt,
    hread first List.mem_cons_self, hread record hr, hg.slice hc List.mem_cons_self hr]

end Groups

section Conditions

variable {ops : FloatOps Float32} {gcols : List ColMeta} {group : List Bytes} {record : Bytes}
  {cond : MatchedCond}

theorem check_int (op : CompOp) (v w : Int32) : op.check (.int v) (.int w) = .ok (op.rel v w) := by
  cases op with
  | eq | lt | gt => rfl
  | ne | le | ge =>
      simp [CompOp.check, Value.eq, Value.lt, CompOp.rel, Functor.map, Except.map, -Int32.not_lt]

/-- A condition is right or takes all texts for equal, and lengths can be left in the texts that
make it do either. -/
theorem eval_spec (ops : FloatOps Float32) (strLen : Nat → Int) (litLen : Int) (hg : IsGroup gcols group)
    (hkey : ∀ c ∈ gcols, Groupable c) (hc : cond.Comparable gcols) (hr : record ∈ group) :
    ∃ v, cond.eval ops strLen litLen group record = .ok v ∧
      (v = cond.truth group ∨ v = cond.loose group) ∧
      ((∀ k, strLen k < 0) → litLen < 0 → v = cond.truth group) ∧
        ((∀ k, strLen k = 0) → litLen = 0 → v = cond.loose group) := by
  obtain ⟨hlhs, htype⟩ := hc
  split at hlhs
  · rename_i haggr
    rcases hkey _ hlhs with ⟨hint, hlen⟩ | hstr
    · cases hlit : cond.rhsVal with
      | float x => rw [hlit, hint] at htype; cases htype
      | text s => rw [hlit, hint] at htype; cases htype
      | int w =>
          have htruth : cond.truth group = cond.op.rel (cond.lhs.readInt record) w := by
            rw [MatchedCond.truth, hlit, ← hg.readInt hlhs haggr hlen hr]
          refine ⟨cond.truth group, ?_, .inl rfl, fun _ _ => rfl, fun _ _ => by rw [MatchedCond.loose, hlit]⟩
          simp only [MatchedCond.eval, MatchedCond.lhsValue, haggr, if_true, toValue, hint, bind,
            Except.bind, Except.mapError, AggrValue.value, MatchedCond.check, hlit, SvValue.value,
            check_int, htruth]
    · cases hlit : cond.rhsVal with
      | float x => rw [hlit, hstr] at htype; cases htype
      | int w => rw [hlit, hstr] at htype; cases htype
      | text s =>
          obtain ⟨v, hv, hor, hfull, hzero⟩ :=
            check_text cond.op (cond.lhs.readText record) s (strLen 0) litLen
          have htext : upToNul (cond.lhs.readText record) = cond.lhs.readText record := by
            rw [AggrCol.readText, upToNul, List.takeWhile_takeWhile]
            simp
          have htruth : cond.truth group = cond.op.rel (upToNul (cond.lhs.readText record)) (upToNul s) := by
            rw [MatchedCond.truth, hlit, htext, ← hg.readText hlhs hr]
          have hloose : cond.loose group = cond.op.reflexive := by rw [MatchedCond.loose, hlit]
          rw [htruth, hloose]
          refine ⟨v, ?_, hor, fun h => hfull (h 0), fun h => hzero (h 0)⟩
          simp only [MatchedCond.eval, MatchedCond.lhsValue, haggr, if_true, toValue, hstr, bind,
            Except.bind, Except.mapError, AggrValue.value, MatchedCond.check, hlit, SvValue.value, hv]
  · rename_i haggr
    cases hlit : cond.rhsVal with
    | float x => rw [hlit, hlhs] at htype; cases htype
    | text s => rw [hlit, hlhs] at htype; cases htype
    | int w =>
        refine ⟨cond.truth group, ?_, .inl rfl, fun _ _ => rfl, fun _ _ => by rw [MatchedCond.loose, hlit]⟩
        have hpromote : ∀ a b : Int32, promote (.int a) (.int b) =
          .ok (.int a, .int b) := fun a b => promote_self rfl
        simp only [MatchedCond.eval, MatchedCond.lhsValue, if_neg haggr,
          aggregateValue_int hlhs hg.ne_nil, bind, Except.bind, Except.mapError, AggrValue.value,
          MatchedCond.check, hlit, SvValue.value, hpromote, check_int, MatchedCond.truth]

end Conditions

namespace GroupExecutor

variable {ops : FloatOps Float32} {unset : Unset} {conds : List MatchedCond}
  {group records : List Bytes} {record : Bytes} {groups : List (List Bytes)} {agg : GroupExecutor}
  {n fuel : Nat} {p : List Bytes → Bool}

theorem allOf_spec {strLen : Nat → Nat → Int} {k : Nat}
    (h : ∀ i (c : MatchedCond), conds[i]? = some c →
      ∃ v, c.eval ops (strLen (k + i)) (unset.literal (k + i)) group record = .ok v) :
    ∃ b, allOf ops unset strLen group record k conds = .ok b ∧ (b = true ↔
      ∀ i (c : MatchedCond), conds[i]? = some c →
        c.eval ops (strLen (k + i)) (unset.literal (k + i)) group record = .ok true) := by
  induction conds generalizing k with
  | nil => exact ⟨true, rfl, by simp⟩
  | cons cond conds ih =>
      obtain ⟨v, hv⟩ := h 0 cond rfl
      rw [Nat.add_zero] at hv
      have hshift : ∀ i, k + (i + 1) = k + 1 + i := fun i => by omega
      obtain ⟨b, hb, hiff⟩ := ih (k := k + 1) fun i c hc => by
        rw [← hshift]
        exact h (i + 1) c hc
      cases v with
      | false =>
          refine ⟨false, by simp only [allOf, hv, bind, Except.bind]; rfl,
            iff_of_false (by simp) fun hall => ?_⟩
          have := hall 0 cond rfl
          rw [Nat.add_zero, hv] at this
          cases this
      | true =>
          refine ⟨b, by simp only [allOf, hv, bind, Except.bind, if_true, hb],
            hiff.trans ⟨fun hall i c hc => ?_, fun hall i c hc => ?_⟩⟩
          · cases i with
            | zero =>
                obtain rfl : cond = c := by simpa using hc
                exact hv
            | succ i =>
                rw [hshift]
                exact hall i c hc
          · rw [← hshift]
            exact hall (i + 1) c hc

theorem allOf_all {strLen : Nat → Nat → Int} {f : MatchedCond → Bool}
    (h : ∀ i (c : MatchedCond), conds[i]? = some c →
      c.eval ops (strLen (0 + i)) (unset.literal (0 + i)) group record = .ok (f c)) :
    allOf ops unset strLen group record 0 conds = .ok (conds.all f) := by
  obtain ⟨b, hb, hiff⟩ := allOf_spec fun i c hc => ⟨_, h i c hc⟩
  rw [hb]
  refine congrArg _ (Bool.eq_iff_iff.2 (hiff.trans ?_))
  rw [List.all_eq_true]
  constructor
  · intro hall c hcm
    obtain ⟨i, hi⟩ := List.mem_iff_getElem?.1 hcm
    have htrue := hall i c hi
    rw [h i c hi] at htrue
    exact Except.ok.inj htrue
  · intro hall i c hi
    rw [h i c hi, hall c (List.mem_of_getElem? hi)]

theorem allOf_false {strLen : Nat → Nat → Int} {i : Nat} {c : MatchedCond}
    (h : ∀ i (c : MatchedCond), conds[i]? = some c →
      ∃ v, c.eval ops (strLen (0 + i)) (unset.literal (0 + i)) group record = .ok v)
    (hi : conds[i]? = some c)
    (hfalse : c.eval ops (strLen (0 + i)) (unset.literal (0 + i)) group record = .ok false) :
    allOf ops unset strLen group record 0 conds = .ok false := by
  obtain ⟨b, hb, hiff⟩ := allOf_spec h
  cases b with
  | false => exact hb
  | true =>
      have htrue := hiff.1 rfl i c hi
      rw [hfalse] at htrue
      cases htrue

/-- If the conditions hold on all records of a group or on none, the group is kept as a whole or left out. -/
theorem checkConditions_all {strLen : Nat → Nat → Nat → Int} {b : Bool} {i : Nat} {rest : List Bytes}
    (h : ∀ i, ∀ record ∈ rest, allOf ops unset (strLen i) group record 0 conds = .ok b) :
    checkConditions ops unset strLen conds group i rest = .ok (if b then rest else []) := by
  induction rest generalizing i with
  | nil => simp [checkConditions]
  | cons record rest ih =>
      simp only [checkConditions, h i record List.mem_cons_self,
        ih fun i r hr => h i r (List.mem_cons_of_mem _ hr), bind, Except.bind,
        pure, Except.pure]
      cases b <;> rfl

theorem fetchAll_end (hend : agg.isEnd = true) : fetchAll ops unset fuel agg = .ok [] := by
  cases fuel <;> exact if_pos hend

theorem fetchAll_succ {row : List OutCol} {rows : List (List OutCol)} (hend : agg.isEnd = false)
    (hfetch : fetch ops unset agg = .ok row)
    (hrest : nextTuple ops unset agg >>= fetchAll ops unset fuel = .ok rows) :
    fetchAll ops unset (fuel + 1) agg = .ok (row :: rows) := by
  rw [fetchAll, if_neg (by simp [hend]), hfetch]
  cases hnext : nextTuple ops unset agg with
  | error e => rw [hnext] at hrest; cases hrest
  | ok next =>
      rw [hnext] at hrest
      simp only [bind, Except.bind] at hrest
      simp only [hrest, bind, Except.bind, pure, Except.pure]

theorem fetchAll_groups
    (hcheck : ∀ n, ∀ group ∈ groups, checkConditions ops unset (unset.lhs n) agg.havingConds group 0 group =
      .ok (if p group then group else []))
    (hrow : ∀ n, ∀ group ∈ groups, collectRow ops (unset.row n) group 0 agg.selCols =
      .ok (agg.selCols.map fun c => c.groupOut group))
    (hend : agg.isEnd = false) (hne : ∀ group ∈ groups, group ≠ []) (hfuel : groups.length ≤ fuel) :
    nextGroup ops unset agg n groups >>= fetchAll ops unset fuel =
      .ok ((groups.filter p).map fun group => agg.selCols.map fun c => c.groupOut group) := by
  induction groups generalizing agg fuel n with
  | nil => exact fetchAll_end rfl
  | cons group groups ih =>
      have hlen : group.length ≠ 0 := by simpa using hne group List.mem_cons_self
      have hcheck' := fun n g hg => hcheck n g (List.mem_cons_of_mem _ hg)
      have hrow' := fun n g hg => hrow n g (List.mem_cons_of_mem _ hg)
      have hne' := fun g hg => hne g (List.mem_cons_of_mem _ hg)
      rw [List.length_cons] at hfuel
      rw [nextGroup, hcheck n group List.mem_cons_self]
      cases hp : p group with
      | false =>
          rw [List.filter_cons_of_neg (by simp [hp])]
          exact ih hcheck' hrow' hend hne' (by omega)
      | true =>
          obtain ⟨fuel, rfl⟩ : ∃ m, fuel = m + 1 := ⟨fuel - 1, by omega⟩
          rw [List.filter_cons_of_pos hp, List.map_cons]
          simp only [bind, Except.bind, pure, Except.pure, if_true, hlen, if_false]
          refine fetchAll_succ hend ?_ ?_
          · rw [fetch, hrow _ group List.mem_cons_self]
            rfl
          · rw [nextTuple]
            exact ih hcheck' hrow' hend hne' (by omega)

end GroupExecutor

def GroupCond.find (prevCols : List ColMeta) (cond : GroupCond) : Except ScanError MatchedCond :=
  (MatchedCond.mk · cond.op cond.rhsVal) <$> SelectedCol.find prevCols ⟨cond.lhsCol, cond.aggr⟩

/-- The queries of the statement: rows are grouped by numbers and texts that lie in them; grouping
columns and aggregates over numbers are selected, not `COUNT(*)` alone; the conditions compare
grouping columns and selected aggregates with literals of the same type. -/
structure GroupedQuery (query : GroupQuery) (prev : Child) (groupCols : List ColMeta) (selCols : List AggrCol)
    (conds : List MatchedCond) (records : List Bytes) : Prop where
  rows : prev.rows = .ok records
  groupCols_found : query.groupCols.mapM (getCol prev.cols) = .ok groupCols
  selCols_found : query.selCols.mapM (SelectedCol.find prev.cols) = .ok selCols
  conds_found : query.havingConds.mapM (GroupCond.find prev.cols) = .ok conds
  grouped : groupCols ≠ []
  groupable : ∀ c ∈ groupCols, Groupable c
  fits : ∀ record ∈ records, ∀ c ∈ groupCols, c.offset + c.len ≤ record.length
  selected : ∀ c ∈ selCols, if c.aggr = .none then c.col ∈ groupCols else c.col.type = .int
  not_countStar : selCols ≠ [AggrCol.starCol]
  comparable : ∀ cond ∈ conds, cond.Comparable groupCols
  aggregates : ∀ cond ∈ conds, cond.lhs.aggr ≠ .none → cond.lhs = AggrCol.starCol ∨ cond.lhs ∈ selCols

def satisfies (conds : List MatchedCond) (group : List Bytes) : Bool := conds.all fun cond => cond.truth group

/-- One row for each group that satisfies `HAVING`, whatever is found in the lengths that nothing sets. -/
def GroupedCorrectly (ops : FloatOps Float32) (query : GroupQuery) (prev : Child) (groupCols : List ColMeta)
    (selCols : List AggrCol) (conds : List MatchedCond) (records : List Bytes) : Prop :=
  ∀ unset fuel, records.length + 1 ≤ fuel → GroupExecutor.run ops unset query prev fuel =
    .ok (((groupsBy groupCols records).filter (satisfies conds)).map fun group =>
      selCols.map fun c => c.groupOut group)

/-- The lengths of texts do not matter to what `HAVING` finds on the group. -/
def Settled (conds : List MatchedCond) (group : List Bytes) : Prop :=
  (∃ cond ∈ conds, cond.Stable group ∧ cond.truth group = false) ∨ ∀ cond ∈ conds, cond.Stable group

section Columns

variable {prevCols : List ColMeta} {sels : List SelectedCol} {selCols : List AggrCol}
  {cond : GroupCond} {m : MatchedCond} {sel : SelectedCol} {c : AggrCol}

theorem getCol_spec {target : TabCol} {col : ColMeta} (h : getCol prevCols target = .ok col) :
    col.tabName = target.tabName ∧ col.name = target.colName := by
  rw [getCol] at h
  split at h
  · rename_i hfind
    cases h
    simpa using List.find?_some hfind
  · cases h

theorem SelectedCol.find_spec (h : sel.find prevCols = .ok c) :
    sel.aggr = .count ∧ sel.col.colName = "*" ∧ c = AggrCol.starCol ∨
      ¬ (sel.aggr = .count ∧ sel.col.colName = "*") ∧ c.aggr = sel.aggr ∧
      getCol prevCols sel.col = .ok c.col := by
  rw [SelectedCol.find] at h
  split at h
  · rename_i hstar
    cases h
    exact .inl ⟨hstar.1, hstar.2, rfl⟩
  · rename_i hstar
    cases hcol : getCol prevCols sel.col with
    | error e => rw [hcol] at h; cases h
    | ok col =>
        rw [hcol] at h
        cases h
        exact .inr ⟨hstar, rfl, rfl⟩

/-- The left side is found exactly if it is `COUNT(*)` or one of the selected columns. -/
theorem lhsMatch_spec (hsel : sels.mapM (SelectedCol.find prevCols) = .ok selCols)
    (h : cond.find prevCols = .ok m) :
    (m.lhs = AggrCol.starCol ∨ m.lhs ∈ selCols → cond.lhsMatch selCols = .ok m) ∧
      (∀ m', cond.lhsMatch selCols = .ok m' → m.lhs = AggrCol.starCol ∨ m.lhs ∈ selCols) := by
  obtain ⟨c, hc, rfl⟩ : ∃ c, SelectedCol.find prevCols ⟨cond.lhsCol, cond.aggr⟩ = .ok c ∧
      m = ⟨c, cond.op, cond.rhsVal⟩ := by
    rw [GroupCond.find] at h
    cases hc : SelectedCol.find prevCols ⟨cond.lhsCol, cond.aggr⟩ with
    | error e => rw [hc] at h; cases h
    | ok c =>
        rw [hc] at h
        cases h
        exact ⟨c, rfl, rfl⟩
  rcases SelectedCol.find_spec hc with ⟨haggr, hname, rfl⟩ | ⟨hstar, haggr, hcol⟩
  · refine ⟨fun _ => ?_, fun _ _ => .inl rfl⟩
    rw [GroupCond.lhsMatch, if_pos ⟨haggr, hname⟩]
  · have hnames := getCol_spec hcol
    have hnamed : c.named cond.lhsCol cond.aggr = true := by simp [AggrCol.named, hnames, haggr]
    have honly : ∀ d ∈ selCols, d.named cond.lhsCol cond.aggr = true → d = c := by
      intro d hd hdn
      obtain ⟨sel, -, hfind⟩ := forall₂_right (mapM_ok hsel) hd
      obtain ⟨hdtab, hdname, hdaggr⟩ : d.col.tabName = cond.lhsCol.tabName ∧
        d.col.name = cond.lhsCol.colName ∧
          d.aggr = cond.aggr := by simpa [AggrCol.named] using hdn
      rcases SelectedCol.find_spec hfind with ⟨-, -, rfl⟩ | ⟨-, hsaggr, hscol⟩
      · exact absurd ⟨hdaggr.symm, hdname.symm⟩ hstar
      · have hsnames := getCol_spec hscol
        have htarget : sel.col = cond.lhsCol := by
          cases hs : sel.col with
          | mk t n =>
              cases hl : cond.lhsCol with
              | mk t' n' =>
                  rw [hs] at hsnames
                  rw [hl] at hdtab hdname
                  simp only at hsnames hdtab hdname
                  rw [← hsnames.1, ← hsnames.2, hdtab, hdname]
        rw [htarget, hcol] at hscol
        cases d
        cases c
        cases hscol
        simp only at hdaggr haggr
        rw [hdaggr, haggr]
    rw [GroupCond.lhsMatch, if_neg hstar]
    constructor
    · intro hin
      have hmem : c ∈ selCols := by
        rcases hin with rfl | hin
        · exact absurd ⟨haggr.symm, hnames.2.symm⟩ hstar
        · exact hin
      cases hfind : selCols.find? (AggrCol.named cond.lhsCol cond.aggr) with
      | none => exact absurd hnamed (List.find?_eq_none.1 hfind c hmem)
      | some d =>
          obtain rfl := honly d (List.mem_of_find?_eq_some hfind) (List.find?_some hfind)
          rfl
    · intro m' hm'
      cases hfind : selCols.find? (AggrCol.named cond.lhsCol cond.aggr) with
      | none => rw [hfind] at hm'; cases hm'
      | some d =>
          have hd := List.mem_of_find?_eq_some hfind
          exact .inr (honly d hd (List.find?_some hfind) ▸ hd)

end Columns

/-- Lengths that make the conditions in `loosen` take all texts for equal, and the others right. -/
def Unset.of (loosen : MatchedCond → Bool) (conds : List MatchedCond) : Unset where
  literal k := if conds[k]?.any loosen then 0 else -1
  lhs _ _ k _ := if conds[k]?.any loosen then 0 else -1
  row _ _ _ := 0

section Runs

variable {ops : FloatOps Float32} {query : GroupQuery} {prev : Child} {gcols : List ColMeta}
  {scols : List AggrCol} {conds : List MatchedCond} {records group : List Bytes} {record : Bytes}
  {unset : Unset} {fuel : Nat}

/-- The query is accepted exactly if the conditions are about selected columns and `COUNT(*)`. -/
theorem make_spec (h : GroupedQuery query prev gcols scols conds records) :
    ((∀ cond ∈ conds, cond.lhs = AggrCol.starCol ∨ cond.lhs ∈ scols) →
      GroupExecutor.make query prev.cols = .ok ⟨gcols, scols, conds, [], 0, false, []⟩) ∧
    ∀ agg, GroupExecutor.make query prev.cols = .ok agg → ∀ cond ∈ conds, cond.lhs = AggrCol.starCol ∨
      cond.lhs ∈ scols := by
  have hfound := mapM_ok h.conds_found
  constructor
  · intro hall
    have hmatch : query.havingConds.mapM (GroupCond.lhsMatch scols) = .ok conds := by
      have hboth := ((List.forall₂_and_left conds query.havingConds).2 ⟨hall, hfound.flip⟩).flip
      exact mapM_of_forall₂ (hboth.imp fun cond m hm => (lhsMatch_spec h.selCols_found hm.2).1 hm.1)
    simp only [GroupExecutor.make, h.groupCols_found, h.selCols_found, hmatch, bind, Except.bind,
      pure, Except.pure]
  · intro agg hagg m hm
    simp only [GroupExecutor.make, h.groupCols_found, h.selCols_found, bind, Except.bind] at hagg
    cases hmatch : query.havingConds.mapM (GroupCond.lhsMatch scols) with
    | error e => rw [hmatch] at hagg; cases hagg
    | ok conds' =>
        obtain ⟨cond, hcond, hfind⟩ := forall₂_right hfound hm
        obtain ⟨m', -, hm'⟩ := forall₂_left (mapM_ok hmatch) hcond
        exact (lhsMatch_spec h.selCols_found hfind).2 m' hm'

theorem groupsBy_length : (groupsBy gcols records).length ≤ records.length := by
  have h : (groupsOf (groupValues gcols) records).length ≤ records.length := groupsOf_length_le
  rwa [groupsOf_eq, List.length_map,
    ← List.length_map fun value => records.filter fun record => groupValues gcols record = value] at h

theorem run_spec {p : List Bytes → Bool} (h : GroupedQuery query prev gcols scols conds records)
    (hfound : ∀ cond ∈ conds, cond.lhs = AggrCol.starCol ∨ cond.lhs ∈ scols)
    (hkeep : ∀ n i, ∀ group ∈ groupsBy gcols records, ∀ record ∈ group,
      GroupExecutor.allOf ops unset (unset.lhs n i) group record 0 conds = .ok (p group))
    (hfuel : records.length + 1 ≤ fuel) : GroupExecutor.run ops unset query prev fuel =
      .ok (((groupsBy gcols records).filter p).map fun group => scols.map fun c => c.groupOut group) := by
  have hgroups := stored_groups h.fits
  simp only [GroupExecutor.run, (make_spec h).1 hfound, GroupExecutor.beginTuple, h.rows, hgroups,
    GroupExecutor.nextTuple, bind, Except.bind, Except.mapError]
  refine GroupExecutor.fetchAll_groups ?_ ?_ rfl ?_ ?_
  · exact fun n group hg => GroupExecutor.checkConditions_all fun i => hkeep n i group hg
  · intro n group hg
    refine collectRow_eq.2 fun k c hk => collected ?_ (isGroup_of_mem h.fits hg).ne_nil
    have hc := h.selected c (List.mem_of_getElem? hk)
    split at hc
    · rename_i haggr
      rcases h.groupable _ hc with ⟨ht, -⟩ | ht
      · exact .inr ht
      · exact .inl ⟨haggr, ht⟩
    · exact .inr hc
  · exact fun group hg => (isGroup_of_mem h.fits hg).ne_nil
  · exact le_trans groupsBy_length (by omega)

/-- On a settled group the conditions are right. -/
theorem allOf_settled (hg : IsGroup gcols group) (hkey : ∀ c ∈ gcols, Groupable c)
    (hc : ∀ cond ∈ conds, cond.Comparable gcols) (hs : Settled conds group) {strLen : Nat → Nat → Int}
    (hr : record ∈ group) :
    GroupExecutor.allOf ops unset strLen group record 0 conds = .ok (satisfies conds group) := by
  have heval : ∀ k (c : MatchedCond), conds[k]? = some c → ∃ v,
      c.eval ops (strLen (0 + k)) (unset.literal (0 + k)) group record = .ok v ∧
      (c.Stable group → v = c.truth group) := by
    intro k c hk
    obtain ⟨v, hv, hor, -⟩ := eval_spec ops (strLen (0 + k)) (unset.literal (0 + k)) hg hkey
      (hc c (List.mem_of_getElem? hk)) hr
    exact ⟨v, hv, fun hst => hor.elim id fun h => h.trans hst⟩
  rcases hs with ⟨c, hcm, hst, hfalse⟩ | hall
  · have hsat : satisfies conds group = false := List.all_eq_false.2 ⟨c, hcm, by simp [hfalse]⟩
    obtain ⟨k, hk⟩ := List.mem_iff_getElem?.1 hcm
    obtain ⟨v, hv, htruth⟩ := heval k c hk
    rw [hsat]
    refine GroupExecutor.allOf_false (fun k c hk => (heval k c hk).imp fun _ h => h.1) hk ?_
    rw [hv, htruth hst, hfalse]
  · refine GroupExecutor.allOf_all fun k c hk => ?_
    obtain ⟨v, hv, htruth⟩ := heval k c hk
    rw [hv, htruth (hall c (List.mem_of_getElem? hk))]

/-- There are lengths with which exactly the conditions in `loosen` take all texts for equal. -/
theorem allOf_loosened (loosen : MatchedCond → Bool) (hg : IsGroup gcols group)
    (hkey : ∀ c ∈ gcols, Groupable c) (hc : ∀ cond ∈ conds, cond.Comparable gcols) (n i : Nat)
    (hr : record ∈ group) :
    GroupExecutor.allOf ops (Unset.of loosen conds) ((Unset.of loosen conds).lhs n i) group record 0 conds =
      .ok (conds.all fun c => if loosen c then c.loose group else c.truth group) := by
  refine GroupExecutor.allOf_all fun k c hk => ?_
  obtain ⟨v, hv, -, hfull, hzero⟩ := eval_spec ops ((Unset.of loosen conds).lhs n i (0 + k))
    ((Unset.of loosen conds).literal (0 + k)) hg hkey (hc c (List.mem_of_getElem? hk)) hr
  rw [hv]
  simp only [Unset.of, Nat.zero_add, hk, Option.any_some] at hfull hzero
  by_cases hl : loosen c = true
  · rw [if_pos hl, hzero (fun _ => if_pos hl) (if_pos hl)]
  · rw [if_neg hl, hfull (fun _ => by rw [if_neg hl]; decide) (by rw [if_neg hl]; decide)]

/-- Other lengths let a group that is not settled in or keep it out. -/
theorem settled_of_correct (h : GroupedQuery query prev gcols scols conds records)
    (hfound : ∀ cond ∈ conds, cond.lhs = AggrCol.starCol ∨ cond.lhs ∈ scols)
    (hcorrect : GroupedCorrectly ops query prev gcols scols conds records)
    (hg : group ∈ groupsBy gcols records) :
    Settled conds group := by
  classical
  by_contra hns
  rw [Settled, not_or] at hns
  obtain ⟨hnofalse, hnotall⟩ := hns
  push Not at hnofalse hnotall
  have hrun : ∀ loosen : MatchedCond → Bool, ((groupsBy gcols records).filter (satisfies conds)).length =
      ((groupsBy gcols records).filter fun g => conds.all fun c => if loosen c then c.loose g
        else c.truth g).length := by
    intro loosen
    have h1 := hcorrect (Unset.of loosen conds) _ le_rfl
    rw [run_spec h hfound (fun n i g hg r hr =>
      allOf_loosened loosen (isGroup_of_mem h.fits hg) h.groupable h.comparable n i hr) le_rfl] at h1
    simpa using congrArg List.length (Except.ok.inj h1).symm
  have hunstable : ∀ c : MatchedCond, ¬ c.Stable group → c.truth group = !c.loose group := by
    intro c hc
    rw [MatchedCond.Stable] at hc
    cases hl : c.loose group <;> cases ht : c.truth group <;> simp_all
  -- a text condition is loose in the same way on all groups
  have hloose : ∀ c : MatchedCond, ¬ c.Stable group → ∀ g, c.loose g = c.loose group := by
    intro c hc g
    rw [MatchedCond.Stable, MatchedCond.loose] at hc
    rw [MatchedCond.loose, MatchedCond.loose]
    split at hc
    · rfl
    · exact absurd rfl hc
  by_cases hsat : satisfies conds group = true
  · -- the group is lost, and all others with it
    obtain ⟨c, hcm, hc⟩ := hnotall
    have htrue : c.truth group = true := List.all_eq_true.1 hsat c hcm
    have hfalse : c.loose group = false := by simpa [htrue] using hunstable c hc
    have hlen := hrun fun d => decide (¬ d.Stable group ∧ d.loose group = false)
    have hnone : (groupsBy gcols records).filter (fun g => conds.all fun d =>
        if decide (¬ d.Stable group ∧ d.loose group = false) then d.loose g else d.truth g) = [] := by
      refine List.filter_eq_nil_iff.2 fun g _ hall => ?_
      have hd := List.all_eq_true.1 hall c hcm
      rw [if_pos (by simpa using ⟨hc, hfalse⟩), hloose c hc g, hfalse] at hd
      cases hd
    rw [hnone, List.length_nil, List.length_eq_zero_iff, List.filter_eq_nil_iff] at hlen
    exact hlen group hg hsat
  · -- the group comes in, and no other is lost
    have hlen := hrun fun d => decide (¬ d.Stable group ∧ d.loose group = true)
    have hmore : ∀ g, satisfies conds g = true →
        (conds.all fun d => if decide (¬ d.Stable group ∧ d.loose group = true) then d.loose g
          else d.truth g) = true := by
      intro g hgs
      refine List.all_eq_true.2 fun d hd => ?_
      split
      · rename_i hl
        obtain ⟨hns, htrue⟩ := of_decide_eq_true hl
        rw [hloose d hns g, htrue]
      · exact List.all_eq_true.1 hgs d hd
    have hin : (conds.all fun d => if decide (¬ d.Stable group ∧ d.loose group = true) then d.loose group
        else d.truth group) = true := by
      refine List.all_eq_true.2 fun d hd => ?_
      split
      · rename_i hl
        exact (of_decide_eq_true hl).2
      · rename_i hl
        by_cases hst : d.Stable group
        · exact Bool.not_eq_false _ ▸ hnofalse d hd hst
        · have hfalse : d.loose group = false := by simpa [hst] using hl
          rw [hunstable d hst, hfalse]
          rfl
    have hsub := List.monotone_filter_right (groupsBy gcols records) hmore
    have heq := hsub.eq_of_length hlen
    have hmem : group ∈ (groupsBy gcols records).filter (satisfies conds) := by
      rw [heq]
      exact List.mem_filter.2 ⟨hg, hin⟩
    exact hsat (List.mem_filter.1 hmem).2

end Runs

/-- The rows are right exactly if `HAVING` reads no grouping column that is not selected, and what
it finds on every group does not depend on the lengths of texts. -/
theorem grouped_correctly_iff (ops : FloatOps Float32) (query : GroupQuery) (prev : Child)
    (groupCols : List ColMeta) (selCols : List AggrCol) (conds : List MatchedCond) (records : List Bytes)
    (h : GroupedQuery query prev groupCols selCols conds records) :
    GroupedCorrectly ops query prev groupCols selCols conds records ↔
      (∀ cond ∈ conds, cond.lhs.aggr = .none → cond.lhs ∈ selCols) ∧
        ∀ group ∈ groupsBy groupCols records, Settled conds group := by
  constructor
  · intro hcorrect
    have hfound : ∀ cond ∈ conds, cond.lhs = AggrCol.starCol ∨ cond.lhs ∈ selCols := by
      have hrun := hcorrect ⟨fun _ => 0, fun _ _ _ _ => 0, fun _ _ _ => 0⟩ _ le_rfl
      rw [GroupExecutor.run] at hrun
      cases hmake : GroupExecutor.make query prev.cols with
      | error e => rw [hmake] at hrun; cases hrun
      | ok agg => exact (make_spec h).2 agg hmake
    refine ⟨fun cond hcond haggr => (hfound cond hcond).resolve_left fun hstar => ?_,
      fun group hg => settled_of_correct h hfound hcorrect hg⟩
    rw [hstar] at haggr
    cases haggr
  · rintro ⟨hselected, hsettled⟩ unset fuel hfuel
    have hfound : ∀ cond ∈ conds, cond.lhs = AggrCol.starCol ∨ cond.lhs ∈ selCols := by
      intro cond hcond
      by_cases haggr : cond.lhs.aggr = .none
      · exact .inr (hselected cond hcond haggr)
      · exact h.aggregates cond hcond haggr
    exact run_spec h hfound
      (fun n i group hg record hr => allOf_settled (isGroup_of_mem h.fits hg) h.groupable h.comparable
        (hsettled group hg) hr) hfuel

section Example

/-- `stof` is not called below. -/
def float32Ops : FloatOps Float32 where
  zero := 0
  maxFinite := Float32.ofBits 0x7f7fffff
  minNormal := Float32.ofBits 0x00800000
  add a b := a + b
  lt a b := a < b
  ofWord w := Float32.ofBits (UInt32.ofNat w)
  word x := x.toBits.toNat
  toInt x := x.toInt32
  stof _ := none

def gCol : ColMeta := ⟨"t", "g", .int, 4, 0⟩

def cCol : ColMeta := ⟨"t", "c", .string, 1, 4⟩

def vCol : ColMeta := ⟨"t", "v", .int, 4, 5⟩

def threeRecords : List Bytes :=
  [[1, 0, 0, 0, 97, 2, 0, 0, 0], [1, 0, 0, 0, 97, 3, 0, 0, 0], [2, 0, 0, 0, 98, 4, 0, 0, 0]]

def threeRows : Child := ⟨[gCol, cCol, vCol], .ok (-1), .ok threeRecords⟩

/-- `SELECT g, SUM(v) ... GROUP BY g HAVING g < 2 AND SUM(v) = 5`. -/
def byNumber : GroupQuery where
  selCols := [⟨⟨"t", "g"⟩, .none⟩, ⟨⟨"t", "v"⟩, .sum⟩]
  groupCols := [⟨"t", "g"⟩]
  havingConds := [⟨⟨"t", "g"⟩, .none, .lt, .int 2⟩, ⟨⟨"t", "v"⟩, .sum, .eq, .int 5⟩]

/-- `SELECT c, COUNT(*) ... GROUP BY c HAVING c = 'b'`. -/
def byText : GroupQuery where
  selCols := [⟨⟨"t", "c"⟩, .none⟩, ⟨⟨"", "*"⟩, .count⟩]
  groupCols := [⟨"t", "c"⟩]
  havingConds := [⟨⟨"t", "c"⟩, .none, .eq, .text [98]⟩]

theorem byNumber_grouped : GroupedQuery byNumber threeRows [gCol] [⟨gCol, .none⟩, ⟨vCol, .sum⟩]
    [⟨⟨gCol, .none⟩, .lt, .int 2⟩, ⟨⟨vCol, .sum⟩, .eq, .int 5⟩] threeRecords where
  rows := rfl
  groupCols_found := rfl
  selCols_found := rfl
  conds_found := rfl
  grouped := by simp
  groupable := by simp [Groupable, gCol]
  fits := by decide
  selected := by simp [vCol]
  not_countStar := by simp
  comparable := by simp [MatchedCond.Comparable, SvValue.type, gCol, vCol]
  aggregates := by simp

theorem byText_grouped : GroupedQuery byText threeRows [cCol] [⟨cCol, .none⟩, AggrCol.starCol]
    [⟨⟨cCol, .none⟩, .eq, .text [98]⟩] threeRecords where
  rows := rfl
  groupCols_found := rfl
  selCols_found := rfl
  conds_found := rfl
  grouped := by simp
  groupable := by simp [Groupable, cCol]
  fits := by decide
  selected := by simp [AggrCol.starCol]
  not_countStar := by simp
  comparable := by simp [MatchedCond.Comparable, SvValue.type, cCol]
  aggregates := by simp

theorem grouped_correctly_iff_numbers :
    GroupedCorrectly float32Ops byNumber threeRows [gCol] [⟨gCol, .none⟩, ⟨vCol, .sum⟩]
    [⟨⟨gCol, .none⟩, .lt, .int 2⟩, ⟨⟨vCol, .sum⟩, .eq, .int 5⟩] threeRecords := by
  refine (grouped_correctly_iff float32Ops _ _ _ _ _ _ byNumber_grouped).2 ⟨by simp, fun group _ => .inr ?_⟩
  simp [MatchedCond.Stable, MatchedCond.loose]

/-- With `str_len` zero the text `'a'` is taken for `'b'`, and its group is returned as well. -/
theorem other_text_returned : GroupedQuery byText threeRows [cCol] [⟨cCol, .none⟩, AggrCol.starCol]
      [⟨⟨cCol, .none⟩, .eq, .text [98]⟩] threeRecords ∧
    ¬ GroupedCorrectly float32Ops byText threeRows [cCol] [⟨cCol, .none⟩, AggrCol.starCol]
      [⟨⟨cCol, .none⟩, .eq, .text [98]⟩] threeRecords := by
  refine ⟨byText_grouped, fun h => ?_⟩
  have hrun : GroupExecutor.run float32Ops ⟨fun _ => 0, fun _ _ _ _ => 0, fun _ _ _ => 0⟩ byText threeRows 4 =
      .ok [[⟨.string, [97]⟩, ⟨.int, [2, 0, 0, 0]⟩], [⟨.string, [98]⟩, ⟨.int, [1, 0, 0, 0]⟩]] := by
    decide
  have hone := h ⟨fun _ => 0, fun _ _ _ _ => 0, fun _ _ _ => 0⟩ 4 (by decide)
  rw [hrun] at hone
  exact absurd (congrArg List.length (Except.ok.inj hone)) (by decide)

end Example

end Rmdb
