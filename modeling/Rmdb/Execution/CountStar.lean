import Rmdb.Execution.Aggregation
import Rmdb.Execution.ScanAgreement

namespace Rmdb

open AggregationExecutor RmFileHandle

def Access.Ready (tab : Table) : Access → Prop
  | seq => RmInv tab.fh
  | index ix ih => IndexedTable tab ix ih

def Access.Rooted : Access → Prop
  | seq => True
  | index _ ih => ih.fileHdr.rootPage ≠ -1

/-- A comparison that `check_clause` lets pass: with a literal, or with another column. -/
def Checked (tab : Table) (cond : Condition) : Prop := Literal tab cond ∨ ∃ c, cond.rhs = .col c

section Child

variable {tab : Table} {conds conds' : List Condition} {ix : IndexMeta} {ih : IxIndexHandle (Key ix.layout)}

theorem mapM_ok {A B E : Type} {f : A → Except E B} : ∀ {as : List A} {bs : List B}, as.mapM f = .ok bs →
    List.Forall₂ (fun a b => f a = .ok b) as bs
  | [], bs, h => by
      cases h
      exact .nil
  | a :: as, bs, h => by
      rw [List.mapM_cons] at h
      cases ha : f a with
      | error e => rw [ha] at h; cases h
      | ok b =>
          cases has : as.mapM f with
          | error e => rw [ha, has] at h; cases h
          | ok bs' =>
              rw [ha, has] at h
              cases h
              exact .cons ha (mapM_ok has)

theorem mapM_of_forall₂ {A B E : Type} {f : A → Except E B} {as : List A} {bs : List B}
    (h : List.Forall₂ (fun a b => f a = .ok b) as bs) : as.mapM f = .ok bs := by
  induction h with
  | nil => rfl
  | cons hab _ ih =>
      rw [List.mapM_cons, hab, ih]
      rfl

theorem forall₂_right {A B : Type} {R : A → B → Prop} {as : List A} {bs : List B}
    (h : List.Forall₂ R as bs) {b : B} (hb : b ∈ bs) : ∃ a ∈ as, R a b := by
  induction h with
  | nil => cases hb
  | cons hab _ ih =>
      rcases List.mem_cons.1 hb with rfl | hb
      · exact ⟨_, List.mem_cons_self, hab⟩
      · obtain ⟨a, ha, hr⟩ := ih hb
        exact ⟨a, List.mem_cons_of_mem _ ha, hr⟩

theorem forall₂_left {A B : Type} {R : A → B → Prop} {as : List A} {bs : List B}
    (h : List.Forall₂ R as bs) {a : A} (ha : a ∈ as) : ∃ b ∈ bs, R a b := forall₂_right h.flip ha

theorem IndexScanExecutor.residual_nil (h : residual ix conds = []) :
    ∀ cond ∈ conds, cond.op = .eq ∧ ∃ v, cond.rhs = .val v := by
  intro cond hcond
  obtain ⟨i, hi⟩ := List.mem_iff_getElem?.1 hcond
  have hmem : (cond, i) ∈ conds.zipIdx := List.mk_mem_zipIdx_iff_getElem?.2 hi
  have hused : i ∈ (equalVals ix conds).map Prod.snd := by
    by_contra hc
    have hin : cond ∈ residual ix conds :=
      List.mem_map.2 ⟨(cond, i), List.mem_filter.2 ⟨hmem, by simpa using hc⟩, rfl⟩
    rw [h] at hin
    cases hin
  obtain ⟨e, he, rfl⟩ := List.mem_map.1 hused
  obtain ⟨col, -, c, hc, hb, hop, hidx⟩ := forall₂_right (equalVals_spec ix conds) he
  have hsame : c.1 = cond := by
    have hget := List.mk_mem_zipIdx_iff_getElem?.1 (show (c.1, c.2) ∈ conds.zipIdx from hc)
    rw [hidx, hi] at hget
    exact (Option.some.inj hget).symm
  rw [hsame] at hb hop
  exact ⟨hop, _, hb.2⟩

theorem IndexScanExecutor.normalize_col {name : String} {cond cond' : Condition}
    (h : normalize name cond = .ok cond') (hcol : ∃ c, cond.rhs = .col c) : ∃ c, cond'.rhs = .col c := by
  obtain ⟨c, hc⟩ := hcol
  rw [normalize] at h
  split at h
  · cases h
    exact ⟨c, hc⟩
  · rw [hc] at h
    simp only at h
    split at h
    · cases h
      exact ⟨_, rfl⟩
    · cases h

/-- When nothing is left to check, all conditions are equalities with literals. -/
theorem IndexScanExecutor.fedConds_nil (hconds : ∀ cond ∈ conds, Checked tab cond)
    (h : fedConds ix conds tab = .ok []) :
    (∀ cond ∈ conds, Literal tab cond) ∧ (∀ cond ∈ conds, cond.op = .eq) ∧ residual ix conds = [] := by
  obtain ⟨conds', hnorm, hres⟩ : ∃ conds', conds.mapM (normalize tab.tabName) = .ok conds' ∧
      residual ix conds' = [] := by
    rw [fedConds] at h
    cases hnorm : conds.mapM (normalize tab.tabName) with
    | error e => rw [hnorm] at h; cases h
    | ok conds' =>
        rw [hnorm] at h
        exact ⟨conds', rfl, List.forall₂_nil_right_iff.1 (mapM_ok h)⟩
  have hvals := residual_nil hres
  have hlit : ∀ cond ∈ conds, Literal tab cond := by
    intro cond hcond
    obtain ⟨cond', hcond', hn⟩ := forall₂_left (mapM_ok hnorm) hcond
    refine (hconds cond hcond).resolve_right fun hcol => ?_
    obtain ⟨c, hc⟩ := normalize_col hn hcol
    obtain ⟨-, v, hv⟩ := hvals cond' hcond'
    rw [hc] at hv
    cases hv
  cases (normalize_all hlit).symm.trans hnorm
  exact ⟨hlit, fun cond hcond => (hvals cond hcond).1, hres⟩

def Table.matching (tab : Table) (conds : List Condition) : List (Rid × Bytes) :=
  tab.rows.filter fun row => conds.all fun cond => cond.passes tab row.2

theorem nodup_rows : tab.rows.Nodup := List.Nodup.map (fun _ _ h => (Prod.mk.inj h).1) nodup_rids

theorem IndexScanExecutor.run_matching (ht : IndexedTable tab ix ih) (hroot : ih.fileHdr.rootPage ≠ -1)
    (hconds : ∀ cond ∈ conds, Checked tab cond) (hfed : fedConds ix conds tab = .ok []) : ∃ N, ∃ rows :
    List (Rid × Bytes), rows.Perm (tab.matching conds) ∧
      ∀ fuel, N ≤ fuel → run conds tab ih fuel = .ok rows := by
  obtain ⟨hlit, heq, hres⟩ := fedConds_nil hconds hfed
  obtain ⟨lo, -, hlo, -⟩ := lowerKey_spec ht hlit
  obtain ⟨hi, -, hhi, -, -, hbelow⟩ := upperKey_spec ht hlit
  have hends : endCode ix lo ≤ endCode ix hi := lower_le_upper ht hlit heq hlo hhi
  have hnone : ∀ row ∈ tab.rows, ¬ (endCode ix hi < rowCode ix row ∧ rowCode ix row < endCode ix lo) :=
    fun row _ h => absurd (h.1.trans h.2) (not_lt.2 hends)
  have hcov : Covered ix conds := by
    intro cond hcond col _ v _ hle
    rw [heq cond hcond] at hle
    cases hle
  obtain ⟨N, rows, hrun, hnodup, hmem⟩ := (run_spec ht hlit hlo hhi hroot).1 hnone
  refine ⟨N, rows, (List.perm_ext_iff_of_nodup hnodup (nodup_rows.filter _)).2 fun row => ?_, hrun⟩
  rw [hmem, List.mem_filter, List.all_eq_true]
  refine and_congr_right fun hrow => ?_
  rw [in_range_iff ht hlit hlo hhi hrow]
  exact ⟨And.right, fun hpass => ⟨hbelow hcov row hrow hpass, hpass⟩⟩

theorem Access.run_matching {access : Access} (hready : access.Ready tab) (hroot : access.Rooted)
    (hconds : ∀ cond ∈ conds, Checked tab cond) (hfed : access.fedConds tab conds = .ok []) :
    ∃ N, ∃ rows : List (Rid × Bytes), rows.Perm (tab.matching conds) ∧
      ∀ fuel, N ≤ fuel → access.run tab conds fuel = .ok rows := by
  cases access with
  | seq =>
      have hnil : conds = [] := List.forall₂_nil_right_iff.1 (mapM_ok hfed)
      subst hnil
      exact ⟨tab.rows.length, tab.matching [],
        .refl _, fun fuel hf => SeqScanExecutor.run_spec hready (by simp) hf⟩
  | index ix ih => exact IndexScanExecutor.run_matching hready hroot hconds hfed

theorem Access.getCount_eq {access : Access} {fed : List FedCond} :
    access.getCount tab fed = tab.getCount fed := by
  cases access <;> rfl

theorem Access.Ready.file {access : Access} (hready : access.Ready tab) : RmInv tab.fh := by
  cases access with
  | seq => exact hready
  | index ix ih => exact IndexedTable.file hready

theorem Access.child_eq {access : Access} (hready : access.Ready tab)
    (hfed : access.fedConds tab conds = .ok []) (fuel : Nat) :
    access.child tab conds fuel = .ok ⟨tab.cols, .ok (Int32.ofNat tab.rows.length),
      (access.run tab conds fuel).map (List.map Prod.snd)⟩ := by
  have hcount : tab.getCount [] = .ok (Int32.ofNat tab.rows.length) := by
    simp only [Table.getCount, getRecordCount_spec hready.file, Except.mapError, bind, Except.bind,
      pure, Except.pure, Table.rows, List.length_map]
    rfl
  simp only [child, hfed, getCount_eq, hcount, bind, Except.bind, pure, Except.pure]

/-- The scan when it has nothing to check: it counts all rows and runs over those that match. -/
theorem Access.child_spec {access : Access} (hready : access.Ready tab) (hroot : access.Rooted)
    (hconds : ∀ cond ∈ conds, Checked tab cond) (hfed : access.fedConds tab conds = .ok []) :
    ∃ N, ∃ rows : List (Rid × Bytes), rows.Perm (tab.matching conds) ∧
      ∀ fuel, N ≤ fuel → access.child tab conds fuel =
        .ok ⟨tab.cols, .ok (Int32.ofNat tab.rows.length), .ok (rows.map Prod.snd)⟩ := by
  obtain ⟨N, rows, hperm, hrun⟩ := Access.run_matching hready hroot hconds hfed
  exact ⟨N, rows, hperm, fun fuel hf => by rw [Access.child_eq hready hfed, hrun fuel hf]; rfl⟩

theorem Access.Ready.rows_nil {access : Access} (hready : access.Ready tab) (hroot : ¬ access.Rooted) :
    tab.rows = [] := by
  cases access with
  | seq => exact absurd trivial hroot
  | index ix ih => exact (IndexScanExecutor.emptied_of_rootless hready (not_not.1 hroot)).2

/-- Without a root page there are no rows, and the scan throws. -/
theorem Access.child_rootless {access : Access} (hready : access.Ready tab) (hroot : ¬ access.Rooted)
    (hfed : access.fedConds tab conds = .ok []) (fuel : Nat) :
    ∃ e, access.child tab conds fuel = .ok ⟨tab.cols, .ok 0, .error e⟩ := by
  cases access with
  | seq => exact absurd trivial hroot
  | index ix ih =>
      have ht : IndexedTable tab ix ih := hready
      have hroot : ih.fileHdr.rootPage = -1 := not_not.1 hroot
      rw [Access.child_eq hready hfed, (IndexScanExecutor.emptied_of_rootless ht hroot).2]
      cases hrun : (Access.index ix ih).run tab conds fuel with
      | error e => exact ⟨e, rfl⟩
      | ok rows => exact absurd hrun (IndexScanExecutor.run_rootless ht hroot fuel rows)

theorem Access.child_of_fed {access : Access} (hfed : access.fedConds tab conds ≠ .ok []) (fuel : Nat) :
    (∃ e, access.child tab conds fuel = .error e) ∨
      ∃ rows, access.child tab conds fuel = .ok ⟨tab.cols, .ok (-1), rows⟩ := by
  rw [child]
  cases h : access.fedConds tab conds with
  | error e => exact .inl ⟨e, rfl⟩
  | ok fed =>
      have hne : fed.length ≠ 0 := fun hc => hfed (by rw [h, List.length_eq_zero_iff.1 hc])
      have hcount : access.getCount tab fed = .ok (-1) := by rw [getCount_eq, Table.getCount, if_pos hne]
      exact .inr ⟨(access.run tab conds fuel).map (List.map Prod.snd), by rw [← hcount]; rfl⟩

end Child

/-- The rows with the shortcut are those without it. -/
def CountsAgree (tab : Table) (access : Access) (conds : List Condition) (query : CountQuery) : Prop :=
  ∃ N, ∀ fuel, N ≤ fuel →
    run true query (access.child tab conds fuel) fuel = run false query (access.child tab conds fuel) fuel

section Groups

variable (tab : Table) (conds : List Condition) (query : CountQuery) (gcols : List ColMeta)

def groupSize (row : Rid × Bytes) : Int32 :=
  Int32.ofNat ((tab.matching conds).filter fun other => groupKey gcols other.2 = groupKey gcols row.2).length

def Kept (row : Rid × Bytes) : Prop :=
  query.having.all (HavingCond.passes (groupSize tab conds gcols row)) = true

def OneGroup : Prop :=
  ∃ row ∈ tab.matching conds, Kept tab conds query gcols row ∧
    groupSize tab conds gcols row = Int32.ofNat tab.rows.length ∧
    ∀ other ∈ tab.matching conds, Kept tab conds query gcols other →
    groupKey gcols other.2 = groupKey gcols row.2

/-- The shortcut is not taken, or it returns what counting would: the index has a root page, all rows
match, and with `GROUP BY` they are one group that is kept. The numbers are compared as the `int`s that
they are kept in. -/
def CountSound (access : Access) : Prop :=
  access.fedConds tab conds ≠ .ok [] ∨ Int32.ofNat tab.rows.length = -1 ∨
    ∀ gcols, Accepts query tab.cols gcols → access.Rooted ∧
      if gcols.length = 0 then Int32.ofNat (tab.matching conds).length = Int32.ofNat tab.rows.length
      else OneGroup tab conds query gcols

end Groups

theorem intBytes_inj {a b : Int32} : intBytes a = intBytes b ↔ a = b := by
  constructor
  · intro h
    rw [← Int32.toInt_inj, ← readInt_intBytes, ← readInt_intBytes, h]
  · exact congrArg intBytes

section Counted

variable {tab : Table} {conds : List Condition} {query : CountQuery} {gcols : List ColMeta}
  {rows : List (Rid × Bytes)}

theorem counted_groups_iff (hperm : rows.Perm (tab.matching conds)) (hne : gcols.length ≠ 0) :
    counted query gcols (rows.map Prod.snd) = [intBytes (Int32.ofNat tab.rows.length)] ↔
    OneGroup tab conds query gcols := by
  have hsize : ∀ row : Rid × Bytes,
    Int32.ofNat ((rows.map Prod.snd).filter fun r => groupKey gcols r = groupKey gcols row.2).length =
      groupSize tab conds gcols row := by
    intro row
    rw [groupSize, List.filter_map, List.length_map]
    exact congrArg Int32.ofNat (hperm.filter _).length_eq
  have hkeys : ∀ k, k ∈ keysOf (groupKey gcols) (rows.map Prod.snd) ↔
      ∃ row ∈ tab.matching conds, groupKey gcols row.2 = k := by
    intro k
    rw [mem_keysOf]
    simp only [List.mem_map, exists_exists_and_eq_and, hperm.mem_iff]
  rw [counted, if_neg hne, groupsOf_eq, List.map_map, List.filter_map, List.map_map,
    List.map_eq_singleton_iff, OneGroup]
  constructor
  · rintro ⟨k, hfilter, hcount⟩
    obtain ⟨hk, hkept, hone⟩ := (filter_eq_singleton nodup_keysOf).1 hfilter
    obtain ⟨row, hrow, rfl⟩ := (hkeys k).1 hk
    simp only [Function.comp_apply, keeps, intBytes_inj, hsize] at hkept hcount hone
    refine ⟨row, hrow, hkept, hcount, fun other hother hk => ?_⟩
    refine hone _ ((hkeys _).2 ⟨other, hother, rfl⟩) ?_
    rw [hsize]
    exact hk
  · rintro ⟨row, hrow, hkept, hcount, hone⟩
    refine ⟨groupKey gcols row.2,
      (filter_eq_singleton nodup_keysOf).2 ⟨(hkeys _).2 ⟨row, hrow, rfl⟩, ?_, ?_⟩, ?_⟩
    · simp only [Function.comp_apply, keeps, hsize]
      exact hkept
    · intro k hk hp
      obtain ⟨other, hother, rfl⟩ := (hkeys k).1 hk
      simp only [Function.comp_apply, keeps, hsize] at hp
      exact hone other hother hp
    · simp only [Function.comp_apply, hsize, hcount]

theorem counted_iff (hperm : rows.Perm (tab.matching conds)) :
    counted query gcols (rows.map Prod.snd) = [intBytes (Int32.ofNat tab.rows.length)] ↔
      if gcols.length = 0 then Int32.ofNat (tab.matching conds).length = Int32.ofNat tab.rows.length
      else OneGroup tab conds query gcols := by
  split
  · rename_i hnil
    rw [counted, if_pos hnil, List.cons.injEq, intBytes_inj, List.length_map, hperm.length_eq]
    simp
  · rename_i hne
    exact counted_groups_iff hperm hne

end Counted

section Small

variable {tab : Table} {conds : List Condition} {query : CountQuery} {gcols : List ColMeta} {access : Access}

theorem ofNat_inj_small {m n : Nat} (hn : n < 2147483648) (hm : m ≤ n) :
    Int32.ofNat m = Int32.ofNat n ↔ m = n := by
  rw [← Int32.toInt_inj, Int32.toInt_ofNat_of_lt (by simp; omega), Int32.toInt_ofNat_of_lt (by simp; omega)]
  omega

theorem matching_length_iff : (tab.matching conds).length = tab.rows.length ↔
    ∀ row ∈ tab.rows, ∀ cond ∈ conds, cond.passes tab row.2 = true := by
  rw [Table.matching, List.length_filter_eq_length_iff]
  simp only [List.all_eq_true]

theorem groupSize_eq_iff (hsmall : tab.rows.length < 2147483648) {row : Rid × Bytes} :
    groupSize tab conds gcols row = Int32.ofNat tab.rows.length ↔
      (∀ other ∈ tab.rows, ∀ cond ∈ conds, cond.passes tab other.2 = true) ∧
        ∀ other ∈ tab.rows, groupKey gcols other.2 = groupKey gcols row.2 := by
  have hle : (tab.matching conds).length ≤ tab.rows.length := List.length_filter_le _ _
  rw [groupSize, ofNat_inj_small hsmall ((List.length_filter_le _ _).trans hle), Table.matching,
    List.filter_filter, List.length_filter_eq_length_iff, ← forall₂_and]
  simp [and_comm]

/-- In a table whose rows can be counted: the index has a root page, all rows match, and with `GROUP BY`
they are one group whose size meets the conditions behind `HAVING`. -/
theorem countSound_iff (hsmall : tab.rows.length < 2147483648) : CountSound tab conds query access ↔
    access.fedConds tab conds ≠ .ok [] ∨ ∀ gcols, Accepts query tab.cols gcols → access.Rooted ∧
      (∀ row ∈ tab.rows, ∀ cond ∈ conds, cond.passes tab row.2 = true) ∧
      (gcols.length ≠ 0 → tab.rows ≠ [] ∧
        query.having.all (HavingCond.passes (Int32.ofNat tab.rows.length)) = true ∧
        ∀ row ∈ tab.rows, ∀ other ∈ tab.rows, groupKey gcols other.2 = groupKey gcols row.2) := by
  have hle : (tab.matching conds).length ≤ tab.rows.length := List.length_filter_le _ _
  have hminus : Int32.ofNat tab.rows.length ≠ -1 := by
    rw [Ne, ← Int32.toInt_inj, Int32.toInt_ofNat_of_lt (by simpa using hsmall)]
    simp
  rw [CountSound, or_iff_right hminus]
  refine or_congr Iff.rfl (forall₂_congr fun gcols _ => and_congr_right fun _ => ?_)
  split
  · rename_i hnil
    rw [ofNat_inj_small hsmall hle, matching_length_iff]
    exact ⟨fun h => ⟨h, fun hne => absurd hnil hne⟩, And.left⟩
  · rename_i hne
    constructor
    · rintro ⟨row, hrow, hkept, hsize, -⟩
      obtain ⟨hall, hsame⟩ := (groupSize_eq_iff hsmall).1 hsize
      refine ⟨hall, fun _ => ⟨List.ne_nil_of_mem (List.mem_filter.1 hrow).1,
        ?_, fun row' hrow' other hother => ?_⟩⟩
      · rw [← hsize]
        exact hkept
      · rw [hsame other hother, hsame row' hrow']
    · rintro ⟨hall, hgroups⟩
      obtain ⟨hnil, hhaving, hsame⟩ := hgroups hne
      obtain ⟨row, hrow⟩ := List.exists_mem_of_ne_nil _ hnil
      have hsize : groupSize tab conds gcols row = Int32.ofNat tab.rows.length :=
        (groupSize_eq_iff hsmall).2 ⟨hall, hsame row hrow⟩
      refine ⟨row, List.mem_filter.2 ⟨hrow, List.all_eq_true.2 (hall row hrow)⟩, ?_,
        hsize, fun other hother _ => ?_⟩
      · rw [Kept, hsize]
        exact hhaving
      · exact hsame row hrow other (List.mem_filter.1 hother).1

end Small

section OneRow

def plainCount : CountQuery := ⟨[], []⟩

def equals (v : Int32) : List Condition := [⟨⟨"t", "a"⟩, .eq, .val (.int v)⟩]

theorem checked_equals (v : Int32) : ∀ cond ∈ equals v, Checked tableA cond := by
  intro cond hcond
  obtain rfl : cond = ⟨⟨"t", "a"⟩, .eq, .val (.int v)⟩ := by simpa [equals] using hcond
  exact .inl ⟨rfl, _, _, rfl, rfl, .inl rfl⟩

end OneRow

end Rmdb
