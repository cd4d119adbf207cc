import Rmdb.Execution.IndexRows

namespace Rmdb

variable {n : Nat} {K : Fin n → Type}

def TableState.rows (s : TableState n K) : Rows := fun r => if s.bitmap r then some (s.slots r) else none

/-- The file holds the rows `L`, and so does every index. -/
structure Agrees [∀ i, LinearOrder (K i)] (tab : TabMeta n K) (L : Rows) (s : TableState n K) : Prop where
  rows : s.rows = L
  index : ∀ i, IndexOf (s.ihs i) (tab.key i) L

def Uniq (tab : TabMeta n K) (L : Rows) : Prop :=
  ∀ i r r' row row', L r = some row → L r' = some row' → tab.key i row = tab.key i row' → r = r'

theorem Agrees.uniq [∀ i, LinearOrder (K i)] {tab : TabMeta n K} {L : Rows} {s : TableState n K}
    (h : Agrees tab L s) :
    Uniq tab L := by
  intro i r r' row row' hr hr' hk
  obtain ⟨-, m, -, hm⟩ := h.index i
  exact hm.unique hr hr' hk

/-- An update that has stopped half way: the record is the new one, and each index has the
old or the new key of it. -/
structure Half [∀ i, LinearOrder (K i)] (tab : TabMeta n K) (L : Rows) (r : Rid) (old new : Row)
    (s : TableState n K) :
    Prop where
  rows : s.rows = Function.update L r (some new)
  before : L r = some old
  uniq : Uniq tab L
  index : ∀ i, IndexOf (s.ihs i) (tab.key i) L ∨
    IndexOf (s.ihs i) (tab.key i) (Function.update L r (some new))

section Rows

variable {s : TableState n K} {L : Rows} {r : Rid} {record : Row}

theorem bitmap_iff (h : s.rows = L) : s.bitmap r = true ↔ L r ≠ none := by
  rw [← h, TableState.rows]
  cases s.bitmap r <;> simp

theorem slot_eq (h : s.rows = L) (hr : L r = some record) : s.slots r = record := by
  have := congrFun h r
  rw [hr, TableState.rows] at this
  split at this
  · exact Option.some.inj this
  · cases this

theorem rows_insert (h : s.rows = L) {ihs : ∀ i, IxIndexHandle (K i)} {ws : List WriteRecord} :
    TableState.rows ⟨Function.update s.bitmap r true, Function.update s.slots r record, ihs, ws⟩ =
      Function.update L r (some record) := by
  rw [← h]
  funext q
  by_cases hq : q = r
  · subst hq
    simp [TableState.rows]
  · simp [TableState.rows, hq]

theorem rows_delete (h : s.rows = L) {ihs : ∀ i, IxIndexHandle (K i)} {ws : List WriteRecord} :
    TableState.rows ⟨Function.update s.bitmap r false, s.slots, ihs, ws⟩ = Function.update L r none := by
  rw [← h]
  funext q
  by_cases hq : q = r
  · subst hq
    simp [TableState.rows]
  · simp [TableState.rows, hq]

theorem rows_update (h : s.rows = L) (hr : L r ≠ none) {ihs : ∀ i, IxIndexHandle (K i)}
    {ws : List WriteRecord} :
    TableState.rows ⟨s.bitmap, Function.update s.slots r record, ihs,
      ws⟩ = Function.update L r (some record) := by
  have hbit := (bitmap_iff h).2 hr
  rw [← h]
  funext q
  by_cases hq : q = r
  · subst hq
    simp [TableState.rows, hbit]
  · simp [TableState.rows, hq]

end Rows

namespace Exec

variable {α β : Type} {s s' : TableState n K}

theorem bind_ok {x : Exec K α} {f : α → Exec K β} {a : α} (h : x.run s = .ok a s') :
    (x >>= f).run s = (f a).run s' := by
  change EStateM.bind x f s = _
  rw [EStateM.bind, show x s = .ok a s' from h]
  rfl

theorem bind_error {x : Exec K α} {f : α → Exec K β} {e : ExecError} (h : x.run s = .error e s') :
    (x >>= f).run s = .error e s' := by
  change EStateM.bind x f s = _
  rw [EStateM.bind, show x s = .error e s' from h]

variable [∀ i, IxKey (K i)]

theorem insertEntry_ok {i : Fin n} {key : K i} {rid : Rid} {p : Int} {b : Bool} {ih : IxIndexHandle (K i)}
    (h : (s.ihs i).insertEntry key rid = .ok (p, b, ih)) :
    (insertEntry i key rid).run s = .ok b { s with ihs := Function.update s.ihs i ih } := by
  have hget : (get : Exec K (TableState n K)).run s = .ok s s := rfl
  rw [insertEntry, bind_ok hget]
  simp only [h]
  rfl

theorem deleteEntry_ok {i : Fin n} {key : K i} {rid : Option Rid} {b : Bool} {ih : IxIndexHandle (K i)}
    (h : (s.ihs i).deleteEntry key rid = .ok (b, ih)) :
    (deleteEntry i key rid).run s = .ok () { s with ihs := Function.update s.ihs i ih } := by
  have hget : (get : Exec K (TableState n K)).run s = .ok s s := rfl
  rw [deleteEntry, bind_ok hget]
  simp only [h]
  rfl

variable [∀ i, LinearOrder (K i)] [∀ i, LawfulIxKey (K i)] {tab : TabMeta n K} {L : Rows} {r : Rid}
  {record old new : Row}

omit [∀ i, LinearOrder (K i)] [∀ i, LawfulIxKey (K i)] in
theorem deleteKeys_loop {Q : ∀ i, IxIndexHandle (K i) → Prop} (is : List (Fin n)) (hnd : is.Nodup)
    (hstep : ∀ i ∈ is, ∃ ih, (s.ihs i).deleteEntry (tab.key i record) none = .ok (true, ih) ∧ Q i ih) :
    ∃ ihs, (deleteKeys tab record is).run s = .ok () { s with ihs := ihs } ∧ (∀ i ∈ is, Q i (ihs i)) ∧
      ∀ i, i ∉ is → ihs i = s.ihs i := by
  induction is generalizing s with
  | nil => exact ⟨s.ihs, rfl, nofun, fun _ _ => rfl⟩
  | cons i is iht =>
      obtain ⟨hnot, hnd⟩ := List.nodup_cons.1 hnd
      obtain ⟨ih, hrun, hQ⟩ := hstep i List.mem_cons_self
      obtain ⟨ihs, hrest, hin, hout⟩ := iht (s := { s with ihs := Function.update s.ihs i ih }) hnd (by
        intro j hj
        have hji : j ≠ i := by
          rintro rfl
          exact hnot hj
        simp only [Function.update_of_ne hji]
        exact hstep j (List.mem_cons_of_mem _ hj))
      refine ⟨ihs, ?_, ?_, ?_⟩
      · rw [deleteKeys, bind_ok (deleteEntry_ok hrun)]
        exact hrest
      · intro j hj
        rcases List.mem_cons.1 hj with rfl | hj
        · rw [hout j hnot]
          simp only [Function.update_self]
          exact hQ
        · exact hin j hj
      · intro j hj
        have hji : j ≠ i := by
          rintro rfl
          exact hj List.mem_cons_self
        rw [hout j fun hc => hj (List.mem_cons_of_mem _ hc)]
        exact Function.update_of_ne hji _ _

theorem deleteKeys_spec (is : List (Fin n)) (hnd : is.Nodup) (h : ∀ i ∈ is, IndexOf (s.ihs i) (tab.key i) L)
    (hr : L r = some record) (hother : is ≠ [] → ∃ q, q ≠ r ∧ L q ≠ none) :
    ∃ ihs, (deleteKeys tab record is).run s = .ok () { s with ihs := ihs } ∧
      (∀ i ∈ is, IndexOf (ihs i) (tab.key i) (Function.update L r none)) ∧ ∀ i, i ∉ is → ihs i = s.ihs i := by
  refine deleteKeys_loop (Q := fun i ih => IndexOf ih (tab.key i) (Function.update L r none)) is
    hnd fun i hi => ?_
  exact (h i hi).delete hr (hother (List.ne_nil_of_mem hi)) (.inl rfl)

theorem deleteKeys_last (is : List (Fin n)) (hnd : is.Nodup) (h : ∀ i ∈ is, IndexOf (s.ihs i) (tab.key i) L)
    (hr : L r = some record) (honly : ∀ q, q ≠ r → L q = none) :
    ∃ ihs, (deleteKeys tab record is).run s = .ok () { s with ihs := ihs } ∧ ∀ i ∈ is, Emptied (ihs i) := by
  obtain ⟨ihs, hrun, hem, -⟩ := deleteKeys_loop (Q := fun _ ih => Emptied ih) is hnd
    fun i hi => (h i hi).delete_last hr honly (.inl rfl)
  exact ⟨ihs, hrun, hem⟩

/-- The index loop of an insert: either the row is in all indexes, or it is in none and the
slot has been cleared. -/
theorem insertKeys_spec (is done : List (Fin n)) (hnd : (done ++ is).Nodup) (hr : L r = none)
    (hdone : ∀ i ∈ done, IndexOf (s.ihs i) (tab.key i) (Function.update L r (some record)))
    (htodo : ∀ i ∈ is, IndexOf (s.ihs i) (tab.key i) L) :
    (∃ ihs, (insertKeys tab r record done is).run s = .ok () { s with ihs := ihs } ∧
      ∀ i ∈ done ++ is, IndexOf (ihs i) (tab.key i) (Function.update L r (some record))) ∨
    (∃ ihs, (insertKeys tab r record done is).run s =
        .error .indexDuplicateKey { s with bitmap := Function.update s.bitmap r false, ihs := ihs } ∧
      (∀ i ∈ done ++ is, IndexOf (ihs i) (tab.key i) L) ∧
      ∃ i q row, L q = some row ∧ tab.key i row = tab.key i record) := by
  induction is generalizing s done with
  | nil =>
      refine .inl ⟨s.ihs, rfl, ?_⟩
      rw [List.append_nil]
      exact hdone
  | cons i is iht =>
      have hsplit : done ++ i :: is = done ++ [i] ++ is := by simp
      have hnd' := hnd
      rw [hsplit] at hnd'
      obtain ⟨hndd, hndi, hdis⟩ := List.nodup_append'.1 hnd
      have hi : i ∉ done := fun hc => hdis hc List.mem_cons_self
      by_cases hdup : ∃ q row, L q = some row ∧ tab.key i row = tab.key i record
      · -- the key is taken: what has been done is taken back
        obtain ⟨q, row, hq, hkey⟩ := hdup
        obtain ⟨p, ih, hrun, hih⟩ := (htodo i List.mem_cons_self).insert_dup hq hkey r
        have hqr : q ≠ r := by
          rintro rfl
          rw [hr] at hq
          cases hq
        have hdone' : ∀ j ∈ done, IndexOf (Function.update s.ihs i ih j) (tab.key j)
            (Function.update L r (some record)) := by
          intro j hj
          rw [Function.update_of_ne (show j ≠ i from fun hc => hi (hc ▸ hj))]
          exact hdone j hj
        obtain ⟨ihs, hdel, hin, hout⟩ := deleteKeys_spec
          (s := { s with bitmap := Function.update s.bitmap r false, ihs := Function.update s.ihs i ih })
            done hndd hdone'
          (Function.update_self ..) fun _ => ⟨q, hqr, by rw [Function.update_of_ne hqr, hq]; simp⟩
        rw [Function.update_idem, ← hr, Function.update_eq_self] at hin
        refine .inr ⟨ihs, ?_, ?_, i, q, row, hq, hkey⟩
        · rw [insertKeys, bind_ok (insertEntry_ok hrun)]
          simp only [Bool.false_eq_true, if_false]
          have hclear : (deleteRecord r : Exec K Unit).run { s with ihs := Function.update s.ihs i ih } =
              .ok () { s with
                bitmap := Function.update s.bitmap r false, ihs := Function.update s.ihs i ih } := rfl
          rw [bind_ok hclear, bind_ok hdel]
          rfl
        · intro j hj
          by_cases hjd : j ∈ done
          · exact hin j hjd
          · rw [hout j hjd]
            by_cases hji : j = i
            · subst hji
              simp only [Function.update_self]
              exact hih
            · simp only [Function.update_of_ne hji]
              refine htodo j ?_
              rcases List.mem_append.1 hj with hj | hj
              · exact absurd hj hjd
              · exact hj
      · push Not at hdup
        obtain ⟨p, ih, hrun, hih⟩ := (htodo i List.mem_cons_self).insert hr hdup
        have hni : i ∉ is := (List.nodup_cons.1 hndi).1
        have hstep : (insertKeys tab r record done (i :: is)).run s =
            (insertKeys tab r record (done ++ [i]) is).run { s with ihs := Function.update s.ihs i ih } := by
          rw [insertKeys, bind_ok (insertEntry_ok hrun)]
          rfl
        rw [hstep, hsplit]
        refine iht (done ++ [i]) hnd' ?_ ?_
        · intro j hj
          by_cases hji : j = i
          · subst hji
            simp only [Function.update_self]
            exact hih
          · simp only [Function.update_of_ne hji]
            refine hdone j ?_
            rcases List.mem_append.1 hj with hj | hj
            · exact hj
            · exact absurd (List.mem_singleton.1 hj) hji
        · intro j hj
          simp only [Function.update_of_ne (show j ≠ i from fun hc => hni (hc ▸ hj))]
          exact htodo j (List.mem_cons_of_mem _ hj)

/-- The index loop of an update. It goes through if no index is listed twice and none holds the new key
for a row. When it throws, every index is as before the update or as after it, and the one that refused
the new key either has had its turn before or holds the key for a row. -/
theorem updateKeys_spec (new : Row) (is done : List (Fin n)) (hr : L r = some old)
    (h : ∀ i, IndexOf (s.ihs i) (tab.key i) (if i ∈ done then Function.update L r (some new) else L)) :
    (∃ ihs, (updateKeys tab r old new is).run s = .ok () { s with ihs := ihs } ∧
      (∀ i, IndexOf (ihs i) (tab.key i) (if i ∈ done ∨ i ∈ is then Function.update L r (some new) else L)) ∧
      is.Nodup ∧ ∀ i ∈ is, i ∉ done ∧ ∀ q row, L q = some row → tab.key i row ≠ tab.key i new) ∨
    (∃ ihs, (updateKeys tab r old new is).run s = .error .transactionAbort { s with ihs := ihs } ∧
      (∀ i, IndexOf (ihs i) (tab.key i) L ∨ IndexOf (ihs i) (tab.key i) (Function.update L r (some new))) ∧
      ∃ i ∈ is, ((i ∈ done ∨ ¬ is.Nodup) ∧ IndexOf (ihs i) (tab.key i) (Function.update L r (some new))) ∨
        (IndexOf (ihs i) (tab.key i) L ∧ ∃ q row, L q = some row ∧ tab.key i row = tab.key i new)) := by
  induction is generalizing s done with
  | nil => exact .inl ⟨s.ihs, rfl, by simpa using h, List.nodup_nil, nofun⟩
  | cons i is iht =>
      have hor : ∀ j, IndexOf (s.ihs j) (tab.key j) L ∨
          IndexOf (s.ihs j) (tab.key j) (Function.update L r (some new)) := by
        intro j
        have := h j
        split at this
        · exact .inr this
        · exact .inl this
      have hfail : ∀ {p : Int} {ih : IxIndexHandle (K i)}, (s.ihs i).insertEntry (tab.key i new) r =
        .ok (p, false, ih) →
          (updateKeys tab r old new (i :: is)).run s =
            .error .transactionAbort { s with ihs := Function.update s.ihs i ih } := by
        intro p ih hrun
        rw [updateKeys, bind_ok (insertEntry_ok hrun)]
        rfl
      have hi := h i
      by_cases hd : i ∈ done
      · rw [if_pos hd] at hi
        obtain ⟨p, ih, hrun, hih⟩ := hi.insert_dup (Function.update_self ..) rfl r
        refine .inr ⟨_, hfail hrun, ?_, i, List.mem_cons_self, .inl ⟨.inl hd, ?_⟩⟩
        · intro j
          by_cases hji : j = i
          · subst hji
            rw [Function.update_self]
            exact .inr hih
          · rw [Function.update_of_ne hji]
            exact hor j
        · rw [Function.update_self]
          exact hih
      · rw [if_neg hd] at hi
        by_cases hdup : ∃ q row, L q = some row ∧ tab.key i row = tab.key i new
        · obtain ⟨q, row, hq, hkey⟩ := hdup
          obtain ⟨p, ih, hrun, hih⟩ := hi.insert_dup hq hkey r
          refine .inr ⟨_, hfail hrun, ?_, i, List.mem_cons_self, .inr ⟨?_, q, row, hq, hkey⟩⟩
          · intro j
            by_cases hji : j = i
            · subst hji
              rw [Function.update_self]
              exact .inl hih
            · rw [Function.update_of_ne hji]
              exact hor j
          · rw [Function.update_self]
            exact hih
        · push Not at hdup
          obtain ⟨p, ih1, ih2, hins, hdel, hih⟩ := hi.move hr hdup
          have hstep : (updateKeys tab r old new (i :: is)).run s =
              (updateKeys tab r old new is).run { s with ihs := Function.update s.ihs i ih2 } := by
            have hdel' : (({ s with ihs := Function.update s.ihs i ih1 } : TableState n K).ihs i).deleteEntry
                (tab.key i old) none = .ok (true, ih2) := by
              simp only [Function.update_self]
              exact hdel
            rw [updateKeys, bind_ok (insertEntry_ok hins)]
            simp only [if_true]
            rw [bind_ok (deleteEntry_ok hdel')]
            simp only [Function.update_idem]
          have h' : ∀ j, IndexOf (Function.update s.ihs i ih2 j) (tab.key j)
              (if j ∈ i :: done then Function.update L r (some new) else L) := by
            intro j
            by_cases hji : j = i
            · subst hji
              rw [Function.update_self, if_pos List.mem_cons_self]
              exact hih
            · rw [Function.update_of_ne hji]
              simpa [hji] using h j
          rw [hstep]
          rcases iht (i :: done) (s := { s with ihs := Function.update s.ihs i ih2 }) h' with
            ⟨ihs, hrun, hall, hnd, hfree⟩ | ⟨ihs, hrun, hall, f, hf, hwhy⟩
          · refine .inl ⟨ihs, hrun, fun j => ?_, ?_, fun j hj => ?_⟩
            · have := hall j
              simpa [or_comm, or_left_comm, or_assoc] using this
            · exact List.nodup_cons.2 ⟨fun hi => (hfree i hi).1 List.mem_cons_self, hnd⟩
            · rcases List.mem_cons.1 hj with rfl | hj
              · exact ⟨hd, hdup⟩
              · exact ⟨fun hjd => (hfree j hj).1 (List.mem_cons_of_mem _ hjd), (hfree j hj).2⟩
          · refine .inr ⟨ihs, hrun, hall, f, List.mem_cons_of_mem _ hf, hwhy.imp_left ?_⟩
            rintro ⟨hfd, hidx⟩
            refine ⟨?_, hidx⟩
            rcases hfd with hfd | hnd
            · rcases List.mem_cons.1 hfd with rfl | hfd
              · exact .inr fun hc => (List.nodup_cons.1 hc).1 hf
              · exact .inl hfd
            · exact .inr fun hc => hnd (List.nodup_cons.1 hc).2

omit [∀ i, IxKey (K i)] [∀ i, LinearOrder (K i)] [∀ i, LawfulIxKey (K i)] in
theorem key_setRecord {i : Fin n} {clauses : List SetClause} (hi : i ∉ tab.updateIndexes clauses) :
    tab.key i (setRecord clauses record) = tab.key i record := by
  have hcol : ∀ c ∈ tab.cols i, ∀ s ∈ clauses, s.col ≠ c := by
    intro c hc s hs heq
    refine hi (List.mem_flatMap.2 ⟨i, List.mem_finRange i,
      List.mem_map.2 ⟨c, List.mem_filter.2 ⟨hc, ?_⟩, rfl⟩⟩)
    exact List.any_eq_true.2 ⟨s, hs, decide_eq_true heq⟩
  have hset : ∀ (clauses : List SetClause) (row : Row) (c : String), (∀ s ∈ clauses, s.col ≠ c) →
      setRecord clauses row c = row c := by
    intro clauses
    induction clauses with
    | nil => intros; rfl
    | cons s clauses iht =>
        intro row c hne
        rw [setRecord, List.foldl_cons]
        refine (iht _ c fun x hx => hne x (List.mem_cons_of_mem _ hx)).trans ?_
        exact Function.update_of_ne (hne s List.mem_cons_self).symm _ _
  rw [TabMeta.key, TabMeta.key]
  congr 1
  exact List.map_congr_left fun c hc => hset clauses record c (hcol c hc)

section Statements

/-- What the writes of a statement keep, row by row. The last two have a side condition. -/
structure KeptBy (tab : TabMeta n K) (P : Rows → List WriteRecord → Prop) (C : Rows → Rid → Prop) : Prop where
  insert : ∀ {L W r record}, P L W → L r = none → P (Function.update L r (some record)) (.insertTuple r :: W)
  failed : ∀ {L W r}, P L W → L r = none → (∃ q, L q ≠ none) → P L (.insertTuple r :: W)
  delete : ∀ {L W r record}, P L W → L r = some record → (n ≠ 0 → ∃ q, q ≠ r ∧ L q ≠ none) → Uniq tab L →
    P (Function.update L r none) (.deleteTuple r record :: W)
  update : ∀ {L W r old new}, P L W → L r = some old → C L r → Uniq tab L →
    P (Function.update L r (some new)) (.updateTuple r old :: W)

variable {P : Rows → List WriteRecord → Prop} {C : Rows → Rid → Prop}

theorem insertRow_spec (record : Row) (h : Agrees tab L s) (hr : L r = none) :
    ∃ s', s'.writeSet = .insertTuple r :: s.writeSet ∧
      (Agrees tab (Function.update L r (some record)) s' ∧
          (∀ values, (insertNext tab ((some record, r) :: values)).run s = (insertNext tab values).run s') ∨
        Agrees tab L s' ∧
          (∀ values, (insertNext tab ((some record, r) :: values)).run s = .error .indexDuplicateKey s') ∧
          ∃ i q row, L q = some row ∧ tab.key i row = tab.key i record) := by
  have hins : (insertRecord r record : Exec K Unit).run s = .ok () { s with
      bitmap := Function.update s.bitmap r true, slots := Function.update s.slots r record } := rfl
  have happ : (appendWriteRecord (.insertTuple r) : Exec K Unit).run { s with
      bitmap := Function.update s.bitmap r true, slots := Function.update s.slots r record } =
    .ok () ⟨Function.update s.bitmap r true, Function.update s.slots r record, s.ihs,
      .insertTuple r :: s.writeSet⟩ := rfl
  rcases insertKeys_spec (s := ⟨Function.update s.bitmap r true, Function.update s.slots r record, s.ihs,
      .insertTuple r :: s.writeSet⟩) (List.finRange n) [] (List.nodup_finRange n) hr nofun
      (fun i _ => h.index i) with ⟨ihs, hrun, hih⟩ | ⟨ihs, hrun, hih, hdup⟩
  · refine ⟨⟨Function.update s.bitmap r true, Function.update s.slots r record, ihs,
      .insertTuple r :: s.writeSet⟩, rfl,
      .inl ⟨⟨rows_insert h.rows, fun i => hih i (List.mem_finRange i)⟩, fun values => ?_⟩⟩
    rw [insertNext, bind_ok hins, bind_ok happ, bind_ok hrun]
  · have hrows : TableState.rows ⟨Function.update (Function.update s.bitmap r true) r false,
        Function.update s.slots r record, ihs, .insertTuple r :: s.writeSet⟩ = L := by
      refine (rows_delete (s := ⟨Function.update s.bitmap r true, Function.update s.slots r record, s.ihs,
        .insertTuple r :: s.writeSet⟩) (rows_insert h.rows)).trans ?_
      rw [Function.update_idem]
      exact Function.update_eq_self_iff.2 hr.symm
    refine ⟨⟨Function.update (Function.update s.bitmap r true) r false, Function.update s.slots r record, ihs,
      .insertTuple r :: s.writeSet⟩, rfl,
      .inr ⟨⟨hrows, fun i => hih i (List.mem_finRange i)⟩, fun values => ?_, hdup⟩⟩
    rw [insertNext, bind_ok hins, bind_ok happ, bind_error hrun]

theorem insertNext_spec (hP : KeptBy tab P C) (values : List (Option Row × Rid)) (h : Agrees tab L s)
    (hL : P L s.writeSet) (hnd : (values.map Prod.snd).Nodup) (hfree : ∀ v ∈ values, L v.2 = none) :
    ∃ L' s', Agrees tab L' s' ∧ P L' s'.writeSet ∧ ((insertNext tab values).run s = .ok () s' ∨
      (insertNext tab values).run s = .error .indexDuplicateKey s' ∨
      (insertNext tab values).run s = .error .incompatibleType s') := by
  induction values generalizing s L with
  | nil => exact ⟨L, s, h, hL, .inl rfl⟩
  | cons v values iht =>
      obtain ⟨record, rid⟩ := v
      cases record with
      | none => exact ⟨L, s, h, hL, .inr (.inr rfl)⟩
      | some record =>
          obtain ⟨hnot, hnd⟩ := List.nodup_cons.1 hnd
          have hr := hfree _ List.mem_cons_self
          obtain ⟨s', hws, ⟨hA, hrun⟩ | ⟨hA, hrun, i, q, row, hq, -⟩⟩ := insertRow_spec record h hr
          · rw [hrun]
            refine iht hA (by rw [hws]; exact hP.insert hL hr) hnd fun v hv => ?_
            have hne : v.2 ≠ rid := fun hc => hnot (List.mem_map.2 ⟨v, hv, hc⟩)
            rw [Function.update_of_ne hne]
            exact hfree v (List.mem_cons_of_mem _ hv)
          · refine ⟨L, s', hA, ?_, .inr (.inl (hrun values))⟩
            rw [hws]
            exact hP.failed hL hr ⟨q, by rw [hq]; simp⟩

omit [∀ i, IxKey (K i)] [∀ i, LinearOrder (K i)] [∀ i, LawfulIxKey (K i)] in
theorem getRecord_run (hrows : s.rows = L) (hr : L r = some record) :
    (getRecord r : Exec K Row).run s = .ok record s := by
  rw [← slot_eq hrows hr]
  rfl

omit [∀ i, LinearOrder (K i)] [∀ i, LawfulIxKey (K i)] in
theorem deleteNext_cons {ihs : ∀ i, IxIndexHandle (K i)} {rids : List Rid} (hrows : s.rows = L)
    (hr : L r = some record) (hkeys : (deleteKeys tab record (List.finRange n)).run
      ⟨Function.update s.bitmap r false, s.slots, s.ihs, .deleteTuple r record :: s.writeSet⟩ =
      .ok () ⟨Function.update s.bitmap r false, s.slots, ihs, .deleteTuple r record :: s.writeSet⟩) :
    (deleteNext tab (r :: rids)).run s = (deleteNext tab rids).run
      ⟨Function.update s.bitmap r false, s.slots, ihs, .deleteTuple r record :: s.writeSet⟩ := by
  have hdel : (deleteRecord r : Exec K Unit).run s =
    .ok () { s with bitmap := Function.update s.bitmap r false } := rfl
  have happ : (appendWriteRecord (.deleteTuple r record) : Exec K Unit).run
      { s with bitmap := Function.update s.bitmap r false } =
    .ok () ⟨Function.update s.bitmap r false, s.slots, s.ihs, .deleteTuple r record :: s.writeSet⟩ := rfl
  rw [deleteNext, bind_ok (getRecord_run hrows hr), bind_ok hdel, bind_ok happ, bind_ok hkeys]

theorem deleteNext_spec (hP : KeptBy tab P C) (rids : List Rid) (h : Agrees tab L s) (hL : P L s.writeSet)
    (hnd : rids.Nodup) (hlive : ∀ r ∈ rids, L r ≠ none) (hrest : n ≠ 0 → ∃ q, q ∉ rids ∧ L q ≠ none) :
    ∃ L' s', Agrees tab L' s' ∧ P L' s'.writeSet ∧ (deleteNext tab rids).run s = .ok () s' := by
  induction rids generalizing s L with
  | nil => exact ⟨L, s, h, hL, rfl⟩
  | cons rid rids iht =>
      obtain ⟨hnot, hnd⟩ := List.nodup_cons.1 hnd
      obtain ⟨record, hr⟩ := Option.ne_none_iff_exists'.1 (hlive rid List.mem_cons_self)
      have hother : n ≠ 0 → ∃ q, q ≠ rid ∧ L q ≠ none := by
        intro hn
        obtain ⟨q, hq, hqL⟩ := hrest hn
        exact ⟨q, fun hc => hq (hc ▸ List.mem_cons_self), hqL⟩
      obtain ⟨ihs, hrun, hih, -⟩ := deleteKeys_spec
        (s := ⟨Function.update s.bitmap rid false, s.slots, s.ihs, .deleteTuple rid record :: s.writeSet⟩)
        (List.finRange n) (List.nodup_finRange n) (fun i _ => h.index i) hr (by
          intro hne
          refine hother fun hn => hne ?_
          subst hn
          rfl)
      have hA : Agrees tab (Function.update L rid none)
          ⟨Function.update s.bitmap rid false, s.slots, ihs, .deleteTuple rid record :: s.writeSet⟩ :=
        ⟨rows_delete h.rows, fun i => hih i (List.mem_finRange i)⟩
      rw [deleteNext_cons h.rows hr hrun]
      refine iht hA (hP.delete hL hr hother h.uniq) hnd ?_ ?_
      · intro q hq
        rw [Function.update_of_ne (show q ≠ rid from fun hc => hnot (hc ▸ hq))]
        exact hlive q (List.mem_cons_of_mem _ hq)
      · intro hn
        obtain ⟨q, hq, hqL⟩ := hrest hn
        refine ⟨q, fun hc => hq (List.mem_cons_of_mem _ hc), ?_⟩
        rw [Function.update_of_ne (show q ≠ rid from fun hc => hq (hc ▸ List.mem_cons_self))]
        exact hqL

theorem updateRow_spec (clauses : List SetClause) (h : Agrees tab L s) (hr : L r = some old) :
    ∃ s', s'.writeSet = .updateTuple r old :: s.writeSet ∧
      (Agrees tab (Function.update L r (some (setRecord clauses old))) s' ∧
          (∀ rids, (updateNext tab clauses (r :: rids)).run s = (updateNext tab clauses rids).run s') ∧
          (tab.updateIndexes clauses).Nodup ∧
          (∀ i ∈ tab.updateIndexes clauses, ∀ q row, L q = some row →
            tab.key i row ≠ tab.key i (setRecord clauses old)) ∨
        Half tab L r old (setRecord clauses old) s' ∧
          (∀ rids, (updateNext tab clauses (r :: rids)).run s = .error .transactionAbort s') ∧
          ∃ i ∈ tab.updateIndexes clauses,
            (¬ (tab.updateIndexes clauses).Nodup ∧
              IndexOf (s'.ihs i) (tab.key i) (Function.update L r (some (setRecord clauses old)))) ∨
            (IndexOf (s'.ihs i) (tab.key i) L ∧
              ∃ q row, L q = some row ∧ tab.key i row = tab.key i (setRecord clauses old))) := by
  have hne : L r ≠ none := by rw [hr]; simp
  have hupd : (updateRecord r (setRecord clauses old) : Exec K Unit).run s =
    .ok () { s with slots := Function.update s.slots r (setRecord clauses old) } := rfl
  have happ : (appendWriteRecord (.updateTuple r old) : Exec K Unit).run
      { s with slots := Function.update s.slots r (setRecord clauses old) } =
    .ok () ⟨s.bitmap, Function.update s.slots r (setRecord clauses old), s.ihs,
      .updateTuple r old :: s.writeSet⟩ := rfl
  rcases updateKeys_spec (s := ⟨s.bitmap, Function.update s.slots r (setRecord clauses old), s.ihs,
      .updateTuple r old :: s.writeSet⟩) (setRecord clauses old) (tab.updateIndexes clauses) [] hr
        (by simpa using h.index) with
    ⟨ihs, hrun, hih, hnd, hfree⟩ | ⟨ihs, hrun, hih, i, hi, hwhy⟩
  · refine ⟨⟨s.bitmap, Function.update s.slots r (setRecord clauses old), ihs,
      .updateTuple r old :: s.writeSet⟩, rfl, .inl ⟨⟨rows_update h.rows hne, fun i => ?_⟩, fun rids => ?_,
      hnd, fun i hi => (hfree i hi).2⟩⟩
    · have hi := hih i
      simp only [List.not_mem_nil, false_or] at hi
      split at hi
      · exact hi
      · rename_i hout
        exact hi.congr hr (key_setRecord hout)
    · rw [updateNext, bind_ok (getRecord_run h.rows hr), bind_ok hupd, bind_ok happ, bind_ok hrun]
  · refine ⟨⟨s.bitmap, Function.update s.slots r (setRecord clauses old), ihs,
      .updateTuple r old :: s.writeSet⟩, rfl,
      .inr ⟨⟨rows_update h.rows hne, hr, h.uniq, hih⟩, fun rids => ?_, i, hi, ?_⟩⟩
    · rw [updateNext, bind_ok (getRecord_run h.rows hr), bind_ok hupd, bind_ok happ, bind_error hrun]
    · simpa using hwhy

theorem updateNext_spec {clauses : List SetClause} (hP : KeptBy tab P C)
    (hC : ∀ {L L' : Rows} {r : Rid}, (∀ q, L q = none ↔ L' q = none) → C L r → C L' r) (rids : List Rid)
    (h : Agrees tab L s) (hL : P L s.writeSet) (hlive : ∀ r ∈ rids, L r ≠ none) (hside : ∀ r ∈ rids, C L r) :
    (∃ L' s', Agrees tab L' s' ∧ P L' s'.writeSet ∧ (updateNext tab clauses rids).run s = .ok () s') ∨
    (∃ L' W r old s', (updateNext tab clauses rids).run s = .error .transactionAbort s' ∧
      s'.writeSet = .updateTuple r old :: W ∧ P L' W ∧ r ∈ rids ∧ (∀ q, L q = none ↔ L' q = none) ∧
      Half tab L' r old (setRecord clauses old) s') := by
  induction rids generalizing s L with
  | nil => exact .inl ⟨L, s, h, hL, rfl⟩
  | cons rid rids iht =>
      obtain ⟨old, hr⟩ := Option.ne_none_iff_exists'.1 (hlive rid List.mem_cons_self)
      obtain ⟨s', hws, ⟨hA, hrun, -⟩ | ⟨hhalf, hrun, -⟩⟩ := updateRow_spec clauses h hr
      · have hsame : ∀ q, L q = none ↔ Function.update L rid (some (setRecord clauses old)) q = none := by
          intro q
          by_cases hq : q = rid
          · subst hq
            simp [hr]
          · rw [Function.update_of_ne hq]
        have hP' : P (Function.update L rid (some (setRecord clauses old))) s'.writeSet := by
          rw [hws]
          exact hP.update hL hr (hside rid List.mem_cons_self) h.uniq
        rw [hrun]
        rcases iht hA hP' (fun q hq => mt (hsame q).2 (hlive q (List.mem_cons_of_mem _ hq)))
            (fun q hq => hC hsame (hside q (List.mem_cons_of_mem _ hq))) with
          hok | ⟨L', W, r, old', s'', hrun', hws', hPW, hin, hsame', hhalf⟩
        · exact .inl hok
        · exact .inr ⟨L', W, r, old', s'', hrun', hws', hPW, List.mem_cons_of_mem _ hin,
            fun q => (hsame q).trans (hsame' q), hhalf⟩
      · exact .inr ⟨L, s.writeSet, rid, old, s', hrun rids, hws, hL,
          List.mem_cons_self, fun _ => Iff.rfl, hhalf⟩

end Statements

end Exec

end Rmdb
