import Rmdb.Execution.IndexRows
import Rmdb.Execution.Condition
import Rmdb.Record.ScanCounts

namespace Rmdb

open RmFileHandle

inductive SmError
  | tableNotFound
  | columnNotFound
  | fileExists
  | invalidColLength
  | fileNotOpen
  | indexNotOpen
  | stringOverflow
  | incompatibleType
  | transactionAbort
  | keyOverrun
  | record (e : RmError)
  | index (e : IxError)
  | outOfFuel
deriving DecidableEq, Repr

/-- What the lock manager answers on the table, which it does without making the statement wait: the shared
lock that `get_record` asks for, and the exclusive lock of `delete_record`. -/
structure Granted where
  shared : Bool
  exclusive : Bool

namespace SmManager

section Build

variable {K : Type} [IxKey K] (lock : Granted) (key : Bytes → Except SmError K)

/-- One round of the loop of `create_index`. What has been done stays when it throws. -/
def insertScanned (rid : Rid) (fh : RmFileHandle) (ih : IxIndexHandle K) :
    Except SmError Unit × RmFileHandle × IxIndexHandle K :=
  if lock.shared = false then (.error .transactionAbort, fh, ih)
  else match fh.getRecord rid with
    | .error e => (.error (.record e), fh, ih)
    | .ok rec => match key rec with
      | .error e => (.error e, fh, ih)
      | .ok k => match ih.insertEntry k rid with
        | .error e => (.error (.index e), fh, ih)
        | .ok (_, true, ih) => (.ok (), fh, ih)
        | .ok (_, false, ih) =>
            if lock.exclusive = false then (.error .transactionAbort, fh, ih)
            else match fh.deleteRecord rid with
              | .error e => (.error (.record e), fh, ih)
              | .ok fh => (.ok (), fh, ih)

def insertRecords :
    Nat → Rid → RmFileHandle → IxIndexHandle K → Except SmError Unit × RmFileHandle × IxIndexHandle K
  | 0, _, fh, ih => (.error .outOfFuel, fh, ih)
  | fuel + 1, rid, fh, ih =>
      if RmScan.isEnd rid then (.ok (), fh, ih)
      else match insertScanned lock key rid fh ih with
        | (.error e, fh, ih) => (.error e, fh, ih)
        | (.ok (), fh, ih) => match RmScan.next fh rid with
          | .error e => (.error (.record e), fh, ih)
          | .ok rid => insertRecords fuel rid fh ih

end Build

end SmManager

structure TabEntry where
  cols : List ColMeta
  indexes : List (List ColMeta)

def TabEntry.getCol (tab : TabEntry) (colName : String) : Except SmError ColMeta :=
  match tab.cols.find? fun col => col.name = colName with
  | some col => .ok col
  | none => .error .columnNotFound

/-- `get_col_total_len`: where the last column ends, which is the length of a record. -/
def TabEntry.getColTotalLen (tab : TabEntry) : Nat := tab.cols.getLast?.elim 0 fun col => col.offset + col.len

/-- An open index. The type of its keys depends on its columns. -/
structure OpenIndex (Key : List ColMeta → Type) where
  cols : List ColMeta
  handle : IxIndexHandle (Key cols)

structure SmManager (Key : List ColMeta → Type) where
  tabs : String → Option TabEntry
  fhs : String → RmFileHandle
  ihs : String → Option (OpenIndex Key)
  isFile : String → Bool

def getIndexName (tabName : String) (indexCols : List String) : String :=
  indexCols.foldl (fun name col => name ++ "_" ++ col) tabName ++ ".idx"

def ColMeta.bytes (col : ColMeta) (rec : Bytes) : Bytes := (rec.drop col.offset).take col.len

def totalLen (cols : List ColMeta) : Nat := (cols.map ColMeta.len).sum

namespace SmManager

variable {Key : List ColMeta → Type} [∀ cols, IxKey (Key cols)] (copy : ∀ cols, List Bytes → Key cols)

/-- The key buffer, into which the columns are copied one after the other. -/
def recordKey (cols : List ColMeta) (rec : Bytes) : Key cols := copy cols (cols.map fun col => col.bytes rec)

/-- The buffer of `create_index` is as long as a record. A column that is named twice counts twice
in the key, and what is written behind the end of the buffer has no defined effect. -/
def copyKey (tab : TabEntry) (cols : List ColMeta) (rec : Bytes) : Except SmError (Key cols) :=
  if tab.getColTotalLen < totalLen cols then .error .keyOverrun else .ok (recordKey copy cols rec)

/-- `ix_manager_->create_index` and `open_index`, where no file has the name. A key that is too
long is found when the file is there already. -/
def openIndex (s : SmManager Key) (tabName : String) (tab : TabEntry) (cols : List ColMeta) :
    SmManager Key where
  tabs := Function.update s.tabs tabName (some { tab with indexes := tab.indexes ++ [cols] })
  fhs := s.fhs
  ihs := Function.update s.ihs (getIndexName tabName (cols.map ColMeta.name))
    (some ⟨cols, emptyIndex (Key cols) ((4096 - 24) / (totalLen cols + 8) - 1)⟩)
  isFile := Function.update s.isFile (getIndexName tabName (cols.map ColMeta.name)) true

def putBack (s : SmManager Key) (tabName : String) (cols : List ColMeta) (fh : RmFileHandle)
    (ih : IxIndexHandle (Key cols)) : SmManager Key :=
  { s with
    fhs := Function.update s.fhs tabName fh
    ihs := Function.update s.ihs (getIndexName tabName (cols.map ColMeta.name)) (some ⟨cols, ih⟩) }

def createIndexOn (lock : Granted) (fuel : Nat) (tabName : String) (tab : TabEntry) (cols : List ColMeta)
    (s : SmManager Key) : Except SmError Unit × SmManager Key :=
  if s.isFile (getIndexName tabName (cols.map ColMeta.name)) then (.error .fileExists, s)
  else if 512 < totalLen cols then
    (.error .invalidColLength,
      { s with isFile := Function.update s.isFile (getIndexName tabName (cols.map ColMeta.name)) true })
  else
    let s := s.openIndex tabName tab cols
    match RmScan.start (s.fhs tabName) with
    | .error e => (.error (.record e), s)
    | .ok rid =>
        let (res, fh, ih) := insertRecords lock (copyKey copy tab cols) fuel rid (s.fhs tabName)
          (emptyIndex (Key cols) ((4096 - 24) / (totalLen cols + 8) - 1))
        (res, s.putBack tabName cols fh ih)

def createIndex (lock : Granted) (fuel : Nat) (tabName : String) (colNames : List String)
    (s : SmManager Key) :
    Except SmError Unit × SmManager Key :=
  match s.tabs tabName with
  | none => (.error .tableNotFound, s)
  | some tab => match colNames.mapM tab.getCol with
    | .error e => (.error e, s)
    | .ok cols => createIndexOn copy lock fuel tabName tab cols s

end SmManager

section Loop

variable {K : Type} {key : Bytes → K} {L L' L'' : Rid → Option Bytes}

def DistinctKeys (key : Bytes → K) (L : Rid → Option Bytes) : Prop :=
  ∀ r r' row row', L r = some row → L r' = some row' → key row = key row' → r = r'

/-- Rows have gone, and each of them has left its key to another row. -/
structure KeepsKeys (key : Bytes → K) (L L' : Rid → Option Bytes) : Prop where
  kept : ∀ r row, L' r = some row → L r = some row
  gone : ∀ r row, L r = some row → L' r = none → ∃ q row', q ≠ r ∧ L' q = some row' ∧ key row' = key row

namespace KeepsKeys

theorem refl (key : Bytes → K) (L : Rid → Option Bytes) : KeepsKeys key L L := by
  refine ⟨fun r row h => h, fun r row h hnone => ?_⟩
  rw [h] at hnone
  cases hnone

theorem trans (h : KeepsKeys key L L') (h' : KeepsKeys key L' L'') : KeepsKeys key L L'' := by
  refine ⟨fun r row hr => h.kept r row (h'.kept r row hr), fun r row hr hnone => ?_⟩
  cases hmid : L' r with
  | some row' =>
      have heq := h.kept r row' hmid
      rw [hr] at heq
      cases heq
      exact h'.gone r row hmid hnone
  | none =>
      obtain ⟨q, row', hqr, hq, hkey⟩ := h.gone r row hr hmid
      cases hq' : L'' q with
      | some row'' =>
          have heq := h'.kept q row'' hq'
          rw [hq] at heq
          cases heq
          exact ⟨q, row', hqr, hq', hkey⟩
      | none =>
          obtain ⟨p, row'', -, hp, hkey'⟩ := h'.gone q row' hq hq'
          refine ⟨p, row'', ?_, hp, hkey'.trans hkey⟩
          rintro rfl
          have := h'.kept p row'' hp
          rw [hmid] at this
          cases this

theorem eq_of_distinct (h : KeepsKeys key L L') (hd : DistinctKeys key L) : L' = L := by
  funext r
  cases hr : L r with
  | none =>
      cases hr' : L' r with
      | none => rfl
      | some row =>
          have := h.kept r row hr'
          rw [hr] at this
          cases this
  | some row =>
      cases hr' : L' r with
      | some row' =>
          have := h.kept r row' hr'
          rw [hr] at this
          cases this
          rfl
      | none =>
          obtain ⟨q, row', hqr, hq, hkey⟩ := h.gone r row hr hr'
          exact absurd (hd q r row' row (h.kept q row' hq) hr hkey) hqr

end KeepsKeys

def passed (L : Rid → Option Bytes) (as : List Rid) :
    Rid → Option Bytes := fun r => if r ∈ as then none else L r

theorem passed_eq_some {as : List Rid} {r : Rid} {row : Bytes} :
    passed L as r = some row ↔ r ∉ as ∧ L r = some row := by
  by_cases h : r ∈ as <;> simp [passed, h]

variable {as : List Rid} {rid : Rid} {rec : Bytes}

theorem passed_cons (hnot : rid ∉ as) (hrid : L rid = some rec) :
    Function.update (passed L (rid :: as)) rid (some rec) = passed L as := by
  funext r
  by_cases hr : r = rid
  · subst hr
    simp [passed, hnot, hrid]
  · simp [passed, hr]

theorem passed_update (hnot : rid ∉ as) : passed (Function.update L rid none) as = passed L (rid :: as) := by
  funext r
  by_cases hr : r = rid
  · subst hr
    simp [passed, hnot]
  · simp [passed, hr]

variable [LinearOrder K] [IxKey K] [LawfulIxKey K] {lock : Granted} {fh : RmFileHandle} {ih : IxIndexHandle K}

/-- A round leaves the rest of the scan as it is, also when the row is deleted. -/
theorem insertScanned_spec (hshared : lock.shared = true)
    (hex : lock.exclusive = true ∨ DistinctKeys key fh.entry) (h : RmInv fh)
    (hrid : fh.entry rid = some rec) (hnot : rid ∉ as)
    (hih : IndexOf ih key (passed fh.entry (rid :: as))) :
    ∃ fh' ih', SmManager.insertScanned lock (fun rec => .ok (key rec)) rid fh ih = (.ok (), fh', ih') ∧
      RmInv fh' ∧ fh'.InFile rid ∧
      fh'.behind rid = fh.behind rid ∧ KeepsKeys key fh.entry fh'.entry ∧
      (∀ r ∈ as, fh'.entry r = fh.entry r) ∧
      IndexOf ih' key (passed fh'.entry as) := by
  have hin : fh.InFile rid := inFile_of_entry (by rw [hrid]; simp)
  by_cases hdup : ∃ q row, passed fh.entry (rid :: as) q = some row ∧ key row = key rec
  · obtain ⟨q, row, hq, hkey⟩ := hdup
    obtain ⟨p, ih', hins, hih'⟩ := hih.insert_dup hq hkey rid
    obtain ⟨hqas, hqrow⟩ := passed_eq_some.1 hq
    have hqr : q ≠ rid := fun hc => hqas (hc ▸ List.mem_cons_self)
    have hexcl : lock.exclusive = true :=
      hex.resolve_right fun hd => hqr (hd q rid row rec hqrow hrid hkey)
    obtain ⟨fh', hdel, hentry, hinv⟩ := deleteRecord_spec h hin
    have hother : ∀ r, r ≠ rid → fh'.entry r = fh.entry r := fun r hr => by
      rw [hentry, Function.update_of_ne hr]
    refine ⟨fh', ih', ?_, hinv, (deleteRecord_extends hin hdel).inFile hin, ?_, ⟨?_, ?_⟩, ?_, ?_⟩
    · simp [SmManager.insertScanned, hshared, getRecord_of_entry hrid, hins, hexcl, hdel]
    · have hnum := deleteRecord_numPages hin hdel
      refine behind_congr (deleteRecord_extends hin hdel).capacity hnum (fun p => ?_) hin hother
      rw [hinv.alloc, h.alloc, hnum]
    · intro r row' hr
      by_cases hrr : r = rid
      · rw [hrr, hentry, Function.update_self] at hr
        cases hr
      · rwa [hother r hrr] at hr
    · intro r row' hr hnone
      by_cases hrr : r = rid
      · subst hrr
        rw [hrid] at hr
        cases hr
        exact ⟨q, row, hqr, by rw [hother q hqr]; exact hqrow, hkey⟩
      · rw [hother r hrr, hr] at hnone
        cases hnone
    · exact fun r hr => hother r fun hc => hnot (hc ▸ hr)
    · rw [hentry, passed_update hnot]
      exact hih'
  · push Not at hdup
    have hfree : passed fh.entry (rid :: as) rid = none := by simp [passed]
    obtain ⟨p, ih', hins, hih'⟩ := hih.insert hfree hdup
    refine ⟨fh, ih', ?_, h, hin, rfl, KeepsKeys.refl .., fun _ _ => rfl, ?_⟩
    · simp [SmManager.insertScanned, hshared, getRecord_of_entry hrid, hins]
    · rwa [passed_cons hnot hrid] at hih'

/-- The loop ends with an index of the rows that it has left. -/
theorem insertRecords_spec {copyKey : Bytes → Except SmError K}
    (hcopy : as ≠ [] → copyKey = fun rec => .ok (key rec)) (hshared : as ≠ [] → lock.shared = true)
    (hex : lock.exclusive = true ∨ DistinctKeys key fh.entry) (h : RmInv fh)
    (hs : RmScan.Stands fh rid as) (hnd : as.Nodup) (hlive : ∀ r ∈ as, fh.entry r ≠ none)
    (hih : IndexOf ih key (passed fh.entry as)) {fuel : Nat} (hfuel : as.length < fuel) :
    ∃ fh' ih', SmManager.insertRecords lock copyKey fuel rid fh ih = (.ok (), fh', ih') ∧ RmInv fh' ∧
      KeepsKeys key fh.entry fh'.entry ∧ IndexOf ih' key fh'.entry := by
  induction as generalizing fh ih rid fuel with
  | nil =>
      obtain ⟨fuel, rfl⟩ := Nat.exists_eq_succ_of_ne_zero (Nat.ne_of_gt hfuel)
      obtain ⟨hslot, -⟩ | ⟨page, left, -, -, -, -, hc⟩ := hs
      · refine ⟨fh, ih, ?_, h, KeepsKeys.refl .., hih⟩
        rw [SmManager.insertRecords, if_pos (by simp [RmScan.isEnd, hslot])]
      · cases hc
  | cons a as iha =>
      obtain ⟨fuel, rfl⟩ := Nat.exists_eq_succ_of_ne_zero (Nat.ne_of_gt (Nat.zero_lt_of_lt hfuel))
      obtain rfl := hcopy (by simp)
      obtain ⟨hnot, hnd⟩ := List.nodup_cons.1 hnd
      obtain rfl : a = rid := by
        obtain ⟨-, hc⟩ | ⟨page, left, -, -, -, -, hc⟩ := hs
        · cases hc
        · exact (List.cons.inj hc).1
      obtain ⟨hin, has⟩ := hs.behind
      obtain ⟨rec, hrid⟩ := Option.ne_none_iff_exists'.1 (hlive a List.mem_cons_self)
      obtain ⟨fh₁, ih₁, hround, h₁, hin₁, hbehind, hkeeps₁, hsame, hih₁⟩ :=
        insertScanned_spec (hshared (by simp)) hex h hrid hnot hih
      obtain ⟨r, hnext, hs₁⟩ := RmScan.next_spec h₁ hin₁
      rw [hbehind, ← has] at hs₁
      have hex₁ : lock.exclusive = true ∨ DistinctKeys key fh₁.entry :=
        hex.imp_right fun hd => by rwa [hkeeps₁.eq_of_distinct hd]
      obtain ⟨fh', ih', hrun, h', hkeeps, hih'⟩ :=
        iha (fun _ => rfl) (fun _ => hshared (by simp)) hex₁ h₁ hs₁ hnd
        (fun r hr => by rw [hsame r hr]; exact hlive r (List.mem_cons_of_mem _ hr)) hih₁
          (by simpa using hfuel)
      refine ⟨fh', ih', ?_, h', hkeeps₁.trans hkeeps, hih'⟩
      have hnn := hin.nonneg
      rw [SmManager.insertRecords, if_neg (by simp [RmScan.isEnd]; omega), hround]
      simp only [hnext, hrun]

end Loop

namespace SmManager

variable {Key : List ColMeta → Type} [∀ cols, LinearOrder (Key cols)] [∀ cols, IxKey (Key cols)]
  (copy : ∀ cols, List Bytes → Key cols) {s : SmManager Key} {tabName : String} {colNames : List String}

def IndexAt (s : SmManager Key) (tabName : String) (cols : List ColMeta) : Prop :=
  ∃ ih, s.ihs (getIndexName tabName (cols.map ColMeta.name)) = some ⟨cols, ih⟩ ∧
    Indexed ih (recordKey copy cols) (s.fhs tabName).entry

structure Consistent (s : SmManager Key) : Prop where
  file : ∀ t tab, s.tabs t = some tab → RmInv (s.fhs t)
  named : ∀ name, s.ihs name ≠ none → s.isFile name = true
  index : ∀ t tab cols, s.tabs t = some tab → cols ∈ tab.indexes → IndexAt copy s t cols

/-- No row has gone and the indexes that were there are those of their rows; the call has failed
and changed no table and no index, or has added the index of the rows. -/
structure LeavesTable (s : SmManager Key) (tabName : String) (colNames : List String)
    (out : Except SmError Unit × SmManager Key) : Prop where
  rows : ∀ t, (out.2.fhs t).entry = (s.fhs t).entry
  others : ∀ t tab cols, s.tabs t = some tab → cols ∈ tab.indexes → IndexAt copy out.2 t cols
  result : match out.1 with
    | .error _ => out.2.tabs = s.tabs ∧ out.2.fhs = s.fhs ∧ out.2.ihs = s.ihs
    | .ok _ => ∃ tab cols, s.tabs tabName = some tab ∧ colNames.mapM tab.getCol = .ok cols ∧
        out.2.tabs = Function.update s.tabs tabName (some { tab with indexes := tab.indexes ++ [cols] }) ∧
        ∃ ih, out.2.ihs (getIndexName tabName (cols.map ColMeta.name)) = some ⟨cols, ih⟩ ∧
          IndexOf ih (recordKey copy cols) (s.fhs tabName).entry

/-- Once the checks before the build have been passed, the scan of a table with rows gets its lock
and a buffer that takes the keys, and no two rows share a key. -/
def CanBuild (lock : Granted) (s : SmManager Key) (tabName : String) (colNames : List String) : Prop :=
  ∀ tab cols, s.tabs tabName = some tab → colNames.mapM tab.getCol = .ok cols →
    s.isFile (getIndexName tabName (cols.map ColMeta.name)) = false → totalLen cols ≤ 512 →
    ((∃ r, (s.fhs tabName).entry r ≠ none) → lock.shared = true ∧ totalLen cols ≤ tab.getColTotalLen) ∧
      DistinctKeys (recordKey copy cols) (s.fhs tabName).entry

variable {copy}

theorem Consistent.leavesTable_error (hs : s.Consistent copy) (e : SmError) (isFile : String → Bool) :
    LeavesTable copy s tabName colNames (.error e, { s with isFile := isFile }) :=
  ⟨fun _ => rfl, hs.index, rfl, rfl, rfl⟩

omit [∀ cols, LinearOrder (Key cols)] in
theorem insertRecords_stops {K : Type} [IxKey K] {key : Bytes → Except SmError K} {lock : Granted}
    {fh : RmFileHandle} {ih : IxIndexHandle K} {rid : Rid} {as : List Rid} {fuel : Nat} {e : SmError}
    (hs : RmScan.Stands fh rid as) (hne : as ≠ [])
    (hround : insertScanned lock key rid fh ih = (.error e, fh, ih)) (hfuel : fuel ≠ 0) :
    insertRecords lock key fuel rid fh ih = (.error e, fh, ih) := by
  obtain ⟨fuel, rfl⟩ := Nat.exists_eq_succ_of_ne_zero hfuel
  obtain ⟨-, hc⟩ | ⟨page, left, -, hnn, -⟩ := hs
  · exact absurd hc hne
  · rw [insertRecords, if_neg (by simp [RmScan.isEnd]; omega), hround]

omit [∀ cols, LinearOrder (Key cols)] in
theorem insertScanned_error {lock : Granted} {tab : TabEntry} {cols : List ColMeta} {fh : RmFileHandle}
    (ih : IxIndexHandle (Key cols)) {rid : Rid} {as : List Rid} (hs : RmScan.Stands fh rid as) (hne : as ≠ [])
    (hlive : ∀ r ∈ as, fh.entry r ≠ none) (h : ¬ (lock.shared = true ∧ totalLen cols ≤ tab.getColTotalLen)) :
    ∃ e, insertScanned lock (copyKey copy tab cols) rid fh ih = (.error e, fh, ih) := by
  cases hlock : lock.shared with
  | false => exact ⟨.transactionAbort, by rw [insertScanned, if_pos hlock]⟩
  | true =>
      have hhead : rid ∈ as := by
        obtain ⟨-, hc⟩ | ⟨_, _, -, -, -, -, rfl⟩ := hs
        · exact absurd hc hne
        · exact List.mem_cons_self
      obtain ⟨rec, hrec⟩ := Option.ne_none_iff_exists'.1 (hlive rid hhead)
      have hover : tab.getColTotalLen < totalLen cols := not_le.1 fun hle => h ⟨hlock, hle⟩
      exact ⟨.keyOverrun, by simp [insertScanned, hlock, getRecord_of_entry hrec, copyKey, hover]⟩

theorem indexOf_emptyIndex {K : Type} [LinearOrder K] (key : Bytes → K) {len : Nat} (hlen : len ≤ 512) :
    IndexOf (emptyIndex K ((4096 - 24) / (len + 8) - 1)) key fun _ => none := by
  have h7 : 7 ≤ (4096 - 24) / (len + 8) := (Nat.le_div_iff_mul_le (by omega)).2 (by omega)
  exact ⟨rfl, IxMap.empty, emptyIndex_sim (by omega), by simp [Holds, IxMap.empty]⟩

theorem passed_rids {fh : RmFileHandle} (h : RmInv fh) : passed fh.entry fh.rids = fun _ => none := by
  funext r
  rw [passed]
  split
  · rfl
  · rename_i hr
    exact not_not.1 (mt (mem_rids h).2 hr)

variable [∀ cols, LawfulIxKey (Key cols)]

theorem createIndexOn_keeps_iff {lock : Granted} {fuel : Nat} {tab : TabEntry} {cols : List ColMeta}
    (hs : s.Consistent copy) (hfuel : (s.fhs tabName).rids.length < fuel) (htab : s.tabs tabName = some tab)
    (hcols : colNames.mapM tab.getCol = .ok cols)
    (hfree : s.isFile (getIndexName tabName (cols.map ColMeta.name)) = false) (hlen : totalLen cols ≤ 512) :
    LeavesTable copy s tabName colNames (createIndexOn copy lock fuel tabName tab cols s) ↔
      ((∃ r, (s.fhs tabName).entry r ≠ none) → lock.shared = true ∧ totalLen cols ≤ tab.getColTotalLen) ∧
        DistinctKeys (recordKey copy cols) (s.fhs tabName).entry := by
  have hinv := hs.file tabName tab htab
  obtain ⟨rid, hstart, hstands⟩ := RmScan.start_spec hinv
  have hempty := indexOf_emptyIndex (recordKey copy cols) hlen
  obtain ⟨res, fh, ih, hrun⟩ : ∃ res fh ih,
    insertRecords lock (copyKey copy tab cols) fuel rid (s.fhs tabName)
      (emptyIndex (Key cols) ((4096 - 24) / (totalLen cols + 8) - 1)) = (res, fh, ih) := ⟨_, _, _, rfl⟩
  have heq : createIndexOn copy lock fuel tabName tab cols s =
      (res, (s.openIndex tabName tab cols).putBack tabName cols fh ih) := by
    rw [createIndexOn, if_neg (by simp [hfree]), if_neg (by omega)]
    simp only [openIndex, hstart, hrun]
  have hnew : ∀ name, s.ihs name ≠ none → name ≠ getIndexName tabName (cols.map ColMeta.name) := by
    rintro name hname rfl
    have := hs.named _ hname
    rw [hfree] at this
    cases this
  rw [heq]
  constructor
  · intro h
    cases res with
    | error e =>
        -- the index is registered already
        have htabs := congrFun h.result.1 tabName
        simp only [putBack, openIndex, Function.update_self, htab, Option.some.injEq] at htabs
        exact absurd (congrArg (fun t => t.indexes.length) htabs) (by simp)
    | ok u =>
        obtain ⟨tab', cols', htab', hcols', -, ih', hih', hindex⟩ := h.result
        rw [htab] at htab'
        cases htab'
        rw [hcols] at hcols'
        cases hcols'
        obtain ⟨-, m, -, hm⟩ := hindex
        refine ⟨fun ⟨r, hr⟩ => ?_, fun r r' row row' hr hr' hkey => hm.unique hr hr' hkey⟩
        have hne : (s.fhs tabName).rids ≠ [] := List.ne_nil_of_mem ((mem_rids hinv).2 hr)
        by_contra hc
        obtain ⟨e, hround⟩ :=
          insertScanned_error (emptyIndex (Key cols) ((4096 - 24) / (totalLen cols + 8) - 1))
          hstands hne (fun r hr => (mem_rids hinv).1 hr) hc
        rw [insertRecords_stops hstands hne hround (by omega)] at hrun
        cases hrun
  · rintro ⟨hbuild, hd⟩
    have hsome : (s.fhs tabName).rids ≠ [] → lock.shared = true ∧ totalLen cols ≤ tab.getColTotalLen := by
      intro hne
      obtain ⟨r, hr⟩ := List.exists_mem_of_ne_nil _ hne
      exact hbuild ⟨r, (mem_rids hinv).1 hr⟩
    have hcopy : (s.fhs tabName).rids ≠ [] →
        copyKey copy tab cols = fun rec => .ok (recordKey copy cols rec) := by
      intro hne
      funext rec
      rw [copyKey, if_neg (not_lt.2 (hsome hne).2)]
    obtain ⟨fh', ih', hrun', -, hkeeps, hih'⟩ :=
      insertRecords_spec hcopy (fun hne => (hsome hne).1) (.inr hd) hinv hstands nodup_rids
      (fun r hr => (mem_rids hinv).1 hr) (by rw [passed_rids hinv]; exact hempty) hfuel
    rw [hrun] at hrun'
    cases hrun'
    have hentry : fh.entry = (s.fhs tabName).entry := hkeeps.eq_of_distinct hd
    have hrows : ∀ t, (((s.openIndex tabName tab cols).putBack tabName cols fh ih).fhs t).entry =
        (s.fhs t).entry := by
      intro t
      by_cases ht : t = tabName
      · subst ht
        simp [putBack, hentry]
      · simp [putBack, openIndex, ht]
    refine ⟨hrows, fun t tab' cols' ht hc => ?_, tab, cols, htab, hcols, rfl, ih, ?_, ?_⟩
    · obtain ⟨ih', hih, hindex⟩ := hs.index t tab' cols' ht hc
      refine ⟨ih', ?_, by rw [hrows]; exact hindex⟩
      have hne := hnew _ (by rw [hih]; simp)
      simp [putBack, openIndex, Function.update_of_ne hne, hih]
    · simp [putBack]
    · rw [← hentry]
      exact hih'

omit [∀ cols, LinearOrder (Key cols)] [∀ cols, LawfulIxKey (Key cols)] in
theorem createIndex_eq {lock : Granted} {fuel : Nat} {tab : TabEntry} {cols : List ColMeta}
    (htab : s.tabs tabName = some tab) (hcols : colNames.mapM tab.getCol = .ok cols) :
    createIndex copy lock fuel tabName colNames s = createIndexOn copy lock fuel tabName tab cols s := by
  rw [createIndex, htab]
  simp only [hcols]

/-- `CREATE INDEX` leaves the table alone exactly if no two of its rows share the key and, where it has
rows, the lock is granted and the key fits its buffer. -/
theorem createIndex_keeps_iff (lock : Granted) (fuel : Nat) (s : SmManager Key) (tabName : String)
    (colNames : List String) (hs : s.Consistent copy) (hfuel : (s.fhs tabName).rids.length < fuel) :
    LeavesTable copy s tabName colNames (createIndex copy lock fuel tabName colNames s) ↔
      CanBuild copy lock s tabName colNames := by
  have herror : ∀ e, LeavesTable copy s tabName colNames (.error e, s) := fun e =>
    hs.leavesTable_error e s.isFile
  rw [createIndex]
  cases htab : s.tabs tabName with
  | none =>
      refine iff_of_true (herror _) fun tab cols ht => ?_
      rw [htab] at ht
      cases ht
  | some tab =>
      cases hcols : colNames.mapM tab.getCol with
      | error e =>
          refine iff_of_true (by simpa only [hcols] using herror e) fun tab' cols ht hc => ?_
          rw [htab] at ht
          cases ht
          rw [hcols] at hc
          cases hc
      | ok cols =>
          simp only [hcols]
          have hbuild : CanBuild copy lock s tabName colNames ↔
              (s.isFile (getIndexName tabName (cols.map ColMeta.name)) = false → totalLen cols ≤ 512 →
                ((∃ r, (s.fhs tabName).entry r ≠ none) → lock.shared = true ∧
                  totalLen cols ≤ tab.getColTotalLen) ∧
                  DistinctKeys (recordKey copy cols) (s.fhs tabName).entry) := by
            refine ⟨fun h => h tab cols htab hcols, fun h tab' cols' ht hc => ?_⟩
            rw [htab] at ht
            cases ht
            rw [hcols] at hc
            cases hc
            exact h
          rw [hbuild]
          cases hfile : s.isFile (getIndexName tabName (cols.map ColMeta.name)) with
          | true =>
              refine iff_of_true ?_ nofun
              rw [createIndexOn, if_pos hfile]
              exact herror _
          | false =>
              by_cases hlen : totalLen cols ≤ 512
              · rw [createIndexOn_keeps_iff hs hfuel htab hcols hfile hlen]
                exact ⟨fun h _ _ => h, fun h => h rfl hlen⟩
              · refine iff_of_true ?_ fun _ hc => absurd hc hlen
                rw [createIndexOn, if_neg (by simp [hfile]), if_pos (by omega)]
                exact hs.leavesTable_error ..

section Example

def intCharLayout (cols : List ColMeta) : KeyLayout :=
  if h : (∀ c ∈ cols.map fun c => (c.type, c.len), c = (.int, 4) ∨ c.1 = .string) ∧
      IxManager.colTotLen (cols.map fun c => (c.type, c.len)) ≤ 512 then ⟨_, h.1, h.2⟩ else intLayout

def copyBytes (cols : List ColMeta) (parts : List Bytes) : Rmdb.Key (intCharLayout cols) :=
  ⟨(parts.flatten ++ List.replicate (IxManager.colTotLen (intCharLayout cols).cols) 0).take
    (IxManager.colTotLen (intCharLayout cols).cols), by simp⟩

def oneRowFile : RmFileHandle :=
  ((RmManager.openFile ⟨⟨4, 1, 987, rmNoPage, 124⟩, fun _ => none⟩).insertRecord [5, 0, 0, 0]).2

def pairTable (y : Bytes) : SmManager fun cols => Rmdb.Key (intCharLayout cols) where
  tabs t := if t = "t" then some ⟨[⟨"t", "a", .int, 4, 0⟩], []⟩ else none
  fhs _ := (oneRowFile.insertRecord y).2
  ihs _ := none
  isFile name := name = "t"

theorem inv_emptyFile : RmInv (RmManager.openFile ⟨⟨4, 1, 987, rmNoPage, 124⟩, fun _ => none⟩) :=
  openFile_inv (show RmManager.createFile 4 = .ok _ from rfl)

theorem pairTable_inv {y : Bytes} (hy : y.length = 4) : RmInv ((pairTable y).fhs "t") :=
  inv_insertRecord (inv_insertRecord inv_emptyFile rfl) hy

theorem pairTable_records {y : Bytes} (hy : y.length = 4)
    (hrid : (oneRowFile.insertRecord y).1 = .ok ⟨1, 1⟩) :
    ((pairTable y).fhs "t").rids = [⟨1, 0⟩, ⟨1, 1⟩] ∧
      ((pairTable y).fhs "t").entry ⟨1, 0⟩ = some [5, 0, 0, 0] ∧
      ((pairTable y).fhs "t").entry ⟨1, 1⟩ = some y :=
  two_records inv_emptyFile rfl rfl hy rfl hrid (.inr ⟨rfl, by decide⟩)

theorem pairTable_consistent {y : Bytes} (hy : y.length = 4) : (pairTable y).Consistent copyBytes where
  file _ _ _ := pairTable_inv hy
  named _ h := absurd rfl h
  index t tab cols ht hc := by
    simp only [pairTable] at ht
    split at ht
    · cases ht
      cases hc
    · cases ht

theorem createIndex_keeps_iff_pair :
    LeavesTable copyBytes (pairTable [7, 0, 0, 0]) "t" ["a"]
      (createIndex copyBytes ⟨true, true⟩ 3 "t" ["a"] (pairTable [7, 0, 0, 0])) := by
  obtain ⟨hrids, h₀, h₁⟩ := pairTable_records (y := [7, 0, 0, 0]) rfl rfl
  refine (createIndex_keeps_iff _ _ _ _ _ (pairTable_consistent rfl) (by rw [hrids]; decide)).2 ?_
  rintro tab cols ht hc - -
  cases ht
  cases hc
  refine ⟨fun _ => ⟨rfl, by decide⟩, fun r r' row row' hr hr' hkey => ?_⟩
  have hmem : ∀ {r row}, ((pairTable [7, 0, 0, 0]).fhs "t").entry r = some row →
      r = ⟨1, 0⟩ ∧ row = [5, 0, 0, 0] ∨ r = ⟨1, 1⟩ ∧ row = [7, 0, 0, 0] := by
    intro r row h
    have hin := (mem_rids (pairTable_inv rfl)).2 (show _ ≠ none by rw [h]; simp)
    rw [hrids] at hin
    rcases List.mem_pair.1 hin with rfl | rfl
    · exact .inl ⟨rfl, Option.some.inj (h.symm.trans h₀)⟩
    · exact .inr ⟨rfl, Option.some.inj (h.symm.trans h₁)⟩
  rcases hmem hr with ⟨rfl, rfl⟩ | ⟨rfl, rfl⟩ <;> rcases hmem hr' with ⟨rfl, rfl⟩ | ⟨rfl, rfl⟩
  · rfl
  · exact absurd hkey (by decide)
  · exact absurd hkey (by decide)
  · rfl

/-- The second of two rows with `a = 5` is not in the table any more. -/
theorem twin_row_removed : (pairTable [5, 0, 0, 0]).Consistent copyBytes ∧
    ¬ LeavesTable copyBytes (pairTable [5, 0, 0, 0]) "t" ["a"]
      (createIndex copyBytes ⟨true, true⟩ 3 "t" ["a"] (pairTable [5, 0, 0, 0])) := by
  obtain ⟨hrids, h₀, h₁⟩ := pairTable_records (y := [5, 0, 0, 0]) rfl rfl
  have hcons : (pairTable [5, 0, 0, 0]).Consistent copyBytes := pairTable_consistent rfl
  have htab : (pairTable [5, 0, 0, 0]).tabs "t" = some ⟨[⟨"t", "a", .int, 4, 0⟩], []⟩ := rfl
  have hcols : ["a"].mapM (TabEntry.getCol ⟨[⟨"t", "a", .int, 4, 0⟩], []⟩) =
    .ok [⟨"t", "a", .int, 4, 0⟩] := rfl
  refine ⟨hcons, fun h => ?_⟩
  rw [createIndex_eq htab hcols, createIndexOn_keeps_iff hcons (by rw [hrids]; decide) htab hcols (by decide)
    (by decide)] at h
  exact absurd (h.2 _ _ _ _ h₀ h₁ rfl) (by decide)

end Example

end SmManager

end Rmdb
