import Rmdb.Execution.ScanExecutor
import Rmdb.System.CreateIndex

namespace Rmdb

open RmFileHandle

/-- The pieces that `getline` reads from a text until nothing is left; an empty piece at the end
is not read. -/
def getlines (delim : UInt8) (text : Bytes) : List Bytes :=
  if (text.splitOn delim).getLast? = some [] then (text.splitOn delim).dropLast else text.splitOn delim

/-- `sscanf` with `%d` and `%f`; `none` where it stores nothing. -/
structure Sscanf where
  int : Bytes → Option Int32
  float : Bytes → Option Float32

/-- What a run finds where the language promises nothing: the bytes of a new buffer of `size`
bytes, the word in the union of a `Value` that has not been set, for each line and field, and what
comes of a line with a field for which there is no column. -/
structure LoadEnv (size : Nat) where
  fresh : Bytes
  unset : Nat → Nat → Nat
  beyond : Nat → Except SmError Bytes
  fresh_length : fresh.length = size
  beyond_length : ∀ n rec, beyond n = .ok rec → rec.length = size

def copyInto (rec : Bytes) (offset : Nat) (raw : Bytes) : Bytes :=
  rec.take offset ++ raw ++ rec.drop (offset + raw.length)

def LaidOut (size : Nat) : Nat → List ColMeta → Prop
  | offset, [] => offset = size
  | offset, col :: cols => col.offset = offset ∧ (col.type = .int ∨ col.type = .float → col.len = 4) ∧
      LaidOut size (offset + col.len) cols

namespace SmManager

variable (scan : Sscanf) {size : Nat} (env : LoadEnv size)

/-- `set_str`, `value_cast` and `init_raw`; a number that is not read leaves the word as it is. -/
def castField (unset : Nat) (col : ColMeta) (word : Bytes) : Except SmError Bytes :=
  match col.type with
  | .int => .ok ((scan.int word).elim (wordBytes unset) intBytes)
  | .float => .ok ((scan.float word).elim (wordBytes unset) floatBytes)
  | .string => if col.len < word.length then .error .stringOverflow else .ok (padTo col.len word)
  | .null => .error .incompatibleType

def fillFields (lineNo : Nat) : Nat → List ColMeta → List Bytes → Bytes → Except SmError Bytes
  | _, _, [], rec => .ok rec
  | _, [], _ :: _, _ => env.beyond lineNo
  | curr, col :: cols, word :: words, rec =>
      match castField scan (env.unset lineNo curr) col word with
      | .error e => .error e
      | .ok raw => fillFields lineNo (curr + 1) cols words (copyInto rec col.offset raw)

def fillRecord (cols : List ColMeta) (lineNo : Nat) (line rec : Bytes) : Except SmError Bytes :=
  fillFields scan env lineNo 0 cols (getlines 44 line) rec

variable {Key : List ColMeta → Type} [∀ cols, IxKey (Key cols)] (copy : ∀ cols, List Bytes → Key cols)

/-- The index loop of `load_table`, which does not look at `success`. -/
def insertKeys (tabName : String) (rid : Rid) (rec : Bytes) : List (List ColMeta) → SmManager Key →
    Except SmError Unit × SmManager Key
  | [], s => (.ok (), s)
  | cols :: indexes, s => match s.ihs (getIndexName tabName (cols.map ColMeta.name)) with
      | none => (.error .indexNotOpen, s)
      | some ix => match ix.handle.insertEntry (recordKey copy ix.cols rec) rid with
          | .error e => (.error (.index e), s)
          | .ok (_, _, ih) => insertKeys tabName rid rec indexes
              { s with
                ihs := Function.update s.ihs (getIndexName tabName (cols.map ColMeta.name))
                  (some ⟨ix.cols, ih⟩) }

/-- The loop over the lines. All lines share the buffer `rec`. -/
def loadLines (tabName : String) (tab : TabEntry) : Nat → List Bytes → Bytes → SmManager Key →
    Except SmError Unit × SmManager Key
  | _, [], _, s => (.ok (), s)
  | lineNo, line :: lines, rec, s => match fillRecord scan env tab.cols lineNo line rec with
      | .error e => (.error e, s)
      | .ok rec => match (s.fhs tabName).insertRecord rec with
          | (.error e, fh) => (.error (.record e), { s with fhs := Function.update s.fhs tabName fh })
          | (.ok rid, fh) =>
              match insertKeys copy tabName rid rec tab.indexes { s with
                fhs := Function.update s.fhs tabName fh } with
              | (.error e, s) => (.error e, s)
              | (.ok (), s) => loadLines tabName tab (lineNo + 1) lines rec s

/-- `load_table`; `none` is a file that cannot be opened. The first line is a header. -/
def loadTable (tabName : String) (file : Option Bytes) (s : SmManager Key) :
    Except SmError Unit × SmManager Key :=
  match s.tabs tabName with
  | none => (.error .tableNotFound, s)
  | some tab => match file with
      | none => (.error .fileNotOpen, s)
      | some text =>
          if ∃ cols ∈ tab.indexes, s.ihs (getIndexName tabName (cols.map ColMeta.name)) = none then
            (.error .indexNotOpen, s)
          else loadLines scan env copy tabName tab 0 (getlines 10 text).tail env.fresh s

def records (cols : List ColMeta) : Nat → List Bytes → Bytes → List Bytes
  | _, [], _ => []
  | lineNo, line :: lines, rec => match fillRecord scan env cols lineNo line rec with
      | .error _ => []
      | .ok rec => rec :: records cols (lineNo + 1) lines rec

def FreshKeys (indexes : List (List ColMeta)) : RmFileHandle → List Bytes → Prop
  | _, [] => True
  | fh, rec :: recs => match fh.insertRecord rec with
      | (.error _, _) => True
      | (.ok _, fh') =>
          (∀ cols ∈ indexes, ∀ r row, fh.entry r = some row →
            recordKey copy cols row ≠ recordKey copy cols rec) ∧
          FreshKeys indexes fh' recs

def GoesIn (fh : RmFileHandle) (recs : List Bytes) : Prop :=
  ∃ rec rest rid, recs = rec :: rest ∧ (fh.insertRecord rec).1 = .ok rid

end SmManager

section Buffer

variable {scan : Sscanf} {size : Nat} {env : LoadEnv size} {offset : Nat} {cols : List ColMeta}
  {rec rec' : Bytes}

theorem LaidOut.sum (h : LaidOut size offset cols) : offset + (cols.map ColMeta.len).sum = size := by
  induction cols generalizing offset with
  | nil => exact h
  | cons col cols ih =>
      have := ih h.2.2
      simp only [List.map_cons, List.sum_cons]
      omega

theorem LaidOut.le (h : LaidOut size offset cols) : offset ≤ size := by
  have := h.sum
  omega

namespace SmManager

theorem castField_length {unset : Nat} {col : ColMeta} {word raw : Bytes}
    (hnum : col.type = .int ∨ col.type = .float → col.len = 4)
    (h : castField scan unset col word = .ok raw) : raw.length = col.len := by
  rw [castField] at h
  split at h
  · rename_i ht
    cases h
    rw [hnum (.inl ht)]
    cases scan.int word <;> rfl
  · rename_i ht
    cases h
    rw [hnum (.inr ht)]
    cases scan.float word <;> rfl
  · split at h
    · cases h
    · cases h
      simp [padTo]
      omega
  · cases h

theorem copyInto_length {raw : Bytes} (h : offset + raw.length ≤ rec.length) :
    (copyInto rec offset raw).length = rec.length := by
  simp only [copyInto, List.length_append, List.length_take, List.length_drop]
  omega

theorem fillFields_length {lineNo curr : Nat} {words : List Bytes} (hl : LaidOut size offset cols)
    (hrec : rec.length = size) (h : fillFields scan env lineNo curr cols words rec = .ok rec') :
    rec'.length = size := by
  induction cols generalizing curr words rec offset with
  | nil =>
      cases words with
      | nil =>
          cases h
          exact hrec
      | cons word words => exact env.beyond_length _ _ h
  | cons col cols ih =>
      cases words with
      | nil =>
          cases h
          exact hrec
      | cons word words =>
          rw [fillFields] at h
          split at h
          · cases h
          · rename_i raw hraw
            have hlen := castField_length hl.2.1 hraw
            have hle := hl.2.2.le
            have hoff := hl.1
            exact ih hl.2.2 (by rw [copyInto_length (by omega), hrec]) h

end SmManager

end Buffer

section Entries

variable {K : Type} [IxKey K] {ih : IxIndexHandle K} {key : Bytes → K} {L : Rid → Option Bytes} {k : K}
  {r : Rid} {row : Bytes}

def HasEntry (ih : IxIndexHandle K) (k : K) (r : Rid) : Prop :=
  ∃ fuel p node, ih.descend k fuel ih.fileHdr.rootPage = .ok p ∧ ih.pages p = some node ∧ (k, r) ∈ node.pairs

theorem Emptied.not_hasEntry (h : Emptied ih) : ¬ HasEntry ih k r := by
  rintro ⟨fuel, p, node, hdescend, -⟩
  rw [h.root] at hdescend
  cases fuel with
  | zero => cases hdescend
  | succ fuel =>
      rw [IxIndexHandle.descend, IxIndexHandle.fetchNode, h.noPage] at hdescend
      cases hdescend

variable [LinearOrder K] [LawfulIxKey K]

theorem IndexOf.hasEntry (h : IndexOf ih key L) (hr : L r = some row) : HasEntry ih (key row) r := by
  obtain ⟨-, m, ⟨es, hv, hes⟩, hm⟩ := h
  obtain ⟨leftEntries, p, node, rightEntries, hfind, hnode, -, -, rfl, hleft, hright⟩ := hv.leafAt (key row)
  have hin := (hes _ _).2 ((hm (key row) r).2 ⟨row, hr, rfl⟩)
  refine ⟨ih.fd2pageno, p, node, hfind, hnode, ?_⟩
  rcases List.mem_append.1 hin with hin | hin
  · exact absurd (hleft _ hin) (lt_irrefl _)
  · exact (List.mem_append.1 hin).resolve_right fun hc => absurd (hright _ hc) (lt_irrefl _)

end Entries

namespace SmManager

section Loop

variable {scan : Sscanf} {size : Nat} {env : LoadEnv size} {Key : List ColMeta → Type}
  [∀ cols, IxKey (Key cols)] {copy : ∀ cols, List Bytes → Key cols} {s : SmManager Key} {tabName : String}
  {tab : TabEntry} {rid : Rid} {rec : Bytes} {indexes : List (List ColMeta)}

abbrev indexNameOf (tabName : String) (cols : List ColMeta) : String :=
  getIndexName tabName (cols.map ColMeta.name)

theorem insertKeys_fhs {out : Except SmError Unit} {s' : SmManager Key}
    (h : insertKeys copy tabName rid rec indexes s = (out, s')) : s'.fhs = s.fhs := by
  induction indexes generalizing s with
  | nil => rw [← (Prod.mk.inj h).2]
  | cons cols indexes ih =>
      rw [insertKeys] at h
      split at h
      · rw [← (Prod.mk.inj h).2]
      · split at h
        · rw [← (Prod.mk.inj h).2]
        · have hrest := ih h
          exact hrest

structure Loadable (size : Nat) (fh : RmFileHandle) : Prop where
  file : RmInv fh
  size : fh.fileHdr.recordSize = size

theorem Loadable.insertRecord {fh : RmFileHandle} (h : Loadable size fh) (hrec : rec.length = size) :
    (∃ rid fh', fh.insertRecord rec = (.ok rid, fh') ∧ fh.entry rid = none ∧
      fh'.entry = Function.update fh.entry rid (some rec) ∧ Loadable size fh') ∨
    fh.insertRecord rec = (.error .noFreeSlot, fh) := by
  have hkeep := insertRecord_recordSize h.file rec
  rcases insertRecord_spec h.file (hrec.trans h.size.symm) with ⟨rid, fh', hins, hfree, hentry, hinv⟩ | hins
  · rw [hins] at hkeep
    exact .inl ⟨rid, fh', hins, hfree, hentry, hinv, hkeep.trans h.size⟩
  · exact .inr hins

/-- No round of the loop takes a row out again: not one of those that are there once the record
has gone in. -/
theorem loadLines_row {lineNo : Nat} {line : Bytes} {lines : List Bytes} {rec' : Bytes}
    {fh : RmFileHandle} {r : Rid} {row : Bytes}
    (hfill : fillRecord scan env tab.cols lineNo line rec = .ok rec')
    (hins : (s.fhs tabName).insertRecord rec' = (.ok rid, fh)) (hr : fh.entry r = some row)
    (hrest : ∀ s' : SmManager Key, s'.fhs tabName = fh →
      ((loadLines scan env copy tabName tab (lineNo + 1) lines rec' s').2.fhs tabName).entry r = some row) :
    ((loadLines scan env copy tabName tab lineNo (line :: lines) rec s).2.fhs tabName).entry r =
      some row := by
  rw [loadLines, hfill]
  simp only [hins]
  split <;> rename_i s' hkeys <;> have hfhs := congrFun (insertKeys_fhs hkeys) tabName <;>
    simp only [Function.update_self] at hfhs
  · rw [hfhs]
    exact hr
  · exact hrest s' hfhs

theorem loadLines_keeps {lineNo : Nat} {lines : List Bytes} {r : Rid} {row : Bytes}
    (h : Loadable size (s.fhs tabName)) (hl : LaidOut size 0 tab.cols) (hrec : rec.length = size)
    (hr : (s.fhs tabName).entry r = some row) :
    ((loadLines scan env copy tabName tab lineNo lines rec s).2.fhs tabName).entry r = some row := by
  induction lines generalizing lineNo rec s with
  | nil => exact hr
  | cons line lines ih =>
      cases hfill : fillRecord scan env tab.cols lineNo line rec with
      | error e =>
          rw [loadLines, hfill]
          exact hr
      | ok rec' =>
          have hrec' := fillFields_length hl hrec hfill
          rcases h.insertRecord hrec' with ⟨rid, fh, hins, hfree, hentry, h'⟩ | hins
          · have hr' : fh.entry r = some row := by
              rw [hentry, Function.update_of_ne]
              · exact hr
              · rintro rfl
                rw [hfree] at hr
                cases hr
            refine loadLines_row hfill hins hr' fun s' hfhs => ih ?_ hrec' ?_ <;> rw [hfhs]
            · exact h'
            · exact hr'
          · rw [loadLines, hfill]
            simp only [hins]
            simpa using hr

/-- The loop throws at an index without a root, if not before, and leaves that index as it is. -/
theorem insertKeys_rootless (copy : ∀ cols, List Bytes → Key cols) (rid : Rid) (rec : Bytes)
    (s : SmManager Key) {cols : List ColMeta} {ih : IxIndexHandle (Key cols)} (hin : cols ∈ indexes)
    (hnd : (indexes.map (indexNameOf tabName)).Nodup)
    (hih : s.ihs (indexNameOf tabName cols) = some ⟨cols, ih⟩) (hem : Emptied ih) :
    ∃ e s', insertKeys copy tabName rid rec indexes s = (.error e, s') ∧
      s'.ihs (indexNameOf tabName cols) = some ⟨cols, ih⟩ := by
  induction indexes generalizing s with
  | nil => cases hin
  | cons cols' indexes ihl =>
      obtain ⟨hnot, hnd⟩ := List.nodup_cons.1 hnd
      rw [insertKeys]
      by_cases hc : cols' = cols
      · subst hc
        obtain ⟨e, he⟩ := hem.insertEntry (recordKey copy cols' rec) rid
        refine ⟨.index e, s, ?_, hih⟩
        simp only [hih, he]
      · have hin' := (List.mem_cons.1 hin).resolve_left (Ne.symm hc)
        cases hix : s.ihs (getIndexName tabName (cols'.map ColMeta.name)) with
        | none => exact ⟨_, s, rfl, hih⟩
        | some ix =>
            simp only
            cases hins : ix.handle.insertEntry (recordKey copy ix.cols rec) rid with
            | error e => exact ⟨_, s, rfl, hih⟩
            | ok out =>
                refine ihl _ hin' hnd ?_
                have hne : indexNameOf tabName cols ≠ indexNameOf tabName cols' :=
                  fun heq => hnot (heq ▸ List.mem_map_of_mem hin')
                simpa [Function.update_of_ne hne] using hih

variable [∀ cols, LinearOrder (Key cols)] [∀ cols, LawfulIxKey (Key cols)] {L : Rid → Option Bytes}

def OpenOn (copy : ∀ cols, List Bytes → Key cols) (s : SmManager Key) (tabName : String)
    (L : Rid → Option Bytes) (cols : List ColMeta) : Prop :=
  ∃ ih, s.ihs (indexNameOf tabName cols) = some ⟨cols, ih⟩ ∧ IndexOf ih (recordKey copy cols) L

theorem insertKeys_fresh (hnd : (indexes.map (indexNameOf tabName)).Nodup) (hfree : L rid = none)
    (hnew : ∀ cols ∈ indexes, ∀ r row, L r = some row → recordKey copy cols row ≠ recordKey copy cols rec)
    (h : ∀ cols ∈ indexes, OpenOn copy s tabName L cols) :
    ∃ s', insertKeys copy tabName rid rec indexes s = (.ok (), s') ∧
      (∀ cols ∈ indexes, OpenOn copy s' tabName (Function.update L rid (some rec)) cols) ∧
      ∀ name, name ∉ indexes.map (indexNameOf tabName) → s'.ihs name = s.ihs name := by
  induction indexes generalizing s with
  | nil => exact ⟨s, rfl, nofun, fun _ _ => rfl⟩
  | cons cols indexes ihl =>
      obtain ⟨hnot, hnd⟩ := List.nodup_cons.1 hnd
      obtain ⟨ih, hih, hindex⟩ := h cols List.mem_cons_self
      obtain ⟨p, ih', hins, hindex'⟩ := hindex.insert hfree (hnew cols List.mem_cons_self)
      obtain ⟨s', hrun, hall, hother⟩ := ihl
        (s := { s with ihs := Function.update s.ihs (indexNameOf tabName cols) (some ⟨cols, ih'⟩) }) hnd
        (fun c hc => hnew c (List.mem_cons_of_mem _ hc)) (by
          intro c hc
          obtain ⟨ihc, hihc, hindexc⟩ := h c (List.mem_cons_of_mem _ hc)
          have hne : indexNameOf tabName c ≠ indexNameOf tabName cols := fun heq =>
            hnot (heq ▸ List.mem_map_of_mem hc)
          exact ⟨ihc, by simpa only [Function.update_of_ne hne] using hihc, hindexc⟩)
      refine ⟨s', ?_, ?_, ?_⟩
      · rw [insertKeys]
        simp only [indexNameOf] at hih
        simp only [hih, hins]
        exact hrun
      · intro c hc
        rcases List.mem_cons.1 hc with rfl | hc
        · refine ⟨ih', ?_, hindex'⟩
          rw [hother _ hnot]
          exact Function.update_self ..
        · exact hall c hc
      · intro name hname
        rw [List.map_cons, List.mem_cons, not_or] at hname
        rw [hother name hname.2]
        exact Function.update_of_ne hname.1 _ _

def UniqueIndexes (copy : ∀ cols, List Bytes → Key cols) (s : SmManager Key) (tabName : String)
    (tab : TabEntry) : Prop :=
  ∀ cols ∈ tab.indexes, ∃ ih, s.ihs (indexNameOf tabName cols) = some ⟨cols, ih⟩ ∧
    (∀ r row, (s.fhs tabName).entry r = some row → HasEntry ih (recordKey copy cols row) r) ∧
    DistinctKeys (recordKey copy cols) (s.fhs tabName).entry

theorem uniqueIndexes_of_open (h : ∀ cols ∈ tab.indexes, OpenOn copy s tabName (s.fhs tabName).entry cols) :
    UniqueIndexes copy s tabName tab := by
  intro cols hc
  obtain ⟨ih, hih, hindex⟩ := h cols hc
  refine ⟨ih, hih, fun r row hr => hindex.hasEntry hr, fun r r' row row' hr hr' hkey => ?_⟩
  obtain ⟨-, m, -, hm⟩ := hindex
  exact hm.unique hr hr' hkey

theorem loadLines_keeps_iff {lineNo : Nat} {lines : List Bytes}
    (hnd : (tab.indexes.map (indexNameOf tabName)).Nodup) (hl : LaidOut size 0 tab.cols)
    (h : Loadable size (s.fhs tabName)) (hrec : rec.length = size)
    (hopen : ∀ cols ∈ tab.indexes, OpenOn copy s tabName (s.fhs tabName).entry cols) :
    UniqueIndexes copy (loadLines scan env copy tabName tab lineNo lines rec s).2 tabName tab ↔
      FreshKeys copy tab.indexes (s.fhs tabName) (records scan env tab.cols lineNo lines rec) := by
  induction lines generalizing lineNo rec s with
  | nil => exact iff_of_true (uniqueIndexes_of_open hopen) trivial
  | cons line lines ih =>
      rw [records]
      cases hfill : fillRecord scan env tab.cols lineNo line rec with
      | error e =>
          rw [loadLines, hfill]
          exact iff_of_true (uniqueIndexes_of_open hopen) trivial
      | ok rec' =>
          have hrec' := fillFields_length hl hrec hfill
          simp only [FreshKeys]
          rcases h.insertRecord hrec' with ⟨rid, fh, hins, hfree, hentry, h'⟩ | hins
          · simp only [hins]
            by_cases hnew : ∀ cols ∈ tab.indexes, ∀ r row, (s.fhs tabName).entry r = some row →
                recordKey copy cols row ≠ recordKey copy cols rec'
            · obtain ⟨s', hrun, hall, -⟩ :=
                insertKeys_fresh (s := { s with fhs := Function.update s.fhs tabName fh })
                hnd hfree hnew hopen
              have hfhs : s'.fhs tabName = fh := by
                rw [insertKeys_fhs hrun]
                exact Function.update_self ..
              have hstep : loadLines scan env copy tabName tab lineNo (line :: lines) rec s =
                  loadLines scan env copy tabName tab (lineNo + 1) lines rec' s' := by
                rw [loadLines, hfill]
                simp only [hins, hrun]
              rw [hstep, and_iff_right hnew, ← hfhs]
              refine ih (by rw [hfhs]; exact h') hrec' ?_
              rw [hfhs, hentry]
              exact hall
            · -- the row stays beside the one that has its key
              refine iff_of_false (fun hu => hnew fun cols hc r row hr hkey => ?_) fun hc => hnew hc.1
              obtain ⟨-, -, -, hd⟩ := hu cols hc
              have hrr : r ≠ rid := by
                rintro rfl
                rw [hfree] at hr
                cases hr
              have hfinal : ∀ q row', fh.entry q = some row' →
                  ((loadLines scan env copy tabName tab lineNo (line :: lines) rec s).2.fhs tabName).entry
                    q = some row' :=
                fun q row' hq => loadLines_row hfill hins hq fun s' hfhs =>
                  loadLines_keeps (by rw [hfhs]; exact h') hl hrec' (by rw [hfhs]; exact hq)
              refine hrr (hd r rid row rec' (hfinal r row ?_) (hfinal rid rec' ?_) hkey)
              · rw [hentry, Function.update_of_ne hrr]
                exact hr
              · rw [hentry, Function.update_self]
          · rw [loadLines, hfill]
            simp only [hins]
            refine iff_of_true (uniqueIndexes_of_open ?_) trivial
            simpa [OpenOn] using hopen

structure WellLaid (s : SmManager Key) (tabName : String) : Prop where
  laid : ∀ tab, s.tabs tabName = some tab → LaidOut (s.fhs tabName).fileHdr.recordSize 0 tab.cols
  names : ∀ tab, s.tabs tabName = some tab → (tab.indexes.map (indexNameOf tabName)).Nodup

def Rootless (s : SmManager Key) (tabName : String) (tab : TabEntry) : Prop :=
  ∃ cols ∈ tab.indexes, ∃ ih, s.ihs (indexNameOf tabName cols) = some ⟨cols, ih⟩ ∧ Emptied ih

theorem uniqueIndexes_of_consistent (hs : s.Consistent copy) (htab : s.tabs tabName = some tab) :
    UniqueIndexes copy s tabName tab := by
  intro cols hc
  obtain ⟨ih, hih, hindex | ⟨-, hnone⟩⟩ := hs.index tabName tab cols htab hc
  · refine ⟨ih, hih, fun r row hr => hindex.hasEntry hr, fun r r' row row' hr hr' hkey => ?_⟩
    obtain ⟨-, m, -, hm⟩ := hindex
    exact hm.unique hr hr' hkey
  · refine ⟨ih, hih, fun r row hr => ?_, fun r r' row row' hr => ?_⟩ <;> rw [hnone r] at hr <;> cases hr

omit [∀ cols, LawfulIxKey (Key cols)] in
theorem open_of_rooted (hs : s.Consistent copy) (htab : s.tabs tabName = some tab)
    (hroot : ¬ Rootless s tabName tab) :
    ∀ cols ∈ tab.indexes, OpenOn copy s tabName (s.fhs tabName).entry cols := by
  intro cols hc
  obtain ⟨ih, hih, hindex | ⟨hem, -⟩⟩ := hs.index tabName tab cols htab hc
  · exact ⟨ih, hih, hindex⟩
  · exact absurd ⟨cols, hc, ih, hih, hem⟩ hroot

omit [∀ cols, LinearOrder (Key cols)] [∀ cols, LawfulIxKey (Key cols)] in
theorem loadLines_nothing (copy : ∀ cols, List Bytes → Key cols) {lineNo : Nat} {lines : List Bytes}
    (hl : LaidOut size 0 tab.cols) (h : Loadable size (s.fhs tabName)) (hrec : rec.length = size)
    (hnone : ¬ GoesIn (s.fhs tabName) (records scan env tab.cols lineNo lines rec)) :
    (loadLines scan env copy tabName tab lineNo lines rec s).2 = s ∧
      FreshKeys copy tab.indexes (s.fhs tabName) (records scan env tab.cols lineNo lines rec) := by
  cases lines with
  | nil => exact ⟨rfl, trivial⟩
  | cons line lines =>
      rw [loadLines, records]
      rw [records] at hnone
      cases hfill : fillRecord scan env tab.cols lineNo line rec with
      | error e => exact ⟨rfl, trivial⟩
      | ok rec' =>
          simp only [hfill] at hnone
          rcases h.insertRecord (fillFields_length hl hrec hfill) with ⟨rid, fh, hins, -⟩ | hins
          · exact absurd ⟨rec', _, rid, rfl, by rw [hins]⟩ hnone
          · simp only [hins, FreshKeys, and_true]
            rw [Function.update_eq_self]

omit [∀ cols, LinearOrder (Key cols)] [∀ cols, LawfulIxKey (Key cols)] in
theorem loadLines_rootless {lineNo : Nat} {lines : List Bytes}
    (hnd : (tab.indexes.map (indexNameOf tabName)).Nodup) (hl : LaidOut size 0 tab.cols)
    (h : Loadable size (s.fhs tabName)) (hrec : rec.length = size) (hroot : Rootless s tabName tab)
    (hsome : GoesIn (s.fhs tabName) (records scan env tab.cols lineNo lines rec)) :
    ¬ UniqueIndexes copy (loadLines scan env copy tabName tab lineNo lines rec s).2 tabName tab := by
  obtain ⟨rec', rest, rid, hrecs, hins'⟩ := hsome
  obtain ⟨cols, hc, ih, hih, hem⟩ := hroot
  cases lines with
  | nil => cases hrecs
  | cons line lines =>
      rw [records] at hrecs
      cases hfill : fillRecord scan env tab.cols lineNo line rec with
      | error e =>
          rw [hfill] at hrecs
          cases hrecs
      | ok rec'' =>
          rw [hfill] at hrecs
          obtain ⟨rfl, -⟩ := List.cons.inj hrecs
          rcases h.insertRecord (fillFields_length hl hrec hfill) with ⟨q, fh, hins, -, hentry, -⟩ | hins
          · obtain ⟨e, s', hkeys, hih'⟩ := insertKeys_rootless copy q rec''
              { s with fhs := Function.update s.fhs tabName fh } hc hnd hih hem
            have hfhs : s'.fhs tabName = fh := by
              rw [insertKeys_fhs hkeys]
              exact Function.update_self ..
            rw [loadLines, hfill]
            simp only [hins, hkeys]
            intro hu
            obtain ⟨ih', hih'', hall, -⟩ := hu cols hc
            rw [hih'] at hih''
            cases hih''
            refine hem.not_hasEntry (hall q rec'' ?_)
            rw [hfhs, hentry, Function.update_self]
          · rw [hins] at hins'
            cases hins'

/-- The rows that go in have keys of their own in every index, and no index has lost its root if
there are any. -/
def LoadsFresh (scan : Sscanf) (copy : ∀ cols, List Bytes → Key cols) (s : SmManager Key) (tabName : String)
    (env : LoadEnv (s.fhs tabName).fileHdr.recordSize) (file : Option Bytes) : Prop :=
  ∀ tab text, s.tabs tabName = some tab → file = some text →
    FreshKeys copy tab.indexes (s.fhs tabName)
      (records scan env tab.cols 0 (getlines 10 text).tail env.fresh) ∧
      (GoesIn (s.fhs tabName) (records scan env tab.cols 0 (getlines 10 text).tail env.fresh) →
        ¬ Rootless s tabName tab)

/-- `LOAD` keeps the unique indexes exactly if the keys that it brings are new. -/
theorem load_keeps_indexes_iff (scan : Sscanf) (copy : ∀ cols, List Bytes → Key cols) (s : SmManager Key)
    (tabName : String) (env : LoadEnv (s.fhs tabName).fileHdr.recordSize) (file : Option Bytes)
    (hs : s.Consistent copy) (hl : s.WellLaid tabName) :
    (∀ tab, s.tabs tabName = some tab →
        UniqueIndexes copy (loadTable scan env copy tabName file s).2 tabName tab) ↔
      LoadsFresh scan copy s tabName env file := by
  cases htab : s.tabs tabName with
  | none =>
      refine iff_of_true nofun fun tab text ht => ?_
      rw [htab] at ht
      cases ht
  | some tab =>
      have hsame := uniqueIndexes_of_consistent hs htab
      cases file with
      | none =>
          refine iff_of_true (fun tab' ht => ?_) fun _ _ _ hc => nomatch hc
          cases ht
          simpa only [loadTable, htab] using hsame
      | some text =>
          have hopen : ¬ ∃ cols ∈ tab.indexes,
              s.ihs (getIndexName tabName (cols.map ColMeta.name)) = none := by
            rintro ⟨cols, hc, hnone⟩
            obtain ⟨ih, hih, -⟩ := hsame cols hc
            rw [hnone] at hih
            cases hih
          have hfile : Loadable (s.fhs tabName).fileHdr.recordSize (s.fhs tabName) :=
            ⟨hs.file tabName tab htab, rfl⟩
          have hload : (∀ tab', some tab = some tab' →
                UniqueIndexes copy (loadTable scan env copy tabName (some text) s).2 tabName tab') ↔
              UniqueIndexes copy (loadLines scan env copy tabName tab 0
                (getlines 10 text).tail env.fresh s).2 tabName tab := by
            simp only [loadTable, htab, if_neg hopen]
            exact ⟨fun h => h tab rfl, fun h tab' ht => by cases ht; exact h⟩
          have hcond : LoadsFresh scan copy s tabName env (some text) ↔
              FreshKeys copy tab.indexes (s.fhs tabName)
                (records scan env tab.cols 0 (getlines 10 text).tail env.fresh) ∧
                (GoesIn (s.fhs tabName) (records scan env tab.cols 0 (getlines 10 text).tail env.fresh) →
                  ¬ Rootless s tabName tab) := by
            refine ⟨fun h => h tab text htab rfl, fun h tab' text' ht hf => ?_⟩
            rw [htab] at ht
            cases ht
            cases hf
            exact h
          rw [hload, hcond]
          by_cases hroot : Rootless s tabName tab
          · by_cases hsome : GoesIn (s.fhs tabName)
              (records scan env tab.cols 0 (getlines 10 text).tail env.fresh)
            · exact iff_of_false
                (loadLines_rootless (hl.names tab htab) (hl.laid tab htab) hfile env.fresh_length hroot hsome)
                fun h => h.2 hsome hroot
            · obtain ⟨hkeep, hfresh⟩ := loadLines_nothing copy (hl.laid tab htab) hfile env.fresh_length hsome
              rw [hkeep]
              exact iff_of_true hsame ⟨hfresh, fun h => absurd h hsome⟩
          · rw [loadLines_keeps_iff (hl.names tab htab) (hl.laid tab htab) hfile env.fresh_length
              (open_of_rooted hs htab hroot)]
            exact ⟨fun h => ⟨h, fun _ => hroot⟩, And.left⟩

end Loop

section Example

def scanDigits (word : Bytes) : Option Int32 :=
  let digits := word.takeWhile fun b => 48 ≤ b ∧ b ≤ 57
  if digits = [] then none else some (Int32.ofNat (digits.foldl (fun n b => 10 * n + (b.toNat - 48)) 0))

def decimalScan : Sscanf := ⟨scanDigits, fun _ => none⟩

def zeroEnv (size : Nat) : LoadEnv size :=
  ⟨List.replicate size 0, fun _ _ => 0, fun _ => .error .incompatibleType, by simp, nofun⟩

def freshTable : SmManager fun cols => Rmdb.Key (intCharLayout cols) where
  tabs t := if t = "t" then some ⟨[⟨"t", "a", .int, 4, 0⟩], [[⟨"t", "a", .int, 4, 0⟩]]⟩ else none
  fhs _ := RmManager.openFile ⟨⟨4, 1, 987, rmNoPage, 124⟩, fun _ => none⟩
  ihs name := if name = "t_a.idx"
    then some ⟨[⟨"t", "a", .int, 4, 0⟩], emptyIndex _ ((4096 - 24) / (4 + 8) - 1)⟩ else none
  isFile name := name = "t" ∨ name = "t_a.idx"

theorem freshTable_tab {t : String} {tab : TabEntry} (h : freshTable.tabs t = some tab) :
    t = "t" ∧ tab = ⟨[⟨"t", "a", .int, 4, 0⟩], [[⟨"t", "a", .int, 4, 0⟩]]⟩ := by
  simp only [freshTable] at h
  split at h
  · rename_i ht
    cases h
    exact ⟨ht, rfl⟩
  · cases h

theorem freshTable_consistent : freshTable.Consistent copyBytes where
  file _ _ _ := openFile_inv (show RmManager.createFile 4 = .ok _ from rfl)
  named name h := by
    simp only [freshTable] at h ⊢
    split at h
    · rename_i hname
      simp [hname]
    · exact absurd rfl h
  index t tab cols ht hc := by
    obtain ⟨rfl, rfl⟩ := freshTable_tab ht
    obtain rfl := List.mem_singleton.1 hc
    refine ⟨_, rfl, .inl ?_⟩
    exact indexOf_emptyIndex (recordKey copyBytes [⟨"t", "a", .int, 4, 0⟩]) (show 4 ≤ 512 by decide)

theorem freshTable_laid : freshTable.WellLaid "t" where
  laid tab ht := by
    obtain ⟨-, rfl⟩ := freshTable_tab ht
    exact ⟨rfl, fun _ => rfl, rfl⟩
  names tab ht := by
    obtain ⟨-, rfl⟩ := freshTable_tab ht
    exact List.nodup_singleton _

theorem load_keeps_indexes_iff_one : freshTable.Consistent copyBytes ∧ freshTable.WellLaid "t" ∧
    ∀ tab, freshTable.tabs "t" = some tab →
      UniqueIndexes copyBytes
        (loadTable decimalScan (zeroEnv 4) copyBytes "t" (some [97, 10, 53, 10]) freshTable).2
        "t" tab := by
  refine ⟨freshTable_consistent, freshTable_laid, ?_⟩
  refine (load_keeps_indexes_iff decimalScan copyBytes freshTable "t"
    (zeroEnv 4) _ freshTable_consistent freshTable_laid).2 ?_
  intro tab text ht hf
  obtain ⟨-, rfl⟩ := freshTable_tab ht
  cases hf
  have hrecs : records decimalScan (zeroEnv 4) [⟨"t", "a", .int, 4, 0⟩] 0 (getlines 10 [97, 10, 53, 10]).tail
      (zeroEnv 4).fresh = [[5, 0, 0, 0]] := by decide
  refine ⟨?_, fun _ => ?_⟩
  · change FreshKeys copyBytes [[⟨"t", "a", .int, 4, 0⟩]] (freshTable.fhs "t")
      (records decimalScan (zeroEnv 4) [⟨"t", "a", .int, 4, 0⟩] 0 (getlines 10 [97, 10, 53, 10]).tail
        (zeroEnv 4).fresh)
    rw [hrecs, FreshKeys]
    split
    · trivial
    · exact ⟨fun cols _ r row hr => (nomatch hr), trivial⟩
  · rintro ⟨cols, hc, ih, hih, hem⟩
    obtain rfl := List.mem_singleton.1 hc
    cases hih
    exact absurd hem.root (by decide)

/-- The file `a`, `5`, `5`. -/
theorem same_line_twice : freshTable.Consistent copyBytes ∧ freshTable.WellLaid "t" ∧
    ¬ ∀ tab, freshTable.tabs "t" = some tab →
      UniqueIndexes copyBytes
        (loadTable decimalScan (zeroEnv 4) copyBytes "t" (some [97, 10, 53, 10, 53, 10]) freshTable).2
        "t" tab := by
  refine ⟨freshTable_consistent, freshTable_laid, fun h => ?_⟩
  obtain ⟨-, -, -, hd⟩ := h _ rfl _ (List.mem_singleton.2 rfl)
  have hrow : ∀ slot : Fin 2,
    ((loadTable decimalScan (zeroEnv 4) copyBytes "t" (some [97, 10, 53, 10, 53, 10])
      freshTable).2.fhs "t").entry ⟨1, slot⟩ = some [5, 0, 0, 0] := by decide
  exact absurd (hd ⟨1, 0⟩ ⟨1, 1⟩ _ _ (hrow 0) (hrow 1) rfl) (by decide)

end Example

end SmManager

end Rmdb
