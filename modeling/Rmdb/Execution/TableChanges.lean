import Rmdb.Execution.DmlExecutors
import Rmdb.Execution.Tuple
import Rmdb.Record.FreeSpace

namespace Rmdb

open Bitmap IxManager RmFileHandle

namespace RmFileHandle

variable {f : RmFileHandle} {rid : Rid} {buf : Bytes}

/-- A file whose next insert finds a free slot. -/
structure Sound (f : RmFileHandle) : Prop where
  inv : RmInv f
  out : f.FullOut
  roomy : f.Roomy f.fileHdr.firstFreePageNo

theorem Sound.insertFree (h : f.Sound) (hbuf : buf.length = f.fileHdr.recordSize) :
    ∃ rid f₀ f', f.getFreeRecord = (.ok rid, f₀) ∧ f₀.insertRecordAt rid buf = .ok f' ∧ f.entry rid = none ∧
      f'.entry = Function.update f.entry rid (some buf) ∧ f'.Sound ∧
      f'.fileHdr.recordSize = f.fileHdr.recordSize := by
  obtain ⟨p, f₀, page, hc, h₀, hout₀, hp, hlt, hroom₀, hhead⟩ := createPageHandle_room h.inv h.out h.roomy
  obtain ⟨res, f₁, hget, -, hentry, hext, hfree⟩ := getFreeRecord_spec h.inv
  have hrun : f.getFreeRecord =
      (.ok ⟨p, firstBit page.data bitmapStart false f₀.fileHdr.numRecordsPerPage⟩, f₀) := by
    simp only [getFreeRecord, hc, fetchPageHandle_eq hp, if_neg (Nat.ne_of_lt hlt)]
  obtain ⟨rfl, rfl⟩ := Prod.mk.inj (hget.symm.trans hrun)
  obtain ⟨hin, hnone⟩ := hfree _ rfl
  obtain ⟨f', hins, hentry', hinv⟩ := insertRecordAt_spec h₀ hin (hbuf.trans hext.recordSize.symm)
  obtain ⟨hout, hroom⟩ := insertRecordAt_room h₀ hout₀ (hhead ▸ hroom₀) hin hins
  refine ⟨_, f₁, f', hrun, hins, hnone, by rw [hentry', hentry], ⟨hinv, hout, hroom.2 fun _ => ?_⟩,
    (insertRecordAt_extends hin hins).recordSize.trans hext.recordSize⟩
  exact hroom₀.link (h₀.ne_noPage (by rw [hp]; simp))

theorem Sound.deleteRecord (h : f.Sound) (hlive : f.entry rid ≠ none) :
    ∃ f', f.deleteRecord rid = .ok f' ∧ f'.entry = Function.update f.entry rid none ∧ f'.Sound ∧
      f'.fileHdr.recordSize = f.fileHdr.recordSize := by
  have hin := inFile_of_entry hlive
  obtain ⟨f', hrun, hentry, hinv⟩ := deleteRecord_spec h.inv hin
  obtain ⟨hout, hroom⟩ := deleteRecord_room h.inv h.out h.roomy hin hrun
  have hplain : (RmOp.delete rid).Plain f := hlive
  exact ⟨f', hrun, hentry, ⟨hinv, hout, hroom.2 hplain.keepsRoom⟩, (deleteRecord_extends hin hrun).recordSize⟩

theorem Sound.updateRecord (h : f.Sound) (hlive : f.entry rid ≠ none)
    (hbuf : buf.length = f.fileHdr.recordSize) :
    ∃ f', f.updateRecord rid buf = .ok f' ∧ f'.entry = Function.update f.entry rid (some buf) ∧ f'.Sound ∧
      f'.fileHdr.recordSize = f.fileHdr.recordSize := by
  have hin := inFile_of_entry hlive
  obtain ⟨f', hrun, hentry, hinv⟩ := updateRecord_spec h.inv hin hbuf
  obtain ⟨hout, hroom⟩ := updateRecord_room h.out h.roomy hin hrun
  obtain ⟨old, hold⟩ := Option.ne_none_iff_exists'.1 hlive
  obtain ⟨page, hp⟩ := Option.ne_none_iff_exists'.1 hin.page
  refine ⟨f', hrun, by rw [hentry, hold]; rfl, ⟨hinv, hout, hroom⟩, ?_⟩
  rw [RmFileHandle.updateRecord, fetchPageHandle_eq hp] at hrun
  cases hrun
  rfl

end RmFileHandle

section Keys

variable {ix : IndexMeta} {record record' : Bytes}

theorem IndexMeta.key_val (hin : ∀ c ∈ ix.cols, c.offset + c.len ≤ record.length) :
    (ix.key record).1 = ix.rowKey record := by
  have hlen : (ix.rowKey record).length = colTotLen ix.layout.cols := (Fields.of_slices hin).length_flatten
  exact List.take_left' hlen

end Keys

def Keyed (indexes : List OpenIx) (L : Rid → Option Bytes) : Prop := ∀ p ∈ indexes, IndexOf p.2 p.1.key L

def FreshKey (ix : IndexMeta) (L : Rid → Option Bytes) (record : Bytes) : Prop :=
  ∀ q row, L q = some row → ix.key row ≠ ix.key record

section Loops

variable {L : Rid → Option Bytes} {rid : Rid} {record old new : Bytes} {indexes done : List OpenIx}
  {fh : RmFileHandle}

theorem keyed_cons {p : OpenIx} : Keyed (p :: indexes) L ↔ IndexOf p.2 p.1.key L ∧ Keyed indexes L :=
  List.forall_mem_cons

/-- The keys of a row that goes come out of all indexes, as long as another row stays. -/
theorem deleteKeys_spec (h : Keyed indexes L) (hrow : L rid = some record)
    (hother : indexes ≠ [] → ∃ q, q ≠ rid ∧ L q ≠ none) :
    ∃ indexes', deleteKeys record indexes = (.ok (), indexes') ∧
      indexes'.map Sigma.fst = indexes.map Sigma.fst ∧
      Keyed indexes' (Function.update L rid none) := by
  induction indexes with
  | nil => exact ⟨[], rfl, rfl, by simp [Keyed]⟩
  | cons p indexes ih =>
      obtain ⟨ix, handle⟩ := p
      obtain ⟨hhead, htail⟩ := keyed_cons.1 h
      have hstay := hother (by simp)
      obtain ⟨handle', hrun, hindex⟩ := hhead.delete hrow hstay (.inl rfl)
      obtain ⟨indexes', hrest, hmetas, hkeyed⟩ := ih htail fun _ => hstay
      refine ⟨⟨ix, handle'⟩ :: indexes', ?_, ?_, keyed_cons.2 ⟨hindex, hkeyed⟩⟩
      · simp only [deleteKeys, hrun, hrest]
      · rw [List.map_cons, List.map_cons, hmetas]

theorem InsertExecutor.insertKeys_spec (h : Keyed indexes L) (hfree : L rid = none)
    (hfresh : ∀ p ∈ indexes, FreshKey p.1 L record) (fh : RmFileHandle) (done : List OpenIx) :
    ∃ indexes', insertKeys rid record fh done indexes = (.ok (), fh, done ++ indexes') ∧
      indexes'.map Sigma.fst = indexes.map Sigma.fst ∧
      Keyed indexes' (Function.update L rid (some record)) := by
  induction indexes generalizing done with
  | nil => exact ⟨[], by rw [insertKeys, List.append_nil], rfl, by simp [Keyed]⟩
  | cons p indexes ih =>
      obtain ⟨ix, handle⟩ := p
      obtain ⟨hhead, htail⟩ := keyed_cons.1 h
      obtain ⟨page, handle', hrun, hindex⟩ := hhead.insert hfree (hfresh _ List.mem_cons_self)
      obtain ⟨indexes', hrest, hmetas, hkeyed⟩ := ih htail (fun p hp => hfresh p (List.mem_cons_of_mem _ hp))
        (done ++ [⟨ix, handle'⟩])
      refine ⟨⟨ix, handle'⟩ :: indexes', ?_, ?_, keyed_cons.2 ⟨hindex, hkeyed⟩⟩
      · simp only [insertKeys, hrun]
        rw [hrest, List.append_assoc, List.singleton_append]
      · rw [List.map_cons, List.map_cons, hmetas]

/-- With a key that one of the indexes has, all is as it was. -/
theorem InsertExecutor.insertKeys_dup {fh' : RmFileHandle} (h : Keyed indexes L)
    (hdone : Keyed done (Function.update L rid (some record))) (hfree : L rid = none)
    (hdup : ∃ p ∈ indexes, ¬ FreshKey p.1 L record) (hdel : fh.deleteRecord rid = .ok fh') :
    ∃ indexes', insertKeys rid record fh done indexes = (.error .indexDuplicateKey, fh', indexes') ∧
      indexes'.map Sigma.fst = (done ++ indexes).map Sigma.fst ∧ Keyed indexes' L := by
  induction indexes generalizing done with
  | nil =>
      obtain ⟨p, hp, -⟩ := hdup
      cases hp
  | cons p indexes ih =>
      obtain ⟨ix, handle⟩ := p
      obtain ⟨hhead, htail⟩ := keyed_cons.1 h
      by_cases hfresh : FreshKey ix L record
      · obtain ⟨page, handle', hrun, hindex⟩ := hhead.insert hfree hfresh
        have hdone' : Keyed (done ++ [⟨ix, handle'⟩]) (Function.update L rid (some record)) := fun p hp =>
          (List.mem_append.1 hp).elim (hdone p) fun hp => List.mem_singleton.1 hp ▸ hindex
        obtain ⟨p, hp, hkey⟩ := hdup
        have hrest : ∃ p ∈ indexes, ¬ FreshKey p.1 L record := by
          rcases List.mem_cons.1 hp with rfl | hp
          · exact absurd hfresh hkey
          · exact ⟨p, hp, hkey⟩
        obtain ⟨indexes', hfail, hmetas, hkeyed⟩ := ih htail hdone' hrest
        refine ⟨indexes', ?_, by rw [hmetas]; simp, hkeyed⟩
        simp only [insertKeys, hrun]
        exact hfail
      · -- The row that has the key stays in the indexes before this one.
        obtain ⟨q, row, hq, hkey⟩ : ∃ q row, L q = some row ∧ ix.key row = ix.key record := by
          simpa [FreshKey] using hfresh
        obtain ⟨page, handle', hrun, hindex⟩ := hhead.insert_dup hq hkey rid
        have hne : q ≠ rid := fun hc => by
          rw [hc, hfree] at hq
          cases hq
        obtain ⟨done', hback, hmetas, hkeyed⟩ := deleteKeys_spec hdone (Function.update_self _ _ _) fun _ =>
          ⟨q, hne, by rw [Function.update_of_ne hne, hq]; exact Option.some_ne_none _⟩
        rw [Function.update_idem, ← hfree, Function.update_eq_self] at hkeyed
        refine ⟨done' ++ ⟨ix, handle'⟩ :: indexes, ?_, by simp [hmetas], fun p hp => ?_⟩
        · simp only [insertKeys, hrun, hdel, hback]
          rfl
        · rcases List.mem_append.1 hp with hp | hp
          · exact hkeyed p hp
          · rcases List.mem_cons.1 hp with rfl | hp
            · exact hindex
            · exact htail p hp

/-- An index that has no column in the SET list keeps the key; of the others each has one column
there, and gets a new key. -/
theorem UpdateExecutor.updateKeys_spec {clauses : List SetClause} (h : Keyed indexes L)
    (hrow : L rid = some old) (hset : ∀ p ∈ indexes, setCount clauses p.1 = 0 ∧ p.1.key new = p.1.key old ∨
      setCount clauses p.1 = 1 ∧ FreshKey p.1 L new) :
    ∃ indexes', updateKeys clauses rid old new indexes = (.ok (), indexes') ∧
      indexes'.map Sigma.fst = indexes.map Sigma.fst ∧ Keyed indexes' (Function.update L rid (some new)) := by
  induction indexes with
  | nil => exact ⟨[], rfl, rfl, by simp [Keyed]⟩
  | cons p indexes ih =>
      obtain ⟨ix, handle⟩ := p
      obtain ⟨hhead, htail⟩ := keyed_cons.1 h
      obtain ⟨indexes', hrest, hmetas, hkeyed⟩ := ih htail fun p hp => hset p (List.mem_cons_of_mem _ hp)
      have hentry : ∃ handle', updateEntry rid old new ix (setCount clauses ix) handle = (.ok (), handle') ∧
          IndexOf handle' ix.key (Function.update L rid (some new)) := by
        rcases hset _ List.mem_cons_self with ⟨hcount, hkey⟩ | ⟨hcount, hfresh⟩
        · exact ⟨handle, by rw [hcount, updateEntry], hhead.congr hrow hkey⟩
        · obtain ⟨page, handle₁, handle₂, hins, hdel, hindex⟩ := hhead.move hrow hfresh
          refine ⟨handle₂, ?_, hindex⟩
          rw [hcount]
          simp only [updateEntry, hins, hdel]
      obtain ⟨handle', hrun, hindex⟩ := hentry
      refine ⟨⟨ix, handle'⟩ :: indexes', ?_, ?_, keyed_cons.2 ⟨hindex, hkeyed⟩⟩
      · simp only [updateKeys, hrun, hrest]
      · rw [List.map_cons, List.map_cons, hmetas]

end Loops

namespace OpenTable

/-- A table as its statements leave it: the file has room, every record is that of a tuple, and
the indexes are those of the records. -/
structure Inv (o : OpenTable) : Prop where
  laid : o.table.Laid
  sound : o.table.fh.Sound
  typed : ∀ r record, o.table.fh.entry r = some record →
    ∃ tup, Tuple.Typed o.table.cols tup ∧ record = Tuple.encode o.table.cols tup
  found : ∀ p ∈ o.indexes, ∀ c ∈ p.1.cols, getCol o.table.cols ⟨c.tabName, c.name⟩ = .ok c
  keyed : Keyed o.indexes o.table.fh.entry

structure Becomes (o o' : OpenTable) (L : Rid → Option Bytes) : Prop where
  inv : o'.Inv
  name : o'.table.tabName = o.table.tabName
  cols : o'.table.cols = o.table.cols
  metas : o'.indexes.map Sigma.fst = o.indexes.map Sigma.fst
  entry : o'.table.fh.entry = L

variable {o o' o'' : OpenTable} {L L' : Rid → Option Bytes} {rid : Rid} {record : Bytes} {tup : Tuple}

theorem Inv.refl (h : o.Inv) : o.Becomes o o.table.fh.entry := ⟨h, rfl, rfl, rfl, rfl⟩

theorem Becomes.trans (h : o.Becomes o' L) (h' : o'.Becomes o'' L') : o.Becomes o'' L' :=
  ⟨h'.inv, h'.name.trans h.name, h'.cols.trans h.cols, h'.metas.trans h.metas, h'.entry⟩

theorem Becomes.ix_mem (h : o.Becomes o' L) {p : OpenIx} (hp : p ∈ o'.indexes) :
    ∃ q ∈ o.indexes, q.1 = p.1 := by
  have hmem : p.1 ∈ o'.indexes.map Sigma.fst := List.mem_map_of_mem hp
  rw [h.metas] at hmem
  exact List.mem_map.1 hmem

namespace Inv

theorem wide (h : o.Inv) : ∀ col ∈ o.table.cols, col.Wide := h.laid.width

theorem length (h : o.Inv) (ht : Tuple.Typed o.table.cols tup) :
    (Tuple.encode o.table.cols tup).length = o.table.fh.fileHdr.recordSize := by
  rw [Tuple.encode_length ht h.wide, h.laid.recordSize]

theorem inside (h : o.Inv) {p : OpenIx} (hp : p ∈ o.indexes) (ht : Tuple.Typed o.table.cols tup) :
    ∀ c ∈ p.1.cols, c.offset + c.len ≤ (Tuple.encode o.table.cols tup).length := by
  intro c hc
  rw [Tuple.encode_length ht h.wide]
  exact (Tuple.inside h.laid.placed h.wide (Database.mem_of_getCol (h.found p hp c hc))).bound

theorem key_eq_iff (h : o.Inv) {p : OpenIx} (hp : p ∈ o.indexes) {tup' : Tuple}
    (ht : Tuple.Typed o.table.cols tup) (ht' : Tuple.Typed o.table.cols tup') :
    p.1.key (Tuple.encode o.table.cols tup) = p.1.key (Tuple.encode o.table.cols tup') ↔
      Tuple.key o.table.cols p.1 tup = Tuple.key o.table.cols p.1 tup' := by
  rw [← Tuple.rowKey_eq_iff h.laid.placed h.wide ht ht' (h.found p hp), ← IndexMeta.key_val (h.inside hp ht),
    ← IndexMeta.key_val (h.inside hp ht')]
  exact ⟨congrArg Subtype.val, Subtype.ext⟩

theorem becomes (h : o.Inv) {fh : RmFileHandle} {indexes : List OpenIx} (hsound : fh.Sound)
    (hsize : fh.fileHdr.recordSize = o.table.fh.fileHdr.recordSize)
    (htyped : ∀ r record, fh.entry r = some record → ∃ tup, Tuple.Typed o.table.cols tup ∧
      record = Tuple.encode o.table.cols tup)
    (hmetas : indexes.map Sigma.fst = o.indexes.map Sigma.fst) (hkeyed : Keyed indexes fh.entry) :
    o.Becomes ⟨{ o.table with fh := fh }, indexes⟩ fh.entry := by
  refine ⟨⟨⟨hsound.inv, h.laid.nonempty, h.laid.named, h.laid.placed, h.laid.width,
    hsize.trans h.laid.recordSize⟩, hsound, htyped,
    fun p hp => ?_, hkeyed⟩, rfl, rfl, hmetas, rfl⟩
  have hmem : p.1 ∈ indexes.map Sigma.fst := List.mem_map_of_mem hp
  rw [hmetas] at hmem
  obtain ⟨q, hq, heq⟩ := List.mem_map.1 hmem
  rw [← heq]
  exact h.found q hq

theorem typed_update (h : o.Inv) (ht : Tuple.Typed o.table.cols tup) :
    ∀ r record, Function.update o.table.fh.entry rid (some (Tuple.encode o.table.cols tup)) r = some record →
      ∃ tup, Tuple.Typed o.table.cols tup ∧ record = Tuple.encode o.table.cols tup := by
  intro r record hr
  by_cases hrr : r = rid
  · rw [hrr, Function.update_self, Option.some.injEq] at hr
    exact ⟨tup, ht, hr.symm⟩
  · rw [Function.update_of_ne hrr] at hr
    exact h.typed r record hr

theorem typed_delete (h : o.Inv) : ∀ r record, Function.update o.table.fh.entry rid none r = some record →
    ∃ tup, Tuple.Typed o.table.cols tup ∧ record = Tuple.encode o.table.cols tup := by
  intro r record hr
  by_cases hrr : r = rid
  · rw [hrr, Function.update_self] at hr
    cases hr
  · rw [Function.update_of_ne hrr] at hr
    exact h.typed r record hr

end Inv

end OpenTable

section Statements

open OpenTable

variable {o : OpenTable} {rids : List Rid} {tup : Tuple}

def without (L : Rid → Option Bytes) (rids : List Rid) :
    Rid → Option Bytes := fun r => if r ∈ rids then none else L r

theorem without_cons (L : Rid → Option Bytes) (rid : Rid) (rids : List Rid) :
    without (Function.update L rid none) rids = without L (rid :: rids) := by
  funext r
  by_cases hr : r = rid
  · subst hr
    simp [without]
  · simp [without, hr]

theorem DeleteExecutor.next_spec (h : o.Inv) (hnd : rids.Nodup)
    (hlive : ∀ r ∈ rids, o.table.fh.entry r ≠ none)
    (hother : o.indexes ≠ [] → rids ≠ [] → ∃ q, q ∉ rids ∧ o.table.fh.entry q ≠ none) :
    ∃ o', next rids o = (.ok (), o') ∧ o.Becomes o' (without o.table.fh.entry rids) := by
  induction rids generalizing o with
  | nil =>
      refine ⟨o, rfl, ?_⟩
      have hnone : without o.table.fh.entry [] = o.table.fh.entry := by
        funext r
        simp [without]
      rw [hnone]
      exact h.refl
  | cons rid rids ih =>
      obtain ⟨hnot, hnd⟩ := List.nodup_cons.1 hnd
      have hrid := hlive rid List.mem_cons_self
      obtain ⟨record, hrecord⟩ := Option.ne_none_iff_exists'.1 hrid
      obtain ⟨fh, hdel, hentry, hsound, hsize⟩ := h.sound.deleteRecord hrid
      obtain ⟨indexes, hkeys, hmetas, hkeyed⟩ := deleteKeys_spec h.keyed hrecord fun hne => by
        obtain ⟨q, hq, hqlive⟩ := hother hne (List.cons_ne_nil rid rids)
        exact ⟨q, fun hc => hq (hc ▸ List.mem_cons_self), hqlive⟩
      rw [← hentry] at hkeyed
      have hstep := h.becomes hsound hsize (by rw [hentry]; exact h.typed_delete) hmetas hkeyed
      have hkept : ∀ r, r ≠ rid → fh.entry r = o.table.fh.entry r := fun r hr => by
        rw [hentry, Function.update_of_ne hr]
      obtain ⟨o', hrun, hrest⟩ := ih hstep.inv hnd
        (fun r hr =>
          by rw [hkept r (ne_of_mem_of_not_mem hr hnot)]; exact hlive r (List.mem_cons_of_mem rid hr))
        (fun hne _ => by
          obtain ⟨q, hq, hqlive⟩ :=
            hother (fun hc => hne (List.map_eq_nil_iff.1 (hmetas.trans (congrArg _ hc))))
            (List.cons_ne_nil rid rids)
          have hqrid : q ≠ rid := fun hc => hq (hc ▸ List.mem_cons_self)
          exact ⟨q, fun hc => hq (List.mem_cons_of_mem rid hc), by rw [hkept q hqrid]; exact hqlive⟩)
      refine ⟨o', ?_, ?_⟩
      · simp only [next, getRecord_of_entry hrecord, hdel, hkeys, hrun]
      · have htrans := hstep.trans hrest
        rwa [hentry, without_cons] at htrans

def changed (L : Rid → Option Bytes) (f : Bytes → Bytes) (rids : List Rid) : Rid → Option Bytes :=
  fun r => if r ∈ rids then (L r).map f else L r

theorem changed_cons {L : Rid → Option Bytes} {f : Bytes → Bytes} {rid : Rid} {rids : List Rid}
    {record : Bytes} (hnot : rid ∉ rids) (hrecord : L rid = some record) :
    changed (Function.update L rid (some (f record))) f rids = changed L f (rid :: rids) := by
  funext r
  by_cases hr : r = rid
  · subst hr
    simp [changed, hnot, hrecord]
  · simp [changed, hr]

namespace UpdateExecutor

variable {clauses : List SetClause} {fields : List (ColMeta × Bytes)} {L : Rid → Option Bytes}
  {f : Bytes → Bytes} {rid : Rid} {record : Bytes} {ix : IndexMeta}

/-- An index with no column in the SET list, whose keys stay; or with one, where the rows get keys
that no row has and that differ from each other. -/
def Moves (clauses : List SetClause) (f : Bytes → Bytes) (L : Rid → Option Bytes) (rids : List Rid)
    (ix : IndexMeta) : Prop :=
  setCount clauses ix = 0 ∧ (∀ r ∈ rids, ∀ record, L r = some record → ix.key (f record) = ix.key record) ∨
    setCount clauses ix = 1 ∧ (∀ r ∈ rids, ∀ record, L r = some record → FreshKey ix L (f record)) ∧
      ∀ r ∈ rids, ∀ r' ∈ rids, ∀ record record', L r = some record → L r' = some record' → r ≠ r' →
        ix.key (f record) ≠ ix.key (f record')

theorem Moves.head (h : Moves clauses f L (rid :: rids) ix) (hrecord : L rid = some record) :
    setCount clauses ix = 0 ∧ ix.key (f record) = ix.key record ∨ setCount clauses ix = 1 ∧
    FreshKey ix L (f record) :=
  h.imp (fun hc => ⟨hc.1, hc.2 rid List.mem_cons_self record hrecord⟩)
    fun hc => ⟨hc.1, hc.2.1 rid List.mem_cons_self record hrecord⟩

theorem Moves.tail (h : Moves clauses f L (rid :: rids) ix) (hnot : rid ∉ rids)
    (hrecord : L rid = some record) :
    Moves clauses f (Function.update L rid (some (f record))) rids ix := by
  have hkept : ∀ r ∈ rids, Function.update L rid (some (f record)) r = L r := fun r hr =>
    Function.update_of_ne (ne_of_mem_of_not_mem hr hnot) ..
  refine h.imp (fun hc => ⟨hc.1, fun r hr rec hrec => ?_⟩) fun hc => ⟨hc.1, fun r hr rec hrec => ?_, ?_⟩
  · exact hc.2 r (List.mem_cons_of_mem rid hr) rec ((hkept r hr).symm.trans hrec)
  · have hold : L r = some rec := (hkept r hr).symm.trans hrec
    intro s row hs
    by_cases hsr : s = rid
    · rw [hsr, Function.update_self, Option.some.injEq] at hs
      rw [← hs]
      exact hc.2.2 rid List.mem_cons_self r (List.mem_cons_of_mem rid hr) record rec hrecord hold
        (ne_of_mem_of_not_mem hr hnot).symm
    · rw [Function.update_of_ne hsr] at hs
      exact hc.2.1 r (List.mem_cons_of_mem rid hr) rec hold s row hs
  · intro r hr r' hr' rec rec' hrec hrec'
    exact hc.2.2 r (List.mem_cons_of_mem rid hr) r' (List.mem_cons_of_mem rid hr') rec rec'
      ((hkept r hr).symm.trans hrec) ((hkept r' hr').symm.trans hrec')

def Retypes (cols : List ColMeta) (f : Bytes → Bytes) : Prop :=
  ∀ tup, Tuple.Typed cols tup → ∃ tup', Tuple.Typed cols tup' ∧
    f (Tuple.encode cols tup) = Tuple.encode cols tup'

theorem next_spec (h : o.Inv) (hnd : rids.Nodup) (hlive : ∀ r ∈ rids, o.table.fh.entry r ≠ none)
    (htyped : Retypes o.table.cols (setRecord fields))
    (hset : ∀ p ∈ o.indexes, Moves clauses (setRecord fields) o.table.fh.entry rids p.1) :
    ∃ o', next clauses fields rids o = (.ok (), o') ∧
      o.Becomes o' (changed o.table.fh.entry (setRecord fields) rids) := by
  induction rids generalizing o with
  | nil =>
      refine ⟨o, rfl, ?_⟩
      have hnone : changed o.table.fh.entry (setRecord fields) [] = o.table.fh.entry := by
        funext r
        simp [changed]
      rw [hnone]
      exact h.refl
  | cons rid rids ih =>
      obtain ⟨hnot, hnd⟩ := List.nodup_cons.1 hnd
      have hrid := hlive rid List.mem_cons_self
      obtain ⟨record, hrecord⟩ := Option.ne_none_iff_exists'.1 hrid
      obtain ⟨tup, ht, heq⟩ := h.typed rid record hrecord
      obtain ⟨tup', ht', hnew⟩ := htyped tup ht
      rw [← heq] at hnew
      have hlen : (setRecord fields record).length = o.table.fh.fileHdr.recordSize :=
        by rw [hnew]; exact h.length ht'
      obtain ⟨fh, hupd, hentry, hsound, hsize⟩ := h.sound.updateRecord hrid hlen
      obtain ⟨indexes, hkeys, hmetas, hkeyed⟩ :=
        updateKeys_spec h.keyed hrecord fun p hp => (hset p hp).head hrecord
      rw [← hentry] at hkeyed
      have hstep := h.becomes hsound hsize (by rw [hentry, hnew]; exact h.typed_update ht') hmetas hkeyed
      have hkept : ∀ r ∈ rids, fh.entry r = o.table.fh.entry r := fun r hr => by
        rw [hentry, Function.update_of_ne (ne_of_mem_of_not_mem hr hnot)]
      have hmoves : ∀ p ∈ indexes, Moves clauses (setRecord fields) fh.entry rids p.1 := by
        intro p hp
        obtain ⟨q, hq, hqp⟩ := hstep.ix_mem hp
        rw [← hqp, hentry]
        exact (hset q hq).tail hnot hrecord
      obtain ⟨o', hrun, hrest⟩ := ih hstep.inv hnd
        (fun r hr => by rw [hkept r hr]; exact hlive r (List.mem_cons_of_mem rid hr)) htyped hmoves
      refine ⟨o', ?_, ?_⟩
      · simp only [next, getRecord_of_entry hrecord, hupd, hkeys, hrun]
      · have htrans := hstep.trans hrest
        rwa [hentry, changed_cons hnot hrecord] at htrans

end UpdateExecutor

end Statements

def OpenTable.bag (o : OpenTable) : Multiset Tuple :=
  ↑(o.table.rows.map fun row => Tuple.decode o.table.cols row.2)

section Bag

variable {tab : Table} {rows : List (Rid × Bytes)} {o o' : OpenTable} {rid : Rid}
  {record : Bytes} {rids : List Rid}

theorem rows_perm (h : RmInv tab.fh) (hnd : rows.Nodup)
    (hmem : ∀ r record, (r, record) ∈ rows ↔ tab.fh.entry r = some record) :
    tab.rows.Perm rows :=
  (List.perm_ext_iff_of_nodup nodup_rows hnd).2 fun row => (mem_rows h).trans (hmem row.1 row.2).symm

theorem fst_nodup : (tab.rows.map Prod.fst).Nodup := by
  rw [Table.rows, List.map_map]
  exact (List.map_id tab.fh.rids).symm ▸ nodup_rids

theorem bag_eq {L : Rid → Option Bytes} (h : o.Becomes o' L) (rows : List (Rid × Bytes)) (hnd : rows.Nodup)
    (hmem : ∀ r record, (r, record) ∈ rows ↔ L r = some record) :
    o'.bag = ↑(rows.map fun row => Tuple.decode o.table.cols row.2) := by
  have hperm : o'.table.rows.Perm rows := rows_perm h.inv.sound.inv hnd (by rw [h.entry]; exact hmem)
  rw [OpenTable.bag, h.cols, Multiset.coe_eq_coe]
  exact hperm.map _

theorem bag_insert (h : o.Inv) (hfree : o.table.fh.entry rid = none)
    (hb : o.Becomes o' (Function.update o.table.fh.entry rid (some record))) :
    o'.bag = Tuple.decode o.table.cols record ::ₘ o.bag := by
  refine bag_eq hb ((rid, record) :: o.table.rows)
    (List.nodup_cons.2 ⟨fun hc => ?_, nodup_rows⟩) fun r rec => ?_
  · rw [mem_rows h.sound.inv, hfree] at hc
    cases hc
  · rw [List.mem_cons, mem_rows h.sound.inv, Prod.mk.injEq]
    by_cases hr : r = rid
    · subst hr
      simp [hfree, eq_comm]
    · simp [hr]

theorem bag_without (h : o.Inv) (hb : o.Becomes o' (without o.table.fh.entry rids)) {test : Tuple → Bool}
    (hsel : ∀ row ∈ o.table.rows, row.1 ∈ rids ↔ test (Tuple.decode o.table.cols row.2) = true) :
    o'.bag = o.bag.filter fun tup => test tup = false := by
  rw [bag_eq hb (o.table.rows.filter fun row => row.1 ∉ rids) (nodup_rows.filter _) fun r rec => ?_,
    OpenTable.bag, Multiset.filter_coe, Multiset.coe_eq_coe, List.filter_map]
  · refine List.Perm.of_eq (congrArg _ (List.filter_congr fun row hrow => ?_))
    have hrow' := hsel row hrow
    cases htest : test (Tuple.decode o.table.cols row.2) <;> simp [htest, hrow']
  · rw [List.mem_filter, mem_rows h.sound.inv, without]
    by_cases hr : r ∈ rids <;> simp [hr]

theorem bag_changed (h : o.Inv) {f : Bytes → Bytes} (hb : o.Becomes o' (changed o.table.fh.entry f rids))
    {test : Tuple → Bool} {g : Tuple → Tuple}
    (hsel : ∀ row ∈ o.table.rows, row.1 ∈ rids ↔ test (Tuple.decode o.table.cols row.2) = true)
    (hg : ∀ row ∈ o.table.rows, Tuple.decode o.table.cols (f row.2) =
      g (Tuple.decode o.table.cols row.2)) :
    o'.bag = o.bag.map fun tup => if test tup = true then g tup else tup := by
  rw [bag_eq hb (o.table.rows.map fun row => (row.1, if row.1 ∈ rids then f row.2 else row.2))
    ?_ fun r rec => ?_, OpenTable.bag, Multiset.map_coe, Multiset.coe_eq_coe, List.map_map, List.map_map]
  · refine List.Perm.of_eq (List.map_congr_left fun row hrow => ?_)
    simp only [Function.comp_apply]
    by_cases hr : row.1 ∈ rids
    · rw [if_pos hr, if_pos ((hsel row hrow).1 hr), hg row hrow]
    · rw [if_neg hr, if_neg fun hc => hr ((hsel row hrow).2 hc)]
  · refine List.Nodup.of_map Prod.fst ?_
    rw [List.map_map]
    exact fst_nodup
  · simp only [List.mem_map, Prod.mk.injEq, changed]
    constructor
    · rintro ⟨row, hrow, rfl, rfl⟩
      have hentry := (mem_rows h.sound.inv).1 (show (row.1, row.2) ∈ o.table.rows from hrow)
      by_cases hr : row.1 ∈ rids <;> simp [hr, hentry]
    · intro hrec
      by_cases hr : r ∈ rids
      · rw [if_pos hr] at hrec
        obtain ⟨old, hold, rfl⟩ := Option.map_eq_some_iff.1 hrec
        exact ⟨(r, old), (mem_rows h.sound.inv).2 hold, rfl, if_pos hr⟩
      · rw [if_neg hr] at hrec
        exact ⟨(r, rec), (mem_rows h.sound.inv).2 hrec, rfl, if_neg hr⟩

end Bag

theorem DeleteExecutor.delete_spec {o : OpenTable} {rids : List Rid} {test : Tuple → Bool} (h : o.Inv)
    (hnd : rids.Nodup) (hlive : ∀ r ∈ rids, o.table.fh.entry r ≠ none)
    (hsel : ∀ row ∈ o.table.rows, row.1 ∈ rids ↔ test (Tuple.decode o.table.cols row.2) = true)
    (hstay : o.indexes ≠ [] → (∃ tup ∈ o.bag, test tup = true) → ∃ tup ∈ o.bag, test tup = false) :
    ∃ o' L, next rids o = (.ok (), o') ∧ o.Becomes o' L ∧
      o'.bag = o.bag.filter fun tup => test tup = false := by
  obtain ⟨o', hrun, hb⟩ := next_spec h hnd hlive fun hne hrids => by
    obtain ⟨r, hr⟩ := List.exists_mem_of_ne_nil rids hrids
    obtain ⟨record, hrecord⟩ := Option.ne_none_iff_exists'.1 (hlive r hr)
    have hrow := (mem_rows h.sound.inv).2 hrecord
    obtain ⟨tup, htup, htest⟩ := hstay hne ⟨_, List.mem_map_of_mem hrow, (hsel _ hrow).1 hr⟩
    obtain ⟨row, hstays, rfl⟩ := List.mem_map.1 htup
    refine ⟨row.1, fun hc => ?_, ?_⟩
    · rw [(hsel row hstays).1 hc] at htest
      cases htest
    · rw [(mem_rows h.sound.inv).1 (show (row.1, row.2) ∈ o.table.rows from hstays)]
      exact Option.some_ne_none _
  exact ⟨o', _, hrun, hb, bag_without h hb hsel⟩

def Tuple.ofValues (cols : List ColMeta) (vals : List Value) : Tuple :=
  List.zipWith (fun col v => Datum.ofValue col.type v) cols vals

def Tuple.insertRows (cols : List ColMeta) (metas : List IndexMeta) :
    List (List Value) → Multiset Tuple → Except DmlError Unit × Multiset Tuple
  | [], bag => (.ok (), bag)
  | vals :: values, bag =>
      if ∃ ix ∈ metas, key cols ix (ofValues cols vals) ∈ bag.map (key cols ix)
        then (.error .indexDuplicateKey, bag)
      else insertRows cols metas values (ofValues cols vals ::ₘ bag)

def Fitting (cols : List ColMeta) (vals : List Value) : Prop :=
  List.Forall₂ (fun col v => col.Takes v) cols vals

namespace InsertExecutor

variable {col : ColMeta} {cols : List ColMeta} {v : Value} {vals : List Value}
  {values : List (List Value)} {buf pre rest : Bytes} {n : Nat} {o : OpenTable}

theorem isMatch_takes (h : col.Takes v) : isMatch col.type v.type = true := by
  cases v with
  | int i => rcases h with h | h <;> rw [h] <;> rfl
  | float x => rcases h with h | h <;> rw [h] <;> rfl
  | string s n => rw [h.1]; rfl

theorem initRaw_takes (h : col.Takes v) (hw : col.Wide) :
    (v.tryCastTo col.type).initRaw col.len = .ok ((Datum.ofValue col.type v).bytes col.len) := by
  cases v with
  | int i =>
      have hlen := hw h
      rcases h with h | h <;> rw [h] <;>
        simp [Value.tryCastTo, Value.initRaw, Datum.ofValue, Datum.bytes, floatBytes, hlen]
  | float x =>
      have hlen := hw h
      rcases h with h | h <;> rw [h] <;>
        simp [Value.tryCastTo, Value.initRaw, Datum.ofValue, Datum.bytes, floatBytes, hlen]
  | string s n =>
      have hle : ¬ col.len < s.length := Nat.not_lt.2 h.2.2
      have hcast : (Value.string s n).tryCastTo col.type = .string s n := by rw [h.1]; rfl
      rw [hcast, Value.initRaw, if_neg hle]
      rfl

theorem typed_ofValues (h : Fitting cols vals) : Tuple.Typed cols (Tuple.ofValues cols vals) := by
  induction h with
  | nil => exact .nil
  | cons hv _ ih => exact .cons (Datum.fits_ofValue hv) ih

theorem fill_spec (h : Fitting cols vals) (hw : ∀ col ∈ cols, col.Wide)
    (hplaced : ColMeta.place n cols = cols) (hpre : pre.length = n) (hrest : rest.length = recordWidth cols) :
    fill cols vals (pre ++ rest) = .ok (pre ++ Tuple.encode cols (Tuple.ofValues cols vals)) := by
  induction h generalizing pre rest n with
  | nil =>
      obtain rfl := List.length_eq_zero_iff.1 hrest
      rfl
  | @cons col v cols vals hv _ ih =>
      have hcol := hw col List.mem_cons_self
      obtain ⟨hhead, htail⟩ := List.cons.inj hplaced
      have hoff : n = col.offset := congrArg ColMeta.offset hhead
      have hlen := (Datum.fits_ofValue hv).length hcol
      have hwidth : recordWidth (col :: cols) = col.len + recordWidth cols := rfl
      have hcopy : copyInto (pre ++ rest) col.offset ((Datum.ofValue col.type v).bytes col.len) =
          (pre ++ (Datum.ofValue col.type v).bytes col.len) ++ rest.drop col.len := by
        rw [copyInto, ← hoff, ← hpre, List.take_left, List.drop_append, hlen]
        simp
      rw [fill, if_neg (by rw [isMatch_takes hv]; simp), initRaw_takes hv hcol]
      simp only
      rw [hcopy, ih (fun c hc => hw c (List.mem_cons_of_mem col hc)) htail
        (by rw [List.length_append, hlen, hpre])
        (by rw [List.length_drop, hrest, hwidth, Nat.add_sub_cancel_left]), List.append_assoc]
      rfl

theorem fill_fresh (h : o.Inv) (hv : Fitting o.table.cols vals)
    (hbuf : buf.length = o.table.fh.fileHdr.recordSize) :
    fill o.table.cols vals buf = .ok (Tuple.encode o.table.cols (Tuple.ofValues o.table.cols vals)) := by
  have hall : fill o.table.cols vals ([] ++ buf) =
      .ok ([] ++ Tuple.encode o.table.cols (Tuple.ofValues o.table.cols vals)) :=
    fill_spec hv h.wide h.laid.placed rfl (hbuf.trans h.laid.recordSize)
  rwa [List.nil_append, List.nil_append] at hall

theorem insertRow_spec (h : o.Inv) (hv : Fitting o.table.cols vals)
    (hbuf : buf.length = o.table.fh.fileHdr.recordSize)
    (hfresh : ∀ p ∈ o.indexes,
      FreshKey p.1 o.table.fh.entry (Tuple.encode o.table.cols (Tuple.ofValues o.table.cols vals))) :
    ∃ o' L, insertRow vals buf o =
      (.ok (Tuple.encode o.table.cols (Tuple.ofValues o.table.cols vals)), o') ∧ o.Becomes o' L ∧
      o'.bag = Tuple.ofValues o.table.cols vals ::ₘ o.bag := by
  have ht := typed_ofValues hv
  have hfill := fill_fresh h hv hbuf
  obtain ⟨rid, fh₀, fh, hget, hins, hfree, hentry, hsound, hsize⟩ := h.sound.insertFree (h.length ht)
  obtain ⟨indexes, hkeys, hmetas, hkeyed⟩ := insertKeys_spec h.keyed hfree hfresh fh []
  have hkeyed' : Keyed indexes fh.entry := hentry ▸ hkeyed
  have hstep := h.becomes hsound hsize (by rw [hentry]; exact h.typed_update ht) hmetas hkeyed'
  refine ⟨_, _, ?_, hstep, ?_⟩
  · simp only [insertRow, hfill, hget, hins, hkeys, List.nil_append]
    rfl
  · rw [hentry] at hstep
    rw [bag_insert h hfree hstep, Tuple.decode_encode ht h.wide h.laid.placed]

/-- A row with a key that is in an index goes out of the file again. -/
theorem insertRow_dup (h : o.Inv) (hv : Fitting o.table.cols vals)
    (hbuf : buf.length = o.table.fh.fileHdr.recordSize)
    (hdup : ∃ p ∈ o.indexes, ¬ FreshKey p.1 o.table.fh.entry
      (Tuple.encode o.table.cols (Tuple.ofValues o.table.cols vals))) :
    ∃ o', insertRow vals buf o = (.error .indexDuplicateKey, o') ∧ o.Becomes o' o.table.fh.entry := by
  have ht := typed_ofValues hv
  have hfill := fill_fresh h hv hbuf
  obtain ⟨rid, fh₀, fh, hget, hins, hfree, hentry, hsound, hsize⟩ := h.sound.insertFree (h.length ht)
  have hlive : fh.entry rid ≠ none := by
    rw [hentry, Function.update_self]
    exact Option.some_ne_none _
  obtain ⟨fh', hdel, hentry', hsound', hsize'⟩ := hsound.deleteRecord hlive
  have hsame : fh'.entry = o.table.fh.entry := by
    rw [hentry', hentry, Function.update_idem, ← hfree, Function.update_eq_self]
  have hnone : Keyed [] (Function.update o.table.fh.entry rid
      (some (Tuple.encode o.table.cols (Tuple.ofValues o.table.cols vals)))) :=
    List.forall_mem_nil _
  obtain ⟨indexes, hkeys, hmetas, hkeyed⟩ := insertKeys_dup h.keyed hnone hfree hdup hdel
  rw [List.nil_append] at hmetas
  rw [← hsame] at hkeyed
  have hstep := h.becomes hsound' (hsize'.trans hsize) (by rw [hsame]; exact h.typed) hmetas hkeyed
  rw [hsame] at hstep
  refine ⟨_, ?_, hstep⟩
  simp only [insertRow, hfill, hget, hins, hkeys]
  rfl

theorem freshKey_iff (h : o.Inv) {p : OpenIx} (hp : p ∈ o.indexes) {tup : Tuple}
    (ht : Tuple.Typed o.table.cols tup) :
    FreshKey p.1 o.table.fh.entry (Tuple.encode o.table.cols tup) ↔
      Tuple.key o.table.cols p.1 tup ∉ o.bag.map (Tuple.key o.table.cols p.1) := by
  constructor
  · intro hfresh hmem
    obtain ⟨tup', htup', hkey⟩ := Multiset.mem_map.1 hmem
    obtain ⟨row, hrow, rfl⟩ := List.mem_map.1 (Multiset.mem_coe.1 htup')
    have hentry := (mem_rows h.sound.inv).1 (show (row.1, row.2) ∈ o.table.rows from hrow)
    obtain ⟨tup', ht', heq⟩ := h.typed row.1 row.2 hentry
    rw [heq, Tuple.decode_encode ht' h.wide h.laid.placed] at hkey
    exact hfresh row.1 row.2 hentry (by rw [heq]; exact (h.key_eq_iff hp ht' ht).2 hkey)
  · intro hnot q row hq heq
    obtain ⟨tup', ht', rfl⟩ := h.typed q row hq
    refine hnot (Multiset.mem_map.2 ⟨tup', ?_, (h.key_eq_iff hp ht' ht).1 heq⟩)
    rw [OpenTable.bag, Multiset.mem_coe]
    exact List.mem_map.2 ⟨(q, _), (mem_rows h.sound.inv).2 hq, Tuple.decode_encode ht' h.wide h.laid.placed⟩

/-- An INSERT puts in the rows up to the first one with a key that is in an index. -/
theorem next_spec (h : o.Inv) (hv : ∀ vals ∈ values, Fitting o.table.cols vals)
    (hbuf : buf.length = o.table.fh.fileHdr.recordSize) :
    ∃ o' L, next values buf o =
      ((Tuple.insertRows o.table.cols (o.indexes.map Sigma.fst) values o.bag).1, o') ∧ o.Becomes o' L ∧
      o'.bag = (Tuple.insertRows o.table.cols (o.indexes.map Sigma.fst) values o.bag).2 := by
  induction values generalizing o buf with
  | nil => exact ⟨o, _, rfl, h.refl, rfl⟩
  | cons vals values ih =>
      have hvals := hv vals List.mem_cons_self
      have ht := typed_ofValues hvals
      by_cases hdup : ∃ ix ∈ o.indexes.map Sigma.fst,
          Tuple.key o.table.cols ix (Tuple.ofValues o.table.cols vals) ∈ o.bag.map (Tuple.key o.table.cols ix)
      · have hold : ∃ p ∈ o.indexes, ¬ FreshKey p.1 o.table.fh.entry
            (Tuple.encode o.table.cols (Tuple.ofValues o.table.cols vals)) := by
          obtain ⟨ix, hix, hmem⟩ := hdup
          obtain ⟨p, hp, rfl⟩ := List.mem_map.1 hix
          exact ⟨p, hp, fun hfresh => (freshKey_iff h hp ht).1 hfresh hmem⟩
        obtain ⟨o', hrow, hb⟩ := insertRow_dup h hvals hbuf hold
        refine ⟨o', _, ?_, hb, ?_⟩
        · simp only [next, hrow, Tuple.insertRows, if_pos hdup]
        · rw [Tuple.insertRows, if_pos hdup]
          exact bag_eq hb o.table.rows nodup_rows fun r rec => mem_rows h.sound.inv
      · have hfresh : ∀ p ∈ o.indexes, FreshKey p.1 o.table.fh.entry
            (Tuple.encode o.table.cols (Tuple.ofValues o.table.cols vals)) :=
          fun p hp => (freshKey_iff h hp ht).2 fun hmem => hdup ⟨p.1, List.mem_map_of_mem hp, hmem⟩
        obtain ⟨o₁, L, hrow, hb, hbag⟩ := insertRow_spec h hvals hbuf hfresh
        have hbuf₁ : (Tuple.encode o.table.cols (Tuple.ofValues o.table.cols vals)).length =
            o₁.table.fh.fileHdr.recordSize := by
          rw [h.length ht, h.laid.recordSize, hb.inv.laid.recordSize, hb.cols]
        obtain ⟨o', L', hrun, hb', hbag'⟩ :=
          ih hb.inv (fun vals hvals => by rw [hb.cols]; exact hv vals (List.mem_cons_of_mem _ hvals)) hbuf₁
        rw [hb.cols, hb.metas, hbag] at hrun hbag'
        refine ⟨o', L', ?_, hb.trans hb', ?_⟩
        · simp only [next, hrow, hrun, Tuple.insertRows, if_neg hdup]
        · rw [Tuple.insertRows, if_neg hdup, hbag']

end InsertExecutor

def Tuple.assign (cols : List ColMeta) (clauses : List UpdateExecutor.SetClause) (tup : Tuple) : Tuple :=
  clauses.foldl (fun tup clause => match getCol cols clause.lhs with
    | .ok col => put cols clause.lhs (Datum.ofValue col.type clause.rhs) tup
    | .error _ => tup) tup

def Assigns (cols : List ColMeta) (clauses : List UpdateExecutor.SetClause) : Prop :=
  ∀ clause ∈ clauses, ∃ col, getCol cols clause.lhs = .ok col ∧ col.Takes clause.rhs

namespace UpdateExecutor

variable {col : ColMeta} {cols : List ColMeta} {v : Value} {clauses : List SetClause}
  {ix : IndexMeta} {tup : Tuple} {o : OpenTable} {rids : List Rid} {test : Tuple → Bool}

theorem valueCast_takes (env : DmlEnv) (h : col.Takes v) (hw : col.Wide) :
    ∃ w, valueCast env col.type v = .ok w ∧
      w.initRaw col.len = .ok ((Datum.ofValue col.type v).bytes col.len) := by
  cases v with
  | int i =>
      have hlen := hw h
      rcases h with h | h <;> rw [h] <;> refine ⟨_, rfl, ?_⟩ <;>
        simp [Value.initRaw, Datum.ofValue, Datum.bytes, floatBytes, hlen]
  | float x =>
      have hlen := hw h
      rcases h with h | h <;> rw [h] <;> refine ⟨_, rfl, ?_⟩ <;>
        simp [Value.initRaw, Datum.ofValue, Datum.bytes, floatBytes, hlen]
  | string s n =>
      have hle : ¬ col.len < s.length := Nat.not_lt.2 h.2.2
      exact ⟨.string s n, by rw [h.1]; rfl, by rw [Value.initRaw, if_neg hle]; rfl⟩

/-- The bytes that are copied over a record make of it the record of the new tuple. -/
theorem setFields_spec (env : DmlEnv) (hplaced : ColMeta.place 0 cols = cols)
    (hw : ∀ col ∈ cols, col.Wide) (h : Assigns cols clauses) :
    ∃ fields, setFields env cols clauses = .ok fields ∧ ∀ tup, Tuple.Typed cols tup →
      Tuple.Typed cols (Tuple.assign cols clauses tup) ∧
        setRecord fields (Tuple.encode cols tup) = Tuple.encode cols (Tuple.assign cols clauses tup) := by
  induction clauses with
  | nil => exact ⟨[], rfl, fun tup ht => ⟨ht, rfl⟩⟩
  | cons clause clauses ih =>
      obtain ⟨col, hget, htakes⟩ := h clause List.mem_cons_self
      obtain ⟨w, hcast, hraw⟩ := valueCast_takes env htakes (hw col (Database.mem_of_getCol hget))
      obtain ⟨fields, hfields, hrest⟩ := ih fun c hc => h c (List.mem_cons_of_mem clause hc)
      refine ⟨(col, (Datum.ofValue col.type clause.rhs).bytes col.len) :: fields, ?_, fun tup ht => ?_⟩
      · simp [setFields, hget, hcast, hraw, hfields, Except.mapError, bind, Except.bind, pure, Except.pure]
      · obtain ⟨hput, ht'⟩ := Tuple.encode_put hplaced hw ht hget (Datum.fits_ofValue htakes)
        have hassign : Tuple.assign cols (clause :: clauses) tup =
            Tuple.assign cols clauses
              (Tuple.put cols clause.lhs (Datum.ofValue col.type clause.rhs) tup) := by
          rw [Tuple.assign, List.foldl_cons, hget]
          rfl
        obtain ⟨htyped, hset⟩ := hrest _ ht'
        rw [hassign, setRecord, List.foldl_cons, hput]
        exact ⟨htyped, hset⟩

theorem key_assign (hfound : ∀ c ∈ ix.cols, getCol cols ⟨c.tabName, c.name⟩ = .ok c)
    (hcount : setCount clauses ix = 0) :
    Tuple.key cols ix (Tuple.assign cols clauses tup) = Tuple.key cols ix tup := by
  have hnot : ∀ c ∈ ix.cols, ∀ clause ∈ clauses, clause.lhs.colName ≠ c.name := by
    intro c hc clause hclause heq
    have hnil := List.length_eq_zero_iff.1 hcount
    exact List.filter_eq_nil_iff.1 hnil c hc (List.any_eq_true.2 ⟨clause, hclause, decide_eq_true heq⟩)
  refine List.map_congr_left fun c hc => ?_
  have hget := hfound c hc
  have hc' := hnot c hc
  clear hcount hnot
  induction clauses generalizing tup with
  | nil => rfl
  | cons clause clauses ih =>
      rw [Tuple.assign, List.foldl_cons]
      have hrest : ∀ tup, Tuple.get cols ⟨c.tabName, c.name⟩ (Tuple.assign cols clauses tup) =
          Tuple.get cols ⟨c.tabName, c.name⟩ tup := fun tup =>
        ih fun clause' hclause' => hc' clause' (List.mem_cons_of_mem clause hclause')
      cases hlhs : getCol cols clause.lhs with
      | error e => exact hrest tup
      | ok col => exact (hrest _).trans (Tuple.get_put hget (hc' clause List.mem_cons_self))

def NewKeys (cols : List ColMeta) (clauses : List SetClause) (test : Tuple → Bool) (bag : Multiset Tuple)
    (ix : IndexMeta) : Prop :=
  (bag.map (Tuple.key cols ix) +
    (bag.filter fun tup => test tup = true).map fun tup =>
      Tuple.key cols ix (Tuple.assign cols clauses tup)).Nodup

theorem moves_of_newKeys {fields : List (ColMeta × Bytes)} (h : o.Inv)
    (hfields : ∀ tup, Tuple.Typed o.table.cols tup →
      Tuple.Typed o.table.cols (Tuple.assign o.table.cols clauses tup) ∧
      setRecord fields (Tuple.encode o.table.cols tup) =
        Tuple.encode o.table.cols (Tuple.assign o.table.cols clauses tup))
    (hsel : ∀ row ∈ o.table.rows, row.1 ∈ rids ↔ test (Tuple.decode o.table.cols row.2) = true)
    {p : OpenIx} (hp : p ∈ o.indexes)
    (hcount : setCount clauses p.1 = 0 ∨ setCount clauses p.1 = 1 ∧
      NewKeys o.table.cols clauses test o.bag p.1) :
    Moves clauses (setRecord fields) o.table.fh.entry rids p.1 := by
  have hread : ∀ {r : Rid} {record : Bytes}, o.table.fh.entry r = some record →
    ∃ tup, Tuple.Typed o.table.cols tup ∧
      record = Tuple.encode o.table.cols tup ∧ Tuple.decode o.table.cols record = tup ∧
      (r, record) ∈ o.table.rows := by
    intro r record hr
    obtain ⟨tup, ht, rfl⟩ := h.typed r record hr
    exact ⟨tup, ht, rfl, Tuple.decode_encode ht h.wide h.laid.placed, (mem_rows h.sound.inv).2 hr⟩
  refine hcount.imp (fun hc => ⟨hc, fun r hr record hrecord => ?_⟩) fun hc => ⟨hc.1, ?_, ?_⟩
  · obtain ⟨tup, ht, rfl, -, -⟩ := hread hrecord
    obtain ⟨ht', hset⟩ := hfields tup ht
    rw [hset]
    exact (h.key_eq_iff hp ht' ht).2 (key_assign (h.found p hp) hc)
  · intro r hr record hrecord q row hq heq
    obtain ⟨tup, ht, rfl, hdec, hrow⟩ := hread hrecord
    obtain ⟨tup', ht', rfl, hdec', hrow'⟩ := hread hq
    obtain ⟨ht'', hset⟩ := hfields tup ht
    rw [hset] at heq
    have hkey := (h.key_eq_iff hp ht' ht'').1 heq
    refine Multiset.disjoint_left.1 (Multiset.nodup_add.1 hc.2).2.2 (Multiset.mem_map.2 ⟨tup', ?_, hkey⟩)
      (Multiset.mem_map.2 ⟨tup, Multiset.mem_filter.2 ⟨?_, ?_⟩, rfl⟩)
    · exact List.mem_map.2 ⟨_, hrow', hdec'⟩
    · exact List.mem_map.2 ⟨_, hrow, hdec⟩
    · rw [← hdec]
      exact (hsel _ hrow).1 hr
  · intro r hr r' hr' record record' hrecord hrecord' hne heq
    obtain ⟨tup, ht, rfl, hdec, hrow⟩ := hread hrecord
    obtain ⟨tup', ht', rfl, hdec', hrow'⟩ := hread hrecord'
    rw [(hfields tup ht).2, (hfields tup' ht').2] at heq
    have hkey := (h.key_eq_iff hp (hfields tup ht).1 (hfields tup' ht').1).1 heq
    have hnd := (Multiset.nodup_add.1 hc.2).2.1
    rw [OpenTable.bag, Multiset.filter_coe, Multiset.map_coe, Multiset.coe_nodup, List.filter_map,
      List.map_map] at hnd
    have hmem : ∀ {r : Rid} {record : Bytes}, r ∈ rids → (r, record) ∈ o.table.rows →
      (r, record) ∈ o.table.rows.filter
        ((fun tup => decide (test tup = true)) ∘ fun row => Tuple.decode o.table.cols row.2) := by
      intro r record hr hrow
      exact List.mem_filter.2 ⟨hrow, decide_eq_true ((hsel _ hrow).1 hr)⟩
    have hrows := List.inj_on_of_nodup_map hnd (hmem hr hrow) (hmem hr' hrow') (by
      simp only [Function.comp_apply, hdec, hdec']
      exact hkey)
    exact hne (congrArg Prod.fst hrows)

theorem update_spec (env : DmlEnv) (h : o.Inv) (hassign : Assigns o.table.cols clauses) (hnd : rids.Nodup)
    (hlive : ∀ r ∈ rids, o.table.fh.entry r ≠ none)
    (hsel : ∀ row ∈ o.table.rows, row.1 ∈ rids ↔ test (Tuple.decode o.table.cols row.2) = true)
    (hcount : ∀ p ∈ o.indexes, setCount clauses p.1 = 0 ∨ setCount clauses p.1 = 1 ∧
      NewKeys o.table.cols clauses test o.bag p.1) :
    ∃ fields o' L, setFields env o.table.cols clauses = .ok fields ∧
      next clauses fields rids o = (.ok (), o') ∧ o.Becomes o' L ∧
      o'.bag = o.bag.map fun tup => if test tup = true
      then Tuple.assign o.table.cols clauses tup else tup := by
  obtain ⟨fields, hrun, hfields⟩ := setFields_spec env h.laid.placed h.wide hassign
  have htyped : Retypes o.table.cols (setRecord fields) := fun tup ht => ⟨_, hfields tup ht⟩
  obtain ⟨o', hnext, hb⟩ :=
    next_spec h hnd hlive htyped fun p hp => moves_of_newKeys h hfields hsel hp (hcount p hp)
  refine ⟨fields, o', _, hrun, hnext, hb, bag_changed h hb hsel fun row hrow => ?_⟩
  obtain ⟨tup, ht, heq⟩ := h.typed row.1 row.2 ((mem_rows h.sound.inv).1 hrow)
  obtain ⟨ht', hset⟩ := hfields tup ht
  rw [heq, hset, Tuple.decode_encode ht' h.wide h.laid.placed, Tuple.decode_encode ht h.wide h.laid.placed]

end UpdateExecutor

end Rmdb
