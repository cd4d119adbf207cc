import Rmdb.Execution.ExplicitTxn
import Rmdb.Index.Bounds
import Rmdb.Record.ScanCounts

namespace Rmdb

open RmFileHandle Exec

instance (r r' : Rid) : Decidable (r.Before r') := inferInstanceAs (Decidable (_ ∨ _))

def fileSlots (numPages perPage : Nat) : List Rid :=
  (List.range' 1 (numPages - 1)).flatMap fun (p : Nat) => (List.range perPage).map fun (k : Nat) => ⟨p, k⟩

def slotsBehind (slots : List Rid) (rid : Rid) : List Rid := slots.filter fun r => rid.Before r

section Slots

variable {numPages perPage : Nat} {rid : Rid} {slots : List Rid} {bitmap : Rid → Bool} {f : RmFileHandle}

theorem mem_fileSlots :
    rid ∈ fileSlots numPages perPage ↔ 1 ≤ rid.pageNo ∧ rid.pageNo < numPages ∧ 0 ≤ rid.slotNo ∧
    rid.slotNo < perPage := by
  simp only [fileSlots, List.mem_flatMap, List.mem_range'_1, List.mem_map, List.mem_range]
  constructor
  · rintro ⟨p, hp, k, hk, rfl⟩
    simp only
    omega
  · rintro ⟨hp, hp', hk, hk'⟩
    refine ⟨rid.pageNo.toNat, by omega, rid.slotNo.toNat, by omega, ?_⟩
    rw [Int.toNat_of_nonneg hk, Int.toNat_of_nonneg (by omega)]

theorem fileSlots_before : (fileSlots numPages perPage).Pairwise Rid.Before := by
  refine List.pairwise_flatMap.2 ⟨fun p _ => ?_, (List.pairwise_lt_range' ..).imp ?_⟩
  · exact List.pairwise_map.2 (List.pairwise_lt_range.imp fun hij => .inr ⟨rfl, Int.ofNat_lt.2 hij⟩)
  · intro p q hpq a ha b hb
    obtain ⟨i, -, rfl⟩ := List.mem_map.1 ha
    obtain ⟨j, -, rfl⟩ := List.mem_map.1 hb
    exact .inl (Int.ofNat_lt.2 hpq)

theorem fileSlots_succ (hpos : 1 ≤ numPages) : fileSlots (numPages + 1) perPage =
    fileSlots numPages perPage ++ (List.range perPage).map fun (k : Nat) => ⟨numPages, k⟩ := by
  obtain ⟨m, rfl⟩ := Nat.exists_eq_add_of_le hpos
  rw [fileSlots, fileSlots, show 1 + m + 1 - 1 = m + 1 by omega, show 1 + m - 1 = m by omega,
    List.range'_concat, List.flatMap_append, List.flatMap_singleton]
  simp

theorem slotsBehind_append {as bs : List Rid} (h : (as ++ rid :: bs).Pairwise Rid.Before) :
    slotsBehind (as ++ rid :: bs) rid = bs := by
  obtain ⟨-, hcons, has⟩ := List.pairwise_append.1 h
  obtain ⟨hbs, -⟩ := List.pairwise_cons.1 hcons
  rw [slotsBehind, List.filter_append, List.filter_cons_of_neg (by simpa using before_irrefl rid),
    List.filter_eq_nil_iff.2, List.filter_eq_self.2, List.nil_append]
  · intro r hr
    simpa using hbs r hr
  · intro r hr
    simpa using before_asymm (has r hr rid List.mem_cons_self)

theorem rids_eq (h : RmInv f) :
    f.rids = (fileSlots f.fileHdr.numPages f.fileHdr.numRecordsPerPage).filter fun r =>
      (f.entry r).isSome := by
  refine slots_ext pagesFrom_before (fileSlots_before.filter _) fun r => ?_
  rw [mem_rids h, List.mem_filter, mem_fileSlots, Option.isSome_iff_ne_none]
  refine ⟨fun he => ⟨?_, he⟩, fun he => he.2⟩
  have hin := inFile_of_entry he
  have hpage := (h.alloc _).1 hin.page
  have hslot := hin.slot
  have hnn := hin.nonneg
  omega

theorem mem_behind (h : RmInv f) {page : RmPage} (hp : f.pages rid.pageNo = some page) {r : Rid}
    (hnn : 0 ≤ rid.slotNo) :
    r ∈ f.behind rid ↔ f.entry r ≠ none ∧ rid.Before r := by
  rw [RmFileHandle.behind, hp, List.mem_append, mem_slotsFrom, mem_pagesFrom]
  constructor
  · rintro (⟨hpage, hr, hk, hlt, hset⟩ | ⟨hpage, -, he⟩)
    · refine ⟨?_, .inr ⟨hpage.symm, by omega⟩⟩
      have hbit := isSet_eq_isSome hp hlt
      rw [hset, Int.toNat_of_nonneg hr, ← hpage] at hbit
      exact Option.isSome_iff_ne_none.1 hbit.symm
    · exact ⟨he, .inl (by omega)⟩
  · rintro ⟨he, hbefore⟩
    have hin := inFile_of_entry he
    have halloc := (h.alloc _).1 hin.page
    have hr := hin.nonneg
    rcases hbefore with hpage | ⟨hpage, hk⟩
    · exact .inr ⟨by omega, by omega, he⟩
    · refine .inl ⟨hpage.symm, hr, by omega, hin.slot, ?_⟩
      rw [isSet_eq_isSome hp hin.slot, Int.toNat_of_nonneg hr, hpage]
      exact Option.isSome_iff_ne_none.2 he

theorem behind_eq (h : RmInv f) (hin : f.InFile rid) : f.behind rid =
    (slotsBehind (fileSlots f.fileHdr.numPages f.fileHdr.numRecordsPerPage) rid).filter fun r =>
      (f.entry r).isSome := by
  obtain ⟨page, hp⟩ := Option.ne_none_iff_exists'.1 hin.page
  have hnn := hin.nonneg
  refine slots_ext ?_ ((fileSlots_before.filter _).filter _) fun r => ?_
  · rw [RmFileHandle.behind, hp]
    refine List.pairwise_append.2 ⟨slotsFrom_before, pagesFrom_before, fun a ha b hb => .inl ?_⟩
    have := (mem_slotsFrom.1 ha).1
    have := (mem_pagesFrom.1 hb).1
    omega
  · have hslot : r ∈ fileSlots f.fileHdr.numPages f.fileHdr.numRecordsPerPage ∧
        (f.entry r).isSome = true ↔ f.entry r ≠ none := by
      rw [← mem_rids h, rids_eq h, List.mem_filter]
    rw [List.mem_filter, slotsBehind, List.mem_filter, and_right_comm, hslot, decide_eq_true_eq,
      mem_behind h hp hnn]

end Slots

/-- The scan of a query: a sequential one, or one of an index between two keys. Rows that meet
`conds` are returned. -/
inductive ScanQuery (n : Nat) (K : Fin n → Type)
  | seq (conds : Row → Bool)
  | index (i : Fin n) (lower upper : K i) (conds : Row → Bool)

/-- An `RmScan`, whose position is `none` at the end, or an `IxScan`. -/
inductive OpenScan (n : Nat)
  | seq (rid : Option Rid)
  | index (i : Fin n) (last iid : Iid)
deriving DecidableEq

section Scans

variable {n : Nat} {K : Fin n → Type}

def ScanQuery.conds : ScanQuery n K → Row → Bool
  | seq conds => conds
  | index _ _ _ conds => conds

variable [∀ i, IxKey (K i)]

section Model

variable (slots : List Rid) (s : TableState n K)

def OpenScan.cursor : Cursor (OpenScan n) IxError Rid where
  isEnd
    | .seq rid => rid.isNone
    | .index _ last iid => iid = last
  get
    | .seq (some rid) => .ok rid
    | .seq none => .error .assertFailed
    | .index i _ iid => (s.ihs i).getRid iid
  next
    | .seq (some rid) => .ok (.seq ((slotsBehind slots rid).find? s.bitmap))
    | .seq none => .error .assertFailed
    | .index i last iid => ((s.ihs i).scanNext iid last).map fun iid => .index i last iid

/-- The constructor of `RmScan`, or the two searches and the constructor of `IxScan`. -/
def ScanQuery.start : ScanQuery n K → Ix (OpenScan n)
  | seq _ => .ok (.seq (slots.find? s.bitmap))
  | index i lower upper _ => do
      let first ← (s.ihs i).lowerBound lower
      let last ← (s.ihs i).upperBound upper
      return .index i last first

end Model

section File

/-- The slots of a table hold a record where its file does. -/
structure OnFile (f : RmFileHandle) (s : TableState n K) : Prop where
  inv : RmInv f
  records : s.bitmap = fun rid => (f.entry rid).isSome

def RmFileHandle.allSlots (f : RmFileHandle) : List Rid :=
  fileSlots f.fileHdr.numPages f.fileHdr.numRecordsPerPage

def RmScan.At (f : RmFileHandle) (rid : Rid) : Option Rid → Prop
  | some r => r = rid ∧ f.InFile rid
  | none => RmScan.isEnd rid = true

/-- The steps of an `RmScan` whose file changes between them. -/
def RmScan.run : Rid → List RmFileHandle → Except RmError Rid
  | rid, [] => .ok rid
  | rid, f :: fs => if RmScan.isEnd rid then .ok rid else do RmScan.run (← RmScan.next f rid) fs

def OpenScan.run : OpenScan n → List (RmFileHandle × TableState n K) → Except IxError (OpenScan n)
  | scan, [] => .ok scan
  | scan, (f, s) :: later =>
      if (OpenScan.cursor f.allSlots s).isEnd scan then .ok scan
      else do OpenScan.run (← (OpenScan.cursor f.allSlots s).next scan) later

variable {f : RmFileHandle} {s : TableState n K} {rid : Rid} {later : List (RmFileHandle × TableState n K)}

omit [∀ i, IxKey (K i)] in
theorem RmScan.Stands.at {as : List Rid} (hs : RmScan.Stands f rid as)
    (has : ∀ r ∈ as, f.entry r ≠ none) : RmScan.At f rid as.head? := by
  obtain ⟨hend, rfl⟩ | ⟨page, left, -, -, -, -, rfl⟩ := hs
  · exact decide_eq_true hend
  · exact ⟨rfl, inFile_of_entry (has _ List.mem_cons_self)⟩

/-- The constructor of `RmScan` finds the first slot with a record. -/
theorem RmScan.start_at (h : OnFile f s) (conds : Row → Bool) : ∃ r p, RmScan.start f = .ok r ∧
    (ScanQuery.seq conds).start f.allSlots s = .ok (.seq p) ∧ RmScan.At f r p := by
  obtain ⟨r, hrun, hs⟩ := RmScan.start_spec h.inv
  refine ⟨r, f.rids.head?, hrun, ?_, hs.at fun r hr => (mem_rids h.inv).1 hr⟩
  rw [ScanQuery.start, h.records, rids_eq h.inv, List.head?_filter]
  rfl

/-- And `next` finds the first one behind the current position, whether that one still holds a
record or not. -/
theorem RmScan.next_at (h : OnFile f s) (hin : f.InFile rid) : ∃ r p, RmScan.next f rid = .ok r ∧
    (OpenScan.cursor f.allSlots s).next (.seq (some rid)) = .ok (.seq p) ∧ RmScan.At f r p := by
  obtain ⟨r, hrun, hs⟩ := RmScan.next_spec h.inv hin
  have hlive : ∀ r ∈ f.behind rid, f.entry r ≠ none := by
    intro r hr
    rw [behind_eq h.inv hin] at hr
    exact Option.isSome_iff_ne_none.1 (List.mem_filter.1 hr).2
  refine ⟨r, (f.behind rid).head?, hrun, ?_, hs.at hlive⟩
  rw [OpenScan.cursor, h.records, behind_eq h.inv hin, List.head?_filter]
  rfl

theorem RmScan.run_at (hat : RmScan.At f rid pos) (hfiles : ∀ m ∈ later, OnFile m.1 m.2)
    (hgrow : (f :: later.map Prod.fst).IsChain Extends) : ∃ r p, RmScan.run rid (later.map Prod.fst) = .ok r ∧
      OpenScan.run (.seq pos) later = .ok (.seq p) ∧ ∃ f', RmScan.At f' r p := by
  induction later generalizing f rid pos with
  | nil => exact ⟨rid, pos, rfl, rfl, f, hat⟩
  | cons m later ih =>
      obtain ⟨hext, hgrow⟩ := List.isChain_cons_cons.1 hgrow
      cases pos with
      | none =>
          have hend : RmScan.isEnd rid = true := hat
          exact ⟨rid, none, if_pos hend, rfl, f, hend⟩
      | some r =>
          obtain ⟨rfl, hin⟩ := hat
          have hend : RmScan.isEnd r = false := decide_eq_false (by have := hin.nonneg; omega)
          obtain ⟨r', p, hnext, hscan, hat'⟩ := RmScan.next_at (hfiles m List.mem_cons_self) (hext.inFile hin)
          obtain ⟨r'', p', hrun, hscans, hlast⟩ :=
            ih hat' (fun m' hm' => hfiles m' (List.mem_cons_of_mem _ hm')) hgrow
          refine ⟨r'', p', ?_, ?_, hlast⟩
          · rw [List.map_cons, RmScan.run, hend, hnext]
            exact hrun
          · rw [OpenScan.run, hscan]
            exact hscans

/-- A scan over the slots goes where an `RmScan` goes while other transactions change the file. -/
theorem OpenScan.follows_rmScan (h : OnFile f s) (conds : Row → Bool) (hfiles : ∀ m ∈ later, OnFile m.1 m.2)
    (hgrow : (f :: later.map Prod.fst).IsChain Extends) : ∃ r r' p p', RmScan.start f = .ok r ∧
      (ScanQuery.seq conds).start f.allSlots s = .ok (.seq p) ∧ RmScan.run r (later.map Prod.fst) = .ok r' ∧
      OpenScan.run (.seq p) later = .ok (.seq p') ∧ ∃ f', RmScan.At f' r' p' := by
  obtain ⟨r, p, hstart, hquery, hat⟩ := RmScan.start_at h conds
  obtain ⟨r', p', hrun, hscan, hlast⟩ := RmScan.run_at hat hfiles hgrow
  exact ⟨r, r', p, p', hstart, hquery, hrun, hscan, hlast⟩

end File

structure SameScans (slots slots' : List Rid) (s s' : TableState n K) : Prop where
  start : ∀ plan : ScanQuery n K, plan.start slots' s' = plan.start slots s
  cursor : OpenScan.cursor slots' s' = OpenScan.cursor slots s
  records : s'.slots = s.slots

theorem sameScans_commit (slots : List Rid) (s : TableState n K) (ws : List WriteRecord) :
    SameScans slots slots s { s with writeSet := ws } where
  start plan := by cases plan <;> rfl
  cursor := rfl
  records := rfl

/-- New pages without a record do not matter to a scan. -/
theorem sameScans_append {slots more : List Rid} {s : TableState n K} (h : ∀ r ∈ more, s.bitmap r = false) :
    SameScans slots (slots ++ more) s s where
  start
    | .seq conds => by
        have hnone : more.find? s.bitmap = none := List.find?_eq_none.2 fun r hr => by simp [h r hr]
        simp [ScanQuery.start, List.find?_append, hnone]
    | .index i lower upper conds => rfl
  cursor := by
    have hnext : ∀ rid, (slotsBehind (slots ++ more) rid).find? s.bitmap =
        (slotsBehind slots rid).find? s.bitmap := by
      intro rid
      have hnone : (slotsBehind more rid).find? s.bitmap = none :=
        List.find?_eq_none.2 fun r hr => by simp [h r (List.mem_filter.1 hr).1]
      rw [slotsBehind, List.filter_append, List.find?_append]
      change ((slotsBehind slots rid).find? s.bitmap).or ((slotsBehind more rid).find? s.bitmap) = _
      rw [hnone, Option.or_none]
    simp only [OpenScan.cursor, hnext]
  records := rfl

def takenRows (s : TableState n K) (conds : Row → Bool) (rids : List Rid) : List (Rid × Row) :=
  (rids.map fun rid => (rid, s.slots rid)).filter fun row => conds row.2

variable [∀ i, LinearOrder (K i)]

omit [∀ i, IxKey (K i)] [∀ i, LinearOrder (K i)] in
theorem takenRows_snoc (s : TableState n K) (conds : Row → Bool) (rids : List Rid) (rid : Rid) :
    takenRows s conds (rids ++ [rid]) =
      if conds (s.slots rid) then takenRows s conds rids ++ [(rid, s.slots rid)]
      else takenRows s conds rids := by
  rw [takenRows, List.map_append, List.filter_append]
  split
  · rename_i h
    simp [h, takenRows]
  · rename_i h
    simp [h, takenRows]

def ScanQuery.InRange (tab : TabMeta n K) : ScanQuery n K → Row → Prop
  | seq _, _ => True
  | index i lower upper _, row => lower ≤ tab.key i row ∧ tab.key i row ≤ upper

def ScanQuery.Wants (tab : TabMeta n K) (plan : ScanQuery n K) (row : Row) : Prop :=
  plan.InRange tab row ∧ plan.conds row = true

variable {slots : List Rid} {s : TableState n K} {tab : TabMeta n K} {L : Rows}
  {start pos : OpenScan n} {rids : List Rid}

omit [∀ i, LinearOrder (K i)] in
theorem seq_yields (as bs : List Rid) (hsorted : (as ++ bs).Pairwise Rid.Before) :
    (OpenScan.cursor (as ++ bs) s).Yields (.seq (bs.find? s.bitmap)) (bs.filter s.bitmap) := by
  induction bs generalizing as with
  | nil => exact .done rfl
  | cons b bs ih =>
      have hrest := ih (as ++ [b]) (by rw [List.append_assoc]; exact hsorted)
      rw [List.append_assoc, List.singleton_append] at hrest
      cases hb : s.bitmap b with
      | true =>
          rw [List.find?_cons_of_pos hb, List.filter_cons_of_pos hb]
          refine .step rfl rfl ?_ hrest
          simp only [OpenScan.cursor, slotsBehind_append hsorted]
      | false =>
          rw [List.find?_cons_of_neg (by simp [hb]), List.filter_cons_of_neg (by simp [hb])]
          exact hrest

omit [∀ i, LinearOrder (K i)] in
theorem seq_seen {rid : Option Rid} (hseen : (OpenScan.cursor slots s).Seen (.seq rid) rids pos) :
    ∃ rid, pos = .seq rid := by
  induction hseen with
  | start => exact ⟨rid, rfl⟩
  | step _ _ _ hnext ih =>
      obtain ⟨rid, rfl⟩ := ih
      cases rid with
      | none => cases hnext
      | some rid =>
          cases hnext
          exact ⟨_, rfl⟩

/-- An index scan goes from entry to entry, also when its end lies before its start. -/
theorem Run.seen {k : Type} [IxKey k] {ih : IxIndexHandle k} {ls : List (Int × List (k × Rid))}
    (hr : Run ih ls) (hne : ls ≠ []) {m : Nat} (hm : m ≤ (ls.flatMap Prod.snd).length) {last iid : Iid}
    (hs : (IxScan.cursor ih last).Seen (posAt ls m) rids iid) :
    (∃ m, m ≤ (ls.flatMap Prod.snd).length ∧ iid = posAt ls m) ∧
      ∀ r ∈ rids, ∃ e ∈ ls.flatMap Prod.snd, e.2 = r := by
  induction hs with
  | start => exact ⟨⟨m, hm, rfl⟩, by simp⟩
  | @step iid iid' r rids _ hend hget hnext iht =>
      obtain ⟨⟨m, hm, rfl⟩, hrids⟩ := iht
      have hlast : posAt ls m ≠ last := of_decide_eq_false hend
      rcases Nat.lt_or_eq_of_le hm with hlt | rfl
      · cases (hr.getRid hlt).symm.trans hget
        cases (hr.scanNext hlt hlast).symm.trans hnext
        refine ⟨⟨m + 1, hlt, rfl⟩, fun q hq => ?_⟩
        rcases List.mem_append.1 hq with hq | hq
        · exact hrids q hq
        · exact ⟨_, List.get_mem _ _, (List.mem_singleton.1 hq).symm⟩
      · cases (hr.getRid_end hne).symm.trans hget

omit [∀ i, LinearOrder (K i)] in
theorem index_start {i : Fin n} {lower upper : K i} {conds : Row → Bool}
    (hstart : (ScanQuery.index i lower upper conds).start slots s = .ok start) : ∃ first last,
      (s.ihs i).lowerBound lower = .ok first ∧ (s.ihs i).upperBound upper = .ok last ∧
      start = .index i last first := by
  obtain ⟨first, hfirst, hstart⟩ := bind_eq_ok.1 hstart
  obtain ⟨last, hlast, hstart⟩ := bind_eq_ok.1 hstart
  cases hstart
  exact ⟨first, last, hfirst, hlast, rfl⟩

omit [∀ i, LinearOrder (K i)] in
theorem index_seen {i : Fin n} {last first : Iid}
    (hseen : (OpenScan.cursor slots s).Seen (.index i last first) rids pos) :
    ∃ iid, pos = .index i last iid ∧ (IxScan.cursor (s.ihs i) last).Seen first rids iid :=
  hseen.of_image (f := OpenScan.index i last) (fun _ => rfl) (fun _ => rfl) fun _ => rfl

theorem IndexOf.seen {k : Type} [LinearOrder k] [IxKey k] [LawfulIxKey k]
    {ih : IxIndexHandle k} {key : Row → k} (h : IndexOf ih key L) {lower upper : k} {first last iid : Iid}
    (hfirst : ih.lowerBound lower = .ok first) (hlast : ih.upperBound upper = .ok last)
    (hs : (IxScan.cursor ih last).Seen first rids iid) :
    (∀ r ∈ rids, L r ≠ none) ∧
      (iid = last → ∀ r row, L r = some row → (r ∈ rids ↔ lower ≤ key row ∧ key row ≤ upper)) := by
  obtain ⟨-, m, ⟨es, hv, hes⟩, hm⟩ := h
  have hrow : ∀ e ∈ es, ∃ row, L e.2 = some row ∧
    key row = e.1 := fun e he => (hm e.1 e.2).1 ((hes e.1 e.2).1 he)
  constructor
  · obtain ⟨ls, hne, hrun, rfl, hlower, -⟩ := hv.bounds
    cases (hlower lower).symm.trans hfirst
    intro r hr
    obtain ⟨e, he, rfl⟩ := (hrun.seen hne List.countP_le_length hs).2 r hr
    obtain ⟨row, hL, -⟩ := hrow e he
    rw [hL]
    simp
  · intro hend r row hL
    obtain ⟨a, b, hlower, hupper, hyields, hbreaks⟩ := hv.range_scan lower upper
    cases hlower.symm.trans hfirst
    cases hupper.symm.trans hlast
    by_cases hgap : ∃ e ∈ es, upper < e.1 ∧ e.1 < lower
    · have hnot := (hs.breaks (hbreaks hgap)).isEnd_eq
      exact absurd hend (of_decide_eq_false hnot)
    · rw [hs.all (hyields fun e he hc => hgap ⟨e, he, hc⟩) (decide_eq_true hend), List.mem_map]
      have hentry : (key row, r) ∈ es := (hes _ _).2 ((hm _ _).2 ⟨row, hL, rfl⟩)
      constructor
      · rintro ⟨e, he, rfl⟩
        obtain ⟨he, hrange⟩ := List.mem_filter.1 he
        obtain ⟨row', hL', hkey⟩ := hrow e he
        cases hL.symm.trans hL'
        rw [hkey]
        exact of_decide_eq_true hrange
      · intro hrange
        exact ⟨(key row, r), List.mem_filter.2 ⟨hentry, decide_eq_true hrange⟩, rfl⟩

theorem IndexOf.seen_get {k : Type} [LinearOrder k] [IxKey k] [LawfulIxKey k]
    {ih : IxIndexHandle k} {key : Row → k} (h : IndexOf ih key L) {lower : k} {first last iid : Iid}
    {r : Rid} (hfirst : ih.lowerBound lower = .ok first)
    (hs : (IxScan.cursor ih last).Seen first rids iid) (hget : ih.getRid iid = .ok r) : L r ≠ none := by
  obtain ⟨-, m, ⟨es, hv, hes⟩, hm⟩ := h
  obtain ⟨ls, hne, hrun, rfl, hlower, -⟩ := hv.bounds
  cases (hlower lower).symm.trans hfirst
  obtain ⟨⟨m, hle, rfl⟩, -⟩ := hrun.seen hne List.countP_le_length hs
  rcases Nat.lt_or_eq_of_le hle with hlt | rfl
  · cases (hrun.getRid hlt).symm.trans hget
    obtain ⟨row, hL, -⟩ := (hm _ _).1 ((hes _ _).1 (List.getElem_mem hlt))
    rw [hL]
    simp
  · cases (hrun.getRid_end hne).symm.trans hget

omit [∀ i, IxKey (K i)] [∀ i, LinearOrder (K i)] in
theorem takenRows_live {conds : Row → Bool} (hrows : s.rows = L) (hlive : ∀ r ∈ rids, L r ≠ none) :
    ∀ row ∈ takenRows s conds rids, L row.1 = some row.2 := by
  intro row hrow
  obtain ⟨hrow, -⟩ := List.mem_filter.1 hrow
  obtain ⟨r, hr, rfl⟩ := List.mem_map.1 hrow
  obtain ⟨row, hL⟩ := Option.ne_none_iff_exists'.1 (hlive r hr)
  rw [hL, slot_eq hrows hL]

variable [∀ i, LawfulIxKey (K i)] {plan : ScanQuery n K} (hC : Consistent tab L s)
  (hfile : ∀ r, s.bitmap r = true → r ∈ slots) (hsorted : slots.Pairwise Rid.Before)
  (hstart : plan.start slots s = .ok start) (hseen : (OpenScan.cursor slots s).Seen start rids pos)

include hC hfile hsorted hstart hseen

theorem ScanQuery.seen_spec : (∀ r ∈ rids, L r ≠ none) ∧ ((OpenScan.cursor slots s).isEnd pos = true →
    ∀ r row, L r = some row → (r ∈ rids ↔ plan.InRange tab row)) := by
  cases plan with
  | seq conds =>
      cases hstart
      have hyields := seq_yields (s := s) [] slots hsorted
      have hmem : ∀ r, r ∈ slots.filter s.bitmap ↔ L r ≠ none := by
        intro r
        rw [List.mem_filter, ← bitmap_iff hC.rows]
        exact ⟨And.right, fun hb => ⟨hfile r hb, hb⟩⟩
      constructor
      · intro r hr
        obtain ⟨cs, hcs, -⟩ := hseen.rest hyields
        exact (hmem r).1 (by rw [hcs]; exact List.mem_append_left _ hr)
      · intro hend r row hL
        rw [hseen.all hyields hend]
        exact iff_of_true ((hmem r).2 (by rw [hL]; simp)) trivial
  | index i lower upper conds =>
      obtain ⟨first, last, hfirst, hlast, rfl⟩ := index_start hstart
      obtain ⟨iid, rfl, hs⟩ := index_seen hseen
      rcases hC.index with hix | ⟨-, hem⟩
      · obtain ⟨hlive, hrange⟩ := (hix i).seen hfirst hlast hs
        exact ⟨hlive, fun hend => hrange (of_decide_eq_true hend)⟩
      · obtain ⟨e, he⟩ := findLeafPage_rootless (hem i).root (hem i).noPage lower
        rw [IxIndexHandle.lowerBound, he] at hfirst
        cases hfirst

omit hfile in
theorem ScanQuery.seen_get {r : Rid} (hget : (OpenScan.cursor slots s).get pos = .ok r) : L r ≠ none := by
  cases plan with
  | seq conds =>
      cases hstart
      obtain ⟨cs, hcs, hyields⟩ := hseen.rest (seq_yields (s := s) [] slots hsorted)
      obtain ⟨rid, rfl⟩ := seq_seen hseen
      cases hyields with
      | done hend =>
          cases Option.isNone_iff_eq_none.1 hend
          cases hget
      | step _ hget' =>
          cases hget'.symm.trans hget
          have hmem : r ∈ slots.filter s.bitmap := by
            rw [hcs]
            simp
          exact (bitmap_iff hC.rows).1 (List.mem_filter.1 hmem).2
  | index i lower upper conds =>
      obtain ⟨first, last, hfirst, hlast, rfl⟩ := index_start hstart
      obtain ⟨iid, rfl, hs⟩ := index_seen hseen
      rcases hC.index with hix | ⟨-, hem⟩
      · exact (hix i).seen_get hfirst hs hget
      · obtain ⟨e, he⟩ := findLeafPage_rootless (hem i).root (hem i).noPage lower
        rw [IxIndexHandle.lowerBound, he] at hfirst
        cases hfirst

/-- What a scan has returned at its end is all that it is for. -/
theorem ScanQuery.takenRows_spec (hend : (OpenScan.cursor slots s).isEnd pos = true) (r : Rid) (row : Row) :
    (r, row) ∈ takenRows s plan.conds rids ↔ L r = some row ∧ plan.Wants tab row := by
  obtain ⟨hlive, hall⟩ := ScanQuery.seen_spec hC hfile hsorted hstart hseen
  constructor
  · intro hrow
    have hL := takenRows_live hC.rows hlive _ hrow
    obtain ⟨hmem, hconds⟩ := List.mem_filter.1 hrow
    obtain ⟨r', hr', heq⟩ := List.mem_map.1 hmem
    cases heq
    exact ⟨hL, (hall hend _ _ hL).1 hr', hconds⟩
  · rintro ⟨hL, hrange, hconds⟩
    refine List.mem_filter.2 ⟨List.mem_map.2 ⟨r, (hall hend r row hL).2 hrange, ?_⟩, hconds⟩
    rw [slot_eq hC.rows hL]

end Scans

end Rmdb
