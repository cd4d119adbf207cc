import Rmdb.Lib.Cursor
import Rmdb.Record.RecordMap

namespace Rmdb

open Bitmap RmFileHandle

namespace RmScan

variable (f : RmFileHandle)

def firstPage : Nat → Int → Rm (Int × RmPage)
  | 0, i => do return (i, ← f.fetchPageHandle i)
  | left + 1, i => do
      let page ← f.fetchPageHandle i
      if page.pageHdr.numRecords = 0 then firstPage left (i + 1) else return (i, page)

/-- The constructor. The scan stands on the first record. -/
def start : Rm Rid :=
  if f.fileHdr.numPages = 1 then .ok ⟨1, -1⟩
  else do
    let (i, page) ← firstPage f (f.fileHdr.numPages - 2) 1
    let slotNo := firstBit page.data bitmapStart true f.fileHdr.numRecordsPerPage
    if slotNo = f.fileHdr.numRecordsPerPage then return ⟨i, -1⟩ else return ⟨i, slotNo⟩

/-- The loop of `next`: from a page on which the slots behind `rid` are still to be seen, with
`left` pages behind it. -/
def nextFrom (page : RmPage) (rid : Rid) : Nat → Rm Rid
  | 0 =>
      let slotNo := nextBit page.data bitmapStart true f.fileHdr.numRecordsPerPage rid.slotNo
      if slotNo < f.fileHdr.numRecordsPerPage then .ok ⟨rid.pageNo, slotNo⟩ else .ok ⟨rid.pageNo + 1, -1⟩
  | left + 1 =>
      let slotNo := nextBit page.data bitmapStart true f.fileHdr.numRecordsPerPage rid.slotNo
      if slotNo < f.fileHdr.numRecordsPerPage then .ok ⟨rid.pageNo, slotNo⟩
      else do
        let page ← f.fetchPageHandle (rid.pageNo + 1)
        nextFrom page ⟨rid.pageNo + 1, -1⟩ left

def next (rid : Rid) : Rm Rid := do
  let page ← f.fetchPageHandle rid.pageNo
  nextFrom f page rid (f.fileHdr.numPages - (rid.pageNo + 1)).toNat

def isEnd (rid : Rid) : Bool := rid.slotNo = -1

def cursor : Cursor Rid RmError Rid := ⟨isEnd, .ok, next f⟩

end RmScan

namespace RmFileHandle

variable (f : RmFileHandle)

def countFrom : Nat → Int → Rm Int
  | 0, _ => .ok 0
  | left + 1, i => do
      let page ← f.fetchPageHandle i
      let count ← countFrom left (i + 1)
      return page.pageHdr.numRecords + count

def getRecordCount : Rm Int := f.countFrom (f.fileHdr.numPages - 1) 1

def slotsFrom (p : Int) (page : RmPage) (k : Nat) : List Rid :=
  ((List.range' k (f.fileHdr.numRecordsPerPage - k)).filter fun i => isSet page.data bitmapStart i).map
    fun (i : Nat) => ⟨p, i⟩

def pageRids (p : Int) : List Rid :=
  match f.pages p with
  | some page => f.slotsFrom p page 0
  | none => []

def pagesFrom (p : Int) : Nat → List Rid
  | 0 => []
  | left + 1 => f.pageRids p ++ pagesFrom (p + 1) left

def rids : List Rid := f.pagesFrom 1 (f.fileHdr.numPages - 1)

def behind (rid : Rid) : List Rid :=
  match f.pages rid.pageNo with
  | some page => f.slotsFrom rid.pageNo page (rid.slotNo.toNat + 1) ++
      f.pagesFrom (rid.pageNo + 1) (f.fileHdr.numPages - (rid.pageNo + 1)).toNat
  | none => []

variable {f} {p q : Int} {page : RmPage} {rid : Rid} {k left : Nat}

theorem pageRids_eq (hp : f.pages p = some page) : f.pageRids p = f.slotsFrom p page 0 := by rw [pageRids, hp]

theorem mem_slotsFrom : rid ∈ f.slotsFrom p page k ↔ rid.pageNo = p ∧ 0 ≤ rid.slotNo ∧ k ≤ rid.slotNo.toNat ∧
    rid.slotNo.toNat < f.fileHdr.numRecordsPerPage ∧ isSet page.data bitmapStart rid.slotNo.toNat = true := by
  simp only [slotsFrom, List.mem_map, List.mem_filter, List.mem_range'_1]
  constructor
  · rintro ⟨i, ⟨⟨hk, hi⟩, hset⟩, rfl⟩
    exact ⟨rfl, by simp, by simpa using hk, by simp; omega, by simpa using hset⟩
  · rintro ⟨rfl, hnn, hk, hlt, hset⟩
    refine ⟨rid.slotNo.toNat, ⟨⟨hk, by omega⟩, hset⟩, ?_⟩
    cases rid
    simpa using hnn

theorem mem_pageRids : rid ∈ f.pageRids p ↔ rid.pageNo = p ∧ f.entry rid ≠ none := by
  rw [pageRids, entry]
  split
  · rename_i page hp
    rw [mem_slotsFrom]
    refine and_congr_right fun hrid => ?_
    rw [hrid, hp]
    simp only [slotEntry]
    split <;> rename_i hin <;> simp [hin]
    intro hnn hlt
    exact absurd ⟨hnn, hlt⟩ hin
  · rename_i hp
    simp only [List.not_mem_nil, false_iff, not_and]
    rintro rfl
    rw [hp]
    simp

theorem mem_pagesFrom :
    rid ∈ f.pagesFrom p left ↔ p ≤ rid.pageNo ∧ rid.pageNo < p + left ∧ f.entry rid ≠ none := by
  induction left generalizing p with
  | zero => simp [pagesFrom]; intro h1 h2; omega
  | succ left ih =>
      rw [pagesFrom, List.mem_append, mem_pageRids, ih]
      push_cast
      constructor
      · rintro (⟨rfl, h⟩ | ⟨h1, h2, h⟩)
        · exact ⟨le_rfl, by omega, h⟩
        · exact ⟨by omega, by omega, h⟩
      · rintro ⟨h1, h2, h⟩
        rcases Int.lt_or_eq_of_le h1 with hlt | heq
        · exact .inr ⟨by omega, by omega, h⟩
        · exact .inl ⟨heq.symm, h⟩

theorem mem_rids (h : RmInv f) : rid ∈ f.rids ↔ f.entry rid ≠ none := by
  rw [rids, mem_pagesFrom]
  refine ⟨fun hm => hm.2.2, fun he => ?_⟩
  have hpage := (h.alloc _).1 (inFile_of_entry he).page
  have hpages := h.numPages
  exact ⟨hpage.1, by omega, he⟩

theorem nodup_slotsFrom : (f.slotsFrom p page k).Nodup := by
  refine List.Nodup.map ?_ ((List.nodup_range' ..).filter _)
  intro i j hij
  simpa using hij

theorem nodup_pageRids : (f.pageRids p).Nodup := by
  rw [pageRids]
  split
  · exact nodup_slotsFrom
  · exact List.nodup_nil

theorem nodup_pagesFrom : (f.pagesFrom p left).Nodup := by
  induction left generalizing p with
  | zero => exact List.nodup_nil
  | succ left ih =>
      rw [pagesFrom]
      refine List.nodup_append.2 ⟨nodup_pageRids, ih, ?_⟩
      rintro a ha b hb rfl
      have h1 := (mem_pageRids.1 ha).1
      have h2 := (mem_pagesFrom.1 hb).1
      omega

theorem nodup_rids : f.rids.Nodup := nodup_pagesFrom

theorem length_pageRids (h : RmInv f) (hp : f.pages p = some page) :
    ((f.pageRids p).length : Int) = page.pageHdr.numRecords := by
  rw [pageRids_eq hp, slotsFrom, List.length_map, ← List.countP_eq_length_filter, h.count hp,
    count, Nat.sub_zero, List.range_eq_range']

theorem countFrom_spec (h : RmInv f) (hp : 1 ≤ p) (hleft : p + left ≤ f.fileHdr.numPages) :
    f.countFrom left p = .ok (f.pagesFrom p left).length := by
  induction left generalizing p with
  | zero => rfl
  | succ left ih =>
      push_cast at hleft
      obtain ⟨page, hpage⟩ := Option.ne_none_iff_exists'.1 ((h.alloc p).2 ⟨hp, by omega⟩)
      have hrest := ih (p := p + 1) (by omega) (by omega)
      rw [countFrom, fetchPageHandle_eq hpage]
      simp only [hrest, bind, Except.bind, pure, Except.pure, pagesFrom, List.length_append]
      rw [← length_pageRids h hpage]
      push_cast
      rfl

theorem getRecordCount_spec (h : RmInv f) : f.getRecordCount = .ok f.rids.length := by
  have := h.numPages
  exact countFrom_spec h le_rfl (by omega)

section Congr

variable {f' : RmFileHandle}

theorem isSet_eq_isSome (hp : f.pages p = some page) {i : Nat} (hi : i < f.fileHdr.numRecordsPerPage) :
    isSet page.data bitmapStart i = (f.entry ⟨p, i⟩).isSome := by
  rw [entry]
  simp only [hp, Int.natCast_nonneg, Int.toNat_natCast, true_and, if_pos hi, slotEntry]
  split <;> rename_i hset <;> simp [hset]

theorem slotsFrom_congr {page' : RmPage} (hcap : f'.fileHdr.numRecordsPerPage = f.fileHdr.numRecordsPerPage)
    (hp : f.pages p = some page) (hp' : f'.pages p = some page')
    (he : ∀ i : Nat, k ≤ i → f'.entry ⟨p, i⟩ = f.entry ⟨p, i⟩) :
    f'.slotsFrom p page' k = f.slotsFrom p page k := by
  rw [slotsFrom, slotsFrom, hcap]
  congr 1
  refine List.filter_congr fun i hi => ?_
  rw [List.mem_range'_1] at hi
  rw [isSet_eq_isSome hp (by omega), isSet_eq_isSome hp' (by omega), he i hi.1]

theorem pagesFrom_congr (hcap : f'.fileHdr.numRecordsPerPage = f.fileHdr.numRecordsPerPage)
    (hpages : ∀ q, f'.pages q ≠ none ↔ f.pages q ≠ none)
    (he : ∀ r : Rid, p ≤ r.pageNo → f'.entry r = f.entry r) :
    f'.pagesFrom p left = f.pagesFrom p left := by
  induction left generalizing p with
  | zero => rfl
  | succ left ih =>
      have hpage : f'.pageRids p = f.pageRids p := by
        cases hp : f.pages p with
        | none => rw [pageRids, pageRids, hp, not_not.1 fun hc => (hpages p).1 hc hp]
        | some page =>
            obtain ⟨page', hp'⟩ := Option.ne_none_iff_exists'.1 ((hpages p).2 (by rw [hp]; simp))
            rw [pageRids_eq hp, pageRids_eq hp']
            exact slotsFrom_congr hcap hp hp' fun i _ => he _ le_rfl
      rw [pagesFrom, pagesFrom, hpage, ih fun r hr => he r (by omega)]

/-- What lies behind a position is not changed by a change at that position. -/
theorem behind_congr (hcap : f'.fileHdr.numRecordsPerPage = f.fileHdr.numRecordsPerPage)
    (hnum : f'.fileHdr.numPages = f.fileHdr.numPages) (hpages : ∀ q, f'.pages q ≠ none ↔ f.pages q ≠ none)
    (hin : f.InFile rid) (he : ∀ r, r ≠ rid → f'.entry r = f.entry r) : f'.behind rid = f.behind rid := by
  obtain ⟨page, hp⟩ := Option.ne_none_iff_exists'.1 hin.page
  obtain ⟨page', hp'⟩ := Option.ne_none_iff_exists'.1 ((hpages _).2 hin.page)
  have hnn := hin.nonneg
  rw [behind, behind, hp, hp', hnum]
  simp only
  rw [pagesFrom_congr hcap hpages fun r hr => he r ?_, slotsFrom_congr hcap hp hp' fun i hi => he _ ?_]
  · intro hc
    have := congrArg Rid.slotNo hc
    simp only at this
    omega
  · rintro rfl
    omega

end Congr

theorem slotsFrom_search (n : Nat) (hn : f.fileHdr.numRecordsPerPage = k + n) : f.slotsFrom p page k =
    if search page.data bitmapStart true n k < f.fileHdr.numRecordsPerPage then
      ⟨p, search page.data bitmapStart true n k⟩ :: f.slotsFrom p page
        (search page.data bitmapStart true n k + 1)
    else [] := by
  induction n generalizing k with
  | zero =>
      rw [search, if_neg (by omega), slotsFrom, show f.fileHdr.numRecordsPerPage - k = 0 by omega]
      rfl
  | succ n ih =>
      have hcons : List.range' k (f.fileHdr.numRecordsPerPage - k) =
          k :: List.range' (k + 1) (f.fileHdr.numRecordsPerPage - (k + 1)) := by
        rw [show f.fileHdr.numRecordsPerPage - k = (f.fileHdr.numRecordsPerPage - (k + 1)) + 1 by omega,
          List.range'_succ]
      rw [search]
      split
      · rename_i hset
        rw [if_pos (by omega), slotsFrom, hcons, List.filter_cons_of_pos hset]
        rfl
      · rename_i hset
        rw [← ih (by omega), slotsFrom, hcons, List.filter_cons_of_neg hset]
        rfl

theorem slotsFrom_nextBit (curr : Int) (hlo : -1 ≤ curr)
    (hlt : curr < f.fileHdr.numRecordsPerPage) {slotNo : Nat}
    (hs : nextBit page.data bitmapStart true f.fileHdr.numRecordsPerPage curr = slotNo) :
    f.slotsFrom p page (curr + 1).toNat =
      if slotNo < f.fileHdr.numRecordsPerPage
      then ⟨p, slotNo⟩ :: f.slotsFrom p page (slotNo + 1) else [] := by
  rw [nextBit] at hs
  rw [slotsFrom_search (f.fileHdr.numRecordsPerPage - (curr + 1).toNat) (by omega), hs]

end RmFileHandle

namespace RmScan

variable {f : RmFileHandle} {rid : Rid} {p : Int} {page : RmPage} {left : Nat} {as : List Rid}

def Stands (f : RmFileHandle) (rid : Rid) (as : List Rid) : Prop :=
  rid.slotNo = -1 ∧ as = [] ∨ ∃ page left, f.pages rid.pageNo = some page ∧ 0 ≤ rid.slotNo ∧
    rid.slotNo < f.fileHdr.numRecordsPerPage ∧ rid.pageNo + 1 + (left : Nat) = f.fileHdr.numPages ∧
    as = rid :: (f.slotsFrom rid.pageNo page (rid.slotNo.toNat + 1) ++ f.pagesFrom (rid.pageNo + 1) left)

theorem nextFrom_spec (h : RmInv f) (hpage : f.pages rid.pageNo = some page) (hslot : -1 ≤ rid.slotNo)
    (hlt : rid.slotNo < f.fileHdr.numRecordsPerPage) (hleft : rid.pageNo + 1 + left = f.fileHdr.numPages) :
    ∃ r, nextFrom f page rid left = .ok r ∧
      Stands f r (f.slotsFrom rid.pageNo page (rid.slotNo + 1).toNat ++ f.pagesFrom
        (rid.pageNo + 1) left) := by
  induction left generalizing rid page with
  | zero =>
      obtain ⟨slotNo, hs⟩ : ∃ n,
        nextBit page.data bitmapStart true f.fileHdr.numRecordsPerPage rid.slotNo = n := ⟨_, rfl⟩
      rw [slotsFrom_nextBit _ hslot hlt hs]
      simp only [nextFrom, hs]
      by_cases hfound : slotNo < f.fileHdr.numRecordsPerPage
      · rw [if_pos hfound, if_pos hfound]
        exact ⟨⟨rid.pageNo, slotNo⟩, rfl, .inr ⟨page, 0, hpage, by simp, by simpa using hfound, hleft, rfl⟩⟩
      · rw [if_neg hfound, if_neg hfound]
        exact ⟨⟨rid.pageNo + 1, -1⟩, rfl, .inl ⟨rfl, rfl⟩⟩
  | succ left ih =>
      obtain ⟨slotNo, hs⟩ : ∃ n,
        nextBit page.data bitmapStart true f.fileHdr.numRecordsPerPage rid.slotNo = n := ⟨_, rfl⟩
      rw [slotsFrom_nextBit _ hslot hlt hs]
      simp only [nextFrom, hs]
      by_cases hfound : slotNo < f.fileHdr.numRecordsPerPage
      · rw [if_pos hfound, if_pos hfound]
        exact ⟨⟨rid.pageNo, slotNo⟩, rfl,
          .inr ⟨page, left + 1, hpage, by simp, by simpa using hfound, hleft, rfl⟩⟩
      · push_cast at hleft
        have hp := (h.alloc rid.pageNo).1 (by rw [hpage]; simp)
        obtain ⟨page', hpage'⟩ :=
          Option.ne_none_iff_exists'.1 ((h.alloc (rid.pageNo + 1)).2 ⟨by omega, by omega⟩)
        obtain ⟨r, hr, hstands⟩ :=
          @ih ⟨rid.pageNo + 1, -1⟩ page' hpage' le_rfl (by simp; omega) (by simp; omega)
        rw [if_neg hfound, if_neg hfound]
        refine ⟨r, by simp [fetchPageHandle_eq hpage', hr, bind, Except.bind], ?_⟩
        rw [List.nil_append, pagesFrom, pageRids_eq hpage']
        exact hstands

theorem firstPage_spec (h : RmInv f) (p : Int) (left : Nat) (hp : 1 ≤ p)
    (hleft : p + 1 + left = f.fileHdr.numPages) :
    ∃ q page rest, firstPage f left p = .ok (q, page) ∧ f.pages q = some page ∧ q + 1 +
    (rest : Nat) = f.fileHdr.numPages ∧
      f.pagesFrom p (left + 1) = f.slotsFrom q page 0 ++ f.pagesFrom (q + 1) rest ∧
      (f.slotsFrom q page 0 = [] → rest = 0) := by
  induction left generalizing p with
  | zero =>
      obtain ⟨page, hpage⟩ := Option.ne_none_iff_exists'.1 ((h.alloc p).2 ⟨hp, by omega⟩)
      refine ⟨p, page, 0, ?_, hpage, hleft, ?_, fun _ => rfl⟩
      · simp [firstPage, fetchPageHandle_eq hpage, bind, Except.bind, pure, Except.pure]
      · simp only [pagesFrom, pageRids_eq hpage]
  | succ left ih =>
      push_cast at hleft
      obtain ⟨page, hpage⟩ := Option.ne_none_iff_exists'.1 ((h.alloc p).2 ⟨hp, by omega⟩)
      have hlen := length_pageRids h hpage
      rw [pageRids_eq hpage] at hlen
      by_cases hzero : page.pageHdr.numRecords = 0
      · have hnil : f.slotsFrom p page 0 = [] := List.length_eq_zero_iff.1 (by omega)
        obtain ⟨q, page', rest, hrun, hq, hrest, heq, hlast⟩ := ih (p + 1) (by omega) (by omega)
        refine ⟨q, page', rest, ?_, hq, hrest, ?_, hlast⟩
        · simp [firstPage, fetchPageHandle_eq hpage, hzero, hrun, bind, Except.bind]
        · rw [pagesFrom, pageRids_eq hpage, hnil, List.nil_append, heq]
      · refine ⟨p, page, left + 1, ?_, hpage, by push_cast; omega, ?_, fun hnil => ?_⟩
        · simp [firstPage, fetchPageHandle_eq hpage, hzero, bind, Except.bind, pure, Except.pure]
        · rw [pagesFrom, pageRids_eq hpage]
        · rw [hnil] at hlen
          exact absurd hlen.symm hzero

theorem start_spec (h : RmInv f) : ∃ r, start f = .ok r ∧ Stands f r f.rids := by
  have hpages := h.numPages
  rw [start]
  split
  · rename_i hone
    refine ⟨_, rfl, .inl ⟨rfl, ?_⟩⟩
    rw [rids, hone]
    rfl
  · rename_i hone
    obtain ⟨q, page, rest, hrun, hq, hrest, heq, hlast⟩ :=
      firstPage_spec h 1 (f.fileHdr.numPages - 2) le_rfl (by omega)
    rw [show f.fileHdr.numPages - 2 + 1 = f.fileHdr.numPages - 1 by omega] at heq
    rw [hrun, rids, heq]
    obtain ⟨slotNo, hs⟩ : ∃ n, firstBit page.data bitmapStart true f.fileHdr.numRecordsPerPage = n := ⟨_, rfl⟩
    have hle := (firstBit_spec page.data bitmapStart true f.fileHdr.numRecordsPerPage).1
    have hslots : f.slotsFrom q page 0 =
        if slotNo < f.fileHdr.numRecordsPerPage then ⟨q, slotNo⟩ :: f.slotsFrom q page (slotNo + 1) else [] :=
      slotsFrom_nextBit (-1) le_rfl (by omega) hs
    rw [hs] at hle
    simp only [bind, Except.bind, hs]
    by_cases hfound : slotNo = f.fileHdr.numRecordsPerPage
    · rw [if_neg (by omega)] at hslots
      rw [if_pos hfound, hslots, hlast hslots]
      exact ⟨⟨q, -1⟩, rfl, .inl ⟨rfl, rfl⟩⟩
    · rw [if_pos (by omega)] at hslots
      rw [if_neg hfound, hslots]
      exact ⟨⟨q, slotNo⟩, rfl, .inr ⟨page, rest, hq, by simp, by simp; omega, hrest, rfl⟩⟩

theorem Stands.behind {rest : List Rid} (hs : Stands f rid (rid :: rest)) :
    f.InFile rid ∧ rest = f.behind rid := by
  obtain ⟨-, hc⟩ | ⟨page, left, hpage, hslot, hlt, hleft, heq⟩ := hs
  · cases hc
  · refine ⟨⟨by rw [hpage]; simp, hslot, by omega⟩, ?_⟩
    rw [RmFileHandle.behind, hpage]
    simp only
    rw [show (f.fileHdr.numPages - (rid.pageNo + 1)).toNat = left by omega]
    exact (List.cons.inj heq).2

theorem next_spec (h : RmInv f) (hin : f.InFile rid) :
    ∃ r, next f rid = .ok r ∧ Stands f r (f.behind rid) := by
  obtain ⟨page, hpage⟩ := Option.ne_none_iff_exists'.1 hin.page
  have hp := (h.alloc _).1 hin.page
  have hleft : rid.pageNo + 1 + (f.fileHdr.numPages - (rid.pageNo + 1)).toNat = f.fileHdr.numPages := by omega
  obtain ⟨r, hr, hs⟩ :=
    nextFrom_spec h hpage (by have := hin.nonneg; omega)
      (by have := hin.slot; have := hin.nonneg; omega) hleft
  have hslot : (rid.slotNo + 1).toNat = rid.slotNo.toNat + 1 := by
    have := hin.nonneg
    omega
  refine ⟨r, by simp [next, fetchPageHandle_eq hpage, bind, Except.bind, hr], ?_⟩
  rw [RmFileHandle.behind, hpage]
  rw [hslot] at hs
  exact hs

theorem Stands.yields (h : RmInv f) (hs : Stands f rid as) : (cursor f).Yields rid as := by
  obtain ⟨n, hn⟩ : ∃ n, as.length = n := ⟨_, rfl⟩
  induction n generalizing rid as with
  | zero =>
      obtain ⟨hslot, rfl⟩ | ⟨page, left, -, -, -, -, rfl⟩ := hs
      · exact .done (by simp [cursor, isEnd, hslot])
      · simp at hn
  | succ n ih =>
      obtain ⟨rest, rfl⟩ : ∃ rest, as = rid :: rest := by
        obtain ⟨-, rfl⟩ | ⟨page, left, -, -, -, -, rfl⟩ := hs
        · simp at hn
        · exact ⟨_, rfl⟩
      obtain ⟨hin, rfl⟩ := hs.behind
      obtain ⟨r, hr, hstands⟩ := next_spec h hin
      refine .step (t := r) ?_ rfl hr (ih hstands (by simpa using hn))
      have := hin.nonneg
      simp only [cursor, isEnd, decide_eq_false_iff_not]
      omega

theorem scan_yields (h : RmInv f) : ∃ r, start f = .ok r ∧ (cursor f).Yields r f.rids := by
  obtain ⟨r, hr, hs⟩ := start_spec h
  exact ⟨r, hr, hs.yields h⟩

end RmScan

end Rmdb
