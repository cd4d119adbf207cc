import Rmdb.Lib.Chain
import Rmdb.Record.RecordMap

namespace Rmdb

open Bitmap

namespace RmFileHandle

variable {f f' : RmFileHandle} {p q : Int} {page old : RmPage} {rid : Rid} {buf : Bytes} {l : List Int}

def link (f : RmFileHandle) (p : Int) : Int :=
  match f.pages p with
  | some page => page.pageHdr.nextFreePageNo
  | none => rmNoPage

def Full (f : RmFileHandle) (p : Int) : Prop :=
  ∃ page, f.pages p = some page ∧ page.pageHdr.numRecords = f.fileHdr.numRecordsPerPage

/-- The chain `first_free_page_no`, `next_free_page_no`, ... -/
def FreeList (f : RmFileHandle) (l : List Int) : Prop := Chain f.link rmNoPage f.fileHdr.firstFreePageNo l

/-- The links from `p` on lead to the end of the list, and only through pages with a free slot. -/
def Roomy (f : RmFileHandle) (p : Int) : Prop := ∃ l, Chain f.link rmNoPage p l ∧ ∀ q ∈ l, ¬ f.Full q

/-- A page that is full has no link. -/
def FullOut (f : RmFileHandle) : Prop := ∀ p, f.Full p → f.link p = rmNoPage

section Links

theorem link_eq (hp : f.pages p = some page) : f.link p = page.pageHdr.nextFreePageNo := by rw [link, hp]

theorem full_iff (hp : f.pages p = some page) :
    f.Full p ↔ page.pageHdr.numRecords = f.fileHdr.numRecordsPerPage := by
  constructor
  · rintro ⟨page', hp', hfull⟩
    cases hp.symm.trans hp'
    exact hfull
  · exact fun hfull => ⟨page, hp, hfull⟩

instance : Decidable (f.Full p) :=
  match h : f.pages p with
  | none => .isFalse (by rintro ⟨page, hp, -⟩; cases h.symm.trans hp)
  | some _ => decidable_of_iff _ (full_iff h).symm

theorem link_setPage : (f.setPage p page).link = Function.update f.link p page.pageHdr.nextFreePageNo := by
  funext q
  by_cases hq : q = p
  · subst hq
    rw [Function.update_self, link_eq setPage_self]
  · rw [Function.update_of_ne hq, link, setPage_of_ne hq, link]

theorem full_setPage_self :
    (f.setPage p page).Full p ↔ page.pageHdr.numRecords = f.fileHdr.numRecordsPerPage :=
  full_iff setPage_self

theorem full_setPage_of_ne (hq : q ≠ p) : (f.setPage p page).Full q ↔ f.Full q := by
  rw [Full, setPage_of_ne hq]
  rfl

theorem link_setPage_same (hp : f.pages p = some old)
    (hnext : page.pageHdr.nextFreePageNo = old.pageHdr.nextFreePageNo) :
    (f.setPage p page).link = f.link := by
  rw [link_setPage, hnext, ← link_eq hp, Function.update_eq_self]

theorem Roomy.nil (f : RmFileHandle) : f.Roomy rmNoPage := ⟨[], .nil, nofun⟩

theorem Roomy.link (h : f.Roomy p) (hp : p ≠ rmNoPage) : f.Roomy (f.link p) := by
  obtain ⟨l, hl, hroom⟩ := h
  cases hl with
  | nil => exact absurd rfl hp
  | cons _ hl => exact ⟨_, hl, fun q hq => hroom q (List.mem_cons_of_mem _ hq)⟩

theorem Roomy.not_full (h : f.Roomy p) (hp : p ≠ rmNoPage) : ¬ f.Full p := by
  obtain ⟨l, hl, hroom⟩ := h
  cases hl with
  | nil => exact absurd rfl hp
  | cons _ _ => exact hroom p List.mem_cons_self

theorem Roomy.mono (hl : Chain f.link rmNoPage p l) (hroom : ∀ q ∈ l, ¬ f.Full q)
    (hlink : ∀ q ∈ l, f'.link q = f.link q) (hfull : ∀ q ∈ l, f'.Full q → f.Full q) : f'.Roomy p :=
  ⟨l, hl.frame hlink, fun q hq hc => hroom q hq (hfull q hq hc)⟩

theorem RmInv.ne_noPage (h : RmInv f) (hp : f.pages p ≠ none) : p ≠ rmNoPage := by
  rintro rfl
  have := ((h.alloc _).1 hp).1
  rw [rmNoPage] at this
  omega

end Links

section Steps

def relinked (page : RmPage) (next : Int) : RmPage := ⟨⟨next, page.pageHdr.numRecords⟩, page.data⟩

theorem unlinkFull_eq (hfull : page.pageHdr.numRecords = f.fileHdr.numRecordsPerPage) :
    f.unlinkFull p page = (f.setFirstFree page.pageHdr.nextFreePageNo).setPage p
      (relinked page rmNoPage) := by
  rw [RmFileHandle.unlinkFull, if_pos hfull]
  rfl

theorem releasePageHandle_front (hroom : page.pageHdr.numRecords ≠ f.fileHdr.numRecordsPerPage)
    (hnext : page.pageHdr.nextFreePageNo ≠ f.fileHdr.firstFreePageNo) :
    f.releasePageHandle p page = (f.setFirstFree p).setPage p (relinked page f.fileHdr.firstFreePageNo) := by
  rw [RmFileHandle.releasePageHandle, if_neg hroom, if_pos hnext]
  rfl

theorem releasePageHandle_stay (hroom : page.pageHdr.numRecords ≠ f.fileHdr.numRecordsPerPage)
    (hnext : page.pageHdr.nextFreePageNo = f.fileHdr.firstFreePageNo) :
    f.releasePageHandle p page = f.setPage p (relinked page rmNoPage) := by
  rw [RmFileHandle.releasePageHandle, if_neg hroom, if_neg (not_not.2 hnext)]
  rfl

theorem FullOut.setPage (h : f.FullOut) (hroom : page.pageHdr.numRecords ≠ f.fileHdr.numRecordsPerPage) :
    (f.setPage p page).FullOut := by
  intro q hq
  by_cases hqp : q = p
  · subst hqp
    exact absurd (full_setPage_self.1 hq) hroom
  · rw [link_setPage, Function.update_of_ne hqp]
    exact h q ((full_setPage_of_ne hqp).1 hq)

theorem FullOut.setPage_same (h : f.FullOut) (hp : f.pages p = some old)
    (hnext : page.pageHdr.nextFreePageNo = old.pageHdr.nextFreePageNo)
    (hfull : page.pageHdr.numRecords = f.fileHdr.numRecordsPerPage →
      old.pageHdr.numRecords = f.fileHdr.numRecordsPerPage) :
    (f.setPage p page).FullOut := by
  intro q hq
  rw [link_setPage_same hp hnext]
  refine h q ?_
  by_cases hqp : q = p
  · subst hqp
    exact (full_iff hp).2 (hfull (full_setPage_self.1 hq))
  · exact (full_setPage_of_ne hqp).1 hq

theorem Roomy.setPage (h : f.Roomy q) (hp : f.pages p = some old)
    (hnext : page.pageHdr.nextFreePageNo = old.pageHdr.nextFreePageNo)
    (hroom : page.pageHdr.numRecords ≠ f.fileHdr.numRecordsPerPage) : (f.setPage p page).Roomy q := by
  obtain ⟨l, hl, hlroom⟩ := h
  refine Roomy.mono hl hlroom (fun r _ => by rw [link_setPage_same hp hnext]) fun r _ hr => ?_
  by_cases hrp : r = p
  · subst hrp
    exact absurd (full_setPage_self.1 hr) hroom
  · exact (full_setPage_of_ne hrp).1 hr

theorem FullOut.unlinkFull (h : f.FullOut) : (f.unlinkFull p page).FullOut := by
  by_cases hfull : page.pageHdr.numRecords = f.fileHdr.numRecordsPerPage
  · rw [unlinkFull_eq hfull]
    intro q hq
    rw [link_setPage]
    by_cases hqp : q = p
    · subst hqp
      exact Function.update_self ..
    · rw [Function.update_of_ne hqp]
      exact h q ((full_setPage_of_ne hqp).1 hq)
  · rw [RmFileHandle.unlinkFull, if_neg hfull]
    exact h.setPage hfull

/-- When a page becomes full, the list goes on behind it. -/
theorem unlinkFull_roomy (hne : p ≠ rmNoPage) (hp : f.pages p = some old)
    (hnext : page.pageHdr.nextFreePageNo = old.pageHdr.nextFreePageNo)
    (hfull : page.pageHdr.numRecords = f.fileHdr.numRecordsPerPage) :
    (f.unlinkFull p page).Roomy (f.unlinkFull p page).fileHdr.firstFreePageNo ↔ f.Roomy (f.link p) := by
  rw [unlinkFull_eq hfull, link_eq hp, ← hnext]
  change RmFileHandle.Roomy _ page.pageHdr.nextFreePageNo ↔ _
  constructor
  · rintro ⟨l, hl, hroom⟩
    have hother : ∀ q ∈ l, q ≠ p := by
      rintro q hq rfl
      exact hroom q hq (full_setPage_self.2 hfull)
    refine Roomy.mono hl hroom (fun q hq => ?_) fun q hq hc => (full_setPage_of_ne (hother q hq)).2 hc
    rw [link_setPage, Function.update_of_ne (hother q hq)]
    rfl
  · rintro ⟨l, hl, hroom⟩
    have hother : ∀ q ∈ l, q ≠ p := by
      rintro q hq rfl
      rw [hnext, ← link_eq hp] at hl
      exact (Chain.cons hne hl).notMem_of_cons hq
    refine Roomy.mono hl hroom (fun q hq => ?_) fun q hq hc => (full_setPage_of_ne (hother q hq)).1 hc
    rw [link_setPage, Function.update_of_ne (hother q hq)]
    rfl

theorem FullOut.releasePageHandle (h : f.FullOut)
    (hroom : page.pageHdr.numRecords ≠ f.fileHdr.numRecordsPerPage) :
    (f.releasePageHandle p page).FullOut := by
  have hfront : (f.setFirstFree p).FullOut := h
  by_cases hnext : page.pageHdr.nextFreePageNo = f.fileHdr.firstFreePageNo
  · rw [releasePageHandle_stay hroom hnext]
    exact h.setPage hroom
  · rw [releasePageHandle_front hroom hnext]
    exact hfront.setPage hroom

theorem releasePageHandle_list (hne : p ≠ rmNoPage)
    (hroom : page.pageHdr.numRecords ≠ f.fileHdr.numRecordsPerPage)
    (hnext : page.pageHdr.nextFreePageNo ≠ f.fileHdr.firstFreePageNo) (hl : f.FreeList l) (hp : p ∉ l) :
    (f.releasePageHandle p page).FreeList (p :: l) := by
  rw [releasePageHandle_front hroom hnext]
  change Chain _ rmNoPage p (p :: l)
  refine .cons hne ?_
  have hlink : ((f.setFirstFree p).setPage p (relinked page f.fileHdr.firstFreePageNo)).link p =
      f.fileHdr.firstFreePageNo := by
    rw [link_setPage, Function.update_self]
    rfl
  rw [hlink, link_setPage]
  refine hl.frame fun q hq => Function.update_of_ne ?_ ..
  rintro rfl
  exact hp hq

theorem releasePageHandle_roomy (hne : p ≠ rmNoPage)
    (hroom : page.pageHdr.numRecords ≠ f.fileHdr.numRecordsPerPage) (hl : f.FreeList l)
    (hlroom : ∀ q ∈ l, ¬ f.Full q) (hp : p ∉ l) :
    (f.releasePageHandle p page).Roomy (f.releasePageHandle p page).fileHdr.firstFreePageNo := by
  by_cases hnext : page.pageHdr.nextFreePageNo = f.fileHdr.firstFreePageNo
  · have hother : ∀ q ∈ l, q ≠ p := by
      rintro q hq rfl
      exact hp hq
    rw [releasePageHandle_stay hroom hnext]
    refine Roomy.mono hl hlroom (fun q hq => ?_) fun q hq hc => (full_setPage_of_ne (hother q hq)).1 hc
    rw [link_setPage, Function.update_of_ne (hother q hq)]
  · refine ⟨p :: l, releasePageHandle_list hne hroom hnext hl hp, fun q hq => ?_⟩
    rw [releasePageHandle_front hroom hnext]
    by_cases hqp : q = p
    · subst hqp
      rw [full_setPage_self]
      exact hroom
    · rw [full_setPage_of_ne hqp]
      exact hlroom q ((List.mem_cons.1 hq).resolve_left hqp)

/-- A page of the list that is put in front of it makes the list a cycle. -/
theorem releasePageHandle_cycle (hold : f.pages p = some old)
    (hroom : page.pageHdr.numRecords ≠ f.fileHdr.numRecordsPerPage)
    (hnext : page.pageHdr.nextFreePageNo = old.pageHdr.nextFreePageNo) (hl : f.FreeList l) (hp : p ∈ l) :
    ¬ (f.releasePageHandle p page).Roomy (f.releasePageHandle p page).fileHdr.firstFreePageNo := by
  have hfront : page.pageHdr.nextFreePageNo ≠ f.fileHdr.firstFreePageNo := by
    intro hc
    rw [hnext, ← link_eq hold] at hc
    obtain ⟨l₁, l₂, rfl⟩ := List.append_of_mem hp
    exact hl.no_chain_of_back hp hc (fun _ _ => rfl) hl.suffix
  rw [releasePageHandle_front hroom hfront]
  rintro ⟨l', hl', -⟩
  rw [link_setPage] at hl'
  exact hl.no_chain_of_back hp (Function.update_self ..) (fun q hq => Function.update_of_ne hq ..) hl'

end Steps

section Operations

def LastFree (f : RmFileHandle) (rid : Rid) : Prop :=
  ∃ page, f.pages rid.pageNo = some page ∧ page.pageHdr.numRecords = (f.fileHdr.numRecordsPerPage : Int) - 1 ∧
    isSet page.data bitmapStart rid.slotNo.toNat = false

theorem lastFree_iff (hp : f.pages rid.pageNo = some page) : f.LastFree rid ↔
    page.pageHdr.numRecords =
    (f.fileHdr.numRecordsPerPage : Int) - 1 ∧ isSet page.data bitmapStart rid.slotNo.toNat = false := by
  constructor
  · rintro ⟨page', hp', h⟩
    cases hp.symm.trans hp'
    exact h
  · exact fun h => ⟨page, hp, h⟩

instance : Decidable (f.LastFree rid) :=
  match h : f.pages rid.pageNo with
  | none => .isFalse (by rintro ⟨page, hp, -⟩; cases h.symm.trans hp)
  | some _ => decidable_of_iff _ (lastFree_iff h).symm

theorem FullOut.createNewPageHandle (h : RmInv f) (hout : f.FullOut) : f.createNewPageHandle.2.FullOut := by
  have hcap := h.fits.capacity_pos
  intro q hq
  by_cases hqp : q = f.fd2pageno
  · subst hqp
    obtain ⟨page, hpage, hfull⟩ := hq
    have hnew : f.createNewPageHandle.2.pages f.fd2pageno = some (emptyPage f.fileHdr.firstFreePageNo) :=
      Function.update_self ..
    rw [hnew] at hpage
    cases hpage
    have hn : f.createNewPageHandle.2.fileHdr.numRecordsPerPage = f.fileHdr.numRecordsPerPage := rfl
    simp only [emptyPage, hn] at hfull
    omega
  · have hold : f.createNewPageHandle.2.pages q = f.pages q := Function.update_of_ne hqp ..
    rw [Full, hold] at hq
    rw [link, hold]
    exact hout q hq

theorem createPageHandle_room (h : RmInv f) (hout : f.FullOut) (hroom : f.Roomy f.fileHdr.firstFreePageNo) :
    ∃ p f₀ page, f.createPageHandle = (p, f₀) ∧ RmInv f₀ ∧ f₀.FullOut ∧ f₀.pages p = some page ∧
      firstBit page.data bitmapStart false f₀.fileHdr.numRecordsPerPage < f₀.fileHdr.numRecordsPerPage ∧
      f₀.Roomy p ∧ f₀.fileHdr.firstFreePageNo = p := by
  obtain ⟨p, f₀, page, hc, h₀, hp, -, -, -, hhead, hcase⟩ := createPageHandle_spec h
  have hne := h₀.ne_noPage (by rw [hp]; simp)
  have hcap := h₀.fits.capacity_pos
  rcases hcase with ⟨hnone, rfl, rfl⟩ | ⟨rfl, hsome, rfl⟩
  · have hempty : ¬ f.createNewPageHandle.2.Full p := by
      rw [full_iff hp, emptyPage]
      simp only
      omega
    refine ⟨p, _, _, hc, h₀, hout.createNewPageHandle h, hp, ?_, ?_, hhead⟩
    · rw [firstBit_false_lt, emptyPage, count_zero]
      omega
    · refine ⟨[p], .cons hne ?_, ?_⟩
      · rw [link_eq hp]
        exact .nil
      · intro q hq
        rw [List.mem_singleton.1 hq]
        exact hempty
  · refine ⟨_, _, page, hc, h₀, hout, hp, ?_, hroom, rfl⟩
    have hnot := hroom.not_full hne
    rw [full_iff hp, h.count hp] at hnot
    rw [firstBit_false_lt]
    have hle : Bitmap.count page.data bitmapStart f₀.fileHdr.numRecordsPerPage ≤
      f₀.fileHdr.numRecordsPerPage := count_le
    omega

structure HasRoom (f : RmFileHandle) : Prop where
  list : ∃ l, f.FreeList l ∧ ∀ p ∈ l, ¬ f.Full p
  insert : ∀ buf, ∃ rid, (f.insertRecord buf).1 = .ok rid
  get : ∃ rid, f.getFreeRecord.1 = .ok rid

theorem hasRoom_iff (h : RmInv f) (hout : f.FullOut) : f.HasRoom ↔ f.Roomy f.fileHdr.firstFreePageNo := by
  refine ⟨fun hroom => hroom.list, fun hroom => ?_⟩
  obtain ⟨p, f₀, page, hc, h₀, -, hp, hlt, -, -⟩ := createPageHandle_room h hout hroom
  have hne : firstBit page.data bitmapStart false f₀.fileHdr.numRecordsPerPage ≠
    f₀.fileHdr.numRecordsPerPage := by omega
  refine ⟨hroom, fun buf => ⟨⟨p, firstBit page.data bitmapStart false f₀.fileHdr.numRecordsPerPage⟩, ?_⟩,
    ⟨⟨p, firstBit page.data bitmapStart false f₀.fileHdr.numRecordsPerPage⟩, ?_⟩⟩
  · rw [insertRecord_eq hc hp, if_neg hne]
  · simp only [getFreeRecord, hc, fetchPageHandle_eq hp, if_neg hne]

/-- `insert_record(buf)` takes a slot of the head, and the head off the list when that was its last one. -/
theorem insertRecord_room (buf : Bytes) (h : RmInv f) (hout : f.FullOut)
    (hroom : f.Roomy f.fileHdr.firstFreePageNo) :
    (f.insertRecord buf).2.FullOut ∧
    (f.insertRecord buf).2.Roomy (f.insertRecord buf).2.fileHdr.firstFreePageNo := by
  obtain ⟨p, f₀, page, hc, h₀, hout₀, hp, hlt, hroom₀, hhead⟩ := createPageHandle_room h hout hroom
  rw [insertRecord_eq hc hp, if_neg (by omega)]
  refine ⟨hout₀.unlinkFull, ?_⟩
  have hne := h₀.ne_noPage (by rw [hp]; simp)
  by_cases hfull : (f₀.filled page buf).pageHdr.numRecords = f₀.fileHdr.numRecordsPerPage
  · have hnext : (f₀.filled page buf).pageHdr.nextFreePageNo = page.pageHdr.nextFreePageNo := rfl
    exact (unlinkFull_roomy hne hp hnext hfull).2 (hroom₀.link hne)
  · rw [RmFileHandle.unlinkFull, if_neg hfull]
    change RmFileHandle.Roomy _ f₀.fileHdr.firstFreePageNo
    rw [hhead]
    exact hroom₀.setPage hp rfl hfull

theorem filledAt_full (hp : f.pages rid.pageNo = some page) :
    (f.filledAt page rid.slotNo.toNat buf).pageHdr.numRecords = f.fileHdr.numRecordsPerPage ↔
      f.LastFree rid ∨ f.Full rid.pageNo ∧ isSet page.data bitmapStart rid.slotNo.toNat = true := by
  rw [lastFree_iff hp, full_iff hp, filledAt]
  cases isSet page.data bitmapStart rid.slotNo.toNat with
  | true => simp
  | false =>
      simp only [Bool.false_eq_true, if_false, and_true, and_false, or_false]
      omega

theorem RmInv.set_of_full (h : RmInv f) (hin : f.InFile rid) (hp : f.pages rid.pageNo = some page)
    (hfull : f.Full rid.pageNo) :
    isSet page.data bitmapStart rid.slotNo.toNat = true := by
  by_contra hc
  rw [full_iff hp, h.count hp] at hfull
  have hcount := count_set hin.slot (Bool.eq_false_iff.2 hc)
  have hle : Bitmap.count (set page.data bitmapStart rid.slotNo.toNat) bitmapStart
    f.fileHdr.numRecordsPerPage ≤
    f.fileHdr.numRecordsPerPage := count_le
  omega

/-- `insert_record(rid, buf)` that takes the last free slot of a page puts what is behind that
page in the place of the whole list. -/
theorem insertRecordAt_room (h : RmInv f) (hout : f.FullOut) (hroom : f.Roomy f.fileHdr.firstFreePageNo)
    (hin : f.InFile rid) (hrun : f.insertRecordAt rid buf = .ok f') :
    f'.FullOut ∧ (f'.Roomy f'.fileHdr.firstFreePageNo ↔ (f.LastFree rid → f.Roomy (f.link rid.pageNo))) := by
  obtain ⟨page, hp⟩ := Option.ne_none_iff_exists'.1 hin.page
  rw [insertRecordAt_eq hp] at hrun
  cases hrun
  refine ⟨hout.unlinkFull, ?_⟩
  by_cases hfull : (f.filledAt page rid.slotNo.toNat buf).pageHdr.numRecords = f.fileHdr.numRecordsPerPage
  · rw [unlinkFull_roomy (h.ne_noPage hin.page) hp filledAt_next hfull]
    rcases (filledAt_full hp).1 hfull with hlast | ⟨hold, -⟩
    · exact ⟨fun hr _ => hr, fun hr => hr hlast⟩
    · rw [hout _ hold]
      exact ⟨fun hr _ => hr, fun _ => Roomy.nil f⟩
  · rw [RmFileHandle.unlinkFull, if_neg hfull]
    exact ⟨fun _ hlast => absurd ((filledAt_full hp).2 (.inl hlast)) hfull, fun _ =>
      hroom.setPage hp filledAt_next hfull⟩

/-- `delete_record` of a slot that is not set puts its page on the list although it may stand there. -/
theorem deleteRecord_room (h : RmInv f) (hout : f.FullOut) (hroom : f.Roomy f.fileHdr.firstFreePageNo)
    (hin : f.InFile rid) (hrun : f.deleteRecord rid = .ok f') :
    f'.FullOut ∧ (f'.Roomy f'.fileHdr.firstFreePageNo ↔
      (f.LastFree rid → ¬ ∃ l, f.FreeList l ∧ rid.pageNo ∈ l)) := by
  obtain ⟨page, hp⟩ := Option.ne_none_iff_exists'.1 hin.page
  obtain ⟨l, hl, hlroom⟩ := hroom
  have hne := h.ne_noPage hin.page
  have hcap := h.fits.capacity_pos
  rw [deleteRecord_eq hp] at hrun
  cases hrun
  split
  · rename_i hcount
    have hnot : (cleared page rid.slotNo.toNat).pageHdr.numRecords ≠ f.fileHdr.numRecordsPerPage := by omega
    refine ⟨hout.releasePageHandle hnot, ?_⟩
    rw [lastFree_iff hp]
    cases hset : isSet page.data bitmapStart rid.slotNo.toNat with
    | true =>
        -- the page was full, so it is not on the list
        have hfull : f.Full rid.pageNo := by
          rw [full_iff hp]
          rw [cleared, if_pos hset] at hcount
          simp only at hcount
          omega
        have hnotin : rid.pageNo ∉ l := fun hc => hlroom _ hc hfull
        exact ⟨fun _ hc => by simp at hc, fun _ => releasePageHandle_roomy hne hnot hl hlroom hnotin⟩
    | false =>
        have hsame : cleared page rid.slotNo.toNat = page := by
          rw [cleared, hset]
          rfl
        rw [hsame] at hcount hnot ⊢
        by_cases hmem : rid.pageNo ∈ l
        · refine ⟨fun hr => absurd hr (releasePageHandle_cycle hp hnot rfl hl hmem), fun hr => ?_⟩
          exact absurd ⟨l, hl, hmem⟩ (hr ⟨hcount, rfl⟩)
        · refine ⟨fun _ _ => ?_, fun _ => releasePageHandle_roomy hne hnot hl hlroom hmem⟩
          rintro ⟨l', hl', hmem'⟩
          rw [hl'.unique hl] at hmem'
          exact hmem hmem'
  · rename_i hcount
    have hle : Bitmap.count page.data bitmapStart f.fileHdr.numRecordsPerPage ≤
      f.fileHdr.numRecordsPerPage := count_le
    have hold := h.count hp
    have hnot : (cleared page rid.slotNo.toNat).pageHdr.numRecords ≠ f.fileHdr.numRecordsPerPage := by
      intro hc
      by_cases hset : isSet page.data bitmapStart rid.slotNo.toNat = true
      · rw [cleared, if_pos hset] at hc
        simp only at hc
        omega
      · rw [cleared, if_neg hset, ← full_iff hp] at hc
        exact hset (h.set_of_full hin hp hc)
    refine ⟨hout.setPage hnot,
      ⟨fun _ hlast => ?_, fun _ => Roomy.setPage ⟨l, hl, hlroom⟩ hp cleared_next hnot⟩⟩
    obtain ⟨hlast, hset⟩ := (lastFree_iff hp).1 hlast
    rw [cleared, hset] at hcount
    exact absurd hlast hcount

theorem updateRecord_room (hout : f.FullOut) (hroom : f.Roomy f.fileHdr.firstFreePageNo) (hin : f.InFile rid)
    (hrun : f.updateRecord rid buf = .ok f') : f'.FullOut ∧ f'.Roomy f'.fileHdr.firstFreePageNo := by
  obtain ⟨page, hp⟩ := Option.ne_none_iff_exists'.1 hin.page
  rw [updateRecord, fetchPageHandle_eq hp] at hrun
  cases hrun
  have hlink : (f.setPage rid.pageNo
      { page with data := memcpy page.data (f.slotStart rid.slotNo.toNat) buf f.fileHdr.recordSize
        }).link = f.link :=
    link_setPage_same hp rfl
  have hfull : ∀ q, (f.setPage rid.pageNo
      { page with data := memcpy page.data (f.slotStart rid.slotNo.toNat) buf f.fileHdr.recordSize }).Full
        q → f.Full q := by
    intro q hq
    by_cases hqp : q = rid.pageNo
    · subst hqp
      rw [full_setPage_self] at hq
      exact (full_iff hp).2 hq
    · exact (full_setPage_of_ne hqp).1 hq
  obtain ⟨l, hl, hlroom⟩ := hroom
  constructor
  · intro q hq
    rw [hlink]
    exact hout q (hfull q hq)
  · exact Roomy.mono hl hlroom (fun q _ => by rw [hlink]) fun q _ => hfull q

end Operations

end RmFileHandle

namespace RmOp

open RmFileHandle

variable {f : RmFileHandle} {op : RmOp}

/-- Where a call names the only free slot of a page, that page is not on the list it will be put on, and
the list it hands over to has room. -/
def KeepsRoom (f : RmFileHandle) : RmOp → Prop
  | .insertAt rid _ => f.LastFree rid → f.Roomy (f.link rid.pageNo)
  | .delete rid => f.LastFree rid → ¬ ∃ l, f.FreeList l ∧ rid.pageNo ∈ l
  | _ => True

theorem exec_room (h : RmInv f) (hout : f.FullOut) (hroom : f.Roomy f.fileHdr.firstFreePageNo)
    (hop : op.Legal f) :
    (op.exec f).2.FullOut ∧ ((op.exec f).2.Roomy (op.exec f).2.fileHdr.firstFreePageNo ↔ op.KeepsRoom f) := by
  cases op with
  | insert buf =>
      obtain ⟨hout', hroom'⟩ := insertRecord_room buf h hout hroom
      exact ⟨hout', fun _ => trivial, fun _ => hroom'⟩
  | insertAt rid buf =>
      obtain ⟨f', hrun, -, -⟩ := insertRecordAt_spec h hop.1 hop.2
      rw [exec, hrun]
      exact insertRecordAt_room h hout hroom hop.1 hrun
  | update rid buf =>
      obtain ⟨f', hrun, -, -⟩ := updateRecord_spec h hop.1 hop.2
      obtain ⟨hout', hroom'⟩ := updateRecord_room hout hroom hop.1 hrun
      rw [exec, hrun]
      exact ⟨hout', fun _ => trivial, fun _ => hroom'⟩
  | delete rid =>
      obtain ⟨f', hrun, -, -⟩ := deleteRecord_spec h hop
      rw [exec, hrun]
      exact deleteRecord_room h hout hroom hop hrun
  | reopen => exact ⟨hout, fun _ => trivial, fun _ => hroom⟩

/-- A full page never keeps a link, also where the list is broken. -/
theorem exec_fullOut (h : RmInv f) (hout : f.FullOut) (hop : op.Legal f) : (op.exec f).2.FullOut := by
  cases op with
  | insert buf =>
      obtain ⟨p, f₀, page, hc, h₀, hp, -, -, -, -, hcase⟩ := createPageHandle_spec h
      have hout₀ : f₀.FullOut := by
        rcases hcase with ⟨-, rfl, -⟩ | ⟨-, -, rfl⟩
        · exact hout.createNewPageHandle h
        · exact hout
      change (f.insertRecord buf).2.FullOut
      rw [insertRecord_eq hc hp]
      split
      · exact hout₀
      · exact hout₀.unlinkFull
  | insertAt rid buf =>
      obtain ⟨page, hp⟩ := Option.ne_none_iff_exists'.1 hop.1.page
      rw [exec, insertRecordAt_eq hp]
      exact hout.unlinkFull
  | update rid buf =>
      obtain ⟨page, hp⟩ := Option.ne_none_iff_exists'.1 hop.1.page
      rw [exec, updateRecord, fetchPageHandle_eq hp]
      exact hout.setPage_same hp rfl fun hfull => hfull
  | delete rid =>
      have hin : f.InFile rid := hop
      obtain ⟨page, hp⟩ := Option.ne_none_iff_exists'.1 hin.page
      rw [exec, deleteRecord_eq hp]
      change RmFileHandle.FullOut (if _ then _ else _)
      split
      · exact hout.releasePageHandle (by omega)
      · refine hout.setPage_same hp cleared_next fun hfull => ?_
        -- a page with a record less is not full
        have hle : Bitmap.count page.data bitmapStart f.fileHdr.numRecordsPerPage ≤
          f.fileHdr.numRecordsPerPage := count_le
        have hold := h.count hp
        by_cases hset : isSet page.data bitmapStart rid.slotNo.toNat = true
        · rw [cleared, if_pos hset] at hfull
          simp only at hfull
          omega
        · rw [cleared, if_neg hset] at hfull
          exact hfull
  | reopen => exact hout

theorem run_total (f : RmFileHandle) (ops : List RmOp) : ∃ f', Trace.run step f ops = some f' := by
  induction ops generalizing f with
  | nil => exact ⟨f, rfl⟩
  | cons op ops ih => exact ih _

end RmOp

theorem RmFileHandle.openFile_empty {recordSize : Nat} {file : RmFile}
    (h : RmManager.createFile recordSize = .ok file) (p : Int) :
    (RmManager.openFile file).pages p = none := by
  rw [RmManager.createFile] at h
  split at h
  · cases h
  · cases h
    rfl

theorem RmFileHandle.openFile_room {recordSize : Nat} {file : RmFile}
    (h : RmManager.createFile recordSize = .ok file) :
    (RmManager.openFile file).FullOut ∧ (RmManager.openFile file).FreeList [] := by
  constructor
  · rintro p ⟨page, hp, -⟩
    rw [RmFileHandle.openFile_empty h] at hp
    cases hp
  · rw [RmManager.createFile] at h
    split at h
    · cases h
    · cases h
      exact .nil

/-- The free list always has room exactly when no call breaks it. -/
theorem free_list_has_room_iff (recordSize : Nat) (file : RmFile) (ops : List RmOp)
    (hcreate : RmManager.createFile recordSize = .ok file)
    (hlegal : Trace.Guarded RmOp.step (fun f op => op.Legal f) (RmManager.openFile file) ops) :
    Trace.Always RmOp.step RmFileHandle.HasRoom (RmManager.openFile file) ops ↔
      Trace.Guarded RmOp.step (fun f op => op.KeepsRoom f) (RmManager.openFile file) ops := by
  have hinv := RmFileHandle.openFile_inv hcreate
  obtain ⟨hout, hlist⟩ := RmFileHandle.openFile_room hcreate
  obtain ⟨f', hrun⟩ := RmOp.run_total (RmManager.openFile file) ops
  refine Trace.always_iff_guarded (I := fun f => f.RmInv ∧ f.FullOut) ?_ ?_ ⟨hinv, hout⟩
    ((RmFileHandle.hasRoom_iff hinv hout).2 ⟨[], hlist, nofun⟩) hlegal hrun
  · rintro f op _ ⟨h, hout⟩ hroom hop ⟨⟩
    exact ⟨(op.exec_spec h hop).1, (RmOp.exec_room h hout hroom.list hop).1⟩
  · rintro f op _ ⟨h, hout⟩ hroom hop ⟨⟩
    obtain ⟨hout', hiff⟩ := RmOp.exec_room h hout hroom.list hop
    rw [RmFileHandle.hasRoom_iff (op.exec_spec h hop).1 hout', hiff]

/-- A record of 512 bytes; a page holds seven. -/
def largeRecord : Bytes := List.replicate 512 0

theorem free_list_has_room_iff_few :
    ∃ file, RmManager.createFile 512 = .ok file ∧
      Trace.Always RmOp.step RmFileHandle.HasRoom (RmManager.openFile file)
      [.insert largeRecord, .insertAt ⟨1, 5⟩ largeRecord, .delete ⟨1, 0⟩, .delete ⟨1, 0⟩,
        .update ⟨1, 5⟩ largeRecord, .reopen] := by
  refine ⟨_, rfl, (free_list_has_room_iff 512 _ _ rfl (by decide +kernel)).2 ?_⟩
  refine (Trace.guarded_cons rfl).2 ⟨trivial, ?_⟩
  refine (Trace.guarded_cons rfl).2 ⟨fun hlast => absurd hlast (by decide), ?_⟩
  refine (Trace.guarded_cons rfl).2 ⟨fun hlast => absurd hlast (by decide), ?_⟩
  refine (Trace.guarded_cons rfl).2 ⟨fun hlast => absurd hlast (by decide), ?_⟩
  exact (Trace.guarded_cons rfl).2 ⟨trivial, (Trace.guarded_cons rfl).2 ⟨trivial, trivial⟩⟩

/-- Page 1 is full and page 2 is the free list when a record of page 1 is deleted, which puts page
1 in front of page 2. The second delete puts page 1 in front of itself, and the next insert leaves
it there as a full page. -/
theorem repeated_delete_leaves_full_head :
    ∃ file, RmManager.createFile 512 = .ok file ∧
      Trace.Guarded RmOp.step (fun f op => op.Legal f) (RmManager.openFile file)
        (List.replicate 8 (.insert largeRecord) ++ [.delete ⟨1, 0⟩, .delete ⟨1, 0⟩, .insert largeRecord]) ∧
      ¬ Trace.Always RmOp.step RmFileHandle.HasRoom (RmManager.openFile file)
        (List.replicate 8 (.insert largeRecord) ++ [.delete ⟨1, 0⟩, .delete ⟨1, 0⟩,
          .insert largeRecord]) := by
  refine ⟨_, rfl, by decide +kernel, fun halways => ?_⟩
  obtain ⟨rid, hrid⟩ := (halways.last rfl).insert largeRecord
  have hthrow : ∀ rid, Except.ok rid ≠ (Except.error RmError.noFreeSlot : Rm Rid) := nofun
  exact hthrow rid (hrid.symm.trans (by decide))

end Rmdb
