import Mathlib.Data.Set.Finite.Basic
import Mathlib.Order.Interval.Finset.Defs
import Mathlib.Tactic.Ring
import Rmdb.Lib.Trace
import Rmdb.Record.RmFile

namespace Rmdb

open Bitmap

section Layout

structure RmFileHdr.Fits (hdr : RmFileHdr) : Prop where
  pos : 1 ≤ hdr.recordSize
  bounded : hdr.recordSize ≤ 512
  capacity : hdr.numRecordsPerPage = (8 * (4096 - 1 - 20) + 1) / (1 + hdr.recordSize * 8)
  bitmap : hdr.bitmapSize = (hdr.numRecordsPerPage + 8 - 1) / 8

variable {hdr : RmFileHdr} {s t : Nat}

theorem RmFileHdr.Fits.capacity_pos (h : hdr.Fits) : 1 < hdr.numRecordsPerPage := by
  rw [h.capacity]
  have := h.bounded
  refine (Nat.le_div_iff_mul_le (by omega)).2 ?_
  omega

/-- The whole page layout stays inside `PAGE_SIZE`. -/
theorem RmFileHdr.Fits.inside (h : hdr.Fits) :
    bitmapStart + hdr.bitmapSize + hdr.numRecordsPerPage * hdr.recordSize ≤ 4096 := by
  have hmul : hdr.numRecordsPerPage * (1 + hdr.recordSize * 8) ≤ 8 * (4096 - 1 - 20) + 1 := by
    rw [h.capacity]
    exact Nat.div_mul_le_self _ _
  have hexpand : hdr.numRecordsPerPage * (1 + hdr.recordSize * 8) =
      hdr.numRecordsPerPage + 8 * (hdr.numRecordsPerPage * hdr.recordSize) := by ring
  rw [hexpand] at hmul
  rw [h.bitmap, bitmapStart]
  omega

theorem RmFileHdr.Fits.bucket_lt (h : hdr.Fits) (hs : s < hdr.numRecordsPerPage) :
    getBucket s < hdr.bitmapSize := by
  rw [h.bitmap, getBucket]
  omega

theorem slots_apart (hdr : RmFileHdr) (hst : s ≠ t) :
    s * hdr.recordSize + hdr.recordSize ≤ t * hdr.recordSize ∨
    t * hdr.recordSize + hdr.recordSize ≤ s * hdr.recordSize := by
  rcases Nat.lt_or_gt_of_ne hst with h | h
  · left
    rw [← Nat.succ_mul]
    exact Nat.mul_le_mul_right _ h
  · right
    rw [← Nat.succ_mul]
    exact Nat.mul_le_mul_right _ h

end Layout

section Memory

variable {mem : Memory} {dst src len len' bm pos : Nat} {buf : Bytes}

theorem memcpy_outside {a : Nat} (h : a < dst ∨ dst + len ≤ a) : memcpy mem dst buf len a = mem a := by
  rw [memcpy, if_neg]
  omega

theorem bytesAt_memcpy (h : buf.length = len) : bytesAt (memcpy mem dst buf len) dst len = buf := by
  refine List.ext_getElem (by simp [bytesAt, h]) fun i hi hi' => ?_
  have hlt : i < len := by rwa [h] at hi'
  simp [bytesAt, memcpy, hlt, hi']

theorem bytesAt_congr {mem' : Memory} (h : ∀ a, src ≤ a → a < src + len → mem' a = mem a) :
    bytesAt mem' src len = bytesAt mem src len := by
  refine List.map_congr_left fun i hi => ?_
  have := List.mem_range.1 hi
  exact h _ (by omega) (by omega)

theorem isSet_congr {mem' : Memory} (h : mem' (bm + getBucket pos) = mem (bm + getBucket pos)) :
    isSet mem' bm pos = isSet mem bm pos := by
  rw [isSet, isSet, h]

end Memory

section Page

variable {hdr : RmFileHdr} {mem : Memory} {s t : Nat} {buf : Bytes}

def slotEntry (hdr : RmFileHdr) (mem : Memory) (s : Nat) : Option Bytes :=
  if isSet mem bitmapStart s
    then some (bytesAt mem (bitmapStart + hdr.bitmapSize + s * hdr.recordSize) hdr.recordSize)
  else none

variable (h : hdr.Fits) (hs : s < hdr.numRecordsPerPage)

include h in
theorem isSet_memcpy (ht : t < hdr.numRecordsPerPage) :
    isSet (memcpy mem (bitmapStart + hdr.bitmapSize + s * hdr.recordSize) buf hdr.recordSize) bitmapStart t =
      isSet mem bitmapStart t := by
  have := h.bucket_lt ht
  exact isSet_congr (memcpy_outside (by omega))

include h hs in
theorem bytesAt_bitmap {b : UInt8} :
    bytesAt (Function.update mem (bitmapStart + getBucket s) b)
      (bitmapStart + hdr.bitmapSize + t * hdr.recordSize)
      hdr.recordSize = bytesAt mem (bitmapStart + hdr.bitmapSize + t * hdr.recordSize) hdr.recordSize := by
  have := h.bucket_lt hs
  exact bytesAt_congr fun a ha _ => Function.update_of_ne (by omega) _ _

theorem bytesAt_other (hst : t ≠ s) :
    bytesAt (memcpy mem (bitmapStart + hdr.bitmapSize + s * hdr.recordSize) buf hdr.recordSize)
      (bitmapStart + hdr.bitmapSize + t * hdr.recordSize) hdr.recordSize =
    bytesAt mem (bitmapStart + hdr.bitmapSize + t * hdr.recordSize) hdr.recordSize := by
  have := slots_apart hdr hst
  exact bytesAt_congr fun a ha hb => memcpy_outside (by omega)

include h hs in
theorem slotEntry_insert (hbuf : buf.length = hdr.recordSize) (ht : t < hdr.numRecordsPerPage) :
    slotEntry hdr (set (memcpy mem (bitmapStart + hdr.bitmapSize + s * hdr.recordSize) buf hdr.recordSize)
      bitmapStart s) t =
      if t = s then some buf else slotEntry hdr mem t := by
  have hbytes : bytesAt
    (set (memcpy mem (bitmapStart + hdr.bitmapSize + s * hdr.recordSize) buf hdr.recordSize) bitmapStart
      s)
      (bitmapStart + hdr.bitmapSize + t * hdr.recordSize) hdr.recordSize = _ := bytesAt_bitmap h hs
  rw [slotEntry, isSet_set, isSet_memcpy h ht]
  by_cases hts : t = s
  · subst hts
    rw [bytesAt_memcpy hbuf] at hbytes
    simp only [decide_true, Bool.true_or, if_true]
    exact congrArg some hbytes
  · rw [bytesAt_other hts] at hbytes
    rw [if_neg hts, slotEntry, ← hbytes]
    simp [hts, Bitmap.set]

include h in
theorem slotEntry_update (hbuf : buf.length = hdr.recordSize) (ht : t < hdr.numRecordsPerPage) :
    slotEntry hdr (memcpy mem (bitmapStart + hdr.bitmapSize + s * hdr.recordSize) buf hdr.recordSize) t =
      if t = s then (slotEntry hdr mem t).map fun _ => buf else slotEntry hdr mem t := by
  rw [slotEntry, isSet_memcpy h ht]
  by_cases hts : t = s
  · subst hts
    rw [bytesAt_memcpy hbuf, slotEntry, if_pos rfl]
    split <;> rfl
  · rw [slotEntry, bytesAt_other hts, if_neg hts]

include h hs in
theorem slotEntry_delete : slotEntry hdr (reset mem bitmapStart s) t = if t = s then none
    else slotEntry hdr mem t := by
  rw [slotEntry, isSet_reset, reset, bytesAt_bitmap h hs]
  by_cases hts : t = s
  · simp [hts]
  · rw [slotEntry]
    simp [hts]

end Page

namespace RmFileHandle

variable {f : RmFileHandle} {p q : Int} {page : RmPage} {rid : Rid} {buf : Bytes} {s t : Nat}

/-- The file as a map: the records by their rids. -/
def entry (f : RmFileHandle) (rid : Rid) : Option Bytes :=
  match f.pages rid.pageNo with
  | none => none
  | some page =>
      if 0 ≤ rid.slotNo ∧ rid.slotNo.toNat < f.fileHdr.numRecordsPerPage
        then slotEntry f.fileHdr page.data rid.slotNo.toNat
      else none

structure InFile (f : RmFileHandle) (rid : Rid) : Prop where
  page : f.pages rid.pageNo ≠ none
  nonneg : 0 ≤ rid.slotNo
  slot : rid.slotNo.toNat < f.fileHdr.numRecordsPerPage

instance : Decidable (f.InFile rid) :=
  decidable_of_iff (f.pages rid.pageNo ≠ none ∧ 0 ≤ rid.slotNo ∧
    rid.slotNo.toNat < f.fileHdr.numRecordsPerPage)
    ⟨fun h => ⟨h.1, h.2.1, h.2.2⟩, fun h => ⟨h.page, h.nonneg, h.slot⟩⟩

/-- What holds of every file that the record manager has made. -/
structure RmInv (f : RmFileHandle) : Prop where
  fits : f.fileHdr.Fits
  counter : f.fd2pageno = f.fileHdr.numPages
  numPages : 1 ≤ f.fileHdr.numPages
  alloc : ∀ p, f.pages p ≠ none ↔ 1 ≤ p ∧ p < f.fileHdr.numPages
  head : f.fileHdr.firstFreePageNo = rmNoPage ∨ f.pages f.fileHdr.firstFreePageNo ≠ none
  next : ∀ {p page}, f.pages p = some page →
    page.pageHdr.nextFreePageNo = rmNoPage ∨ f.pages page.pageHdr.nextFreePageNo ≠ none
  count : ∀ {p page}, f.pages p = some page →
    page.pageHdr.numRecords = count page.data bitmapStart f.fileHdr.numRecordsPerPage

section Changes

theorem setPage_self : (f.setPage p page).pages p = some page := by simp [setPage]

theorem setPage_of_ne (hq : q ≠ p) : (f.setPage p page).pages q = f.pages q := by simp [setPage, hq]

theorem setPage_ne_none (hp : f.pages p ≠ none) : (f.setPage p page).pages q ≠ none ↔ f.pages q ≠ none := by
  by_cases hq : q = p
  · subst hq
    simp [setPage, hp]
  · simp [setPage, hq]

theorem RmInv.setPage (h : RmInv f) (hp : f.pages p ≠ none)
    (hnext : page.pageHdr.nextFreePageNo = rmNoPage ∨ f.pages page.pageHdr.nextFreePageNo ≠ none)
    (hcount : page.pageHdr.numRecords = Bitmap.count page.data bitmapStart f.fileHdr.numRecordsPerPage) :
    RmInv (f.setPage p page) where
  fits := h.fits
  counter := h.counter
  numPages := h.numPages
  alloc q := (setPage_ne_none hp).trans (h.alloc q)
  head := h.head.imp_right fun hh => (setPage_ne_none hp).2 hh
  next := by
    intro q page' hq
    by_cases hqp : q = p
    · subst hqp
      rw [setPage_self] at hq
      cases hq
      exact hnext.imp_right fun hh => (setPage_ne_none hp).2 hh
    · rw [setPage_of_ne hqp] at hq
      exact (h.next hq).imp_right fun hh => (setPage_ne_none hp).2 hh
  count := by
    intro q page' hq
    by_cases hqp : q = p
    · subst hqp
      rw [setPage_self] at hq
      cases hq
      exact hcount
    · rw [setPage_of_ne hqp] at hq
      exact h.count hq

theorem RmInv.setFirstFree (h : RmInv f) (hp : p = rmNoPage ∨ f.pages p ≠ none) : RmInv (f.setFirstFree p) :=
  ⟨⟨h.fits.pos, h.fits.bounded, h.fits.capacity, h.fits.bitmap⟩, h.counter, h.numPages, h.alloc,
    hp, h.next, h.count⟩

theorem RmInv.unlinkFull (h : RmInv f) (hp : f.pages p ≠ none)
    (hnext : page.pageHdr.nextFreePageNo = rmNoPage ∨ f.pages page.pageHdr.nextFreePageNo ≠ none)
    (hcount : page.pageHdr.numRecords = Bitmap.count page.data bitmapStart f.fileHdr.numRecordsPerPage) :
    RmInv (f.unlinkFull p page) := by
  rw [RmFileHandle.unlinkFull]
  split
  · exact (h.setFirstFree hnext).setPage hp (.inl rfl) hcount
  · exact h.setPage hp hnext hcount

theorem RmInv.releasePageHandle (h : RmInv f) (hp : f.pages p ≠ none)
    (hnext : page.pageHdr.nextFreePageNo = rmNoPage ∨ f.pages page.pageHdr.nextFreePageNo ≠ none)
    (hcount : page.pageHdr.numRecords = Bitmap.count page.data bitmapStart f.fileHdr.numRecordsPerPage) :
    RmInv (f.releasePageHandle p page) := by
  rw [RmFileHandle.releasePageHandle]
  split
  · exact h.setPage hp hnext hcount
  · split
    · exact (h.setFirstFree (.inr hp)).setPage hp h.head hcount
    · exact h.setPage hp (.inl rfl) hcount

theorem entry_setPage (rid : Rid) : (f.setPage p page).entry rid =
    if rid.pageNo = p then
      if 0 ≤ rid.slotNo ∧ rid.slotNo.toNat < f.fileHdr.numRecordsPerPage
      then slotEntry f.fileHdr page.data rid.slotNo.toNat
      else none
    else f.entry rid := by
  by_cases hp : rid.pageNo = p
  · rw [if_pos hp, entry, RmFileHandle.setPage, hp]
    simp only [Function.update_self]
  · rw [if_neg hp, entry, RmFileHandle.setPage, entry]
    simp only [Function.update_of_ne hp]

theorem entry_unlinkFull : (f.unlinkFull p page).entry = (f.setPage p page).entry := by
  funext rid
  rw [RmFileHandle.unlinkFull]
  split
  · rw [entry_setPage, entry_setPage]
    rfl
  · rfl

theorem entry_releasePageHandle : (f.releasePageHandle p page).entry = (f.setPage p page).entry := by
  funext rid
  rw [RmFileHandle.releasePageHandle]
  split
  · rfl
  · split
    · rw [entry_setPage, entry_setPage]
      rfl
    · rw [entry_setPage, entry_setPage]

theorem fetchPageHandle_eq (hp : f.pages p = some page) : f.fetchPageHandle p = .ok page := by
  rw [fetchPageHandle, hp]

theorem entry_slot {old : RmPage} {v : Option Bytes} (hf : f.InFile rid)
    (hold : f.pages rid.pageNo = some old)
    (hslot : ∀ t, t < f.fileHdr.numRecordsPerPage → slotEntry f.fileHdr page.data t =
      if t = rid.slotNo.toNat then v else slotEntry f.fileHdr old.data t) :
    (f.setPage rid.pageNo page).entry = Function.update f.entry rid v := by
  funext r
  rw [entry_setPage]
  by_cases hp : r.pageNo = rid.pageNo
  · rw [if_pos hp]
    by_cases hr : r = rid
    · subst hr
      rw [if_pos ⟨hf.nonneg, hf.slot⟩, hslot _ hf.slot, if_pos rfl, Function.update_self]
    · rw [Function.update_of_ne hr, entry, hp, hold]
      simp only
      split
      · rename_i hin
        rw [hslot _ hin.2, if_neg]
        intro hc
        apply hr
        have hnn := hf.nonneg
        cases r
        cases rid
        simp only [Rid.mk.injEq] at *
        omega
      · rfl
  · have hr : r ≠ rid := by
      rintro rfl
      exact hp rfl
    rw [if_neg hp, Function.update_of_ne hr]

end Changes

section Extends

structure Extends (f f' : RmFileHandle) : Prop where
  recordSize : f'.fileHdr.recordSize = f.fileHdr.recordSize
  capacity : f'.fileHdr.numRecordsPerPage = f.fileHdr.numRecordsPerPage
  pages : ∀ p, f.pages p ≠ none → f'.pages p ≠ none

theorem Extends.inFile {f' : RmFileHandle} (h : Extends f f') (hin : f.InFile rid) : f'.InFile rid :=
  ⟨h.pages _ hin.page, hin.nonneg, by rw [h.capacity]; exact hin.slot⟩

theorem extends_setPage : Extends f (f.setPage p page) := by
  refine ⟨rfl, rfl, fun q hq => ?_⟩
  by_cases hqp : q = p
  · subst hqp
    rw [setPage_self]
    simp
  · rwa [setPage_of_ne hqp]

theorem extends_unlinkFull : Extends f (f.unlinkFull p page) := by
  rw [RmFileHandle.unlinkFull]
  split
  · exact ⟨rfl, rfl, fun q hq => (extends_setPage (f := f)).pages q hq⟩
  · exact extends_setPage

theorem extends_releasePageHandle : Extends f (f.releasePageHandle p page) := by
  rw [RmFileHandle.releasePageHandle]
  split
  · exact extends_setPage
  · split
    · exact ⟨rfl, rfl, fun q hq => (extends_setPage (f := f)).pages q hq⟩
    · exact extends_setPage

end Extends

section Operations

def emptyPage (next : Int) : RmPage := ⟨⟨next, 0⟩, fun _ => 0⟩

theorem isSet_zero (pos : Nat) : isSet (fun _ => 0) bitmapStart pos = false := by simp [isSet]

theorem slotEntry_zero (hdr : RmFileHdr) (s : Nat) : slotEntry hdr (fun _ => 0) s = none := by
  simp [slotEntry, isSet_zero]

theorem count_zero (m : Nat) : Bitmap.count (fun _ => 0) bitmapStart m = 0 :=
  List.countP_eq_zero.2 fun i _ => by simp [isSet_zero]

theorem RmInv.notYet (h : RmInv f) : f.pages f.fd2pageno = none := by
  by_contra hc
  have hlt := ((h.alloc _).1 hc).2
  rw [h.counter] at hlt
  exact lt_irrefl _ hlt

theorem RmInv.createNewPageHandle (h : RmInv f) : RmInv f.createNewPageHandle.2 := by
  have hnot := h.notYet
  have hne : ∀ q, f.pages q ≠ none → f.createNewPageHandle.2.pages q ≠ none := by
    intro q hq
    have hqp : q ≠ f.fd2pageno := by
      rintro rfl
      exact hq hnot
    simp only [RmFileHandle.createNewPageHandle, Function.update_of_ne hqp]
    exact hq
  have hcounter := h.counter
  refine ⟨⟨h.fits.pos, h.fits.bounded, h.fits.capacity, h.fits.bitmap⟩, ?_, ?_, ?_, ?_, ?_, ?_⟩
  · simp only [RmFileHandle.createNewPageHandle]
    omega
  · simp only [RmFileHandle.createNewPageHandle]
    omega
  · intro q
    have hpos := h.numPages
    by_cases hq : q = f.fd2pageno
    · subst hq
      simp only [RmFileHandle.createNewPageHandle, Function.update_self]
      refine ⟨fun _ => ?_, fun _ => by simp⟩
      push_cast
      omega
    · simp only [RmFileHandle.createNewPageHandle, Function.update_of_ne hq]
      rw [h.alloc q]
      push_cast
      omega
  · refine .inr ?_
    simp [RmFileHandle.createNewPageHandle]
  · intro q page hq
    by_cases hqp : q = f.fd2pageno
    · subst hqp
      simp only [RmFileHandle.createNewPageHandle, Function.update_self] at hq
      cases hq
      exact h.head.imp_right (hne _)
    · simp only [RmFileHandle.createNewPageHandle, Function.update_of_ne hqp] at hq
      exact (h.next hq).imp_right (hne _)
  · intro q page hq
    by_cases hqp : q = f.fd2pageno
    · subst hqp
      simp only [RmFileHandle.createNewPageHandle, Function.update_self] at hq
      cases hq
      simp [count_zero]
    · simp only [RmFileHandle.createNewPageHandle, Function.update_of_ne hqp] at hq
      exact h.count hq

theorem entry_createNewPageHandle (h : RmInv f) : f.createNewPageHandle.2.entry = f.entry := by
  funext rid
  rw [entry, entry, RmFileHandle.createNewPageHandle]
  by_cases hp : rid.pageNo = f.fd2pageno
  · simp only [hp, Function.update_self, slotEntry_zero, ite_self, h.notYet]
  · simp only [Function.update_of_ne hp]
    rfl

/-- The page for an insert is the head of the free list, which may be a new page. -/
theorem createPageHandle_spec (h : RmInv f) :
    ∃ p f₀ page, f.createPageHandle = (p, f₀) ∧ RmInv f₀ ∧ f₀.pages p = some page ∧
    f₀.entry = f.entry ∧ f₀.fileHdr.numRecordsPerPage = f.fileHdr.numRecordsPerPage ∧
    f₀.fileHdr.recordSize = f.fileHdr.recordSize ∧ f₀.fileHdr.firstFreePageNo = p ∧
    ((f.fileHdr.firstFreePageNo = rmNoPage ∧ f₀ = f.createNewPageHandle.2 ∧ page = emptyPage rmNoPage) ∨
      (f.fileHdr.firstFreePageNo = p ∧ f.fileHdr.firstFreePageNo ≠ rmNoPage ∧ f₀ = f)) := by
  rw [createPageHandle]
  by_cases hhead : f.fileHdr.firstFreePageNo = rmNoPage
  · rw [if_pos hhead]
    refine ⟨f.fd2pageno, f.createNewPageHandle.2, emptyPage rmNoPage, rfl, h.createNewPageHandle, ?_,
      entry_createNewPageHandle h, rfl, rfl, rfl, .inl ⟨hhead, rfl, rfl⟩⟩
    simp [RmFileHandle.createNewPageHandle, emptyPage, hhead]
  · rw [if_neg hhead]
    obtain ⟨page, hpage⟩ := Option.ne_none_iff_exists'.1 (h.head.resolve_left hhead)
    exact ⟨_, f, page, rfl, h, hpage, rfl, rfl, rfl, rfl, .inr ⟨rfl, hhead, rfl⟩⟩

def filled (f : RmFileHandle) (page : RmPage) (buf : Bytes) : RmPage :=
  ⟨{ page.pageHdr with numRecords := page.pageHdr.numRecords + 1 },
    set (memcpy page.data (f.slotStart (firstBit page.data bitmapStart false f.fileHdr.numRecordsPerPage)) buf
      f.fileHdr.recordSize) bitmapStart (firstBit page.data bitmapStart false f.fileHdr.numRecordsPerPage)⟩

theorem insertRecord_eq {f₀ : RmFileHandle} (hc : f.createPageHandle = (p, f₀))
    (hp : f₀.pages p = some page) (buf : Bytes) :
    f.insertRecord buf =
      if firstBit page.data bitmapStart false f₀.fileHdr.numRecordsPerPage = f₀.fileHdr.numRecordsPerPage then
        (.error .noFreeSlot, f₀)
      else
        (.ok ⟨p, firstBit page.data bitmapStart false f₀.fileHdr.numRecordsPerPage⟩,
          f₀.unlinkFull p (f₀.filled page buf)) := by
  simp only [RmFileHandle.insertRecord, hc, fetchPageHandle_eq hp]
  rfl

theorem entry_free {s : Nat} (hp : f.pages p = some page) (hfree : isSet page.data bitmapStart s = false) :
    f.entry ⟨p, s⟩ = none := by
  simp [entry, hp, slotEntry, hfree]

/-- `insert_record(buf)`: the record gets a slot that was free, or the head of the free list is full. -/
theorem insertRecord_spec (h : RmInv f) (hbuf : buf.length = f.fileHdr.recordSize) :
    (∃ rid f', f.insertRecord buf = (.ok rid, f') ∧ f.entry rid = none ∧
      f'.entry = Function.update f.entry rid (some buf) ∧
      RmInv f') ∨ f.insertRecord buf = (.error .noFreeSlot, f) := by
  obtain ⟨p, f₀, page, hc, h₀, hp, hentry, hn, hrs, -, hcase⟩ := createPageHandle_spec h
  rw [insertRecord_eq hc hp]
  obtain ⟨hle, -, hat⟩ := firstBit_spec page.data bitmapStart false f₀.fileHdr.numRecordsPerPage
  split
  · rename_i hfull
    refine .inr ?_
    rcases hcase with ⟨-, -, hnew⟩ | ⟨-, -, rfl⟩
    · -- a new page is not full
      have hcap := h₀.fits.capacity_pos
      have hlt : firstBit page.data bitmapStart false f₀.fileHdr.numRecordsPerPage <
          f₀.fileHdr.numRecordsPerPage := by
        rw [firstBit_false_lt, hnew, emptyPage, count_zero]
        omega
      omega
    · rfl
  · rename_i hfull
    have hlt : firstBit page.data bitmapStart false f₀.fileHdr.numRecordsPerPage <
      f₀.fileHdr.numRecordsPerPage := by omega
    refine .inl ⟨_, _, rfl, ?_, ?_, ?_⟩
    · rw [← hentry]
      exact entry_free hp (hat hlt)
    · rw [entry_unlinkFull, ← hentry]
      have hin : f₀.InFile ⟨p, firstBit page.data bitmapStart false f₀.fileHdr.numRecordsPerPage⟩ :=
        ⟨by rw [hp]; simp, Int.natCast_nonneg _, by simpa using hlt⟩
      refine entry_slot hin hp fun t ht => ?_
      simp only [Int.toNat_natCast]
      exact slotEntry_insert h₀.fits hlt (by rw [hbuf, hrs]) ht
    · have hnext := h₀.next hp
      refine h₀.unlinkFull (by rw [hp]; simp) hnext ?_
      simp only [filled]
      rw [count_set hlt]
      · rw [h₀.count hp]
        push_cast
        congr 2
        refine List.countP_congr fun i hi => ?_
        rw [slotStart, isSet_memcpy h₀.fits (List.mem_range.1 hi)]
      · rw [slotStart, isSet_memcpy h₀.fits hlt]
        exact hat hlt

theorem insertRecord_recordSize (h : RmInv f) (buf : Bytes) :
    (f.insertRecord buf).2.fileHdr.recordSize = f.fileHdr.recordSize := by
  obtain ⟨p, f₀, page, hc, -, hp, -, -, hrs, -⟩ := createPageHandle_spec h
  rw [insertRecord_eq hc hp]
  split
  · exact hrs
  · rw [extends_unlinkFull.recordSize, hrs]

theorem count_memcpy (hfits : f.fileHdr.Fits) (mem : Memory) (s : Nat) (buf : Bytes) :
    Bitmap.count (memcpy mem (f.slotStart s) buf f.fileHdr.recordSize) bitmapStart
      f.fileHdr.numRecordsPerPage =
      Bitmap.count mem bitmapStart f.fileHdr.numRecordsPerPage := by
  refine List.countP_congr fun i hi => ?_
  rw [slotStart, isSet_memcpy hfits (List.mem_range.1 hi)]

def filledAt (f : RmFileHandle) (page : RmPage) (s : Nat) (buf : Bytes) : RmPage :=
  if isSet page.data bitmapStart s
    then { page with data := memcpy page.data (f.slotStart s) buf f.fileHdr.recordSize }
  else ⟨{ page.pageHdr with numRecords := page.pageHdr.numRecords + 1 },
    set (memcpy page.data (f.slotStart s) buf f.fileHdr.recordSize) bitmapStart s⟩

theorem insertRecordAt_eq (hp : f.pages rid.pageNo = some page) (buf : Bytes) :
    f.insertRecordAt rid buf = .ok (f.unlinkFull rid.pageNo (f.filledAt page rid.slotNo.toNat buf)) := by
  rw [insertRecordAt, fetchPageHandle_eq hp]
  rfl

theorem filledAt_next : (f.filledAt page s buf).pageHdr.nextFreePageNo = page.pageHdr.nextFreePageNo := by
  rw [filledAt]
  split <;> rfl

theorem filledAt_count (hfits : f.fileHdr.Fits) (hs : s < f.fileHdr.numRecordsPerPage)
    (hcount : page.pageHdr.numRecords = Bitmap.count page.data bitmapStart f.fileHdr.numRecordsPerPage) :
    (f.filledAt page s buf).pageHdr.numRecords =
      Bitmap.count (f.filledAt page s buf).data bitmapStart f.fileHdr.numRecordsPerPage := by
  rw [filledAt]
  split
  · rw [count_memcpy hfits]
    exact hcount
  · rename_i hfree
    rw [count_set hs, count_memcpy hfits]
    · simp only [hcount]
      push_cast
      rfl
    · rw [slotStart, isSet_memcpy hfits hs]
      simpa using hfree

theorem filledAt_entry (hfits : f.fileHdr.Fits) (hs : s < f.fileHdr.numRecordsPerPage)
    (hbuf : buf.length = f.fileHdr.recordSize) (ht : t < f.fileHdr.numRecordsPerPage) :
    slotEntry f.fileHdr (f.filledAt page s buf).data t =
      if t = s then some buf else slotEntry f.fileHdr page.data t := by
  rw [filledAt]
  split
  · rename_i hset
    refine (slotEntry_update hfits hbuf ht).trans ?_
    split
    · rename_i hts
      rw [hts, slotEntry, if_pos hset]
      rfl
    · rfl
  · exact slotEntry_insert hfits hs hbuf ht

theorem insertRecordAt_spec (h : RmInv f) (hin : f.InFile rid) (hbuf : buf.length = f.fileHdr.recordSize) :
    ∃ f', f.insertRecordAt rid buf = .ok f' ∧
      f'.entry = Function.update f.entry rid (some buf) ∧ RmInv f' := by
  obtain ⟨page, hp⟩ := Option.ne_none_iff_exists'.1 hin.page
  have hnext := h.next hp
  refine ⟨_, insertRecordAt_eq hp buf, ?_, ?_⟩
  · rw [entry_unlinkFull]
    exact entry_slot hin hp fun t ht => filledAt_entry h.fits hin.slot hbuf ht
  · exact h.unlinkFull hin.page (by rw [filledAt_next]; exact hnext)
      (filledAt_count h.fits hin.slot (h.count hp))

theorem insertRecordAt_extends {f' : RmFileHandle} (hin : f.InFile rid)
    (hrun : f.insertRecordAt rid buf = .ok f') :
    Extends f f' := by
  obtain ⟨page, hp⟩ := Option.ne_none_iff_exists'.1 hin.page
  rw [insertRecordAt_eq hp] at hrun
  cases hrun
  exact extends_unlinkFull

theorem updateRecord_spec (h : RmInv f) (hin : f.InFile rid) (hbuf : buf.length = f.fileHdr.recordSize) :
    ∃ f', f.updateRecord rid buf = .ok f' ∧
      f'.entry = Function.update f.entry rid ((f.entry rid).map fun _ => buf) ∧
      RmInv f' := by
  obtain ⟨page, hp⟩ := Option.ne_none_iff_exists'.1 hin.page
  have hnext := h.next hp
  refine ⟨f.setPage rid.pageNo
    { page with data := memcpy page.data (f.slotStart rid.slotNo.toNat) buf f.fileHdr.recordSize }, ?_,
      ?_, ?_⟩
  · rw [updateRecord, fetchPageHandle_eq hp]
    rfl
  · refine entry_slot hin hp fun t ht => ?_
    have hself : f.entry rid = slotEntry f.fileHdr page.data rid.slotNo.toNat := by
      rw [entry, hp]
      simp only [if_pos (And.intro hin.nonneg hin.slot)]
    refine (slotEntry_update h.fits hbuf ht).trans ?_
    split
    · rename_i hts
      rw [hself, hts]
    · rfl
  · exact h.setPage hin.page hnext (by rw [count_memcpy h.fits]; exact h.count hp)

def cleared (page : RmPage) (s : Nat) : RmPage :=
  if isSet page.data bitmapStart s then
    ⟨{ page.pageHdr with numRecords := page.pageHdr.numRecords - 1 }, reset page.data bitmapStart s⟩
  else page

theorem deleteRecord_eq (hp : f.pages rid.pageNo = some page) :
    f.deleteRecord rid = .ok (if (cleared page rid.slotNo.toNat).pageHdr.numRecords =
    (f.fileHdr.numRecordsPerPage : Int) - 1
      then f.releasePageHandle rid.pageNo (cleared page rid.slotNo.toNat)
      else f.setPage rid.pageNo (cleared page rid.slotNo.toNat)) := by
  rw [deleteRecord, fetchPageHandle_eq hp]
  change (if (cleared page rid.slotNo.toNat).pageHdr.numRecords = (f.fileHdr.numRecordsPerPage : Int) - 1
    then _ else _) = _
  split <;> rfl

theorem cleared_next : (cleared page s).pageHdr.nextFreePageNo = page.pageHdr.nextFreePageNo := by
  rw [cleared]
  split <;> rfl

theorem cleared_count {m : Nat} (hs : s < m)
    (hcount : page.pageHdr.numRecords = Bitmap.count page.data bitmapStart m) :
    (cleared page s).pageHdr.numRecords = Bitmap.count (cleared page s).data bitmapStart m := by
  rw [cleared]
  split
  · rename_i hset
    simp only [hcount, count_reset hs hset]
    push_cast
    ring
  · exact hcount

theorem cleared_entry (hfits : f.fileHdr.Fits) (hs : s < f.fileHdr.numRecordsPerPage) :
    slotEntry f.fileHdr (cleared page s).data t = if t = s then none
    else slotEntry f.fileHdr page.data t := by
  rw [cleared]
  split
  · exact slotEntry_delete hfits hs
  · rename_i hfree
    split
    · rename_i hts
      rw [hts, slotEntry, if_neg hfree]
    · rfl

theorem deleteRecord_spec (h : RmInv f) (hin : f.InFile rid) :
    ∃ f', f.deleteRecord rid = .ok f' ∧ f'.entry = Function.update f.entry rid none ∧ RmInv f' := by
  obtain ⟨page, hp⟩ := Option.ne_none_iff_exists'.1 hin.page
  have hnext : (cleared page rid.slotNo.toNat).pageHdr.nextFreePageNo = rmNoPage ∨
      f.pages (cleared page rid.slotNo.toNat).pageHdr.nextFreePageNo ≠ none := by
    rw [cleared_next]
    exact h.next hp
  have hcount := cleared_count hin.slot (h.count hp)
  have hentry : (f.setPage rid.pageNo (cleared page rid.slotNo.toNat)).entry =
      Function.update f.entry rid none :=
    entry_slot hin hp fun t _ => cleared_entry h.fits hin.slot
  refine ⟨_, deleteRecord_eq hp, ?_, ?_⟩
  · split
    · rw [entry_releasePageHandle, hentry]
    · exact hentry
  · split
    · exact h.releasePageHandle hin.page hnext hcount
    · exact h.setPage hin.page hnext hcount

theorem deleteRecord_extends {f' : RmFileHandle} (hin : f.InFile rid)
    (hrun : f.deleteRecord rid = .ok f') : Extends f f' := by
  obtain ⟨page, hp⟩ := Option.ne_none_iff_exists'.1 hin.page
  rw [deleteRecord_eq hp] at hrun
  cases hrun
  split
  · exact extends_releasePageHandle
  · exact extends_setPage

theorem deleteRecord_numPages {f' : RmFileHandle} (hin : f.InFile rid) (hrun : f.deleteRecord rid = .ok f') :
    f'.fileHdr.numPages = f.fileHdr.numPages := by
  obtain ⟨page, hp⟩ := Option.ne_none_iff_exists'.1 hin.page
  rw [deleteRecord_eq hp] at hrun
  cases hrun
  split
  · rw [RmFileHandle.releasePageHandle]
    split
    · rfl
    · split <;> rfl
  · rfl

theorem getFreeRecord_spec (h : RmInv f) :
    ∃ res f', f.getFreeRecord = (res, f') ∧ RmInv f' ∧ f'.entry = f.entry ∧ Extends f f' ∧
      ∀ rid, res = .ok rid → f'.InFile rid ∧ f.entry rid = none := by
  obtain ⟨p, f₀, page, hc, h₀, hp, hentry, hn, hrs, -, hcase⟩ := createPageHandle_spec h
  obtain ⟨hle, -, hat⟩ := firstBit_spec page.data bitmapStart false f₀.fileHdr.numRecordsPerPage
  have hext : Extends f f₀ := by
    refine ⟨hrs, hn, fun q hq => ?_⟩
    rcases hcase with ⟨-, rfl, -⟩ | ⟨-, -, rfl⟩
    · rw [h.createNewPageHandle.alloc]
      have hlt := (h.alloc q).1 hq
      simp only [RmFileHandle.createNewPageHandle]
      push_cast
      omega
    · exact hq
  by_cases hfull : firstBit page.data bitmapStart false f₀.fileHdr.numRecordsPerPage =
    f₀.fileHdr.numRecordsPerPage
  · refine ⟨.error .noFreeSlot, f₀, ?_, h₀, hentry, hext, fun rid hrid => by cases hrid⟩
    simp only [getFreeRecord, hc, fetchPageHandle_eq hp, if_pos hfull]
  · have hlt : firstBit page.data bitmapStart false f₀.fileHdr.numRecordsPerPage <
      f₀.fileHdr.numRecordsPerPage := by omega
    refine ⟨.ok ⟨p, firstBit page.data bitmapStart false f₀.fileHdr.numRecordsPerPage⟩, f₀, ?_,
      h₀, hentry, hext, ?_⟩
    · simp only [getFreeRecord, hc, fetchPageHandle_eq hp, if_neg hfull]
    · intro rid hrid
      cases hrid
      refine ⟨⟨by rw [hp]; simp, Int.natCast_nonneg _, by simpa using hlt⟩, ?_⟩
      rw [← hentry]
      exact entry_free hp (hat hlt)

theorem reopen_spec (h : RmInv f) : RmInv (RmManager.openFile (RmManager.closeFile f)) :=
  ⟨h.fits, rfl, h.numPages, h.alloc, h.head, h.next, h.count⟩

end Operations

end RmFileHandle

inductive RmOp
  | insert (buf : Bytes)
  | insertAt (rid : Rid) (buf : Bytes)
  | update (rid : Rid) (buf : Bytes)
  | delete (rid : Rid)
  | reopen

namespace RmOp

open RmFileHandle

def exec (f : RmFileHandle) : RmOp → Rm (Option Rid) × RmFileHandle
  | .insert buf => ((f.insertRecord buf).1.map some, (f.insertRecord buf).2)
  | .insertAt rid buf =>
      match f.insertRecordAt rid buf with
      | .ok f' => (.ok none, f')
      | .error e => (.error e, f)
  | .update rid buf =>
      match f.updateRecord rid buf with
      | .ok f' => (.ok none, f')
      | .error e => (.error e, f)
  | .delete rid =>
      match f.deleteRecord rid with
      | .ok f' => (.ok none, f')
      | .error e => (.error e, f)
  | .reopen => (.ok none, RmManager.openFile (RmManager.closeFile f))

def step (f : RmFileHandle) (op : RmOp) : Option RmFileHandle := some (op.exec f).2

def Legal (f : RmFileHandle) : RmOp → Prop
  | .insert buf => buf.length = f.fileHdr.recordSize
  | .insertAt rid buf => f.InFile rid ∧ buf.length = f.fileHdr.recordSize
  | .update rid buf => f.InFile rid ∧ buf.length = f.fileHdr.recordSize
  | .delete rid => f.InFile rid
  | .reopen => True

instance (f : RmFileHandle) : ∀ op : RmOp, Decidable (op.Legal f)
  | .insert _ => inferInstanceAs (Decidable (_ = _))
  | .insertAt .. => inferInstanceAs (Decidable (_ ∧ _))
  | .update .. => inferInstanceAs (Decidable (_ ∧ _))
  | .delete _ => inferInstanceAs (Decidable (InFile _ _))
  | .reopen => inferInstanceAs (Decidable True)

def Spec (m m' : Rid → Option Bytes) (result : Rm (Option Rid)) : RmOp → Prop
  | .insert buf =>
      (∃ rid, result = .ok (some rid) ∧ m rid = none ∧ m' = Function.update m rid (some buf)) ∨
        (result = .error .noFreeSlot ∧ m' = m)
  | .insertAt rid buf => result = .ok none ∧ m' = Function.update m rid (some buf)
  | .update rid buf => result = .ok none ∧ m' = Function.update m rid ((m rid).map fun _ => buf)
  | .delete rid => result = .ok none ∧ m' = Function.update m rid none
  | .reopen => result = .ok none ∧ m' = m

variable {f : RmFileHandle} {op : RmOp}

theorem exec_spec (h : RmInv f) (hop : op.Legal f) :
    RmInv (op.exec f).2 ∧ op.Spec f.entry (op.exec f).2.entry (op.exec f).1 := by
  cases op with
  | insert buf =>
      rcases insertRecord_spec h hop with ⟨rid, f', hrun, hfree, hentry, h'⟩ | hrun
      · rw [exec, hrun]
        exact ⟨h', .inl ⟨rid, rfl, hfree, hentry⟩⟩
      · rw [exec, hrun]
        exact ⟨h, .inr ⟨rfl, rfl⟩⟩
  | insertAt rid buf =>
      obtain ⟨f', hrun, hentry, h'⟩ := insertRecordAt_spec h hop.1 hop.2
      rw [exec, hrun]
      exact ⟨h', rfl, hentry⟩
  | update rid buf =>
      obtain ⟨f', hrun, hentry, h'⟩ := updateRecord_spec h hop.1 hop.2
      rw [exec, hrun]
      exact ⟨h', rfl, hentry⟩
  | delete rid =>
      obtain ⟨f', hrun, hentry, h'⟩ := deleteRecord_spec h hop
      rw [exec, hrun]
      exact ⟨h', rfl, hentry⟩
  | reopen => exact ⟨reopen_spec h, rfl, rfl⟩

end RmOp

namespace RmFileHandle

variable {f : RmFileHandle} {rid : Rid}

/-- The file behaves as a finite map from rids to records. -/
structure BehavesAsMap (f : RmFileHandle) : Prop where
  ops : ∀ op : RmOp, op.Legal f → op.Spec f.entry (op.exec f).2.entry (op.exec f).1
  get : ∀ rid record, f.entry rid = some record → f.getRecord rid = .ok record
  finite : Set.Finite {rid | f.entry rid ≠ none}
  inside : ∀ rid, f.entry rid ≠ none → bitmapStart + f.fileHdr.bitmapSize ≤ f.slotStart rid.slotNo.toNat ∧
    f.slotStart rid.slotNo.toNat + f.fileHdr.recordSize ≤ 4096
  apart : ∀ r r', f.entry r ≠ none → f.entry r' ≠ none → r.pageNo = r'.pageNo → r ≠ r' →
    f.slotStart r.slotNo.toNat + f.fileHdr.recordSize ≤ f.slotStart r'.slotNo.toNat ∨
    f.slotStart r'.slotNo.toNat + f.fileHdr.recordSize ≤ f.slotStart r.slotNo.toNat

theorem inFile_of_entry (h : f.entry rid ≠ none) : f.InFile rid := by
  rw [entry] at h
  split at h
  · exact absurd rfl h
  · rename_i page hp
    split at h
    · rename_i hin
      exact ⟨by rw [hp]; simp, hin.1, hin.2⟩
    · exact absurd rfl h

theorem getRecord_of_entry {record : Bytes} (h : f.entry rid = some record) :
    f.getRecord rid = .ok record := by
  rw [entry] at h
  split at h
  · cases h
  · rename_i page hp
    split at h
    · rw [slotEntry] at h
      split at h
      · rw [getRecord, fetchPageHandle_eq hp, ← Option.some.inj h]
        rfl
      · cases h
    · cases h

theorem RmInv.finite (h : RmInv f) : Set.Finite {rid | f.entry rid ≠ none} := by
  refine Set.Finite.subset (((Set.finite_Ico (1 : Int) f.fileHdr.numPages).prod
    (Set.finite_Ico (0 : Int) f.fileHdr.numRecordsPerPage)).image fun x => (⟨x.1, x.2⟩ : Rid)) ?_
  intro rid hrid
  have hin := inFile_of_entry hrid
  have hslot := hin.slot
  have hnn := hin.nonneg
  refine ⟨(rid.pageNo, rid.slotNo), ⟨(h.alloc _).1 hin.page, ?_⟩, rfl⟩
  simp only [Set.mem_Ico]
  omega

theorem RmInv.behavesAsMap (h : RmInv f) : BehavesAsMap f where
  ops op hop := (op.exec_spec h hop).2
  get rid record hrid := getRecord_of_entry hrid
  finite := h.finite
  inside := by
    intro rid hrid
    have hslot := (inFile_of_entry hrid).slot
    have hmul := Nat.mul_le_mul_right f.fileHdr.recordSize (Nat.succ_le_of_lt hslot)
    rw [Nat.succ_mul] at hmul
    have hin := h.fits.inside
    rw [slotStart]
    omega
  apart := by
    intro r r' hr hr' hpage hne
    have hnn := (inFile_of_entry hr).nonneg
    have hnn' := (inFile_of_entry hr').nonneg
    have hslot : r.slotNo.toNat ≠ r'.slotNo.toNat := by
      intro hc
      apply hne
      cases r
      cases r'
      simp only [Rid.mk.injEq] at *
      omega
    have := slots_apart f.fileHdr hslot
    rw [slotStart, slotStart]
    omega

theorem openFile_inv {recordSize : Nat} {file : RmFile} (h : RmManager.createFile recordSize = .ok file) :
    RmInv (RmManager.openFile file) := by
  rw [RmManager.createFile] at h
  split at h
  · cases h
  · rename_i hsize
    cases h
    refine ⟨⟨?_, ?_, rfl, rfl⟩, rfl, le_rfl, ?_, .inl rfl, nofun, nofun⟩
    · simp only [RmManager.openFile]
      omega
    · simp only [RmManager.openFile]
      omega
    · intro p
      simp only [RmManager.openFile]
      refine ⟨fun hc => absurd rfl hc, fun hc => ?_⟩
      push_cast at hc
      omega

end RmFileHandle

theorem RmFileHandle.rmInv_always {recordSize : Nat} {file : RmFile} {ops : List RmOp}
    (hcreate : RmManager.createFile recordSize = .ok file)
    (hlegal : Trace.Guarded RmOp.step (fun f op => op.Legal f) (RmManager.openFile file) ops) :
    Trace.Always RmOp.step RmFileHandle.RmInv (RmManager.openFile file) ops := by
  refine Trace.always_of_guarded ?_ (RmFileHandle.openFile_inv hcreate) hlegal
  intro f op f' h hop hstep
  cases hstep
  exact (op.exec_spec h hop).1

end Rmdb
