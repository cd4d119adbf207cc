import Rmdb.Index.Key
import Rmdb.Record.RmScan
import Rmdb.Storage.BufferPool

namespace Rmdb

open Bitmap

def PageData.mem (d : PageData) : Memory := fun a => if h : a < 4096 then d ⟨a, h⟩ else 0

def readIntAt (mem : Memory) (a : Nat) : Int := readInt (bytesAt mem a 4)

/-- The bytes of a table page: the page header stands behind the four bytes of the page LSN. -/
def PageData.decode (d : PageData) : RmPage := ⟨⟨readIntAt d.mem 4, readIntAt d.mem 8⟩, d.mem⟩

def RmPage.encode (page : RmPage) : PageData := fun i =>
  if i.val < 4 then page.data i
  else if i.val < 8 then (intBytes (Int32.ofInt page.pageHdr.nextFreePageNo)).getD (i - 4) 0
  else if i.val < 12 then (intBytes (Int32.ofInt page.pageHdr.numRecords)).getD (i - 8) 0
  else page.data i

theorem decode_encode_next {page : RmPage} (hlo : -2147483648 ≤ page.pageHdr.nextFreePageNo)
    (hhi : page.pageHdr.nextFreePageNo < 2147483648) :
    page.encode.decode.pageHdr.nextFreePageNo = page.pageHdr.nextFreePageNo := by
  have hbytes : bytesAt page.encode.mem 4 4 = intBytes (Int32.ofInt page.pageHdr.nextFreePageNo) := rfl
  rw [PageData.decode, readIntAt, hbytes, readInt_intBytes]
  exact Int32.toInt_ofInt_of_le hlo (by simpa using hhi)

def onePage (hdr : RmFileHdr) (p : Nat) (page : RmPage) : RmFileHandle :=
  ⟨hdr, Function.update (fun _ => none) (p : Int) (some page), hdr.numPages⟩

inductive RecordCall
  | insert (buf : Bytes)
  | getFree
  | insertAt (rid : Rid) (buf : Bytes)
  | delete (rid : Rid)
  | update (rid : Rid) (buf : Bytes)

namespace RecordCall

/-- `none` for a call that throws. -/
def exec (f : RmFileHandle) : RecordCall → Option (Rid × RmFileHandle)
  | insert buf => match f.insertRecord buf with
      | (.ok rid, f') => some (rid, f')
      | (.error _, _) => none
  | getFree => match f.getFreeRecord with
      | (.ok rid, f') => some (rid, f')
      | (.error _, _) => none
  | insertAt rid buf => match f.insertRecordAt rid buf with
      | .ok f' => some (rid, f')
      | .error _ => none
  | delete rid => match f.deleteRecord rid with
      | .ok f' => some (rid, f')
      | .error _ => none
  | update rid buf => match f.updateRecord rid buf with
      | .ok f' => some (rid, f')
      | .error _ => none

def Creates (hdr : RmFileHdr) : RecordCall → Prop
  | insert _ | getFree => hdr.firstFreePageNo = rmNoPage
  | insertAt _ _ | delete _ | update _ _ => False

instance (hdr : RmFileHdr) (c : RecordCall) : Decidable (c.Creates hdr) := by
  cases c <;> unfold Creates <;> infer_instance

def InFile (hdr : RmFileHdr) : RecordCall → Prop
  | insert _ | getFree => True
  | insertAt rid _ | delete rid | update rid _ =>
      1 ≤ rid.pageNo ∧ rid.pageNo < hdr.numPages ∧ 0 ≤ rid.slotNo ∧ rid.slotNo < hdr.numRecordsPerPage

def pageNo (hdr : RmFileHdr) : RecordCall → Int
  | insert _ | getFree => hdr.firstFreePageNo
  | insertAt rid _ | delete rid | update rid _ => rid.pageNo

def edit (hdr : RmFileHdr) (p : Nat) (d : PageData) (c : RecordCall) : Option (Rid × RmFileHdr × PageData) :=
  (c.exec (onePage hdr p d.decode)).map fun res =>
    (res.1, res.2.fileHdr, ((res.2.pages p).map RmPage.encode).getD d)

end RecordCall

def LinksTo (numPages : Nat) (x : Int) : Prop := x = rmNoPage ∨ 1 ≤ x ∧ x < numPages

namespace RecordCall

variable {f f' : RmFileHandle} {c : RecordCall} {rid : Rid} {page : RmPage} {p : Int}

structure Relinks (f f' : RmFileHandle) (p : Int) (page : RmPage) : Prop where
  size : f'.fileHdr.numPages = f.fileHdr.numPages
  head : f'.fileHdr.firstFreePageNo = f.fileHdr.firstFreePageNo ∨ f'.fileHdr.firstFreePageNo = p ∨
    f'.fileHdr.firstFreePageNo = page.pageHdr.nextFreePageNo
  next : ∃ page', f'.pages p = some page' ∧ (page'.pageHdr.nextFreePageNo = page.pageHdr.nextFreePageNo ∨
    page'.pageHdr.nextFreePageNo = rmNoPage ∨ page'.pageHdr.nextFreePageNo = f.fileHdr.firstFreePageNo)

theorem relinks_setPage {page' : RmPage}
    (hnext : page'.pageHdr.nextFreePageNo = page.pageHdr.nextFreePageNo) :
    Relinks f (f.setPage p page') p page :=
  ⟨rfl, .inl rfl, page', by simp [RmFileHandle.setPage], .inl hnext⟩

theorem relinks_unlinkFull {page' : RmPage}
    (hnext : page'.pageHdr.nextFreePageNo = page.pageHdr.nextFreePageNo) :
    Relinks f (f.unlinkFull p page') p page := by
  rw [RmFileHandle.unlinkFull]
  split
  · exact ⟨rfl, .inr (.inr hnext), _, by simp [RmFileHandle.setPage]; rfl, .inr (.inl rfl)⟩
  · exact relinks_setPage hnext

theorem relinks_releasePageHandle {page' : RmPage}
    (hnext : page'.pageHdr.nextFreePageNo = page.pageHdr.nextFreePageNo) :
    Relinks f (f.releasePageHandle p page') p page := by
  rw [RmFileHandle.releasePageHandle]
  split
  · exact relinks_setPage hnext
  · split
    · exact ⟨rfl, .inr (.inl rfl), _, by simp [RmFileHandle.setPage]; rfl, .inr (.inr rfl)⟩
    · exact ⟨rfl, .inl rfl, _, by simp [RmFileHandle.setPage]; rfl, .inr (.inl rfl)⟩

theorem relinks_afterDelete {page' : RmPage}
    (hnext : page'.pageHdr.nextFreePageNo = page.pageHdr.nextFreePageNo)
    (h : (if page'.pageHdr.numRecords = (f.fileHdr.numRecordsPerPage : Int) - 1 then
      (Except.ok (f.releasePageHandle p page') : Rm RmFileHandle) else .ok (f.setPage p page')) = .ok f') :
    Relinks f f' p page := by
  split at h
  · cases h
    exact relinks_releasePageHandle hnext
  · cases h
    exact relinks_setPage hnext

theorem fetchPageHandle_some (hp : f.pages p = some page) : f.fetchPageHandle p = .ok page := by
  rw [RmFileHandle.fetchPageHandle, hp]

theorem createPageHandle_head (h : f.fileHdr.firstFreePageNo ≠ rmNoPage) :
    f.createPageHandle = (f.fileHdr.firstFreePageNo, f) :=
  if_neg h

theorem exec_relinks (hp : f.pages p = some page) (hpage : c.pageNo f.fileHdr = p)
    (hc : ¬ c.Creates f.fileHdr) (h : c.exec f = some (rid, f')) : Relinks f f' p page := by
  have hfetch := fetchPageHandle_some hp
  cases c with
  | insert buf =>
      rw [exec, RmFileHandle.insertRecord, createPageHandle_head hc,
        show f.fileHdr.firstFreePageNo = p from hpage] at h
      simp only [hfetch] at h
      split at h
      · rename_i heq
        split at heq
        · cases heq
        · obtain ⟨-, rfl⟩ := Prod.mk.inj heq
          cases h
          exact relinks_unlinkFull rfl
      · cases h
  | getFree =>
      rw [exec, RmFileHandle.getFreeRecord, createPageHandle_head hc,
        show f.fileHdr.firstFreePageNo = p from hpage] at h
      simp only [hfetch] at h
      split at h
      · rename_i heq
        split at heq
        · cases heq
        · obtain ⟨-, rfl⟩ := Prod.mk.inj heq
          cases h
          exact ⟨rfl, .inl rfl, page, hp, .inl rfl⟩
      · cases h
  | insertAt r buf =>
      have hr : r.pageNo = p := hpage
      rw [exec, RmFileHandle.insertRecordAt, hr, hfetch] at h
      cases h
      refine relinks_unlinkFull ?_
      split <;> rfl
  | delete r =>
      have hr : r.pageNo = p := hpage
      rw [exec, RmFileHandle.deleteRecord, hr, hfetch] at h
      simp only [bind, Except.bind, pure, Except.pure] at h
      split at h
      · rename_i heq
        cases h
        exact relinks_afterDelete (by split <;> rfl) heq
      · cases h
  | update r buf =>
      have hr : r.pageNo = p := hpage
      rw [exec, RmFileHandle.updateRecord, hr, hfetch] at h
      cases h
      exact relinks_setPage rfl

end RecordCall

def newPageHdr (hdr : RmFileHdr) (p : Nat) : RmFileHdr :=
  { hdr with numPages := hdr.numPages + 1, firstFreePageNo := p }

def newPageData (hdr : RmFileHdr) : PageData := RmPage.encode ⟨⟨hdr.firstFreePageNo, 0⟩, fun _ => 0⟩

/-- The bytes of a table file: the header page, and the record pages. -/
structure StoredFile where
  fileHdr : RmFileHdr
  pages : Nat → Option PageData

namespace StoredFile

def handle (o : StoredFile) : RmFileHandle :=
  ⟨o.fileHdr, fun p => if p < 0 then none else (o.pages p.toNat).map PageData.decode, o.fileHdr.numPages⟩

/-- A call that throws leaves the bytes as they are. -/
def edit (o : StoredFile) (p : Nat) (c : RecordCall) : StoredFile :=
  match (o.pages p).bind (c.edit o.fileHdr p) with
  | some (_, hdr, d) => ⟨hdr, Function.update o.pages p (some d)⟩
  | none => o

def addPage (o : StoredFile) : StoredFile :=
  ⟨newPageHdr o.fileHdr o.fileHdr.numPages,
    Function.update o.pages o.fileHdr.numPages (some (newPageData o.fileHdr))⟩

def call (o : StoredFile) (c : RecordCall) : StoredFile :=
  if c.Creates o.fileHdr then o.addPage.edit o.fileHdr.numPages c else o.edit (c.pageNo o.fileHdr).toNat c

structure Sealed (o : StoredFile) : Prop where
  pages : ∀ p, o.pages p ≠ none ↔ 1 ≤ p ∧ p < o.fileHdr.numPages
  head : LinksTo o.fileHdr.numPages o.fileHdr.firstFreePageNo
  next : ∀ p d, o.pages p = some d → LinksTo o.fileHdr.numPages d.decode.pageHdr.nextFreePageNo
  one : 1 ≤ o.fileHdr.numPages
  small : o.fileHdr.numPages ≤ 2147483647

variable {o : StoredFile} {c : RecordCall} {p : Nat} {d d' : PageData} {hdr : RmFileHdr} {rid : Rid}

theorem linksTo_encode {page : RmPage} {numPages : Nat} (hsmall : numPages ≤ 2147483647)
    (h : LinksTo numPages page.pageHdr.nextFreePageNo) :
    LinksTo numPages page.encode.decode.pageHdr.nextFreePageNo := by
  rw [decode_encode_next]
  · exact h
  · rcases h with h | h
    · rw [h]
      decide
    · omega
  · rcases h with h | h
    · rw [h]
      decide
    · omega

theorem Sealed.page (h : o.Sealed) (hp : LinksTo o.fileHdr.numPages p) : ∃ d, o.pages p = some d := by
  have hp' : 1 ≤ p ∧ p < o.fileHdr.numPages := by
    rcases hp with hp | hp
    · exact absurd hp (by rw [rmNoPage]; omega)
    · omega
  exact Option.ne_none_iff_exists'.1 ((h.pages p).2 hp')

theorem Sealed.edit (h : o.Sealed) (hpage : c.pageNo o.fileHdr = p) (hc : ¬ c.Creates o.fileHdr)
    (hd : o.pages p = some d) (hres : c.edit o.fileHdr p d = some (rid, hdr, d')) :
    Sealed ⟨hdr, Function.update o.pages p (some d')⟩ ∧ hdr.numPages = o.fileHdr.numPages := by
  obtain ⟨⟨rid', f'⟩, hexec, hres⟩ := Option.map_eq_some_iff.1 hres
  obtain ⟨-, rfl, rfl⟩ : rid' = rid ∧ f'.fileHdr = hdr ∧ ((f'.pages p).map RmPage.encode).getD d = d' := by
    simpa using hres
  have hone : (onePage o.fileHdr p d.decode).pages p = some d.decode := by simp [onePage]
  have hrel := RecordCall.exec_relinks hone hpage hc hexec
  obtain ⟨page', hpage', hnext⟩ := hrel.next
  have hsize : f'.fileHdr.numPages = o.fileHdr.numPages := hrel.size
  have hlink := h.next p d hd
  have hself : LinksTo o.fileHdr.numPages p := by
    have := (h.pages p).1 (by rw [hd]; exact nofun)
    exact .inr (by omega)
  refine ⟨⟨?_, ?_, ?_, by rw [hsize]; exact h.one, by rw [hsize]; exact h.small⟩, hsize⟩
  · intro q
    rw [hsize, ← h.pages q]
    by_cases hqp : q = p
    · subst hqp
      simp [hd]
    · simp [Function.update_of_ne hqp]
  · rw [hsize]
    rcases hrel.head with hh | hh | hh <;> rw [hh]
    exacts [h.head, hself, hlink]
  · intro q e he
    change Function.update o.pages p (some ((f'.pages p).map RmPage.encode |>.getD d)) q = some e at he
    rw [hsize]
    by_cases hqp : q = p
    · subst hqp
      rw [Function.update_self, hpage'] at he
      cases he
      refine linksTo_encode h.small ?_
      rcases hnext with hn | hn | hn <;> rw [hn]
      exacts [hlink, .inl rfl, h.head]
    · rw [Function.update_of_ne hqp] at he
      exact h.next q e he

theorem Sealed.addPage (h : o.Sealed) (hsmall : o.fileHdr.numPages < 2147483647) : o.addPage.Sealed where
  pages := by
    intro q
    have hone := h.one
    simp only [StoredFile.addPage, newPageHdr]
    by_cases hq : q = o.fileHdr.numPages
    · subst hq
      simp [hone]
    · rw [Function.update_of_ne hq, h.pages q]
      omega
  head := by
    have hone := h.one
    exact .inr (by simp only [StoredFile.addPage, newPageHdr]; omega)
  next := by
    have hmono : ∀ x, LinksTo o.fileHdr.numPages x → LinksTo (o.fileHdr.numPages + 1) x :=
      fun x hx => hx.imp_right fun hx => by omega
    intro q d hd
    simp only [StoredFile.addPage, newPageHdr] at hd ⊢
    by_cases hq : q = o.fileHdr.numPages
    · subst hq
      rw [Function.update_self] at hd
      cases hd
      exact linksTo_encode (by omega) (hmono _ h.head)
    · rw [Function.update_of_ne hq] at hd
      exact hmono _ (h.next q d hd)
  one := Nat.le_add_left _ _
  small := hsmall

end StoredFile

end Rmdb
