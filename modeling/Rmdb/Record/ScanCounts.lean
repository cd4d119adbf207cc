import Rmdb.Record.RmScan

namespace Rmdb

open Bitmap

def Rid.Before (r r' : Rid) : Prop := r.pageNo < r'.pageNo ∨ r.pageNo = r'.pageNo ∧ r.slotNo < r'.slotNo

theorem before_irrefl (r : Rid) : ¬ r.Before r := by
  rintro (h | h) <;> omega

theorem before_asymm {r r' : Rid} (h : r.Before r') : ¬ r'.Before r := by
  rintro (h' | h')
  · rcases h with h | h <;> omega
  · rcases h with h | h <;> omega

theorem slots_ext {as bs : List Rid} (ha : as.Pairwise Rid.Before) (hb : bs.Pairwise Rid.Before)
    (h : ∀ r, r ∈ as ↔ r ∈ bs) :
    as = bs := by
  have : Std.Irrefl Rid.Before := ⟨before_irrefl⟩
  have : Std.Antisymm Rid.Before := ⟨fun r r' hr hr' => absurd hr' (before_asymm hr)⟩
  exact ha.eq_of_mem_iff hb h

namespace RmFileHandle

variable {f : RmFileHandle} {p : Int} {page : RmPage} {rid : Rid} {k left : Nat}

def SetBit (f : RmFileHandle) (rid : Rid) : Prop :=
  ∃ page, f.pages rid.pageNo = some page ∧ 0 ≤ rid.slotNo ∧ rid.slotNo.toNat < f.fileHdr.numRecordsPerPage ∧
    isSet page.data bitmapStart rid.slotNo.toNat = true

structure CountsAgree (f : RmFileHandle) : Prop where
  counters : ∀ p page, f.pages p = some page →
    page.pageHdr.numRecords = count page.data bitmapStart f.fileHdr.numRecordsPerPage
  scan : ∃ first rids, RmScan.start f = .ok first ∧ (RmScan.cursor f).Yields first rids ∧
    (∀ rid, rid ∈ rids ↔ f.SetBit rid) ∧
    rids.Pairwise Rid.Before ∧ f.getRecordCount = .ok rids.length

theorem setBit_iff : f.SetBit rid ↔ f.entry rid ≠ none := by
  rw [SetBit, entry]
  cases f.pages rid.pageNo with
  | none => simp
  | some page =>
      simp only [Option.some.injEq, exists_eq_left', slotEntry]
      by_cases hin : 0 ≤ rid.slotNo ∧ rid.slotNo.toNat < f.fileHdr.numRecordsPerPage
      · rw [if_pos hin]
        by_cases hset : isSet page.data bitmapStart rid.slotNo.toNat = true <;> simp [hin, hset]
      · rw [if_neg hin]
        refine ⟨fun h => absurd ⟨h.1, h.2.1⟩ hin, fun h => absurd rfl h⟩

theorem slotsFrom_before : (f.slotsFrom p page k).Pairwise Rid.Before := by
  refine List.pairwise_map.2 (((List.pairwise_lt_range' ..).filter _).imp fun {i j} hij => .inr ⟨rfl, ?_⟩)
  exact Int.ofNat_lt.2 hij

theorem pageRids_before : (f.pageRids p).Pairwise Rid.Before := by
  rw [pageRids]
  split
  · exact slotsFrom_before
  · exact .nil

theorem pagesFrom_before : (f.pagesFrom p left).Pairwise Rid.Before := by
  induction left generalizing p with
  | zero => exact .nil
  | succ left ih =>
      rw [pagesFrom]
      refine List.pairwise_append.2 ⟨pageRids_before, ih, fun a ha b hb => .inl ?_⟩
      have hpage := (mem_pageRids.1 ha).1
      have hlater := (mem_pagesFrom.1 hb).1
      omega

section Insert

variable {buf : Bytes} (h : RmInv f) (hbuf : buf.length = f.fileHdr.recordSize)

include h hbuf

theorem inv_insertRecord : RmInv (f.insertRecord buf).2 := by
  rcases insertRecord_spec h hbuf with ⟨rid, f', hrun, -, -, hinv⟩ | hrun
  · rw [hrun]
    exact hinv
  · rw [hrun]
    exact h

theorem entry_insertRecord (hrid : (f.insertRecord buf).1 = .ok rid) :
    (f.insertRecord buf).2.entry = Function.update f.entry rid (some buf) := by
  rcases insertRecord_spec h hbuf with ⟨rid', f', hrun, -, hentry, -⟩ | hrun
  · rw [hrun] at hrid ⊢
    cases hrid
    exact hentry
  · rw [hrun] at hrid
    cases hrid

theorem rids_insertRecord (hrid : (f.insertRecord buf).1 = .ok rid) (hlast : ∀ r ∈ f.rids, r.Before rid) :
    (f.insertRecord buf).2.rids = f.rids ++ [rid] := by
  refine slots_ext pagesFrom_before (List.pairwise_append.2 ⟨pagesFrom_before, List.pairwise_singleton _ _,
    fun r hr r' hr' => List.mem_singleton.1 hr' ▸ hlast r hr⟩) fun r => ?_
  rw [List.mem_append, List.mem_singleton, mem_rids (inv_insertRecord h hbuf),
    entry_insertRecord h hbuf hrid, mem_rids h]
  by_cases hr : r = rid
  · rw [hr, Function.update_self]
    exact iff_of_true nofun (.inr rfl)
  · rw [Function.update_of_ne hr]
    exact (or_iff_left hr).symm

theorem two_records {buf' : Bytes} {rid' : Rid} (hnil : f.rids = [])
    (hbuf' : buf'.length = (f.insertRecord buf).2.fileHdr.recordSize)
    (hrid : (f.insertRecord buf).1 = .ok rid)
    (hrid' : ((f.insertRecord buf).2.insertRecord buf').1 = .ok rid')
    (hlast : rid.Before rid') :
    ((f.insertRecord buf).2.insertRecord buf').2.rids = [rid, rid'] ∧
      ((f.insertRecord buf).2.insertRecord buf').2.entry rid = some buf ∧
      ((f.insertRecord buf).2.insertRecord buf').2.entry rid' = some buf' := by
  have hinv := inv_insertRecord h hbuf
  have hone : (f.insertRecord buf).2.rids = [rid] := by
    rw [rids_insertRecord h hbuf hrid (by rw [hnil]; exact List.forall_mem_nil _), hnil, List.nil_append]
  have hne : rid ≠ rid' := by
    rintro rfl
    exact before_irrefl rid hlast
  rw [entry_insertRecord hinv hbuf' hrid', Function.update_of_ne hne, Function.update_self,
    entry_insertRecord h hbuf hrid, Function.update_self,
    rids_insertRecord hinv hbuf' hrid' (by simpa [hone]), hone]
  exact ⟨rfl, rfl, rfl⟩

end Insert

theorem RmInv.countsAgree (h : RmInv f) : CountsAgree f where
  counters _ _ hp := h.count hp
  scan := by
    obtain ⟨first, hstart, hyields⟩ := RmScan.scan_yields h
    exact ⟨first, f.rids, hstart, hyields, fun rid => (mem_rids h).trans setBit_iff.symm,
      pagesFrom_before, getRecordCount_spec h⟩

end RmFileHandle

end Rmdb
