import Rmdb.System.Described

namespace Rmdb.SmMeta

open Restart

section Runs

variable {s : SmState} {path tabName : String} {content : FileContent} {n : Int32} {cols : List ColMeta}

theorem createFile_exists (h : s.disk.files path ≠ none) :
    DiskManager.createFile path s = ⟨.error (.error (.fileExists path)), s, []⟩ := by
  rw [DiskManager.createFile, run_get, if_pos (Option.isSome_iff_ne_none.2 h)]
  rfl

theorem createFile_run (h : s.disk.files path = none) :
    DiskManager.createFile path s = ⟨.ok (), s.setFile path (some .empty),
      [(s.setFile path (some .empty)).disk]⟩ := by
  rw [DiskManager.createFile, run_get, h, if_neg (by simp)]
  rfl

theorem destroyFile_run (h : s.disk.files path ≠ none) :
    DiskManager.destroyFile path s = ⟨.ok (), s.setFile path none, [(s.setFile path none).disk]⟩ := by
  rw [DiskManager.destroyFile, run_get, if_neg (by simpa using h)]
  rfl

theorem openFile_run (h : s.disk.files path = some content) (hopen : s.isOpen path = false) :
    DiskManager.openFile path s = ⟨.ok content, s.setOpen path true, []⟩ := by
  rw [DiskManager.openFile, run_get, hopen, if_neg (by simp), h]
  rfl

theorem openFile_missing (h : s.disk.files path = none) (hopen : s.isOpen path = false) :
    DiskManager.openFile path s = ⟨.error (.error (.fileNotFound path)), s, []⟩ := by
  rw [DiskManager.openFile, run_get, hopen, if_neg (by simp), h]
  rfl

theorem closeFile_run (h : s.isOpen path = true) :
    DiskManager.closeFile path s = ⟨.ok (), s.setOpen path false, []⟩ := by
  rw [DiskManager.closeFile, run_get, if_pos h]
  rfl

theorem writeFile_run (c : Option FileContent) :
    writeFile path c s = ⟨.ok (), s.setFile path c, [(s.setFile path c).disk]⟩ := rfl

@[simp] theorem setFile_setFile (c c' : Option FileContent) :
    (s.setFile path c).setFile path c' = s.setFile path c' := by
  simp only [SmState.setFile, Function.update_idem]

@[simp] theorem setOpen_setFile (c : Option FileContent) (b : Bool) :
    (s.setOpen path b).setFile path c = (s.setFile path c).setOpen path b := rfl

theorem setOpen_setOpen (h : s.isOpen path = false) : (s.setOpen path true).setOpen path false = s := by
  obtain ⟨db, fhs, ihs, isOpen, disk⟩ := s
  simp only [SmState.setOpen, Function.update_idem]
  rw [Function.update_eq_self_iff.2 h.symm]

theorem setFile_self {c : Option FileContent} (h : s.disk.files path = c) : s.setFile path c = s := by
  obtain ⟨db, fhs, ihs, isOpen, text, files⟩ := s
  simp only [SmState.setFile]
  rw [Function.update_eq_self_iff.2 h.symm]

namespace RmManager

theorem createFile_run (hn : ¬ (n < .ofNat 1 ∨ rmMaxRecordSize < n)) (h : s.disk.files path = none)
    (hopen : s.isOpen path = false) :
    createFile path n s = ⟨.ok (), s.setFile path (some (.record n)),
      [(s.setFile path (some .empty)).disk, (s.setFile path (some (.record n))).disk]⟩ := by
  rw [createFile, if_neg hn]
  have hnew : (s.setFile path (some .empty)).disk.files path = some .empty := Function.update_self _ _ _
  refine (run_bind (SmMeta.createFile_run h)
    (run_bind (openFile_run hnew hopen) (run_bind (writeFile_run _) (closeFile_run ?_)))).trans ?_
  · exact Function.update_self _ _ _
  · have hclosed : (s.setFile path (some (.record n))).isOpen path = false := hopen
    simp only [setOpen_setFile, setFile_setFile]
    rw [setOpen_setOpen hclosed]
    rfl

theorem openFile_run (h : s.disk.files path = some (.record n)) (hopen : s.isOpen path = false) :
    openFile path s = ⟨.ok n, s.setOpen path true, []⟩ := run_bind (SmMeta.openFile_run h hopen) rfl

theorem openFile_missing (h : s.disk.files path = none) (hopen : s.isOpen path = false) :
    openFile path s = ⟨.error (.error (.fileNotFound path)), s, []⟩ :=
    run_fail (SmMeta.openFile_missing h hopen)

theorem closeFile_run (h : s.disk.files path = some (.record n)) (hopen : s.isOpen path = true) :
    closeFile path n s = ⟨.ok (), s.setOpen path false, [s.disk]⟩ := by
  have hopen' : (s.setFile path (some (.record n))).isOpen path = true := hopen
  refine (run_bind (writeFile_run _) (SmMeta.closeFile_run hopen')).trans ?_
  rw [setFile_self h]
  rfl

end RmManager

namespace IxManager

variable {ih : IndexHdr} {ix : List String}

theorem createIndex_run {name : String} {hdr : IndexHdr}
    (hname : getIndexName path (cols.map ColMeta.name) = name) (hhdr : indexHdr cols = hdr)
    (h : s.disk.files name = none) (hopen : s.isOpen name = false) (hlen : ¬ ixMaxColLen < hdr.colTotLen)
    (horder : orderHolds hdr.colTotLen = true) :
    createIndex path cols s = ⟨.ok (), s.setFile name (some (.index hdr 3)),
      [(s.setFile name (some .empty)).disk, (s.setFile name (some (.index hdr 1))).disk,
        (s.setFile name (some (.index hdr 2))).disk, (s.setFile name (some (.index hdr 3))).disk]⟩ := by
  subst hname hhdr
  set name := getIndexName path (cols.map ColMeta.name)
  have hnew : (s.setFile name (some .empty)).disk.files name = some .empty := Function.update_self _ _ _
  have hpages : writePages name (indexHdr cols) ((s.setFile name (some .empty)).setOpen name true) =
      ⟨.ok (), s.setFile name (some (.index (indexHdr cols) 3)),
        [(s.setFile name (some (.index (indexHdr cols) 1))).disk,
        (s.setFile name (some (.index (indexHdr cols) 2))).disk,
        (s.setFile name (some (.index (indexHdr cols) 3))).disk]⟩ := by
    have hclosed : (s.setFile name (some (.index (indexHdr cols) 3))).isOpen name = false := hopen
    rw [writePages, if_neg hlen, if_neg (by rw [horder]; decide)]
    refine (run_bind (writeFile_run _) (run_bind (writeFile_run _) (run_bind (writeFile_run _)
      (closeFile_run (Function.update_self _ _ _))))).trans ?_
    simp only [setOpen_setFile, setFile_setFile]
    rw [setOpen_setOpen hclosed]
    rfl
  exact run_bind (SmMeta.createFile_run h) (run_bind (openFile_run hnew hopen) hpages)

/-- The two ways to fail when the file is there leave it empty and open. -/
theorem createIndex_stray {name : String} {hdr : IndexHdr} {e : Stop}
    (hname : getIndexName path (cols.map ColMeta.name) = name) (hhdr : indexHdr cols = hdr)
    (h : s.disk.files name = none) (hopen : s.isOpen name = false)
    (he : ∀ s, writePages name hdr s = ⟨.error e, s, []⟩) :
    createIndex path cols s =
      ⟨.error e, (s.setFile name (some .empty)).setOpen name true,
        [(s.setFile name (some .empty)).disk]⟩ := by
  subst hname hhdr
  set name := getIndexName path (cols.map ColMeta.name)
  have hnew : (s.setFile name (some .empty)).disk.files name = some .empty := Function.update_self _ _ _
  exact run_bind (SmMeta.createFile_run h) (run_bind (openFile_run hnew hopen) (he _))

theorem createIndex_exists (h : s.disk.files (getIndexName path (cols.map ColMeta.name)) ≠ none) :
    createIndex path cols s = ⟨.error (.error (.fileExists (getIndexName path (cols.map ColMeta.name)))),
      s, []⟩ :=
  run_fail (createFile_exists h)

theorem writePages_long {name : String} {hdr : IndexHdr} (hlen : ixMaxColLen < hdr.colTotLen) (s : SmState) :
    writePages name hdr s = ⟨.error (.error (.invalidColLength hdr.colTotLen)), s, []⟩ := by
  rw [writePages, if_pos hlen]
  rfl

theorem writePages_ended {name : String} {hdr : IndexHdr} (hlen : ¬ ixMaxColLen < hdr.colTotLen)
    (horder : orderHolds hdr.colTotLen = false) (s : SmState) :
    writePages name hdr s = ⟨.error .ended, s, []⟩ := by
  rw [writePages, if_neg hlen, if_pos horder]
  rfl

theorem openIndex_run (h : s.disk.files (getIndexName path ix) = some (.index ih 3))
    (hopen : s.isOpen (getIndexName path ix) = false) :
    openIndex path ix s = ⟨.ok ih, s.setOpen (getIndexName path ix) true, []⟩ :=
    run_bind (openFile_run h hopen) rfl

theorem openIndex_missing (h : s.disk.files (getIndexName path ix) = none)
    (hopen : s.isOpen (getIndexName path ix) = false) :
    openIndex path ix s = ⟨.error (.error (.fileNotFound (getIndexName path ix))), s, []⟩ :=
    run_fail (openFile_missing h hopen)

theorem closeIndex_run (h : s.disk.files path = some (.index ih 3)) (hopen : s.isOpen path = true) :
    closeIndex path ih s = ⟨.ok (), s.setOpen path false, [s.disk]⟩ := by
  have hopen' : (s.setFile path (some (.index ih 3))).isOpen path = true := hopen
  refine (run_bind (writeFile_run _) (closeFile_run hopen')).trans ?_
  rw [setFile_self h]
  rfl

end IxManager

namespace SmManager

theorem flushMeta_run :
    flushMeta s = ⟨.ok (), s.setMeta s.db.write, [(s.setMeta []).disk, (s.setMeta s.db.write).disk]⟩ :=
    rfl

theorem emplaceFh_run (h : s.fhs tabName = none) :
    emplaceFh tabName n s = ⟨.ok (), s.setFh tabName (some n), []⟩ := by
  rw [emplaceFh, run_get, h]
  rfl

theorem emplaceIh_run {i : IndexHdr} (h : s.ihs path = none) :
    emplaceIh path i s = ⟨.ok (), s.setIh path (some i), []⟩ := by
  rw [emplaceIh, run_get, h]
  rfl

end SmManager

end Runs

end Rmdb.SmMeta
