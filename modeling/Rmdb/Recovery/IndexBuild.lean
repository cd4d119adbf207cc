import Rmdb.Execution.IndexRows
import Rmdb.Execution.IndexScan
import Rmdb.Recovery.Crash

namespace Rmdb

open IxManager IxIndexHandle

deriving instance DecidableEq for IndexMeta

namespace IndexMeta

variable (ix : IndexMeta)

def tabName : String := (ix.cols.head?.map ColMeta.tabName).getD ""

/-- The key buffer that is filled from a record, which has all columns. -/
def key (record : Bytes) : Key ix.layout :=
  ⟨(ix.rowKey record ++ List.replicate (colTotLen ix.layout.cols) 0).take (colTotLen ix.layout.cols), by simp⟩

abbrev Handle : Type := IxIndexHandle (Key ix.layout)

end IndexMeta

section Reads

variable {K : Type} [IxKey K] {ih ih' : IxIndexHandle K} {m : IxMap K}

/-- The index reads as the map: a scan enumerates it, and the descent from the root ends in the leaf that
has the entry of the key if there is one. -/
structure ReadsAs (ih : IxIndexHandle K) (m : IxMap K) : Prop where
  scan : Enumerates ih m
  search : ∀ k, ∃ fuel p node, ih.descend k fuel ih.fileHdr.rootPage = .ok p ∧ ih.pages p = some node ∧
    ∀ r, (k, r) ∈ node.pairs ↔ m k = some r

def HoldsExactly {α : Type} (ih : IxIndexHandle K) (key : α → K) (L : Rid → Option α) : Prop :=
  ∃ m, ReadsAs ih m ∧ Holds m key L

/-- Only the root and the ends of the leaf list are read of the header. -/
theorem descend_congr (hpages : ih'.pages = ih.pages) (k : K) (fuel : Nat) (p : Int) :
    ih'.descend k fuel p = ih.descend k fuel p := by
  induction fuel generalizing p with
  | zero => rfl
  | succ fuel hfuel =>
      have hnode : ih'.fetchNode p = ih.fetchNode p := by rw [fetchNode, fetchNode, hpages]
      rw [descend, descend, hnode]
      congr 1
      funext node
      rw [hfuel]

theorem scanFrom_congr (hpages : ih'.pages = ih.pages)
    (hlast : ih'.fileHdr.lastLeaf = ih.fileHdr.lastLeaf) (last : Iid) (fuel : Nat) (iid : Iid) :
    ih'.scanFrom last fuel iid = ih.scanFrom last fuel iid := by
  have hfetch : ∀ p, ih'.fetchNode p = ih.fetchNode p := fun p => by rw [fetchNode, fetchNode, hpages]
  induction fuel generalizing iid with
  | zero => rfl
  | succ fuel hfuel =>
      simp only [scanFrom, getRid, scanNext, hfetch, hlast, hfuel]

theorem Enumerates.congr (h : Enumerates ih m) (hpages : ih'.pages = ih.pages)
    (hfirst : ih'.fileHdr.firstLeaf = ih.fileHdr.firstLeaf)
    (hlast : ih'.fileHdr.lastLeaf = ih.fileHdr.lastLeaf) :
    Enumerates ih' m := by
  obtain ⟨end_, es, hend, hscan, hsorted, hes⟩ := h
  refine ⟨end_, es, ?_, fun fuel hf => ?_, hsorted, hes⟩
  · rw [← hend, leafEnd, leafEnd, fetchNode, fetchNode, hpages, hlast]
  · rw [scanFrom_congr hpages hlast, leafBegin, hfirst]
    exact hscan fuel hf

theorem ReadsAs.congr (h : ReadsAs ih m) (hpages : ih'.pages = ih.pages)
    (hroot : ih'.fileHdr.rootPage = ih.fileHdr.rootPage)
    (hfirst : ih'.fileHdr.firstLeaf = ih.fileHdr.firstLeaf)
    (hlast : ih'.fileHdr.lastLeaf = ih.fileHdr.lastLeaf) : ReadsAs ih' m := by
  refine ⟨h.scan.congr hpages hfirst hlast, fun k => ?_⟩
  obtain ⟨fuel, p, node, hdescend, hnode, hpairs⟩ := h.search k
  refine ⟨fuel, p, node, ?_, by rw [hpages]; exact hnode, hpairs⟩
  rw [descend_congr hpages, hroot]
  exact hdescend

variable [LinearOrder K] [LawfulIxKey K]

theorem Sim.readsAs (hs : Sim ih m) : ReadsAs ih m := by
  refine ⟨hs.enumerates, fun k => ?_⟩
  obtain ⟨es, hv, hm⟩ := hs
  obtain ⟨L, p, node, R, hfind, hnode, -, -, rfl, hL, hR⟩ := hv.leafAt k
  refine ⟨ih.fd2pageno, p, node, hfind, hnode, fun r => ?_⟩
  rw [← hm]
  constructor
  · intro hin
    exact List.mem_append_right _ (List.mem_append_left _ hin)
  · intro hin
    rcases List.mem_append.1 hin with hin | hin
    · exact absurd (hL _ hin) (lt_irrefl _)
    · exact (List.mem_append.1 hin).resolve_right fun hc => absurd (hR _ hc) (lt_irrefl _)

theorem IndexOf.holdsExactly {α : Type} {key : α → K} {L : Rid → Option α} (h : IndexOf ih key L) :
    HoldsExactly ih key L := by
  obtain ⟨-, m, hs, hm⟩ := h
  exact ⟨m, hs.readsAs, hm⟩

end Reads

section Build

variable {K : Type} [IxKey K] (t : String) (key : Bytes → K)

/-- The scan of `create_index`: a row whose key the index has already is deleted from the table. -/
def buildIndex : List Rid → IxIndexHandle K → Store → Ix (IxIndexHandle K × Store)
  | [], ih, st => .ok (ih, st)
  | rid :: rids, ih, st =>
      match st ⟨t, rid⟩ with
      | none => buildIndex rids ih st
      | some row => do
          let (_, success, ih) ← ih.insertEntry (key row) rid
          buildIndex rids ih (if success then st else deleteRecord st ⟨t, rid⟩)

def scannedRows (st : Store) (scanned : List Rid) : Rid → Option Bytes :=
  fun r => if r ∈ scanned then st ⟨t, r⟩ else none

variable {t key} {st : Store} {scanned rids : List Rid} {rid : Rid} {row : Bytes}

theorem scannedRows_snoc : scannedRows t st (scanned ++ [rid]) =
    Function.update (scannedRows t st scanned) rid (st ⟨t, rid⟩) := by
  funext r
  by_cases hr : r = rid
  · subst hr
    simp [scannedRows]
  · simp [scannedRows, hr]

theorem scannedRows_delete (hnot : rid ∉ scanned) :
    scannedRows t (deleteRecord st ⟨t, rid⟩) (scanned ++ [rid]) = scannedRows t st scanned := by
  funext r
  by_cases hr : r = rid
  · subst hr
    simp [scannedRows, deleteRecord, hnot]
  · simp [scannedRows, deleteRecord, hr]

variable [LinearOrder K] [LawfulIxKey K] {ih : IxIndexHandle K} {κ : Type} [DecidableEq κ] {emb : K → κ}

/-- The tree does to the rows what the rebuild of the tables says, and ends as the index of the
rows that stay. -/
theorem buildIndex_fold (hemb : Function.Injective emb) (hnd : rids.Nodup) (hdis : ∀ r ∈ rids, r ∉ scanned)
    (h : IndexOf ih key (scannedRows t st scanned)) {seen : List κ}
    (hseen : ∀ k, emb k ∈ seen ↔ ∃ r row, scannedRows t st scanned r = some row ∧ key row = k) :
    ∃ ih' st', buildIndex t key rids ih st = .ok (ih', st') ∧
      IndexOf ih' key (scannedRows t st' (scanned ++ rids)) ∧
      st' = (rids.foldl (fun (acc : List κ × Store) rid =>
        match acc.2 ⟨t, rid⟩ with
        | none => acc
        | some row =>
            if emb (key row) ∈ acc.1 then (acc.1, deleteRecord acc.2 ⟨t, rid⟩)
            else (emb (key row) :: acc.1, acc.2)) (seen, st)).2 := by
  induction rids generalizing ih st scanned seen with
  | nil => exact ⟨ih, st, rfl, by rw [List.append_nil]; exact h, rfl⟩
  | cons rid rids iht =>
      obtain ⟨hnot, hnd⟩ := List.nodup_cons.1 hnd
      have hfresh : rid ∉ scanned := hdis rid List.mem_cons_self
      have hdis' : ∀ r ∈ rids, r ∉ scanned ++ [rid] := by
        intro r hr hc
        rcases List.mem_append.1 hc with hc | hc
        · exact hdis r (List.mem_cons_of_mem _ hr) hc
        · exact hnot (List.mem_singleton.1 hc ▸ hr)
      have hfree : scannedRows t st scanned rid = none := by rw [scannedRows, if_neg hfresh]
      rw [List.append_cons]
      cases hrow : st ⟨t, rid⟩ with
      | none =>
          have hsame : scannedRows t st (scanned ++ [rid]) = scannedRows t st scanned := by
            rw [scannedRows_snoc, hrow, ← hfree, Function.update_eq_self]
          have hih := iht hnd hdis' (hsame ▸ h) (hsame ▸ hseen)
          simp only [buildIndex, List.foldl_cons, hrow]
          exact hih
      | some row =>
          by_cases hin : emb (key row) ∈ seen
          · -- the key is there already, and the row goes
            obtain ⟨q, old, hq, hkey⟩ := (hseen _).1 hin
            obtain ⟨p, ih', hins, hih'⟩ := h.insert_dup hq hkey rid
            have hsame : scannedRows t (deleteRecord st ⟨t, rid⟩) _ = _ := scannedRows_delete hfresh
            have hih := iht hnd hdis' (hsame ▸ hih') (hsame ▸ hseen)
            simp only [buildIndex, List.foldl_cons, hrow, hins, ok_bind, if_pos hin,
              Bool.false_eq_true, if_false]
            exact hih
          · have hnew : ∀ q row', scannedRows t st scanned q = some row' → key row' ≠ key row :=
              fun q row' hq hkey => hin ((hseen _).2 ⟨q, row', hq, hkey⟩)
            obtain ⟨p, ih', hins, hih'⟩ := h.insert hfree hnew
            have hsnoc : scannedRows t st (scanned ++ [rid]) =
                Function.update (scannedRows t st scanned) rid (some row) := by
              rw [scannedRows_snoc, hrow]
            have hseen' : ∀ k, emb k ∈ emb (key row) :: seen ↔
                ∃ r row', scannedRows t st (scanned ++ [rid]) r = some row' ∧ key row' = k := by
              intro k
              rw [List.mem_cons, hemb.eq_iff, hseen k, hsnoc]
              constructor
              · rintro (rfl | ⟨r, row', hr, hkey⟩)
                · exact ⟨rid, row, Function.update_self .., rfl⟩
                · refine ⟨r, row', ?_, hkey⟩
                  rw [Function.update_of_ne (fun hc => ?_)]
                  · exact hr
                  · rw [hc, hfree] at hr
                    cases hr
              · rintro ⟨r, row', hr, hkey⟩
                by_cases hrr : r = rid
                · rw [hrr, Function.update_self] at hr
                  cases hr
                  exact .inl hkey.symm
                · rw [Function.update_of_ne hrr] at hr
                  exact .inr ⟨r, row', hr, hkey⟩
            have hih := iht hnd hdis' (hsnoc ▸ hih') hseen'
            simp only [buildIndex, List.foldl_cons, hrow, hins, ok_bind, if_neg hin, if_true]
            exact hih

theorem indexOf_createIndex {α : Type} (L : KeyLayout) (key : α → Key L) :
    IndexOf (createIndex L) key fun _ => none :=
  ⟨rfl, IxMap.empty, createIndex_sim L, by simp [Holds, IxMap.empty]⟩

theorem scannedRows_of_cover (h : ∀ r, st ⟨t, r⟩ ≠ none → r ∈ rids) :
    scannedRows t st rids = fun r => st ⟨t, r⟩ := by
  funext r
  by_cases hr : r ∈ rids
  · rw [scannedRows, if_pos hr]
  · rw [scannedRows, if_neg hr]
    exact (not_not.1 (mt (h r) hr)).symm

/-- The rebuild of one index, tree and rows. -/
theorem buildIndex_spec (cat : Catalog κ) (hemb : Function.Injective emb) (h : IndexOf ih key fun _ => none) :
    ∃ ih', buildIndex t key (cat.slots t) ih st = .ok (ih', createIndexRows cat t (fun b => emb (key b)) st) ∧
      IndexOf ih' key (scannedRows t (createIndexRows cat t (fun b => emb (key b)) st) (cat.slots t)) := by
  have hnil : scannedRows t st [] = fun _ => none := by
    funext r
    rfl
  obtain ⟨ih', st', hrun, hih', hst'⟩ := buildIndex_fold hemb (cat.nodup t) (fun _ _ => List.not_mem_nil)
    (hnil ▸ h) (show ∀ k, emb k ∈ [] ↔ _ from fun k => by simp [hnil])
  rw [List.nil_append] at hih'
  rw [hst'] at hrun hih'
  exact ⟨ih', hrun, hih'⟩

end Build

section Rebuild

abbrev Handles : Type := ∀ ix : IndexMeta, ix.Handle

abbrev EntryKey : Type := Σ ix : IndexMeta, Key ix.layout

def IndexMeta.entryKey (ix : IndexMeta) (record : Bytes) : EntryKey := ⟨ix, ix.key record⟩

theorem IndexMeta.entryKey_inj {ix : IndexMeta} {record record' : Bytes} :
    ix.entryKey record = ix.entryKey record' ↔ ix.key record = ix.key record' := by
  simp [entryKey]

variable (slots : String → List Rid) (indexes : String → List IndexMeta)

/-- Every index of the table is dropped and created again. -/
def rebuildTable (t : String) : List IndexMeta → Handles → Store → Ix (Handles × Store)
  | [], ihs, st => .ok (ihs, st)
  | ix :: ixs, ihs, st => do
      let (ih, st) ← buildIndex t ix.key (slots t) (createIndex ix.layout) st
      rebuildTable t ixs (Function.update ihs ix ih) st

def rebuildTables : List String → Handles → Store → Ix (Handles × Store)
  | [], ihs, st => .ok (ihs, st)
  | t :: ts, ihs, st => do
      let (ihs, st) ← rebuildTable slots t (indexes t) ihs st
      rebuildTables ts ihs st

variable {slots indexes} {cat : Catalog EntryKey} {ihs : Handles} {st : Store} {t : String}

def Built (st : Store) (ihs : Handles) (ix : IndexMeta) : Prop :=
  IndexOf (ihs ix) ix.key fun r => st ⟨ix.tabName, r⟩

theorem rebuildTable_built (hslots : cat.slots = slots) (hcover : ∀ r, st ⟨t, r⟩ ≠ none → r ∈ slots t)
    (hunique : UniqueKeys cat t st) {ixs : List IndexMeta}
    (hixs : ∀ ix ∈ ixs, ix.tabName = t ∧ ix.entryKey ∈ cat.indexes t) :
    ∃ ihs', rebuildTable slots t ixs ihs st = .ok (ihs', st) ∧ (∀ ix ∈ ixs, Built st ihs' ix) ∧
      ∀ ix, Built st ihs ix → Built st ihs' ix := by
  subst hslots
  induction ixs generalizing ihs with
  | nil => exact ⟨ihs, rfl, nofun, fun _ h => h⟩
  | cons ix ixs iht =>
      obtain ⟨htab, hmem⟩ := hixs ix List.mem_cons_self
      obtain ⟨ih, hbuild, hih⟩ := buildIndex_spec (t := t) cat (sigma_mk_injective (i := ix))
        (indexOf_createIndex ix.layout ix.key)
      have hsame : createIndexRows cat t (fun b => (⟨ix, ix.key b⟩ : EntryKey)) st = st :=
        createIndexRows_unique hmem hunique
      rw [hsame] at hbuild hih
      rw [scannedRows_of_cover hcover, ← htab] at hih
      have hnew : Built st (Function.update ihs ix ih) ix := by
        rw [Built, Function.update_self]
        exact hih
      have hkeep : ∀ ix', Built st ihs ix' → Built st (Function.update ihs ix ih) ix' := by
        intro ix' h
        by_cases hix : ix' = ix
        · rw [hix]
          exact hnew
        · rw [Built, Function.update_of_ne hix]
          exact h
      obtain ⟨ihs', hrun, hall, hold⟩ := iht
        fun ix' hix' => hixs ix' (List.mem_cons_of_mem _ hix')
      refine ⟨ihs', ?_, ?_, fun ix' h => hold ix' (hkeep ix' h)⟩
      · rw [rebuildTable, hbuild, ok_bind]
        exact hrun
      · intro ix' hix'
        rcases List.mem_cons.1 hix' with rfl | hix'
        · exact hold _ hnew
        · exact hall ix' hix'

/-- Where the keys are unique the rows stay, and every index has them. -/
theorem rebuildTables_built (hslots : cat.slots = slots)
    (hindexes : ∀ t, cat.indexes t = (indexes t).map IndexMeta.entryKey)
    (htab : ∀ t, ∀ ix ∈ indexes t, ix.tabName = t) (hcover : ∀ t r, st ⟨t, r⟩ ≠ none → r ∈ slots t)
    (hunique : ∀ t, UniqueKeys cat t st) (ts : List String) :
    ∃ ihs', rebuildTables slots indexes ts ihs st = .ok (ihs', st) ∧
      (∀ t ∈ ts, ∀ ix ∈ indexes t, Built st ihs' ix) ∧ ∀ ix, Built st ihs ix → Built st ihs' ix := by
  induction ts generalizing ihs with
  | nil => exact ⟨ihs, rfl, nofun, fun _ h => h⟩
  | cons t ts iht =>
      have hixs : ∀ ix ∈ indexes t, ix.tabName = t ∧ ix.entryKey ∈ cat.indexes t := by
        intro ix hix
        refine ⟨htab t ix hix, ?_⟩
        rw [hindexes]
        exact List.mem_map_of_mem hix
      obtain ⟨ihs1, hrun1, hall1, hold1⟩ := rebuildTable_built hslots (hcover t) (hunique t) hixs
      obtain ⟨ihs2, hrun2, hall2, hold2⟩ := iht
      refine ⟨ihs2, ?_, ?_, fun ix h => hold2 ix (hold1 ix h)⟩
      · rw [rebuildTables, hrun1, ok_bind]
        exact hrun2
      · intro u hu ix hix
        rcases List.mem_cons.1 hu with rfl | hu
        · exact hold2 ix (hall1 ix hix)
        · exact hall2 u hu ix hix

end Rebuild

end Rmdb
