import Rmdb.Index.Changes

namespace Rmdb

open BPlus SepList IxIndexHandle

variable {K : Type} {ih ih' : IxIndexHandle K}

section Frame

/-- No page `-1`: it is never handed out, so nothing is ever written there. -/
def NoPage (ih : IxIndexHandle K) : Prop := ih.pages (-1) = none

theorem Changes.noPage (h : Changes ih ih') (hno : NoPage ih) : NoPage ih' := by
  induction h with
  | refl => exact hno
  | @write ih _ p hp n iht =>
      have hne : p ≠ -1 := by
        rintro rfl
        rw [Present, iht] at hp
        cases hp
      rw [NoPage, writeNode]
      simp only [Function.update_of_ne hne.symm]
      exact iht
  | @create ih _ iht =>
      have hne : (-1 : Int) ≠ ih.fd2pageno := by omega
      rw [NoPage, createNode]
      simp only [Function.update_of_ne hne]
      exact iht
  | header _ _ iht => exact iht

theorem NoPage.insertEntry [IxKey K] (h : NoPage ih) {k : K} {v : Rid} {p : Int} {b : Bool}
    (hrun : ih.insertEntry k v = .ok (p, b, ih')) : NoPage ih' :=
  (Changes.refl.insertEntry hrun).noPage h

theorem NoPage.deleteEntry [IxKey K] (h : NoPage ih) {k : K} {rid : Option Rid} {b : Bool}
    (hrun : ih.deleteEntry k rid = .ok (b, ih')) : NoPage ih' :=
  (Changes.refl.deleteEntry hrun).noPage h

end Frame

section Last

/-- An index whose last entry has been removed: `adjust_root` has dropped the root leaf and
put no page in its place. A scan still finds the empty leaf. -/
structure Emptied [IxKey K] (ih : IxIndexHandle K) : Prop where
  root : ih.fileHdr.rootPage = -1
  noPage : NoPage ih
  scan : Enumerates ih IxMap.empty

variable [IxKey K]

theorem findLeafPage_rootless (hroot : ih.fileHdr.rootPage = -1) (hno : NoPage ih) (k : K) :
    ∃ e, ih.findLeafPage k = .error e := by
  rw [IxIndexHandle.findLeafPage, hroot]
  cases ih.fd2pageno with
  | zero => exact ⟨_, rfl⟩
  | succ fuel =>
      refine ⟨.internalError, ?_⟩
      rw [descend, fetchNode, hno]
      rfl

/-- Every later call throws. -/
theorem Emptied.insertEntry (h : Emptied ih) (k : K) (v : Rid) : ∃ e, ih.insertEntry k v = .error e := by
  obtain ⟨e, he⟩ := findLeafPage_rootless h.root h.noPage k
  exact ⟨e, by rw [IxIndexHandle.insertEntry, he]; rfl⟩

theorem Emptied.deleteEntry (h : Emptied ih) (k : K) (rid : Option Rid) :
    ∃ e, ih.deleteEntry k rid = .error e := by
  obtain ⟨e, he⟩ := findLeafPage_rootless h.root h.noPage k
  exact ⟨e, by rw [IxIndexHandle.deleteEntry, he]; rfl⟩

variable [LinearOrder K] [LawfulIxKey K]

omit [IxKey K] [LawfulIxKey K] in
theorem Valid.root_ne {es : List (K × Rid)} (hv : Valid ih es) : ih.fileHdr.rootPage ≠ -1 := by
  obtain ⟨h, t, hz, -⟩ := hv
  have hrange : 2 ≤ t.page ∧ t.page < ih.fd2pageno :=
    hz.mem.range ⟨t.page, (Ctx.top : Ctx K Rid h).parent, h == 0, t.pairs childRid⟩
      (by cases h <;> simp [zrecs, Tree.recs])
  have hroot : ih.fileHdr.rootPage = t.page := hz.root
  omega

/-- The last entry is taken out. -/
theorem deleteEntry_last {k : K} {r : Rid} {rid : Option Rid} (hv : Valid ih [(k, r)]) (hno : NoPage ih)
    (hrid : rid = none ∨ rid = some r) : ∃ ih', ih.deleteEntry k rid = .ok (true, ih') ∧ Emptied ih' := by
  obtain ⟨ctx, t, hleaf, hz, hf, -, hents⟩ := findLeafPage_spec k hv
  have hord := hz.order
  -- one entry does not fill a leaf that is not the root
  cases ctx with
  | frame p l k' up' up =>
      have hlow := hf.1
      have hlen := congrArg List.length hents
      simp only [zents, ents_zero, List.length_append, List.length_map, List.length_singleton] at hlen
      simp only [Ctx.Low] at hlow
      omega
  | top =>
      obtain ⟨n, hn, hpar, hl, hpairs⟩ := hz.mem.hole
      have hitems : n.pairs = [] ++ (k, r) :: [] := by
        rw [hpairs, pairs_zero]
        simpa [zents, Ctx.leftEnts, Ctx.rightEnts, ents_zero] using hents
      have hrem : n.remove k rid = n.erasePair 0 := by
        rw [IxNode.remove_present hitems (by simp) (by simp), if_pos hrid]
        rfl
      have hempty : (n.erasePair 0).pairs = [] := IxNode.erasePair_split hitems
      have hparent : n.parent = -1 := hpar
      have hpos : 0 < ih.fd2pageno := lt_of_le_of_lt (Nat.zero_le _) hz.mem.depth_lt
      obtain ⟨fuel, hfuel⟩ := Nat.exists_eq_succ_of_ne_zero hpos.ne'
      have hpage : (ih.writeNode t.page (n.erasePair 0)).pages t.page = some (n.erasePair 0) := writeNode_self
      have hfirst : (ih.writeNode t.page (n.erasePair 0)).maintainFirst t.page (n.erasePair 0) k =
          .ok (ih.writeNode t.page (n.erasePair 0)) := by
        rw [maintainFirst]
        split
        · rw [maintainParent, writeNode_fd2pageno, hfuel, maintainParentLoop, fetchNode_eq hpage, ok_bind]
          rw [if_pos (show (n.erasePair 0).parent = -1 from hparent)]
          rfl
        · rfl
      have hco : coalesceOrRedistribute (ih.writeNode t.page (n.erasePair 0)).fd2pageno
          (ih.writeNode t.page (n.erasePair 0)) t.page = .ok (true,
            { (ih.writeNode t.page (n.erasePair 0)).releaseNodeHandle with
              fileHdr :=
                { (ih.writeNode t.page (n.erasePair 0)).releaseNodeHandle.fileHdr with
                  rootPage := -1 } }) := by
        have hroot : (n.erasePair 0).isRootPage = true := decide_eq_true hparent
        have hsize : (n.erasePair 0).getSize = 0 := congrArg List.length hempty
        have hleaf' : (n.erasePair 0).isLeaf = true := hl
        rw [writeNode_fd2pageno, hfuel, coalesceOrRedistribute, fetchNode_eq hpage, ok_bind,
          if_pos hroot, adjustRoot, fetchNode_eq hpage, ok_bind, if_pos hleaf', if_pos hsize]
        rfl
      have hdel := deleteEntry_eq (t := t) hleaf hn (by rw [hrem]; exact hfirst) hco
      have hchain := hz.chain
      have hone : zleaves .top t = [t.page] := by simp [zleaves, Ctx.leftLeaves, Ctx.rightLeaves, leaves_zero]
      rw [hone] at hchain
      have hfirstLeaf : t.page = ih.fileHdr.firstLeaf := Option.some.inj hchain.first
      have hlastLeaf : t.page = ih.fileHdr.lastLeaf := Option.some.inj hchain.last
      refine ⟨_, hdel, rfl, hno.deleteEntry hdel, ⟨ih.fileHdr.lastLeaf, 0⟩, [], ?_, ?_, List.Pairwise.nil, ?_⟩
      · have hfetch : (ih.writeNode t.page (n.erasePair 0)).fetchNode ih.fileHdr.lastLeaf =
            .ok (n.erasePair 0) := by
          rw [← hlastLeaf]
          exact fetchNode_eq hpage
        change ((ih.writeNode t.page (n.erasePair 0)).fetchNode ih.fileHdr.lastLeaf >>= _) = _
        rw [hfetch, ok_bind, IxNode.getSize, hempty]
        rfl
      · intro fuel' _
        have hbegin : leafBegin
            { (ih.writeNode t.page (n.erasePair 0)).releaseNodeHandle with
              fileHdr :=
                { (ih.writeNode t.page (n.erasePair 0)).releaseNodeHandle.fileHdr with
                  rootPage := -1 } } =
            ⟨ih.fileHdr.lastLeaf, 0⟩ := by
          rw [← hlastLeaf, hfirstLeaf]
          rfl
        rw [hbegin]
        cases fuel' <;> rw [scanFrom, if_pos rfl]
      · intro k' r'
        exact ⟨by simp, by rintro ⟨⟩⟩

end Last

end Rmdb
