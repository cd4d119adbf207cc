import Rmdb.Index.Insert

namespace Rmdb

open BPlus SepList IxIndexHandle

variable {K : Type} {h : Nat} {ih ih' : IxIndexHandle K} {rs : List (Rec K Rid)}

section Retire

variable {X Y : List Int} {p q : Int}

theorem last_unlink {last : Int} (hnd : (X ++ p :: q :: Y).Nodup)
    (hl : (X ++ p :: q :: Y).getLast? = some last) :
    (X ++ p :: Y).getLast? = some (if q = last then p else last) := by
  cases Y with
  | nil =>
      have hlq : q = last := by simpa [List.getLast?_append, List.getLast?_cons_cons] using hl
      simp [hlq]
  | cons y Y =>
      have hl' : (y :: Y).getLast? = some last := by
        simpa [List.getLast?_append, List.getLast?_cons_cons] using hl
      have hne : q ≠ last := by
        rintro rfl
        have := (List.nodup_cons.1 (List.nodup_append.1 hnd).2.1).2
        exact (List.nodup_cons.1 this).1 (List.mem_of_getLast? hl')
      rw [if_neg hne]
      simpa [List.getLast?_append, List.getLast?_cons_cons] using hl'

/-- Taking an emptied leaf `q` out of the leaf list; the leaf `p` before it took its entries. -/
theorem retireLeaf_spec (hc : LeafChain ih (X ++ p :: q :: Y))
    (hnd : (1 :: (X ++ p :: q :: Y)).Nodup) {n : IxNode K} (hq : ih.pages q = some n)
    (hleaf : n.isLeaf = true) :
    ∃ ih', ih.retireLeaf p q true = .ok ih' ∧ LeafChain ih' (X ++ p :: Y) ∧ (∀ rs, Mem ih rs → Mem ih' rs) ∧
      ih'.fileHdr = { ih.fileHdr with
        lastLeaf := if q = ih.fileHdr.lastLeaf then p else ih.fileHdr.lastLeaf } ∧
      ih'.fd2pageno = ih.fd2pageno := by
  obtain ⟨h1, h2⟩ := Ring.ring_split.1 hc.links
  obtain ⟨x, hx, hqx⟩ : ∃ x, x ∈ 1 :: Y ∧ Ring.Link (nextOf ih) (prevOf ih) q x := by
    cases Y with
    | nil => exact ⟨1, by simp, (List.isChain_cons_cons.1 (List.isChain_cons_cons.1 h2).2).1⟩
    | cons y Y => exact ⟨y, by simp, (List.isChain_cons_cons.1 (List.isChain_cons_cons.1 h2).2).1⟩
  have hpq : Ring.Link (nextOf ih) (prevOf ih) p q := (List.isChain_cons_cons.1 h2).1
  have hne : p ≠ q ∧ x ≠ p ∧ x ≠ q := by
    have hd := List.nodup_cons.1 hnd
    have hpr := List.nodup_cons.1 (List.nodup_append.1 hd.2).2.1
    have hqr := List.nodup_cons.1 hpr.2
    refine ⟨fun he => hpr.1 (by simp [he]), ?_, ?_⟩
    · rintro rfl
      rcases List.mem_cons.1 hx with rfl | hx
      · exact hd.1 (by simp)
      · exact hpr.1 (by simp [hx])
    · rintro rfl
      rcases List.mem_cons.1 hx with rfl | hx
      · exact hd.1 (by simp)
      · exact hqr.1 hx
  obtain ⟨m, hm, -⟩ := page_of_next hpq.1
  obtain ⟨n', hn', hprev⟩ := page_of_prev hpq.2
  cases hq.symm.trans hn'
  obtain ⟨n', hn', hnext⟩ := page_of_next hqx.1
  cases hq.symm.trans hn'
  obtain ⟨c, hcx, -⟩ := page_of_prev hqx.2
  let ih0 : IxIndexHandle K := { ih with fileHdr := { ih.fileHdr with
    lastLeaf := if q = ih.fileHdr.lastLeaf then p else ih.fileHdr.lastLeaf } }
  have h0 : ih.retireLeaf p q true = ih0.eraseLeaf q := by
    rw [retireLeaf, if_pos rfl]
    by_cases hc : q = ih.fileHdr.lastLeaf
    · simp only [ih0, if_pos hc]
    · simp only [ih0, if_neg hc]
  have hq1 : (ih0.writeNode p { m with nextLeaf := x }).pages q = some n := by
    rw [writeNode_ne hne.1.symm]; exact hq
  have hx1 : (ih0.writeNode p { m with nextLeaf := x }).pages x = some c := by
    rw [writeNode_ne hne.2.1]; exact hcx
  refine ⟨(ih0.writeNode p { m with nextLeaf := x }).writeNode x { c with prevLeaf := p }, ?_,
    ⟨?_, ?_, ?_⟩, ?_, rfl, rfl⟩
  · have hq0 : ih0.pages q = some n := hq
    have hp0 : ih0.pages p = some m := hm
    rw [h0, eraseLeaf, fetchNode_eq hq0, ok_bind, if_pos hleaf, hprev, fetchNode_eq hp0, ok_bind, hnext]
    simp only [fetchNode_eq hq1, ok_bind, hnext, hprev, fetchNode_eq hx1]
    rfl
  · refine hc.links.unlink hnd hqx.1 ?_ ?_ ?_ ?_
    · rw [nextOf_ne hne.2.1.symm, nextOf_self]
    · rw [prevOf_self]
    · intro y hy
      by_cases hyx : y = x
      · rw [hyx, nextOf_self, nextOf, link, hcx]; rfl
      · rw [nextOf_ne hyx, nextOf_ne hy]; rfl
    · intro y hy
      rw [prevOf_ne hy]
      by_cases hyp : y = p
      · rw [hyp, prevOf_self, prevOf, link, hm]; rfl
      · rw [prevOf_ne hyp]; rfl
  · have := hc.first
    cases X <;> simpa using this
  · exact last_unlink (List.nodup_cons.1 hnd).2 hc.last
  · intro rs hrs
    have hrs0 : Mem ih0 rs := hrs.hdr _
    have hrs1 := hrs0.touch (m := { m with nextLeaf := x }) hm rfl rfl rfl
    exact hrs1.touch (m := { c with prevLeaf := p }) hx1 rfl rfl rfl

end Retire

structure Siblings [LinearOrder K] (ih : IxIndexHandle K) (up : Ctx K Rid (h + 1)) (p : Int)
    (l : List (K × Tree K Rid h)) (ka : K) (a : Tree K Rid h) (kb : K) (b : Tree K Rid h)
    (r : List (K × Tree K Rid h)) : Prop where
  order : 6 ≤ ih.fileHdr.btreeOrder
  root : ih.fileHdr.rootPage = up.root p
  mem : Mem ih (zrecs childRid up (Tree.mk p (l ++ (ka, a) :: (kb, b) :: r)))
  sorted : Sorted (zflat up (Tree.mk p (l ++ (ka, a) :: (kb, b) :: r)))
  chain : LeafChain ih (zleaves up (Tree.mk p (l ++ (ka, a) :: (kb, b) :: r)))
  upSized : up.Sized ih.fileHdr.btreeOrder
  lSized : ∀ e ∈ l, Sized ih.fileHdr.btreeOrder (h + 1) e
  rSized : ∀ e ∈ r, Sized ih.fileHdr.btreeOrder (h + 1) e
  aKids : ∀ e ∈ a.items, Sized ih.fileHdr.btreeOrder h e
  bKids : ∀ e ∈ b.items, Sized ih.fileHdr.btreeOrder h e

section Siblings

variable [LinearOrder K] {up : Ctx K Rid (h + 1)} {p : Int} {l r : List (K × Tree K Rid h)} {ka kb k : K}
  {a b t : Tree K Rid h}

theorem Zip.right_sibling (hz : Zip ih (.frame p [] k ((kb, b) :: r) up) t) :
    Siblings ih up p [] k t kb b r where
  order := hz.order
  root := hz.root
  mem := hz.mem.perm (zrecs_close p [] k t ((kb, b) :: r) up childRid).symm
  sorted := by have := hz.sorted; rwa [← zflat_close] at this
  chain := by have := hz.chain; rwa [← zleaves_close] at this
  upSized := hz.ctxSized.2.2.2.2
  lSized := by simp
  rSized e he := hz.ctxSized.2.1 e (by simp [he])
  aKids := hz.kids
  bKids := (hz.ctxSized.2.1 (kb, b) (by simp)).2.2

theorem Zip.left_sibling (hz : Zip ih (.frame p (l ++ [(ka, a)]) k r up) t) :
    Siblings ih up p l ka a k t r where
  order := hz.order
  root := hz.root
  mem := by
    have := hz.mem.perm (zrecs_close p (l ++ [(ka, a)]) k t r up childRid).symm
    simpa [Tree.close] using this
  sorted := by
    have := hz.sorted
    rw [← zflat_close] at this
    simpa [Tree.close] using this
  chain := by
    have := hz.chain
    rw [← zleaves_close] at this
    simpa [Tree.close] using this
  upSized := hz.ctxSized.2.2.2.2
  lSized e he := hz.ctxSized.1 e (by simp [he])
  rSized e he := hz.ctxSized.2.1 e he
  aKids := (hz.ctxSized.1 (ka, a) (by simp)).2.2
  bKids := hz.kids

namespace Siblings

theorem front (hs : Siblings ih up p l ka a kb b r) :
    Mem ih (⟨a.page, p, h == 0, a.pairs childRid⟩ :: ⟨b.page, p, h == 0, b.pairs childRid⟩ ::
      ⟨p, up.parent, false, (l ++ (ka, a) :: (kb, b) :: r).map (pairOf childRid (h + 1))⟩ ::
      (kidRecs childRid a.page a.items ++ kidRecs childRid b.page b.items ++
        (kidRecs childRid p l ++ kidRecs childRid p r ++ up.recs childRid p))) := by
  refine hs.mem.perm ?_
  rw [← Multiset.coe_eq_coe]
  simp only [zrecs, Tree.recs, Tree.pairs, Tree.page_mk, Tree.items_mk, kidRecs_append, kidRecs_cons,
    List.append_assoc, List.cons_append, ← Multiset.coe_add, ← Multiset.cons_coe, ← Multiset.singleton_add]
  rw [show ((h + 1 == 0) = false) from rfl]
  abel

theorem a_node (hs : Siblings ih up p l ka a kb b r) :
    ∃ n, ih.pages a.page = some n ∧ n.getSize = a.items.length := by
  obtain ⟨n, hn, -, -, hpairs⟩ := hs.front.get
  exact ⟨n, hn, by rw [IxNode.getSize, hpairs, Tree.pairs, List.length_map]⟩

theorem b_node (hs : Siblings ih up p l ka a kb b r) :
    ∃ n, ih.pages b.page = some n ∧ n.getSize = b.items.length := by
  obtain ⟨n, hn, -, -, hpairs⟩ := hs.front.get_of_mem (r := ⟨b.page, p, h == 0, b.pairs childRid⟩) (by simp)
  exact ⟨n, hn, by rw [IxNode.getSize, hpairs, Tree.pairs, List.length_map]⟩

variable [IxKey K]

omit [IxKey K] in
theorem retire (hs : Siblings ih up p l ka a kb b r) (hloc : Local ih ih') {n : IxNode K}
    (hn : ih'.pages b.page = some n) (hleaf : n.isLeaf = (h == 0)) :
    ∃ ih2, ih'.retireLeaf a.page b.page (h == 0) = .ok ih2 ∧
      (∀ rs, Mem ih' rs → Mem ih2 rs) ∧ ih2.fileHdr.btreeOrder = ih.fileHdr.btreeOrder ∧
      ih2.fileHdr.rootPage = ih.fileHdr.rootPage ∧ ih2.fd2pageno = ih.fd2pageno ∧
      LeafChain ih2 (zleaves up (Tree.mk p (l ++ (ka, Tree.mk a.page (a.items ++ b.items)) :: r))) := by
  have hnd := hs.mem.leaves_nodup
  have hch := hs.chain.quiet hloc.quiet hs.mem.leaves_lt
  cases h with
  | zero =>
      have hle : zleaves up (Tree.mk p (l ++ (ka, a) :: (kb, b) :: r)) =
          (up.leftLeaves ++ kidLeaves l) ++ a.page :: b.page :: (kidLeaves r ++ up.rightLeaves) := by
            simp [zleaves]
      rw [hle] at hnd hch
      obtain ⟨ih2, hrun, hch2, hmem, hhdr, hcnt⟩ := retireLeaf_spec hch hnd hn hleaf
      refine ⟨ih2, hrun, hmem, by rw [hhdr, hloc.hdr], by rw [hhdr, hloc.hdr],
        hcnt.trans hloc.count, ?_⟩
      simpa [zleaves] using hch2
  | succ h =>
      refine ⟨ih', rfl, fun _ hm => hm, by rw [hloc.hdr], by rw [hloc.hdr], hloc.count, ?_⟩
      simpa [zleaves] using hch

/-- `coalesce` moves the pairs of `b` into `a` and drops `b` from the parent. -/
theorem coalesce_spec (hs : Siblings ih up p l ka a kb b r)
    (hlo : ih.fileHdr.btreeOrder / 2 ≤ a.items.length + b.items.length)
    (hhi : a.items.length + b.items.length < ih.fileHdr.btreeOrder) :
    ∃ ih', Zip ih' up (Tree.mk p (l ++ (ka, Tree.mk a.page (a.items ++ b.items)) :: r)) ∧
      ih'.fileHdr.btreeOrder = ih.fileHdr.btreeOrder ∧
      ∀ again, coalesce again ih a.page b.page p (l.length + 1) =
        if l.length + 1 + r.length < ih.fileHdr.btreeOrder / 2 then again ih' p else .ok (false, ih') := by
  have hm := hs.front
  obtain ⟨na, hna, hapar, haleaf, hapairs⟩ := hm.get
  obtain ⟨nb, hnb, hbpar, hbleaf, hbpairs⟩ :=
    hm.get_of_mem (r := ⟨b.page, p, h == 0, b.pairs childRid⟩) (by simp)
  have hab : b.page ≠ a.page := hm.ne_head ⟨b.page, p, h == 0, b.pairs childRid⟩ (by simp)
  have hins : (na.insertPairs na.getSize nb.pairs).pairs =
      a.pairs childRid ++ b.items.map (pairOf childRid h) ++ [] := by
    have := IxNode.insertPairs_split (n := na) (A := na.pairs) (B := []) (by simp) nb.pairs
    rw [IxNode.getSize, this, hapairs, hbpairs, Tree.pairs, Tree.pairs]
  have hm1 := hm.write (n := na.insertPairs na.getSize nb.pairs)
    (c := ⟨a.page, p, h == 0, a.pairs childRid ++ b.items.map (pairOf childRid h) ++ []⟩) rfl
      ⟨hapar, haleaf, hins⟩
  have hloc1 : Local ih (ih.writeNode a.page (na.insertPairs na.getSize nb.pairs)) := local_write hna rfl rfl
  obtain ⟨ih2, hrun2, hloc2, hm2⟩ := maintainKids_spec (a.pairs childRid) [] b.items
    (q := b.page) (v := ⟨b.page, p, h == 0, b.pairs childRid⟩ ::
      ⟨p, up.parent, false, (l ++ (ka, a) :: (kb, b) :: r).map (pairOf childRid (h + 1))⟩ ::
      (kidRecs childRid a.page a.items ++
        (kidRecs childRid p l ++ kidRecs childRid p r ++ up.recs childRid p)))
    (hm1.perm (by
      rw [← Multiset.coe_eq_coe]
      simp only [List.append_assoc, ← Multiset.coe_add, ← Multiset.cons_coe, ← Multiset.singleton_add]
      abel))
  obtain ⟨nb2, hnb2, -, hbleaf2, -⟩ := hm2.get_of_mem (r := ⟨b.page, p, h == 0, b.pairs childRid⟩) (by simp)
  obtain ⟨ih3, hrun3, hmem3, hord3, hroot3, hcnt3, hch3⟩ := hs.retire (hloc1.trans hloc2) hnb2 hbleaf2
  have hm4 := (hmem3 _ hm2).hdr { ih3.fileHdr with numPages := ih3.fileHdr.numPages - 1 }
  have hm5 :=
    hm4.perm (w := ⟨p, up.parent, false, (l ++ (ka, a) :: (kb, b) :: r).map (pairOf childRid (h + 1))⟩ ::
      (⟨b.page, p, h == 0, b.pairs childRid⟩ ::
      ⟨a.page, p, h == 0, a.pairs childRid ++ b.items.map (pairOf childRid h) ++ []⟩ ::
      (kidRecs childRid a.page a.items ++ kidRecs childRid a.page b.items ++
        (kidRecs childRid p l ++ kidRecs childRid p r ++ up.recs childRid p)))) (by
    rw [← Multiset.coe_eq_coe]
    simp only [List.append_assoc, ← Multiset.coe_add, ← Multiset.cons_coe, ← Multiset.singleton_add]
    abel)
  obtain ⟨np, hnp, hppar, hpleaf, hppairs⟩ := hm5.get
  have hsplit : np.pairs = (l ++ [(ka, a)]).map (pairOf childRid (h + 1)) ++ (kb, childRid b.page) ::
      r.map (pairOf childRid (h + 1)) := by rw [hppairs]; simp [pairOf]
  have herase : (np.erasePair (l.length + 1)).pairs =
      (l ++ (ka, Tree.mk a.page (a.items ++ b.items)) :: r).map (pairOf childRid (h + 1)) := by
    have := IxNode.erasePair_split hsplit
    rw [List.length_map, List.length_append, List.length_singleton] at this
    rw [this]; simp [pairOf]
  have hm6 := hm5.write (n := np.erasePair (l.length + 1)) (c := ⟨p, up.parent, false,
    (l ++ (ka, Tree.mk a.page (a.items ++ b.items)) :: r).map (pairOf childRid (h + 1))⟩) rfl ⟨hppar,
    hpleaf, herase⟩
  have hmF : Mem (ih3.releaseNodeHandle.writeNode p (np.erasePair (l.length + 1)))
      (zrecs childRid up (Tree.mk p (l ++ (ka, Tree.mk a.page (a.items ++ b.items)) :: r))) := by
    refine (hm6.sublist ((List.sublist_cons_self _ _).cons_cons _)).perm ?_
    rw [← Multiset.coe_eq_coe]
    simp only [zrecs, Tree.recs, Tree.pairs, Tree.page_mk, Tree.items_mk, kidRecs_append,
      kidRecs_cons, List.map_append, List.append_nil, List.append_assoc, List.cons_append,
      ← Multiset.coe_add, ← Multiset.cons_coe, ← Multiset.singleton_add]
    rw [show ((h + 1 == 0) = false) from rfl]
    abel
  have hqF : Quiet ih3 (ih3.releaseNodeHandle.writeNode p (np.erasePair (l.length + 1))) := by
    have hl : Local ih3.releaseNodeHandle (ih3.releaseNodeHandle.writeNode p (np.erasePair (l.length + 1))) :=
      local_write hnp rfl rfl
    exact ⟨rfl, rfl, rfl, le_rfl, fun q _ => hl.link q⟩
  refine ⟨ih3.releaseNodeHandle.writeNode p (np.erasePair (l.length + 1)),
    ⟨⟨?_, ?_, hmF, ?_, ?_, ?_⟩, ?_⟩, hord3, ?_⟩
  · exact hord3 ▸ hs.order
  · exact hroot3.trans hs.root
  · refine Sorted.sublist hs.sorted ?_
    simp only [zflat, Tree.items_mk, flat_append, flat_cons, List.append_assoc, List.cons_append]
    exact (List.Sublist.refl _).append ((List.Sublist.refl _).append
      (((List.Sublist.refl _).append (List.sublist_cons_self _ _)).cons_cons _))
  · exact hord3 ▸ hs.upSized
  · intro e he
    change Sized ih3.fileHdr.btreeOrder (h + 1) e
    rw [hord3]
    rw [Tree.items_mk, List.mem_append, List.mem_cons] at he
    rcases he with he | rfl | he
    · exact hs.lSized e he
    · refine ⟨by simpa using hlo, by simpa using hhi, ?_⟩
      intro i hi
      rcases List.mem_append.1 hi with hi | hi
      · exact hs.aKids i hi
      · exact hs.bKids i hi
    · exact hs.rSized e he
  · exact hch3.quiet hqF hmF.leaves_lt
  · intro again
    have hsize : nb.getSize = b.items.length := by rw [IxNode.getSize, hbpairs, Tree.pairs, List.length_map]
    have hasize : na.getSize = (a.pairs childRid).length := by rw [IxNode.getSize, hapairs]
    have hpsize : (np.erasePair (l.length + 1)).getSize = l.length + 1 + r.length := by
      rw [IxNode.getSize, herase]; simp; omega
    have hbound : l.length + 1 < np.getSize := by rw [IxNode.getSize, hppairs]; simp
    rw [coalesce, if_neg (Nat.succ_ne_zero _)]
    simp only [fetchNode_eq hna, fetchNode_eq hnb, ok_bind]
    rw [← hasize, ← hsize] at hrun2
    rw [hrun2, ok_bind]
    simp only [hbleaf, hrun3, ok_bind]
    have hnp' : ih3.releaseNodeHandle.pages p = some np := hnp
    simp only [fetchNode_eq hnp', ok_bind, if_pos hbound, hpsize]
    change (if l.length + 1 + r.length < ih3.fileHdr.btreeOrder / 2 then _ else _) = _
    rw [hord3]
    rfl

omit [LinearOrder K] [IxKey K] in
theorem local_write3 {q1 q2 q3 : Int} {m1 m2 m3 x y z : IxNode K} (h1 : ih.pages q1 = some m1)
    (h2 : ih.pages q2 = some m2) (h3 : ih.pages q3 = some m3) (h21 : q2 ≠ q1) (h31 : q3 ≠ q1) (h32 : q3 ≠ q2)
    (hl1 : x.prevLeaf = m1.prevLeaf ∧ x.nextLeaf = m1.nextLeaf)
    (hl2 : y.prevLeaf = m2.prevLeaf ∧ y.nextLeaf = m2.nextLeaf)
    (hl3 : z.prevLeaf = m3.prevLeaf ∧ z.nextLeaf = m3.nextLeaf) :
    Local ih (((ih.writeNode q1 x).writeNode q2 y).writeNode q3 z) :=
  ((local_write h1 hl1.1 hl1.2).trans
    (local_write (by rw [writeNode_ne h21]; exact h2) hl2.1 hl2.2)).trans
    (local_write (by rw [writeNode_ne h32, writeNode_ne h31]; exact h3) hl3.1 hl3.2)

omit [IxKey K] in
theorem recut (hs : Siblings ih up p l ka a kb b r) (hloc : Local ih ih') {x y : List (K × Item K Rid h)}
    {e : K × Item K Rid h} (hit : x ++ e :: y = a.items ++ b.items)
    (hm : Mem ih' (zrecs childRid up
      (Tree.mk p (l ++ (ka, Tree.mk a.page x) :: (e.1, Tree.mk b.page (e :: y)) :: r))))
    (hx : ih.fileHdr.btreeOrder / 2 ≤ x.length ∧ x.length < ih.fileHdr.btreeOrder)
    (hy : ih.fileHdr.btreeOrder / 2 ≤ y.length + 1 ∧ y.length + 1 < ih.fileHdr.btreeOrder) :
    Zip ih' up (Tree.mk p (l ++ (ka, Tree.mk a.page x) :: (e.1, Tree.mk b.page (e :: y)) :: r)) := by
  have hkids : ∀ i ∈ x ++ e :: y, Sized ih.fileHdr.btreeOrder h i := by
    rw [hit]
    intro i hi
    rcases List.mem_append.1 hi with hi | hi
    · exact hs.aKids i hi
    · exact hs.bKids i hi
  refine ⟨⟨by rw [hloc.hdr]; exact hs.order, by rw [hloc.hdr]; exact hs.root, hm, ?_,
    by rw [hloc.hdr]; exact hs.upSized, ?_⟩, ?_⟩
  · obtain ⟨w, tl, hw, hk⟩ := flat_head e y
    have hdrop : Sorted ((up.left ++ flat l ++ .sep ka :: flat x) ++ w :: (tl ++ (flat r ++ up.right))) := by
      refine Sorted.sublist hs.sorted ?_
      have hfl : flat x ++ w :: tl = flat a.items ++ flat b.items := by
        rw [← hw, ← flat_append, ← flat_append, hit]
      simp only [zflat, Tree.items_mk, flat_append, flat_cons, List.append_assoc, List.cons_append]
      refine (List.Sublist.refl _).append ((List.Sublist.refl _).append (List.Sublist.cons_cons _ ?_))
      have : flat x ++ (w :: (tl ++ (flat r ++ up.right))) =
          flat a.items ++ (flat b.items ++ (flat r ++ up.right)) := by
        rw [← List.append_assoc (flat a.items), ← hfl]; simp
      rw [this]
      exact (List.Sublist.refl _).append (List.sublist_cons_self _ _)
    have hc := hdrop.copy
    rw [hk] at hc
    simpa [zflat, hw] using hc
  · intro i hi
    rw [hloc.hdr]
    rw [Tree.items_mk, List.mem_append, List.mem_cons, List.mem_cons] at hi
    rcases hi with hi | rfl | rfl | hi
    · exact hs.lSized i hi
    · exact ⟨hx.1, hx.2, fun i hi => hkids i (List.mem_append_left _ hi)⟩
    · exact ⟨hy.1, hy.2, fun i hi => hkids i (List.mem_append_right _ hi)⟩
    · exact hs.rSized i hi
  · have hle : zleaves up (Tree.mk p (l ++ (ka, Tree.mk a.page x) :: (e.1, Tree.mk b.page (e :: y)) :: r)) =
        zleaves up (Tree.mk p (l ++ (ka, a) :: (kb, b) :: r)) := by
      cases h with
      | zero => simp [zleaves]
      | succ h =>
          have : kidLeaves x ++ kidLeaves (e :: y) = kidLeaves a.items ++ kidLeaves b.items := by
            rw [← kidLeaves_append, hit, kidLeaves_append]
          simp only [zleaves, leaves_succ, Tree.items_mk, kidLeaves_append, kidLeaves_cons (h := h + 1),
            List.append_assoc]
          rw [← List.append_assoc (kidLeaves x), this, List.append_assoc]
    rw [hle]
    exact hs.chain.quiet hloc.quiet hs.mem.leaves_lt

/-- `redistribute` with the right sibling, when the short node is the first child. -/
theorem borrow_right (hs : Siblings ih up p [] ka a kb b r) {e f : K × Item K Rid h}
    {y : List (K × Item K Rid h)} (hb : b.items = e :: f :: y)
    (ha : ih.fileHdr.btreeOrder / 2 ≤ a.items.length + 1 ∧ a.items.length + 1 < ih.fileHdr.btreeOrder)
    (hy : ih.fileHdr.btreeOrder / 2 ≤ y.length + 1 ∧ y.length + 1 < ih.fileHdr.btreeOrder) :
    ∃ ih', ih.redistribute b.page a.page p 0 = .ok ih' ∧ Local ih ih' ∧
      Zip ih' up
        (Tree.mk p ((ka, Tree.mk a.page (a.items ++ [e])) :: (f.1, Tree.mk b.page (f :: y)) :: r)) := by
  have hm := hs.front
  obtain ⟨na, hna, hapar, haleaf, hapairs⟩ := hm.get
  obtain ⟨nb, hnb, hbpar, hbleaf, hbpairs⟩ :=
    hm.get_of_mem (r := ⟨b.page, p, h == 0, b.pairs childRid⟩) (by simp)
  obtain ⟨np, hnp, hppar, hpleaf, hppairs⟩ := hm.get_of_mem
    (r := ⟨p, up.parent, false, ([] ++ (ka, a) :: (kb, b) :: r).map (pairOf childRid (h + 1))⟩) (by simp)
  have hbsplit : nb.pairs = [] ++ pairOf childRid h e :: (f :: y).map (pairOf childRid h) := by
    rw [hbpairs, Tree.pairs, hb]; rfl
  have hslot : nb.slot 0 = pairOf childRid h e := IxNode.slot_split hbsplit
  have hnb' : (nb.erasePair 0).pairs = (f :: y).map (pairOf childRid h) := IxNode.erasePair_split hbsplit
  have hkey : (nb.erasePair 0).getKey 0 = f.1 := by
    rw [IxNode.getKey_zero (e := pairOf childRid h f) (by rw [hnb', List.map_cons]), pairOf_fst]
  have hna' : (na.insertPairs na.getSize [nb.slot 0]).pairs =
      a.pairs childRid ++ [e].map (pairOf childRid h) ++ [] := by
    have := IxNode.insertPairs_split (n := na) (A := na.pairs) (B := []) (by simp) [nb.slot 0]
    rw [IxNode.getSize, this, hapairs, hslot]
    rfl
  have hnp' : (np.setKey 1 f.1).pairs = ((ka, a) :: (f.1, b) :: r).map (pairOf childRid (h + 1)) := by
    have hsplit : np.pairs = [(ka, childRid a.page)] ++ (kb, childRid b.page) :: r.map
        (pairOf childRid (h + 1)) := by
      rw [hppairs]; rfl
    exact IxNode.setKey_split hsplit f.1
  have hab : b.page ≠ a.page := hm.ne_head ⟨b.page, p, h == 0, b.pairs childRid⟩ (by simp)
  have hpa : p ≠ a.page := hm.ne_head
    ⟨p, up.parent, false, ([] ++ (ka, a) :: (kb, b) :: r).map (pairOf childRid (h + 1))⟩ (by simp)
  have hpb : p ≠ b.page := (hm.sublist (List.sublist_cons_self _ _)).ne_head
    ⟨p, up.parent, false, ([] ++ (ka, a) :: (kb, b) :: r).map (pairOf childRid (h + 1))⟩ (by simp)
  have hm1 :=
    hm.write3 (x := na.insertPairs na.getSize [nb.slot 0]) (y := nb.erasePair 0) (z := np.setKey 1 f.1)
    (u := ⟨a.page, p, h == 0, a.pairs childRid ++ [e].map (pairOf childRid h) ++ []⟩)
    (v := ⟨b.page, p, h == 0, (f :: y).map (pairOf childRid h)⟩)
    (w := ⟨p, up.parent, false, ((ka, a) :: (f.1, b) :: r).map (pairOf childRid (h + 1))⟩) rfl rfl rfl
    ⟨hapar, haleaf, hna'⟩ ⟨hbpar, hbleaf, hnb'⟩ ⟨hppar, hpleaf, hnp'⟩
  have hloc1 := local_write3 (x := na.insertPairs na.getSize [nb.slot 0]) (y := nb.erasePair 0)
    (z := np.setKey 1 f.1) hna hnb hnp hab hpa hpb ⟨rfl, rfl⟩ ⟨rfl, rfl⟩ ⟨rfl, rfl⟩
  obtain ⟨ih2, hrun2, hloc2, hm2⟩ := maintainKids_spec (a.pairs childRid) [] [e] (q := b.page)
    (v := ⟨b.page, p, h == 0, (f :: y).map (pairOf childRid h)⟩ ::
      ⟨p, up.parent, false, ((ka, a) :: (f.1, b) :: r).map (pairOf childRid (h + 1))⟩ ::
      (kidRecs childRid a.page a.items ++ kidRecs childRid b.page (f :: y) ++
        (kidRecs childRid p r ++ up.recs childRid p)))
    (hm1.perm (by
      rw [hb, show e :: f :: y = [e] ++ (f :: y) from rfl, kidRecs_append, ← Multiset.coe_eq_coe]
      simp only [kidRecs_nil, List.nil_append, List.append_assoc, ← Multiset.coe_add, ← Multiset.cons_coe,
        ← Multiset.singleton_add]
      abel))
  refine ⟨ih2, ?_, hloc1.trans hloc2, ?_⟩
  · rw [redistribute, fetchNode_eq hnb, ok_bind, fetchNode_eq hna, ok_bind, fetchNode_eq hnp,
      ok_bind, if_pos rfl]
    simp only [hkey]
    rw [List.length_singleton, maintainChildren_one] at hrun2
    have hidx : (na.insertPairs na.getSize [nb.slot 0]).getSize - 1 = (a.pairs childRid).length := by
      rw [IxNode.getSize, hna']; simp
    rw [hidx]
    exact hrun2
  · refine hs.recut (hloc1.trans hloc2) (by rw [hb]; simp) (hm2.perm ?_) (by simpa using ha) hy
    rw [← Multiset.coe_eq_coe]
    simp only [zrecs, Tree.recs, Tree.pairs, Tree.page_mk, Tree.items_mk, kidRecs_append,
      kidRecs_cons, List.map_append, List.map_cons, List.map_nil, pairOf_succ, List.nil_append,
      List.append_nil, List.append_assoc, List.cons_append,
      ← Multiset.coe_add, ← Multiset.cons_coe, ← Multiset.singleton_add]
    rw [show ((h + 1 == 0) = false) from rfl]
    abel

theorem borrow_left (hs : Siblings ih up p l ka a kb b r) {e : K × Item K Rid h} {x : List (K × Item K Rid h)}
    (ha : a.items = x ++ [e])
    (hx : ih.fileHdr.btreeOrder / 2 ≤ x.length ∧ x.length < ih.fileHdr.btreeOrder)
    (hb : ih.fileHdr.btreeOrder / 2 ≤ b.items.length + 1 ∧ b.items.length + 1 < ih.fileHdr.btreeOrder) :
    ∃ ih', ih.redistribute a.page b.page p (l.length + 1) = .ok ih' ∧ Local ih ih' ∧
      Zip ih' up (Tree.mk p (l ++ (ka, Tree.mk a.page x) :: (e.1, Tree.mk b.page (e :: b.items)) :: r)) := by
  have hm := hs.front
  obtain ⟨na, hna, hapar, haleaf, hapairs⟩ := hm.get
  obtain ⟨nb, hnb, hbpar, hbleaf, hbpairs⟩ :=
    hm.get_of_mem (r := ⟨b.page, p, h == 0, b.pairs childRid⟩) (by simp)
  obtain ⟨np, hnp, hppar, hpleaf, hppairs⟩ := hm.get_of_mem
    (r := ⟨p, up.parent, false, (l ++ (ka, a) :: (kb, b) :: r).map (pairOf childRid (h + 1))⟩) (by simp)
  have hasplit : na.pairs = x.map (pairOf childRid h) ++ pairOf childRid h e :: [] := by
    rw [hapairs, Tree.pairs, ha, List.map_append]; rfl
  have hasize : na.getSize - 1 = (x.map (pairOf childRid h)).length := by
    rw [IxNode.getSize, hasplit]; simp
  have hslot : na.slot (na.getSize - 1) = pairOf childRid h e :=
    by rw [hasize]; exact IxNode.slot_split hasplit
  have hna' : (na.erasePair (na.getSize - 1)).pairs = x.map (pairOf childRid h) := by
    rw [hasize, IxNode.erasePair_split hasplit, List.append_nil]
  have hnb' : (nb.insertPairs 0 [na.slot (na.getSize - 1)]).pairs =
      [] ++ [e].map (pairOf childRid h) ++ b.pairs childRid := by
    have := IxNode.insertPairs_split (n := nb) (A := []) (B := nb.pairs) rfl [na.slot (na.getSize - 1)]
    rw [List.length_nil] at this
    rw [this, hbpairs, hslot]
    rfl
  have hkey : (nb.insertPairs 0 [na.slot (na.getSize - 1)]).getKey 0 = e.1 := by
    rw [IxNode.getKey_zero (e := pairOf childRid h e) (B := b.pairs childRid) (by rw [hnb']; rfl), pairOf_fst]
  have hnp' : (np.setKey (l.length + 1) e.1).pairs =
      (l ++ (ka, a) :: (e.1, b) :: r).map (pairOf childRid (h + 1)) := by
    have hsplit : np.pairs = (l ++ [(ka, a)]).map (pairOf childRid (h + 1)) ++ (kb, childRid b.page) ::
        r.map (pairOf childRid (h + 1)) := by rw [hppairs]; simp [pairOf]
    have := IxNode.setKey_split hsplit e.1
    rw [List.length_map, List.length_append, List.length_singleton] at this
    rw [this]; simp [pairOf]
  have hab : b.page ≠ a.page := hm.ne_head ⟨b.page, p, h == 0, b.pairs childRid⟩ (by simp)
  have hpa : p ≠ a.page := hm.ne_head
    ⟨p, up.parent, false, (l ++ (ka, a) :: (kb, b) :: r).map (pairOf childRid (h + 1))⟩ (by simp)
  have hpb : p ≠ b.page := (hm.sublist (List.sublist_cons_self _ _)).ne_head
    ⟨p, up.parent, false, (l ++ (ka, a) :: (kb, b) :: r).map (pairOf childRid (h + 1))⟩ (by simp)
  have hm1 := (hm.perm (List.Perm.swap _ _ _)).write3 (x := nb.insertPairs 0 [na.slot (na.getSize - 1)])
    (y := na.erasePair (na.getSize - 1)) (z := np.setKey (l.length + 1) e.1)
    (u := ⟨b.page, p, h == 0, [] ++ [e].map (pairOf childRid h) ++ b.pairs childRid⟩)
    (v := ⟨a.page, p, h == 0, x.map (pairOf childRid h)⟩)
    (w := ⟨p, up.parent, false, (l ++ (ka, a) :: (e.1, b) :: r).map (pairOf childRid (h + 1))⟩) rfl rfl rfl
    ⟨hbpar, hbleaf, hnb'⟩ ⟨hapar, haleaf, hna'⟩ ⟨hppar, hpleaf, hnp'⟩
  have hloc1 := local_write3 (x := nb.insertPairs 0 [na.slot (na.getSize - 1)])
    (y := na.erasePair (na.getSize - 1)) (z := np.setKey (l.length + 1) e.1) hnb hna hnp hab.symm hpb hpa
    ⟨rfl, rfl⟩ ⟨rfl, rfl⟩ ⟨rfl, rfl⟩
  obtain ⟨ih2, hrun2, hloc2, hm2⟩ := maintainKids_spec [] (b.pairs childRid) [e] (q := a.page)
    (v := ⟨a.page, p, h == 0, x.map (pairOf childRid h)⟩ ::
      ⟨p, up.parent, false, (l ++ (ka, a) :: (e.1, b) :: r).map (pairOf childRid (h + 1))⟩ ::
      (kidRecs childRid a.page x ++ kidRecs childRid b.page b.items ++
        (kidRecs childRid p l ++ kidRecs childRid p r ++ up.recs childRid p)))
    (hm1.perm (by
      rw [ha, kidRecs_append, ← Multiset.coe_eq_coe]
      simp only [List.append_assoc, ← Multiset.coe_add, ← Multiset.cons_coe, ← Multiset.singleton_add]
      abel))
  refine ⟨ih2, ?_, hloc1.trans hloc2, ?_⟩
  · rw [redistribute, fetchNode_eq hna, ok_bind, fetchNode_eq hnb, ok_bind, fetchNode_eq hnp, ok_bind,
      if_neg (Nat.succ_ne_zero _)]
    simp only [hkey]
    rw [List.length_singleton, maintainChildren_one] at hrun2
    exact hrun2
  · refine hs.recut (hloc1.trans hloc2) (by rw [ha]; simp) (hm2.perm ?_) hx (by simpa using hb)
    have hkids : kidRecs childRid b.page (e :: b.items) =
        kidRecs childRid b.page [e] ++ kidRecs childRid b.page b.items :=
      kidRecs_append childRid b.page [e] b.items
    rw [← Multiset.coe_eq_coe]
    simp only [hkids, zrecs, Tree.recs, Tree.pairs, Tree.page_mk, Tree.items_mk, kidRecs_append,
      kidRecs_cons, List.map_append, List.map_cons, List.map_nil, pairOf_succ, List.nil_append,
      List.append_assoc, List.cons_append,
      ← Multiset.coe_add, ← Multiset.cons_coe, ← Multiset.singleton_add]
    rw [show ((h + 1 == 0) = false) from rfl]
    abel

end Siblings

end Siblings

section Rebalance

variable [LinearOrder K] [IxKey K]

/-- `adjust_root` on a root that still has an entry: an internal root with one child left
hands over to that child. -/
theorem adjustRoot_spec {t : Tree K Rid h} (hz : Zip ih .top t) (hne : t.items ≠ [])
    (hhi : t.items.length < ih.fileHdr.btreeOrder) :
    ∃ b ih', ih.adjustRoot t.page = .ok (b, ih') ∧
      ValidIf ih' (ents t.items) (Mended ih.fileHdr.btreeOrder .top t) := by
  have hord := hz.order
  have hzents : zents .top t = ents t.items := by simp [zents, Ctx.leftEnts, Ctx.rightEnts]
  obtain ⟨n, hn, hpar, hleaf, hpairs⟩ := hz.mem.hole
  have hsize : n.getSize = t.items.length := by rw [IxNode.getSize, hpairs, Tree.pairs, List.length_map]
  have hpos : t.items.length ≠ 0 := fun hc => hne (List.length_eq_zero_iff.1 hc)
  cases h with
  | zero =>
      have hexact : Mended ih.fileHdr.btreeOrder .top t →
        ZExact .top t := fun _ => zexact_top.2 fun _ _ => trivial
      refine ⟨false, ih, ?_, hzents ▸ (hz.finish ⟨Or.inl rfl, hhi⟩).imp hexact⟩
      rw [adjustRoot, fetchNode_eq hn, ok_bind, if_pos (by rw [hleaf]; rfl),
        if_neg (by rw [hsize]; exact hpos)]
      rfl
  | succ h =>
      by_cases hone : t.items.length = 1
      · obtain ⟨⟨k, c⟩, hc⟩ := List.length_eq_one_iff.1 hone
        have hval : n.valueAt 0 = Tree.page c := by
          have hsplit : n.pairs = [] ++ (k, childRid (Tree.page c)) :: [] :=
            by rw [hpairs, Tree.pairs, hc]; rfl
          exact IxNode.valueAt_split hsplit
        have hm := hz.mem
        simp only [zrecs, Tree.recs, Ctx.recs, hc, kidRecs_cons, kidRecs_nil, List.append_nil] at hm
        have hmc : Mem ih (Tree.recs childRid t.page c ++ []) := by
          rw [List.append_nil]
          exact hm.sublist (List.sublist_cons_self _ _)
        obtain ⟨m, hmc', -⟩ : ∃ m, ih.pages (Tree.page c) = some m ∧ _ :=
          hmc.get_of_mem (r := ⟨Tree.page c, t.page, h == 0, Tree.pairs childRid c⟩) (by simp [Tree.recs])
        obtain ⟨hclo, hchi, hckids⟩ := hz.kids (k, c) (by simp [hc])
        have hm1 := (hmc.reparent (p := -1) hmc').hdr
          { ih.fileHdr with rootPage := Tree.page c }
        have hq : Quiet ih { ih.writeNode (Tree.page c) { m with parent := -1 } with
            fileHdr := { ih.fileHdr with rootPage := Tree.page c } } := by
          have hl := local_write (m := { m with parent := -1 }) hmc' rfl rfl
          exact ⟨rfl, rfl, rfl, le_rfl, fun q _ => hl.link q⟩
        have hle : zleaves .top t = zleaves .top c := by
          simp [zleaves, Ctx.leftLeaves, Ctx.rightLeaves, hc]
        refine ⟨true, { ih.writeNode (Tree.page c) { m with parent := -1 } with
            fileHdr := { ih.fileHdr with rootPage := Tree.page c } }, ?_, ?_⟩
        · rw [adjustRoot, fetchNode_eq hn, ok_bind, if_neg (by rw [hleaf]; simp),
            if_pos (by rw [hsize]; exact hone), hval]
          simp only [fetchNode_eq hmc', ok_bind]
          rfl
        · refine ⟨h, c, ⟨⟨hz.order, rfl, hm1, ?_, trivial, hckids⟩, ?_⟩, ⟨Or.inr ?_, hchi⟩, ?_, ?_⟩
          · refine Sorted.sublist hz.sorted ?_
            simp [zflat, Ctx.left, Ctx.right, hc]
          · rw [← hle]
            exact hz.chain.quiet hq hz.mem.leaves_lt
          · simp only at hclo
            omega
          · simp [hc]
          · rintro (hx | ⟨-, e, he, hbelow⟩ | ⟨-, -, hmends⟩)
            · exact (hx.1 (k, c) (by simp [hc])).2
            · obtain rfl : (k, c) = e := by simpa [hc] using he
              exact hbelow
            · exact hmends.elim
      · have hexact : Mended ih.fileHdr.btreeOrder .top t → ZExact .top t := by
          rintro (hx | ⟨-, e, he, -⟩ | ⟨-, -, hmends⟩)
          · exact hx
          · exact absurd (by rw [he, List.length_singleton]) hone
          · exact hmends.elim
        refine ⟨false, ih, ?_, hzents ▸ (hz.finish ⟨Or.inr (by omega), hhi⟩).imp hexact⟩
        rw [adjustRoot, fetchNode_eq hn, ok_bind, if_neg (by rw [hleaf]; simp),
          if_neg (by rw [hsize]; exact hone)]
        rfl

omit [LinearOrder K] in
theorem coalesce_swap (again : IxIndexHandle K → Int → Ix (Bool × IxIndexHandle K)) (a b p : Int) :
    coalesce again ih b a p 0 = coalesce again ih a b p 1 := rfl

/-- `coalesce_or_redistribute` repairs a node that is one item short, and goes up as long
as merging leaves the parent short. -/
theorem coalesceOrRedistribute_spec (ctx : Ctx K Rid h) (t : Tree K Rid h) (hz : Zip ih ctx t)
    (hne : t.items ≠ []) (hlow : ctx.Low ih.fileHdr.btreeOrder (t.items.length + 1))
    (hhi : t.items.length < ih.fileHdr.btreeOrder) (fuel : Nat) (hf : ctx.depth < fuel) :
    ∃ b ih', coalesceOrRedistribute fuel ih t.page = .ok (b, ih') ∧
      ValidIf ih' (zents ctx t) (Mended ih.fileHdr.btreeOrder ctx t) := by
  induction ctx generalizing ih fuel with
  | top =>
      obtain ⟨fuel, rfl⟩ : ∃ f, fuel = f + 1 := ⟨fuel - 1, by omega⟩
      obtain ⟨n, hn, hpar, -, -⟩ := hz.mem.hole
      obtain ⟨b, ih', hrun, hv⟩ := adjustRoot_spec hz hne hhi
      refine ⟨b, ih', ?_, by simpa [zents, Ctx.leftEnts, Ctx.rightEnts] using hv⟩
      rw [coalesceOrRedistribute, fetchNode_eq hn, ok_bind, if_pos (by simp [IxNode.isRootPage, hpar]), hrun]
  | frame p l k r up ihc =>
      obtain ⟨fuel, rfl⟩ : ∃ f, fuel = f + 1 := ⟨fuel - 1, by omega⟩
      have hord := hz.order
      obtain ⟨n, hn, hpar, -, hpairs⟩ := hz.mem.hole
      obtain ⟨m, hm, -, -, hmpairs⟩ := hz.mem.above
      rw [Ctx.parent_frame] at hpar
      have hp : p ≠ -1 := by have := hz.mem.above_range; omega
      have hsize : n.getSize = t.items.length := by rw [IxNode.getSize, hpairs, Tree.pairs, List.length_map]
      have hrank := hz.mem.findChild_gap hmpairs
      obtain ⟨hls, hrs, hplow, hplt, -⟩ := hz.ctxSized
      rw [coalesceOrRedistribute, fetchNode_eq hn, ok_bind,
        if_neg (by simp [IxNode.isRootPage, hpar, hp]), hsize]
      by_cases hok : ih.fileHdr.btreeOrder / 2 ≤ t.items.length
      · rw [if_pos hok]
        exact ⟨false, ih, rfl, (hz.finish ⟨hok, hhi⟩).imp fun hm => hm.exact hord hok⟩
      rw [if_neg hok, hpar, fetchNode_eq hm, ok_bind, hrank, ok_bind]
      -- merging takes one child from the parent, which may need repair in turn
      have hup : ∀ (ih' : IxIndexHandle K) (T : Tree K Rid _), Zip ih' up T → T.page = p →
          ih'.fileHdr.btreeOrder = ih.fileHdr.btreeOrder →
          T.items.length = l.length + r.length → T.items ≠ [] →
          ∃ b ih2, (if l.length + r.length < ih.fileHdr.btreeOrder / 2 then coalesceOrRedistribute fuel ih' p
            else .ok (false, ih')) = .ok (b, ih2) ∧
              ValidIf ih2 (zents up T) (Mended ih.fileHdr.btreeOrder up T) := by
        intro ih' T hT hpage ho hlen hTne
        by_cases hc : l.length + r.length < ih.fileHdr.btreeOrder / 2
        · rw [if_pos hc, ← hpage, ← ho]
          refine ihc T hT hTne ?_ (by omega) fuel (by simp only [Ctx.depth] at hf; omega)
          rw [ho, hlen, show l.length + r.length + 1 = l.length + 1 + r.length by omega]
          exact hplow
        · rw [if_neg hc]
          refine ⟨false, ih', rfl, (hT.finish ⟨?_, by omega⟩).imp fun hm => hm.exact hord (by omega)⟩
          rw [ho, hlen]
          cases up with
          | top => exact Or.inr (by omega)
          | frame => exact Nat.le_of_not_lt hc
      rcases List.eq_nil_or_concat l with rfl | ⟨l, ⟨ka, a⟩, rfl⟩
      · -- the node is the first child and turns to its right sibling
        obtain ⟨⟨kb, b⟩, r, rfl⟩ : ∃ x r', r = x :: r' := by
          cases r with
          | nil =>
              exfalso
              cases up <;> simp [Ctx.Low] at hplow
              omega
          | cons x r' => exact ⟨x, r', rfl⟩
        obtain ⟨hblo, hbhi, -⟩ : Tree.Sized ih.fileHdr.btreeOrder b := hrs (kb, b) (by simp)
        have hval : m.valueAt 1 = Tree.page b := by
          have hsplit : m.pairs = [(k, childRid t.page)] ++ (kb, childRid (Tree.page b)) ::
              r.map (pairOf childRid _) := by rw [hmpairs]; rfl
          exact IxNode.valueAt_split hsplit
        have hs := hz.right_sibling
        obtain ⟨nb, hnb, hbsize⟩ := hs.b_node
        simp only [List.length_nil, if_true, hval, fetchNode_eq hnb, ok_bind, hbsize]
        by_cases hred : ih.fileHdr.btreeOrder ≤ t.items.length + b.items.length
        · rw [if_pos hred]
          obtain ⟨e, f, y, hb⟩ : ∃ e f y, b.items = e :: f :: y := by
            have hlen : 2 ≤ b.items.length := by omega
            rcases hbi : b.items with _ | ⟨e, _ | ⟨f, y⟩⟩
            · simp [hbi] at hlen
            · simp [hbi] at hlen
            · exact ⟨e, f, y, rfl⟩
          have hblen : b.items.length = y.length + 2 := by rw [hb]; rfl
          obtain ⟨ih1, hrun1, hloc1, hz1⟩ := hs.borrow_right hb ⟨hlow, by omega⟩ ⟨by omega, by omega⟩
          refine ⟨false, ih1, by rw [hrun1]; rfl, ?_⟩
          have hexact : Mended ih.fileHdr.btreeOrder (.frame p [] k ((kb, b) :: r) up) t → ZExact up
              (Tree.mk p ((k, Tree.mk t.page (t.items ++ [e])) :: (f.1, Tree.mk b.page (f :: y)) ::
                r)) := fun hm => by
            rcases hm.first with hx | ⟨-, -, c, hc, -, hlt⟩
            · exact exact_borrow_right hx hne hb
            · cases hc
              exact absurd hlt (not_lt.2 hred)
          have hv := hz1.finish ⟨?_, ?_⟩
          · have he : ents b.items = ents [e] ++ ents (f :: y) := by rw [hb]; exact ents_append [e] (f :: y)
            simpa [zents, Ctx.leftEnts, Ctx.rightEnts, he] using hv.imp hexact
          · rw [hloc1.hdr]
            exact hplow.mono (by simp; omega)
          · rw [hloc1.hdr]
            simp at hplt ⊢
            omega
        · rw [if_neg hred]
          obtain ⟨ih1, hz1, ho1, hrun1⟩ := hs.coalesce_spec (by omega) (by omega)
          obtain ⟨c, ih2, hrun2, hv2⟩ := hup ih1 _ hz1 rfl ho1 (by simp) (by simp)
          have hexact : Mended ih.fileHdr.btreeOrder (.frame p [] k ((kb, b) :: r) up) t →
            Mended ih.fileHdr.btreeOrder up
              (Tree.mk p ([] ++ (k, Tree.mk t.page (t.items ++ b.items)) :: r)) := fun hm => by
            rcases hm.first with hx | ⟨ht, htop, c, hc, hcx, -⟩
            · exact .inl (exact_merge_right hx hne)
            · cases hc
              exact .inr (.inl ⟨htop, _, rfl, exact_append ht hcx.2⟩)
          refine ⟨c, ih2, ?_, ?_⟩
          · rw [coalesce_swap, ← hrun2]
            simpa [Nat.add_comm] using hrun1 (coalesceOrRedistribute fuel)
          · simpa [zents, Ctx.leftEnts, Ctx.rightEnts] using hv2.imp hexact
      · -- every other child turns to its left sibling
        obtain ⟨halo, hahi, -⟩ : Tree.Sized ih.fileHdr.btreeOrder a := hls (ka, a) (by simp)
        rw [List.concat_eq_append] at *
        have hval : m.valueAt l.length = Tree.page a := by
          have hsplit : m.pairs = l.map (pairOf childRid _) ++ (ka, childRid (Tree.page a)) ::
              (k, childRid t.page) :: r.map (pairOf childRid _) := by
            rw [hmpairs, gapPairs]; simp [pairOf_succ]
          simpa using IxNode.valueAt_split hsplit
        have hs := hz.left_sibling
        obtain ⟨na, hna, hasize⟩ := hs.a_node
        simp only [List.length_append, List.length_singleton, Nat.succ_ne_zero, if_false,
          Nat.add_sub_cancel, hval, fetchNode_eq hna, ok_bind, hasize]
        by_cases hred : ih.fileHdr.btreeOrder ≤ t.items.length + a.items.length
        · rw [if_pos hred]
          obtain ⟨x, e, ha⟩ : ∃ x e, a.items = x ++ [e] := by
            rcases List.eq_nil_or_concat a.items with hnil | ⟨x, e, he⟩
            · rw [hnil] at hred; simp at hred; omega
            · exact ⟨x, e, he.trans (List.concat_eq_append ..)⟩
          have halen : a.items.length = x.length + 1 := by rw [ha]; simp
          obtain ⟨ih1, hrun1, hloc1, hz1⟩ := hs.borrow_left ha ⟨by omega, by omega⟩ ⟨hlow, by omega⟩
          refine ⟨false, ih1, by rw [hrun1]; rfl, ?_⟩
          have hx : x ≠ [] := by
            rintro rfl
            rw [List.length_nil] at halen
            omega
          have hexact : Mended ih.fileHdr.btreeOrder (.frame p (l ++ [(ka, a)]) k r up) t → ZExact up
              (Tree.mk p (l ++ (ka, Tree.mk a.page x) :: (e.1, Tree.mk t.page (e :: t.items)) ::
                r)) := fun hm => by
            obtain ⟨ht, haround⟩ := hm.around hne
            exact exact_borrow_left ht haround ha hx
          have hv := hz1.finish ⟨?_, ?_⟩
          · have he : ents (e :: t.items) = ents [e] ++ ents t.items := ents_append [e] t.items
            simpa [zents, Ctx.leftEnts, Ctx.rightEnts, ha, he] using hv.imp hexact
          · rw [hloc1.hdr]
            exact hplow.mono (by simp; omega)
          · rw [hloc1.hdr]
            simp at hplt ⊢
            omega
        · rw [if_neg hred]
          obtain ⟨ih1, hz1, ho1, hrun1⟩ := hs.coalesce_spec (by omega) (by omega)
          obtain ⟨c, ih2, hrun2, hv2⟩ := hup ih1 _ hz1 rfl ho1 (by simp; omega) (by simp)
          have hexact : Mended ih.fileHdr.btreeOrder (.frame p (l ++ [(ka, a)]) k r up) t →
            Mended ih.fileHdr.btreeOrder up
              (Tree.mk p (l ++ (ka, Tree.mk a.page (a.items ++ t.items)) :: r)) := fun hm => by
            obtain ⟨ht, haround⟩ := hm.around hne
            exact .inl (exact_merge_left ht haround)
          refine ⟨c, ih2, ?_, ?_⟩
          · rw [hrun1, ← hrun2]
            simp
          · simpa [zents, Ctx.leftEnts, Ctx.rightEnts] using hv2.imp hexact

end Rebalance

section Entry

variable [LinearOrder K] [IxKey K] [LawfulIxKey K] {ctx : Ctx K Rid 0} {t : Tree K Rid 0}

omit [IxKey K] [LawfulIxKey K] in
theorem Zip.items_ne (hz : Zip ih ctx t) (hf : Fits ih ctx t) (hne : zents ctx t ≠ []) : t.items ≠ [] := by
  intro hc
  have hord := hz.order
  cases ctx with
  | top => exact hne (by simp [zents, Ctx.leftEnts, Ctx.rightEnts, hc])
  | frame p l k r up =>
      have := hf.1
      simp only [Ctx.Low, hc, List.length_nil] at this
      omega

omit [LinearOrder K] [LawfulIxKey K] in
theorem deleteEntry_eq {k : K} {rid : Option Rid} {n : IxNode K} {ih1 ih2 : IxIndexHandle K} {b : Bool}
    (hleaf : ih.findLeafPage k = .ok t.page) (hn : ih.pages t.page = some n)
    (hfirst : (ih.writeNode t.page (n.remove k rid)).maintainFirst t.page (n.remove k rid) k = .ok ih1)
    (hco : coalesceOrRedistribute ih1.fd2pageno ih1 t.page = .ok (b, ih2)) :
    ih.deleteEntry k rid = .ok (true, ih2) := by
  rw [deleteEntry, hleaf, ok_bind, fetchNode_eq hn, ok_bind]
  simp only [hfirst, ok_bind, hco]
  rfl

/-- Removing nothing may still rewrite the separators above the first key of the leaf. -/
theorem deleteEntry_keep {k : K} {rid : Option Rid} {n : IxNode K} (hz : Zip ih ctx t) (hf : Fits ih ctx t)
    (hne : t.items ≠ []) (hleaf : ih.findLeafPage k = .ok t.page) (hn : ih.pages t.page = some n)
    (hrem : n.remove k rid = n) :
    ∃ ih', ih.deleteEntry k rid = .ok (true, ih') ∧ ValidIf ih' (zents ctx t) (ZExact ctx t) := by
  obtain ⟨e, rest, ht⟩ := List.exists_cons_of_ne_nil hne
  obtain ⟨n', hn', -, -, hpairs⟩ := hz.mem.hole
  cases hn.symm.trans hn'
  have hkey := getKey_first hpairs ht
  by_cases hk : e.1 = k
  · obtain ⟨ih1, hrun, hloc, hm⟩ := maintainParent_spec ctx t e rest ht hz.mem
    have hz1 : Zip ih1 (ctx.refit e.1) t := by
      refine ⟨⟨by rw [hloc.hdr]; exact hz.order, by rw [hloc.hdr, refit_root]; exact hz.root, hm, ?_,
        by rw [hloc.hdr, refit_sized]; exact hz.ctxSized, fun _ _ => trivial⟩, ?_⟩
      · have hsub : Sorted (ctx.kept e.1 ++ (flat t.items ++ ctx.right)) := by
          refine Sorted.sublist hz.sorted ?_
          rw [zflat, List.append_assoc]
          exact (kept_sublist _ _).append (List.Sublist.refl _)
        rw [ht, flat_zero, List.map_cons, ← flat_zero] at hsub
        have := refit_sorted ctx (.ent e.1) (flat rest) (by simpa using hsub)
        rw [zflat, ht, flat_zero, List.map_cons, ← flat_zero]
        simpa using this
      · have hle : zleaves (ctx.refit e.1) t = zleaves ctx t := by simp [zleaves]
        rw [hle]
        exact hz.chain.quiet hloc.quiet hz.mem.leaves_lt
    obtain ⟨b, ih2, hrun2, hv⟩ := coalesceOrRedistribute_spec _ t hz1 hne
      (by rw [hloc.hdr, refit_low]; exact hf.1.mono (Nat.le_succ _))
        (by rw [hloc.hdr]; exact hf.2) ih1.fd2pageno
      (by have := hz1.mem.depth_lt; omega)
    have hexact : ZExact ctx t →
      Mended ih1.fileHdr.btreeOrder (ctx.refit e.1) t := fun hx => .inl ⟨hx.1, fun c hc => by
      obtain rfl : e = c := by simpa [ht] using hc
      exact refit_exact (hx.2 e hc)⟩
    refine ⟨ih2, deleteEntry_eq hleaf hn ?_ hrun2, by simpa [zents] using hv.imp hexact⟩
    rw [hrem, writeNode_same hn, maintainFirst, if_pos (by rw [hkey, LawfulIxKey.memcmp_zero, hk])]
    exact hrun
  · obtain ⟨b, ih2, hrun2, hv⟩ :=
      coalesceOrRedistribute_spec ctx t hz hne (hf.1.mono (Nat.le_succ _)) hf.2 ih.fd2pageno
      (by have := hz.mem.depth_lt; omega)
    refine ⟨ih2, deleteEntry_eq hleaf hn ?_ hrun2, hv.imp .inl⟩
    rw [hrem, writeNode_same hn, maintainFirst, if_neg (by rw [hkey, LawfulIxKey.memcmp_zero]; exact hk)]

theorem deleteEntry_erase {k : K} {r : Rid} {rid : Option Rid} {A B : List (K × Item K Rid 0)}
    (hz : Zip ih ctx t) (hf : Fits ih ctx t) (ht : t.items = A ++ ofVal (k, r) :: B)
    (hA : ∀ e ∈ A, e.1 < k) (hB : ∀ e ∈ B, k < e.1) (hne : A ++ B ≠ [])
    (hleaf : ih.findLeafPage k = .ok t.page) (hrid : rid = none ∨ rid = some r) :
    ∃ ih', ih.deleteEntry k rid = .ok (true, ih') ∧ ValidIf ih' (zents ctx (Tree.mk t.page (A ++ B)))
      (Mended ih.fileHdr.btreeOrder ctx (Tree.mk t.page (A ++ B))) := by
  obtain ⟨n, hn, hpar, hl, hpairs⟩ := hz.mem.hole
  have hsplit : n.pairs = A.map val ++ (k, r) :: B.map val := by rw [hpairs, pairs_zero, ht]; simp
  have hrem : n.remove k rid = n.erasePair (A.map val).length := by
    rw [IxNode.remove_present hsplit, if_pos hrid]
    · intro e he
      obtain ⟨c, hc, rfl⟩ := List.mem_map.1 he
      exact hA c hc
    · intro e he
      obtain ⟨c, hc, rfl⟩ := List.mem_map.1 he
      exact hB c hc
  have hpairs' : (n.remove k rid).pairs = (A ++ B).map val := by
    rw [hrem, IxNode.erasePair_split hsplit, List.map_append]
  have hm1 :=
    hz.mem.writeLeaf (n := n.remove k rid) (A ++ B) (by rw [hrem]; exact hpar)
      (by rw [hrem]; exact hl) hpairs'
  have hloc : Local ih (ih.writeNode t.page (n.remove k rid)) :=
    local_write hn (by rw [hrem]; rfl) (by rw [hrem]; rfl)
  have hlen : t.items.length = (A ++ B).length + 1 := by rw [ht]; simp; omega
  have hz1 : Zip (ih.writeNode t.page (n.remove k rid)) ctx (Tree.mk t.page (A ++ B)) := by
    refine ⟨⟨hz.order, hz.root, hm1, ?_, hz.ctxSized, fun _ _ => trivial⟩, ?_⟩
    · refine Sorted.sublist hz.sorted ?_
      rw [zflat, zflat, ht, Tree.items_mk, flat_append, flat_append]
      refine ((List.Sublist.refl _).append ((List.Sublist.refl _).append ?_)).append (List.Sublist.refl _)
      rw [flat_zero, flat_zero, List.map_cons]
      exact List.sublist_cons_self _ _
    · exact hz.chain.quiet hloc.quiet hz.mem.leaves_lt
  obtain ⟨b, ih2, hrun2, hv⟩ := coalesceOrRedistribute_spec ctx _ hz1 hne (by
    have := hf.1
    rw [hlen] at this
    exact this) (by have := hf.2; simp only [Tree.items_mk, writeNode_fileHdr]; omega) _
    (by
      have :=
        hz1.mem.depth_lt; exact (by omega : ctx.depth < (ih.writeNode t.page (n.remove k rid)).fd2pageno))
  refine ⟨ih2, deleteEntry_eq hleaf hn ?_ hrun2, hv⟩
  obtain ⟨e, rest, he⟩ := List.exists_cons_of_ne_nil hne
  have hkey : (n.remove k rid).getKey 0 = e.1 := by
    rw [IxNode.getKey_zero (e := val e) (B := rest.map val) (by rw [hpairs', he, List.map_cons]), val_fst]
  have hek : e.1 ≠ k := by
    have : e ∈ A ++ B := by rw [he]; simp
    rcases List.mem_append.1 this with hm | hm
    · exact ne_of_lt (hA e hm)
    · exact ne_of_gt (hB e hm)
  rw [maintainFirst, if_neg (by rw [hkey, LawfulIxKey.memcmp_zero]; exact hek)]

/-- `delete_entry` removes the pair exactly when the key is there and the rid is not
another one. What it does to the last pair of an index is left out. -/
theorem deleteEntry_exact (k : K) (rid : Option Rid) {es : List (K × Rid)} {P : Prop}
    (hv : ValidIf ih es P) (hes : es ≠ []) :
    (∃ pre post, es = pre ++ post ∧ (∀ e ∈ pre, e.1 < k) ∧ (∀ e ∈ post, k < e.1) ∧
      ∃ ih', ih.deleteEntry k rid = .ok (true, ih') ∧ ValidIf ih' es P) ∨
    (∃ pre r post, es = pre ++ (k, r) :: post ∧ (∀ e ∈ pre, e.1 < k) ∧ (∀ e ∈ post, k < e.1) ∧
      ((rid = none ∨ rid = some r) → pre ++ post ≠ [] →
        ∃ (ctx : Ctx K Rid 0) (t : Tree K Rid 0) (A B : List (K × Item K Rid 0)) (ih' : IxIndexHandle K),
          ih.findLeafPage k = .ok t.page ∧ Zip ih ctx t ∧ (P → ZExact ctx t) ∧
          t.items = A ++ ofVal (k, r) :: B ∧
          ih.deleteEntry k rid = .ok (true, ih') ∧
          ValidIf ih' (pre ++ post) (Mended ih.fileHdr.btreeOrder ctx (Tree.mk t.page (A ++ B)))) ∧
      (¬ (rid = none ∨ rid = some r) → ∃ ih', ih.deleteEntry k rid = .ok (true, ih') ∧
        ValidIf ih' es P)) := by
  obtain ⟨ctx, t, hleaf, hz, hf, hp, rfl, hexact⟩ := findLeafPage_exact k hv
  have hne := hz.items_ne hf hes
  obtain ⟨n, hn, -, -, hpairs⟩ := hz.mem.hole
  obtain ⟨A, B, hA, hB, hit⟩ := leaf_split k t.items hz.toShape.items_sorted
  have hAv : ∀ e ∈ A.map val, e.1 < k := by
    intro e he
    obtain ⟨c, hc, rfl⟩ := List.mem_map.1 he
    exact hA c hc
  have hBv : ∀ e ∈ B.map val, k < e.1 := by
    intro e he
    obtain ⟨c, hc, rfl⟩ := List.mem_map.1 he
    exact hB c hc
  have hpre : ∀ e ∈ ctx.leftEnts ++ A.map val, e.1 < k := by
    intro e he
    rcases List.mem_append.1 he with he | he
    · exact leftEnts_lt hp hz.toShape.left_sorted e he
    · exact hAv e he
  have hpost : ∀ e ∈ B.map val ++ ctx.rightEnts, k < e.1 := by
    intro e he
    rcases List.mem_append.1 he with he | he
    · exact hBv e he
    · exact rightEnts_gt hp hz.toShape.right_sorted e he
  rcases hit with hit | ⟨r, hit⟩
  · left
    have hsplit : n.pairs = A.map val ++ B.map val := by rw [hpairs, pairs_zero, hit]; simp
    obtain ⟨ih', hrun, hv'⟩ := deleteEntry_keep hz hf hne hleaf hn (IxNode.remove_absent hsplit hAv hBv rid)
    refine ⟨_, _, ?_, hpre, hpost, ih', hrun, hv'.imp hexact⟩
    simp [zents, hit, ents_zero]
  · right
    have hsplit : n.pairs = A.map val ++ (k, r) :: B.map val := by rw [hpairs, pairs_zero, hit]; simp
    refine ⟨_, r, _, ?_, hpre, hpost, ?_, ?_⟩
    · simp [zents, hit, ents_zero]
    · intro hrid hrest
      have hAB : A ++ B ≠ [] := by
        intro hnil
        obtain ⟨rfl, rfl⟩ := List.append_eq_nil_iff.1 hnil
        -- a leaf with one pair is the root
        have hord := hz.order
        have hlow := hf.1
        rw [hit] at hlow
        cases ctx with
        | top => exact hrest (by simp [Ctx.leftEnts, Ctx.rightEnts])
        | frame => simp [Ctx.Low] at hlow; omega
      obtain ⟨ih', hrun, hv'⟩ := deleteEntry_erase hz hf hit hA hB hAB hleaf hrid
      exact ⟨ctx, t, A, B, ih', hleaf, hz, hexact, hit, hrun, by simpa [zents, ents_zero] using hv'⟩
    · intro hrid
      obtain ⟨ih', hrun, hv'⟩ := deleteEntry_keep hz hf hne hleaf hn
        (by rw [IxNode.remove_present hsplit hAv hBv, if_neg hrid])
      exact ⟨ih', hrun, hv'.imp hexact⟩

theorem deleteEntry_spec (k : K) (rid : Option Rid) {es : List (K × Rid)} (hv : Valid ih es) (hes : es ≠ []) :
    (∃ pre post, es = pre ++ post ∧ (∀ e ∈ pre, e.1 < k) ∧ (∀ e ∈ post, k < e.1) ∧
      ∃ ih', ih.deleteEntry k rid = .ok (true, ih') ∧ Valid ih' es) ∨
    (∃ pre r post, es = pre ++ (k, r) :: post ∧ (∀ e ∈ pre, e.1 < k) ∧ (∀ e ∈ post, k < e.1) ∧
      ((rid = none ∨ rid = some r) → pre ++ post ≠ [] →
        ∃ ih', ih.deleteEntry k rid = .ok (true, ih') ∧ Valid ih' (pre ++ post)) ∧
      (¬ (rid = none ∨ rid = some r) → ∃ ih', ih.deleteEntry k rid = .ok (true, ih') ∧ Valid ih' es)) := by
  rcases deleteEntry_exact k rid hv.validIf hes with ⟨pre, post, he, hpre, hpost, ih', hrun, hv'⟩ |
    ⟨pre, r, post, he, hpre, hpost, herase, hkeep⟩
  · exact .inl ⟨pre, post, he, hpre, hpost, ih', hrun, hv'.valid⟩
  · refine .inr ⟨pre, r, post, he, hpre, hpost, fun hrid hne => ?_, fun hrid => ?_⟩
    · obtain ⟨ctx, t, A, B, ih', -, -, -, -, hrun, hv'⟩ := herase hrid hne
      exact ⟨ih', hrun, hv'.valid⟩
    · obtain ⟨ih', hrun, hv'⟩ := hkeep hrid
      exact ⟨ih', hrun, hv'.valid⟩

end Entry

end Rmdb
