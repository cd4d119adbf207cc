import Rmdb.Index.Zip

namespace Rmdb

open BPlus SepList IxIndexHandle

variable {K : Type} {h : Nat} {ih : IxIndexHandle K} {rs : List (Rec K Rid)}

section Split

variable {t : Tree K Rid h} {u : Int}

def lower (t : Tree K Rid h) : Tree K Rid h := Tree.mk t.page (t.items.take (t.items.length / 2))

def upper (q : Int) (t : Tree K Rid h) : Tree K Rid h := Tree.mk q (t.items.drop (t.items.length / 2))

theorem ents_halves (q : Int) (t : Tree K Rid h) :
    ents (lower t).items ++ ents (upper q t).items = ents t.items := by
  rw [← ents_append]
  simp [lower, upper]

theorem zexact_halves {ctx : Ctx K Rid h} (q : Int) (ht : ZExact ctx t) :
    ZExact ctx (lower t) ∧ (upper q t).Exact := by
  refine ⟨⟨fun i hi => ht.1 i (List.mem_of_mem_take hi), fun e he => ht.2 e ?_⟩, fun i hi =>
    ht.1 i (List.mem_of_mem_drop hi)⟩
  rw [lower, Tree.items_mk, List.head?_take] at he
  split at he
  · cases he
  · exact he

theorem leaves_halves (q : Int) (t : Tree K Rid (h + 1)) :
    (lower t).leaves ++ (upper q t).leaves = t.leaves := by
  rw [leaves_succ, leaves_succ, ← kidLeaves_append]
  simp [lower, upper]

theorem split_halves (hm : Mem ih (t.recs childRid u ++ rs)) (h2 : 2 ≤ ih.fd2pageno) {n m : IxNode K}
    (hn : n.parent = u ∧ n.isLeaf = (h == 0) ∧ n.pairs = (lower t).pairs childRid)
    (hmq : m.parent = u ∧ m.isLeaf = (h == 0) ∧ m.pairs = (upper ih.fd2pageno t).pairs childRid) :
    Mem ((ih.createNode.2.writeNode ih.fd2pageno m).writeNode t.page n)
      (⟨ih.fd2pageno, u, h == 0, (upper ih.fd2pageno t).pairs childRid⟩ ::
        (kidRecs childRid t.page (upper ih.fd2pageno t).items ++ ((lower t).recs childRid u ++ rs))) := by
  have hm1 := (hm.create h2).write (c := ⟨ih.fd2pageno, u, h == 0, (upper ih.fd2pageno t).pairs childRid⟩)
    rfl hmq
  have hm2 := hm1.perm (w := ⟨t.page, u, h == 0, t.pairs childRid⟩ ::
      (⟨ih.fd2pageno, u, h == 0, (upper ih.fd2pageno t).pairs childRid⟩ ::
        (kidRecs childRid t.page t.items ++ rs))) (by
    simp only [Tree.recs, List.cons_append]
    exact List.Perm.swap _ _ _)
  have hm3 := hm2.write (c := ⟨t.page, u, h == 0, (lower t).pairs childRid⟩) rfl hn
  refine hm3.perm ?_
  have hkids : kidRecs childRid t.page t.items =
      kidRecs childRid t.page (lower t).items ++ kidRecs childRid t.page (upper ih.fd2pageno t).items := by
    rw [← kidRecs_append]
    simp [lower, upper]
  rw [hkids, ← Multiset.coe_eq_coe]
  simp only [Tree.recs, lower, Tree.page_mk, List.append_assoc, List.cons_append, ← Multiset.coe_add,
    ← Multiset.cons_coe, ← Multiset.singleton_add]
  abel

theorem createNode_ne {p : Int} (hp : p < ih.fd2pageno) : ih.createNode.2.pages p = ih.pages p := by
  simp [createNode, Function.update_of_ne (ne_of_lt hp)]

theorem createNode_eq : ih.createNode = ((ih.fd2pageno : Int), ih.createNode.2) := rfl

variable [IxKey K]

/-- `split` of an internal node moves the upper half of its children to a fresh page. -/
theorem split_internal {t : Tree K Rid (h + 1)} (hm : Mem ih (t.recs childRid u ++ rs))
    (h2 : 2 ≤ ih.fd2pageno) :
    ∃ ih', ih.split t.page = .ok ((ih.fd2pageno : Int), ih') ∧ Quiet ih ih' ∧
      ih'.fileHdr.rootPage = ih.fileHdr.rootPage ∧
      Mem ih' ((lower t).recs childRid u ++ (upper ih.fd2pageno t).recs childRid u ++ rs) := by
  obtain ⟨n, hn, hnpar, hnleaf, hnpairs⟩ := hm.get_of_mem (r := ⟨t.page, u, false, t.pairs childRid⟩)
    (by simp [Tree.recs])
  have hlt := (hm.range ⟨t.page, u, false, t.pairs childRid⟩ (by simp [Tree.recs])).2
  have hn1 : ih.createNode.2.pages t.page = some n := by rw [createNode_ne hlt]; exact hn
  have hq1 : ih.createNode.2.pages ih.fd2pageno = some ⟨0, false, 0, 0, [], []⟩ := by simp [createNode]
  let m : IxNode K := IxNode.insertPairs ⟨n.parent, n.isLeaf, 0, 0, [], []⟩ 0 (n.pairs.drop (n.getSize / 2))
  have hmpairs : m.pairs = (upper ih.fd2pageno t).pairs childRid := by
    simp [m, IxNode.insertPairs, upper, Tree.pairs, hnpairs, IxNode.getSize]
  have hmsz : m.getSize = (upper ih.fd2pageno t).items.length := by
    rw [IxNode.getSize, hmpairs, Tree.pairs, List.length_map]
  have hn2 : (ih.createNode.2.writeNode ih.fd2pageno m).pages t.page = some n := by
    rw [writeNode_ne (ne_of_lt hlt)]; exact hn1
  have hm1 := split_halves hm h2 (n := n.truncate (n.getSize / 2)) (m := m)
    ⟨hnpar, hnleaf, by simp [IxNode.truncate, lower, Tree.pairs, hnpairs, IxNode.getSize]⟩
    ⟨hnpar, hnleaf, hmpairs⟩
  obtain ⟨ih', hrun, hloc, hm2⟩ := maintainKids_spec [] [] (upper ih.fd2pageno t).items (u := u)
    (by simpa [Tree.pairs] using hm1)
  refine ⟨ih', ?_, ?_, ?_, ?_⟩
  · rw [split, createNode_eq]
    simp only [fetchNode_eq hn1, fetchNode_eq hq1, ok_bind]
    rw [if_neg (by simp [IxNode.truncate, hnleaf])]
    change (IxIndexHandle.maintainChildren _ _ 0 m.getSize >>= _) = _
    rw [hmsz]
    change (IxIndexHandle.maintainChildren _ _ 0 _ = _) at hrun
    rw [hrun]
    rfl
  · exact (quiet_create ih).trans
      (((local_write (m := m) hq1 rfl rfl).trans (local_write (m := n.truncate _) hn2 rfl rfl)).trans
        hloc).quiet
  · rw [hloc.hdr]; rfl
  · refine hm2.perm ?_
    rw [← Multiset.coe_eq_coe]
    simp only [Tree.recs, Tree.pairs, upper, Tree.page_mk, Tree.items_mk, List.nil_append, List.append_nil,
      List.append_assoc, List.cons_append,
      ← Multiset.coe_add, ← Multiset.cons_coe, ← Multiset.singleton_add]
    abel

theorem split_leaf {t : Tree K Rid 0} {A B : List Int} (hm : Mem ih (t.recs childRid u ++ rs))
    (hring : Ring.IsRing (nextOf ih) (prevOf ih) 1 (A ++ t.page :: B)) (hnd : (1 :: (A ++ t.page :: B)).Nodup)
    (hlt : ∀ p ∈ 1 :: (A ++ t.page :: B), p < ih.fd2pageno) (h2 : 2 ≤ ih.fd2pageno) :
    ∃ ih', ih.split t.page = .ok ((ih.fd2pageno : Int), ih') ∧ ih'.fileHdr = ih.createNode.2.fileHdr ∧
      ih'.fd2pageno = ih.fd2pageno + 1 ∧
      Mem ih' ((lower t).recs childRid u ++ (upper ih.fd2pageno t).recs childRid u ++ rs) ∧
      Ring.IsRing (nextOf ih') (prevOf ih') 1 (A ++ t.page :: (ih.fd2pageno : Int) :: B) := by
  obtain ⟨n, hn, hnpar, hnleaf, hnpairs⟩ := hm.get_of_mem (r := ⟨t.page, u, true, t.pairs childRid⟩)
    (by simp [Tree.recs])
  have hlp : t.page < ih.fd2pageno := hlt t.page (by simp)
  have hn1 : ih.createNode.2.pages t.page = some n := by rw [createNode_ne hlp]; exact hn
  have hq1 : ih.createNode.2.pages ih.fd2pageno = some ⟨0, false, 0, 0, [], []⟩ := by simp [createNode]
  -- the page behind `t.page`: another leaf, or the header page
  obtain ⟨x, hx, hxne, hxprev⟩ : ∃ x ∈ 1 :: (A ++ t.page :: B), x ≠ t.page ∧
      Ring.Link (nextOf ih) (prevOf ih) t.page x := by
    obtain ⟨-, h2⟩ := Ring.ring_split.1 hring
    cases B with
    | nil =>
        refine ⟨1, by simp, ?_, (List.isChain_cons_cons.1 h2).1⟩
        rintro hc
        exact (List.nodup_cons.1 hnd).1 (by simp [hc])
    | cons b B =>
        refine ⟨b, by simp, ?_, (List.isChain_cons_cons.1 h2).1⟩
        rintro rfl
        have := (List.nodup_append.1 (List.nodup_cons.1 hnd).2).2.1
        exact (List.nodup_cons.1 this).1 (by simp)
  have hnx : n.nextLeaf = x := by
    obtain ⟨n', hn', hnx⟩ := page_of_next hxprev.1
    cases hn.symm.trans hn'
    exact hnx
  obtain ⟨c, hc, -⟩ := page_of_prev hxprev.2
  have hxq : x ≠ ih.fd2pageno := ne_of_lt (hlt x hx)
  let m : IxNode K :=
    { IxNode.insertPairs ⟨n.parent, n.isLeaf, 0, 0, [], []⟩ 0 (n.pairs.drop (n.getSize / 2)) with
    prevLeaf := t.page, nextLeaf := n.nextLeaf }
  let n' : IxNode K := { n.truncate (n.getSize / 2) with nextLeaf := ih.fd2pageno }
  have hm1 := split_halves hm h2 (n := n') (m := m)
    ⟨hnpar, hnleaf, by simp [n', IxNode.truncate, lower, Tree.pairs, hnpairs, IxNode.getSize]⟩
    ⟨hnpar, hnleaf, by simp [m, IxNode.insertPairs, upper, Tree.pairs, hnpairs, IxNode.getSize]⟩
  have hc1 : ((ih.createNode.2.writeNode ih.fd2pageno m).writeNode t.page n').pages x = some c := by
    rw [writeNode_ne hxne, writeNode_ne hxq, createNode_ne (hlt x hx)]; exact hc
  have hm2 := hm1.touch hc1 (m := { c with prevLeaf := ih.fd2pageno }) rfl rfl rfl
  refine ⟨_, ?_, ?_, ?_, hm2.perm ?_, ?_⟩
  · rw [split, createNode_eq]
    simp only [fetchNode_eq hn1, fetchNode_eq hq1, ok_bind]
    rw [if_pos (by simp [IxNode.truncate, hnleaf])]
    change (((ih.createNode.2.writeNode ih.fd2pageno m).writeNode t.page n').fetchNode n.nextLeaf >>= fun c =>
      pure ((ih.fd2pageno : Int), ((ih.createNode.2.writeNode ih.fd2pageno m).writeNode t.page n').writeNode
        n.nextLeaf { c with prevLeaf := ih.fd2pageno })) = _
    rw [hnx, fetchNode_eq hc1]
    rfl
  · rfl
  · rfl
  · rw [← Multiset.coe_eq_coe]
    simp only [Tree.recs, Tree.pairs, upper, Tree.page_mk, Tree.items_mk, kidRecs_zero, List.nil_append,
      List.cons_append, ← Multiset.cons_coe, ← Multiset.singleton_add]
    abel
  · refine hring.insert hnd ?_ hxprev.1 ?_ ?_ ?_ ?_ ?_ ?_
    · intro hq
      exact lt_irrefl _ (hlt _ hq)
    · rw [nextOf_ne hxne.symm, nextOf_self]
    · rw [nextOf_ne hxq.symm, nextOf_ne (ne_of_gt hlp), nextOf_self, ← hnx]
    · rw [prevOf_ne hxq.symm, prevOf_ne (ne_of_gt hlp), prevOf_self]
    · rw [prevOf_self]
    · intro y hyp hyq
      by_cases hyx : y = x
      · rw [hyx, nextOf_self, nextOf, link, hc]; rfl
      · rw [nextOf_ne hyx, nextOf_ne hyp, nextOf_ne hyq, nextOf_create hyq]
    · intro y hyx hyq
      rw [prevOf_ne hyx]
      by_cases hyp : y = t.page
      · rw [hyp, prevOf_self, prevOf, link, hn]; rfl
      · rw [prevOf_ne hyp, prevOf_ne hyq, prevOf_create hyq]

end Split

structure Halves [LinearOrder K] (ih : IxIndexHandle K) (ctx : Ctx K Rid h) (a b : Tree K Rid h) : Prop where
  order : 6 ≤ ih.fileHdr.btreeOrder
  root : ih.fileHdr.rootPage = ctx.root a.page
  mem : Mem ih (a.recs childRid ctx.parent ++ b.recs childRid ctx.parent ++ ctx.recs childRid a.page)
  sorted : Sorted (ctx.left ++ (flat a.items ++ flat b.items) ++ ctx.right)
  ctxSized : ctx.Sized ih.fileHdr.btreeOrder
  lowSized : a.Sized ih.fileHdr.btreeOrder
  upSized : b.Sized ih.fileHdr.btreeOrder

section Parent

variable [LinearOrder K] {ih' : IxIndexHandle K} {ctx : Ctx K Rid h} {a b : Tree K Rid h}

theorem Shape.halves {t : Tree K Rid h} (hs : Shape ih ctx t) (hlen : t.items.length = ih.fileHdr.btreeOrder)
    (q : Int) (hord : ih'.fileHdr.btreeOrder = ih.fileHdr.btreeOrder)
    (hroot : ih'.fileHdr.rootPage = ih.fileHdr.rootPage)
    (hm : Mem ih' ((lower t).recs childRid ctx.parent ++ (upper q t).recs childRid ctx.parent ++
      ctx.recs childRid t.page)) : Halves ih' ctx (lower t) (upper q t) := by
  have ho := hs.order
  refine ⟨by omega, hroot.trans hs.root, hm, ?_, by rw [hord]; exact hs.ctxSized, ?_, ?_⟩
  · have := hs.sorted
    rw [zflat, ← List.take_append_drop (t.items.length / 2) t.items, flat_append] at this
    exact this
  · refine ⟨?_, ?_, fun i hi => ?_⟩
    · simp only [lower, Tree.items_mk, List.length_take]; omega
    · simp only [lower, Tree.items_mk, List.length_take]; omega
    · rw [hord]; exact hs.kids i (List.mem_of_mem_take hi)
  · refine ⟨?_, ?_, fun i hi => ?_⟩
    · simp only [upper, Tree.items_mk, List.length_drop]; omega
    · simp only [upper, Tree.items_mk, List.length_drop]; omega
    · rw [hord]; exact hs.kids i (List.mem_of_mem_drop hi)

namespace Halves

variable {e : K × Item K Rid h} {rest : List (K × Item K Rid h)} {p : Int}
  {l r : List (K × Tree K Rid h)} {s : K} {up : Ctx K Rid (h + 1)}

theorem upKey [IxKey K] (hh : Halves ih ctx a b) (hb : b.items = e :: rest) :
    ∃ n, ih.pages b.page = some n ∧ n.getKey 0 = e.1 := by
  obtain ⟨n, hn, -, -, hpairs⟩ := hh.mem.get_of_mem (r := ⟨b.page, ctx.parent, h == 0, b.pairs childRid⟩)
    (by simp [Tree.recs])
  exact ⟨n, hn, getKey_first hpairs hb⟩

theorem sep_lt (hh : Halves ih (.frame p l s r up) a b) (hb : b.items = e :: rest) :
    ∀ x ∈ l ++ [(s, a)], x.1 < e.1 := by
  intro x hx
  obtain ⟨y, tl, hy, hk⟩ := flat_head e rest
  have ho := hh.order
  obtain ⟨c, ca, hca⟩ := hh.lowSized.cons (by omega)
  obtain ⟨z, hz⟩ := exists_ent (by omega) a.items (by simp [hca]) hh.lowSized.2.2
  have hs := (sorted_append.1 hh.sorted).1
  rw [hb, hy, ← List.append_assoc] at hs
  have hxz : x.1 ≤ z := by
    refine (sorted_append.1 (sorted_append.1 hs).1).2.2 (.sep x.1) ?_ (.ent z) hz
    rw [Ctx.left]
    rcases List.mem_append.1 hx with hx | hx
    · have : Tok.sep x.1 ∈ flat l := List.mem_flatMap.2 ⟨x, hx, by simp [flatItem]⟩
      simp [this]
    · simp [List.mem_singleton.1 hx]
  have hze : z < y.key := (sorted_append.1 hs).2.2 (.ent z) (by simp [hz]) y (by simp)
  exact lt_of_le_of_lt hxz (hk ▸ hze)

theorem lt_sep (hh : Halves ih (.frame p l s r up) a b) (hb : b.items = e :: rest) : ∀ x ∈ r, e.1 < x.1 := by
  intro x hx
  obtain ⟨y, tl, hy, hk⟩ := flat_head e rest
  have ho := hh.order
  obtain ⟨z, hz⟩ := exists_ent (by omega) b.items (by simp [hb]) hh.upSized.2.2
  have hzx : z < x.1 := by
    refine (sorted_append.1 hh.sorted).2.2 (.ent z) (by simp [hz]) (.sep x.1) ?_
    have : Tok.sep x.1 ∈ flat r := List.mem_flatMap.2 ⟨x, hx, by simp [flatItem]⟩
    simp [Ctx.right, this]
  have hez : y.key ≤ z := by
    have hs := (sorted_append.1 (sorted_append.1 (sorted_append.1 hh.sorted).1).2.1).2.1
    rw [hb, hy] at hs hz
    rcases List.mem_cons.1 hz with rfl | hz
    · exact le_rfl
    · exact (List.rel_of_pairwise_cons hs hz).le
  exact lt_of_le_of_lt (hk ▸ hez) hzx

theorem join (hh : Halves ih (.frame p l s r up) a b) (hb : b.items = e :: rest)
    (hord : ih'.fileHdr.btreeOrder = ih.fileHdr.btreeOrder)
    (hroot : ih'.fileHdr.rootPage = ih.fileHdr.rootPage)
    (hm : Mem ih' (zrecs childRid up (Tree.mk p (l ++ (s, a) :: (e.1, b) :: r)))) :
    Shape ih' up (Tree.mk p (l ++ (s, a) :: (e.1, b) :: r)) := by
  have ho := hh.order
  refine ⟨by omega, hroot.trans hh.root, hm, ?_, by rw [hord]; exact hh.ctxSized.2.2.2.2, ?_⟩
  · obtain ⟨y, tl, hy, hk⟩ := flat_head e rest
    have hs := hh.sorted
    rw [hb, hy, ← List.append_assoc, List.append_assoc, List.cons_append] at hs
    have hc := hs.copy
    rw [hk] at hc
    simpa [zflat, Ctx.left, Ctx.right, hb, hy] using hc
  · intro x hx
    rw [hord]
    obtain ⟨hl, hr, -⟩ := hh.ctxSized
    simp only [Tree.items_mk, List.mem_append, List.mem_cons] at hx
    rcases hx with hx | rfl | rfl | hx
    · exact hl x hx
    · exact hh.lowSized
    · exact hh.upSized
    · exact hr x hx

theorem exact_join (hh : Halves ih (.frame p l s r up) a b) (hb : b.items = e :: rest)
    (hax : ZExact (.frame p l s r up) a) (hbx : b.Exact) :
    ZExact up (Tree.mk p (l ++ (s, a) :: (e.1, b) :: r)) := by
  obtain ⟨c, ca, hca⟩ := hh.lowSized.cons (by have := hh.order; omega)
  obtain ⟨ha, habove⟩ := hax
  obtain ⟨hs, hl, hr, hup⟩ := habove c (by rw [hca]; rfl)
  refine ⟨fun x hx => ?_, fun x hx => ?_⟩
  · rw [Tree.items_mk] at hx
    rcases List.mem_append.1 hx with hx | hx
    · exact hl x hx
    · rcases List.mem_cons.1 hx with rfl | hx
      · exact exactItem_succ (by rw [hca, hs]; rfl) ha
      · rcases List.mem_cons.1 hx with rfl | hx
        · exact exactItem_succ (by rw [hb]; rfl) hbx
        · exact hr x hx
  · rw [Tree.items_mk] at hx
    have hfirst := head_append_cons (l := l) (r := (e.1, b) :: r) (s, a)
    rw [hx, Option.map_some, Option.some.injEq] at hfirst
    rw [hfirst]
    exact hup

end Halves

variable [IxKey K] [LawfulIxKey K]

omit [LawfulIxKey K] in
theorem growRoot_spec {e f : K × Item K Rid h} {ra rb : List (K × Item K Rid h)} (hh : Halves ih .top a b)
    (ha : a.items = e :: ra) (hb : b.items = f :: rb) (fuel : Nat) :
    ∃ ih', insertIntoParent (fuel + 1) ih a.page f.1 b.page = .ok ih' ∧ Quiet ih ih' ∧
      Shape ih' .top (Tree.mk ih.fd2pageno [(e.1, a), (f.1, b)]) := by
  have hm := hh.mem
  simp only [Ctx.recs, Ctx.parent_top, List.append_nil] at hm
  have hra : (⟨a.page, -1, h == 0, a.pairs childRid⟩ : Rec K Rid) ∈
      a.recs childRid (-1) ++ b.recs childRid (-1) := by
    simp [Tree.recs]
  have hrb : (⟨b.page, -1, h == 0, b.pairs childRid⟩ : Rec K Rid) ∈
      a.recs childRid (-1) ++ b.recs childRid (-1) := by
    simp [Tree.recs]
  obtain ⟨n, hn, hnpar, hnleaf, hnpairs⟩ := hm.get_of_mem hra
  obtain ⟨m, hm', hmpar, hmleaf, hmpairs⟩ := hm.get_of_mem hrb
  have hla : a.page < ih.fd2pageno := (hm.range _ hra).2
  have hlb : b.page < ih.fd2pageno := (hm.range _ hrb).2
  have h2 : 2 ≤ ih.fd2pageno := by have := hm.range _ hra; omega
  have hn1 : ih.createNode.2.pages a.page = some n := by rw [createNode_ne hla]; exact hn
  have hm1 : ih.createNode.2.pages b.page = some m := by rw [createNode_ne hlb]; exact hm'
  have hr1 : ih.createNode.2.pages ih.fd2pageno = some ⟨0, false, 0, 0, [], []⟩ := by simp [createNode]
  let root : IxNode K :=
    (IxNode.insertPairs ⟨-1, false, 0, 0, [], []⟩ 0 [(n.getKey 0, ⟨a.page, -1⟩)]).insertPairs 1
    [(m.getKey 0, ⟨b.page, -1⟩)]
  have hroot : root.pairs = [(e.1, childRid a.page), (f.1, childRid b.page)] := by
    simp [root, IxNode.insertPairs, getKey_first hnpairs ha, getKey_first hmpairs hb, childRid]
  have hmA := (hm.create h2).write (n := root)
    (c := ⟨ih.fd2pageno, -1, false, [(e.1, childRid a.page), (f.1, childRid b.page)]⟩) rfl ⟨rfl, rfl, hroot⟩
  have hna : (ih.createNode.2.writeNode ih.fd2pageno root).pages a.page = some n := by
    rw [writeNode_ne (ne_of_lt hla)]; exact hn1
  have hmB := (hmA.perm (w := a.recs childRid (-1) ++ (⟨ih.fd2pageno, -1, false,
      [(e.1, childRid a.page), (f.1, childRid b.page)]⟩ :: b.recs childRid
        (-1))) List.perm_middle.symm).reparent
    (p := ih.fd2pageno) hna
  have hab : b.page ≠ a.page := (hm.disjoint (r := ⟨a.page, -1, h == 0, a.pairs childRid⟩)
    (s := ⟨b.page, -1, h == 0, b.pairs childRid⟩) (by simp [Tree.recs]) (by simp [Tree.recs])).symm
  have hmb : ((ih.createNode.2.writeNode ih.fd2pageno root).writeNode a.page
      { n with parent := ih.fd2pageno }).pages b.page = some m := by
    rw [writeNode_ne hab, writeNode_ne (ne_of_lt hlb)]; exact hm1
  have hmC :=
    (hmB.perm (w := b.recs childRid (-1) ++ (a.recs childRid ih.fd2pageno ++ [⟨ih.fd2pageno, -1, false,
      [(e.1, childRid a.page), (f.1, childRid b.page)]⟩])) (by
    rw [← Multiset.coe_eq_coe]
    simp only [← Multiset.coe_add, ← Multiset.cons_coe, ← Multiset.singleton_add, Multiset.coe_nil]
    abel)).reparent (p := ih.fd2pageno) hmb
  let ih3 := ((ih.createNode.2.writeNode ih.fd2pageno root).writeNode a.page
    { n with parent := ih.fd2pageno }).writeNode b.page { m with parent := ih.fd2pageno }
  have hloc : Local ih.createNode.2 ih3 := ((local_write (m := root) hr1 rfl rfl).trans
    (local_write (m := { n with parent := ih.fd2pageno }) hna rfl rfl)).trans (local_write hmb rfl rfl)
  have hq := (quiet_create ih).trans hloc.quiet
  refine ⟨{ ih3 with fileHdr := { ih3.fileHdr with rootPage := ih.fd2pageno } }, ?_,
    ⟨hq.order, hq.first, hq.last, hq.count, hq.link⟩, hh.order, rfl, (hmC.hdr _).perm ?_, ?_, trivial, ?_⟩
  · rw [insertIntoParent, fetchNode_eq hn, ok_bind,
      if_pos (by simp [IxNode.isRootPage, hnpar]), createNode_eq]
    simp only [fetchNode_eq hr1, fetchNode_eq hn1, fetchNode_eq hm1, ok_bind, pure_eq_ok]
    rfl
  · rw [← Multiset.coe_eq_coe]
    simp only [zrecs, Ctx.recs, Ctx.parent_top, Tree.recs, Tree.pairs, Tree.page_mk,
      Tree.items_mk, kidRecs_cons, kidRecs_nil, List.map_cons, List.map_nil, pairOf,
      List.append_nil, List.cons_append,
      ← Multiset.coe_add, ← Multiset.cons_coe, ← Multiset.singleton_add, Multiset.coe_nil]
    rw [show ((h + 1 == 0) = false) from rfl]
    abel
  · obtain ⟨y, ta, hy, hk⟩ := flat_head e ra
    obtain ⟨z, tb, hz, hkz⟩ := flat_head f rb
    have hs := hh.sorted
    simp only [Ctx.left, Ctx.right, List.nil_append, List.append_nil, ha, hb, hy, hz] at hs
    have hc := hs.copy
    have hc' := Sorted.copy (l := []) (y := y) hc
    rw [hk, hkz] at hc'
    simpa [zflat, Ctx.left, Ctx.right, ha, hb, hy, hz] using hc'
  · intro x hx
    simp only [Tree.items_mk, List.mem_cons, List.not_mem_nil, or_false] at hx
    rcases hx with rfl | rfl
    · exact hh.lowSized
    · exact hh.upSized

/-- The entry for the upper half goes in right behind the one for the lower half. -/
theorem placeUpper_spec {p : Int} {l r : List (K × Tree K Rid h)} {s : K} {up : Ctx K Rid (h + 1)}
    {f : K × Item K Rid h} {rb : List (K × Item K Rid h)} (hh : Halves ih (.frame p l s r up) a b)
    (hb : b.items = f :: rb) :
    ∃ n m, ih.pages a.page = some n ∧ n.parent = p ∧ p ≠ -1 ∧ ih.pages p = some m ∧
      (m.insert f.1 ⟨b.page, -1⟩).getSize = (l ++ (s, a) :: (f.1, b) :: r).length ∧
      Local ih (ih.writeNode p (m.insert f.1 ⟨b.page, -1⟩)) ∧
      Shape (ih.writeNode p (m.insert f.1 ⟨b.page, -1⟩)) up (Tree.mk p (l ++ (s, a) :: (f.1, b) :: r)) := by
  have hm := hh.mem
  rw [Ctx.parent_frame, Ctx.recs] at hm
  obtain ⟨n, hn, hnpar, -, -⟩ :=
    hm.get_of_mem (r := ⟨a.page, p, h == 0, a.pairs childRid⟩) (by simp [Tree.recs])
  obtain ⟨m, hmp, hmpar, hmleaf, hmpairs⟩ := hm.get_of_mem
    (r := ⟨p, up.parent, false, gapPairs childRid l s a.page r⟩) (by simp)
  have hpne : p ≠ -1 := by
    have := hm.range ⟨p, up.parent, false, gapPairs childRid l s a.page r⟩ (by simp)
    rintro rfl
    simp only at this
    omega
  have hsplit : m.pairs = (l ++ [(s, a)]).map (pairOf childRid (h + 1)) ++
      r.map (pairOf childRid (h + 1)) := by
    rw [hmpairs, gapPairs]; simp [pairOf]
  have hins : m.insert f.1 ⟨b.page, -1⟩ =
      m.insertPairs ((l ++ [(s, a)]).map (pairOf childRid (h + 1))).length [(f.1, ⟨b.page, -1⟩)] := by
    refine IxNode.insert_new hsplit ?_ ?_ _
    · intro x hx
      obtain ⟨c, hc, rfl⟩ := List.mem_map.1 hx
      exact hh.sep_lt hb c hc
    · intro x hx
      obtain ⟨c, hc, rfl⟩ := List.mem_map.1 hx
      exact hh.lt_sep hb c hc
  have hpairs : (m.insert f.1 ⟨b.page, -1⟩).pairs =
      (l ++ (s, a) :: (f.1, b) :: r).map (pairOf childRid (h + 1)) := by
    rw [hins, IxNode.insertPairs_split hsplit]
    simp [pairOf, childRid]
  have hm1 := hm.perm (w := ⟨p, up.parent, false, gapPairs childRid l s a.page r⟩ ::
      (a.recs childRid p ++ b.recs childRid p ++ (kidRecs childRid p l ++ kidRecs childRid p r ++
        up.recs childRid p))) List.perm_middle
  have hm2 := hm1.write (n := m.insert f.1 ⟨b.page, -1⟩)
    (c := ⟨p, up.parent, false, (l ++ (s, a) :: (f.1, b) :: r).map (pairOf childRid (h + 1))⟩) rfl
    ⟨by rw [hins]; exact hmpar, by rw [hins]; exact hmleaf, hpairs⟩
  refine ⟨n, m, hn, hnpar, hpne, hmp, by rw [IxNode.getSize, hpairs, List.length_map],
    local_write hmp (by rw [hins]; rfl) (by rw [hins]; rfl), hh.join hb rfl rfl (hm2.perm ?_)⟩
  rw [← Multiset.coe_eq_coe]
  simp only [zrecs, Tree.recs, Tree.pairs, Tree.page_mk, Tree.items_mk, kidRecs_append, kidRecs_cons,
    List.append_assoc, List.cons_append, ← Multiset.coe_add, ← Multiset.cons_coe, ← Multiset.singleton_add]
  rw [show ((h + 1 == 0) = false) from rfl]
  abel

/-- `insert_into_parent` splits nodes upwards until one has room. -/
theorem insertIntoParent_spec (ctx : Ctx K Rid h) (a b : Tree K Rid h) (f : K × Item K Rid h)
    (rb : List (K × Item K Rid h)) (hb : b.items = f :: rb) (hh : Halves ih ctx a b) (fuel : Nat)
    (hf : ctx.depth < fuel) :
    ∃ ih', insertIntoParent fuel ih a.page f.1 b.page = .ok ih' ∧ Quiet ih ih' ∧
      ∃ (H : Nat) (T : Tree K Rid H), Shape ih' .top T ∧ Fits ih' .top T ∧
        ents T.items = ctx.leftEnts ++ (ents a.items ++ ents b.items) ++ ctx.rightEnts ∧
        T.leaves = ctx.leftLeaves ++ (a.leaves ++ b.leaves) ++ ctx.rightLeaves ∧
        (ZExact ctx a → b.Exact → T.Exact) := by
  have ho := hh.order
  obtain ⟨fuel, rfl⟩ : ∃ n, fuel = n + 1 := ⟨fuel - 1, by omega⟩
  induction ctx generalizing ih fuel with
  | top =>
      obtain ⟨e, ra, ha⟩ := hh.lowSized.cons (by omega)
      obtain ⟨ih', hrun, hq, hs⟩ := growRoot_spec hh ha hb fuel
      refine ⟨ih', hrun, hq, _, _, hs, ⟨Or.inr (by simp), ?_⟩, by simp [Ctx.leftEnts, Ctx.rightEnts],
        by simp [Ctx.leftLeaves, Ctx.rightLeaves], fun hax hbx x hx => ?_⟩
      · have := hs.order
        simp only [Tree.items_mk, List.length_cons, List.length_nil]
        omega
      · simp only [Tree.items_mk, List.mem_cons, List.not_mem_nil, or_false] at hx
        rcases hx with rfl | rfl
        · exact exactItem_succ (by rw [ha]; rfl) hax.1
        · exact exactItem_succ (by rw [hb]; rfl) hbx
  | frame p l s r up ihc =>
      obtain ⟨n, m, hn, hnpar, hpne, hmp, hsize, hloc, hs⟩ := placeUpper_spec hh hb
      have hlen : (l ++ (s, a) :: (f.1, b) :: r).length = l.length + 1 + r.length + 1 := by simp; omega
      obtain ⟨-, -, hlow, hlt, -⟩ := hh.ctxSized
      rw [insertIntoParent, fetchNode_eq hn, ok_bind,
        if_neg (by simp [IxNode.isRootPage, hnpar, hpne]), hnpar,
        fetchNode_eq hmp, ok_bind]
      simp only [hsize, writeNode_fileHdr]
      by_cases hfull : (l ++ (s, a) :: (f.1, b) :: r).length = ih.fileHdr.btreeOrder
      · -- no room in the parent: it is split in turn
        rw [if_pos hfull]
        have hp2 := hs.mem.depth_lt
        obtain ⟨ih2, hrun2, hq2, hroot2, hm2⟩ := split_internal (u := up.parent) hs.mem (by omega)
        have hh2 := hs.halves hfull _ hq2.order hroot2 hm2
        obtain ⟨c, rc, hc⟩ := hh2.upSized.cons (by have := hh2.order; omega)
        obtain ⟨k, hk, hkey⟩ := hh2.upKey hc
        simp only [Ctx.depth] at hf
        obtain ⟨fuel, rfl⟩ : ∃ n, fuel = n + 1 := ⟨fuel - 1, by omega⟩
        obtain ⟨ih3, hrun3, hq3, H, T, hT, hfT, he, hl, hexact⟩ :=
          ihc _ _ c rc hc hh2 hh2.order fuel (by omega)
        refine ⟨ih3, ?_, hloc.quiet.trans (hq2.trans hq3), H, T, hT, hfT, ?_, ?_, fun hax hbx => ?_⟩
        · rw [Tree.page_mk] at hrun2
          rw [upper, Tree.page_mk] at hk
          rw [hrun2, ok_bind]
          simp only [fetchNode_eq hk, ok_bind, hkey]
          exact hrun3
        · rw [he, ents_halves]; simp [Ctx.leftEnts, Ctx.rightEnts]
        · rw [hl, leaves_halves]; simp [Ctx.leftLeaves, Ctx.rightLeaves]
        · obtain ⟨hlower, hupper⟩ :=
            zexact_halves (ih.writeNode p (m.insert f.1 ⟨b.page, -1⟩)).fd2pageno
              (hh.exact_join hb hax hbx)
          exact hexact hlower hupper
      · rw [if_neg hfull]
        obtain ⟨H, T, hT, hfT, he, hl, hexact⟩ := hs.toTop ⟨hlow.mono (by simp; omega), by
          rw [Tree.items_mk, writeNode_fileHdr]; omega⟩
        refine ⟨_, rfl, hloc.quiet, H, T, hT, hfT, ?_, ?_, fun hax hbx => hexact (hh.exact_join hb hax hbx)⟩
        · rw [he]; simp [zents, Ctx.leftEnts, Ctx.rightEnts]
        · rw [hl]; simp [zleaves, Ctx.leftLeaves, Ctx.rightLeaves]

end Parent

section Entry

variable [LinearOrder K] [IxKey K] [LawfulIxKey K] {ctx : Ctx K Rid 0} {t : Tree K Rid 0}

omit [LinearOrder K] [IxKey K] [LawfulIxKey K] in
theorem Mem.writeLeaf (hm : Mem ih (zrecs childRid ctx t)) {n : IxNode K} (items : List (K × Item K Rid 0))
    (hpar : n.parent = ctx.parent) (hleaf : n.isLeaf = true) (hpairs : n.pairs = items.map val) :
    Mem (ih.writeNode t.page n) (zrecs childRid ctx (Tree.mk t.page items)) := by
  rw [zrecs, Tree.recs, kidRecs_zero, List.cons_append] at hm ⊢
  exact hm.write (c := ⟨t.page, ctx.parent, true, items.map val⟩) rfl ⟨hpar, hleaf, hpairs⟩

omit [IxKey K] [LawfulIxKey K] in
theorem Shape.place_inner (hs : Shape ih ctx t) {k : K} {v : Rid} {a : K × Item K Rid 0}
    {A B : List (K × Item K Rid 0)} (hp : ctx.OnPath k) (ht : t.items = A ++ B) (ha : a ∈ A)
    (hA : ∀ e ∈ A, e.1 < k) (hB : ∀ e ∈ B, k < e.1) :
    Sorted (zflat ctx (Tree.mk t.page (A ++ ofVal (k, v) :: B))) := by
  have hz := hs.sorted
  rw [zflat, ht, flat_append, ← List.append_assoc, List.append_assoc] at hz
  have hplace := hz.place (k := k) ?_ ?_
  · simpa [zflat, flat_zero] using hplace
  · intro x hx
    rcases List.mem_append.1 hx with hx | hx
    · have hxa := (sorted_append.1 (sorted_append.1 hz).1).2.2 x hx (.ent a.1)
        (by rw [flat_zero]; exact List.mem_map_of_mem ha)
      exact hxa.of_le (le_of_lt (hA a ha))
    · rw [flat_zero] at hx
      obtain ⟨e, he, rfl⟩ := List.mem_map.1 hx
      exact hA e he
  · intro y hy
    rcases List.mem_append.1 hy with hy | hy
    · rw [flat_zero] at hy
      obtain ⟨e, he, rfl⟩ := List.mem_map.1 hy
      exact hB e he
    · exact right_gt hp hs.right_sorted y hy

omit [IxKey K] [LawfulIxKey K] in
/-- A new first key of a leaf is in order once the separators above it are rewritten. -/
theorem Shape.place_first (hs : Shape ih ctx t) {k : K} {v : Rid} (hp : ctx.OnPath k)
    (hB : ∀ e ∈ t.items, k < e.1) :
    Sorted (zflat (ctx.refit k) (Tree.mk t.page (ofVal (k, v) :: t.items))) := by
  have hz := hs.sorted
  have hsub : Sorted (ctx.kept k ++ (flat t.items ++ ctx.right)) := by
    refine Sorted.sublist hz ?_
    rw [zflat, List.append_assoc]
    exact (kept_sublist k ctx).append (List.Sublist.refl _)
  have hplace := hsub.place (k := k) (kept_before hp hs.left_sorted) ?_
  · have := refit_sorted ctx (.ent k) (flat t.items) (by simpa using hplace)
    simpa [zflat, flat_zero] using this
  · intro y hy
    rcases List.mem_append.1 hy with hy | hy
    · rw [flat_zero] at hy
      obtain ⟨e, he, rfl⟩ := List.mem_map.1 hy
      exact hB e he
    · exact right_gt hp hs.right_sorted y hy

omit [LinearOrder K] [IxKey K] [LawfulIxKey K] in
/-- A new pair leaves the separators exact when those above a new first key are rewritten. -/
theorem zexact_place [DecidableEq K] {k : K} {v : Rid} {A B : List (K × Item K Rid 0)}
    {ctx1 : Ctx K Rid 0} (hx : ZExact ctx t) (ht : t.items = A ++ B) (htop : t.items = [] → ctx = .top)
    (hctx : A ≠ [] ∧ ctx1 = ctx ∨ A = [] ∧ ctx1 = ctx.refit k) :
    ZExact ctx1 (Tree.mk t.page (A ++ ofVal (k, v) :: B)) := by
  refine ⟨fun _ _ => trivial, fun e he => ?_⟩
  rw [Tree.items_mk] at he
  rcases hctx with ⟨hA, rfl⟩ | ⟨rfl, rfl⟩
  · obtain ⟨a, A, rfl⟩ := List.exists_cons_of_ne_nil hA
    exact hx.2 e (by rw [ht]; exact he)
  · obtain rfl : ofVal (k, v) = e := by simpa using he
    cases hB : t.items with
    | nil =>
        rw [htop hB]
        trivial
    | cons b rest => exact refit_exact (hx.2 b (by rw [hB]; rfl))

/-- The first half of `insert_entry`: the pair is in the leaf and the separators above
the leaf are in order again. -/
theorem placeEntry_spec (hs : Shape ih ctx t) {k : K} (v : Rid) {A B : List (K × Item K Rid 0)}
    (hp : ctx.OnPath k) (ht : t.items = A ++ B) (hA : ∀ e ∈ A, e.1 < k) (hB : ∀ e ∈ B, k < e.1) :
    ∃ n ih1 ctx1, ih.pages t.page = some n ∧ n.getSize = t.items.length ∧
      (n.insert k v).getSize = t.items.length + 1 ∧
      (ih.writeNode t.page (n.insert k v)).maintainFirst t.page (n.insert k v) k = .ok ih1 ∧ Local ih ih1 ∧
      (A ≠ [] ∧ ctx1 = ctx ∨ A = [] ∧ ctx1 = ctx.refit k) ∧
      Shape ih1 ctx1 (Tree.mk t.page (A ++ ofVal (k, v) :: B)) := by
  obtain ⟨n, hn, hpar, hleaf, hpairs⟩ := hs.mem.hole
  have hsplit : n.pairs = A.map val ++ B.map val := by
    rw [hpairs, Tree.pairs, ht, List.map_append]; rfl
  have hins : n.insert k v = n.insertPairs (A.map val).length [(k, v)] := by
    refine IxNode.insert_new hsplit ?_ ?_ v
    · intro e he
      obtain ⟨c, hc, rfl⟩ := List.mem_map.1 he
      exact hA c hc
    · intro e he
      obtain ⟨c, hc, rfl⟩ := List.mem_map.1 he
      exact hB c hc
  have hnew : (n.insert k v).pairs = (A ++ ofVal (k, v) :: B).map val := by
    rw [hins, IxNode.insertPairs_split hsplit]; simp
  have hm1 := hs.mem.writeLeaf (n := n.insert k v) (A ++ ofVal (k, v) :: B) (by rw [hins]; exact hpar)
    (by rw [hins]; exact hleaf) hnew
  have hloc : Local ih (ih.writeNode t.page (n.insert k v)) :=
    local_write hn (by rw [hins]; rfl) (by rw [hins]; rfl)
  have hsz : (n.insert k v).getSize = t.items.length + 1 := by
    rw [IxNode.getSize, hnew, ht]; simp; omega
  have hkids : ∀ e ∈ (Tree.mk t.page (A ++ ofVal (k, v) :: B)).items, Sized ih.fileHdr.btreeOrder 0 e :=
    fun _ _ => trivial
  cases A with
  | nil =>
      obtain ⟨ih1, hrun, hloc1, hm2⟩ :=
        maintainParent_spec ctx (Tree.mk t.page (ofVal (k, v) :: B)) (ofVal (k, v)) B
        rfl hm1
      rw [List.nil_append] at ht
      refine ⟨n, ih1, ctx.refit k, hn, by rw [IxNode.getSize, hpairs]; simp [Tree.pairs], hsz,
        ?_, hloc.trans hloc1, .inr ⟨rfl, rfl⟩, ?_, ?_, hm2, ?_, ?_, ?_⟩
      · rw [maintainFirst, if_pos]
        · exact hrun
        · rw [LawfulIxKey.memcmp_zero,
            IxNode.getKey_zero (e := (k, v)) (B := B.map val) (by simpa using hnew)]
      · rw [hloc1.hdr]; exact hs.order
      · rw [hloc1.hdr, refit_root]; exact hs.root
      · rw [← ht]
        exact hs.place_first hp (by rw [ht]; exact hB)
      · rw [hloc1.hdr, refit_sized]; exact hs.ctxSized
      · rw [hloc1.hdr]; exact hkids
  | cons a A =>
      refine ⟨n, _, ctx, hn, by rw [IxNode.getSize, hpairs]; simp [Tree.pairs], hsz, ?_, hloc,
        .inl ⟨by simp, rfl⟩, hs.order, hs.root, hm1, hs.place_inner hp ht (List.mem_cons_self ..) hA hB,
        hs.ctxSized, hkids⟩
      rw [maintainFirst, if_neg]
      rw [LawfulIxKey.memcmp_zero, IxNode.getKey_zero (e := val a) (B := (A ++ ofVal (k, v) :: B).map val)
          (by simpa using hnew)]
      exact ne_of_lt (hA a (by simp))

omit [LinearOrder K] [IxKey K] [LawfulIxKey K] in
theorem last_insert {A B : List Int} {p q last : Int} (hnd : (A ++ p :: B).Nodup)
    (hl : (A ++ p :: B).getLast? = some last) :
    (A ++ p :: q :: B).getLast? = some (if last = p then q else last) := by
  cases B with
  | nil =>
      have hlp : last = p := by simpa using hl.symm
      simp [hlp]
  | cons b B =>
      have hl' : (b :: B).getLast? = some last := by
        simpa [List.getLast?_append, List.getLast?_cons_cons] using hl
      have hne : last ≠ p := by
        rintro rfl
        exact (List.nodup_cons.1 (List.nodup_append.1 hnd).2.1).1 (List.mem_of_getLast? hl')
      rw [if_neg hne]
      simpa [List.getLast?_append, List.getLast?_cons_cons] using hl'

/-- The second half of `insert_entry`: a full leaf is split and the split goes up. -/
theorem splitEntry_spec (hz : Zip ih ctx t) (hfull : t.items.length = ih.fileHdr.btreeOrder) :
    ∃ ih1 n ih2, ih.split t.page = .ok ((ih.fd2pageno : Int), ih1) ∧ ih1.pages ih.fd2pageno = some n ∧
      insertIntoParent ih1.fd2pageno ih1 t.page (n.getKey 0) ih.fd2pageno = .ok ih2 ∧
      ValidIf (if ih2.fileHdr.lastLeaf = t.page then
        { ih2 with fileHdr := { ih2.fileHdr with lastLeaf := ih.fd2pageno } }
        else ih2) (zents ctx t) (ZExact ctx t) := by
  have hnd := hz.mem.leaves_nodup
  have hlt := hz.mem.leaves_lt
  have hdep := hz.mem.depth_lt
  have hch := hz.chain
  simp only [zleaves, leaves_zero, List.append_assoc, List.singleton_append] at hnd hlt hch
  obtain ⟨ih1, hrun1, hhdr, hcount, hm1, hring⟩ :=
    split_leaf (u := ctx.parent) hz.mem hch.links hnd hlt (by omega)
  have hh : Halves ih1 ctx (lower t) (upper ih.fd2pageno t) :=
    hz.toShape.halves hfull ih.fd2pageno (by rw [hhdr]; rfl) (by rw [hhdr]; rfl) hm1
  obtain ⟨f, rb, hf⟩ := hh.upSized.cons (by have := hh.order; omega)
  obtain ⟨n, hn, hkey⟩ := hh.upKey hf
  obtain ⟨ih2, hrun2, hq, H, T, hT, hfT, he, hl, hexact⟩ :=
    insertIntoParent_spec ctx (lower t) (upper ih.fd2pageno t) f rb hf hh
    ih1.fd2pageno (by omega)
  refine ⟨ih1, n, ih2, hrun1, hn, by rw [hkey]; exact hrun2, ?_⟩
  have hle : T.leaves = ctx.leftLeaves ++ t.page :: (ih.fd2pageno : Int) :: ctx.rightLeaves := by
    rw [hl]; simp [lower, upper]
  rw [ents_halves] at he
  have hlast : ih2.fileHdr.lastLeaf = ih.fileHdr.lastLeaf := by rw [hq.last, hhdr]; rfl
  have hfirst : ih2.fileHdr.firstLeaf = ih.fileHdr.firstLeaf := by rw [hq.first, hhdr]; rfl
  have hring2 : Ring.IsRing (nextOf ih2) (prevOf ih2) 1 T.leaves := by
    have hlt1 : ∀ p ∈ 1 :: (ctx.leftLeaves ++ t.page :: (ih.fd2pageno : Int) :: ctx.rightLeaves),
        p < ih1.fd2pageno := by
      intro p hp
      by_cases hpq : p = ih.fd2pageno
      · omega
      · have := hlt p (by simp at hp ⊢; tauto)
        omega
    rw [hle]
    exact hring.congr (fun a ha => by rw [nextOf, nextOf, hq.link a (hlt1 a ha)])
      (fun a ha => by rw [prevOf, prevOf, hq.link a (hlt1 a ha)])
  have hgoal : ValidIf { ih2 with fileHdr := { ih2.fileHdr with
      lastLeaf := if ih2.fileHdr.lastLeaf = t.page then (ih.fd2pageno : Int)
        else ih2.fileHdr.lastLeaf } } (zents ctx t)
      (ZExact ctx t) := by
    refine ⟨H, T, ⟨⟨hT.order, hT.root, hT.mem.hdr _, hT.sorted, hT.ctxSized, hT.kids⟩, ?_⟩,
      hfT, he, fun hx => ?_⟩
    · rw [zleaves, Ctx.leftLeaves, Ctx.rightLeaves, List.nil_append, List.append_nil]
      refine ⟨hring2, ?_, ?_⟩
      · change _ = some ih2.fileHdr.firstLeaf
        rw [hle, hfirst, ← hch.first]
        simp [List.head?_append]
      · rw [hle, last_insert (List.nodup_cons.1 hnd).2 hch.last, hlast]
    · obtain ⟨hlower, hupper⟩ := zexact_halves ih.fd2pageno hx
      exact hexact hlower hupper
  split
  · next hc => rw [if_pos hc] at hgoal; exact hgoal
  · next hc => rw [if_neg hc] at hgoal; exact hgoal

/-- `insert_entry` adds the pair exactly when the key is not there. -/
theorem insertEntry_exact (k : K) (v : Rid) {es : List (K × Rid)} {P : Prop} (hv : ValidIf ih es P) :
    (∃ pre post r leaf, es = pre ++ (k, r) :: post ∧ ih.insertEntry k v = .ok (leaf, false, ih)) ∨
    (∃ pre post leaf ih', es = pre ++ post ∧ (∀ e ∈ pre, e.1 < k) ∧ (∀ e ∈ post, k < e.1) ∧
      ih.insertEntry k v = .ok (leaf, true, ih') ∧ ValidIf ih' (pre ++ (k, v) :: post) P) := by
  obtain ⟨ctx, t, hleaf, hz, hf, hp, rfl, hexact⟩ := findLeafPage_exact k hv
  obtain ⟨A, B, hA, hB, hit⟩ := leaf_split k t.items hz.toShape.items_sorted
  rcases hit with hit | ⟨r, hit⟩
  · right
    obtain ⟨n, ih1, ctx1, hn, hsz, hsz', hrun1, hloc, hctx, hs1⟩ := placeEntry_spec hz.toShape v hp hit hA hB
    have hents : zents ctx1 (Tree.mk t.page (A ++ ofVal (k, v) :: B)) =
        (ctx.leftEnts ++ A.map val) ++ (k, v) :: (B.map val ++ ctx.rightEnts) := by
      rcases hctx with ⟨-, rfl⟩ | ⟨-, rfl⟩ <;> simp [zents, ents_zero]
    have hlow : ∀ m, ctx1.Low ih.fileHdr.btreeOrder m ↔ ctx.Low ih.fileHdr.btreeOrder m := by
      intro m
      rcases hctx with ⟨-, rfl⟩ | ⟨-, rfl⟩ <;> simp
    have hexact1 : P → ZExact ctx1 (Tree.mk t.page (A ++ ofVal (k, v) :: B)) := by
      refine fun hP => zexact_place (hexact hP) hit (fun hnil => ?_) hctx
      cases ctx with
      | top => rfl
      | frame => exact absurd hnil (hz.items_ne hf)
    have hz1 : Zip ih1 ctx1 (Tree.mk t.page (A ++ ofVal (k, v) :: B)) := by
      refine ⟨hs1, ?_⟩
      have hle : zleaves ctx1 (Tree.mk t.page (A ++ ofVal (k, v) :: B)) = zleaves ctx t := by
        rcases hctx with ⟨-, rfl⟩ | ⟨-, rfl⟩ <;> simp [zleaves]
      rw [hle]
      exact hz.chain.quiet hloc.quiet hz.mem.leaves_lt
    have hlen : (A ++ ofVal (k, v) :: B).length = t.items.length + 1 := by rw [hit]; simp; omega
    have hpre : ∀ e ∈ ctx.leftEnts ++ A.map val, e.1 < k := by
      intro e he
      rcases List.mem_append.1 he with he | he
      · exact leftEnts_lt hp hz.toShape.left_sorted e he
      · obtain ⟨c, hc, rfl⟩ := List.mem_map.1 he
        exact hA c hc
    have hpost : ∀ e ∈ B.map val ++ ctx.rightEnts, k < e.1 := by
      intro e he
      rcases List.mem_append.1 he with he | he
      · obtain ⟨c, hc, rfl⟩ := List.mem_map.1 he
        exact hB c hc
      · exact rightEnts_gt hp hz.toShape.right_sorted e he
    have hes : zents ctx t = (ctx.leftEnts ++ A.map val) ++ (B.map val ++ ctx.rightEnts) := by
      simp [zents, hit, ents_zero]
    by_cases hfull : t.items.length + 1 = ih.fileHdr.btreeOrder
    · obtain ⟨ih2, m, ih3, hrun2, hm, hrun3, hv3⟩ :=
        splitEntry_spec hz1 (by rw [Tree.items_mk, hlen, hloc.hdr]; exact hfull)
      refine ⟨_, _, t.page, _, hes, hpre, hpost, ?_, hents ▸ hv3.imp hexact1⟩
      rw [insertEntry, hleaf, ok_bind, fetchNode_eq hn, ok_bind]
      simp only [hsz, hsz', hrun1, ok_bind]
      rw [if_neg (by omega), if_pos (by rw [hloc.hdr]; exact hfull)]
      rw [Tree.page_mk] at hrun2 hrun3
      rw [hrun2, ok_bind]
      simp only [fetchNode_eq hm, ok_bind, hrun3]
      rfl
    · refine ⟨_, _, t.page, ih1, hes, hpre, hpost, ?_, hents ▸ (hz1.finish ⟨?_, ?_⟩).imp hexact1⟩
      · rw [insertEntry, hleaf, ok_bind, fetchNode_eq hn, ok_bind]
        simp only [hsz, hsz', hrun1, ok_bind]
        rw [if_neg (by omega), if_neg (by rw [hloc.hdr]; exact hfull)]
        rfl
      · rw [hloc.hdr, hlow, Tree.items_mk, hlen]
        exact hf.1.mono (Nat.le_succ _)
      · have := hf.2
        rw [hloc.hdr, Tree.items_mk, hlen]
        omega
  · left
    obtain ⟨n, hn, -, -, hpairs⟩ := hz.mem.hole
    have hsplit : n.pairs = A.map val ++ (k, r) :: B.map val := by
      rw [hpairs, pairs_zero, hit]
      simp
    have hdup : n.insert k v = n := by
      refine IxNode.insert_dup hsplit ?_ ?_ v
      · intro e he
        obtain ⟨c, hc, rfl⟩ := List.mem_map.1 he
        exact hA c hc
      · intro e he
        obtain ⟨c, hc, rfl⟩ := List.mem_map.1 he
        exact hB c hc
    refine ⟨ctx.leftEnts ++ A.map val, B.map val ++ ctx.rightEnts, r, t.page, ?_, ?_⟩
    · simp [zents, hit, ents_zero]
    · simp [insertEntry, hleaf, fetchNode_eq hn, hdup, writeNode_same hn]

theorem insertEntry_spec (k : K) (v : Rid) {es : List (K × Rid)} (hv : Valid ih es) :
    (∃ pre post r leaf, es = pre ++ (k, r) :: post ∧ ih.insertEntry k v = .ok (leaf, false, ih)) ∨
    (∃ pre post leaf ih', es = pre ++ post ∧ (∀ e ∈ pre, e.1 < k) ∧ (∀ e ∈ post, k < e.1) ∧
      ih.insertEntry k v = .ok (leaf, true, ih') ∧ Valid ih' (pre ++ (k, v) :: post)) := by
  rcases insertEntry_exact k v hv.validIf with h | ⟨pre, post, leaf, ih', hes, hpre, hpost, hrun, hv'⟩
  · exact .inl h
  · exact .inr ⟨pre, post, leaf, ih', hes, hpre, hpost, hrun, hv'.valid⟩

end Entry

end Rmdb
