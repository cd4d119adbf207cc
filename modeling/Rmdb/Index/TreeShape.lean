import Rmdb.Index.OrderedKeys

namespace Rmdb

open BPlus SepList IxIndexHandle IxManager

variable {K : Type} {h : Nat} {ih : IxIndexHandle K}

structure Kid (K : Type) where
  entry : K × Rid
  keys : List K
  leaves : List Int

section Spec

variable [IxKey K]

/-- Every node but the root holds between half of `btree_order_` and `btree_order_ - 1` entries. -/
def Filled (ih : IxIndexHandle K) (n : IxNode K) : Prop :=
  n.isRootPage = false → ih.fileHdr.btreeOrder / 2 ≤ n.getSize ∧ n.getSize ≤ ih.fileHdr.btreeOrder - 1

def Ascending (n : IxNode K) : Prop := n.pairs.Pairwise (fun a b => IxKey.ixCompare a.1 b.1 < 0)

/-- The subtree on page `p`, all of whose leaves are `height` steps below. -/
def ShapeAt (ih : IxIndexHandle K) : (height : Nat) → (p parent : Int) → (keys : List K) →
    (leaves : List Int) → Prop
  | 0, p, parent, keys, leaves =>
      ∃ n, ih.pages p = some n ∧ n.parent = parent ∧ n.isLeaf = true ∧ Filled ih n ∧ Ascending n ∧
        keys = n.pairs.map Prod.fst ∧ leaves = [p]
  | height + 1, p, parent, keys, leaves =>
      ∃ (n : IxNode K) (kids : List (Kid K)), ih.pages p = some n ∧ n.parent = parent ∧
        n.isLeaf = false ∧ Filled ih n ∧
        (n.isRootPage = true → 2 ≤ n.getSize) ∧ Ascending n ∧ n.pairs = kids.map Kid.entry ∧
        (∀ c ∈ kids, ShapeAt ih height c.entry.2.pageNo p c.keys c.leaves ∧
          ∀ k ∈ c.keys, IxKey.ixCompare c.entry.1 k ≤ 0) ∧
        kids.IsChain (fun c d => ∀ k ∈ c.keys, IxKey.ixCompare k d.entry.1 < 0) ∧
        keys = n.pairs.map Prod.fst ++ kids.flatMap Kid.keys ∧ leaves = kids.flatMap Kid.leaves

def leafKeys (ih : IxIndexHandle K) (p : Int) : List K :=
  ((ih.pages p).map (fun n => n.pairs.map Prod.fst)).getD []

/-- The shape of a whole index: the tree below the root page, and its leaves in key order on
one circular list through page `1`, with `first_leaf_` and `last_leaf_` at the ends. -/
def TreeShape (ih : IxIndexHandle K) : Prop :=
  ∃ height keys leaves, ShapeAt ih height ih.fileHdr.rootPage (-1) keys leaves ∧ LeafChain ih leaves ∧
    (1 :: leaves).Nodup ∧ (leaves.flatMap (leafKeys ih)).Pairwise (fun a b => IxKey.ixCompare a b < 0)

end Spec

section Keys

def allKeys : {h : Nat} → Tree K Rid h → List K
  | 0, t => t.items.map Prod.fst
  | _ + 1, t => t.items.map Prod.fst ++ t.items.flatMap (fun e => allKeys e.2)

theorem allKeys_tok (t : Tree K Rid h) : ∀ k ∈ allKeys t, ∃ x ∈ flat t.items, x.key = k := by
  induction h with
  | zero =>
      intro k hk
      obtain ⟨e, he, rfl⟩ := List.mem_map.1 hk
      exact ⟨.ent e.1, by rw [flat_zero]; exact List.mem_map_of_mem he, rfl⟩
  | succ h ihh =>
      intro k hk
      rcases List.mem_append.1 hk with hk | hk
      · obtain ⟨e, he, rfl⟩ := List.mem_map.1 hk
        exact ⟨.sep e.1, List.mem_flatMap.2 ⟨e, he, by simp [flatItem]⟩, rfl⟩
      · obtain ⟨e, he, hk⟩ := List.mem_flatMap.1 hk
        obtain ⟨x, hx, rfl⟩ := ihh e.2 k hk
        exact ⟨x, List.mem_flatMap.2 ⟨e, he, List.mem_cons_of_mem _ hx⟩, rfl⟩

variable [LinearOrder K]

theorem allKeys_le (order : Nat) (ho : 2 ≤ order) (t : Tree K Rid h) (hk : ∀ e ∈ t.items, Sized order h e)
    (hs : Sorted (flat t.items)) : ∀ k ∈ allKeys t, ∃ y, Tok.ent y ∈ flat t.items ∧ k ≤ y := by
  induction h with
  | zero =>
      intro k hkt
      obtain ⟨e, he, rfl⟩ := List.mem_map.1 hkt
      exact ⟨e.1, by rw [flat_zero]; exact List.mem_map_of_mem he, le_rfl⟩
  | succ h ihh =>
      intro k hkt
      have hsub : ∀ e ∈ t.items, (Tok.sep e.1 :: flat (Tree.items e.2)).Sublist (flat t.items) := by
        intro e he
        obtain ⟨l, r, hlr⟩ := List.append_of_mem he
        rw [hlr, flat_append, flat_cons]
        exact (((List.sublist_append_left _ _).cons_cons _)).trans (List.sublist_append_right _ _)
      rcases List.mem_append.1 hkt with hkt | hkt
      · obtain ⟨e, he, rfl⟩ := List.mem_map.1 hkt
        obtain ⟨c, rest, hc⟩ := Tree.Sized.cons (t := e.2) (hk e he) ho
        obtain ⟨y, hy⟩ := exists_ent ho (Tree.items e.2) (by simp [hc]) (hk e he).2.2
        refine ⟨y, (hsub e he).subset (List.mem_cons_of_mem _ hy), ?_⟩
        exact List.rel_of_pairwise_cons (hs.sublist (hsub e he)) hy
      · obtain ⟨e, he, hkt⟩ := List.mem_flatMap.1 hkt
        obtain ⟨y, hy, hle⟩ :=
          ihh e.2 (hk e he).2.2 (hs.sublist ((List.sublist_cons_self _ _).trans (hsub e he))) k hkt
        exact ⟨y, (hsub e he).subset (List.mem_cons_of_mem _ hy), hle⟩

/-- A separator is above the stored keys before it, and so above all keys before it. -/
theorem seps_above (order : Nat) (ho : 2 ≤ order) (l : List (K × Tree K Rid h)) (hs : Sorted (flat l))
    (hk : ∀ e ∈ l, Sized order (h + 1) e) : l.Pairwise (fun c d => ∀ k ∈ allKeys c.2, k < d.1) := by
  induction l with
  | nil => exact List.Pairwise.nil
  | cons e l ihl =>
      rw [flat_cons] at hs
      obtain ⟨hse, hsl, hcross⟩ := sorted_append.1 (List.pairwise_cons.1 hs).2
      refine List.pairwise_cons.2 ⟨?_, ihl hsl (fun x hx => hk x (List.mem_cons_of_mem _ hx))⟩
      intro d hd k hkd
      obtain ⟨y, hy, hle⟩ := allKeys_le _ ho e.2 (hk e (by simp)).2.2 hse k hkd
      have hsep : Tok.sep d.1 ∈ flat l := List.mem_flatMap.2 ⟨d, hd, by simp [flatItem]⟩
      exact lt_of_le_of_lt hle (hcross (.ent y) hy (.sep d.1) hsep)

end Keys

section Shape

variable [LinearOrder K] [IxKey K] [LawfulIxKey K]

theorem ixCompare_le {a b : K} (hab : a ≤ b) : IxKey.ixCompare a b ≤ 0 := by
  have := LawfulIxKey.ixCompare_pos a b
  by_contra hc
  exact absurd (this.1 (by omega)) (not_lt.2 hab)

theorem pairs_ascending {n : IxNode K} {t : Tree K Rid h} (hn : n.pairs = t.pairs childRid)
    (hlt : t.items.Pairwise (fun a b => a.1 < b.1)) : Ascending n := by
  rw [Ascending, hn, Tree.pairs, List.pairwise_map]
  refine hlt.imp ?_
  intro a b hab
  rw [pairOf_fst, pairOf_fst, LawfulIxKey.ixCompare_neg]
  exact hab

theorem shapeAt_tree (t : Tree K Rid h) (parent : Int) (ho : 2 ≤ ih.fileHdr.btreeOrder)
    (hm : Mem ih (t.recs childRid parent)) (hs : Sorted (flat t.items))
    (hk : ∀ e ∈ t.items, Sized ih.fileHdr.btreeOrder h e)
    (hfill : parent ≠ -1 → ih.fileHdr.btreeOrder / 2 ≤ t.items.length ∧
      t.items.length < ih.fileHdr.btreeOrder)
    (hroot : parent = -1 → h = 0 ∨ 2 ≤ t.items.length) :
    ShapeAt ih h t.page parent (allKeys t) t.leaves := by
  induction h generalizing parent with
  | zero =>
      obtain ⟨n, hn, hpar, hleaf, hpairs⟩ := hm.get_of_mem (r := ⟨t.page, parent, true, t.pairs childRid⟩)
        (by simp [Tree.recs])
      have hsize : n.getSize = t.items.length := by rw [IxNode.getSize, hpairs, Tree.pairs, List.length_map]
      refine ⟨n, hn, hpar, hleaf, ?_, pairs_ascending hpairs (leaf_keys_lt t.items hs), ?_, rfl⟩
      · intro hr
        have := hfill (by simpa [IxNode.isRootPage, hpar] using hr)
        omega
      · rw [hpairs, pairs_zero, List.map_map]; rfl
  | succ h ihh =>
      obtain ⟨n, hn, hpar, hleaf, hpairs⟩ := hm.get_of_mem (r := ⟨t.page, parent, false, t.pairs childRid⟩)
        (by simp [Tree.recs])
      have hrange := hm.range ⟨t.page, parent, false, t.pairs childRid⟩ (by simp [Tree.recs])
      have hsize : n.getSize = t.items.length := by rw [IxNode.getSize, hpairs, Tree.pairs, List.length_map]
      have hlt := keys_lt ho t.items hs hk
      refine ⟨n, t.items.map (fun e => ⟨(e.1, childRid (Tree.page e.2)), allKeys e.2, Tree.leaves e.2⟩),
        hn, hpar, hleaf, ?_, ?_, pairs_ascending hpairs hlt, ?_, ?_, ?_, ?_, ?_⟩
      · intro hr
        have := hfill (by simpa [IxNode.isRootPage, hpar] using hr)
        omega
      · intro hr
        have := hroot (by simpa [IxNode.isRootPage, hpar] using hr)
        omega
      · rw [hpairs, Tree.pairs, List.map_map]; rfl
      · intro c hc
        obtain ⟨e, he, rfl⟩ := List.mem_map.1 hc
        obtain ⟨l, r, hlr⟩ := List.append_of_mem he
        rw [hlr, flat_append, flat_cons] at hs
        have hse := (sorted_append.1 hs).2.1
        obtain ⟨hlo, hhi, hkids⟩ := hk e he
        refine ⟨ihh e.2 t.page ?_ ?_ hkids (fun _ => ⟨hlo, hhi⟩) ?_, ?_⟩
        · refine hm.sublist ?_
          have hkids : kidRecs childRid t.page t.items =
              kidRecs childRid t.page l ++ (Tree.recs childRid t.page e.2 ++ kidRecs childRid t.page r) := by
            rw [hlr, kidRecs_append, kidRecs_cons]
          rw [Tree.recs.eq_1 childRid parent t, hkids]
          exact ((List.sublist_append_left _ _).trans (List.sublist_append_right _ _)).cons _
        · exact (sorted_append.1 (List.pairwise_cons.1 hse).2).1
        · intro hc
          simp only at hrange
          omega
        · intro k hk
          obtain ⟨x, hx, rfl⟩ := allKeys_tok e.2 k hk
          exact ixCompare_le (List.rel_of_pairwise_cons hse (List.mem_append_left _ hx))
      · rw [List.isChain_map]
        refine List.Pairwise.isChain ((seps_above _ ho t.items hs hk).imp ?_)
        intro c d hcd k hk
        exact (LawfulIxKey.ixCompare_neg _ _).2 (hcd k hk)
      · rw [hpairs, Tree.pairs, List.map_map, List.flatMap_map, allKeys]
        congr 1
      · rw [leaves_succ, List.flatMap_map]
        induction t.items with
        | nil => rfl
        | cons e l ihl => rw [kidLeaves_cons, List.flatMap_cons, ← ihl]

theorem Valid.treeShape {es : List (K × Rid)} (hv : Valid ih es) : TreeShape ih := by
  have hes := hv.sorted
  obtain ⟨h, t, hz, hf, rfl⟩ := hv
  have hord := hz.order
  have hm : Mem ih (t.recs childRid (-1)) := by simpa [zrecs, Ctx.recs] using hz.mem
  have hle : zleaves .top t = t.leaves := by simp [zleaves, Ctx.leftLeaves, Ctx.rightLeaves]
  have hch := hz.chain
  have hnd := hz.mem.leaves_nodup
  rw [hle] at hch hnd
  refine ⟨h, allKeys t, t.leaves, ?_, hch, hnd, ?_⟩
  · rw [hz.root]
    exact shapeAt_tree t (-1) (by omega) hm hz.toShape.items_sorted hz.kids
      (fun hc => absurd rfl hc) (fun _ => hf.1)
  · have hkeys : t.leaves.flatMap (leafKeys ih) = (ents t.items).map Prod.fst := by
      rw [← leafPairs_fst, ← leafPairs_snd, List.flatMap_map, List.map_flatMap]
      refine List.flatMap_congr ?_
      intro x hx
      obtain ⟨q, hq⟩ := leafPairs_recs childRid (-1) t x hx
      obtain ⟨n, hn, -, -, hp⟩ := hm.get_of_mem hq
      rw [leafKeys, show ih.pages x.1 = some n from hn, ← show n.pairs = x.2 from hp]
      rfl
    rw [hkeys, List.pairwise_map]
    exact hes.imp (fun hab => (LawfulIxKey.ixCompare_neg _ _).2 hab)

end Shape

section Reachable

variable [IxKey K]

/-- Every call of the sequence returns, and the index has its shape before and after it. -/
def KeepsShape (ih : IxIndexHandle K) (ops : List (IxOp K)) : Prop :=
  ∀ pre, pre <+: ops → ∃ flags ih', IxOp.execAll ih pre = .ok (flags, ih') ∧ TreeShape ih'

def StartsWithDelete (ops : List (IxOp K)) : Prop := ∃ key rid rest, ops = .delete key rid :: rest

omit [IxKey K] in
theorem neverRemovesLast_prefix [DecidableEq K] {m : IxMap K} {pre ops : List (IxOp K)} (hp : pre <+: ops)
    (hl : IxOp.NeverRemovesLast m ops) : IxOp.NeverRemovesLast m pre := by
  induction pre generalizing ops m with
  | nil => trivial
  | cons op pre ihp =>
      obtain ⟨rest, rfl⟩ := hp
      exact ⟨hl.1, ihp (List.prefix_append _ _) hl.2⟩

/-- `delete_entry` goes on to `adjust_root` even when it has removed nothing, and an empty
root leaf is then dropped. -/
theorem deleteEntry_fresh (order : Nat) (key : K) (rid : Option Rid) :
    ∃ ih', (emptyIndex K order).deleteEntry key rid = .ok (true, ih') ∧ ih'.fileHdr.rootPage = -1 ∧
      ih'.pages (-1) = none := by
  have hpage : (emptyIndex K order).pages 2 = some ⟨-1, true, 1, 1, [], []⟩ := rfl
  have hleaf : (emptyIndex K order).findLeafPage key =
    .ok (Tree.mk (K := K) (V := Rid) (h := 0) 2 []).page := rfl
  have hrem : IxNode.remove (⟨-1, true, 1, 1, [], []⟩ : IxNode K) key rid = ⟨-1, true, 1, 1, [], []⟩ := by
    simp [IxNode.remove, IxNode.getSize]
  have hfirst : (emptyIndex K order).maintainFirst 2 ⟨-1, true, 1, 1, [], []⟩ key =
      .ok (emptyIndex K order) := by
    rw [maintainFirst]
    split
    · rfl
    · rfl
  have hco : coalesceOrRedistribute (emptyIndex K order).fd2pageno (emptyIndex K order) 2 = .ok (true,
      { emptyIndex K order with
        fileHdr := { (emptyIndex K order).releaseNodeHandle.fileHdr with rootPage := -1 } }) := rfl
  refine ⟨{ emptyIndex K order with
      fileHdr := { (emptyIndex K order).releaseNodeHandle.fileHdr with rootPage := -1 } },
    deleteEntry_eq hleaf hpage ?_ hco, rfl, rfl⟩
  rw [hrem, Tree.page_mk, writeNode_same hpage]
  exact hfirst

theorem not_keepsShape_of_delete {order : Nat} {key : K} {rid : Option Rid} {rest : List (IxOp K)} :
    ¬ KeepsShape (emptyIndex K order) (.delete key rid :: rest) := by
  intro hkeep
  obtain ⟨flags, ih', hrun, height, keys, leaves, hshape, -⟩ := hkeep [.delete key rid] ⟨rest, rfl⟩
  obtain ⟨ih1, hdel, hroot, hnone⟩ := deleteEntry_fresh order key rid
  simp only [IxOp.execAll, IxOp.exec, hdel, ok_bind, pure_eq_ok, Except.ok.injEq, Prod.mk.injEq] at hrun
  obtain ⟨-, rfl⟩ := hrun
  rw [hroot] at hshape
  cases height with
  | zero =>
      obtain ⟨n, hn, -⟩ := hshape
      rw [hnone] at hn
      cases hn
  | succ height =>
      obtain ⟨n, kids, hn, -⟩ := hshape
      rw [hnone] at hn
      cases hn

/-- An index whose keys hold no NaN and no `-0.0` keeps its shape in every run that never removes
the last entry, unless the run starts with a delete on the fresh index. -/
theorem keepsShape_iff (L : IndexColumns) (ops : List (IxOp (OrderedKey L.toKeyColumns)))
    (hlast : IxOp.NeverRemovesLast IxMap.empty ops) :
    KeepsShape (newIndex _ L) ops ↔ ¬ StartsWithDelete ops := by
  constructor
  · rintro hkeep ⟨key, rid, rest, rfl⟩
    exact not_keepsShape_of_delete hkeep
  · intro hstart pre hpre
    cases pre with
    | nil => exact ⟨[], newIndex _ L, rfl, (newIndex_valid L).treeShape⟩
    | cons op pre =>
        obtain ⟨rest, rfl⟩ := hpre
        cases op with
        | delete key rid => exact absurd ⟨key, rid, pre ++ rest, rfl⟩ hstart
        | insert key value =>
            have hpl := neverRemovesLast_prefix (List.prefix_append (.insert key value :: pre) rest) hlast
            obtain ⟨ih1, hrun1, hs1⟩ := step_sim (.insert key value) (newIndex_sim L) trivial hpl.1
            obtain ⟨ih2, hrun2, es, hv, -⟩ := run_sim pre hs1 ⟨key, by simp [IxOp.spec, IxMap.empty]⟩ hpl.2
            have hrun : IxOp.execAll (newIndex _ L) (.insert key value :: pre) =
                .ok ((IxOp.specAll IxMap.empty (.insert key value :: pre)).1, ih2) := by
              simp [IxOp.execAll, hrun1, hrun2, IxOp.specAll]
            exact ⟨_, ih2, hrun, hv.treeShape⟩

theorem keepsShape_iff_float :
    IxOp.NeverRemovesLast IxMap.empty [.insert floatOne ⟨1, 0⟩, .delete floatTwo none] ∧
    (KeepsShape (newIndex _ floatIndex) [.insert floatOne ⟨1, 0⟩, .delete floatTwo none] ↔
      ¬ StartsWithDelete [.insert floatOne ⟨1, 0⟩, .delete floatTwo none]) := by
  have hlast : IxOp.NeverRemovesLast IxMap.empty [.insert floatOne ⟨1, 0⟩, .delete floatTwo none] :=
    ⟨fun h => absurd (h.2 floatOne) (by decide), fun h => absurd (h.2 floatOne) (by decide), trivial⟩
  exact ⟨hlast, keepsShape_iff floatIndex _ hlast⟩

/-- A delete on a fresh index removes nothing and leaves the index without a root page. -/
theorem delete_on_fresh_index_breaks_shape :
    IxOp.NeverRemovesLast IxMap.empty [.delete (intKey 1 0 0 0) none] ∧
      ¬ KeepsShape (createIndex intLayout) [.delete (intKey 1 0 0 0) none] := by
  refine ⟨⟨fun h => ?_, trivial⟩, not_keepsShape_of_delete⟩
  obtain ⟨k, hk⟩ := h.1
  exact hk rfl

def bothZeros : List (IxOp (RawKey floatColumn)) := [.insert zeroFloat ⟨1, 0⟩, .insert minusZero ⟨1, 1⟩]

theorem bothZeros_root : (IxOp.execAll (newIndex _ floatIndex) bothZeros).toOption.map (fun r =>
    (r.2.fileHdr.rootPage, (r.2.pages 2).map fun n => (n.isLeaf, n.pairs))) =
      some (2, some (true, [(minusZero, ⟨1, 1⟩), (zeroFloat, ⟨1, 0⟩)])) := by
  decide +kernel

/-- A leaf takes `0.0` and `-0.0`, which are one key in the order of the index. -/
theorem both_zeros_break_shape : ¬ KeepsShape (newIndex _ floatIndex) bothZeros := by
  intro hkeep
  obtain ⟨flags, ih', hrun, height, keys, leaves, hshape, -⟩ := hkeep bothZeros (List.prefix_refl _)
  have hroot := bothZeros_root
  rw [hrun] at hroot
  simp only [Except.toOption, Option.map_some, Option.some.injEq, Prod.mk.injEq] at hroot
  obtain ⟨hroot, hnode⟩ := hroot
  obtain ⟨node, hp, hnode⟩ := Option.map_eq_some_iff.1 hnode
  obtain ⟨hleaf, hpairs⟩ := Prod.mk.inj hnode
  rw [hroot] at hshape
  cases height with
  | zero =>
      obtain ⟨n, hn, -, -, -, hasc, -⟩ := hshape
      cases hp.symm.trans hn
      rw [Ascending, hpairs] at hasc
      exact absurd hasc (by decide +kernel)
  | succ height =>
      obtain ⟨n, kids, hn, -, hinner, -⟩ := hshape
      cases hp.symm.trans hn
      rw [hleaf] at hinner
      cases hinner

end Reachable

end Rmdb
