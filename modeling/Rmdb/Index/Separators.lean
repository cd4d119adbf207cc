import Rmdb.Index.Reachable

namespace Rmdb

open BPlus SepList IxIndexHandle IxManager

variable {K : Type} {ih ih' : IxIndexHandle K}

section Spec

variable [IxKey K]

inductive InTree (ih : IxIndexHandle K) : Int → Prop
  | root : InTree ih ih.fileHdr.rootPage
  | child {p : Int} {n : IxNode K} {i : Nat} (h : InTree ih p) (hn : ih.pages p = some n)
      (hleaf : n.isLeaf = false)
      (hi : i < n.getSize) : InTree ih (n.valueAt i)

/-- Key `i` of an internal node is the first key of its child `i`. -/
def SeparatorsExact (ih : IxIndexHandle K) : Prop :=
  ∀ p n, InTree ih p → ih.pages p = some n → n.isLeaf = false → ∀ i < n.getSize,
    ∃ c, ih.pages (n.valueAt i) = some c ∧ 0 < c.getSize ∧ c.getKey 0 = n.getKey i

/-- When the leaf `node` on page `p` loses a pair it is short, and the separator before it is set
anew or goes: it has a left sibling, or it and its only sibling become the root. -/
def Refitted (ih : IxIndexHandle K) (p : Int) (node : IxNode K) : Prop :=
  node.getSize - 1 < ih.fileHdr.btreeOrder / 2 ∧ ∃ parent, ih.pages node.parent = some parent ∧
    (0 < parent.findChild p ∨ parent.parent = -1 ∧ parent.getSize = 2 ∧
      ∃ sibling, ih.pages (parent.valueAt 1) = some sibling ∧
        node.getSize - 1 + sibling.getSize < ih.fileHdr.btreeOrder)

def IxOp.LosesFirst (ih : IxIndexHandle K) : IxOp K → Prop
  | .insert _ _ => False
  | .delete key rid => ∃ p node, ih.findLeafPage key = .ok p ∧ ih.pages p = some node ∧ node.parent ≠ -1 ∧
      IxKey.memcmp (node.getKey 0) key = 0 ∧ (rid = none ∨ rid = some (node.getRid 0)) ∧ ¬Refitted ih p node

end Spec

section Pages

variable [IxKey K] [LinearOrder K] {h : Nat}

omit [IxKey K] [LinearOrder K] in
theorem exists_split {α : Type} {l : List α} {i : Nat} (hi : i < l.length) :
    ∃ A e B, l = A ++ e :: B ∧ A.length = i :=
  ⟨l.take i, l[i], l.drop (i + 1), by simp, by rw [List.length_take]; omega⟩

omit [LinearOrder K] in
theorem kid_at {t : Tree K Rid (h + 1)} {n : IxNode K} {i : Nat} (hpairs : n.pairs = t.pairs childRid)
    (hi : i < n.getSize) :
    ∃ e ∈ t.items, n.valueAt i = Tree.page e.2 ∧ n.getKey i = e.1 := by
  rw [IxNode.getSize, hpairs, Tree.pairs, List.length_map] at hi
  obtain ⟨A, e, B, hsplit, rfl⟩ := exists_split hi
  have hn : n.pairs = A.map (pairOf childRid (h + 1)) ++ (e.1, childRid (Tree.page e.2)) :: B.map
      (pairOf childRid (h + 1)) := by
    rw [hpairs, Tree.pairs, hsplit, List.map_append, List.map_cons, pairOf_succ]
  refine ⟨e, by rw [hsplit]; exact List.mem_append_right _ List.mem_cons_self, ?_, ?_⟩
  · simpa using IxNode.valueAt_split hn
  · simpa using IxNode.getKey_split hn

theorem subtree_of_inTree {t : Tree K Rid h} (hz : Zip ih .top t) (hexact : t.Exact) {p : Int}
    (hp : InTree ih p) :
    ∃ (h' : Nat) (t' : Tree K Rid h')
    (parent : Int), t'.page = p ∧ t'.Exact ∧ Mem ih (t'.recs childRid parent) := by
  induction hp with
  | root =>
      refine ⟨h, t, -1, ?_, hexact, ?_⟩
      · rw [hz.root]
        rfl
      · simpa [zrecs, Ctx.recs] using hz.mem
  | @child p n i _ hn hleaf hi ihp =>
      obtain ⟨h', t', parent, rfl, hexact', hm⟩ := ihp
      obtain ⟨n', hn', -, hleaf', hpairs⟩ :=
        hm.get_of_mem (r := ⟨t'.page, parent, h' == 0, t'.pairs childRid⟩)
        (by simp [Tree.recs])
      cases hn.symm.trans hn'
      cases h' with
      | zero =>
          rw [hleaf] at hleaf'
          cases hleaf'
      | succ h' =>
          obtain ⟨e, he, hpage, -⟩ := kid_at hpairs hi
          refine ⟨h', e.2, t'.page, hpage.symm, (hexact' e he).2, ?_⟩
          refine hm.sublist (List.Sublist.cons _ ?_)
          obtain ⟨l, r, hsplit⟩ := List.append_of_mem he
          rw [hsplit, kidRecs_append, kidRecs_cons]
          exact (List.sublist_append_left _ _).trans (List.sublist_append_right _ _)

theorem separatorsExact {t : Tree K Rid h} (hz : Zip ih .top t) (hexact : t.Exact) : SeparatorsExact ih := by
  intro p n hp hn hleaf i hi
  obtain ⟨h', t', parent, rfl, hexact', hm⟩ := subtree_of_inTree hz hexact hp
  obtain ⟨n', hn', -, hleaf', hpairs⟩ := hm.get_of_mem (r := ⟨t'.page, parent, h' == 0, t'.pairs childRid⟩)
    (by simp [Tree.recs])
  cases hn.symm.trans hn'
  cases h' with
  | zero =>
      rw [hleaf] at hleaf'
      cases hleaf'
  | succ h' =>
      obtain ⟨e, he, hpage, hkey⟩ := kid_at hpairs hi
      obtain ⟨hfirst, -⟩ := hexact' e he
      obtain ⟨c, hc, -, -, hcpairs⟩ :=
        hm.get_of_mem (r := ⟨Tree.page e.2, t'.page, h' == 0, Tree.pairs childRid e.2⟩)
        (List.mem_cons_of_mem _ (mem_kidRecs he))
      obtain ⟨f, rest, hitems⟩ : ∃ f rest, Tree.items e.2 = f :: rest := by
        cases hitems : Tree.items e.2 with
        | nil =>
            rw [hitems] at hfirst
            cases hfirst
        | cons f rest => exact ⟨f, rest, rfl⟩
      rw [hitems, List.head?_cons, Option.map_some, Option.some.injEq] at hfirst
      refine ⟨c, by rw [hpage]; exact hc, ?_, ?_⟩
      · rw [IxNode.getSize, hcpairs, Tree.pairs, List.length_map, hitems]
        exact Nat.succ_pos _
      · rw [getKey_first hcpairs hitems, hfirst, hkey]

omit [IxKey K] in
theorem Shape.up_top {p : Int} {l r : List (K × Tree K Rid h)} {k : K} {up : Ctx K Rid (h + 1)}
    {t : Tree K Rid h} (hz : Shape ih (.frame p l k r up) t) (hup : up.parent = -1) : up = .top := by
  cases up with
  | top => rfl
  | frame q l' k' r' up' =>
      have hrange :=
        hz.mem.range ⟨q, up'.parent, false, gapPairs childRid l' k' p r'⟩ (by simp [zrecs, Ctx.recs])
      rw [Ctx.parent_frame] at hup
      simp only [hup] at hrange
      omega

theorem mended_of_refitted {ctx : Ctx K Rid 0} {t : Tree K Rid 0} {e : K × Item K Rid 0}
    {B : List (K × Item K Rid 0)} (hz : Zip ih ctx t) (hx : ZExact ctx t) (ht : t.items = e :: B)
    (hfit : ∀ node, ih.pages t.page = some node → node.parent ≠ -1 → Refitted ih t.page node) :
    Mended ih.fileHdr.btreeOrder ctx (Tree.mk t.page B) := by
  have hleaf : ∀ l : List (K × Item K Rid 0), (Tree.mk t.page l).Exact := fun _ _ _ => trivial
  have haround := (hx.2 e (by rw [ht]; rfl)).around
  obtain ⟨node, hnode, hparent, -, hpairs⟩ := hz.mem.hole
  have hsize : node.getSize - 1 = B.length := by
    rw [IxNode.getSize, hpairs, Tree.pairs, List.length_map, ht]
    rfl
  cases ctx with
  | top => exact .inl (zexact_top.2 (hleaf B))
  | frame p l k r up =>
      obtain ⟨m, hm, hmpar, -, hmpairs⟩ := hz.mem.above
      rw [Ctx.parent_frame] at hparent
      obtain ⟨hshort, parent, hpage, hcase⟩ := hfit node hnode (by have := hz.mem.above_range; omega)
      rw [hparent] at hpage
      cases hm.symm.trans hpage
      rw [hsize] at hshort hcase
      refine .inr (.inr ⟨hleaf B, haround, hshort, ?_⟩)
      rcases hcase with hpos | ⟨hroot, htwo, sibling, hsib, hlt⟩
      · refine .inl ?_
        rintro rfl
        have hfind : m.findChild t.page = 0 := IxNode.findChild_split (A := []) hmpairs (by simp)
        omega
      · by_cases hl : l = []
        · subst hl
          rw [IxNode.getSize, hmpairs, gapPairs] at htwo
          obtain ⟨c, rfl⟩ : ∃ c, r = [c] := by
            rw [← List.length_eq_one_iff]
            simpa using htwo
          have hval : m.valueAt 1 = Tree.page c.2 := by
            have hsplit : m.pairs = [(k, childRid t.page)] ++ (c.1, childRid (Tree.page c.2)) :: [] := hmpairs
            exact IxNode.valueAt_split hsplit
          obtain ⟨n', hn', -, -, hn'pairs⟩ :=
            hz.mem.get_of_mem (r := ⟨Tree.page c.2, p, true, Tree.pairs childRid c.2⟩)
            (by simp [zrecs, Ctx.recs, Tree.recs, kidRecs_cons])
          rw [hval] at hsib
          cases hn'.symm.trans hsib
          rw [IxNode.getSize, hn'pairs, Tree.pairs, List.length_map] at hlt
          exact .inr ⟨hz.toShape.up_top (hmpar ▸ hroot), c, rfl, hlt⟩
        · exact .inl hl

end Pages

section Step

variable [LinearOrder K] [DecidableEq K] [IxKey K] [LawfulIxKey K] {es es' : List (K × Rid)}
  {m : IxMap K} {op : IxOp K} {flag : Bool}

omit [DecidableEq K] [LawfulIxKey K] in
theorem Valid.unique (h : Valid ih es) (h' : Valid ih es') : es = es' := by
  obtain ⟨end_, hend, hscan⟩ := scan_spec h
  obtain ⟨end', hend', hscan'⟩ := scan_spec h'
  cases hend.symm.trans hend'
  have hall := hscan (es.length + es'.length) (by omega)
  rw [hscan' (es.length + es'.length) (by omega)] at hall
  exact (Except.ok.inj hall).symm

def Fitted (ih : IxIndexHandle K) : Prop := ∃ es, ValidIf ih es True

omit [DecidableEq K] [LawfulIxKey K] in
theorem Fitted.separatorsExact (h : Fitted ih) : SeparatorsExact ih := by
  obtain ⟨es, H, t, hz, -, -, hexact⟩ := h
  exact Rmdb.separatorsExact hz (hexact trivial)

theorem Fitted.delete {key : K} {rid : Option Rid} (hfit : Fitted ih) (hs : Sim ih m)
    (hleft : ∃ k, ((IxOp.delete key rid).spec m).2 k ≠ none) (hkeeps : ¬(IxOp.delete key rid).LosesFirst ih)
    (hrun : ih.deleteEntry key rid = .ok (flag, ih')) : Fitted ih' := by
  obtain ⟨es, hv⟩ := hfit
  obtain ⟨es', hv', hm⟩ := hs
  obtain rfl := hv'.unique hv.valid
  rcases deleteEntry_exact key rid hv (Sim.entries_ne hm (IxOp.served_of_left hleft)) with
    ⟨pre, post, -, -, -, ih1, hrun1, hv1⟩ | ⟨pre, r, post, hes, hpre, hpost, herase, hkeep⟩
  · cases hrun.symm.trans hrun1
    exact ⟨_, hv1⟩
  by_cases hrid : rid = none ∨ rid = some r
  · have hkey : m key = some r := (hm key r).1 (by rw [hes]; simp)
    have hne : pre ++ post ≠ [] := by
      intro hnil
      obtain ⟨rfl, rfl⟩ := List.append_eq_nil_iff.1 hnil
      obtain ⟨k, hk⟩ := hleft
      simp only [IxOp.spec, hkey, if_pos hrid] at hk
      obtain ⟨v, hv⟩ := Option.ne_none_iff_exists'.1 hk
      have :=
        (erase_mem (show ∀ e ∈ [], _ from (by simp)) (show ∀ e ∈ [], _ from (by simp))
          (by rw [hes] at hm; exact hm) k v).2 hv
      cases this
    obtain ⟨ctx, t, A, B, ih1, hfind, hz, hx, ht, hrun1, hv1⟩ := herase hrid hne
    cases hrun.symm.trans hrun1
    refine ⟨_, hv1.imp fun _ => ?_⟩
    obtain ⟨node, hnode, -, -, hpairs⟩ := hz.mem.hole
    cases A with
    | cons a A =>
        -- the first pair of the leaf stays
        refine .inl ⟨fun _ _ => trivial, fun e he => (hx trivial).2 e ?_⟩
        rw [ht]
        exact he
    | nil =>
        rw [List.nil_append] at ht
        have hfirst : node.pairs = [] ++ (key, r) :: B.map val := by
          rw [hpairs, pairs_zero, ht, List.map_cons, val_ofVal]
          rfl
        refine mended_of_refitted hz (hx trivial) ht fun node' hnode' hparent => ?_
        cases hnode.symm.trans hnode'
        by_contra hnot
        refine hkeeps ⟨t.page, node, hfind, hnode, hparent, ?_, ?_, hnot⟩
        · rw [LawfulIxKey.memcmp_zero]
          exact IxNode.getKey_split hfirst
        · have hr : node.getRid 0 = r := IxNode.getRid_split hfirst
          rw [hr]
          exact hrid
  · obtain ⟨ih1, hrun1, hv1⟩ := hkeep hrid
    cases hrun.symm.trans hrun1
    exact ⟨_, hv1⟩

theorem Fitted.exec (hfit : Fitted ih) (hs : Sim ih m) (hleft : ∃ k, (op.spec m).2 k ≠ none)
    (hkeeps : ¬op.LosesFirst ih) (hrun : op.exec ih = .ok (flag, ih')) : Fitted ih' := by
  cases op with
  | insert key value =>
      obtain ⟨es, hv⟩ := hfit
      rcases insertEntry_exact key value hv
        with ⟨pre, post, r, leaf, -, hins⟩ | ⟨pre, post, leaf, ih1, -, -, -, hins, hv1⟩
      · rw [IxOp.exec, hins] at hrun
        cases hrun
        exact ⟨es, hv⟩
      · rw [IxOp.exec, hins] at hrun
        cases hrun
        exact ⟨_, hv1⟩
  | delete key rid => exact hfit.delete hs hleft hkeeps hrun

end Step

section Run

variable {L : KeyLayout} {ops : List (IxOp (Key L))}

/-- No call of the sequence loses the first pair of a leaf. -/
def KeepsFirsts : IxIndexHandle (Key L) → List (IxOp (Key L)) → Prop
  | _, [] => True
  | ih, op :: ops => ¬op.LosesFirst ih ∧ ∀ flag ih', op.exec ih = .ok (flag, ih') → KeepsFirsts ih' ops

theorem fitted_run {ih : IxIndexHandle (Key L)} {m : IxMap (Key L)} (hs : Sim ih m) (hfit : Fitted ih)
    (hops : IxOp.NeverEmpties m ops) (hkeeps : KeepsFirsts ih ops) {pre : List (IxOp (Key L))}
    (hpre : pre <+: ops) :
    ∃ flags ih', IxOp.execAll ih pre = .ok (flags, ih') ∧ Fitted ih' := by
  induction pre generalizing ih m ops with
  | nil => exact ⟨[], ih, rfl, hfit⟩
  | cons op pre ihp =>
      obtain ⟨rest, rfl⟩ := hpre
      obtain ⟨hleft, hrest⟩ := hops
      obtain ⟨ih1, hrun1, hs1⟩ := step_sim op hs (IxOp.served_of_left hleft) fun h => by
        obtain ⟨k, hk⟩ := hleft
        exact hk (h.2 k)
      obtain ⟨flags, ih2, hrun2, hfit2⟩ :=
        ihp hs1 (hfit.exec hs hleft hkeeps.1 hrun1) hrest (hkeeps.2 _ _ hrun1)
        (List.prefix_append pre rest)
      exact ⟨(op.spec m).1 :: flags, ih2, by simp [IxOp.execAll, hrun1, hrun2], hfit2⟩

/-- The separators are exact in every state of a run in which no delete loses the first pair of a leaf. -/
theorem separatorsExact_of_keepsFirsts (hops : IxOp.NeverEmpties IxMap.empty ops)
    (hkeeps : KeepsFirsts (createIndex L) ops) :
    ∀ pre, pre <+: ops → ∃ flags ih', IxOp.execAll (createIndex L) pre = .ok (flags, ih') ∧
      SeparatorsExact ih' := by
  intro pre hpre
  obtain ⟨flags, ih', hrun, hfit⟩ := fitted_run (createIndex_sim L) ⟨[], createIndex_exact L⟩ hops hkeeps hpre
  exact ⟨flags, ih', hrun, hfit.separatorsExact⟩

theorem separatorsExact_int :
    IxOp.NeverEmpties IxMap.empty [.insert (intKey 2 0 0 0) ⟨1, 0⟩, .insert (intKey 1 0 0 0) ⟨1, 1⟩] ∧
    KeepsFirsts (createIndex intLayout) [.insert (intKey 2 0 0 0) ⟨1, 0⟩, .insert (intKey 1 0 0 0) ⟨1, 1⟩] ∧
    ∀ pre, pre <+: [.insert (intKey 2 0 0 0) ⟨1, 0⟩, .insert (intKey 1 0 0 0) ⟨1, 1⟩] →
      ∃ flags ih', IxOp.execAll (createIndex intLayout) pre = .ok (flags, ih') ∧ SeparatorsExact ih' := by
  have hops : IxOp.NeverEmpties IxMap.empty [.insert (intKey 2 0 0 0) ⟨1, 0⟩,
      .insert (intKey 1 0 0 0) ⟨1, 1⟩] :=
    ⟨⟨intKey 2 0 0 0, by decide⟩, ⟨intKey 2 0 0 0, by decide⟩, trivial⟩
  have hkeeps : KeepsFirsts (createIndex intLayout) [.insert (intKey 2 0 0 0) ⟨1, 0⟩,
      .insert (intKey 1 0 0 0) ⟨1, 1⟩] :=
    ⟨id, fun _ _ _ => ⟨id, fun _ _ _ => trivial⟩⟩
  exact ⟨hops, hkeeps, separatorsExact_of_keepsFirsts hops hkeeps⟩

/-- An index over one `CHAR(512)` column, with six entries to a page. -/
def wideLayout : KeyLayout := ⟨[(.string, 512)], by simp, by decide⟩

def wideKey (b : UInt8) : Key wideLayout :=
  ⟨b :: List.replicate 511 0, by rw [List.length_cons, List.length_replicate]; rfl⟩

/-- The sixth entry splits the root leaf, and then the second leaf loses its first entry. -/
def staleSeparator : List (IxOp (Key wideLayout)) :=
  [1, 2, 3, 4, 5, 6, 7].map (fun b => .insert (wideKey b) ⟨1, b.toNat⟩) ++ [.delete (wideKey 4) none]

/-- The root is page 4, and its second child page 3. -/
theorem staleSeparator_root : (IxOp.execAll (createIndex wideLayout) staleSeparator).toOption.map (fun r =>
      (r.2.fileHdr.rootPage, (r.2.pages 4).map fun n => (n.isLeaf, n.getSize, n.valueAt 1))) =
        some (4, some (false, 2, 3)) := by
  decide +kernel

theorem staleSeparator_keys : (IxOp.execAll (createIndex wideLayout) staleSeparator).toOption.map (fun r =>
      ((r.2.pages 4).map fun n => n.getKey 1, (r.2.pages 3).map fun n => n.getKey 0)) =
    some (some (wideKey 4), some (wideKey 5)) := by
  decide +kernel

theorem staleSeparator_not_exact : IxOp.NeverEmpties IxMap.empty staleSeparator ∧
    ∃ flags ih, IxOp.execAll (createIndex wideLayout) staleSeparator = .ok (flags, ih) ∧
      ¬SeparatorsExact ih := by
  have hops : IxOp.NeverEmpties IxMap.empty staleSeparator := by
    refine ⟨?_, ?_, ?_, ?_, ?_, ?_, ?_, ?_, trivial⟩ <;> exact ⟨wideKey 1, by decide +kernel⟩
  obtain ⟨ih, hrun, -⟩ := sim_of_neverEmpties (createIndex_sim wideLayout) hops
  refine ⟨hops, _, ih, hrun, fun hexact => ?_⟩
  have hroot := staleSeparator_root
  have hkeys := staleSeparator_keys
  rw [hrun] at hroot hkeys
  simp only [Except.toOption, Option.map_some, Option.some.injEq, Prod.mk.injEq] at hroot hkeys
  obtain ⟨hroot, hnode⟩ := hroot
  obtain ⟨hsep, hchild⟩ := hkeys
  obtain ⟨node, hp, hnode⟩ := Option.map_eq_some_iff.1 hnode
  obtain ⟨child, hq, hkey⟩ := Option.map_eq_some_iff.1 hchild
  rw [hp, Option.map_some, Option.some.injEq] at hsep
  simp only [Prod.mk.injEq] at hnode
  obtain ⟨hleaf, hsize, hval⟩ := hnode
  have hin : InTree ih 4 := hroot ▸ .root
  obtain ⟨c, hc, -, hfirst⟩ := hexact 4 node hin hp hleaf 1 (by omega)
  rw [hval] at hc
  cases hq.symm.trans hc
  rw [hkey, hsep] at hfirst
  exact absurd hfirst (by decide +kernel)

end Run

end Rmdb
