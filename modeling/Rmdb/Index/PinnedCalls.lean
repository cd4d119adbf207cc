import Rmdb.Index.PinBalance
import Rmdb.Storage.PinCounts

namespace Rmdb

open BPlus SepList IxIndexHandle IxManager Traced Pins

variable {K : Type} {ih ih' : IxIndexHandle K} {leaf : Int} {node : IxNode K} {key : K}

structure AtLeaf [IxKey K] (ih : IxIndexHandle K) (key : K) (leaf : Int) (node : IxNode K) : Prop where
  find : ih.findLeafPage key = .ok leaf
  page : ih.pages leaf = some node
  isLeaf : node.isLeaf = true
  fresh : leaf ≠ ih.fd2pageno
  parent : node.parent ≠ leaf
  parentFresh : node.parent ≠ ih.fd2pageno

theorem Valid.atLeaf [LinearOrder K] [IxKey K] [LawfulIxKey K] {es : List (K × Rid)}
    (hv : Valid ih es) (k : K) :
    ∃ leaf node, AtLeaf ih k leaf node ∧ (node.parent ≠ -1 → 1 < es.length) := by
  obtain ⟨ctx, t, hfind, hz, hf, -, rfl⟩ := findLeafPage_spec k hv
  obtain ⟨n, hn, hpar, hl, -⟩ := hz.mem.hole
  have hrange : 2 ≤ t.page ∧ t.page < ih.fd2pageno :=
    hz.mem.range ⟨t.page, ctx.parent, 0 == 0, t.pairs childRid⟩ (by simp [zrecs, Tree.recs])
  refine ⟨t.page, n, ⟨hfind, hn, hl, hrange.2.ne, ?_, ?_⟩, ?_⟩
  · rw [hpar]
    cases ctx with
    | top =>
        have htop : (Ctx.top : Ctx K Rid 0).parent = -1 := rfl
        omega
    | frame p l k' r up =>
        rintro hp
        obtain ⟨m, hm, -, hinner, -⟩ := hz.mem.above
        have heq : p = t.page := hp
        rw [heq, hn] at hm
        cases hm
        rw [hl] at hinner
        cases hinner
  · rw [hpar]
    cases ctx with
    | top =>
        have htop : (Ctx.top : Ctx K Rid 0).parent = -1 := rfl
        omega
    | frame p l k' r up => exact (hz.mem.above_range).2.ne
  · rw [hpar]
    cases ctx with
    | top => exact fun h => absurd rfl h
    | frame p l k' r up =>
        intro _
        have hlow := hf.1
        have hord := hz.order
        simp only [Ctx.Low] at hlow
        simp only [zents, ents_zero, List.length_append, List.length_map]
        omega

namespace IxNode

variable [IxKey K]

@[simp] theorem insert_parent (n : IxNode K) (k : K) (v : Rid) : (n.insert k v).parent = n.parent := by
  rw [insert]
  split <;> rfl

@[simp] theorem insert_isLeaf (n : IxNode K) (k : K) (v : Rid) : (n.insert k v).isLeaf = n.isLeaf := by
  rw [insert]
  split <;> rfl

@[simp] theorem remove_parent (n : IxNode K) (k : K) (rid : Option Rid) :
    (n.remove k rid).parent = n.parent := by
  rw [remove]
  split <;> rfl

@[simp] theorem remove_isLeaf (n : IxNode K) (k : K) (rid : Option Rid) :
    (n.remove k rid).isLeaf = n.isLeaf := by
  rw [remove]
  split <;> rfl

end IxNode

namespace IxPins

variable [IxKey K] {o : Pins Int} {value : Rid} {rid : Option Rid}

theorem restamped_write {n : IxNode K} (h : AtLeaf ih key leaf node) (hn : n.parent = node.parent) :
    Restamped (ih.writeNode leaf n) leaf n key ↔ Restamped ih leaf n key := by
  have hne : n.parent ≠ leaf := by
    rw [hn]
    exact h.parent
  have hpages : (ih.writeNode leaf n).pages n.parent = ih.pages n.parent := Function.update_of_ne hne ..
  rw [Restamped, Restamped, hpages]

section Insert

theorem insertEntry_result (hfind : ih.findLeafPage key = .ok leaf) :
    (insertEntry ih key value).result = ih.insertEntry key value := by
  simp [insertEntry, IxIndexHandle.insertEntry, findLeafPage_result hfind, hfind, -writeNode_fileHdr]

theorem neat_insertEntry (h : AtLeaf ih key leaf node)
    (hgood : (node.insert key value).getSize = node.getSize ∨
      node.parent = -1 ∨ ((node.insert key value).getSize ≠ ih.fileHdr.btreeOrder ∧
        ¬Restamped ih leaf (node.insert key value) key)) :
    Neat o (insertEntry ih key value) fun _ o' => o' = o := by
  refine .bind ((neat_findLeafPage key).mono fun leaf' o1 ho1 => ?_)
  obtain ⟨hfind, rfl⟩ := ho1
  obtain rfl : leaf = leaf' := Except.ok.inj (h.find.symm.trans hfind)
  refine .bind (neat_read pin_pos_self fun node' hnode' => ?_)
  obtain rfl : node = node' := Option.some.inj (h.page.symm.trans (page_of_fetch hnode'))
  refine .ite (fun _ => .bind (neat_unpin (.pure unpin_pin))) fun hgrown => ?_
  have hsame : ¬Restamped (ih.writeNode leaf (node.insert key value)) leaf (node.insert key value) key := by
    rw [restamped_write h (IxNode.insert_parent ..)]
    rcases hgood with hgood | hgood | hgood
    · exact absurd hgood hgrown
    · exact fun hr => hr.2.1 ((IxNode.insert_parent ..).trans hgood)
    · exact hgood.2
  refine .bind ((neat_maintainFirst (Function.update_self ..) pin_pos_self hsame).mono fun ih1 o1 ho1 => ?_)
  obtain ⟨rfl, rfl⟩ := ho1
  refine .ite (fun hfull => ?_) fun _ => .bind (neat_unpin (.pure unpin_pin))
  have hroot : node.parent = -1 := by
    rcases hgood with hgood | hgood | hgood
    · exact absurd hgood hgrown
    · exact hgood
    · exact absurd hfull hgood.1
  have hpage : (ih.writeNode leaf (node.insert key value)).pages leaf = some (node.insert key value) :=
    Function.update_self ..
  refine .bind ((neat_split hpage ((IxNode.insert_isLeaf ..).trans h.isLeaf) h.fresh
    pin_pos_self).mono fun r o1 ho1 => ?_)
  obtain ⟨-, rfl, n', hn', hparent⟩ := ho1
  refine .bind (neat_read pin_pos_self fun newNode _ => .bind ((neat_insertIntoParent_root _ hn'
    (hparent.trans ((IxNode.insert_parent ..).trans hroot))
      (pin_pos pin_pos_self) pin_pos_self).mono fun ih2 o1 ho1 => ?_))
  subst ho1
  exact .bind (neat_unpin (.bind (neat_unpin (.pure (by rw [unpin_pin, unpin_pin])))))

theorem nets_insertEntry (h : AtLeaf ih key leaf node)
    (hgrown : (node.insert key value).getSize ≠ node.getSize)
    (hstamp : Restamped ih leaf (node.insert key value) key) :
    Nets (insertEntry ih key value) fun _ n => 0 < n := by
  refine .bind ((nets_findLeafPage key).mono fun leaf' n1 hn1 => ?_)
  obtain ⟨hfind, rfl⟩ := hn1
  obtain rfl : leaf = leaf' := Except.ok.inj (h.find.symm.trans hfind)
  refine .bind (nets_read fun node' hnode' => ?_)
  obtain rfl : node = node' := Option.some.inj (h.page.symm.trans (page_of_fetch hnode'))
  refine .ite (fun hsame => absurd hsame hgrown) fun _ => ?_
  refine .bind ((nets_maintainFirst (Function.update_self ..)).mono fun ih1 n2 hn2 => ?_)
  have hone := hn2.2 ((restamped_write h (IxNode.insert_parent ..)).2 hstamp)
  refine .ite (fun _ => ?_) fun _ => .bind (nets_unpin (.pure (by omega)))
  refine .bind (nets_split.mono fun r n3 hn3 =>
    .bind (nets_read fun newNode _ => .bind ((nets_insertIntoParent _ _ _ _).mono
    fun ih2 n4 hn4 => .bind (nets_unpin (.bind (nets_unpin (.pure ?_)))))))
  omega

theorem bare_insertEntry (h : AtLeaf ih key leaf node)
    (hgrown : (node.insert key value).getSize ≠ node.getSize) (hroot : node.parent ≠ -1)
    (hfull : (node.insert key value).getSize = ih.fileHdr.btreeOrder)
    (hsame : ¬Restamped ih leaf (node.insert key value) key) :
    Bare Pins.zero (insertEntry ih key value) := by
  refine .bind ((neat_findLeafPage key).mono fun leaf' o1 ho1 => ?_)
  obtain ⟨hfind, rfl⟩ := ho1
  obtain rfl : leaf = leaf' := Except.ok.inj (h.find.symm.trans hfind)
  refine .bind (neat_read pin_pos_self fun node' hnode' => ?_)
  obtain rfl : node = node' := Option.some.inj (h.page.symm.trans (page_of_fetch hnode'))
  rw [← restamped_write h (IxNode.insert_parent ..)] at hsame
  simp only [if_neg hgrown]
  refine .bind ((neat_maintainFirst (Function.update_self ..) pin_pos_self hsame).mono fun ih1 o1 ho1 => ?_)
  obtain ⟨rfl, rfl⟩ := ho1
  have hfull' : (node.insert key value).getSize =
    (ih.writeNode leaf (node.insert key value)).fileHdr.btreeOrder := hfull
  simp only [if_pos hfull']
  have hpage : (ih.writeNode leaf (node.insert key value)).pages leaf = some (node.insert key value) :=
    Function.update_self ..
  refine .bind ((neat_split hpage ((IxNode.insert_isLeaf ..).trans h.isLeaf) h.fresh
    pin_pos_self).mono fun r o1 ho1 => ?_)
  obtain ⟨hr, rfl, n', hn', hparent⟩ := ho1
  rw [IxNode.insert_parent] at hparent
  refine .bind (neat_read pin_pos_self fun newNode _ => .first (bare_insertIntoParent _ hn' (hparent ▸ hroot)
    (pin_pos pin_pos_self) pin_pos_self ?_))
  have hnew : node.parent ≠ r.1 := hr ▸ h.parentFresh
  rw [hparent, pin_of_ne hnew, pin_of_ne h.parent]
  rfl

end Insert

section Delete

theorem deleteEntry_result (hfind : ih.findLeafPage key = .ok leaf) :
    (deleteEntry ih key rid).result = ih.deleteEntry key rid := by
  simp [deleteEntry, IxIndexHandle.deleteEntry, findLeafPage_result hfind, hfind]

/-- The root leaf is unpinned twice when its last pair goes. -/
theorem neat_deleteEntry_root (h : AtLeaf ih key leaf node) (hroot : node.parent = -1) :
    Neat o (deleteEntry ih key rid) fun _ o' => o' = if (node.remove key rid).getSize = 0
    then o.unpin leaf else o := by
  refine .bind ((neat_findLeafPage key).mono fun leaf' o1 ho1 => ?_)
  obtain ⟨hfind, rfl⟩ := ho1
  obtain rfl : leaf = leaf' := Except.ok.inj (h.find.symm.trans hfind)
  refine .bind (neat_read pin_pos_self fun node' hnode' => ?_)
  obtain rfl : node = node' := Option.some.inj (h.page.symm.trans (page_of_fetch hnode'))
  have hparent : (node.remove key rid).parent = -1 := (IxNode.remove_parent ..).trans hroot
  refine .bind ((neat_maintainFirst (Function.update_self ..) pin_pos_self fun hr =>
    hr.2.1 hparent).mono fun ih1 o1 ho1 => ?_)
  obtain ⟨rfl, rfl⟩ := ho1
  have hpage : (ih.writeNode leaf (node.remove key rid)).pages leaf = some (node.remove key rid) :=
    Function.update_self ..
  have hend : Neat (o.pin leaf)
      (coalesceOrRedistribute (ih.writeNode leaf (node.remove key rid)).fd2pageno
        (ih.writeNode leaf (node.remove key rid)) leaf)
      fun _ o' => o' = if (node.remove key rid).getSize = 0 then o else o.pin leaf := by
    cases (ih.writeNode leaf (node.remove key rid)).fd2pageno with
    | zero => exact .lift fun _ => nofun
    | succ fuel =>
        refine .bind (neat_read pin_pos_self fun n hn => ?_)
        obtain rfl : _ = n := Option.some.inj (hpage.symm.trans (page_of_fetch hn))
        refine .ite (fun _ => ?_) fun hne => absurd (decide_eq_true hparent) hne
        refine .bind (neat_read pin_pos_self fun n hn => ?_)
        obtain rfl : _ = n := Option.some.inj (hpage.symm.trans (page_of_fetch hn))
        refine .ite (fun _ => .ite (fun hzero => ?_) fun hzero => .pure (by rw [if_neg hzero])) fun hinner =>
          absurd ((IxNode.remove_isLeaf ..).trans h.isLeaf) hinner
        refine .bind (.bind (neat_unpin (.pure (.pure ?_))))
        rw [if_pos hzero, unpin_pin]
  refine .bind (hend.mono fun r o1 ho1 => .bind (neat_unpin (.pure ?_)))
  rw [ho1]
  split
  · rfl
  · exact unpin_pin

theorem neat_deleteEntry (h : AtLeaf ih key leaf node) (hroot : node.parent ≠ -1)
    (hsize : ih.fileHdr.btreeOrder / 2 ≤ (node.remove key rid).getSize)
    (hsame : ¬Restamped ih leaf (node.remove key rid) key) :
    Neat o (deleteEntry ih key rid) fun _ o' => o' = o := by
  refine .bind ((neat_findLeafPage key).mono fun leaf' o1 ho1 => ?_)
  obtain ⟨hfind, rfl⟩ := ho1
  obtain rfl : leaf = leaf' := Except.ok.inj (h.find.symm.trans hfind)
  refine .bind (neat_read pin_pos_self fun node' hnode' => ?_)
  obtain rfl : node = node' := Option.some.inj (h.page.symm.trans (page_of_fetch hnode'))
  rw [← restamped_write h (IxNode.remove_parent ..)] at hsame
  have hparent : (node.remove key rid).parent ≠ -1 := by rwa [IxNode.remove_parent]
  refine .bind ((neat_maintainFirst (Function.update_self ..) pin_pos_self hsame).mono fun ih1 o1 ho1 => ?_)
  obtain ⟨rfl, rfl⟩ := ho1
  have hpage : (ih.writeNode leaf (node.remove key rid)).pages leaf = some (node.remove key rid) :=
    Function.update_self ..
  have hend : Neat (o.pin leaf)
      (coalesceOrRedistribute (ih.writeNode leaf (node.remove key rid)).fd2pageno
        (ih.writeNode leaf (node.remove key rid)) leaf)
      fun _ o' => o' = o.pin leaf := by
    cases (ih.writeNode leaf (node.remove key rid)).fd2pageno with
    | zero => exact .lift fun _ => nofun
    | succ fuel =>
        refine .bind (neat_read pin_pos_self fun n hn => ?_)
        obtain rfl : _ = n := Option.some.inj (hpage.symm.trans (page_of_fetch hn))
        exact .ite (fun hr => absurd (of_decide_eq_true hr) hparent) fun _ =>
          .ite (fun _ => .pure rfl) fun hlt =>
          absurd hsize hlt
  refine .bind (hend.mono fun r o1 ho1 => .bind (neat_unpin (.pure ?_)))
  rw [ho1]
  exact unpin_pin

theorem nets_deleteEntry (h : AtLeaf ih key leaf node) (hroot : node.parent ≠ -1)
    (hbad : (node.remove key rid).getSize < ih.fileHdr.btreeOrder / 2 ∨
      Restamped ih leaf (node.remove key rid) key) :
    Nets (deleteEntry ih key rid) fun r n => r.2.fileHdr.rootPage = -1 ∨ 0 < n := by
  refine .bind ((nets_findLeafPage key).mono fun leaf' n1 hn1 => ?_)
  obtain ⟨hfind, rfl⟩ := hn1
  obtain rfl : leaf = leaf' := Except.ok.inj (h.find.symm.trans hfind)
  refine .bind (nets_read fun node' hnode' => ?_)
  obtain rfl : node = node' := Option.some.inj (h.page.symm.trans (page_of_fetch hnode'))
  rw [← restamped_write h (IxNode.remove_parent ..)] at hbad
  have hpage : (ih.writeNode leaf (node.remove key rid)).pages leaf = some (node.remove key rid) :=
    Function.update_self ..
  have hparent : (node.remove key rid).parent ≠ -1 := by rwa [IxNode.remove_parent]
  by_cases hstamp : Restamped (ih.writeNode leaf (node.remove key rid)) leaf (node.remove key rid) key
  · refine .bind ((nets_maintainFirst hpage).mono fun ih1 n2 hn2 =>
      .bind ((nets_coalesceOrRedistribute _).mono
      fun r n3 hn3 => .bind (nets_unpin (.pure (hn3.imp id fun hn3 => ?_)))))
    have := hn2.2 hstamp
    have := hn3.1
    omega
  · have hfirst : Nets (maintainFirst (ih.writeNode leaf (node.remove key rid)) leaf
      (node.remove key rid) key) fun ih1 n =>
        ih1 = ih.writeNode leaf (node.remove key rid) ∧ 0 ≤ n := fun ih1 hrun => by
      refine ⟨?_, (nets_maintainFirst hpage ih1 hrun).1⟩
      rw [maintainFirst_result] at hrun
      exact maintainFirst_same hpage hstamp hrun
    refine .bind (hfirst.mono fun ih1 n2 hn2 => ?_)
    obtain ⟨rfl, hn2⟩ := hn2
    refine .bind ((nets_coalesceOrRedistribute _).mono fun r n3 hn3 =>
      .bind (nets_unpin (.pure (hn3.imp id fun hn3 => ?_))))
    have := hn3.2 _ hpage hparent (hbad.resolve_right hstamp)
    omega

end Delete

section Reads

theorem neat_getValue : Neat o (getValue ih key) fun _ o' => o' = o := by
  refine .bind ((neat_findLeafPage key).mono fun leaf o1 ho1 => ?_)
  obtain ⟨-, rfl⟩ := ho1
  exact .bind (neat_read pin_pos_self fun n _ => .bind (neat_unpin (.pure unpin_pin)))

omit [IxKey K] in
theorem neat_boundAt (pos : Nat) : Neat (o.pin leaf) (boundAt ih leaf node pos) fun _ o' => o' = o := by
  refine .bind (neat_touch pin_pos_self (.ite (fun _ => ?_) fun _ => .bind (neat_unpin (.pure unpin_pin))))
  refine .bind (neat_fetch fun next _ => .bind (neat_unpin (.bind (neat_unpin (.pure ?_)))))
  rw [unpin_pin_pin, unpin_pin]

theorem neat_lowerBound : Neat o (lowerBound ih key) fun _ o' => o' = o := by
  refine .bind ((neat_findLeafPage key).mono fun leaf o1 ho1 => ?_)
  obtain ⟨-, rfl⟩ := ho1
  exact .bind (neat_read pin_pos_self fun n _ => neat_boundAt _)

theorem neat_upperBound : Neat o (upperBound ih key) fun _ o' => o' = o := by
  refine .bind ((neat_findLeafPage key).mono fun leaf o1 ho1 => ?_)
  obtain ⟨-, rfl⟩ := ho1
  exact .bind (neat_read pin_pos_self fun n _ => neat_boundAt _)

theorem getValue_result (hfind : ih.findLeafPage key = .ok leaf) :
    (getValue ih key).result = ih.getValue key := by
  simp [getValue, IxIndexHandle.getValue, findLeafPage_result hfind, hfind]

omit [IxKey K] in
theorem boundAt_result (pos : Nat) : (boundAt ih leaf node pos).result = ih.boundAt leaf node pos := by
  simp [boundAt, IxIndexHandle.boundAt]

theorem lowerBound_result (hfind : ih.findLeafPage key = .ok leaf) :
    (lowerBound ih key).result = ih.lowerBound key := by
  simp [lowerBound, IxIndexHandle.lowerBound, findLeafPage_result hfind, hfind, boundAt_result]

theorem upperBound_result (hfind : ih.findLeafPage key = .ok leaf) :
    (upperBound ih key).result = ih.upperBound key := by
  simp [upperBound, IxIndexHandle.upperBound, findLeafPage_result hfind, hfind, boundAt_result]

end Reads

end IxPins

inductive IxCall (K : Type)
  | insertEntry (key : K) (value : Rid)
  | deleteEntry (key : K) (rid : Option Rid)
  | getValue (key : K)
  | lowerBound (key : K)
  | upperBound (key : K)
  | getRid (iid : Iid)
  | scanNext (iid last : Iid)

namespace IxCall

variable [IxKey K]

def trace (ih : IxIndexHandle K) : IxCall K → PinIx (IxIndexHandle K)
  | insertEntry key value => do
      let r ← IxPins.insertEntry ih key value
      return r.2.2
  | deleteEntry key rid => do
      let r ← IxPins.deleteEntry ih key rid
      return r.2
  | getValue key => do
      let _ ← IxPins.getValue ih key
      return ih
  | lowerBound key => do
      let _ ← IxPins.lowerBound ih key
      return ih
  | upperBound key => do
      let _ ← IxPins.upperBound ih key
      return ih
  | getRid iid => do
      let _ ← IxPins.getRid ih iid
      return ih
  | scanNext iid last => do
      let _ ← IxPins.scanNext ih iid last
      return ih

/-- The call touches the bytes of a page only under a pin of its own, and when it has returned or
thrown every page has as many pins as before. A failed assertion ends the server. -/
def PinBalanced (ih : IxIndexHandle K) (pins : Pins Int) (c : IxCall K) : Prop :=
  Pins.zero.Covers (c.trace ih).events ∧
    ((c.trace ih).result ≠ .error .assertFailed → pins.after (c.trace ih).events = pins)

/-- Which calls keep to their pins: an insert that adds nothing, goes to the root leaf, or neither
fills its leaf nor changes a separator; a delete that leaves the leaf full enough and changes no
separator, or is made in the root leaf and does not take its last pair while the leaf is pinned;
no `get_rid`; every other call. -/
def KeepsPins (ih : IxIndexHandle K) (pins : Pins Int) : IxCall K → Prop
  | insertEntry key value => ∀ leaf node, ih.findLeafPage key = .ok leaf → ih.pages leaf = some node →
      (node.insert key value).getSize = node.getSize ∨ node.parent = -1 ∨
        ((node.insert key value).getSize ≠ ih.fileHdr.btreeOrder ∧
          ¬IxPins.Restamped ih leaf (node.insert key value) key)
  | deleteEntry key rid => ∀ leaf node, ih.findLeafPage key = .ok leaf → ih.pages leaf = some node →
      if node.parent = -1 then (node.remove key rid).getSize = 0 → pins leaf = 0
      else ih.fileHdr.btreeOrder / 2 ≤ (node.remove key rid).getSize ∧
        ¬IxPins.Restamped ih leaf (node.remove key rid) key
  | getRid iid => ih.pages iid.pageNo = .none
  | _ => True

variable {c : IxCall K} {pins : Pins Int}

theorem balanced_of_neat (h : ∀ o, Neat o (c.trace ih) fun _ o' => o' = o)
    (hrun : ∃ ih', (c.trace ih).result = .ok ih') :
    c.PinBalanced ih pins := by
  obtain ⟨ih', hrun⟩ := hrun
  exact ⟨(h _ ih' hrun).1, fun _ => (h pins ih' hrun).2⟩

theorem not_balanced_of_nets (h : Nets (c.trace ih) fun _ n => 0 < n) (hrun : (c.trace ih).result = .ok ih') :
    ¬c.PinBalanced ih pins := by
  intro hb
  have hpos := h ih' hrun
  have hle := balance_of_after (hb.2 (by rw [hrun]; exact nofun))
  omega

theorem not_balanced_of_bare (h : Bare Pins.zero (c.trace ih)) (hrun : (c.trace ih).result = .ok ih') :
    ¬c.PinBalanced ih pins := fun hb => h ih' hrun hb.1

/-- An index that has lost its root: the search for the leaf throws before it pins a page. -/
theorem findLeafPage_rootless (hroot : ih.fileHdr.rootPage = -1) (hno : NoPage ih) (key : K) :
    IxPins.findLeafPage ih key = ⟨[], .error .internalError⟩ := by
  have hfetch : ih.fetchNode (-1) = .error .internalError := by
    rw [fetchNode, hno]
  rw [IxPins.findLeafPage, hroot, IxPins.fetchNode, hfetch]
  rfl

theorem balanced_of_throw {e : IxError} (h : c.trace ih = ⟨[], .error e⟩) : c.PinBalanced ih pins := by
  rw [PinBalanced, h]
  exact ⟨trivial, fun _ => rfl⟩

end IxCall

section Reached

variable {L : KeyLayout} {ih ih' : IxIndexHandle (Key L)} {pins : Pins Int} {t : List (PinEvent Int)}
  {c : IxCall (Key L)}

def Stands (ih : IxIndexHandle (Key L)) : Prop := (∃ m, Rooted ih m) ∨ (ih.fileHdr.rootPage = -1 ∧ NoPage ih)

theorem Rooted.run (h : ∃ m, Rooted ih m) (op : IxOp (Key L)) : ∃ flag ih', op.exec ih = .ok (flag, ih') ∧
    ((∃ m, Rooted ih' m) ∨ (ih'.fileHdr.rootPage = -1 ∧ NoPage ih')) := by
  obtain ⟨m, hm⟩ := h
  by_cases hleft : ∃ k, (op.spec m).2 k ≠ none
  · obtain ⟨ih', hrun, hr⟩ := hm.exec hleft
    exact ⟨_, ih', hrun, .inl ⟨_, hr⟩⟩
  · obtain ⟨ih', hrun, hr⟩ := hm.exec_empty fun k => not_not.1 fun hk => hleft ⟨k, hk⟩
    exact ⟨_, ih', hrun, .inr hr⟩

theorem delete_leaves {m : IxMap (Key L)} {es : List (Key L × Rid)} (hv : Valid ih es)
    (hmem : ∀ k r, (k, r) ∈ es ↔ m k = some r) (hlen : 1 < es.length) (key : Key L) (rid : Option Rid) :
    ∃ k, ((IxOp.delete key rid).spec m).2 k ≠ none := by
  obtain ⟨a, b, rest, rfl⟩ : ∃ a b rest, es = a :: b :: rest := by
    match es, hlen with
    | a :: b :: rest, _ => exact ⟨a, b, rest, rfl⟩
  have hlt : a.1 < b.1 := (List.pairwise_cons.1 hv.sorted).1 b List.mem_cons_self
  obtain ⟨e, he, hne⟩ : ∃ e ∈ a :: b :: rest, e.1 ≠ key := by
    by_cases ha : a.1 = key
    · exact ⟨b, by simp, fun hb => (ha.trans hb.symm ▸ hlt).ne rfl⟩
    · exact ⟨a, by simp, ha⟩
  have hkept := (hmem e.1 e.2).1 he
  refine ⟨e.1, ?_⟩
  rw [IxOp.spec]
  cases m key with
  | none => simp [hkept]
  | some r =>
      simp only
      split
      · simp [Function.update_of_ne hne, hkept]
      · simp [hkept]

theorem Rooted.valid {m : IxMap (Key L)} (h : Rooted ih m) : ∃ es, Valid ih es := by
  obtain ⟨es, hv, -⟩ := h.sim
  exact ⟨es, hv⟩

namespace IxCall

theorem insertEntry_balanced_iff {key : Key L} {value : Rid} (hm : ∃ m, Rooted ih m) :
    (insertEntry key value).PinBalanced ih pins ↔ (insertEntry key value).KeepsPins ih pins := by
  obtain ⟨flag, ih', hexec, -⟩ := Rooted.run hm (.insert key value)
  obtain ⟨m, hm⟩ := hm
  obtain ⟨es, hv⟩ := hm.valid
  obtain ⟨leaf, node, h, -⟩ := hv.atLeaf key
  have hrun : ∃ ih', ((insertEntry key value).trace ih).result = .ok ih' := by
    simp only [trace, bind_result, IxPins.insertEntry_result h.find]
    rw [IxOp.exec] at hexec
    cases hins : ih.insertEntry key value with
    | error e =>
        rw [hins] at hexec
        cases hexec
    | ok r => exact ⟨r.2.2, rfl⟩
  have hkeeps : (insertEntry key value).KeepsPins ih pins ↔ (node.insert key value).getSize = node.getSize ∨
      node.parent = -1 ∨ ((node.insert key value).getSize ≠ ih.fileHdr.btreeOrder ∧
        ¬IxPins.Restamped ih leaf (node.insert key value) key) := by
    refine ⟨fun hk => hk leaf node h.find h.page, fun hk leaf' node' hfind hpage => ?_⟩
    obtain rfl := Except.ok.inj (h.find.symm.trans hfind)
    obtain rfl := Option.some.inj (h.page.symm.trans hpage)
    exact hk
  rw [hkeeps]
  constructor
  · intro hb
    by_contra hbad
    simp only [not_or, not_and_or, ne_eq] at hbad
    obtain ⟨hgrown, hroot, hbad⟩ := hbad
    obtain ⟨ih', hrun⟩ := hrun
    by_cases hstamp : IxPins.Restamped ih leaf (node.insert key value) key
    · have hpositive : Nets ((insertEntry key value).trace ih) fun _ n => 0 < n :=
        .bind ((IxPins.nets_insertEntry h hgrown hstamp).mono fun _ n hn => .pure (by omega))
      exact not_balanced_of_nets hpositive hrun hb
    · have hbare : Bare Pins.zero ((insertEntry key value).trace ih) :=
        (IxPins.bare_insertEntry h hgrown hroot
          (not_not.1 (hbad.resolve_right fun hn => hn hstamp)) hstamp).first
      exact not_balanced_of_bare hbare hrun hb
  · exact fun hk => balanced_of_neat
      (fun o => .bind ((IxPins.neat_insertEntry h hk).mono fun _ _ ho => .pure ho)) hrun

theorem deleteEntry_balanced_iff {key : Key L} {rid : Option Rid} (hm : ∃ m, Rooted ih m) :
    (deleteEntry key rid).PinBalanced ih pins ↔ (deleteEntry key rid).KeepsPins ih pins := by
  obtain ⟨flag, ih', hexec, -⟩ := Rooted.run hm (.delete key rid)
  obtain ⟨m, hm⟩ := hm
  obtain ⟨es, hv, hmem⟩ := hm.sim
  obtain ⟨leaf, node, h, hmany⟩ := hv.atLeaf key
  rw [IxOp.exec] at hexec
  have hresult : (IxPins.deleteEntry ih key rid).result = _ := IxPins.deleteEntry_result h.find
  have hrun : ((deleteEntry key rid).trace ih).result = .ok ih' := by
    simp only [trace, bind_result, hresult, hexec]
    rfl
  have hkeeps : (deleteEntry key rid).KeepsPins ih pins ↔
      if node.parent = -1 then (node.remove key rid).getSize = 0 → pins leaf = 0
      else
        ih.fileHdr.btreeOrder / 2 ≤ (node.remove key rid).getSize ∧
          ¬IxPins.Restamped ih leaf (node.remove key rid) key := by
    refine ⟨fun hk => hk leaf node h.find h.page, fun hk leaf' node' hfind hpage => ?_⟩
    obtain rfl := Except.ok.inj (h.find.symm.trans hfind)
    obtain rfl := Option.some.inj (h.page.symm.trans hpage)
    exact hk
  rw [hkeeps]
  split
  · next hroot =>
    -- the pin of the root leaf is given back twice when the leaf is empty
    have hneat : ∀ o, Neat o ((deleteEntry key rid).trace ih) fun _ o' =>
        o' = if (node.remove key rid).getSize = 0 then o.unpin leaf else o := fun o =>
      .bind ((IxPins.neat_deleteEntry_root h hroot).mono fun _ _ ho => .pure ho)
    have hafter := (hneat pins ih' hrun).2
    constructor
    · intro hb hzero
      have hsame := hb.2 (by rw [hrun]; simp)
      rw [hafter, if_pos hzero] at hsame
      have := congrFun hsame leaf
      rw [Pins.unpin, Function.update_self] at this
      omega
    · refine fun hpins => ⟨(hneat _ ih' hrun).1, fun _ => ?_⟩
      rw [hafter]
      split
      · next hzero =>
        rw [Pins.unpin, hpins hzero, Nat.zero_sub, ← hpins hzero, Function.update_eq_self]
      · rfl
  · next hroot =>
    constructor
    · intro hb
      by_contra hbad
      rw [not_and_or, not_not, not_le] at hbad
      have hpositive : Nets ((deleteEntry key rid).trace ih) fun r n => r.fileHdr.rootPage = -1 ∨ 0 < n :=
        .bind ((IxPins.nets_deleteEntry h hroot hbad).mono fun _ n hn => .pure (hn.imp id fun hn => by omega))
      have hnot : ih'.fileHdr.rootPage ≠ -1 := by
        obtain ⟨ih1, hexec1, hr⟩ := hm.exec (delete_leaves hv hmem (hmany hroot) key rid)
        cases hexec.symm.trans hexec1
        obtain ⟨es', hv'⟩ := hr.valid
        exact hv'.root_ne
      have hpos := (hpositive ih' hrun).resolve_left hnot
      have hle := balance_of_after (hb.2 (by rw [hrun]; simp))
      omega
    · exact fun hk => balanced_of_neat
        (fun o => .bind ((IxPins.neat_deleteEntry h hroot hk.1 hk.2).mono fun _ _ ho =>
        .pure ho)) ⟨ih', hrun⟩

theorem getRid_balanced_iff {iid : Iid} :
    (getRid iid).PinBalanced ih pins ↔ (getRid iid).KeepsPins ih pins := by
  cases hpage : ih.pages iid.pageNo with
  | none =>
      have hthrow : (getRid iid).trace ih = ⟨[], .error .internalError⟩ := by
        have hfetch : ih.fetchNode iid.pageNo = .error .internalError := by rw [fetchNode, hpage]
        rw [trace, IxPins.getRid, IxPins.fetchNode, hfetch]
        rfl
      exact ⟨fun _ => hpage, fun _ => balanced_of_throw hthrow⟩
  | some node =>
      refine ⟨fun hb => ?_, fun hk => absurd (hpage.symm.trans hk) (by simp)⟩
      exfalso
      have hfetch : IxPins.fetchNode ih iid.pageNo = ⟨[.pin iid.pageNo], .ok node⟩ := by
        rw [IxPins.fetchNode, fetchNode_eq hpage]
      by_cases hslot : node.getSize ≤ iid.slotNo
      · -- the pin stays when the call throws
        have htrace : (getRid iid).trace ih = ⟨[.pin iid.pageNo, .touch iid.pageNo],
            .error .indexEntryNotFound⟩ := by
          rw [trace, IxPins.getRid, hfetch]
          simp only [ok_bind_eq, if_pos hslot]
          rfl
        rw [PinBalanced, htrace] at hb
        have hsame := congrFun (hb.2 (by simp)) iid.pageNo
        simp only [after, pin_self] at hsame
        omega
      · have htrace : (getRid iid).trace ih =
            ⟨[.pin iid.pageNo, .touch iid.pageNo, .unpin iid.pageNo, .touch iid.pageNo], .ok ih⟩ := by
          rw [trace, IxPins.getRid, hfetch]
          simp only [ok_bind_eq, if_neg hslot]
          rfl
        rw [PinBalanced, htrace] at hb
        have hcov : 0 < ((Pins.zero.pin iid.pageNo).unpin iid.pageNo) iid.pageNo := hb.1.2.1
        rw [unpin_pin] at hcov
        exact absurd hcov (lt_irrefl _)

theorem scanNext_balanced {iid last : Iid} : (scanNext iid last).PinBalanced ih pins := by
  rw [PinBalanced, trace, IxPins.scanNext]
  by_cases hend : iid = last
  · rw [if_pos hend]
    exact ⟨trivial, fun h => absurd rfl h⟩
  · rw [if_neg hend]
    cases hpage : ih.pages iid.pageNo with
    | none =>
        have hfetch : IxPins.fetchNode ih iid.pageNo = ⟨[], .error .internalError⟩ := by
          rw [IxPins.fetchNode, fetchNode, hpage]
        rw [hfetch]
        exact ⟨trivial, fun _ => rfl⟩
    | some node =>
        have hfetch : IxPins.fetchNode ih iid.pageNo = ⟨[.pin iid.pageNo], .ok node⟩ := by
          rw [IxPins.fetchNode, fetchNode_eq hpage]
        simp only [hfetch, ok_bind_eq]
        by_cases hslot : node.isLeaf ∧ iid.slotNo < node.getSize
        · simp only [if_pos hslot]
          by_cases hnext : iid.pageNo ≠ ih.fileHdr.lastLeaf ∧ iid.slotNo + 1 = node.getSize
          · simp only [if_pos hnext]
            exact ⟨⟨pin_pos_self, trivial⟩, fun _ => unpin_pin⟩
          · simp only [if_neg hnext]
            exact ⟨⟨pin_pos_self, trivial⟩, fun _ => unpin_pin⟩
        · simp only [if_neg hslot]
          exact ⟨⟨pin_pos_self, trivial⟩, fun h => absurd rfl h⟩

theorem keepsPins_rootless (hroot : ih.fileHdr.rootPage = -1) (hno : NoPage ih)
    (hget : ∀ iid, c ≠ getRid iid) :
    c.KeepsPins ih pins := by
  have hnone : ∀ key leaf, ih.findLeafPage key ≠ .ok leaf := fun key leaf h => by
    obtain ⟨e, he⟩ := Rmdb.findLeafPage_rootless hroot hno key
    cases he.symm.trans h
  cases c with
  | insertEntry key value => exact fun leaf _ h => absurd h (hnone key leaf)
  | deleteEntry key rid => exact fun leaf _ h => absurd h (hnone key leaf)
  | getRid iid => exact absurd rfl (hget iid)
  | _ => trivial

theorem balanced_iff (h : Stands ih) : c.PinBalanced ih pins ↔ c.KeepsPins ih pins := by
  rcases h with hm | ⟨hroot, hno⟩
  · cases c with
    | insertEntry key value => exact insertEntry_balanced_iff hm
    | deleteEntry key rid => exact deleteEntry_balanced_iff hm
    | getRid iid => exact getRid_balanced_iff
    | scanNext iid last => exact iff_of_true scanNext_balanced trivial
    | getValue key =>
        obtain ⟨m, hm⟩ := hm
        obtain ⟨es, hv⟩ := hm.valid
        obtain ⟨leaf, node, h, -⟩ := hv.atLeaf key
        refine iff_of_true (balanced_of_neat
          (fun o => .bind (IxPins.neat_getValue.mono fun _ _ ho => .pure ho)) ⟨ih, ?_⟩) trivial
        simp only [trace, bind_result, IxPins.getValue_result h.find, getValue_leaf h.find h.page]
        rfl
    | lowerBound key =>
        obtain ⟨m, hm⟩ := hm
        obtain ⟨es, hv⟩ := hm.valid
        obtain ⟨leaf, node, h, -⟩ := hv.atLeaf key
        obtain ⟨a, b, hlower, -⟩ := hv.range_scan key key
        refine iff_of_true (balanced_of_neat
          (fun o => .bind (IxPins.neat_lowerBound.mono fun _ _ ho => .pure ho)) ⟨ih, ?_⟩) trivial
        simp only [trace, bind_result, IxPins.lowerBound_result h.find, hlower]
        rfl
    | upperBound key =>
        obtain ⟨m, hm⟩ := hm
        obtain ⟨es, hv⟩ := hm.valid
        obtain ⟨leaf, node, h, -⟩ := hv.atLeaf key
        obtain ⟨a, b, -, hupper, -⟩ := hv.range_scan key key
        refine iff_of_true (balanced_of_neat
          (fun o => .bind (IxPins.neat_upperBound.mono fun _ _ ho => .pure ho)) ⟨ih, ?_⟩) trivial
        simp only [trace, bind_result, IxPins.upperBound_result h.find, hupper]
        rfl
  · have hfind := IxCall.findLeafPage_rootless hroot hno
    cases c with
    | insertEntry key value =>
        refine iff_of_true (balanced_of_throw (e := .internalError) ?_) (keepsPins_rootless hroot hno nofun)
        rw [trace, IxPins.insertEntry, hfind]
        rfl
    | deleteEntry key rid =>
        refine iff_of_true (balanced_of_throw (e := .internalError) ?_) (keepsPins_rootless hroot hno nofun)
        rw [trace, IxPins.deleteEntry, hfind]
        rfl
    | getRid iid => exact getRid_balanced_iff
    | scanNext iid last => exact iff_of_true scanNext_balanced trivial
    | getValue key =>
        refine iff_of_true (balanced_of_throw (e := .internalError) ?_) trivial
        rw [trace, IxPins.getValue, hfind]
        rfl
    | lowerBound key =>
        refine iff_of_true (balanced_of_throw (e := .internalError) ?_) trivial
        rw [trace, IxPins.lowerBound, hfind]
        rfl
    | upperBound key =>
        refine iff_of_true (balanced_of_throw (e := .internalError) ?_) trivial
        rw [trace, IxPins.upperBound, hfind]
        rfl

theorem stands_call (h : Stands ih) (hrun : (c.trace ih).result = .ok ih') : Stands ih' := by
  have hread : ∀ {α : Type} {x : PinIx α},
      (do let _ ← x; return ih : PinIx (IxIndexHandle (Key L))).result = .ok ih' → Stands ih' :=
    fun {α x} hx => by
      obtain ⟨a, -, hih, -⟩ := bind_ok hx
      cases hih
      exact h
  have hfound : ∀ key, (∃ leaf, ih.findLeafPage key = .ok leaf) ∨
      ∃ e, IxPins.findLeafPage ih key = ⟨[], .error e⟩ := fun key => by
    rcases h with ⟨m, hm⟩ | ⟨hroot, hno⟩
    · obtain ⟨es, hv⟩ := hm.valid
      obtain ⟨leaf, node, hleaf, -⟩ := hv.atLeaf key
      exact .inl ⟨leaf, hleaf.find⟩
    · exact .inr ⟨_, IxCall.findLeafPage_rootless hroot hno key⟩
  cases c with
  | insertEntry key value =>
      rcases hfound key with ⟨leaf, hfind⟩ | ⟨e, he⟩
      · rcases h with hm | ⟨hroot, hno⟩
        · obtain ⟨flag, ih1, hexec, hstands⟩ := Rooted.run hm (.insert key value)
          obtain ⟨r, hr, hih, -⟩ := bind_ok hrun
          cases hih
          rw [IxPins.insertEntry_result hfind] at hr
          rw [IxOp.exec, hr] at hexec
          cases hexec
          exact hstands
        · obtain ⟨e, he⟩ := Rmdb.findLeafPage_rootless hroot hno key
          cases he.symm.trans hfind
      · rw [trace, IxPins.insertEntry, he] at hrun
        cases hrun
  | deleteEntry key rid =>
      rcases hfound key with ⟨leaf, hfind⟩ | ⟨e, he⟩
      · rcases h with hm | ⟨hroot, hno⟩
        · obtain ⟨flag, ih1, hexec, hstands⟩ := Rooted.run hm (.delete key rid)
          obtain ⟨r, hr, hih, -⟩ := bind_ok hrun
          cases hih
          rw [IxPins.deleteEntry_result hfind] at hr
          rw [IxOp.exec, hr] at hexec
          cases hexec
          exact hstands
        · obtain ⟨e, he⟩ := Rmdb.findLeafPage_rootless hroot hno key
          cases he.symm.trans hfind
      · rw [trace, IxPins.deleteEntry, he] at hrun
        cases hrun
  | getValue key => exact hread hrun
  | lowerBound key => exact hread hrun
  | upperBound key => exact hread hrun
  | getRid iid => exact hread hrun
  | scanNext iid last => exact hread hrun

end IxCall

/-- The indexes that calls meeting `ok` make of a new one, with what the calls have done in the
pool. A call that fails to read a page is the last one. -/
inductive Reached (L : KeyLayout) (ok : IxIndexHandle (Key L) → Pins Int → IxCall (Key L) → Prop) :
    IxIndexHandle (Key L) → List (PinEvent Int) → Prop
  | created : Reached L ok (createIndex L) []
  | returned {ih ih' : IxIndexHandle (Key L)} {t : List (PinEvent Int)} {c : IxCall (Key L)}
      (h : Reached L ok ih t)
      (hok : ok ih (Pins.zero.after t) c) (hrun : (c.trace ih).result = .ok ih') : Reached L ok ih'
        (t ++ (c.trace ih).events)
  | threw {ih : IxIndexHandle (Key L)} {t : List (PinEvent Int)} {c : IxCall (Key L)} (h : Reached L ok ih t)
      (hok : ok ih (Pins.zero.after t) c) (hrun : (c.trace ih).result = .error .indexEntryNotFound) :
      Reached L ok ih (t ++ (c.trace ih).events)

variable {ok : IxIndexHandle (Key L) → Pins Int → IxCall (Key L) → Prop}

theorem Reached.stands (h : Reached L ok ih t) : Stands ih := by
  induction h with
  | created => exact .inl ⟨_, rooted_createIndex L⟩
  | returned _ _ hrun iht => exact IxCall.stands_call iht hrun
  | threw _ _ _ iht => exact iht

/-- Calls that keep to their pins leave none. -/
theorem Reached.noPins (h : Reached L (fun ih pins c => c.KeepsPins ih pins) ih t) :
    Pins.zero.after t = Pins.zero := by
  induction h with
  | created => rfl
  | returned h hok hrun iht =>
      rw [after_append, ((IxCall.balanced_iff h.stands).2 hok).2 (by rw [hrun]; exact nofun), iht]
  | threw h hok hrun iht =>
      rw [after_append, ((IxCall.balanced_iff h.stands).2 hok).2 (by rw [hrun]; exact nofun), iht]

def ClearsPages (t : List (PinEvent Int)) : Prop :=
  ∀ (n fd : Nat) (b b' : BufferPoolManager n) (order : List PageId), b.PoolInv → b.pinsOf fd = Pins.zero →
    BufferPoolManager.Serves fd b t b' → (BufferPoolManager.deleteAllPages fd b' order).1 = true

theorem clearsPages_of_pins (h : Pins.zero.after t = Pins.zero) : ClearsPages t := by
  intro n fd b b' order hI hb hserves
  obtain ⟨hI', hpins⟩ := hserves.pins hI
  exact BufferPoolManager.deleteAllPages_true hI' order (hpins.trans (by rw [hb, h]))

/-- On every index that calls can make of a new one a call keeps its pins in balance exactly under
the condition, and after calls that all meet it the pages of the index can be cleared. -/
theorem pinBalanced_iff (L : KeyLayout) :
    (∀ ih t, Reached L (fun _ _ _ => True) ih t → ∀ c : IxCall (Key L),
      c.PinBalanced ih (Pins.zero.after t) ↔ c.KeepsPins ih (Pins.zero.after t)) ∧
    ∀ ih t, Reached L (fun ih pins c => c.KeepsPins ih pins) ih t → ClearsPages t :=
  ⟨fun _ _ h _ => IxCall.balanced_iff h.stands, fun _ _ h => clearsPages_of_pins h.noPins⟩

section Sample

def oneFrame : BufferPoolManager 1 := .init 1 (fun p => if p = ⟨0, 2⟩ then some .zero else none) fun _ => 3

theorem oneFrame_pins : oneFrame.pinsOf 0 = Pins.zero := by
  funext p
  cases p with
  | ofNat k => rfl
  | negSucc k => rfl

theorem oneFrame_fetch : oneFrame.fetchPage ⟨0, 2⟩ = (.page 0, (oneFrame.fetchPage ⟨0, 2⟩).2) := rfl

theorem oneFrame_sound : BufferPoolManager.Sound oneFrame (.fetch ⟨0, 2⟩) := by
  rintro - f - q hq
  cases hq

theorem pinBalanced_firstInsert :
    ((IxCall.insertEntry (intKey 1 0 0 0) ⟨1, 0⟩).PinBalanced (createIndex intLayout) Pins.zero ↔
      (IxCall.insertEntry (intKey 1 0 0 0) ⟨1, 0⟩).KeepsPins (createIndex intLayout) Pins.zero) ∧
    (BufferPoolManager.deleteAllPages 0 (((oneFrame.fetchPage ⟨0, 2⟩).2.unpinPage ⟨0, 2⟩ true).2)
      [⟨0, 2⟩]).1 = true := by
  have hok : (IxCall.insertEntry (intKey 1 0 0 0) ⟨1, 0⟩).KeepsPins (createIndex intLayout) Pins.zero := by
    intro leaf node hfind hpage
    cases hfind
    cases hpage
    exact .inr (.inl rfl)
  obtain ⟨ih', hrun⟩ : ∃ ih',
      ((IxCall.insertEntry (intKey 1 0 0 0) ⟨1, 0⟩).trace (createIndex intLayout)).result = .ok ih' :=
    ⟨_, rfl⟩
  refine ⟨(pinBalanced_iff intLayout).1 _ _ .created _, ?_⟩
  refine (pinBalanced_iff intLayout).2 _ _ (.returned .created hok hrun) 1 0 oneFrame _ _
    (BufferPoolManager.init_inv ..) oneFrame_pins ?_
  have hevents : ((IxCall.insertEntry (intKey 1 0 0 0) ⟨1, 0⟩).trace (createIndex intLayout)).events =
      [.pin 2, .touch 2, .touch 2, .touch 2, .touch 2, .unpin 2] := rfl
  rw [hevents]
  exact .fetch oneFrame_sound oneFrame_fetch (.touch (.touch (.touch (.touch (.unpin true .done)))))

/-- On the new index `get_rid` throws for every position, and the root leaf stays pinned for good. -/
theorem getRid_keeps_pin : Reached intLayout (fun _ _ _ => True) (createIndex intLayout) [] ∧
    ¬(IxCall.getRid ⟨2, 0⟩).PinBalanced (createIndex intLayout) Pins.zero ∧
    ¬ClearsPages ((IxCall.getRid ⟨2, 0⟩).trace (createIndex intLayout)).events := by
  refine ⟨.created, fun hb => ?_, fun hc => ?_⟩
  · have hsame := congrFun (hb.2 nofun) 2
    have hafter : Pins.zero.after ((IxCall.getRid ⟨2, 0⟩).trace (createIndex intLayout)).events 2 = 1 := rfl
    rw [hafter] at hsame
    cases hsame
  · have hclear := hc 1 0 oneFrame _ [⟨0, 2⟩] (BufferPoolManager.init_inv ..) oneFrame_pins
      (.fetch oneFrame_sound oneFrame_fetch (.touch .done))
    have hfalse : (BufferPoolManager.deleteAllPages 0 (oneFrame.fetchPage ⟨0, 2⟩).2 [⟨0, 2⟩]).1 = false := rfl
    rw [hfalse] at hclear
    cases hclear

end Sample

end Reached

end Rmdb
