import Rmdb.Index.PinTrace
import Rmdb.Index.Reachable

namespace Rmdb

open BPlus SepList IxIndexHandle IxManager Traced Pins

variable {K : Type} {ih ih' : IxIndexHandle K} {p q : Int}

namespace IxPins

section Results

theorem bind_ok_self {α : Type} (x : Ix α) : (x >>= fun a => .ok a) = x := by
  cases x with
  | ok a => rfl
  | error e => rfl

@[simp] theorem fetchNode_result : (fetchNode ih p).result = ih.fetchNode p := by
  rw [fetchNode]
  cases ih.fetchNode p with
  | ok n => rfl
  | error e => rfl

@[simp] theorem unpinPage_result : (unpinPage p).result = .ok ⟨⟩ := rfl

@[simp] theorem touch_result : (touch p).result = .ok ⟨⟩ := rfl

@[simp] theorem read_result : (read ih p).result = ih.fetchNode p := by
  simp only [read, bind_result, touch_result, ok_bind, lift_result]

@[simp] theorem createNode_result : (createNode ih).result = .ok ih.createNode := rfl

variable [IxKey K]

@[simp] theorem maintainChild_result (c : Nat) : (maintainChild ih p c).result = ih.maintainChild p c := by
  simp [maintainChild, IxIndexHandle.maintainChild]

@[simp] theorem maintainChildren_result (start count : Nat) :
    (maintainChildren ih p start count).result = ih.maintainChildren p start count := by
  induction count generalizing ih start with
  | zero => rfl
  | succ count iht => simp [maintainChildren, IxIndexHandle.maintainChildren, iht]

@[simp] theorem split_result : (split ih p).result = ih.split p := by
  simp [split, IxIndexHandle.split]

@[simp] theorem maintainParentLoop_result (held : Bool) (fuel : Nat) :
    (maintainParentLoop ih held fuel p).result = ih.maintainParentLoop fuel p := by
  induction fuel generalizing ih held p with
  | zero => rfl
  | succ fuel iht =>
      simp [maintainParentLoop, IxIndexHandle.maintainParentLoop, iht]

@[simp] theorem maintainFirst_result (node : IxNode K) (key : K) :
    (maintainFirst ih p node key).result = ih.maintainFirst p node key := by
  simp [maintainFirst, IxIndexHandle.maintainFirst, maintainParent]

@[simp] theorem insertIntoParent_result (fuel : Nat) (old new : Int) (key : K) :
    (insertIntoParent fuel ih old key new).result = IxIndexHandle.insertIntoParent fuel ih old key new := by
  induction fuel generalizing ih old key new with
  | zero => rfl
  | succ fuel iht =>
      simp [insertIntoParent, IxIndexHandle.insertIntoParent, iht, bind_ok_self, -writeNode_fileHdr]

omit [IxKey K] in
@[simp] theorem eraseLeaf_result : (eraseLeaf ih p).result = ih.eraseLeaf p := by
  simp [eraseLeaf, IxIndexHandle.eraseLeaf]

omit [IxKey K] in
@[simp] theorem retireLeaf_result (isLeaf : Bool) :
    (retireLeaf ih p q isLeaf).result = ih.retireLeaf p q isLeaf := by
  simp [retireLeaf, IxIndexHandle.retireLeaf]

@[simp] theorem adjustRoot_result : (adjustRoot ih p).result = ih.adjustRoot p := by
  simp [adjustRoot, IxIndexHandle.adjustRoot, releaseNodeHandle]

@[simp] theorem redistribute_result (parent : Int) (index : Nat) :
    (redistribute ih p q parent index).result = ih.redistribute p q parent index := by
  simp [redistribute, IxIndexHandle.redistribute]

theorem coalesce_result {again : IxIndexHandle K → Int → PinIx (Bool × IxIndexHandle K)}
    (parent : Int) (index : Nat) :
    (coalesce again ih p q parent index).result =
      IxIndexHandle.coalesce (fun ih p => (again ih p).result) ih p q parent index := by
  simp [coalesce, IxIndexHandle.coalesce, releaseNodeHandle, -writeNode_fileHdr]

@[simp] theorem coalesceOrRedistribute_result (fuel : Nat) :
    (coalesceOrRedistribute fuel ih p).result = IxIndexHandle.coalesceOrRedistribute fuel ih p := by
  induction fuel generalizing ih p with
  | zero => rfl
  | succ fuel iht =>
      simp [coalesceOrRedistribute, IxIndexHandle.coalesceOrRedistribute, coalesce_result, iht]

end Results

section Nets

theorem fetchNode_events {n : IxNode K} (h : ih.fetchNode p = .ok n) :
    (fetchNode ih p).events = [.pin p] := by
  rw [fetchNode, h]

theorem nets_fetch {Q : IxNode K → Int → Prop} (h : ∀ n, ih.fetchNode p = .ok n → Q n 1) :
    Nets (fetchNode ih p) Q := by
  intro n hn
  rw [fetchNode_result] at hn
  rw [fetchNode_events hn]
  exact h n hn

theorem nets_read {Q : IxNode K → Int → Prop} (h : ∀ n, ih.fetchNode p = .ok n → Q n 0) :
    Nets (read ih p) Q :=
  .bind (.emit (.lift h))

theorem nets_touch {Q : PUnit → Int → Prop} (h : Q ⟨⟩ 0) : Nets (touch p) Q := .emit h

theorem nets_unpin {Q : PUnit → Int → Prop} (h : Q ⟨⟩ (-1)) : Nets (unpinPage p) Q := .emit h

theorem nets_create {Q : Int × IxIndexHandle K → Int → Prop} (h : Q ih.createNode 1) :
    Nets (createNode ih) Q := by
  rintro a ⟨⟩
  exact h

variable [IxKey K]

theorem nets_maintainChild (c : Nat) : Nets (maintainChild ih p c) fun _ n => n = 0 := by
  refine .bind (nets_read fun node _ => .ite (fun _ => .pure rfl) fun _ => ?_)
  exact .bind (nets_fetch fun child _ => .bind (nets_touch (.bind (nets_unpin (.pure rfl)))))

theorem nets_maintainChildren (start count : Nat) :
    Nets (maintainChildren ih p start count) fun _ n => n = 0 := by
  induction count generalizing ih start with
  | zero => exact .pure rfl
  | succ count iht =>
      refine .bind ((nets_maintainChild start).mono fun ih1 n hn => (iht (start + 1)).mono fun ih2 m hm => ?_)
      omega

theorem nets_split : Nets (split ih p) fun _ n => n = 1 := by
  refine .bind (nets_create
    (.bind (nets_read fun node _ => .bind (nets_read fun newNode _ => .ite (fun _ => ?_) fun _ => ?_))))
  · exact .bind (nets_fetch fun next _ => .bind (nets_touch (.bind (nets_unpin (.pure rfl)))))
  · refine .bind ((nets_maintainChildren 0 _).mono fun ih1 n hn => .pure ?_)
    omega

/-- A handle that the loop has fetched is given back when it goes on to the parent, but not when it ends. -/
theorem nets_maintainParentLoop_held (fuel : Nat) :
    Nets (maintainParentLoop ih true fuel p) fun _ n => n = 0 := by
  induction fuel generalizing ih p with
  | zero => exact .lift fun _ => nofun
  | succ fuel iht =>
      refine .bind (nets_read fun curr _ => .ite (fun _ => .pure rfl) fun _ => ?_)
      refine .bind (nets_fetch fun parent _ =>
        .bind (nets_touch (.bind (.lift fun rank _ => .bind (nets_touch ?_)))))
      refine .ite (fun _ => .bind (nets_unpin (.pure rfl))) fun _ => .bind (nets_touch (.bind ?_))
      exact nets_unpin (iht.mono fun ih1 n hn => by omega)

def Restamped (ih : IxIndexHandle K) (leaf : Int) (node : IxNode K) (key : K) : Prop :=
  IxKey.memcmp (node.getKey 0) key = 0 ∧ node.parent ≠ -1 ∧ ∀ parent, ih.pages node.parent = some parent →
    IxKey.memcmp (parent.getKey (parent.findChild leaf)) (node.getKey 0) ≠ 0

omit [IxKey K] in
theorem page_of_fetch {n : IxNode K} (h : ih.fetchNode p = .ok n) : ih.pages p = some n := by
  rw [IxIndexHandle.fetchNode] at h
  split at h
  · cases h
    assumption
  · cases h

omit [IxKey K] in
theorem findChild_ok {parent : IxNode K} {rank : Nat} (h : IxIndexHandle.findChild parent p = .ok rank) :
    rank = parent.findChild p := by
  rw [IxIndexHandle.findChild] at h
  split at h
  · cases h
    rfl
  · cases h

theorem nets_maintainFirst {node : IxNode K} {key : K} (hnode : ih.pages p = some node) :
    Nets (maintainFirst ih p node key) fun _ n => 0 ≤ n ∧ (Restamped ih p node key → n = 1) := by
  rw [maintainFirst]
  refine .bind (nets_touch (.ite (fun _ => ?_) fun hkey => .pure ⟨le_refl _, fun h => absurd h.1 hkey⟩))
  cases ih.fd2pageno with
  | zero => exact .lift fun _ => nofun
  | succ fuel =>
      refine .bind (nets_read fun curr hcurr => ?_)
      cases hnode.symm.trans (page_of_fetch hcurr)
      refine .ite (fun hroot => .pure ⟨le_refl _, fun h => absurd hroot h.2.1⟩) fun _ => ?_
      refine .bind (nets_fetch fun parent hparent =>
        .bind (nets_touch (.bind (.lift fun rank hrank => .bind (nets_touch ?_)))))
      have hfind : rank = parent.findChild p := findChild_ok hrank
      refine .ite (fun hsame => .bind (nets_unpin (.pure ⟨le_refl _, fun h => ?_⟩))) fun _ =>
        .bind (nets_touch (.bind ?_))
      · exact absurd (hfind ▸ hsame) (h.2.2 parent (page_of_fetch hparent))
      · exact .pure ((nets_maintainParentLoop_held fuel).mono fun ih1 n hn => by omega)

theorem nets_insertIntoParent (fuel : Nat) (old new : Int) (key : K) :
    Nets (insertIntoParent fuel ih old key new) fun _ n => n = 0 := by
  induction fuel generalizing ih old new key with
  | zero => exact .lift fun _ => nofun
  | succ fuel iht =>
      refine .bind (nets_read fun oldNode _ => .ite (fun _ => ?_) fun _ => ?_)
      · refine .bind (nets_create (.bind (nets_read fun root _ => .bind (nets_read fun oldNode _ =>
          .bind (nets_read fun newNode _ => .bind (nets_unpin (.pure rfl)))))))
      · refine .bind (nets_fetch fun parent _ => .bind (nets_touch (.bind (nets_touch (.bind (nets_unpin
          (.bind (nets_touch (.ite (fun _ => ?_) fun _ => .pure rfl)))))))))
        refine .bind (nets_split.mono fun r n hn =>
          .bind (nets_read fun newParent _ => .bind ((iht _ _ _).mono fun ih1 m hm =>
          .bind (nets_unpin (.pure ?_)))))
        omega

omit [IxKey K] in
theorem nets_eraseLeaf : Nets (eraseLeaf ih p) fun _ n => n = 0 := by
  refine .bind (nets_read fun leaf _ => .ite (fun _ => ?_) fun _ => .lift fun _ => nofun)
  refine .bind (nets_fetch fun prev _ =>
    .bind (nets_touch (.bind (nets_unpin (.bind (nets_read fun leaf _ => ?_))))))
  exact .bind (nets_fetch fun next _ => .bind (nets_touch (.bind (nets_unpin (.pure rfl)))))

omit [IxKey K] in
theorem nets_retireLeaf (isLeaf : Bool) : Nets (retireLeaf ih p q isLeaf) fun _ n => n = 0 :=
  .ite (fun _ => nets_eraseLeaf) fun _ => .pure rfl

/-- Only an index that loses its root has a pin given back that was not taken here. -/
theorem nets_adjustRoot : Nets (adjustRoot ih p) fun r n => r.2.fileHdr.rootPage = -1 ∨ n = 0 := by
  refine .bind (nets_read fun root _ => .ite (fun _ => .ite (fun _ => ?_) fun _ => .pure (.inr rfl)) fun _ =>
    .ite (fun _ => ?_) fun _ => .pure (.inr rfl))
  · exact .bind (.bind (nets_unpin (.pure (.pure (.inl rfl)))))
  · exact .bind (nets_fetch fun node _ => .bind (nets_touch (.bind (nets_unpin (.pure (.inr rfl))))))

theorem nets_redistribute (parent : Int) (index : Nat) :
    Nets (redistribute ih p q parent index) fun _ n => n = 0 := by
  refine .bind (nets_read fun neighbor _ =>
    .bind (nets_read fun node _ => .bind (nets_read fun parentNode _ =>
    .ite (fun _ => ?_) fun _ => ?_)))
  · exact (nets_maintainChild _).mono fun ih1 n hn => by omega
  · exact (nets_maintainChild _).mono fun ih1 n hn => by omega

theorem nets_coalesce {again : IxIndexHandle K → Int → PinIx (Bool × IxIndexHandle K)}
    (parent : Int) (index : Nat)
    (hagain : ∀ ih p, Nets (again ih p) fun r n => r.2.fileHdr.rootPage = -1 ∨ 0 ≤ n) :
    Nets (coalesce again ih p q parent index) fun r n => r.2.fileHdr.rootPage = -1 ∨ -1 ≤ n := by
  rw [coalesce]
  generalize (if index = 0 then (q, p, 1) else (p, q, index)) = who
  obtain ⟨neighbor, node, index⟩ := who
  refine .bind (nets_read fun neighborNode _ =>
    .bind (nets_read fun thisNode _ => .bind ((nets_maintainChildren _ _).mono
    fun ih1 n hn => .bind
      (nets_touch (.bind ((nets_retireLeaf _).mono fun ih2 m hm => .bind (.bind (nets_unpin (.pure
      (.bind (nets_read fun parentNode _ => .ite (fun _ => .ite (fun _ => ?_) fun _ => .pure ?_) fun _ =>
        .lift fun _ => nofun)))))))))))
  · exact (hagain _ _).mono fun r k hk => by omega
  · omega

/-- The parent of a short node and its neighbor are fetched, and at most one of the three nodes is
given back. -/
theorem nets_coalesceOrRedistribute (fuel : Nat) : Nets (coalesceOrRedistribute fuel ih p) fun r n =>
    r.2.fileHdr.rootPage = -1 ∨ (0 ≤ n ∧ ∀ node, ih.pages p = some node → node.parent ≠ -1 →
      node.getSize < ih.fileHdr.btreeOrder / 2 → 0 < n) := by
  induction fuel generalizing ih p with
  | zero => exact .lift fun _ => nofun
  | succ fuel iht =>
      refine .bind (nets_read fun node hnode => .ite (fun hroot => ?_) fun _ =>
        .ite (fun hsize => .pure (.inr ⟨le_refl _, ?_⟩))
        fun _ => ?_)
      · refine nets_adjustRoot.mono fun r n hn => hn.imp id fun hn =>
          ⟨by omega, fun node' hnode' hparent => ?_⟩
        cases hnode'.symm.trans (page_of_fetch hnode)
        exact absurd (of_decide_eq_true hroot) hparent
      · intro node' hnode' _ hshort
        cases hnode'.symm.trans (page_of_fetch hnode)
        omega
      · refine .bind (nets_fetch fun parent _ =>
          .bind (nets_touch (.bind (.lift fun index _ => .bind (nets_fetch fun neighbor _ =>
          .bind (nets_touch (.bind (nets_touch (.ite (fun _ => ?_) fun _ => ?_)))))))))
        · refine .bind ((nets_redistribute _ _).mono fun ih1 n hn =>
            .pure (.inr ⟨?_, fun _ _ _ _ => ?_⟩)) <;> omega
        · refine (nets_coalesce _ _ fun ih1 p1 => (iht (p := p1)).mono fun r n hn => hn.imp id And.left).mono
            fun r n hn => hn.imp id fun hn => ⟨?_, fun _ _ _ _ => ?_⟩ <;> omega

theorem maintainFirst_same {node : IxNode K} {key : K} (hnode : ih.pages p = some node)
    (hsame : ¬Restamped ih p node key) (hrun : ih.maintainFirst p node key = .ok ih') : ih' = ih := by
  rw [IxIndexHandle.maintainFirst] at hrun
  split at hrun
  · next hkey =>
    rw [maintainParent] at hrun
    cases hfuel : ih.fd2pageno with
    | zero =>
        rw [hfuel] at hrun
        cases hrun
    | succ fuel =>
        rw [hfuel, IxIndexHandle.maintainParentLoop, fetchNode_eq hnode, ok_bind] at hrun
        split at hrun
        · cases hrun
          rfl
        · next hparent =>
          obtain ⟨parent, hfetch, hrun⟩ := bind_eq_ok.1 hrun
          obtain ⟨rank, hrank, hrun⟩ := bind_eq_ok.1 hrun
          rw [findChild_ok hrank] at hrun
          split at hrun
          · cases hrun
            rfl
          · next hne =>
            refine absurd ⟨hkey, hparent, fun parent' hparent' => ?_⟩ hsame
            cases hparent'.symm.trans (page_of_fetch hfetch)
            exact hne
  · cases hrun
    rfl

end Nets

section Neat

variable {o : Pins Int}

theorem neat_fetch {Q : IxNode K → Pins Int → Prop} (h : ∀ n, ih.fetchNode p = .ok n → Q n (o.pin p)) :
    Neat o (fetchNode ih p) Q := by
  intro n hn
  rw [fetchNode_result] at hn
  rw [fetchNode_events hn]
  exact ⟨trivial, h n hn⟩

theorem neat_read {Q : IxNode K → Pins Int → Prop} (hp : 0 < o p) (h : ∀ n, ih.fetchNode p = .ok n → Q n o) :
    Neat o (read ih p) Q := .bind (.touch hp (.lift h))

theorem neat_touch {Q : PUnit → Pins Int → Prop} (hp : 0 < o p) (h : Q ⟨⟩ o) :
    Neat o (touch p) Q := .touch hp h

theorem neat_unpin {Q : PUnit → Pins Int → Prop} (h : Q ⟨⟩ (o.unpin p)) : Neat o (unpinPage p) Q := .unpin h

theorem neat_create {Q : Int × IxIndexHandle K → Pins Int → Prop}
    (h : Q ih.createNode (o.pin ih.createNode.1)) :
    Neat o (createNode ih) Q := by
  rintro a ⟨⟩
  exact ⟨trivial, h⟩

variable [IxKey K]

/-- The descent gives back the pin of each node when it has the one of the child. -/
theorem neat_descend (key : K) (fuel : Nat) :
    Neat (o.pin p) (descend ih key fuel p) fun leaf o' => ih.descend key fuel p = .ok leaf ∧
    o' = o.pin leaf := by
  induction fuel generalizing p with
  | zero => exact .lift fun _ => nofun
  | succ fuel iht =>
      refine .bind (neat_read pin_pos_self fun node hnode => ?_)
      have hstep : ih.descend key (fuel + 1) p =
          if node.isLeaf then .ok p else ih.descend key fuel (node.internalLookup key) := by
        rw [IxIndexHandle.descend, hnode, ok_bind]
      rw [hstep]
      refine .ite (fun hleaf => .pure ?_) fun hleaf => .bind (neat_fetch fun child _ => .bind (neat_unpin ?_))
      · rw [if_pos hleaf]
        exact ⟨rfl, rfl⟩
      · rw [if_neg hleaf, unpin_pin_pin]
        exact iht

theorem neat_findLeafPage (key : K) :
    Neat o (findLeafPage ih key) fun leaf o' => ih.findLeafPage key = .ok leaf ∧ o' = o.pin leaf :=
  .bind (neat_fetch fun _ _ => neat_descend key _)

theorem nets_descend (key : K) (fuel : Nat) :
    Nets (descend ih key fuel p) fun leaf n => ih.descend key fuel p = .ok leaf ∧ n = 0 := by
  induction fuel generalizing p with
  | zero => exact .lift fun _ => nofun
  | succ fuel iht =>
      refine .bind (nets_read fun node hnode => ?_)
      have hstep : ih.descend key (fuel + 1) p =
          if node.isLeaf then .ok p else ih.descend key fuel (node.internalLookup key) := by
        rw [IxIndexHandle.descend, hnode, ok_bind]
      rw [hstep]
      refine .ite (fun hleaf => .pure ?_) fun hleaf => .bind (nets_fetch fun child _ => .bind (nets_unpin ?_))
      · rw [if_pos hleaf]
        exact ⟨rfl, rfl⟩
      · rw [if_neg hleaf]
        exact iht.mono fun leaf n hn => ⟨hn.1, by omega⟩

theorem nets_findLeafPage (key : K) :
    Nets (findLeafPage ih key) fun leaf n => ih.findLeafPage key = .ok leaf ∧ n = 1 :=
  .bind (nets_fetch fun _ _ => (nets_descend key _).mono fun leaf n hn => ⟨hn.1, by omega⟩)

theorem descend_result {key : K} {fuel : Nat} {leaf : Int} (h : ih.descend key fuel p = .ok leaf) :
    (descend ih key fuel p).result = .ok leaf ∧ ∃ n, ih.fetchNode p = .ok n := by
  induction fuel generalizing p with
  | zero => cases h
  | succ fuel iht =>
      obtain ⟨node, hnode, h⟩ := bind_eq_ok.1 h
      refine ⟨?_, node, hnode⟩
      simp only [descend, bind_result, read_result, hnode, ok_bind, ite_result, pure_result,
        fetchNode_result, unpinPage_result]
      split at h
      · next hleaf => rwa [if_pos hleaf]
      · next hleaf =>
        obtain ⟨hrest, child, hchild⟩ := iht h
        rw [if_neg hleaf, hchild, ok_bind, hrest]

theorem findLeafPage_result {key : K} {leaf : Int} (h : ih.findLeafPage key = .ok leaf) :
    (findLeafPage ih key).result = .ok leaf := by
  obtain ⟨hrest, root, hroot⟩ := descend_result h
  simp only [findLeafPage, bind_result, fetchNode_result, hroot, ok_bind, hrest]

theorem neat_maintainFirst {node : IxNode K} {key : K} (hnode : ih.pages p = some node) (hp : 0 < o p)
    (hsame : ¬Restamped ih p node key) :
    Neat o (maintainFirst ih p node key) fun ih' o' => ih' = ih ∧ o' = o := by
  rw [maintainFirst]
  refine .bind (neat_touch hp (.ite (fun hkey => ?_) fun _ => .pure ⟨rfl, rfl⟩))
  cases ih.fd2pageno with
  | zero => exact .lift fun _ => nofun
  | succ fuel =>
      refine .bind (neat_read hp fun curr hcurr => ?_)
      cases hnode.symm.trans (page_of_fetch hcurr)
      refine .ite (fun _ => .pure ⟨rfl, rfl⟩) fun hparent =>
        .bind (neat_fetch fun parent hfetch => .bind (neat_touch pin_pos_self
        (.bind (.lift fun rank hrank => .bind (neat_touch (pin_pos hp) (.ite (fun _ => ?_) fun hne => ?_))))))
      · exact .bind (neat_unpin (.pure ⟨rfl, unpin_pin⟩))
      · refine absurd ⟨hkey, hparent, fun parent' hparent' => ?_⟩ hsame
        cases hparent'.symm.trans (page_of_fetch hfetch)
        rw [← findChild_ok hrank]
        exact hne

/-- The split of a leaf leaves the new leaf pinned, and both nodes with the parent that there was. -/
theorem neat_split {n : IxNode K} (hn : ih.pages p = some n) (hleaf : n.isLeaf = true)
    (hne : p ≠ ih.fd2pageno) (hp : 0 < o p) :
    Neat o (split ih p) fun r o' => r.1 = ih.fd2pageno ∧ o' = o.pin r.1 ∧ ∃ n', r.2.pages p = some n' ∧
      n'.parent = n.parent := by
  refine .bind (neat_create
    (.bind (neat_read (pin_pos hp) fun node hnode => .bind (neat_read pin_pos_self fun newNode _ => ?_))))
  have heq : ih.createNode.2.pages p = ih.pages p := Function.update_of_ne hne ..
  obtain rfl : n = node := Option.some.inj ((heq.trans hn).symm.trans (page_of_fetch hnode))
  refine .ite (fun _ => ?_) fun hinner => absurd hleaf hinner
  refine .bind (neat_fetch fun next hnext =>
    .bind (neat_touch pin_pos_self (.bind (neat_unpin (.pure ⟨rfl, unpin_pin, ?_⟩)))))
  have hnext := page_of_fetch hnext
  by_cases hsame : p = n.nextLeaf
  · refine ⟨_, (congrArg _ hsame).trans (Function.update_self ..), ?_⟩
    have : next.parent = n.parent := by
      change ((_ : IxIndexHandle K).writeNode p _).pages n.nextLeaf = some next at hnext
      rw [← hsame] at hnext
      cases (Function.update_self ..).symm.trans hnext
      rfl
    exact this
  · exact ⟨_, (Function.update_of_ne hsame ..).trans (Function.update_self ..), rfl⟩

theorem neat_insertIntoParent_root {old new : Int} {key : K} {n : IxNode K} (fuel : Nat)
    (hn : ih.pages old = some n) (hroot : n.parent = -1) (hold : 0 < o old) (hnew : 0 < o new) :
    Neat o (insertIntoParent fuel ih old key new) fun _ o' => o' = o := by
  cases fuel with
  | zero => exact .lift fun _ => nofun
  | succ fuel =>
      refine .bind (neat_read hold fun oldNode hfetch => .ite (fun _ => ?_) fun hne => ?_)
      · exact .bind (neat_create
          (.bind (neat_read pin_pos_self fun root _ => .bind (neat_read (pin_pos hold) fun oldNode _ =>
          .bind (neat_read (pin_pos hnew) fun newNode _ => .bind (neat_unpin (.pure unpin_pin)))))))
      · cases hn.symm.trans (page_of_fetch hfetch)
        exact absurd (decide_eq_true hroot) hne

/-- The parent of a node that is not the root is read without a pin. -/
theorem bare_insertIntoParent {old new : Int} {key : K} {n : IxNode K} (fuel : Nat)
    (hn : ih.pages old = some n) (hroot : n.parent ≠ -1) (hold : 0 < o old) (hnew : 0 < o new)
    (hparent : o n.parent = 0) :
    Bare o (insertIntoParent fuel ih old key new) := by
  cases fuel with
  | zero => exact fun _ => nofun
  | succ fuel =>
      refine .bind (neat_read hold fun oldNode hfetch => ?_)
      cases hn.symm.trans (page_of_fetch hfetch)
      have hne : ¬ n.isRootPage = true := fun h => hroot (of_decide_eq_true h)
      rw [if_neg hne]
      refine .bind (neat_fetch fun parent _ =>
        .bind (neat_touch (pin_pos hnew) (.bind (neat_touch pin_pos_self
        (.bind (neat_unpin (.first (.touch ?_))))))))
      rw [unpin_pin]
      exact hparent

end Neat

end IxPins

end Rmdb
