import Rmdb.Lib.SepList

namespace Rmdb.BPlus

open SepList

/-- A node of a paged tree: the page it lives on and its keyed items. -/
structure PNode (K I : Type) where
  page : Int
  items : List (K × I)

/-- The items of a node at height `h`: stored values in a leaf, subtrees of height
`h - 1` above. All leaves of a tree are at the same depth by typing. -/
def Item (K V : Type) : Nat → Type
  | 0 => V
  | h + 1 => PNode K (Item K V h)

/-- A tree of height `h`, seen as an item of the node above it. -/
abbrev Tree (K V : Type) (h : Nat) := Item K V (h + 1)

variable {K V : Type} {h : Nat}

namespace Tree

def mk (page : Int) (items : List (K × Item K V h)) : Tree K V h := PNode.mk page items

def page (t : Tree K V h) : Int := PNode.page t

def items (t : Tree K V h) : List (K × Item K V h) := PNode.items t

@[simp] theorem page_mk (p : Int) (l : List (K × Item K V h)) : (mk p l).page = p := rfl

@[simp] theorem items_mk (p : Int) (l : List (K × Item K V h)) : (mk p l).items = l := rfl

@[simp] theorem mk_eta (t : Tree K V h) : mk t.page t.items = t := rfl

end Tree

def val (e : K × Item K V 0) : K × V := e

def ofVal (e : K × V) : K × Item K V 0 := e

@[simp] theorem val_ofVal (e : K × V) : val (ofVal e) = e := rfl

@[simp] theorem ofVal_val (e : K × Item K V 0) : ofVal (val e) = e := rfl

@[simp] theorem ofVal_fst (e : K × V) : (ofVal e).1 = e.1 := rfl

@[simp] theorem val_fst (e : K × Item K V 0) : (val e).1 = e.1 := rfl

/-- What a page must hold for a node of the tree: its parent's page, whether it is a
leaf, and the keyed pairs, where a subtree is held as a pointer to its page. -/
structure Rec (K V : Type) where
  page : Int
  parent : Int
  isLeaf : Bool
  pairs : List (K × V)

section Contents

variable (ptr : Int → V)

def pairOf : (h : Nat) → K × Item K V h → K × V
  | 0, e => val e
  | _ + 1, e => (e.1, ptr (Tree.page e.2))

def Tree.pairs (t : Tree K V h) : List (K × V) := t.items.map (pairOf ptr h)

theorem pairOf_succ (e : K × Tree K V h) : pairOf ptr (h + 1) e = (e.1, ptr (Tree.page e.2)) := rfl

@[simp] theorem pairs_zero (t : Tree K V 0) : t.pairs ptr = t.items.map val := rfl

def recsItem : (h : Nat) → Int → K × Item K V h → List (Rec K V)
  | 0, _, _ => []
  | h + 1, parent, e =>
      ⟨Tree.page e.2, parent, h == 0, Tree.pairs ptr e.2⟩ ::
        (Tree.items e.2).flatMap (recsItem h (Tree.page e.2))

def kidRecs (p : Int) (l : List (K × Item K V h)) : List (Rec K V) := l.flatMap (recsItem ptr h p)

def Tree.recs (parent : Int) (t : Tree K V h) : List (Rec K V) :=
  ⟨t.page, parent, h == 0, t.pairs ptr⟩ :: kidRecs ptr t.page t.items

@[simp] theorem kidRecs_zero (p : Int) (l : List (K × Item K V 0)) : kidRecs ptr p l = [] := by
  induction l with
  | nil => rfl
  | cons e l ih => simp [kidRecs, recsItem]

@[simp] theorem kidRecs_nil (p : Int) : kidRecs ptr p ([] : List (K × Item K V h)) = [] := rfl

@[simp] theorem kidRecs_append (p : Int) (l r : List (K × Item K V h)) :
    kidRecs ptr p (l ++ r) = kidRecs ptr p l ++ kidRecs ptr p r := List.flatMap_append

@[simp] theorem kidRecs_cons (p : Int) (e : K × Tree K V h) (l : List (K × Tree K V h)) :
    kidRecs ptr p (e :: l) = Tree.recs ptr p e.2 ++ kidRecs ptr p l := rfl

end Contents

def flatItem : (h : Nat) → K × Item K V h → List (Tok K)
  | 0, e => [.ent e.1]
  | h + 1, e => .sep e.1 :: (Tree.items e.2).flatMap (flatItem h)

def flat (l : List (K × Item K V h)) : List (Tok K) := l.flatMap (flatItem h)

def entsItem : (h : Nat) → K × Item K V h → List (K × V)
  | 0, e => [val e]
  | h + 1, e => (Tree.items e.2).flatMap (entsItem h)

def ents (l : List (K × Item K V h)) : List (K × V) := l.flatMap (entsItem h)

def leavesItem : (h : Nat) → K × Item K V h → List Int
  | 0, _ => []
  | 1, e => [Tree.page e.2]
  | h + 2, e => (Tree.items e.2).flatMap (leavesItem (h + 1))

def kidLeaves (l : List (K × Item K V h)) : List Int := l.flatMap (leavesItem h)

def Tree.leaves : {h : Nat} → Tree K V h → List Int
  | 0, t => [t.page]
  | _ + 1, t => kidLeaves t.items

@[simp] theorem flat_nil : flat ([] : List (K × Item K V h)) = [] := rfl

@[simp] theorem flat_append (l r : List (K × Item K V h)) : flat (l ++ r) = flat l ++ flat r :=
  List.flatMap_append

@[simp] theorem flat_cons (e : K × Tree K V h) (l : List (K × Tree K V h)) :
    flat (e :: l) = .sep e.1 :: (flat (Tree.items e.2) ++ flat l) := rfl

theorem flat_zero (l : List (K × Item K V 0)) : flat l = l.map (fun e => .ent e.1) := by
  induction l with
  | nil => rfl
  | cons e l ih => simpa [flat, flatItem] using ih

theorem flat_head (e : K × Item K V h) (l : List (K × Item K V h)) :
    ∃ y tl, flat (e :: l) = y :: tl ∧ y.key = e.1 := by
  cases h with
  | zero => exact ⟨.ent e.1, flat l, rfl, rfl⟩
  | succ h => exact ⟨.sep e.1, _, rfl, rfl⟩

@[simp] theorem ents_nil : ents ([] : List (K × Item K V h)) = [] := rfl

@[simp] theorem ents_append (l r : List (K × Item K V h)) : ents (l ++ r) = ents l ++ ents r :=
  List.flatMap_append

@[simp] theorem ents_cons (e : K × Tree K V h) (l : List (K × Tree K V h)) :
    ents (e :: l) = ents (Tree.items e.2) ++ ents l := rfl

theorem ents_zero (l : List (K × Item K V 0)) : ents l = l.map val := by
  induction l with
  | nil => rfl
  | cons e l ih => simpa [ents, entsItem] using ih

@[simp] theorem kidLeaves_nil : kidLeaves ([] : List (K × Item K V h)) = [] := rfl

@[simp] theorem kidLeaves_append (l r : List (K × Item K V h)) :
    kidLeaves (l ++ r) = kidLeaves l ++ kidLeaves r := List.flatMap_append

@[simp] theorem kidLeaves_cons (e : K × Tree K V h) (l : List (K × Tree K V h)) :
    kidLeaves (e :: l) = Tree.leaves e.2 ++ kidLeaves l := by
  cases h <;> rfl

@[simp] theorem leaves_zero (t : Tree K V 0) : t.leaves = [t.page] := rfl

@[simp] theorem leaves_succ (t : Tree K V (h + 1)) : t.leaves = kidLeaves t.items := rfl

def leafPairsItem : (h : Nat) → K × Item K V h → List (Int × List (K × V))
  | 0, _ => []
  | 1, e => [(Tree.page e.2, (Tree.items e.2).map val)]
  | h + 2, e => (Tree.items e.2).flatMap (leafPairsItem (h + 1))

def Tree.leafPairs : {h : Nat} → Tree K V h → List (Int × List (K × V))
  | 0, t => [(t.page, t.items.map val)]
  | h + 1, t => t.items.flatMap (leafPairsItem (h + 1))

theorem leafPairsItem_succ (e : K × Tree K V h) : leafPairsItem (h + 1) e = Tree.leafPairs e.2 := by
  cases h <;> rfl

theorem leafPairs_succ (t : Tree K V (h + 1)) :
    t.leafPairs = t.items.flatMap (fun e => Tree.leafPairs e.2) := by
  rw [Tree.leafPairs]
  congr 1
  funext e
  exact leafPairsItem_succ e

theorem leafPairs_fst (t : Tree K V h) : t.leafPairs.map Prod.fst = t.leaves := by
  induction h with
  | zero => rfl
  | succ h ih =>
      rw [leafPairs_succ, leaves_succ]
      induction t.items with
      | nil => rfl
      | cons e l ihl => rw [List.flatMap_cons, List.map_append, ih, ihl, kidLeaves_cons]

theorem leafPairs_snd (t : Tree K V h) : t.leafPairs.flatMap Prod.snd = ents t.items := by
  induction h with
  | zero => simp [Tree.leafPairs, ents_zero]
  | succ h ih =>
      rw [leafPairs_succ]
      induction t.items with
      | nil => rfl
      | cons e l ihl => rw [List.flatMap_cons, List.flatMap_append, ih, ihl, ents_cons]

theorem leafPairs_recs (ptr : Int → V) (par : Int) (t : Tree K V h) :
    ∀ x ∈ t.leafPairs, ∃ q, ⟨x.1, q, true, x.2⟩ ∈ t.recs ptr par := by
  induction h generalizing par with
  | zero =>
      intro x hx
      rw [List.mem_singleton.1 hx]
      exact ⟨par, by simp [Tree.recs]⟩
  | succ h ih =>
      intro x hx
      rw [leafPairs_succ] at hx
      obtain ⟨e, he, hxe⟩ := List.mem_flatMap.1 hx
      obtain ⟨q, hq⟩ := ih t.page e.2 x hxe
      refine ⟨q, List.mem_cons_of_mem _ ?_⟩
      exact List.mem_flatMap.2 ⟨e, he, hq⟩

def gapPairs (ptr : Int → V) (l : List (K × Tree K V h)) (k : K) (hole : Int)
    (r : List (K × Tree K V h)) : List (K × V) :=
  l.map (pairOf ptr (h + 1)) ++ (k, ptr hole) :: r.map (pairOf ptr (h + 1))

/-- A tree with one subtree of height `h` cut out: the nodes on the path to the root,
each with the siblings to the left and right of the path and the separator on it. -/
inductive Ctx (K V : Type) : Nat → Type
  | top {h : Nat} : Ctx K V h
  | frame {h : Nat} (page : Int) (l : List (K × Tree K V h)) (k : K) (r : List (K × Tree K V h))
      (up : Ctx K V (h + 1)) : Ctx K V h

namespace Ctx

def parent : Ctx K V h → Int
  | .top => -1
  | .frame p _ _ _ _ => p

@[simp] theorem parent_top : (Ctx.top : Ctx K V h).parent = -1 := rfl

@[simp] theorem parent_frame (p : Int) (l : List (K × Tree K V h)) (k : K) (r : List (K × Tree K V h))
    (up : Ctx K V (h + 1)) : (Ctx.frame p l k r up).parent = p := rfl

def root : {h : Nat} → Ctx K V h → Int → Int
  | _, .top, hole => hole
  | _, .frame p _ _ _ up, _ => up.root p

def depth : {h : Nat} → Ctx K V h → Nat
  | _, .top => 0
  | _, .frame _ _ _ _ up => up.depth + 1

def recs (ptr : Int → V) : {h : Nat} → Ctx K V h → Int → List (Rec K V)
  | _, .top, _ => []
  | _, .frame p l k r up, hole =>
      ⟨p, up.parent, false, gapPairs ptr l k hole r⟩ ::
        (kidRecs ptr p l ++ kidRecs ptr p r ++ up.recs ptr p)

def left : {h : Nat} → Ctx K V h → List (Tok K)
  | _, .top => []
  | _, .frame _ l k _ up => up.left ++ flat l ++ [.sep k]

def right : {h : Nat} → Ctx K V h → List (Tok K)
  | _, .top => []
  | _, .frame _ _ _ r up => flat r ++ up.right

def leftEnts : {h : Nat} → Ctx K V h → List (K × V)
  | _, .top => []
  | _, .frame _ l _ _ up => up.leftEnts ++ ents l

def rightEnts : {h : Nat} → Ctx K V h → List (K × V)
  | _, .top => []
  | _, .frame _ _ _ r up => ents r ++ up.rightEnts

def leftLeaves : {h : Nat} → Ctx K V h → List Int
  | _, .top => []
  | _, .frame _ l _ _ up => up.leftLeaves ++ kidLeaves l

def rightLeaves : {h : Nat} → Ctx K V h → List Int
  | _, .top => []
  | _, .frame _ _ _ r up => kidLeaves r ++ up.rightLeaves

/-- The separators on the path after the first key of the cut-out subtree has become
`f`: rewritten upwards until one already has the value it should get. -/
def refit [DecidableEq K] : {h : Nat} → K → Ctx K V h → Ctx K V h
  | _, _, .top => .top
  | _, f, .frame p l k r up =>
      if k = f then .frame p l k r up
      else .frame p l f r (up.refit ((l.map Prod.fst).headD f))

theorem refit_frame [DecidableEq K] (f : K) (p : Int) (l : List (K × Tree K V h)) (k : K)
    (r : List (K × Tree K V h)) (up : Ctx K V (h + 1)) : (Ctx.frame p l k r up).refit f =
      if k = f then .frame p l k r up else .frame p l f r (up.refit ((l.map Prod.fst).headD f)) := rfl

end Ctx

def zrecs (ptr : Int → V) (ctx : Ctx K V h) (t : Tree K V h) : List (Rec K V) :=
  t.recs ptr ctx.parent ++ ctx.recs ptr t.page

def zflat (ctx : Ctx K V h) (t : Tree K V h) : List (Tok K) := ctx.left ++ flat t.items ++ ctx.right

def zents (ctx : Ctx K V h) (t : Tree K V h) : List (K × V) := ctx.leftEnts ++ ents t.items ++ ctx.rightEnts

def zleaves (ctx : Ctx K V h) (t : Tree K V h) : List Int := ctx.leftLeaves ++ t.leaves ++ ctx.rightLeaves

def Tree.close (p : Int) (l : List (K × Tree K V h)) (k : K) (t : Tree K V h)
    (r : List (K × Tree K V h)) : Tree K V (h + 1) := Tree.mk p (l ++ (k, t) :: r)

section Close

variable (p : Int) (l : List (K × Tree K V h)) (k : K) (t : Tree K V h) (r : List (K × Tree K V h))
  (up : Ctx K V (h + 1))

theorem zrecs_close (ptr : Int → V) :
    (zrecs ptr up (Tree.close p l k t r)).Perm (zrecs ptr (.frame p l k r up) t) := by
  rw [← Multiset.coe_eq_coe]
  simp only [zrecs, Tree.close, Tree.recs, Tree.pairs, Ctx.recs, gapPairs, Ctx.parent_frame, Tree.page_mk,
    Tree.items_mk, kidRecs_append, kidRecs_cons, List.map_append, List.map_cons, pairOf,
    ← Multiset.coe_add, ← Multiset.cons_coe, ← Multiset.singleton_add]
  rw [show ((h + 1 == 0) = false) from rfl]
  abel

theorem zflat_close : zflat up (Tree.close p l k t r) = zflat (.frame p l k r up) t := by
  simp [zflat, Tree.close, Ctx.left, Ctx.right]

theorem zents_close : zents up (Tree.close p l k t r) = zents (.frame p l k r up) t := by
  simp [zents, Tree.close, Ctx.leftEnts, Ctx.rightEnts]

theorem zleaves_close : zleaves up (Tree.close p l k t r) = zleaves (.frame p l k r up) t := by
  simp [zleaves, Tree.close, Ctx.leftLeaves, Ctx.rightLeaves]

end Close

theorem leaves_sublist (ptr : Int → V) (p : Int) (t : Tree K V h) :
    t.leaves.Sublist ((t.recs ptr p).map Rec.page) := by
  induction h generalizing p with
  | zero => simp [Tree.recs]
  | succ h ih =>
      have hkids : ∀ l : List (K × Tree K V h),
          (kidLeaves l).Sublist ((kidRecs ptr t.page l).map Rec.page) := by
        intro l
        induction l with
        | nil => exact List.Sublist.refl _
        | cons e l ihl =>
            rw [kidLeaves_cons, kidRecs_cons, List.map_append]
            exact (ih t.page e.2).append ihl
      rw [leaves_succ, Tree.recs, List.map_cons]
      exact (hkids t.items).cons _

theorem zleaves_subperm (ptr : Int → V) (ctx : Ctx K V h) (t : Tree K V h) :
    (zleaves ctx t).Subperm ((zrecs ptr ctx t).map Rec.page) := by
  induction ctx with
  | top => simpa [zleaves, zrecs, Ctx.leftLeaves, Ctx.rightLeaves, Ctx.recs] using
      (leaves_sublist ptr (-1) t).subperm
  | frame p l k r up ih =>
      rw [← zleaves_close]
      exact (ih _).trans ((zrecs_close p l k t r up ptr).map _).subperm

end Rmdb.BPlus
