import Rmdb.Lib.BPlus

namespace Rmdb.BPlus

open SepList

variable {K V : Type} {h : Nat}

def entKeys (l : List (Tok K)) : List K :=
  l.filterMap (fun x => match x with | .ent k => some k | .sep _ => none)

@[simp] theorem entKeys_append (l r : List (Tok K)) : entKeys (l ++ r) = entKeys l ++ entKeys r :=
  List.filterMap_append

@[simp] theorem entKeys_sep (k : K) (l : List (Tok K)) : entKeys (.sep k :: l) = entKeys l := rfl

@[simp] theorem entKeys_ent (k : K) (l : List (Tok K)) : entKeys (.ent k :: l) = k :: entKeys l := rfl

@[simp] theorem entKeys_nil : entKeys ([] : List (Tok K)) = [] := rfl

theorem mem_entKeys {k : K} {l : List (Tok K)} : k ∈ entKeys l ↔ Tok.ent k ∈ l := by
  induction l with
  | nil => simp
  | cons x l ih => cases x <;> simp [ih]

theorem entKeys_flat : {h : Nat} → (l : List (K × Item K V h)) → entKeys (flat l) = (ents l).map Prod.fst
  | 0, l => by
      rw [flat_zero, ents_zero]
      induction l with
      | nil => rfl
      | cons e l ih => simpa using ih
  | h + 1, l => by
      induction l with
      | nil => rfl
      | cons e l ih =>
          have he := entKeys_flat (Tree.items e.2)
          simp only [flat_cons, entKeys_sep, entKeys_append, he, ih, ents_cons, List.map_append]

theorem entKeys_left (ctx : Ctx K V h) : entKeys ctx.left = ctx.leftEnts.map Prod.fst := by
  induction ctx with
  | top => rfl
  | frame p l k r up ih => simp [Ctx.left, Ctx.leftEnts, ih, entKeys_flat]

theorem entKeys_right (ctx : Ctx K V h) : entKeys ctx.right = ctx.rightEnts.map Prod.fst := by
  induction ctx with
  | top => rfl
  | frame p l k r up ih => simp [Ctx.right, Ctx.rightEnts, ih, entKeys_flat]

theorem entKeys_zflat (ctx : Ctx K V h) (t : Tree K V h) :
    entKeys (zflat ctx t) = (zents ctx t).map Prod.fst := by
  simp [zflat, zents, entKeys_left, entKeys_right, entKeys_flat]

section Refit

variable [DecidableEq K]

@[simp] theorem refit_parent (f : K) (ctx : Ctx K V h) : (ctx.refit f).parent = ctx.parent := by
  cases ctx with
  | top => rfl
  | frame p l k r up => by_cases hk : k = f <;> simp [Ctx.refit_frame, hk]

@[simp] theorem refit_root (f : K) (ctx : Ctx K V h) (hole : Int) :
    (ctx.refit f).root hole = ctx.root hole := by
  induction ctx generalizing f hole with
  | top => rfl
  | frame p l k r up ih => by_cases hk : k = f <;> simp [Ctx.refit_frame, Ctx.root, hk, ih]

@[simp] theorem refit_right (f : K) (ctx : Ctx K V h) : (ctx.refit f).right = ctx.right := by
  induction ctx generalizing f with
  | top => rfl
  | frame p l k r up ih => by_cases hk : k = f <;> simp [Ctx.refit_frame, Ctx.right, hk, ih]

@[simp] theorem refit_leftEnts (f : K) (ctx : Ctx K V h) : (ctx.refit f).leftEnts = ctx.leftEnts := by
  induction ctx generalizing f with
  | top => rfl
  | frame p l k r up ih => by_cases hk : k = f <;> simp [Ctx.refit_frame, Ctx.leftEnts, hk, ih]

@[simp] theorem refit_rightEnts (f : K) (ctx : Ctx K V h) : (ctx.refit f).rightEnts = ctx.rightEnts := by
  induction ctx generalizing f with
  | top => rfl
  | frame p l k r up ih => by_cases hk : k = f <;> simp [Ctx.refit_frame, Ctx.rightEnts, hk, ih]

@[simp] theorem refit_leftLeaves (f : K) (ctx : Ctx K V h) :
    (ctx.refit f).leftLeaves = ctx.leftLeaves := by
  induction ctx generalizing f with
  | top => rfl
  | frame p l k r up ih => by_cases hk : k = f <;> simp [Ctx.refit_frame, Ctx.leftLeaves, hk, ih]

@[simp] theorem refit_rightLeaves (f : K) (ctx : Ctx K V h) :
    (ctx.refit f).rightLeaves = ctx.rightLeaves := by
  induction ctx generalizing f with
  | top => rfl
  | frame p l k r up ih => by_cases hk : k = f <;> simp [Ctx.refit_frame, Ctx.rightLeaves, hk, ih]

end Refit

/-- Fill of the subtrees below a node: every node but the root holds at least half of
`order` and fewer than `order` items. -/
def Sized (order : Nat) : (h : Nat) → K × Item K V h → Prop
  | 0, _ => True
  | h + 1, e => order / 2 ≤ (Tree.items e.2).length ∧ (Tree.items e.2).length < order ∧
      ∀ i ∈ Tree.items e.2, Sized order h i

def Tree.Sized (order : Nat) (t : Tree K V h) : Prop :=
  order / 2 ≤ t.items.length ∧ t.items.length < order ∧ ∀ i ∈ t.items, BPlus.Sized order h i

theorem Tree.Sized.cons {order : Nat} {t : Tree K V h} (hs : t.Sized order) (ho : 2 ≤ order) :
    ∃ e rest, t.items = e :: rest := by
  cases hi : t.items with
  | nil =>
      have := hs.1
      rw [hi, List.length_nil] at this
      omega
  | cons e rest => exact ⟨e, rest, rfl⟩

theorem leafPairs_ne (order : Nat) (ho : 2 ≤ order) (t : Tree K V (h + 1))
    (hk : ∀ e ∈ t.items, Sized order (h + 1) e) :
    ∀ x ∈ t.leafPairs, x.2 ≠ [] := by
  induction h with
  | zero =>
      intro x hx
      rw [leafPairs_succ] at hx
      obtain ⟨e, he, hxe⟩ := List.mem_flatMap.1 hx
      obtain ⟨c, rest, hc⟩ := Tree.Sized.cons (t := e.2) (hk e he) ho
      rw [List.mem_singleton.1 hxe]
      simp [hc]
  | succ h ih =>
      intro x hx
      rw [leafPairs_succ] at hx
      obtain ⟨e, he, hxe⟩ := List.mem_flatMap.1 hx
      exact ih e.2 (hk e he).2.2 x hxe

namespace Ctx

/-- The least number of items the node in the gap may hold. -/
def Low (order : Nat) : {h : Nat} → Ctx K V h → Nat → Prop
  | h, .top, n => h = 0 ∨ 2 ≤ n
  | _, .frame _ _ _ _ _, n => order / 2 ≤ n

def Sized (order : Nat) : {h : Nat} → Ctx K V h → Prop
  | _, .top => True
  | h, .frame _ l _ r up =>
      (∀ e ∈ l, BPlus.Sized order (h + 1) e) ∧ (∀ e ∈ r, BPlus.Sized order (h + 1) e) ∧
        up.Low order (l.length + 1 + r.length) ∧ l.length + 1 + r.length < order ∧ up.Sized order

theorem Low.mono {order n m : Nat} {ctx : Ctx K V h} (hl : ctx.Low order n) (hnm : n ≤ m) :
    ctx.Low order m := by
  cases ctx with
  | top => exact hl.imp id (fun h2 => h2.trans hnm)
  | frame p l k r up => exact le_trans hl hnm

end Ctx

section RefitSized

variable [DecidableEq K]

@[simp] theorem refit_low (order : Nat) (f : K) (ctx : Ctx K V h) (n : Nat) :
    (ctx.refit f).Low order n ↔ ctx.Low order n := by
  cases ctx with
  | top => rfl
  | frame p l k r up => by_cases hk : k = f <;> simp [Ctx.refit_frame, Ctx.Low, hk]

@[simp] theorem refit_sized (order : Nat) (f : K) (ctx : Ctx K V h) :
    (ctx.refit f).Sized order ↔ ctx.Sized order := by
  induction ctx generalizing f with
  | top => rfl
  | frame p l k r up ih => by_cases hk : k = f <;> simp [Ctx.refit_frame, Ctx.Sized, hk, ih]

end RefitSized

section Order

variable [LinearOrder K]

theorem Sorted.entKeys_lt {l : List (Tok K)} (hs : Sorted l) : (entKeys l).Pairwise (· < ·) := by
  refine List.Pairwise.filterMap _ ?_ hs
  intro x y hxy a ha b hb
  cases x <;> cases y <;> simp_all

/-- The part of the left context that is in order before a new key `k`: the separators
of a leftmost path that are above `k` are left out. -/
def Ctx.kept (k : K) : {h : Nat} → Ctx K V h → List (Tok K)
  | _, .top => []
  | _, .frame _ l s _ up => if l.isEmpty ∧ k < s then up.kept k else up.left ++ flat l ++ [.sep s]

theorem kept_sublist (k : K) (ctx : Ctx K V h) : (ctx.kept k).Sublist ctx.left := by
  induction ctx with
  | top => exact List.Sublist.refl _
  | frame p l s r up ih =>
      rw [Ctx.kept]
      split
      · rw [Ctx.left, List.append_assoc]
        exact ih.trans (List.sublist_append_left _ _)
      · exact List.Sublist.refl _

/-- Rewriting the separators on the path restores the order that a new first key of the
subtree may have broken. -/
theorem refit_sorted (ctx : Ctx K V h) (y : Tok K) (l : List (Tok K))
    (hs : Sorted (ctx.kept y.key ++ (y :: l) ++ ctx.right)) :
    Sorted ((ctx.refit y.key).left ++ (y :: l) ++ ctx.right) := by
  induction ctx generalizing y l with
  | top => exact hs
  | frame p ls s r up ih =>
      rw [Ctx.refit_frame]
      split
      · next he =>
          rw [Ctx.kept, if_neg (by rw [he]; simp)] at hs
          exact hs
      · next hne =>
          cases ls with
          | nil =>
              -- the path goes through the first child, so the new key moves up unchanged
              have hup : Sorted (up.kept y.key ++ y :: (l ++ (flat r ++ up.right))) := by
                rw [Ctx.kept] at hs
                split at hs
                · simpa [Ctx.right] using hs
                · refine Sorted.sublist hs ?_
                  simp only [Ctx.right, flat_nil, List.append_nil, List.append_assoc, List.cons_append]
                  exact (kept_sublist _ _).append (List.sublist_cons_self _ _)
              have hc := hup.copy
              have := ih (.sep y.key) (y :: l ++ flat r) (by simpa using hc)
              simpa [Ctx.left, Ctx.right] using this
          | cons e ls =>
              rw [Ctx.kept, if_neg (by simp)] at hs
              have hc : Sorted ((up.left ++ flat (e :: ls)) ++ y :: (l ++ (flat r ++ up.right))) := by
                refine Sorted.sublist hs ?_
                simp only [Ctx.right, List.append_assoc, List.cons_append]
                exact (List.Sublist.refl _).append ((List.Sublist.refl _).append (List.sublist_cons_self _ _))
              have hk : Sorted (up.kept e.1 ++ (.sep e.1 ::
                  (flat (Tree.items e.2) ++ flat ls ++ .sep y.key :: y :: l ++ flat r)) ++ up.right) := by
                refine Sorted.sublist hc.copy ?_
                simp only [flat_cons, List.append_assoc, List.cons_append]
                exact (kept_sublist _ _).append (List.Sublist.refl _)
              have := ih (.sep e.1) _ hk
              simpa [Ctx.left, Ctx.right] using this

/-- The path a search for `k` takes: the greatest separator not above `k`, or the first
child when there is none. -/
def Ctx.OnPath (k : K) : {h : Nat} → Ctx K V h → Prop
  | _, .top => True
  | _, .frame _ l s r up => (s ≤ k ∨ l = [] ∧ k < s) ∧ (∀ e ∈ r.head?, k < e.1) ∧ up.OnPath k

theorem kept_before {k : K} {ctx : Ctx K V h} (hp : ctx.OnPath k) (hs : Sorted ctx.left) :
    ∀ x ∈ ctx.kept k, Before x (.ent k) := by
  induction ctx with
  | top => simp [Ctx.kept]
  | frame p l s r up ih =>
      obtain ⟨hsk, -, hup⟩ := hp
      rw [Ctx.left] at hs
      rw [Ctx.kept]
      split
      · exact ih hup (hs.sublist (by rw [List.append_assoc]; exact List.sublist_append_left _ _))
      · next hc =>
          have hle : s ≤ k := by
            rcases hsk with hle | ⟨hl, hlt⟩
            · exact hle
            · exact absurd ⟨by simp [hl], hlt⟩ hc
          intro x hx
          rcases List.mem_append.1 hx with hx | hx
          · exact ((sorted_append.1 hs).2.2 x hx (.sep s) (by simp)).of_le hle
          · rw [List.mem_singleton.1 hx]; exact hle

theorem right_gt {k : K} {ctx : Ctx K V h} (hp : ctx.OnPath k) (hs : Sorted ctx.right) :
    ∀ y ∈ ctx.right, k < y.key := by
  induction ctx with
  | top => simp [Ctx.right]
  | frame p l s r up ih =>
      obtain ⟨-, hr, hup⟩ := hp
      rw [Ctx.right] at hs ⊢
      cases r with
      | nil => exact ih hup hs
      | cons e r =>
          have hk : k < e.1 := hr e rfl
          intro y hy
          rcases List.mem_cons.1 hy with rfl | hy
          · exact hk
          · exact lt_of_lt_of_le hk (List.rel_of_pairwise_cons hs hy)

theorem mem_kept_of_ent {k a : K} {ctx : Ctx K V h} (ha : Tok.ent a ∈ ctx.left) : Tok.ent a ∈ ctx.kept k := by
  induction ctx with
  | top => exact ha
  | frame p l s r up ih =>
      rw [Ctx.kept]
      split
      · next hc =>
          have hl : l = [] := by simpa using hc.1
          subst hl
          exact ih (by simpa [Ctx.left] using ha)
      · exact ha

theorem leftEnts_lt {k : K} {ctx : Ctx K V h} (hp : ctx.OnPath k) (hs : Sorted ctx.left) :
    ∀ e ∈ ctx.leftEnts, e.1 < k := by
  intro e he
  have hm : e.1 ∈ entKeys ctx.left := by rw [entKeys_left]; exact List.mem_map_of_mem he
  exact kept_before hp hs _ (mem_kept_of_ent (mem_entKeys.1 hm))

theorem rightEnts_gt {k : K} {ctx : Ctx K V h} (hp : ctx.OnPath k) (hs : Sorted ctx.right) :
    ∀ e ∈ ctx.rightEnts, k < e.1 := by
  intro e he
  have hm : e.1 ∈ entKeys ctx.right := by rw [entKeys_right]; exact List.mem_map_of_mem he
  exact right_gt hp hs _ (mem_entKeys.1 hm)

end Order

end Rmdb.BPlus
