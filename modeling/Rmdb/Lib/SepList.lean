import Mathlib.Order.Basic
import Mathlib.Tactic

namespace Rmdb.SepList

variable {K : Type}

/-- An in-order reading of a search tree: every separator is read before the subtree it
bounds from below, every stored key where it is stored. -/
inductive Tok (K : Type)
  | sep (k : K)
  | ent (k : K)

def Tok.key : Tok K → K
  | .sep k | .ent k => k

@[simp] theorem key_sep (a : K) : (Tok.sep a).key = a := rfl

@[simp] theorem key_ent (a : K) : (Tok.ent a).key = a := rfl

variable [LinearOrder K]

/-- A separator may equal what follows it, a stored key may not. -/
def Before : Tok K → Tok K → Prop
  | .sep a, y => a ≤ y.key
  | .ent a, y => a < y.key

def Sorted (l : List (Tok K)) : Prop := l.Pairwise Before

@[simp] theorem before_sep (a : K) (y : Tok K) : Before (.sep a) y ↔ a ≤ y.key := Iff.rfl

@[simp] theorem before_ent (a : K) (y : Tok K) : Before (.ent a) y ↔ a < y.key := Iff.rfl

theorem Before.le {x y : Tok K} (h : Before x y) : x.key ≤ y.key := by
  cases x with
  | sep a => exact h
  | ent a => exact le_of_lt h

theorem Before.of_le {x y z : Tok K} (h : Before x y) (hz : y.key ≤ z.key) : Before x z := by
  cases x with
  | sep a => exact le_trans h hz
  | ent a => exact lt_of_lt_of_le h hz

theorem Sorted.sublist {l l' : List (Tok K)} (h : Sorted l) (hs : l'.Sublist l) : Sorted l' :=
  List.Pairwise.sublist hs h

theorem sorted_append {l r : List (Tok K)} :
    Sorted (l ++ r) ↔ Sorted l ∧ Sorted r ∧ ∀ x ∈ l, ∀ y ∈ r, Before x y :=
  List.pairwise_append

/-- Reading a key a second time, as a separator in front of itself, keeps the order. -/
theorem Sorted.copy {l r : List (Tok K)} {y : Tok K} (h : Sorted (l ++ y :: r)) :
    Sorted (l ++ .sep y.key :: y :: r) := by
  obtain ⟨hl, hr, hx⟩ := sorted_append.1 h
  refine sorted_append.2 ⟨hl, List.pairwise_cons.2 ⟨?_, hr⟩, ?_⟩
  · intro z hz
    rcases List.mem_cons.1 hz with rfl | hz
    · exact le_rfl
    · exact (List.rel_of_pairwise_cons hr hz).le
  · intro x hxl z hz
    rcases List.mem_cons.1 hz with rfl | hz
    · exact (hx x hxl y (by simp)).of_le le_rfl
    · exact hx x hxl z hz

theorem Sorted.place {l r : List (Tok K)} {k : K} (h : Sorted (l ++ r))
    (hl : ∀ x ∈ l, Before x (.ent k)) (hr : ∀ y ∈ r, k < y.key) : Sorted (l ++ .ent k :: r) := by
  obtain ⟨h1, h2, h12⟩ := sorted_append.1 h
  refine sorted_append.2 ⟨h1, List.pairwise_cons.2 ⟨hr, h2⟩, ?_⟩
  intro x hx z hz
  rcases List.mem_cons.1 hz with rfl | hz
  · exact hl x hx
  · exact h12 x hx z hz

end Rmdb.SepList
