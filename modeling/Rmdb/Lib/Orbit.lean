import Mathlib.Data.Set.Finite.Basic
import Mathlib.Data.Fintype.Pigeonhole
import Mathlib.Logic.Relation

namespace Rmdb.Orbit

open Relation

variable {α : Type*} (f : α → Option α)

def Leads (a b : α) : Prop := f a = some b

/-- Following `f` from `a` comes to a point twice. -/
def GoesRound (a : α) : Prop := ∃ b, ReflTransGen (Leads f) a b ∧ TransGen (Leads f) b b

def after : Nat → α → Option α
  | 0, a => some a
  | n + 1, a => (f a).bind fun b => after n b

variable {f} {a b c : α} {m n : Nat}

theorem after_add : after f (m + n) a = (after f m a).bind fun b => after f n b := by
  induction m generalizing a with
  | zero => rw [Nat.zero_add]; rfl
  | succ m ih =>
      rw [Nat.succ_add, after, after, Option.bind_assoc]
      exact Option.bind_congr fun b _ => ih

theorem reach_after (h : after f n a = some b) : ReflTransGen (Leads f) a b := by
  induction n generalizing a with
  | zero =>
      cases h
      exact .refl
  | succ n ih =>
      obtain ⟨c, hc, hrest⟩ := Option.bind_eq_some_iff.1 h
      exact .head hc (ih hrest)

theorem reach_after_succ (h : after f (n + 1) a = some b) : TransGen (Leads f) a b := by
  obtain ⟨c, hc, hrest⟩ := Option.bind_eq_some_iff.1 h
  exact .head' hc (reach_after hrest)

/-- A way that never ends in finitely many points goes round. -/
theorem goesRound_of_finite {S : Set α} (hfin : S.Finite)
    (hS : ∀ a ∈ S, ∀ b, f a = some b → b ∈ S) (ha : a ∈ S) (hall : ∀ n, after f n a ≠ none) :
    GoesRound f a := by
  have hin : ∀ n b, after f n a = some b → b ∈ S := by
    intro n
    induction n with
    | zero =>
        intro b hb
        cases hb
        exact ha
    | succ n ih =>
        intro b hb
        rw [after_add] at hb
        obtain ⟨c, hc, hcb⟩ := Option.bind_eq_some_iff.1 hb
        obtain ⟨d, hd, hdb⟩ := Option.bind_eq_some_iff.1 hcb
        cases hdb
        exact hS c (ih c hc) _ hd
  choose g hg using fun n => Option.ne_none_iff_exists'.1 (hall n)
  have := hfin.to_subtype
  obtain ⟨m, n, hne, heq⟩ := Finite.exists_ne_map_eq_of_infinite fun n => (⟨g n, hin n _ (hg n)⟩ : S)
  have hval : g m = g n := congrArg Subtype.val heq
  -- the later of the two visits comes behind the earlier one
  wlog hlt : m < n generalizing m n
  · exact this n m hne.symm heq.symm hval.symm (lt_of_le_of_ne (not_lt.1 hlt) hne.symm)
  obtain ⟨k, rfl⟩ := Nat.exists_eq_add_of_lt hlt
  refine ⟨g m, reach_after (hg m), ?_⟩
  have hlater := hg (m + k + 1)
  rw [← hval, Nat.add_assoc, after_add, hg m] at hlater
  exact reach_after_succ hlater

theorem GoesRound.next (h : GoesRound f a) : ∃ b, f a = some b ∧ GoesRound f b := by
  obtain ⟨b, hab, hbb⟩ := h
  rcases ReflTransGen.cases_head hab with rfl | ⟨c, hc, hcb⟩
  · obtain ⟨c, hc, hca⟩ := TransGen.head'_iff.1 hbb
    exact ⟨c, hc, a, hca, hbb⟩
  · exact ⟨c, hc, b, hcb, hbb⟩

end Rmdb.Orbit
