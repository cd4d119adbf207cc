import Mathlib.Logic.Relation
import Mathlib.Order.RelClasses

namespace Rmdb.Trace

variable {S A : Type*} (step : S → A → Option S)

/-- The actions happen one after the other; `none` when one of them is not enabled. -/
def run : S → List A → Option S
  | s, [] => some s
  | s, a :: as => (step s a).bind fun s' => run s' as

/-- `P` holds in every state the run goes through, the first and the last included. -/
def Always (P : S → Prop) : S → List A → Prop
  | s, [] => P s
  | s, a :: as => P s ∧ ∀ s', step s a = some s' → Always P s' as

def Guarded (ok : S → A → Prop) : S → List A → Prop
  | _, [] => True
  | s, a :: as => ok s a ∧ ∀ s', step s a = some s' → Guarded ok s' as

variable {step} {s s' : S} {a : A} {as bs : List A} {I P : S → Prop} {ok : S → A → Prop}

theorem run_cons : run step s (a :: as) = some s' ↔ ∃ t, step s a = some t ∧ run step t as = some s' :=
  Option.bind_eq_some_iff

theorem run_append : run step s (as ++ bs) = (run step s as).bind fun t => run step t bs := by
  induction as generalizing s with
  | nil => rfl
  | cons a as ih =>
      rw [List.cons_append, run, run, Option.bind_assoc]
      exact Option.bind_congr fun t _ => ih

theorem Always.head (h : Always step P s as) : P s := by
  cases as with
  | nil => exact h
  | cons a as => exact h.1

theorem Always.last (h : Always step P s as) (hrun : run step s as = some s') : P s' := by
  induction as generalizing s with
  | nil => cases hrun; exact h
  | cons a as ih =>
      obtain ⟨t, ht, hrun⟩ := run_cons.1 hrun
      exact ih (h.2 t ht) hrun

theorem Always.mono {Q : S → Prop} (hPQ : ∀ s, P s → Q s) (h : Always step P s as) : Always step Q s as := by
  induction as generalizing s with
  | nil => exact hPQ _ h
  | cons a as ih => exact ⟨hPQ _ h.1, fun t ht => ih (h.2 t ht)⟩

theorem guarded_cons (h : step s a = some s') :
    Guarded step ok s (a :: as) ↔ ok s a ∧ Guarded step ok s' as := by
  refine and_congr_right fun _ => ⟨fun hall => hall _ h, fun hnext t ht => ?_⟩
  cases h.symm.trans ht
  exact hnext

theorem guarded_stop (h : step s a = none) : Guarded step ok s (a :: as) ↔ ok s a := by
  refine ⟨And.left, fun hok => ⟨hok, fun t ht => ?_⟩⟩
  cases h.symm.trans ht

instance Guarded.decidable [∀ s a, Decidable (ok s a)] : ∀ (s : S)
    (as : List A), Decidable (Guarded step ok s as)
  | _, [] => .isTrue trivial
  | s, a :: as =>
      match h : step s a with
      | none => decidable_of_iff _ (guarded_stop h).symm
      | some s' =>
          have := Guarded.decidable s' as
          decidable_of_iff _ (guarded_cons h).symm

theorem Guarded.and {ok' : S → A → Prop} (h : Guarded step ok s as) (h' : Guarded step ok' s as) :
    Guarded step (fun s a => ok s a ∧ ok' s a) s as := by
  induction as generalizing s with
  | nil => trivial
  | cons a as ih => exact ⟨⟨h.1, h'.1⟩, fun t ht => ih (h.2 t ht) (h'.2 t ht)⟩

theorem guarded_of_forall {good : A → Prop} (h : ∀ a ∈ as, good a) :
    Guarded step (fun _ a => good a) s as := by
  induction as generalizing s with
  | nil => trivial
  | cons a as ih =>
      exact ⟨h a List.mem_cons_self, fun t _ => ih fun b hb => h b (List.mem_cons_of_mem _ hb)⟩

/-- The invariant rule: a step that meets its guard keeps `I`. -/
theorem always_of_guarded (hstep : ∀ s a s', I s → ok s a → step s a = some s' → I s') (hs : I s)
    (hok : Guarded step ok s as) : Always step I s as := by
  induction as generalizing s with
  | nil => exact hs
  | cons a as ih => exact ⟨hs, fun t ht => ih (hstep _ _ _ hs hok.1 ht) (hok.2 t ht)⟩

theorem run_of_guarded (hstep : ∀ s a s', I s → ok s a → step s a = some s' → I s') (hs : I s)
    (hok : Guarded step ok s as) (hrun : run step s as = some s') : I s' := by
  induction as generalizing s with
  | nil => cases hrun; exact hs
  | cons a as ih =>
      obtain ⟨t, ht, hrun⟩ := run_cons.1 hrun
      exact ih (hstep _ _ _ hs hok.1 ht) (hok.2 t ht) hrun

/-- Where the guard decides, step by step, whether `P` survives, a run keeps `P`
throughout exactly when it meets the guard throughout. -/
theorem always_iff_guarded {good : S → A → Prop}
    (hinv : ∀ s a s', I s → P s → good s a → step s a = some s' → I s')
    (hstep : ∀ s a s', I s → P s → good s a → step s a = some s' → (P s' ↔ ok s a))
    (hI : I s) (hP : P s) (hgood : Guarded step good s as) (hrun : run step s as = some s') :
    Always step P s as ↔ Guarded step ok s as := by
  induction as generalizing s with
  | nil => exact ⟨fun _ => trivial, fun _ => hP⟩
  | cons a as ih =>
      obtain ⟨t, ht, hrun⟩ := run_cons.1 hrun
      have hI' := hinv _ _ _ hI hP hgood.1 ht
      have hiff := hstep _ _ _ hI hP hgood.1 ht
      constructor
      · intro h
        have hPt := (h.2 t ht).head
        refine ⟨hiff.1 hPt, fun u hu => ?_⟩
        cases ht.symm.trans hu
        exact (ih hI' hPt (hgood.2 t ht) hrun).1 (h.2 t ht)
      · intro h
        have hPt := hiff.2 h.1
        refine ⟨hP, fun u hu => ?_⟩
        cases ht.symm.trans hu
        exact (ih hI' hPt (hgood.2 t ht) hrun).2 (h.2 t ht)

theorem always_iff_guarded_of_enabled (hinv : ∀ s a s', I s → step s a = some s' → I s')
    (hstep : ∀ s a s', I s → P s → step s a = some s' → (P s' ↔ ok s a))
    (hstop : ∀ s a, step s a = none → ok s a) (hI : I s) (hP : P s) :
    Always step P s as ↔ Guarded step ok s as := by
  induction as generalizing s with
  | nil => exact ⟨fun _ => trivial, fun _ => hP⟩
  | cons a as ih =>
      cases ht : step s a with
      | none =>
          refine ⟨fun _ => ⟨hstop s a ht, fun t h => ?_⟩, fun _ => ⟨hP, fun t h => ?_⟩⟩ <;>
            cases ht.symm.trans h
      | some t =>
          have hiff := hstep s a t hI hP ht
          rw [guarded_cons ht]
          constructor
          · intro h
            have hall := h.2 t ht
            exact ⟨hiff.1 hall.head, (ih (hinv s a t hI ht) hall.head).1 hall⟩
          · intro h
            refine ⟨hP, fun u hu => ?_⟩
            cases ht.symm.trans hu
            exact (ih (hinv s a t hI ht) (hiff.2 h.1)).2 h.2

/-- A property of what has been done so far, which each step keeps or breaks by its guard, holds
all along exactly when every step meets the guard. -/
theorem forall_prefix_iff_guarded {f : S → A → S} {P : List A → Prop} (h0 : P [])
    (hstep : ∀ before a, before ++ [a] <+: as → P before → (P (before ++ [a]) ↔ ok (before.foldl f s) a)) :
    (∀ before, before <+: as → P before) ↔ Guarded (fun s a => some (f s a)) ok s as := by
  induction as generalizing s P with
  | nil => exact ⟨fun _ => trivial, fun _ before hb => (List.prefix_nil.1 hb) ▸ h0⟩
  | cons a as ih =>
      have hfirst : P [a] ↔ ok s a := hstep [] a (List.prefix_append [a] as) h0
      have hrest : P [a] → ((∀ before, before <+: as → P (a :: before)) ↔
          Guarded (fun s a => some (f s a)) ok (f s a) as) :=
        fun ha => ih ha fun before b hb => hstep (a :: before) b (List.cons_prefix_cons.2 ⟨rfl, hb⟩)
      rw [show Guarded _ ok s (a :: as) ↔ _ from guarded_cons rfl]
      constructor
      · intro h
        have ha := h [a] (List.prefix_append [a] as)
        exact ⟨hfirst.1 ha, (hrest ha).1 fun before hb => h _ (List.cons_prefix_cons.2 ⟨rfl, hb⟩)⟩
      · rintro ⟨ha, hok⟩ before hb
        cases before with
        | nil => exact h0
        | cons b before =>
            obtain ⟨rfl, hrest'⟩ := List.cons_prefix_cons.1 hb
            exact (hrest (hfirst.2 ha)).2 hok before hrest'

theorem acyclic_of_lt {T : Type*} [Preorder T] {R : T → T → Prop} (h : ∀ x y, R x y → x < y) (x : T) :
    ¬ Relation.TransGen R x x := by
  intro hx
  have hlt : Relation.TransGen (· < ·) x x := Relation.TransGen.mono h _ _ hx
  rw [Relation.transGen_eq_self] at hlt
  exact lt_irrefl x hlt

end Rmdb.Trace
