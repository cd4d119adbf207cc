import Mathlib.Data.List.Basic
import Mathlib.Data.Option.Basic

namespace Rmdb.Slot

variable {α : Type*}

/-- A logged operation on one slot, with the values that its redo and its undo need. -/
inductive Op (α : Type*)
  | put (v : α)
  | erase (v : α)
  | set (before after : α)

namespace Op

/-- `set` writes the bytes of the slot only: an empty slot stays empty. -/
def redo : Op α → Option α → Option α
  | put v, _ => some v
  | erase _, _ => none
  | set _ b, x => x.map fun _ => b

def undo : Op α → Option α → Option α
  | put _, _ => none
  | erase v, _ => some v
  | set a _, x => x.map fun _ => a

def Legal : Op α → Option α → Prop
  | put _, x => x = none
  | erase v, x => x = some v
  | set a _, x => x = some a

def after : Op α → Option α
  | put v => some v
  | erase _ => none
  | set _ b => some b

def isSet : Op α → Bool
  | set _ _ => true
  | _ => false

variable {o : Op α} {x y v : Option α}

theorem undo_redo (h : o.Legal v) : o.undo (o.redo v) = v := by
  cases o with
  | put => exact h.symm
  | erase => exact h.symm
  | set a b => rw [show v = some a from h]; rfl

theorem redo_congr (h : o.isSet = false) : o.redo x = o.redo y := by
  cases o with
  | put | erase => rfl
  | set => cases h

theorem isSome_redo (h : o.isSet = true) : (o.redo x).isSome = x.isSome := by
  cases o with
  | put | erase => cases h
  | set => exact Option.isSome_map

theorem isSome_undo (h : o.isSet = true) : (o.undo x).isSome = x.isSome := by
  cases o with
  | put | erase => cases h
  | set => exact Option.isSome_map

/-- Undoing the first operation of a history gives the value before it, whatever the slot
holds, unless the operation is a `set` and the slot is empty. -/
theorem undo_of_legal (h : o.Legal v) (hx : o.isSet = true → x.isSome = true) : o.undo x = v := by
  cases o with
  | put => exact h.symm
  | erase => exact h.symm
  | set a b =>
      obtain ⟨w, rfl⟩ := Option.isSome_iff_exists.1 (hx rfl)
      exact h.symm

end Op

def redoAll (ops : List (Op α)) (x : Option α) : Option α := ops.foldl (fun x o => o.redo x) x

/-- The latest operation is undone first. -/
def undoAll (ops : List (Op α)) (x : Option α) : Option α := ops.foldr (fun o x => o.undo x) x

/-- The operations were carried out one after the other, the first one on `v`. -/
def LegalFrom : Option α → List (Op α) → Prop
  | _, [] => True
  | v, o :: os => o.Legal v ∧ LegalFrom (o.redo v) os

variable {o : Op α} {os ops : List (Op α)} {x y v : Option α}

@[simp] theorem redoAll_nil : redoAll [] x = x := rfl

@[simp] theorem redoAll_cons : redoAll (o :: os) x = redoAll os (o.redo x) := rfl

@[simp] theorem redoAll_append : redoAll (os ++ ops) x = redoAll ops (redoAll os x) := List.foldl_append

theorem legalFrom_append : LegalFrom v (os ++ ops) ↔ LegalFrom v os ∧ LegalFrom (redoAll os v) ops := by
  induction os generalizing v with
  | nil => exact (iff_of_eq (true_and _)).symm
  | cons p os ih => rw [List.cons_append, LegalFrom, LegalFrom, ih, redoAll_cons, and_assoc]

theorem legalFrom_snoc : LegalFrom v (os ++ [o]) ↔ LegalFrom v os ∧ o.Legal (redoAll os v) := by
  rw [legalFrom_append, LegalFrom, LegalFrom, and_true]

theorem redoAll_legal (h : LegalFrom v (os ++ [o])) : redoAll (os ++ [o]) v = o.after := by
  have hlast := (legalFrom_snoc.1 h).2
  rw [redoAll_append, redoAll_cons, redoAll_nil]
  cases o with
  | put | erase => rfl
  | set a b => rw [show redoAll os v = some a from hlast]; rfl

theorem isSome_redoAll (h : ∀ o ∈ os, o.isSet = true) : (redoAll os x).isSome = x.isSome := by
  induction os generalizing x with
  | nil => rfl
  | cons o os ih =>
      rw [redoAll_cons, ih fun p hp => h p (List.mem_cons_of_mem _ hp),
        Op.isSome_redo (h o List.mem_cons_self)]

theorem isSome_redoAll_congr (h : x.isSome = y.isSome) : (redoAll os x).isSome = (redoAll os y).isSome := by
  induction os generalizing x y with
  | nil => exact h
  | cons o os ih =>
      refine ih ?_
      cases o with
      | put | erase => rfl
      | set => rw [Op.isSome_redo rfl, Op.isSome_redo rfl, h]

/-- Where a history leaves the value of a slot alone, it still does so with the next operation. -/
theorem redoAll_settled (hs : redoAll os v = v) (h : o.Legal v) :
    redoAll (os ++ [o]) (o.redo v) = o.redo v := by
  rw [redoAll_append, redoAll_cons, redoAll_nil]
  cases o with
  | put | erase => rfl
  | set a b =>
      have hv : v = some a := h
      subst hv
      have hsome : (redoAll os (some b)).isSome = (redoAll os (some a)).isSome := isSome_redoAll_congr rfl
      rw [hs] at hsome
      obtain ⟨w, hw⟩ := Option.isSome_iff_exists.1 hsome
      change Option.map (fun _ => b) (redoAll os (some b)) = some b
      rw [hw]
      rfl

/-- An operation other than `set` makes the outcome independent of the start. -/
theorem redoAll_congr (h : ∃ o ∈ os, o.isSet = false) : redoAll os x = redoAll os y := by
  induction os generalizing x y with
  | nil =>
      obtain ⟨o, ho, -⟩ := h
      cases ho
  | cons o os ih =>
      rw [redoAll_cons, redoAll_cons]
      cases ho : o.isSet with
      | false => rw [Op.redo_congr ho]
      | true =>
          obtain ⟨p, hp, hps⟩ := h
          rcases List.mem_cons.1 hp with rfl | hp
          · rw [ho] at hps
            cases hps
          · exact ih ⟨p, hp, hps⟩

theorem redoAll_sets (hne : os ≠ []) (hx : x.isSome = y.isSome) (h : ∀ o ∈ os, o.isSet = true) :
    redoAll os x = redoAll os y := by
  obtain ⟨o, os, rfl⟩ := List.exists_cons_of_ne_nil hne
  have hfirst : o.redo x = o.redo y := by
    cases o with
    | put | erase => rfl
    | set a b => cases x <;> cases y <;> first | rfl | cases hx
  rw [redoAll_cons, redoAll_cons, hfirst]

/-- Replay from a slot that agrees with the start where the operations do not decide. -/
theorem redoAll_compat (hnil : os = [] → x = y) (hset : (∀ o ∈ os, o.isSet = true) → x.isSome = y.isSome) :
    redoAll os x = redoAll os y := by
  by_cases hall : ∀ o ∈ os, o.isSet = true
  · by_cases hne : os = []
    · rw [hnil hne]
    · exact redoAll_sets hne (hset hall) hall
  · push Not at hall
    obtain ⟨o, ho, hs⟩ := hall
    exact redoAll_congr ⟨o, ho, by simpa using hs⟩

/-- Undoing a history leads back to its start from any value that the history does not
leave undecided. -/
theorem undoAll_of_legal (h : LegalFrom v os) (hne : os ≠ [])
    (hx : (∃ o ∈ os, o.isSet = false) ∨ x.isSome = v.isSome) : undoAll os x = v := by
  induction os generalizing v with
  | nil => exact absurd rfl hne
  | cons o os ih =>
      obtain ⟨hl, hrest⟩ := h
      refine Op.undo_of_legal hl fun hs => ?_
      -- a `set` has kept the slot occupied, so the rest of the history starts from an occupied slot
      have hv : v.isSome = true := by
        cases o with
        | put | erase => cases hs
        | set a b => rw [show v = some a from hl]; rfl
      have hx' : (∃ p ∈ os, p.isSet = false) ∨ x.isSome = v.isSome := by
        refine hx.imp_left ?_
        rintro ⟨p, hp, hps⟩
        rcases List.mem_cons.1 hp with rfl | hp
        · rw [hs] at hps
          cases hps
        · exact ⟨p, hp, hps⟩
      have hkeep : (o.redo v).isSome = v.isSome := Op.isSome_redo hs
      by_cases hnil : os = []
      · subst hnil
        rcases hx' with ⟨p, hp, -⟩ | hx'
        · cases hp
        · exact hx'.trans hv
      · have hback := ih hrest hnil (hkeep ▸ hx')
        change (undoAll os x).isSome = true
        rw [hback, hkeep, hv]

/-- Several histories that start from the same value are undone one after the other, in any
order: the slot ends at that value. -/
theorem undo_chains {chains : List (List (Op α))} (h : ∀ c ∈ chains, LegalFrom v c)
    (hne : ∃ c ∈ chains, c ≠ []) (hx : (∃ c ∈ chains, ∃ o ∈ c, o.isSet = false) ∨ x.isSome = v.isSome) :
    chains.foldl (fun x c => undoAll c x) x = v := by
  have hstay : ∀ cs : List (List (Op α)), (∀ c ∈ cs, LegalFrom v c) →
      cs.foldl (fun x c => undoAll c x) v = v := by
    intro cs hcs
    induction cs with
    | nil => rfl
    | cons c cs ih =>
        have hc : undoAll c v = v := by
          by_cases hnil : c = []
          · rw [hnil]; rfl
          · exact undoAll_of_legal (hcs c List.mem_cons_self) hnil (.inr rfl)
        rw [List.foldl_cons, hc]
        exact ih fun d hd => hcs d (List.mem_cons_of_mem _ hd)
  induction chains generalizing x with
  | nil =>
      obtain ⟨c, hc, -⟩ := hne
      cases hc
  | cons c cs ih =>
      have hcs : ∀ d ∈ cs, LegalFrom v d := fun d hd => h d (List.mem_cons_of_mem _ hd)
      rw [List.foldl_cons]
      by_cases hnil : c = []
      · subst hnil
        have hne' : ∃ d ∈ cs, d ≠ [] := by
          obtain ⟨d, hd, hdn⟩ := hne
          rcases List.mem_cons.1 hd with rfl | hd
          · exact absurd rfl hdn
          · exact ⟨d, hd, hdn⟩
        refine ih hcs hne' (hx.imp_left ?_)
        rintro ⟨d, hd, o, ho, hos⟩
        rcases List.mem_cons.1 hd with rfl | hd
        · cases ho
        · exact ⟨d, hd, o, ho, hos⟩
      · by_cases hdec : (∃ o ∈ c, o.isSet = false) ∨ x.isSome = v.isSome
        · rw [undoAll_of_legal (h c List.mem_cons_self) hnil hdec]
          exact hstay cs hcs
        · -- the decisive operation is in a later history
          push Not at hdec
          obtain ⟨d, hd, o, ho, hos⟩ := hx.resolve_right hdec.2
          rcases List.mem_cons.1 hd with rfl | hd
          · exact absurd hos (hdec.1 o ho)
          · exact ih hcs ⟨d, hd, fun hc => by rw [hc] at ho; cases ho⟩ (.inl ⟨d, hd, o, ho, hos⟩)

section Below

def Below (y x : Option α) : Prop := y = none ∨ y = x

theorem Below.trans (h : Below y x) (h' : Below x v) : Below y v := by
  rcases h with rfl | rfl
  · exact .inl rfl
  · exact h'

theorem Below.redo (h : Below y x) : Below (o.redo y) (o.redo x) := by
  rcases h with rfl | rfl
  · cases o with
    | put | erase => exact .inr rfl
    | set => exact .inl rfl
  · exact .inr rfl

theorem Below.redoAll (h : Below y x) : Below (redoAll os y) (redoAll os x) := by
  induction os generalizing x y with
  | nil => exact h
  | cons o os ih => exact ih h.redo

theorem Op.redo_below (h : o.Legal v) : Below (o.redo x) (o.redo v) := by
  cases o with
  | put | erase => exact .inr rfl
  | set a b =>
      rw [show v = some a from h]
      cases x with
      | none => exact .inl rfl
      | some => exact .inr rfl

theorem Op.undo_below (h : o.Legal v) : Below (o.undo x) v := by
  cases o with
  | put => exact .inr h.symm
  | erase => exact .inr h.symm
  | set a b =>
      rw [show v = some a from h]
      cases x with
      | none => exact .inl rfl
      | some => exact .inr rfl

/-- Replay of a history ends below its outcome, whatever it starts from. -/
theorem redoAll_below (h : LegalFrom v os) (hne : os ≠ []) : Below (redoAll os x) (redoAll os v) := by
  obtain ⟨o, os, rfl⟩ := List.exists_cons_of_ne_nil hne
  exact (Op.redo_below h.1).redoAll

theorem undoAll_below (h : LegalFrom v os) (hne : os ≠ []) : Below (undoAll os x) v := by
  obtain ⟨o, os, rfl⟩ := List.exists_cons_of_ne_nil hne
  exact Op.undo_below h.1

end Below

section Owners

variable {T : Type*} [DecidableEq T] {W : T → Bool} {log : List (T × Op α)} {base disk : Option α}

/-- The operations of one owner, and those of the owners that `W` selects, in log order. -/
def opsOf (t : T) (log : List (T × Op α)) : List (Op α) := (log.filter fun e => e.1 = t).map Prod.snd

def opsWith (W : T → Bool) (log : List (T × Op α)) : List (Op α) := (log.filter fun e => W e.1).map Prod.snd

omit [DecidableEq T] in
theorem opsWith_cons (W : T → Bool) (e : T × Op α) (log : List (T × Op α)) :
    opsWith W (e :: log) = if W e.1 then e.2 :: opsWith W log else opsWith W log := by
  cases h : W e.1 <;> simp [opsWith, h]

omit [DecidableEq T] in
theorem opsWith_append (W : T → Bool) (l l' : List (T × Op α)) :
    opsWith W (l ++ l') = opsWith W l ++ opsWith W l' := by
  simp [opsWith]

theorem opsOf_append (t : T) (l l' : List (T × Op α)) : opsOf t (l ++ l') = opsOf t l ++ opsOf t l' := by
  simp [opsOf]

theorem opsOf_eq_nil {t : T} : opsOf t log = [] ↔ ∀ e ∈ log, e.1 ≠ t := by
  simp [opsOf]

omit [DecidableEq T] in
theorem isSome_redo_opsWith (h : ∀ e ∈ log, W e.1 = false → e.2.isSet = true) :
    (redoAll (log.map Prod.snd) x).isSome = (redoAll (opsWith W log) x).isSome := by
  induction log generalizing x with
  | nil => rfl
  | cons e log ih =>
      have hlog : ∀ e ∈ log, W e.1 = false → e.2.isSet = true := fun d hd => h d (List.mem_cons_of_mem _ hd)
      rw [List.map_cons, redoAll_cons]
      cases hW : W e.1 with
      | true =>
          rw [ih hlog, opsWith_cons, if_pos hW, redoAll_cons]
      | false =>
          have hs := h e List.mem_cons_self hW
          rw [ih hlog, opsWith_cons, if_neg (by simp [hW])]
          by_cases hall : ∀ o ∈ opsWith W log, o.isSet = true
          · rw [isSome_redoAll hall, isSome_redoAll hall, Op.isSome_redo hs]
          · push Not at hall
            obtain ⟨o, ho, hos⟩ := hall
            exact congrArg _ (redoAll_congr ⟨o, ho, by simpa using hos⟩)

/-- Replaying a log over an old version of a slot and then undoing the losers leaves what
the winners have written, if every loser's operations start from that value. -/
theorem replay_then_undo {losers : List T} (hcover : ∀ e ∈ log, W e.1 = false → e.1 ∈ losers)
    (hlose : ∀ t ∈ losers, W t = false) (hnil : log = [] → disk = base)
    (hset : (∀ e ∈ log, e.2.isSet = true) → disk.isSome = base.isSome)
    (hlegal : ∀ t ∈ losers, LegalFrom (redoAll (opsWith W log) base) (opsOf t log)) :
    losers.foldl (fun x t => undoAll (opsOf t log) x) (redoAll (log.map Prod.snd) disk) =
      redoAll (opsWith W log) base := by
  have hmap : losers.foldl (fun x t => undoAll (opsOf t log) x) (redoAll (log.map Prod.snd) disk) =
      (losers.map fun t => opsOf t log).foldl (fun x c => undoAll c x) (redoAll (log.map Prod.snd) disk) := by
    rw [List.foldl_map]
  have hmem : ∀ t o, (t, o) ∈ log → o ∈ opsOf t log := fun t o he =>
    List.mem_map.2 ⟨(t, o), List.mem_filter.2 ⟨he, by simp⟩, rfl⟩
  rw [hmap]
  by_cases hall : ∀ e ∈ log, W e.1 = true
  · -- nobody has lost anything in this slot: all histories to undo are empty
    have hlog : opsWith W log = log.map Prod.snd := by rw [opsWith, List.filter_eq_self.2 hall]
    have hempty : ∀ c ∈ losers.map (fun t => opsOf t log), c = [] := by
      intro c hc
      obtain ⟨t, ht, rfl⟩ := List.mem_map.1 hc
      refine List.map_eq_nil_iff.2 (List.filter_eq_nil_iff.2 fun e he => ?_)
      rw [decide_eq_true_eq]
      rintro rfl
      exact absurd (hall e he) (by simp [hlose e.1 ht])
    have hskip : ∀ (cs : List (List (Op α))) x, (∀ c ∈ cs, c = []) →
        cs.foldl (fun x c => undoAll c x) x = x := by
      intro cs
      induction cs with
      | nil => intros; rfl
      | cons c cs ih =>
          intro x hcs
          rw [List.foldl_cons, hcs c List.mem_cons_self]
          exact ih x fun d hd => hcs d (List.mem_cons_of_mem _ hd)
    rw [hskip _ _ hempty, hlog]
    refine redoAll_compat (fun h => hnil (List.map_eq_nil_iff.1 h)) fun h => hset fun e he => ?_
    exact h e.2 (List.mem_map_of_mem he)
  · push Not at hall
    obtain ⟨⟨t, o⟩, he, hW⟩ := hall
    have hW : W t = false := by simpa using hW
    have ht := hcover _ he hW
    refine undo_chains ?_ ⟨opsOf t log, List.mem_map_of_mem ht, List.ne_nil_of_mem (hmem t o he)⟩ ?_
    · intro c hc
      obtain ⟨u, hu, rfl⟩ := List.mem_map.1 hc
      exact hlegal u hu
    · by_cases hsets : ∀ e ∈ log, W e.1 = false → e.2.isSet = true
      · right
        rw [isSome_redo_opsWith hsets]
        by_cases hwin : ∀ o ∈ opsWith W log, o.isSet = true
        · rw [isSome_redoAll hwin, isSome_redoAll hwin]
          refine hset fun e he => ?_
          cases hWe : W e.1 with
          | false => exact hsets e he hWe
          | true => exact hwin e.2 (List.mem_map.2 ⟨e, List.mem_filter.2 ⟨he, hWe⟩, rfl⟩)
        · push Not at hwin
          obtain ⟨p, hp, hps⟩ := hwin
          exact congrArg _ (redoAll_congr ⟨p, hp, by simpa using hps⟩)
      · left
        push Not at hsets
        obtain ⟨⟨u, p⟩, hup, hWu, hps⟩ := hsets
        exact ⟨opsOf u log, List.mem_map_of_mem (hcover _ hup hWu), p, hmem u p hup, by simpa using hps⟩

end Owners

end Rmdb.Slot
