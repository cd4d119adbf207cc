import Rmdb.Lib.Slot

namespace Rmdb.Slot

variable {α T : Type*}

/-- A log in which some puts were taken back without a record. The second list is without them, in
the third one taking them back is an operation of its own; last comes the put with which the log
ends, if it was taken back. -/
inductive Retracts : List (T × Op α) → List (T × Op α) → List (T × Op α) → Option (T × α) → Prop
  | nil : Retracts [] [] [] none
  | keep {log kept full : List (T × Op α)} {last : Option (T × α)} (e : T × Op α)
      (h : Retracts log kept full last)
      (hput : last.isSome = true → ∃ v, e.2 = .put v) : Retracts (log ++ [e]) (kept ++ [e]) (full ++ [e]) none
  | retract {log kept full : List (T × Op α)} {last : Option (T × α)} (t : T) (v : α)
      (h : Retracts log kept full last) :
      Retracts (log ++ [(t, .put v)]) kept (full ++ [(t, .put v), (t, .erase v)]) (some (t, v))

namespace Retracts

variable {log kept full : List (T × Op α)} {last : Option (T × α)} {x base disk : Option α} {W : T → Bool}

/-- Replay brings back the put with which the log ends, and no other. -/
theorem redo (h : Retracts log kept full last) :
    redoAll (log.map Prod.snd) x = (last.map Prod.snd <|> redoAll (full.map Prod.snd) x) ∧
    (last.isSome = true → redoAll (full.map Prod.snd) x = none) := by
  induction h with
  | nil => exact ⟨rfl, nofun⟩
  | keep e h hput ih =>
      rename_i last
      refine ⟨?_, nofun⟩
      simp only [List.map_append, redoAll_append, List.map_cons, List.map_nil, redoAll_cons, redoAll_nil]
      cases hlast : last with
      | none => rw [ih.1, hlast]; rfl
      | some tv =>
          obtain ⟨v, hv⟩ := hput (by rw [hlast]; rfl)
          rw [hv]
          rfl
  | retract t v h ih =>
      simp only [List.map_append, redoAll_append, List.map_cons, List.map_nil, redoAll_cons, redoAll_nil]
      exact ⟨rfl, fun _ => rfl⟩

theorem fst (h : Retracts log kept full last) (t : T) : (∃ e ∈ full, e.1 = t) ↔ ∃ e ∈ log, e.1 = t := by
  induction h with
  | nil => rfl
  | keep e h hput ih => simp only [List.mem_append, or_and_right, exists_or, ih]
  | retract u v h ih => simp [or_and_right, exists_or, ih]

theorem subset (h : Retracts log kept full last) : log ⊆ full := by
  induction h with
  | nil => exact List.Subset.refl _
  | keep e h hput ih =>
      intro d hd
      rcases List.mem_append.1 hd with hd | hd
      · exact List.mem_append_left _ (ih hd)
      · exact List.mem_append_right _ hd
  | retract t v h ih =>
      intro e he
      rcases List.mem_append.1 he with he | he
      · exact List.mem_append_left _ (ih he)
      · exact List.mem_append_right _ (List.mem_singleton.1 he ▸ List.mem_cons_self)

theorem last_eq {t : T} {v : α} (h : Retracts log kept full last) (hlast : last = some (t, v)) :
    ∃ l, full = l ++ [(t, .erase v)] := by
  cases h with
  | nil | keep => cases hlast
  | @retract _ _ full _ u w h =>
      cases hlast
      exact ⟨full ++ [(t, .put v)], by rw [List.append_assoc]; rfl⟩

theorem pairwise {R : T → T → Prop} (h : Retracts log kept full last) (hrefl : ∀ e ∈ log, R e.1 e.1)
    (hp : log.Pairwise fun e e' => R e.1 e'.1) : full.Pairwise fun e e' => R e.1 e'.1 := by
  induction h with
  | nil => exact hp
  | keep e h hput ih =>
      obtain ⟨hold, -, hnew⟩ := List.pairwise_append.1 hp
      refine List.pairwise_append.2 ⟨ih (fun d hd => hrefl d (List.mem_append_left _ hd)) hold,
        List.pairwise_singleton _ _, ?_⟩
      intro d hd d' hd'
      obtain ⟨c, hc, hcd⟩ := (h.fst d.1).1 ⟨d, hd, rfl⟩
      rw [← hcd]
      exact hnew c hc d' hd'
  | retract t v h ih =>
      obtain ⟨hold, -, hnew⟩ := List.pairwise_append.1 hp
      have ht : R t t := hrefl (t, .put v) (by simp)
      refine List.pairwise_append.2 ⟨ih (fun d hd => hrefl d (List.mem_append_left _ hd)) hold, ?_, ?_⟩
      · simpa using ht
      · intro d hd d' hd'
        obtain ⟨c, hc, hcd⟩ := (h.fst d.1).1 ⟨d, hd, rfl⟩
        have hct : R c.1 t := hnew c hc (t, .put v) (by simp)
        rw [← hcd]
        simp only [List.mem_cons, List.not_mem_nil, or_false] at hd'
        rcases hd' with rfl | rfl <;> exact hct

theorem opsWith_snoc (W : T → Bool) (l : List (T × Op α)) (e : T × Op α) :
    opsWith W (l ++ [e]) = opsWith W l ++ if W e.1 then [e.2] else [] := by
  rw [opsWith_append, opsWith_cons]
  rfl

theorem effects (h : Retracts log kept full last) (hlegal : LegalFrom base (opsWith W full)) :
    redoAll (opsWith W kept) base = redoAll (opsWith W full) base := by
  induction h with
  | nil => rfl
  | keep e h hput ih =>
      rw [opsWith_snoc, legalFrom_append] at hlegal
      rw [opsWith_snoc, opsWith_snoc, redoAll_append, redoAll_append, ih hlegal.1]
  | retract t v h ih =>
      rw [opsWith_append, legalFrom_append] at hlegal
      rw [opsWith_append, redoAll_append, ih hlegal.1]
      cases hW : W t with
      | false => simp [opsWith, hW]
      | true =>
          have hput := hlegal.2
          rw [opsWith_cons, if_pos hW] at hput
          rw [opsWith_cons, opsWith_cons, if_pos hW, if_pos hW, redoAll_cons, redoAll_cons]
          exact hput.1

variable [DecidableEq T]

/-- Taking a put back is undone together with it. -/
theorem undo (h : Retracts log kept full last) (t : T) :
    undoAll (opsOf t log) x = undoAll (opsOf t full) x := by
  have hsplit : ∀ (l l' : List (Op α)) (y : Option α), undoAll (l ++ l') y = undoAll l (undoAll l' y) :=
    fun l l' y => List.foldr_append
  induction h generalizing x with
  | nil => rfl
  | keep e h hput ih => rw [opsOf_append, opsOf_append, hsplit, hsplit, ih]
  | retract u v h ih =>
      rw [opsOf_append, opsOf_append, hsplit, hsplit, ih]
      by_cases hu : u = t
      · simp [opsOf, hu, undoAll, Op.undo]
      · simp [opsOf, hu]

theorem foldl_stays {losers : List T} (h : ∀ t ∈ losers, opsOf t log = []) :
    losers.foldl (fun x t => undoAll (opsOf t log) x) x = x := by
  induction losers with
  | nil => rfl
  | cons u us ih =>
      rw [List.foldl_cons, h u List.mem_cons_self]
      exact ih fun w hw => h w (List.mem_cons_of_mem _ hw)

/-- Replay and the undoing of the losers leave what the winners have written, and the put with
which the log ends if it was taken back by a winner. -/
theorem replay (h : Retracts log kept full last) {losers : List T}
    (hcover : ∀ e ∈ log, W e.1 = false → e.1 ∈ losers) (hlose : ∀ t ∈ losers, W t = false)
    (hnil : log = [] → disk = base) (hset : (∀ e ∈ log, e.2.isSet = true) → disk.isSome = base.isSome)
    (hwin : LegalFrom base (opsWith W full))
    (hlegal : ∀ t ∈ losers, LegalFrom (redoAll (opsWith W full) base) (opsOf t full))
    (hlast : ∀ t v, last = some (t, v) → W t = true → ∀ e ∈ log, W e.1 = true) :
    losers.foldl (fun x t => undoAll (opsOf t log) x) (redoAll (log.map Prod.snd) disk) =
      ((last.filter fun e => W e.1).map Prod.snd <|> redoAll (opsWith W kept) base) := by
  have hundo : ∀ x, losers.foldl (fun x t => undoAll (opsOf t log) x) x =
      losers.foldl (fun x t => undoAll (opsOf t full) x) x := by
    intro x
    simp only [h.undo]
  rw [h.effects hwin]
  cases hl : last with
  | none =>
      have hredo := (h.redo (x := disk)).1
      rw [hl] at hredo
      rw [hundo, hredo]
      refine replay_then_undo ?_ hlose ?_ ?_ hlegal
      · intro e he hW
        obtain ⟨d, hd, hde⟩ := (h.fst e.1).1 ⟨e, he, rfl⟩
        exact hde ▸ hcover d hd (hde.symm ▸ hW)
      · intro hfull
        refine hnil (List.eq_nil_iff_forall_not_mem.2 fun e he => ?_)
        have := h.subset he
        rw [hfull] at this
        cases this
      · exact fun hsets => hset fun e he => hsets e (h.subset he)
  | some tv =>
      obtain ⟨t, v⟩ := tv
      have hredo := (h.redo (x := disk)).1
      rw [hl] at hredo
      rw [hredo]
      change losers.foldl _ (some v) = _
      cases hW : W t with
      | true =>
          -- nobody has lost anything in this slot
          have hstay : ∀ t ∈ losers, opsOf t log = [] := by
            intro u hu
            refine opsOf_eq_nil.2 fun e he heu => ?_
            have hwins := hlast t v hl hW e he
            rw [heu, hlose u hu] at hwins
            cases hwins
          rw [foldl_stays hstay]
          simp [Option.filter, hW]
      | false =>
          have hmem : ∃ e ∈ log, e.1 = t ∧ e.2 = .put v := by
            cases h with
            | nil | keep => cases hl
            | retract u w h =>
                cases hl
                exact ⟨_, List.mem_append_right _ (List.mem_singleton_self _), rfl, rfl⟩
          obtain ⟨e, he, het, hev⟩ := hmem
          have hin : Op.put v ∈ opsOf t full :=
            List.mem_map.2 ⟨e, List.mem_filter.2 ⟨h.subset he, by simpa using het⟩, hev⟩
          have ht : t ∈ losers := het ▸ hcover e he (het.symm ▸ hW)
          have hmap : losers.foldl (fun x t => undoAll (opsOf t full) x) (some v) =
              (losers.map fun t => opsOf t full).foldl (fun x c => undoAll c x) (some v) := by
            rw [List.foldl_map]
          have hnone : ((some (t, v)).filter fun e => W e.1) = none := by simp [Option.filter, hW]
          rw [hundo, hmap, hnone]
          refine undo_chains ?_ ⟨_, List.mem_map_of_mem ht,
            List.ne_nil_of_mem hin⟩ (.inl ⟨_, List.mem_map_of_mem ht, _, hin, rfl⟩)
          intro c hc
          obtain ⟨u, hu, rfl⟩ := List.mem_map.1 hc
          exact hlegal u hu

end Retracts

end Rmdb.Slot
