import Rmdb.Recovery.Log

namespace Rmdb

variable {st : Store} {loc : Loc} {log : List LogRecord}

theorem Write.redo_eq (w : Write) (st : Store) :
    w.redo st = Function.update st w.loc (w.op.redo (st w.loc)) := by
  obtain ⟨l, o⟩ := w
  cases o <;> rfl

theorem Write.undo_eq (w : Write) (st : Store) :
    w.undo st = Function.update st w.loc (w.op.undo (st w.loc)) := by
  obtain ⟨l, o⟩ := w
  cases o <;> rfl

def opsAt (loc : Loc) (ws : List Write) : List (Slot.Op Bytes) :=
  (ws.filter fun w => w.loc = loc).map Write.op

theorem opsAt_cons (w : Write) (ws : List Write) :
    opsAt loc (w :: ws) = if w.loc = loc then w.op :: opsAt loc ws else opsAt loc ws := by
  by_cases h : w.loc = loc <;> simp [opsAt, h]

theorem opsAt_reverse (ws : List Write) : opsAt loc ws.reverse = (opsAt loc ws).reverse := by
  simp [opsAt, List.filter_reverse]

/-- Replaying a list of writes is replaying, in each slot, the operations on that slot. -/
theorem redo_writes (ws : List Write) :
    (ws.foldl (fun st w => w.redo st) st) loc = Slot.redoAll (opsAt loc ws) (st loc) := by
  induction ws generalizing st with
  | nil => rfl
  | cons w ws ih =>
      rw [List.foldl_cons, ih, opsAt_cons, Write.redo_eq]
      by_cases h : w.loc = loc
      · rw [if_pos h, h, Function.update_self]
        rfl
      · rw [if_neg h, Function.update_of_ne (Ne.symm h)]

theorem undo_writes (ws : List Write) :
    (ws.foldl (fun st w => w.undo st) st) loc = Slot.undoAll (opsAt loc ws).reverse (st loc) := by
  induction ws generalizing st with
  | nil => rfl
  | cons w ws ih =>
      rw [List.foldl_cons, ih, opsAt_cons, Write.undo_eq, Slot.undoAll, Slot.undoAll, List.foldr_reverse,
        List.foldr_reverse]
      by_cases h : w.loc = loc
      · rw [if_pos h, h, Function.update_self]
        rfl
      · rw [if_neg h, Function.update_of_ne (Ne.symm h)]

/-- The log of one slot: who has done what to it. -/
def slotLog (loc : Loc) (log : List LogRecord) : List (TxnId × Slot.Op Bytes) :=
  log.filterMap fun r => r.write?.bind fun w => if w.loc = loc then some (r.logTid, w.op) else none

theorem slotLog_append (l l' : List LogRecord) : slotLog loc (l ++ l') = slotLog loc l ++ slotLog loc l' :=
  List.filterMap_append

theorem mem_slotLog {p : TxnId × Slot.Op Bytes} :
    p ∈ slotLog loc log ↔ ∃ r ∈ log, ∃ w, r.write? = some w ∧ w.loc = loc ∧ (r.logTid, w.op) = p := by
  simp only [slotLog, List.mem_filterMap, Option.bind_eq_some_iff, Option.ite_none_right_eq_some,
    Option.some.injEq]

def recordsOf (t : TxnId) (log : List LogRecord) : List LogRecord := log.filter fun r => r.logTid = t

def writesOf (t : TxnId) (log : List LogRecord) : List Write := (recordsOf t log).filterMap LogRecord.write?

theorem opsAt_writes : opsAt loc (log.filterMap LogRecord.write?) = (slotLog loc log).map Prod.snd := by
  induction log with
  | nil => rfl
  | cons r log ih =>
      cases hw : r.write? with
      | none => simp [slotLog, hw] at ih ⊢; exact ih
      | some w =>
          by_cases hl : w.loc = loc
          · simp [slotLog, hw, hl, opsAt_cons] at ih ⊢
            exact ih
          · simp [slotLog, hw, hl, opsAt_cons] at ih ⊢
            exact ih

theorem opsAt_writesOf (t : TxnId) : opsAt loc (writesOf t log) = Slot.opsOf t (slotLog loc log) := by
  induction log with
  | nil => rfl
  | cons r log ih =>
      by_cases ht : r.logTid = t
      · cases hw : r.write? with
        | none => simpa [writesOf, recordsOf, slotLog, Slot.opsOf, hw, ht] using ih
        | some w =>
            by_cases hl : w.loc = loc
            · simpa [writesOf, recordsOf, slotLog, Slot.opsOf, hw, ht, hl, opsAt_cons] using ih
            · simpa [writesOf, recordsOf, slotLog, Slot.opsOf, hw, ht, hl, opsAt_cons] using ih
      · cases hw : r.write? with
        | none => simpa [writesOf, recordsOf, slotLog, Slot.opsOf, hw, ht] using ih
        | some w =>
            by_cases hl : w.loc = loc
            · simpa [writesOf, recordsOf, slotLog, Slot.opsOf, hw, ht, hl, opsAt_cons] using ih
            · simpa [writesOf, recordsOf, slotLog, Slot.opsOf, hw, ht, hl, opsAt_cons] using ih

namespace RecoveryManager

variable {a : RecoveryManager} {order : List (String × Int)}

/-- Redo goes page by page, but each slot sees all its operations in lsn order. -/
theorem redo_slot (h : a.RedoOrder order) :
    (a.redo order st) loc = Slot.redoAll ((slotLog loc a.logRecords).map Prod.snd) (st loc) := by
  have hpage : ∀ page, opsAt loc (a.redoLogs page) =
      if loc.page = page then (slotLog loc a.logRecords).map Prod.snd else [] := by
    intro page
    rw [← opsAt_writes, redoLogs]
    by_cases hp : loc.page = page
    · rw [if_pos hp, opsAt, opsAt, List.filter_filter]
      congr 1
      refine List.filter_congr fun w _ => ?_
      by_cases hl : w.loc = loc
      · simp [hl, hp]
      · simp [hl]
    · rw [if_neg hp, opsAt, List.map_eq_nil_iff, List.filter_filter]
      refine List.filter_eq_nil_iff.2 fun w _ => ?_
      by_cases hl : w.loc = loc
      · simp [hl, hp]
      · simp [hl]
  have hfold : ∀ (pages : List (String × Int)) (st : Store), pages.Nodup →
      (pages.foldl (fun st page => (a.redoLogs page).foldl (fun st w => w.redo st) st) st) loc =
        if loc.page ∈ pages then Slot.redoAll ((slotLog loc a.logRecords).map Prod.snd) (st loc)
          else st loc := by
    intro pages
    induction pages with
    | nil => intro st _; simp
    | cons page pages ih =>
        intro st hnd
        obtain ⟨hnot, hnd⟩ := List.nodup_cons.1 hnd
        rw [List.foldl_cons, ih _ hnd, redo_writes, hpage]
        by_cases hp : loc.page = page
        · subst hp
          simp [hnot]
        · simp [hp]
  rw [redo, hfold order st h.1]
  split
  · rfl
  · rename_i hnot
    have hnil : (slotLog loc a.logRecords).map Prod.snd = [] := by
      have := hpage loc.page
      rw [if_pos rfl, not_not.1 (mt (h.2 loc.page).2 hnot)] at this
      exact this.symm
    rw [hnil]
    rfl

end RecoveryManager

end Rmdb
