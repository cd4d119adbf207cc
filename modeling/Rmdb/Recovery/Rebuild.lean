import Mathlib.Data.List.Induction
import Rmdb.Recovery.Crash

namespace Rmdb

section OneIndex

variable {κ : Type} {t : String} {key : Bytes → κ} {st : Store} {loc : Loc} {slots : List Rid}
  {built : List (Bytes → κ)} {r r' : Rid}

/-- Another row of the table, earlier in scan order, has the key of the row. -/
def Repeats (slots : List Rid) (t : String) (key : Bytes → κ) (st : Store) (r : Rid) : Prop :=
  ∃ r' row row', [r', r].Sublist slots ∧ st ⟨t, r'⟩ = some row' ∧ st ⟨t, r⟩ = some row ∧ key row' = key row

/-- The indexes are built one after the other, the head of the list last. Each keeps the first row
of every key among the rows that the ones before have kept. -/
def Survives (slots : List Rid) (t : String) (st : Store) : List (Bytes → κ) → Rid → Prop
  | [], _ => True
  | key :: built, r =>
      Survives slots t st built r ∧ ∀ r' row row', [r', r].Sublist slots → Survives slots t st built r' →
      st ⟨t, r'⟩ = some row' → st ⟨t, r⟩ = some row → key row' ≠ key row

theorem pair_sublist_snoc {rid : Rid} :
    [r', r].Sublist (slots ++ [rid]) ↔ [r', r].Sublist slots ∨ r' ∈ slots ∧ r = rid := by
  rw [← List.reverse_sublist, ← @List.reverse_sublist _ _ slots, List.reverse_append]
  change [r, r'].Sublist (rid :: slots.reverse) ↔ [r, r'].Sublist slots.reverse ∨ _
  rw [List.cons_sublist_cons', List.singleton_sublist, List.mem_reverse, and_comm (a := r = rid)]

theorem repeats_snoc {rid : Rid} : Repeats (slots ++ [rid]) t key st r ↔ Repeats slots t key st r ∨
    r = rid ∧ ∃ row, st ⟨t, rid⟩ = some row ∧ ∃ r' ∈ slots, ∃ row', st ⟨t, r'⟩ = some row' ∧
      key row' = key row := by
  constructor
  · rintro ⟨r', row, row', hsub, hrow', hrow, hkey⟩
    rcases pair_sublist_snoc.1 hsub with hsub | ⟨hr', rfl⟩
    · exact .inl ⟨r', row, row', hsub, hrow', hrow, hkey⟩
    · exact .inr ⟨rfl, row, hrow, r', hr', row', hrow', hkey⟩
  · rintro (⟨r', row, row', hsub, h⟩ | ⟨rfl, row, hrow, r', hr', row', hrow', hkey⟩)
    · exact ⟨r', row, row', pair_sublist_snoc.2 (.inl hsub), h⟩
    · exact ⟨r', row, row', pair_sublist_snoc.2 (.inr ⟨hr', rfl⟩), hrow', hrow, hkey⟩

theorem Repeats.mem (h : Repeats slots t key st r) : r ∈ slots := by
  obtain ⟨r', _, _, hsub, -⟩ := h
  exact hsub.subset (List.mem_cons_of_mem _ List.mem_cons_self)

theorem survives_congr {st' : Store} (h : ∀ r, st' ⟨t, r⟩ = st ⟨t, r⟩) :
    Survives slots t st' built r ↔ Survives slots t st built r := by
  induction built generalizing r with
  | nil => rfl
  | cons key built ih => simp only [Survives, ih, h]

variable [DecidableEq κ]

def scanRow (t : String) (key : Bytes → κ) (acc : List κ × Store) (rid : Rid) : List κ × Store :=
  match acc.2 ⟨t, rid⟩ with
  | none => acc
  | some row => if key row ∈ acc.1 then (acc.1, deleteRecord acc.2 ⟨t, rid⟩) else (key row :: acc.1, acc.2)

section Round

variable {seen : List κ} {rid : Rid} {row : Bytes}

theorem scanRow_none (h : st ⟨t, rid⟩ = none) :
    scanRow t key (seen, st) rid = (seen, st) := by simp [scanRow, h]

theorem scanRow_dup (h : st ⟨t, rid⟩ = some row) (hin : key row ∈ seen) :
    scanRow t key (seen, st) rid = (seen, deleteRecord st ⟨t, rid⟩) := by
  simp [scanRow, h, hin]

theorem scanRow_new (h : st ⟨t, rid⟩ = some row) (hin : key row ∉ seen) :
    scanRow t key (seen, st) rid = (key row :: seen, st) := by
  simp [scanRow, h, hin]

end Round

theorem createIndexRows_eq_scan (cat : Catalog κ) :
    createIndexRows cat t key st = ((cat.slots t).foldl (scanRow t key) ([], st)).2 := rfl

/-- The scan has met the keys of the rows that it has passed, and deletes those that repeat one. -/
theorem scanRows_spec (t : String) (key : Bytes → κ) (st : Store) (hnd : slots.Nodup) :
    (∀ k, k ∈ (slots.foldl (scanRow t key) ([], st)).1 ↔
      ∃ r ∈ slots, ∃ row, st ⟨t, r⟩ = some row ∧ key row = k) ∧
      (∀ loc, loc.table = t ∧ Repeats slots t key st loc.rid →
        (slots.foldl (scanRow t key) ([], st)).2 loc = none) ∧
      ∀ loc, ¬ (loc.table = t ∧ Repeats slots t key st loc.rid) →
        (slots.foldl (scanRow t key) ([], st)).2 loc = st loc := by
  induction slots using List.reverseRecOn with
  | nil => exact ⟨by simp, fun loc h => absurd h.2.mem List.not_mem_nil, fun _ _ => rfl⟩
  | append_singleton slots rid ih =>
      obtain ⟨hnd, -, hfresh⟩ := List.nodup_append.1 hnd
      have hrid : rid ∉ slots := fun h => hfresh rid h rid (List.mem_singleton_self _) rfl
      obtain ⟨hseen, hdel, hkeep⟩ := ih hnd
      rw [List.foldl_append]
      generalize slots.foldl (scanRow t key) ([], st) = acc at hseen hdel hkeep ⊢
      obtain ⟨seen, st'⟩ := acc
      simp only [List.foldl_cons, List.foldl_nil] at hseen hdel hkeep ⊢
      have hsame : st' ⟨t, rid⟩ = st ⟨t, rid⟩ := hkeep _ fun h => hrid h.2.mem
      cases hrow : st ⟨t, rid⟩ with
      | none =>
          rw [scanRow_none (hsame.trans hrow)]
          refine ⟨fun k => (hseen k).trans ?_, fun loc hloc => ?_, fun loc hloc => ?_⟩
          · simp [or_and_right, exists_or, hrow]
          · refine hdel loc ⟨hloc.1, (repeats_snoc.1 hloc.2).resolve_right ?_⟩
            rintro ⟨-, row, hsome, -⟩
            rw [hrow] at hsome
            cases hsome
          · exact hkeep loc fun h => hloc ⟨h.1, repeats_snoc.2 (.inl h.2)⟩
      | some row =>
          have hdup : key row ∈ seen ↔ ∃ r' ∈ slots, ∃ row', st ⟨t, r'⟩ = some row' ∧
            key row' = key row := hseen _
          have hrep : ∀ loc : Loc, loc ≠ ⟨t, rid⟩ →
            (loc.table = t ∧ Repeats (slots ++ [rid]) t key st loc.rid ↔
              loc.table = t ∧ Repeats slots t key st loc.rid) := by
            intro loc hloc
            refine and_congr_right fun ht => repeats_snoc.trans (or_iff_left ?_)
            rintro ⟨hr, -⟩
            exact hloc (by rw [← ht, ← hr])
          by_cases hin : key row ∈ seen
          · -- the row repeats a key and goes
            rw [scanRow_dup (hsame.trans hrow) hin]
            refine ⟨fun k => (hseen k).trans ⟨fun ⟨r, hr, h⟩ => ⟨r, List.mem_append_left _ hr, h⟩,
              ?_⟩, fun loc hloc => ?_, fun loc hloc => ?_⟩
            · rintro ⟨r, hr, row', hrow', rfl⟩
              rcases List.mem_append.1 hr with hr | hr
              · exact ⟨r, hr, row', hrow', rfl⟩
              · rw [List.mem_singleton.1 hr, hrow] at hrow'
                cases hrow'
                exact hdup.1 hin
            · by_cases heq : loc = ⟨t, rid⟩
              · rw [heq]
                exact Function.update_self ..
              · refine (Function.update_of_ne heq _ _).trans ?_
                exact hdel loc ((hrep loc heq).1 hloc)
            · have heq : loc ≠ ⟨t, rid⟩ := by
                rintro rfl
                exact hloc ⟨rfl, repeats_snoc.2 (.inr ⟨rfl, row, hrow, hdup.1 hin⟩)⟩
              refine (Function.update_of_ne heq _ _).trans ?_
              exact hkeep loc fun h => hloc ((hrep loc heq).2 h)
          · rw [scanRow_new (hsame.trans hrow) hin]
            have hnew : ¬ Repeats (slots ++ [rid]) t key st rid := by
              intro h
              rcases repeats_snoc.1 h with h | ⟨-, row', hrow', hd⟩
              · exact hrid h.mem
              · rw [hrow] at hrow'
                cases hrow'
                exact hin (hdup.2 hd)
            refine ⟨fun k => ?_, fun loc hloc => ?_, fun loc hloc => ?_⟩
            · rw [List.mem_cons, hseen k]
              constructor
              · rintro (rfl | ⟨r, hr, h⟩)
                · exact ⟨rid, by simp, row, hrow, rfl⟩
                · exact ⟨r, List.mem_append_left _ hr, h⟩
              · rintro ⟨r, hr, row', hrow', rfl⟩
                rcases List.mem_append.1 hr with hr | hr
                · exact .inr ⟨r, hr, row', hrow', rfl⟩
                · rw [List.mem_singleton.1 hr, hrow] at hrow'
                  cases hrow'
                  exact .inl rfl
            · have heq : loc ≠ ⟨t, rid⟩ := by
                rintro rfl
                exact hnew hloc.2
              exact hdel loc ((hrep loc heq).1 hloc)
            · by_cases heq : loc = ⟨t, rid⟩
              · rw [heq]
                exact hsame.trans rfl
              · exact hkeep loc fun h => hloc ((hrep loc heq).2 h)

end OneIndex

section AllIndexes

variable {κ : Type} [DecidableEq κ] {cat : Catalog κ} {t : String} {st : Store} {loc : Loc}

/-- Creating an index deletes the rows of its table that repeat a key. -/
theorem createIndexRows_spec (t : String) (st : Store) (loc : Loc) (key : Bytes → κ) :
    (loc.table = t → Repeats (cat.slots t) t key st loc.rid → createIndexRows cat t key st loc = none) ∧
      (¬ (loc.table = t ∧ Repeats (cat.slots t) t key st loc.rid) →
        createIndexRows cat t key st loc = st loc) := by
  obtain ⟨-, hdel, hkeep⟩ := scanRows_spec t key st (cat.nodup t)
  rw [createIndexRows_eq_scan]
  exact ⟨fun ht hr => hdel loc ⟨ht, hr⟩, hkeep loc⟩

/-- The rows that all indexes keep stay, and the others go. -/
theorem createAll_spec (t : String) (st : Store) (keys : List (Bytes → κ)) (loc : Loc) :
    (loc.table = t → ¬ Survives (cat.slots t) t st keys.reverse loc.rid →
        keys.foldl (fun st key => createIndexRows cat t key st) st loc = none) ∧
      (loc.table = t → Survives (cat.slots t) t st keys.reverse loc.rid →
        keys.foldl (fun st key => createIndexRows cat t key st) st loc = st loc) ∧
      (loc.table ≠ t → keys.foldl (fun st key => createIndexRows cat t key st) st loc = st loc) := by
  induction keys using List.reverseRecOn generalizing loc with
  | nil => exact ⟨fun _ h => absurd trivial h, fun _ _ => rfl, fun _ => rfl⟩
  | append_singleton keys key ih =>
      have hrows : ∀ r row, keys.foldl (fun st key => createIndexRows cat t key st) st ⟨t, r⟩ = some row ↔
          Survives (cat.slots t) t st keys.reverse r ∧ st ⟨t, r⟩ = some row := by
        intro r row
        obtain ⟨hgone, hstay, -⟩ := ih ⟨t, r⟩
        by_cases hk : Survives (cat.slots t) t st keys.reverse r
        · rw [hstay rfl hk, and_iff_right hk]
        · rw [hgone rfl hk]
          exact iff_of_false nofun fun h => hk h.1
      obtain ⟨hgone, hstay, hother⟩ := ih loc
      obtain ⟨hdel, hkeep⟩ := createIndexRows_spec t
        (keys.foldl (fun st key => createIndexRows cat t key st) st) loc key
      simp only [List.foldl_append, List.foldl_cons, List.foldl_nil, List.reverse_append,
        List.reverse_cons, List.reverse_nil, List.nil_append, List.singleton_append, Survives]
      refine ⟨fun ht hnot => ?_, fun ht hk => ?_, fun ht => ?_⟩
      · by_cases hk : Survives (cat.slots t) t st keys.reverse loc.rid
        · simp only [hk, true_and] at hnot
          push Not at hnot
          obtain ⟨r', row, row', hsub, hk', hrow', hrow, hkey⟩ := hnot
          exact hdel ht ⟨r', row, row', hsub, (hrows r' row').2 ⟨hk', hrow'⟩,
            (hrows loc.rid row).2 ⟨hk, hrow⟩, hkey⟩
        · rw [hkeep]
          · exact hgone ht hk
          · rintro ⟨-, r', row, row', -, -, hrow, -⟩
            exact hk ((hrows _ _).1 hrow).1
      · rw [hkeep]
        · exact hstay ht hk.1
        · rintro ⟨-, r', row, row', hsub, hrow', hrow, hkey⟩
          obtain ⟨hk', hrow'⟩ := (hrows _ _).1 hrow'
          exact hk.2 r' row row' hsub hk' hrow' ((hrows _ _).1 hrow).2 hkey
      · rw [hkeep fun h => ht h.1]
        exact hother ht

/-- The rebuild of all indexes deletes the rows that some index of their table does not keep. -/
theorem rebuildIndexes_spec (hnd : cat.tables.Nodup) :
    (loc.table ∈ cat.tables →
      ¬ Survives (cat.slots loc.table) loc.table st (cat.indexes loc.table).reverse loc.rid →
        rebuildIndexes cat st loc = none) ∧
      (Survives (cat.slots loc.table) loc.table st (cat.indexes loc.table).reverse loc.rid ∨
        loc.table ∉ cat.tables →
        rebuildIndexes cat st loc = st loc) := by
  have hfold : ∀ (tabs : List String) (st : Store), tabs.Nodup →
      let fin :=
        tabs.foldl (fun st t => (cat.indexes t).foldl (fun st key => createIndexRows cat t key st) st) st
      (loc.table ∈ tabs → ¬ Survives (cat.slots loc.table) loc.table st
        (cat.indexes loc.table).reverse loc.rid → fin loc = none) ∧
        (Survives (cat.slots loc.table) loc.table st (cat.indexes loc.table).reverse loc.rid ∨
          loc.table ∉ tabs → fin loc = st loc) := by
    intro tabs
    induction tabs with
    | nil => exact fun st _ => ⟨fun h => (List.not_mem_nil h).elim, fun _ => rfl⟩
    | cons t tabs ih =>
        intro st hnd
        obtain ⟨hnot, hnd⟩ := List.nodup_cons.1 hnd
        obtain ⟨hgone, hstay⟩ :=
          ih ((cat.indexes t).foldl (fun st key => createIndexRows cat t key st) st) hnd
        obtain ⟨hdel, hkeep, hother⟩ := createAll_spec t st (cat.indexes t) loc
        by_cases ht : loc.table = t
        · -- the other tables do not touch the row
          subst ht
          have hrest := hstay (.inr hnot)
          refine ⟨fun _ hnk => ?_, fun hk => ?_⟩
          · exact hrest.trans (hdel rfl hnk)
          · exact hrest.trans (hkeep rfl (hk.resolve_right fun h => h List.mem_cons_self))
        · have hsame : ∀ r, (cat.indexes t).foldl (fun st key => createIndexRows cat t key st) st
              ⟨loc.table, r⟩ = st ⟨loc.table, r⟩ :=
            fun r => (createAll_spec t st (cat.indexes t) ⟨loc.table, r⟩).2.2 ht
          rw [survives_congr hsame, hother ht] at hstay
          rw [survives_congr hsame] at hgone
          refine ⟨fun hmem hnk => hgone ((List.mem_cons.1 hmem).resolve_left ht) hnk, fun hk =>
            hstay (hk.imp_right ?_)⟩
          exact fun h hmem => h (List.mem_cons_of_mem _ hmem)
  exact hfold cat.tables st hnd

end AllIndexes

end Rmdb
