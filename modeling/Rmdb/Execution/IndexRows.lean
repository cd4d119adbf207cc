import Rmdb.Execution.Executor
import Rmdb.Index.Emptied

namespace Rmdb

abbrev Rows := Rid → Option Row

def Holds {K α : Type} (m : IxMap K) (key : α → K) (L : Rid → Option α) : Prop :=
  ∀ k r, m k = some r ↔ ∃ row, L r = some row ∧ key row = k

def IndexOf {K α : Type} [LinearOrder K] (ih : IxIndexHandle K) (key : α → K) (L : Rid → Option α) : Prop :=
  NoPage ih ∧ ∃ m, Sim ih m ∧ Holds m key L

/-- The tree of the rows; an index whose last entry has gone has no root. -/
def Indexed {K : Type} [LinearOrder K] [IxKey K] (ih : IxIndexHandle K) (key : Bytes → K)
    (L : Rid → Option Bytes) : Prop :=
  IndexOf ih key L ∨ Emptied ih ∧ ∀ r, L r = none

section Maps

variable {K α : Type} [DecidableEq K] {m : IxMap K} {key : α → K} {L : Rid → Option α} {r : Rid}
  {row old new : α} {k : K}

omit [DecidableEq K] in
theorem Holds.unique (h : Holds m key L) {r r' : Rid} {row row' : α} (hr : L r = some row)
    (hr' : L r' = some row') (hk : key row = key row') : r = r' := by
  have h1 := (h (key row) r).2 ⟨row, hr, rfl⟩
  have h2 := (h (key row) r').2 ⟨row', hr', hk.symm⟩
  exact Option.some.inj (h1.symm.trans h2)

omit [DecidableEq K] in
theorem Holds.none_iff (h : Holds m key L) : m k = none ↔ ∀ r row, L r = some row → key row ≠ k := by
  constructor
  · intro hk r row hr hkey
    have := (h k r).2 ⟨row, hr, hkey⟩
    rw [hk] at this
    cases this
  · intro hall
    cases hk : m k with
    | none => rfl
    | some r =>
        obtain ⟨row, hr, hkey⟩ := (h k r).1 hk
        exact absurd hkey (hall r row hr)

omit [DecidableEq K] in
theorem Holds.exists_key (h : Holds m key L) (hL : ∃ r, L r ≠ none) : ∃ k, m k ≠ none := by
  obtain ⟨r, hr⟩ := hL
  obtain ⟨row, hrow⟩ := Option.ne_none_iff_exists'.1 hr
  exact ⟨key row, by rw [(h (key row) r).2 ⟨row, hrow, rfl⟩]; simp⟩

theorem Holds.insert (h : Holds m key L) (hr : L r = none) (hnew : m (key row) = none) :
    Holds (Function.update m (key row) (some r)) key (Function.update L r (some row)) := by
  intro k q
  by_cases hk : k = key row
  · subst hk
    rw [Function.update_self]
    constructor
    · rintro hq
      cases hq
      exact ⟨row, Function.update_self .., rfl⟩
    · rintro ⟨row', hq, hkey⟩
      by_cases hqr : q = r
      · rw [hqr]
      · rw [Function.update_of_ne hqr] at hq
        exact absurd hkey (h.none_iff.1 hnew q row' hq)
  · rw [Function.update_of_ne hk, h k q]
    refine exists_congr fun row' => ?_
    by_cases hqr : q = r
    · subst hqr
      rw [hr, Function.update_self]
      constructor
      · exact fun hc => nomatch hc.1
      · rintro ⟨hc, rfl⟩
        cases hc
        exact absurd rfl hk
    · rw [Function.update_of_ne hqr]

theorem Holds.delete (h : Holds m key L) (hr : L r = some row) :
    Holds (Function.update m (key row) none) key (Function.update L r none) := by
  intro k q
  by_cases hk : k = key row
  · subst hk
    rw [Function.update_self]
    refine ⟨nofun, ?_⟩
    rintro ⟨row', hq, hkey⟩
    by_cases hqr : q = r
    · rw [hqr, Function.update_self] at hq
      cases hq
    · rw [Function.update_of_ne hqr] at hq
      exact absurd (h.unique hq hr hkey) hqr
  · rw [Function.update_of_ne hk, h k q]
    refine exists_congr fun row' => ?_
    by_cases hqr : q = r
    · subst hqr
      rw [hr, Function.update_self]
      constructor
      · rintro ⟨hc, rfl⟩
        cases hc
        exact absurd rfl hk
      · exact fun hc => nomatch hc.1
    · rw [Function.update_of_ne hqr]

omit [DecidableEq K] in
theorem Holds.congr (h : Holds m key L) (hr : L r = some old) (hkey : key new = key old) :
    Holds m key (Function.update L r (some new)) := by
  intro k q
  rw [h k q]
  by_cases hqr : q = r
  · subst hqr
    rw [hr, Function.update_self]
    constructor
    · rintro ⟨row', hc, rfl⟩
      cases hc
      exact ⟨new, rfl, hkey⟩
    · rintro ⟨row', hc, rfl⟩
      cases hc
      exact ⟨old, rfl, hkey.symm⟩
  · rw [Function.update_of_ne hqr]

end Maps

section Calls

variable {K α : Type} [LinearOrder K] [IxKey K] [LawfulIxKey K] {ih : IxIndexHandle K} {key : α → K}
  {L : Rid → Option α} {r : Rid} {rid : Option Rid} {row old new : α} {k : K}

omit [LinearOrder K] [LawfulIxKey K] in
theorem insertEntry_of_exec {v : Rid} {flag : Bool} {ih' : IxIndexHandle K}
    (h : (IxOp.insert k v).exec ih = .ok (flag, ih')) : ∃ p, ih.insertEntry k v = .ok (p, flag, ih') := by
  obtain ⟨⟨p, success, ih1⟩, hrun, hrest⟩ := bind_eq_ok.1 h
  cases hrest
  exact ⟨p, hrun⟩

omit [IxKey K] [LawfulIxKey K] in
theorem not_removesLast_insert {m : IxMap K} {v : Rid} : ¬ (IxOp.insert k v).RemovesLast m := by
  rintro ⟨-, hall⟩
  have := hall k
  rw [IxOp.spec] at this
  split at this
  · simp at this
  · contradiction

theorem IndexOf.insert (h : IndexOf ih key L) (hr : L r = none)
    (hnew : ∀ q row', L q = some row' → key row' ≠ key row) :
    ∃ p ih', ih.insertEntry (key row) r = .ok (p, true, ih') ∧
      IndexOf ih' key (Function.update L r (some row)) := by
  obtain ⟨hno, m, hs, hm⟩ := h
  have hnone : m (key row) = none := hm.none_iff.2 hnew
  obtain ⟨ih', hrun, hs'⟩ := step_sim (.insert (key row) r) hs trivial not_removesLast_insert
  simp only [IxOp.spec, hnone, if_true] at hrun hs'
  obtain ⟨p, hp⟩ := insertEntry_of_exec hrun
  exact ⟨p, ih', hp, hno.insertEntry hp, _, hs', hm.insert hr hnone⟩

theorem IndexOf.insert_dup (h : IndexOf ih key L) {q : Rid} (hq : L q = some old)
    (hkey : key old = k) (r : Rid) :
    ∃ p ih', ih.insertEntry k r = .ok (p, false, ih') ∧ IndexOf ih' key L := by
  obtain ⟨hno, m, hs, hm⟩ := h
  have hsome : m k = some q := (hm k q).2 ⟨old, hq, hkey⟩
  obtain ⟨ih', hrun, hs'⟩ := step_sim (.insert k r) hs trivial not_removesLast_insert
  simp only [IxOp.spec, hsome, reduceCtorEq, if_false] at hrun hs'
  obtain ⟨p, hp⟩ := insertEntry_of_exec hrun
  exact ⟨p, ih', hp, hno.insertEntry hp, m, hs', hm⟩

theorem IndexOf.delete (h : IndexOf ih key L) (hr : L r = some row) (hother : ∃ q, q ≠ r ∧ L q ≠ none)
    (hrid : rid = none ∨ rid = some r) :
    ∃ ih', ih.deleteEntry (key row) rid = .ok (true, ih') ∧ IndexOf ih' key (Function.update L r none) := by
  obtain ⟨hno, m, hs, hm⟩ := h
  have hsome : m (key row) = some r := (hm _ r).2 ⟨row, hr, rfl⟩
  have hspec : (IxOp.spec m (.delete (key row) rid)).2 = Function.update m (key row) none := by
    simp only [IxOp.spec, hsome, if_pos hrid]
  have hm' := hm.delete hr
  obtain ⟨ih', hrun, hs'⟩ := step_sim (.delete (key row) rid) hs ⟨key row, by simp [hsome]⟩ (by
    rintro ⟨-, hall⟩
    obtain ⟨q, hqr, hq⟩ := hother
    obtain ⟨k, hk⟩ := hm'.exists_key ⟨q, by rw [Function.update_of_ne hqr]; exact hq⟩
    rw [hspec] at hall
    exact hk (hall k))
  rw [hspec] at hs'
  exact ⟨ih', hrun, hno.deleteEntry hrun, _, hs', hm'⟩

theorem IndexOf.delete_other (h : IndexOf ih key L) (hL : ∃ q, L q ≠ none)
    (hr : ∀ row, L r = some row → key row ≠ k) :
    ∃ ih', ih.deleteEntry k (some r) = .ok (true, ih') ∧ IndexOf ih' key L := by
  obtain ⟨hno, m, hs, hm⟩ := h
  have hspec : (IxOp.spec m (.delete k (some r))).2 = m := by
    simp only [IxOp.spec]
    cases hk : m k with
    | none => rfl
    | some q =>
        obtain ⟨row, hq, hkey⟩ := (hm k q).1 hk
        have hne : ¬ ((some r : Option Rid) = none ∨ some r = some q) := by
          rintro (hc | hc)
          · cases hc
          · cases hc
            exact hr row hq hkey
        simp only [if_neg hne]
  have hne := hm.exists_key hL
  obtain ⟨ih', hrun, hs'⟩ := step_sim (.delete k (some r)) hs hne (by
    rintro ⟨-, hall⟩
    rw [hspec] at hall
    obtain ⟨k', hk'⟩ := hne
    exact hk' (hall k'))
  rw [hspec] at hs'
  exact ⟨ih', hrun, hno.deleteEntry hrun, m, hs', hm⟩

theorem IndexOf.delete_last (h : IndexOf ih key L) (hr : L r = some row) (honly : ∀ q, q ≠ r → L q = none)
    (hrid : rid = none ∨ rid = some r) :
    ∃ ih', ih.deleteEntry (key row) rid = .ok (true, ih') ∧ Emptied ih' := by
  obtain ⟨hno, m, ⟨es, hv, hes⟩, hm⟩ := h
  have hone : ∀ e ∈ es, e = (key row, r) := by
    rintro ⟨k, q⟩ he
    obtain ⟨row', hq, hkey⟩ := (hm k q).1 ((hes k q).1 he)
    by_cases hqr : q = r
    · subst hqr
      rw [hr] at hq
      cases hq
      rw [hkey]
    · rw [honly q hqr] at hq
      cases hq
  have hmem : (key row, r) ∈ es := (hes _ _).2 ((hm _ _).2 ⟨row, hr, rfl⟩)
  have hsingle : es = [(key row, r)] := by
    have hsorted := hv.sorted
    cases es with
    | nil => cases hmem
    | cons e rest =>
        rw [hone e List.mem_cons_self] at hsorted ⊢
        cases rest with
        | nil => rfl
        | cons e' rest =>
            have hlt := List.rel_of_pairwise_cons hsorted (List.mem_cons_self (a := e'))
            rw [hone e' (by simp)] at hlt
            exact absurd hlt (lt_irrefl _)
  rw [hsingle] at hv
  exact deleteEntry_last hv hno hrid

/-- Both steps of an update: the new key goes in before the old one comes out. -/
theorem IndexOf.move (h : IndexOf ih key L) (hr : L r = some old)
    (hnew : ∀ q row', L q = some row' → key row' ≠ key new) :
    ∃ p ih1 ih2, ih.insertEntry (key new) r = .ok (p, true, ih1) ∧
      ih1.deleteEntry (key old) none = .ok (true, ih2) ∧
      IndexOf ih2 key (Function.update L r (some new)) := by
  obtain ⟨hno, m, hs, hm⟩ := h
  have hnone : m (key new) = none := hm.none_iff.2 hnew
  have hold : m (key old) = some r := (hm _ r).2 ⟨old, hr, rfl⟩
  have hne : key old ≠ key new := hnew r old hr
  obtain ⟨ih1, hrun1, hs1⟩ := step_sim (.insert (key new) r) hs trivial not_removesLast_insert
  simp only [IxOp.spec, hnone, if_true] at hrun1 hs1
  obtain ⟨p, hp⟩ := insertEntry_of_exec hrun1
  have hspec : (IxOp.spec (Function.update m (key new) (some r)) (.delete (key old) none)).2 =
      Function.update (Function.update m (key old) none) (key new) (some r) := by
    simp only [IxOp.spec, Function.update_of_ne hne, hold, true_or, if_true]
    exact Function.update_comm hne.symm _ _ _
  obtain ⟨ih2, hrun2, hs2⟩ := step_sim (.delete (key old) none) hs1 ⟨key new, by simp⟩ (by
    rintro ⟨-, hall⟩
    have := hall (key new)
    rw [hspec, Function.update_self] at this
    cases this)
  rw [hspec] at hs2
  have hm' : Holds (Function.update (Function.update m (key old) none) (key new) (some r)) key
      (Function.update (Function.update L r none) r (some new)) := by
    refine (hm.delete hr).insert (Function.update_self ..) ?_
    rw [Function.update_of_ne hne.symm]
    exact hnone
  rw [Function.update_idem] at hm'
  exact ⟨p, ih1, ih2, hp, hrun2, (hno.insertEntry hp).deleteEntry hrun2, _, hs2, hm'⟩

omit [IxKey K] [LawfulIxKey K] in
theorem IndexOf.congr (h : IndexOf ih key L) (hr : L r = some old) (hkey : key new = key old) :
    IndexOf ih key (Function.update L r (some new)) := by
  obtain ⟨hno, m, hs, hm⟩ := h
  exact ⟨hno, m, hs, hm.congr hr hkey⟩

end Calls

end Rmdb
