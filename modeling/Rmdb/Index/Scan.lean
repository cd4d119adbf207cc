import Rmdb.Index.Zip

namespace Rmdb

open BPlus SepList IxIndexHandle

variable {K : Type} {h : Nat} {ih : IxIndexHandle K}

/-- A stretch of the leaf list up to its end, each leaf with its pairs. Only a stretch of
one leaf may end in an empty leaf. -/
structure Run (ih : IxIndexHandle K) (ls : List (Int × List (K × Rid))) : Prop where
  leaf : ∀ x ∈ ls, ∃ n, ih.pages x.1 = some n ∧ n.isLeaf = true ∧ n.pairs = x.2
  chain : (ls.map Prod.fst).IsChain (fun p q => nextOf ih p = some q)
  nodup : (ls.map Prod.fst).Nodup
  last : (ls.map Prod.fst).getLast? = some ih.fileHdr.lastLeaf
  full : ls.length = 1 ∨ ∀ x ∈ ls, x.2 ≠ []

theorem Run.tail {x y : Int × List (K × Rid)} {ls : List (Int × List (K × Rid))}
    (hr : Run ih (x :: y :: ls)) :
    Run ih (y :: ls) where
  leaf z hz := hr.leaf z (List.mem_cons_of_mem _ hz)
  chain := (List.isChain_cons_cons.1 hr.chain).2
  nodup := (List.nodup_cons.1 hr.nodup).2
  last := by simpa [List.getLast?_cons_cons] using hr.last
  full := Or.inr (by
    rcases hr.full with hone | hne
    · simp at hone
    · exact fun z hz => hne z (List.mem_cons_of_mem _ hz))

theorem Run.ne_last {x y : Int × List (K × Rid)} {ls : List (Int × List (K × Rid))}
    (hr : Run ih (x :: y :: ls)) :
    x.1 ≠ ih.fileHdr.lastLeaf := by
  have hl := hr.tail.last
  have hx := (List.nodup_cons.1 hr.nodup).1
  intro he
  exact hx (he ▸ List.mem_of_getLast? hl)

section Scan

variable [IxKey K]

/-- Scanning from slot `i` of the first leaf reads the rest of that leaf and all leaves
behind it. -/
theorem scanFrom_run (fuel : Nat) (p : Int) (ps : List (K × Rid)) (ls : List (Int × List (K × Rid))) (i : Nat)
    (end_ : Iid) (hend : ∃ qs, ((p, ps) :: ls).getLast? = some (end_.pageNo, qs) ∧ end_.slotNo = qs.length)
    (hr : Run ih ((p, ps) :: ls)) (hi : i ≤ ps.length) (hin : ls ≠ [] → i < ps.length)
    (hf : (ps.drop i ++ ls.flatMap Prod.snd).length ≤ fuel) :
    ih.scanFrom end_ fuel ⟨p, i⟩ = .ok (ps.drop i ++ ls.flatMap Prod.snd) := by
  induction fuel generalizing p ps ls i with
  | zero =>
      have hnil : ps.drop i ++ ls.flatMap Prod.snd = [] := List.length_eq_zero_iff.1 (Nat.le_zero.1 hf)
      obtain ⟨hd, hl⟩ := List.append_eq_nil_iff.1 hnil
      have hi' : i = ps.length := le_antisymm hi (by simpa using hd)
      have hls : ls = [] := by
        by_contra hne
        exact absurd (hin hne) (by omega)
      subst hls
      obtain ⟨qs, hq, hslot⟩ := hend
      have heq : (⟨p, i⟩ : Iid) = end_ := by
        simp only [List.getLast?_singleton, Option.some.injEq, Prod.mk.injEq] at hq
        obtain ⟨rfl, rfl⟩ := hq
        rw [hi', ← hslot]
      rw [hnil, scanFrom, if_pos heq]
  | succ fuel ihf =>
      obtain ⟨n, hn, hleaf, hpairs⟩ := hr.leaf (p, ps) (by simp)
      by_cases hlast : i = ps.length
      · -- only the end of the last leaf is not a slot
        have hls : ls = [] := by
          by_contra hne
          exact absurd (hin hne) (by omega)
        subst hls
        obtain ⟨qs, hq, hslot⟩ := hend
        have heq : (⟨p, i⟩ : Iid) = end_ := by
          simp only [List.getLast?_singleton, Option.some.injEq, Prod.mk.injEq] at hq
          obtain ⟨rfl, rfl⟩ := hq
          rw [hlast, ← hslot]
        rw [scanFrom, if_pos heq, hlast]
        simp
      · have hlt : i < ps.length := by omega
        have hne : (⟨p, i⟩ : Iid) ≠ end_ := by
          intro he
          obtain ⟨qs, hq, hslot⟩ := hend
          cases ls with
          | nil =>
              simp only [List.getLast?_singleton, Option.some.injEq, Prod.mk.injEq] at hq
              rw [← he] at hslot
              exact hlast (by rw [hq.2]; exact hslot)
          | cons y ls =>
              rw [← he] at hq
              have hmem : (p, qs) ∈ y :: ls :=
                List.mem_of_getLast? (by simpa [List.getLast?_cons_cons] using hq)
              exact (List.nodup_cons.1 hr.nodup).1 (List.mem_map.2 ⟨(p, qs), hmem, rfl⟩)
        obtain ⟨A, e, B, hsplit, hAi⟩ : ∃ A e B, ps = A ++ e :: B ∧ A.length = i :=
          ⟨ps.take i, ps[i], ps.drop (i + 1), by simp, by simp; omega⟩
        have hps : n.pairs = A ++ e :: B := hpairs.trans hsplit
        have hsize : n.getSize = ps.length := by rw [IxNode.getSize, hpairs]
        have hdrop : ps.drop i = e :: B := by rw [hsplit, ← hAi]; simp
        have hB : ps.drop (i + 1) = B := by rw [hsplit, ← hAi]; simp
        have hkey : n.getKey i = e.1 := by rw [← hAi]; exact IxNode.getKey_split hps
        have hrid : ih.getRid ⟨p, i⟩ = .ok e.2 := by
          rw [IxIndexHandle.getRid, fetchNode_eq hn, ok_bind, if_neg (by rw [hsize]; exact not_le.2 hlt)]
          rw [← hAi, IxNode.getRid_split hps]
          rfl
        rw [hdrop] at hf ⊢
        rw [scanFrom, if_neg hne, hrid, ok_bind, fetchNode_eq hn, ok_bind]
        simp only [scanNext, if_neg hne, fetchNode_eq hn, ok_bind, hleaf, hsize, hlt, and_self, if_true, hkey]
        cases ls with
        | nil =>
            -- the scan stays in the last leaf
            have hlp : p = ih.fileHdr.lastLeaf := by simpa using hr.last
            have hrec := ihf p ps [] (i + 1) hend hr hlt (fun hc => absurd rfl hc)
              (by rw [hB]; simp at hf ⊢; omega)
            rw [if_neg (by simp [hlp]), pure_eq_ok, ok_bind, hrec, hB]
            rfl
        | cons y ls =>
            obtain ⟨q, qs⟩ := y
            have hend' : ∃ rs, ((q, qs) :: ls).getLast? = some (end_.pageNo, rs) ∧
                end_.slotNo = rs.length := by
              simpa [List.getLast?_cons_cons] using hend
            by_cases hnext : i + 1 = ps.length
            · have hB : B = [] := by rw [← hB, hnext, List.drop_length]
              obtain ⟨n', hn', hnx⟩ := page_of_next (List.isChain_cons_cons.1 hr.chain).1
              cases hn.symm.trans hn'
              have hq : 0 < qs.length := by
                rcases hr.full with hone | hfull
                · simp at hone
                · exact List.length_pos_iff.2 (hfull (q, qs) (by simp))
              have hrec := ihf q qs ls 0 hend' hr.tail (Nat.zero_le _) (fun _ => hq)
                (by simp [hB] at hf ⊢; omega)
              rw [if_pos ⟨hr.ne_last, hnext⟩, pure_eq_ok, ok_bind, hnx, hrec]
              simp [hB]
            · have hrec := ihf p ps ((q, qs) :: ls) (i + 1) hend hr hlt (fun _ => by omega)
                (by rw [hB]; simp at hf ⊢; omega)
              rw [if_neg (fun hc => hnext hc.2), pure_eq_ok, ok_bind, hrec, hB]
              rfl

variable [LinearOrder K]

omit [IxKey K] in
theorem Zip.run {t : Tree K Rid h} (hz : Zip ih .top t) : Run ih t.leafPairs := by
  have hch := hz.chain
  have hnd := hz.mem.leaves_nodup
  simp only [zleaves, Ctx.leftLeaves, Ctx.rightLeaves, List.nil_append, List.append_nil,
    ← leafPairs_fst] at hch hnd
  have hleaf : ∀ x ∈ t.leafPairs, ∃ n, ih.pages x.1 = some n ∧ n.isLeaf = true ∧ n.pairs = x.2 := by
    intro x hx
    obtain ⟨q, hq⟩ := leafPairs_recs childRid (-1) t x hx
    obtain ⟨n, hn, -, hl, hp⟩ := hz.mem.get_of_mem (r := ⟨x.1, q, true, x.2⟩) (List.mem_append_left _ hq)
    exact ⟨n, hn, hl, hp⟩
  have hfull : t.leafPairs.length = 1 ∨ ∀ x ∈ t.leafPairs, x.2 ≠ [] := by
    cases h with
    | zero => exact Or.inl rfl
    | succ h => exact Or.inr (leafPairs_ne _ (by have := hz.order; omega) t hz.kids)
  have hchain : (t.leafPairs.map Prod.fst).IsChain (fun p q => nextOf ih p = some q) := by
    have h1 := (List.isChain_cons.1 hch.links).2
    exact (List.isChain_append.1 h1).1.imp (fun _ _ hl => hl.1)
  exact ⟨hleaf, hchain, (List.nodup_cons.1 hnd).2, hch.last, hfull⟩

omit [IxKey K] in
theorem Valid.run {es : List (K × Rid)} (hv : Valid ih es) :
    ∃ p ps ls, Run ih ((p, ps) :: ls) ∧ p = ih.fileHdr.firstLeaf ∧ ps ++ ls.flatMap Prod.snd = es := by
  obtain ⟨h, t, hz, hf, rfl⟩ := hv
  have hrun := hz.run
  have hfirst := hz.chain.first
  simp only [zleaves, Ctx.leftLeaves, Ctx.rightLeaves, List.nil_append, List.append_nil,
    ← leafPairs_fst] at hfirst
  rw [← leafPairs_snd]
  cases hl : t.leafPairs with
  | nil => rw [hl] at hfirst; simp at hfirst
  | cons x ls =>
      rw [hl] at hrun hfirst
      exact ⟨x.1, x.2, ls, hrun, by simpa using hfirst, rfl⟩

/-- A scan over the whole index reads its entries in order. -/
theorem scan_spec {es : List (K × Rid)} (hv : Valid ih es) :
    ∃ end_, ih.leafEnd = .ok end_ ∧ ∀ fuel, es.length ≤ fuel →
      ih.scanFrom end_ fuel ih.leafBegin = .ok es := by
  obtain ⟨p, ps, ls, hr, hp, rfl⟩ := hv.run
  obtain ⟨⟨q, qs⟩, hq⟩ : ∃ y, ((p, ps) :: ls).getLast? = some y := ⟨_, List.getLast?_cons⟩
  have hlast : q = ih.fileHdr.lastLeaf := by
    have := hr.last
    rw [List.getLast?_map, hq] at this
    simpa using this
  obtain ⟨n, hn, -, hpairs⟩ := hr.leaf (q, qs) (List.mem_of_getLast? hq)
  refine ⟨⟨q, qs.length⟩, ?_, ?_⟩
  · rw [leafEnd, ← hlast, fetchNode_eq hn, ok_bind, IxNode.getSize, hpairs]
    rfl
  · intro fuel hf
    have := scanFrom_run fuel p ps ls 0 ⟨q, qs.length⟩ ⟨qs, hq, rfl⟩ hr (Nat.zero_le _) ?_ (by simpa using hf)
    · rw [leafBegin, ← hp]
      simpa using this
    · intro hne
      rcases hr.full with hone | hfull
      · simp at hone
        exact absurd hone hne
      · exact List.length_pos_iff.2 (hfull (p, ps) (by simp))

end Scan

end Rmdb
