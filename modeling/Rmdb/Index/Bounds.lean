import Rmdb.Lib.Cursor
import Rmdb.Index.Map

namespace Rmdb

open BPlus SepList IxIndexHandle

variable {K : Type} {ih : IxIndexHandle K} {ls L R : List (Int × List (K × Rid))} {p : Int}
  {ps : List (K × Rid)}

def posAt : List (Int × List (K × Rid)) → Nat → Iid
  | [], n => ⟨0, n⟩
  | (p, ps) :: ls, n => if n < ps.length ∨ ls = [] then ⟨p, n⟩ else posAt ls (n - ps.length)

theorem posAt_head {n : Nat} (h : n < ps.length ∨ ls = []) : posAt ((p, ps) :: ls) n = ⟨p, n⟩ := by
  rw [posAt, if_pos h]

theorem posAt_tail {n : Nat} (hn : ps.length ≤ n) (hne : ls ≠ []) :
    posAt ((p, ps) :: ls) n = posAt ls (n - ps.length) := by
  rw [posAt, if_neg]
  rintro (hlt | hnil)
  · omega
  · exact hne hnil

theorem posAt_append (n : Nat) :
    posAt (L ++ (p, ps) :: R) ((L.flatMap Prod.snd).length + n) = posAt ((p, ps) :: R) n := by
  induction L with
  | nil => simp
  | cons x L ih =>
      rw [List.cons_append, posAt_tail (by simp; omega) (by simp), ← ih]
      congr 1
      simp
      omega

theorem posAt_pageNo (hne : ls ≠ []) (n : Nat) : (posAt ls n).pageNo ∈ ls.map Prod.fst := by
  induction ls generalizing n with
  | nil => exact absurd rfl hne
  | cons x ls ih =>
      rw [posAt]
      split
      · simp
      · rename_i hc
        exact List.mem_cons_of_mem _ (ih (fun hnil => hc (.inr hnil)) _)

theorem posAt_inj (hnd : (ls.map Prod.fst).Nodup) {n m : Nat} (h : posAt ls n = posAt ls m) : n = m := by
  induction ls generalizing n m with
  | nil => simpa [posAt] using h
  | cons x ls ih =>
      obtain ⟨hx, hnd⟩ := List.nodup_cons.1 hnd
      rw [posAt, posAt] at h
      split at h <;> rename_i hn <;> split at h <;> rename_i hm
      · simpa using h
      · have hpage := posAt_pageNo (fun hnil => hm (.inr hnil)) (m - x.2.length)
        rw [← h] at hpage
        exact absurd hpage hx
      · have hpage := posAt_pageNo (fun hnil => hn (.inr hnil)) (n - x.2.length)
        rw [h] at hpage
        exact absurd hpage hx
      · have := ih hnd h
        omega

theorem Run.head_eq {x y : Int × List (K × Rid)} (hr : Run ih (x :: L)) (hr' : Run ih (y :: R))
    (hxy : x.1 = y.1) : x = y := by
  obtain ⟨n, hn, -, hpairs⟩ := hr.leaf x List.mem_cons_self
  obtain ⟨n', hn', -, hpairs'⟩ := hr'.leaf y List.mem_cons_self
  rw [hxy, hn'] at hn
  cases hn
  exact Prod.ext hxy (hpairs.symm.trans hpairs')

theorem Run.unique {x y : Int × List (K × Rid)} (hr : Run ih (x :: L)) (hr' : Run ih (y :: R))
    (hxy : x.1 = y.1) :
    x :: L = y :: R := by
  induction L generalizing x y R with
  | nil =>
      cases R with
      | nil => rw [hr.head_eq hr' hxy]
      | cons z R =>
          have hlast : x.1 = ih.fileHdr.lastLeaf := by simpa using hr.last
          exact absurd (hxy ▸ hlast) hr'.ne_last
  | cons w L iht =>
      cases R with
      | nil =>
          have hlast : y.1 = ih.fileHdr.lastLeaf := by simpa using hr'.last
          exact absurd (hxy.trans hlast) hr.ne_last
      | cons z R =>
          have hw := (List.isChain_cons_cons.1 hr.chain).1
          have hz := (List.isChain_cons_cons.1 hr'.chain).1
          rw [hxy, hz] at hw
          rw [hr.head_eq hr' hxy, iht hr.tail hr'.tail (Option.some.inj hw).symm]

section Run

variable [IxKey K]

theorem getRid_at {i : Nat} {n : IxNode K} (hn : ih.pages p = some n) (hpairs : n.pairs = ps)
    (hi : i < ps.length) :
    ih.getRid ⟨p, i⟩ = .ok (ps.get ⟨i, hi⟩).2 := by
  have hsize : n.getSize = ps.length := by rw [IxNode.getSize, hpairs]
  rw [IxIndexHandle.getRid, fetchNode_eq hn, ok_bind, if_neg (by rw [hsize]; exact not_le.2 hi)]
  simp [IxNode.getRid, IxNode.slot, hpairs, List.getElem?_append_left hi, List.getElem?_eq_getElem hi,
    pure, Except.pure]

theorem Run.getRid (hr : Run ih ls) {n : Nat} (hn : n < (ls.flatMap Prod.snd).length) :
    ih.getRid (posAt ls n) = .ok ((ls.flatMap Prod.snd).get ⟨n, hn⟩).2 := by
  induction ls generalizing n with
  | nil => simp at hn
  | cons x ls iht =>
      obtain ⟨p, ps⟩ := x
      obtain ⟨node, hnode, -, hpairs⟩ := hr.leaf (p, ps) (by simp)
      simp only [List.flatMap_cons, List.length_append] at hn
      by_cases hlt : n < ps.length
      · rw [posAt_head (.inl hlt), getRid_at hnode hpairs hlt]
        simp [List.flatMap_cons, List.getElem_append_left hlt]
      · cases ls with
        | nil => simp at hn; omega
        | cons y ls =>
            rw [posAt_tail (by omega) (by simp), iht hr.tail (n := n - ps.length) (by omega)]
            simp [List.flatMap_cons, List.getElem_append_right (Nat.le_of_not_lt hlt)]

theorem Run.getRid_end (hr : Run ih ls) (hne : ls ≠ []) :
    ih.getRid (posAt ls (ls.flatMap Prod.snd).length) = .error .indexEntryNotFound := by
  induction ls with
  | nil => exact absurd rfl hne
  | cons x ls iht =>
      obtain ⟨p, ps⟩ := x
      cases ls with
      | nil =>
          obtain ⟨node, hnode, -, hpairs⟩ := hr.leaf (p, ps) (by simp)
          rw [posAt_head (.inr rfl), IxIndexHandle.getRid, fetchNode_eq hnode, ok_bind, if_pos]
          simp [IxNode.getSize, hpairs]
      | cons y ls =>
          rw [posAt_tail (by simp) (by simp), List.flatMap_cons, List.length_append, Nat.add_sub_cancel_left]
          exact iht hr.tail (by simp)

omit [IxKey K] in
theorem Run.scanNext (hr : Run ih ls) {n : Nat} {last : Iid} (hn : n < (ls.flatMap Prod.snd).length)
    (hlast : posAt ls n ≠ last) :
    ih.scanNext (posAt ls n) last = .ok (posAt ls (n + 1)) := by
  induction ls generalizing n with
  | nil => simp at hn
  | cons x ls iht =>
      obtain ⟨p, ps⟩ := x
      obtain ⟨node, hnode, hleaf, hpairs⟩ := hr.leaf (p, ps) (by simp)
      have hsize : node.getSize = ps.length := by rw [IxNode.getSize, hpairs]
      simp only [List.flatMap_cons, List.length_append] at hn
      by_cases hlt : n < ps.length
      · rw [posAt_head (.inl hlt)] at hlast ⊢
        simp only [IxIndexHandle.scanNext, if_neg hlast, fetchNode_eq hnode, ok_bind, hleaf, hsize, hlt,
          and_self, if_true]
        cases ls with
        | nil =>
            have hp : p = ih.fileHdr.lastLeaf := by simpa using hr.last
            rw [if_neg (by simp [hp]), posAt_head (.inr rfl)]
            rfl
        | cons y ls =>
            obtain ⟨q, qs⟩ := y
            by_cases hnext : n + 1 = ps.length
            · obtain ⟨node', hnode', hq⟩ := page_of_next (List.isChain_cons_cons.1 hr.chain).1
              cases hnode.symm.trans hnode'
              have hqs : 0 < qs.length := by
                rcases hr.full with hone | hfull
                · simp at hone
                · exact List.length_pos_iff.2 (hfull (q, qs) (by simp))
              rw [if_pos ⟨hr.ne_last, hnext⟩, posAt_tail hnext.ge (by simp), hnext, Nat.sub_self,
                posAt_head (.inl hqs), hq]
              rfl
            · rw [if_neg (fun hc => hnext hc.2), posAt_head (.inl (by omega))]
              rfl
      · cases ls with
        | nil => simp at hn; omega
        | cons y ls =>
            rw [posAt_tail (by omega) (by simp)] at hlast ⊢
            rw [iht hr.tail (by omega) hlast, posAt_tail (p := p) (n := n + 1) (by omega) (by simp)]
            congr 2
            omega

def IxScan.cursor (ih : IxIndexHandle K) (last : Iid) : Cursor Iid IxError Rid :=
  ⟨fun iid => iid = last, ih.getRid, fun iid => ih.scanNext iid last⟩

theorem Run.yields (hr : Run ih ls) {n m : Nat} (hnm : n ≤ m) (hm : m ≤ (ls.flatMap Prod.snd).length) :
    (IxScan.cursor ih (posAt ls m)).Yields (posAt ls n)
      ((((ls.flatMap Prod.snd).take m).drop n).map Prod.snd) := by
  obtain ⟨d, rfl⟩ := Nat.exists_eq_add_of_le hnm
  induction d generalizing n with
  | zero =>
      rw [show n + 0 = n from rfl, List.drop_take_self, List.map_nil]
      exact .done (by simp [IxScan.cursor])
  | succ d iht =>
      have hne : posAt ls n ≠ posAt ls (n + (d + 1)) := fun hc => by
        have := posAt_inj hr.nodup hc
        omega
      have hrest := iht (n := n + 1) (by omega) (by omega)
      rw [show n + 1 + d = n + (d + 1) by omega] at hrest
      rw [List.drop_eq_getElem_cons (by rw [List.length_take]; omega), List.map_cons]
      refine .step ?_ ?_ (hr.scanNext (by omega) hne) hrest
      · simpa [IxScan.cursor] using hne
      · simpa [IxScan.cursor] using hr.getRid (n := n) (by omega)

/-- A scan to a place that lies before its start runs behind the last entry. -/
theorem Run.breaks (hr : Run ih ls) (hne : ls ≠ []) {n m : Nat} (hmn : m < n)
    (hn : n ≤ (ls.flatMap Prod.snd).length) :
    (IxScan.cursor ih (posAt ls m)).Breaks (posAt ls n) := by
  obtain ⟨d, hd⟩ := Nat.exists_eq_add_of_le hn
  have hpast : ∀ n, m < n → posAt ls n ≠ posAt ls m := fun n hmn hc => by
    have := posAt_inj hr.nodup hc
    omega
  induction d generalizing n with
  | zero =>
      obtain rfl : (ls.flatMap Prod.snd).length = n := hd
      exact .get (by simpa [IxScan.cursor] using hpast _ hmn) (hr.getRid_end hne)
  | succ d iht =>
      exact .step (by simpa [IxScan.cursor] using hpast n hmn) (hr.scanNext (by omega) (hpast n hmn))
        (iht (by omega) (by omega) (by omega))

omit [IxKey K] in
theorem Run.boundAt (hr : Run ih (L ++ (p, ps) :: R)) {node : IxNode K}
    (hnode : ih.pages p = some node) {pos : Nat} (hpos : pos ≤ ps.length) :
    ih.boundAt p node pos = .ok (posAt (L ++ (p, ps) :: R) ((L.flatMap Prod.snd).length + pos)) := by
  obtain ⟨node', hnode', -, hpairs⟩ := hr.leaf (p, ps) (by simp)
  cases hnode.symm.trans hnode'
  have hsize : node.getSize = ps.length := by rw [IxNode.getSize, hpairs]
  have hlast := hr.last
  have hnd := hr.nodup
  rw [posAt_append, IxIndexHandle.boundAt, hsize]
  cases R with
  | nil =>
      have hp : p = ih.fileHdr.lastLeaf := by simpa using hlast
      rw [posAt_head (.inr rfl), if_neg (by simp [hp])]
      rfl
  | cons y R =>
      obtain ⟨q, qs⟩ := y
      have hp : p ≠ ih.fileHdr.lastLeaf := by
        intro hc
        simp only [List.map_append, List.map_cons, List.getLast?_append, List.getLast?_cons_cons] at hlast
        simp only [List.map_append, List.map_cons] at hnd
        have hmem : ih.fileHdr.lastLeaf ∈ q :: R.map Prod.fst :=
          List.mem_of_getLast? (by simpa [List.getLast?_cons] using hlast)
        exact (List.nodup_cons.1 (List.nodup_append.1 hnd).2.1).1 (hc ▸ hmem)
      rcases Nat.lt_or_eq_of_le hpos with hlt | heq
      · rw [posAt_head (.inl hlt), if_neg (by omega)]
        rfl
      · have hqs : 0 < qs.length := by
          rcases hr.full with hone | hfull
          · simp at hone
            omega
          · exact List.length_pos_iff.2 (hfull (q, qs) (by simp))
        have hchain := hr.chain
        rw [List.map_append, List.map_cons, List.map_cons] at hchain
        obtain ⟨node', hnode', hq⟩ :=
          page_of_next (List.isChain_cons_cons.1 (List.isChain_append.1 hchain).2.1).1
        cases hnode.symm.trans hnode'
        obtain ⟨next, hnext, -⟩ := hr.leaf (q, qs) (by simp)
        rw [if_pos ⟨heq, hp⟩, posAt_tail heq.ge (by simp), heq, Nat.sub_self, posAt_head (.inl hqs), hq,
          fetchNode_eq hnext]
        rfl

end Run

section Bounds

variable [LinearOrder K] [IxKey K] [LawfulIxKey K] {es A B : List (K × Rid)} {k : K}

/-- A search reaches a leaf of the leaf list; the entries before it are smaller than `k`, those
behind it are larger. -/
theorem Valid.leafAt (hv : Valid ih es) (k : K) :
    ∃ L p node R, ih.findLeafPage k = .ok p ∧ ih.pages p = some node ∧
    Run ih (L ++ (p, node.pairs) :: R) ∧
    ((L ++ (p, node.pairs) :: R).map Prod.fst).head? = some ih.fileHdr.firstLeaf ∧
    L.flatMap Prod.snd ++ (node.pairs ++ R.flatMap Prod.snd) = es ∧
    (∀ e ∈ L.flatMap Prod.snd, e.1 < k) ∧ ∀ e ∈ R.flatMap Prod.snd, k < e.1 := by
  have hsorted := hv.sorted
  obtain ⟨ctx, t, hfind, hz, hf, hp, rfl⟩ := findLeafPage_spec k hv
  obtain ⟨H, T, hT, -, hents, hleaves, -⟩ := hz.toShape.toTop hf
  have hrun : Run ih T.leafPairs := by
    refine Zip.run ⟨hT, ?_⟩
    rw [zleaves, Ctx.leftLeaves, Ctx.rightLeaves, List.nil_append, List.append_nil, hleaves]
    exact hz.chain
  obtain ⟨node, hnode, -, -, hpairs⟩ := hz.mem.hole
  have hmem : t.page ∈ T.leafPairs.map Prod.fst := by
    rw [leafPairs_fst, hleaves]
    simp [zleaves, Tree.leaves]
  obtain ⟨⟨q, qs⟩, hx, rfl⟩ := List.mem_map.1 hmem
  obtain ⟨L, R, hLR⟩ := List.append_of_mem hx
  rw [hLR] at hrun
  obtain ⟨node', hnode', -, hqs⟩ := hrun.leaf (t.page, qs) (by simp)
  cases hnode.symm.trans hnode'
  obtain rfl : node.pairs = qs := hqs
  have hitems : ents t.items = node.pairs := by rw [hpairs, pairs_zero, ents_zero]
  have hsplit : L.flatMap Prod.snd ++ (node.pairs ++ R.flatMap Prod.snd) =
      ctx.leftEnts ++ (node.pairs ++ ctx.rightEnts) := by
    have := leafPairs_snd T
    rw [hLR, hents, zents, hitems] at this
    simpa using this
  -- the pairs of the leaf stand at one place of the entries only
  have hboth : L.flatMap Prod.snd = ctx.leftEnts ∧ R.flatMap Prod.snd = ctx.rightEnts := by
    cases hps : node.pairs with
    | nil =>
        rcases hrun.full with hone | hfull
        · have hlen : L.length = 0 ∧ R.length = 0 := by
            simp at hone
            omega
          rw [List.length_eq_zero_iff.1 hlen.1, List.length_eq_zero_iff.1 hlen.2, hps] at hsplit
          have hnil := List.append_eq_nil_iff.1 hsplit.symm
          rw [List.length_eq_zero_iff.1 hlen.1, List.length_eq_zero_iff.1 hlen.2, hnil.1]
          exact ⟨rfl, by simpa using hnil.2.symm⟩
        · exact absurd hps (hfull (t.page, node.pairs) (by simp))
    | cons a ps =>
        rw [zents, hitems, List.append_assoc, hps, List.cons_append] at hsorted
        rw [hps, List.cons_append, List.cons_append] at hsplit
        have hnd : (ctx.leftEnts ++ a :: (ps ++ ctx.rightEnts)).Nodup := hsorted.imp (fun hlt heq => by
          rw [heq] at hlt
          exact lt_irrefl _ hlt)
        obtain ⟨-, hnd', hdisj⟩ := List.nodup_append.1 hnd
        have hleft : a ∉ ctx.leftEnts := fun hin => hdisj a hin a List.mem_cons_self rfl
        have hcut := (List.append_cons_inj_of_notMem hleft (List.nodup_cons.1 hnd').1).1 hsplit.symm
        exact ⟨hcut.1.symm, List.append_cancel_left hcut.2.2.symm⟩
  refine ⟨L, t.page, node, R, hfind, hnode, hrun, ?_, ?_, ?_, ?_⟩
  · rw [← hLR, leafPairs_fst, hleaves]
    exact hz.chain.first
  · rw [hboth.1, hboth.2, zents, hitems, List.append_assoc]
  · rw [hboth.1]
    exact leftEnts_lt hp hz.toShape.left_sorted
  · rw [hboth.2]
    exact rightEnts_gt hp hz.toShape.right_sorted

omit [IxKey K] [LawfulIxKey K] in
theorem exists_cut {q : K × Rid → Bool} (hs : es.Pairwise fun a b => a.1 < b.1)
    (hq : ∀ a b : K × Rid, a.1 < b.1 → q b = true → q a = true) :
    ∃ A B, es = A ++ B ∧ (∀ e ∈ A, q e = true) ∧ (∀ e ∈ B, q e = false) ∧ A.length = es.countP q := by
  induction es with
  | nil => exact ⟨[], [], rfl, by simp, by simp, rfl⟩
  | cons a es iht =>
      obtain ⟨ha, hs⟩ := List.pairwise_cons.1 hs
      cases hqa : q a with
      | true =>
          obtain ⟨A, B, rfl, hA, hB, hlen⟩ := iht hs
          refine ⟨a :: A, B, rfl, ?_, hB, by simp [hqa, hlen]⟩
          exact List.forall_mem_cons.2 ⟨hqa, hA⟩
      | false =>
          have hnone : ∀ e ∈ a :: es, q e = false := by
            refine List.forall_mem_cons.2 ⟨hqa, fun e he => ?_⟩
            cases hqe : q e with
            | false => rfl
            | true => exact absurd (hq a e (ha e he) hqe) (by simp [hqa])
          refine ⟨[], a :: es, rfl, by simp, hnone, ?_⟩
          rw [List.length_nil, eq_comm, List.countP_eq_zero]
          exact fun e he => by simp [hnone e he]

/-- Both searches: the place behind the entries that have the property. -/
theorem Valid.bound (hv : Valid ih es) (hrun : Run ih ((p, ps) :: ls)) (hp : p = ih.fileHdr.firstLeaf) (k : K)
    {q : K × Rid → Bool} (hq : ∀ a b : K × Rid, a.1 < b.1 → q b = true → q a = true) {search : IxNode K → Nat}
    (hsearch : ∀ node A B, node.pairs = A ++ B → (∀ e ∈ A, q e = true) → (∀ e ∈ B, q e = false) →
      search node = A.length)
    (hbelow : ∀ e : K × Rid, e.1 < k → q e = true) (habove : ∀ e : K × Rid, k < e.1 → q e = false) :
    (do let leaf ← ih.findLeafPage k
        let node ← ih.fetchNode leaf
        ih.boundAt leaf node (search node)) = .ok (posAt ((p, ps) :: ls) (es.countP q)) := by
  have hsorted := hv.sorted
  obtain ⟨L, leaf, node, R, hfind, hnode, hrunk, hfirst, rfl, hL, hR⟩ := hv.leafAt k
  have hsame : L ++ (leaf, node.pairs) :: R = (p, ps) :: ls := by
    cases L with
    | nil => exact hrunk.unique hrun (by simpa [hp] using hfirst)
    | cons x L => exact hrunk.unique hrun (by simpa [hp] using hfirst)
  obtain ⟨A, B, hAB, hA, hB, hlen⟩ :=
    exists_cut (List.pairwise_append.1 (List.pairwise_append.1 hsorted).2.1).1 hq
  have hLq : (L.flatMap Prod.snd).countP q = (L.flatMap Prod.snd).length :=
    List.countP_eq_length.2 fun e he => hbelow e (hL e he)
  have hRq : (R.flatMap Prod.snd).countP q = 0 := List.countP_eq_zero.2 fun e he => by
    simp [habove e (hR e he)]
  have hle : node.pairs.countP q ≤ node.pairs.length := List.countP_le_length
  rw [hfind, ok_bind, fetchNode_eq hnode, ok_bind, hsearch node A B hAB hA hB, hlen,
    hrunk.boundAt hnode hle, hsame, List.countP_append, List.countP_append, hLq, hRq, Nat.add_zero]

/-- `lower_bound` is the place of the first entry that is not smaller than `k`, `upper_bound` that of the
first one that is larger. -/
theorem Valid.bounds (hv : Valid ih es) : ∃ ls, ls ≠ [] ∧ Run ih ls ∧ ls.flatMap Prod.snd = es ∧
    (∀ k, ih.lowerBound k = .ok (posAt ls (es.countP fun e => e.1 < k))) ∧
    ∀ k, ih.upperBound k = .ok (posAt ls (es.countP fun e => e.1 ≤ k)) := by
  obtain ⟨p, ps, ls, hrun, hp, hes⟩ := hv.run
  refine ⟨(p, ps) :: ls, by simp, hrun, by simpa using hes, fun k => ?_, fun k => ?_⟩
  · refine hv.bound hrun hp k ?_ ?_ ?_ ?_
    · intro a b hab hb
      simp only [decide_eq_true_eq] at hb ⊢
      exact hab.trans hb
    · intro node A B hAB hA hB
      exact IxNode.lowerBound_split hAB (by simpa using hA) (by simpa using hB)
    · intro e he
      simpa using he
    · intro e he
      simpa using he.le
  · refine hv.bound hrun hp k ?_ ?_ ?_ ?_
    · intro a b hab hb
      simp only [decide_eq_true_eq] at hb ⊢
      exact hab.le.trans hb
    · intro node A B hAB hA hB
      exact IxNode.upperBound_split hAB (by simpa using hA) (by simpa using hB)
    · intro e he
      simpa using he.le
    · intro e he
      simpa using he

/-- A scan from the lower bound of `lo` to the upper bound of `hi` runs over the entries of the
range. When the range is empty and there is an entry between its ends, the start lies behind
the end and the scan breaks. -/
theorem Valid.range_scan (hv : Valid ih es) (lo hi : K) :
    ∃ a b, ih.lowerBound lo = .ok a ∧ ih.upperBound hi = .ok b ∧
    ((∀ e ∈ es, ¬ (hi < e.1 ∧ e.1 < lo)) →
      (IxScan.cursor ih b).Yields a ((es.filter fun e => lo ≤ e.1 ∧ e.1 ≤ hi).map Prod.snd)) ∧
    ((∃ e ∈ es, hi < e.1 ∧ e.1 < lo) → (IxScan.cursor ih b).Breaks a) := by
  have hsorted := hv.sorted
  obtain ⟨ls, hne, hrun, hes, hlower, hupper⟩ := hv.bounds
  refine ⟨_, _, hlower lo, hupper hi, fun hnone => ?_, ?_⟩
  · obtain ⟨A, B, rfl, hA, hB, hlenA⟩ := exists_cut (q := fun e => e.1 ≤ hi) hsorted (fun a b hab hb => by
      simp only [decide_eq_true_eq] at hb ⊢
      exact hab.le.trans hb)
    obtain ⟨C, D, rfl, hC, hD, hlenC⟩ :=
      exists_cut (q := fun e => e.1 < lo) (List.pairwise_append.1 hsorted).1 (fun a b hab hb => by
      simp only [decide_eq_true_eq] at hb ⊢
      exact hab.trans hb)
    simp only [decide_eq_true_eq, decide_eq_false_iff_not, not_le, not_lt] at hA hB hC hD
    have hBlo : ∀ e ∈ B, ¬ e.1 < lo := fun e he hlt => hnone e (List.mem_append_right _ he) ⟨hB e he, hlt⟩
    have hn : (C ++ D ++ B).countP (fun e => e.1 < lo) = C.length := by
      rw [List.countP_append, ← hlenC, List.countP_eq_zero.2 (by simpa using hBlo), Nat.add_zero]
    have hfilter : (C ++ D ++ B).filter (fun e => lo ≤ e.1 ∧ e.1 ≤ hi) = D := by
      rw [List.filter_append, List.filter_append, List.filter_eq_nil_iff.2, List.filter_eq_self.2,
        List.filter_eq_nil_iff.2]
      · simp
      · intro e he
        simp [hB e he]
      · intro e he
        simpa using ⟨hD e he, hA e (List.mem_append_right _ he)⟩
      · intro e he
        simp [hC e he]
    have hyields := hrun.yields (n := C.length) (m := (C ++ D).length) (by simp) (by simp [hes])
    rw [hes, List.take_left, List.drop_left] at hyields
    rw [hn, ← hlenA, hfilter]
    exact hyields
  · rintro ⟨e, he, hhi, hlo⟩
    refine hrun.breaks hne ?_ (by rw [hes]; exact List.countP_le_length)
    obtain ⟨A, B, rfl, hA, hB, hlenA⟩ := exists_cut (q := fun e => e.1 < lo) hsorted (fun a b hab hb => by
      simp only [decide_eq_true_eq] at hb ⊢
      exact hab.trans hb)
    simp only [decide_eq_true_eq, decide_eq_false_iff_not, not_lt] at hA hB
    have heA : e ∈ A := by
      rcases List.mem_append.1 he with heA | heB
      · exact heA
      · exact absurd hlo (not_lt.2 (hB e heB))
    have hBhi : B.countP (fun e => e.1 ≤ hi) = 0 := by
      refine List.countP_eq_zero.2 fun b hb => ?_
      simpa using (hhi.trans hlo).trans_le (hB b hb)
    have hAhi : A.countP (fun e => e.1 ≤ hi) < A.length := by
      refine lt_of_le_of_ne List.countP_le_length fun hc => ?_
      have := List.countP_eq_length.1 hc e heA
      simp only [decide_eq_true_eq] at this
      exact absurd hhi (not_lt.2 this)
    rw [← hlenA, List.countP_append, hBhi]
    omega

end Bounds

end Rmdb
