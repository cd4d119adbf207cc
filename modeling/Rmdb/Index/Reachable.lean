import Rmdb.Index.Bounds
import Rmdb.Index.Emptied
import Rmdb.Index.TreeShape

namespace Rmdb

open BPlus SepList IxIndexHandle IxManager

namespace IxOp

variable {K : Type} [DecidableEq K]

def NeverEmpties : IxMap K → List (IxOp K) → Prop
  | _, [] => True
  | m, op :: ops => (∃ k, (op.spec m).2 k ≠ none) ∧ NeverEmpties (op.spec m).2 ops

variable {m : IxMap K} {op : IxOp K} {ops : List (IxOp K)}

theorem served_of_left (h : ∃ k, (op.spec m).2 k ≠ none) : op.Served m := by
  cases op with
  | insert => trivial
  | delete key rid =>
      obtain ⟨k, hk⟩ := h
      refine ⟨k, fun hnone => hk ?_⟩
      cases hkey : m key with
      | none => simp only [spec, hkey, hnone]
      | some r =>
          simp only [spec, hkey]
          split
          · by_cases heq : k = key
            · rw [heq, Function.update_self]
            · rw [Function.update_of_ne heq, hnone]
          · exact hnone

end IxOp

section Reach

variable {K : Type} [LinearOrder K] [DecidableEq K] [IxKey K] [LawfulIxKey K]
  {ih ih' : IxIndexHandle K} {m : IxMap K} {ops : List (IxOp K)} {flags : List Bool}

theorem sim_of_neverEmpties (hs : Sim ih m) (hops : IxOp.NeverEmpties m ops) :
    ∃ ih', IxOp.execAll ih ops = .ok ((IxOp.specAll m ops).1, ih') ∧ Sim ih' (IxOp.specAll m ops).2 := by
  induction ops generalizing ih m with
  | nil => exact ⟨ih, rfl, hs⟩
  | cons op ops iho =>
      obtain ⟨hleft, hrest⟩ := hops
      obtain ⟨ih1, hrun1, hs1⟩ := step_sim op hs (IxOp.served_of_left hleft) fun h => by
        obtain ⟨k, hk⟩ := hleft
        exact hk (h.2 k)
      obtain ⟨ih2, hrun2, hs2⟩ := iho hs1 hrest
      exact ⟨ih2, by simp [IxOp.execAll, hrun1, hrun2, IxOp.specAll], hs2⟩

theorem sim_of_execAll (hs : Sim ih m) (hops : IxOp.NeverEmpties m ops)
    (hrun : IxOp.execAll ih ops = .ok (flags, ih')) :
    Sim ih' (IxOp.specAll m ops).2 := by
  obtain ⟨ih1, hrun1, hs1⟩ := sim_of_neverEmpties hs hops
  rw [hrun1] at hrun
  cases hrun
  exact hs1

end Reach

section Lookup

variable {K : Type} [LinearOrder K] [IxKey K] [LawfulIxKey K] {ih : IxIndexHandle K} {m : IxMap K} {k : K}

/-- Behind the last key of the leaf that a search for `key` comes to stands this key, left from an
entry that has gone or, in memory that has not been used yet, as zeros. -/
def LeftBehind (ih : IxIndexHandle K) (key : K) : Prop :=
  ∃ p node, ih.findLeafPage key = .ok p ∧ ih.pages p = some node ∧ node.lowerBound key = node.getSize ∧
    IxKey.memcmp (node.getKey node.getSize) key = 0

theorem lookup_mem {es : List (K × Rid)} (hv : Valid ih es) (k : K) : ∃ p node, ih.findLeafPage k = .ok p ∧
    ih.pages p = some node ∧ node.pairs.Pairwise (fun a b => a.1 < b.1) ∧ ∀ r, (k, r) ∈ es ↔
      (k, r) ∈ node.pairs := by
  have hsorted := hv.sorted
  obtain ⟨L, p, node, R, hfind, hnode, -, -, rfl, hL, hR⟩ := hv.leafAt k
  refine ⟨p, node, hfind, hnode, (List.pairwise_append.1 (List.pairwise_append.1 hsorted).2.1).1, fun r => ?_⟩
  rw [List.mem_append, List.mem_append]
  constructor
  · rintro (h | h | h)
    · exact absurd (hL _ h) (lt_irrefl _)
    · exact h
    · exact absurd (hR _ h) (lt_irrefl _)
  · exact fun h => .inr (.inl h)

omit [LinearOrder K] [LawfulIxKey K] in
theorem getValue_leaf {p : Int} {node : IxNode K} (hfind : ih.findLeafPage k = .ok p)
    (hnode : ih.pages p = some node) :
    ih.getValue k = .ok (node.leafLookup k) := by
  rw [getValue, hfind, ok_bind, fetchNode_eq hnode]
  rfl

/-- A lookup finds the entry of the map, unless it reads behind the keys of its leaf. -/
theorem Sim.getValue_iff (hs : Sim ih m) (k : K) : ih.getValue k = .ok (m k) ↔ ¬LeftBehind ih k := by
  obtain ⟨es, hv, hm⟩ := hs
  obtain ⟨p, node, hfind, hnode, hsorted, hmem⟩ := lookup_mem hv k
  have hbehind : LeftBehind ih k ↔
      node.lowerBound k = node.getSize ∧ IxKey.memcmp (node.getKey node.getSize) k = 0 := by
    constructor
    · rintro ⟨p', node', hfind', hnode', h⟩
      cases hfind.symm.trans hfind'
      cases hnode.symm.trans hnode'
      exact h
    · exact fun h => ⟨p, node, hfind, hnode, h⟩
  obtain ⟨A, B, hAB, hA, hB, -⟩ := exists_cut (q := fun e => e.1 < k) hsorted (fun a b hab hb => by
    simp only [decide_eq_true_eq] at hb ⊢
    exact hab.trans hb)
  simp only [decide_eq_true_eq, decide_eq_false_iff_not, not_lt] at hA hB
  have hbound := IxNode.lowerBound_split hAB hA hB
  rw [getValue_leaf hfind hnode, hbehind, IxNode.leafLookup, hbound]
  cases B with
  | nil =>
      -- all keys of the leaf are smaller
      have hend : A.length = node.getSize := by rw [IxNode.getSize, hAB, List.append_nil]
      have hnone : m k = none := by
        cases hk : m k with
        | none => rfl
        | some r =>
            have hin := (hmem r).1 ((hm k r).2 hk)
            rw [hAB, List.append_nil] at hin
            exact absurd (hA _ hin) (lt_irrefl _)
      rw [hnone, hend]
      simp only [true_and]
      split
      · next hzero => simp [hzero]
      · next hzero => simp [hzero]
  | cons b B =>
      have hin : A.length ≠ node.getSize := by
        rw [IxNode.getSize, hAB, List.length_append, List.length_cons]
        omega
      have hkey := IxNode.getKey_split hAB
      have hrid := IxNode.getRid_split hAB
      simp only [hin, false_and, not_false_eq_true, iff_true, hkey, hrid]
      split
      · next hzero =>
          have heq := (LawfulIxKey.memcmp_zero b.1 k).1 hzero
          have hb : (k, b.2) ∈ node.pairs := by
            rw [hAB, ← heq]
            exact List.mem_append_right _ List.mem_cons_self
          rw [(hm k b.2).1 ((hmem b.2).2 hb)]
      · next hne =>
          rw [LawfulIxKey.memcmp_zero] at hne
          cases hk : m k with
          | none => rfl
          | some r =>
              have hr := (hmem r).1 ((hm k r).2 hk)
              rw [hAB] at hsorted hr
              rcases List.mem_append.1 hr with h | h
              · exact absurd (hA _ h) (lt_irrefl _)
              · rcases List.mem_cons.1 h with h | h
                · exact absurd (congrArg Prod.fst h).symm hne
                · have hlt := (List.pairwise_cons.1 (List.pairwise_append.1 hsorted).2.1).1 _ h
                  exact absurd hlt (not_lt.2 (hB b List.mem_cons_self))

end Lookup

section Reachable

variable {L : KeyLayout} {ih : IxIndexHandle (Key L)} {ops : List (IxOp (Key L))} {flags : List Bool}

/-- `get_value` answers by the current entries exactly when it meets no key left behind in its leaf. -/
theorem getValue_exact_iff (hops : IxOp.NeverEmpties IxMap.empty ops)
    (hrun : IxOp.execAll (createIndex L) ops = .ok (flags, ih)) (k : Key L) :
    ih.getValue k = .ok ((IxOp.specAll IxMap.empty ops).2 k) ↔ ¬LeftBehind ih k :=
  (sim_of_execAll (createIndex_sim L) hops hrun).getValue_iff k

theorem getValue_exact_int : IxOp.NeverEmpties IxMap.empty [.insert (intKey 1 0 0 0) ⟨1, 0⟩] ∧
    ∃ ih, IxOp.execAll (createIndex intLayout) [.insert (intKey 1 0 0 0) ⟨1, 0⟩] = .ok ([true], ih) ∧
      (ih.getValue (intKey 1 0 0 0) =
        .ok ((IxOp.specAll IxMap.empty [.insert (intKey 1 0 0 0) ⟨1, 0⟩]).2 (intKey 1 0 0 0)) ↔
        ¬LeftBehind ih (intKey 1 0 0 0)) := by
  have hops : IxOp.NeverEmpties IxMap.empty [.insert (intKey 1 0 0 0) ⟨1, 0⟩] :=
    ⟨⟨intKey 1 0 0 0, by decide⟩, trivial⟩
  obtain ⟨ih, hrun, -⟩ := sim_of_neverEmpties (createIndex_sim intLayout) hops
  exact ⟨hops, ih, hrun, getValue_exact_iff hops hrun _⟩

/-- The key 2 is deleted and still found, with its old rid. -/
theorem getValue_deleted :
    IxOp.NeverEmpties IxMap.empty [.insert (intKey 1 0 0 0) ⟨1, 0⟩, .insert (intKey 2 0 0 0) ⟨1, 1⟩,
      .delete (intKey 2 0 0 0) none] ∧
    (IxOp.specAll IxMap.empty [.insert (intKey 1 0 0 0) ⟨1, 0⟩, .insert (intKey 2 0 0 0) ⟨1, 1⟩,
      .delete (intKey 2 0 0 0) none]).2 (intKey 2 0 0 0) = none ∧
    (do let (_, ih) ← IxOp.execAll (createIndex intLayout) [.insert (intKey 1 0 0 0) ⟨1, 0⟩,
      .insert (intKey 2 0 0 0) ⟨1, 1⟩,
          .delete (intKey 2 0 0 0) none]
        ih.getValue (intKey 2 0 0 0)) = .ok (some ⟨1, 1⟩) := by
  refine ⟨⟨⟨intKey 1 0 0 0, by decide⟩, ⟨intKey 1 0 0 0, by decide⟩, ⟨intKey 1 0 0 0, by decide⟩,
    trivial⟩, by decide, ?_⟩
  rfl

end Reachable

section Ranges

/-- `IxScan` from `lower_bound(lo)` to `upper_bound(hi)` throws nowhere, ends, and reads the
entries of `m` between the keys, each once and in key order. -/
def RangeScans {K : Type} [IxKey K] (ih : IxIndexHandle K) (m : IxMap K) (lo hi : K) : Prop :=
  ∃ (a b : Iid) (es : List (K × Rid)), ih.lowerBound lo = .ok a ∧ ih.upperBound hi = .ok b ∧
    (IxScan.cursor ih b).Yields a (es.map Prod.snd) ∧ es.Pairwise (fun x y => IxKey.ixCompare x.1 y.1 < 0) ∧
    ∀ k r, (k, r) ∈ es ↔ m k = some r ∧ IxKey.ixCompare lo k ≤ 0 ∧ IxKey.ixCompare k hi ≤ 0

theorem Sim.rangeScans {K : Type} [LinearOrder K] [IxKey K] [LawfulIxKey K]
    {ih : IxIndexHandle K} {m : IxMap K} (hs : Sim ih m) {lo hi : K} (hle : IxKey.ixCompare lo hi ≤ 0) :
    RangeScans ih m lo hi := by
  have hcompare : ∀ a b : K, IxKey.ixCompare a b ≤ 0 ↔ a ≤ b := fun a b => by
    rw [← not_lt, ← not_lt, LawfulIxKey.ixCompare_pos]
  obtain ⟨es, hv, hm⟩ := hs
  obtain ⟨a, b, hlower, hupper, hyields, -⟩ := hv.range_scan lo hi
  refine ⟨a, b, es.filter fun e => lo ≤ e.1 ∧ e.1 ≤ hi, hlower, hupper, hyields ?_, ?_, fun k r => ?_⟩
  · rintro e - ⟨hhi, hlo⟩
    exact absurd ((hcompare lo hi).1 hle) (not_le.2 (hhi.trans hlo))
  · exact (hv.sorted.filter _).imp fun hxy => (LawfulIxKey.ixCompare_neg _ _).2 hxy
  · rw [List.mem_filter, hm, hcompare, hcompare]
    simp

/-- With keys that hold no NaN and no `-0.0` every range scan is exact. -/
theorem rangeScans_of_execAll {L : IndexColumns} {ops : List (IxOp (OrderedKey L.toKeyColumns))}
    {flags : List Bool} {ih : IxIndexHandle (OrderedKey L.toKeyColumns)}
    (hops : IxOp.NeverEmpties IxMap.empty ops) (hrun : IxOp.execAll (newIndex _ L) ops = .ok (flags, ih))
    {lo hi : OrderedKey L.toKeyColumns} (hle : IxKey.ixCompare lo hi ≤ 0) :
    RangeScans ih (IxOp.specAll IxMap.empty ops).2 lo hi :=
  (sim_of_execAll (newIndex_sim L) hops hrun).rangeScans hle

def floatEntries : List (IxOp (OrderedKey floatColumn)) :=
  [.insert floatOne ⟨1, 0⟩, .insert floatThree ⟨1, 1⟩]

/-- From `1.0` to `2.0`, which is not in the index. -/
theorem rangeScans_absentBounds :
    IxOp.NeverEmpties IxMap.empty floatEntries ∧ IxKey.ixCompare floatOne floatTwo ≤ 0 ∧
    ∃ ih, IxOp.execAll (newIndex _ floatIndex) floatEntries = .ok ([true, true], ih) ∧
      RangeScans ih (IxOp.specAll IxMap.empty floatEntries).2 floatOne floatTwo := by
  have hops : IxOp.NeverEmpties IxMap.empty floatEntries :=
    ⟨⟨floatOne, by decide⟩, ⟨floatOne, by decide⟩, trivial⟩
  have hle : IxKey.ixCompare floatOne floatTwo ≤ 0 := by decide
  obtain ⟨ih, hrun, -⟩ := sim_of_neverEmpties (newIndex_sim floatIndex) hops
  exact ⟨hops, hle, ih, hrun, rangeScans_of_execAll (L := floatIndex) hops hrun hle⟩

/-- An index over a `FLOAT` and a `CHAR(508)` column, with six entries to a page. -/
def wideFloatIndex : IndexColumns := ⟨⟨[(.float, 4), (.string, 508)], by decide⟩, by decide⟩

def wideFloatKey (b2 b3 : UInt8) : RawKey wideFloatIndex.toKeyColumns :=
  ⟨[0, 0, b2, b3] ++ List.replicate 508 0, by rw [List.length_append, List.length_replicate]; rfl⟩

/-- The keys `-3.0`, `-2.0`, `-1.0`, `-0.0`, `1.0` and `2.0`: the sixth splits the root leaf in
front of `-0.0`. -/
def signedZeros : List (IxOp (RawKey wideFloatIndex.toKeyColumns)) :=
  [.insert (wideFloatKey 0x40 0xc0) ⟨1, 0⟩, .insert (wideFloatKey 0 0xc0) ⟨1, 1⟩,
    .insert (wideFloatKey 0x80 0xbf) ⟨1, 2⟩, .insert (wideFloatKey 0 0x80) ⟨1, 3⟩,
    .insert (wideFloatKey 0x80 0x3f) ⟨1, 4⟩, .insert (wideFloatKey 0 0x40) ⟨1, 5⟩]

theorem signedZeros_bounds : (IxOp.execAll (newIndex _ wideFloatIndex) signedZeros).toOption.map (fun r =>
    ((r.2.lowerBound (wideFloatKey 0 0)).toOption, (r.2.upperBound (wideFloatKey 0 0)).toOption)) =
      some (some ⟨3, 0⟩, some ⟨3, 0⟩) := by
  decide +kernel

/-- The range from `0.0` to `0.0` holds the entry of `-0.0`, and the scan does not find it. -/
theorem signed_zero_skipped : IxOp.NeverEmpties IxMap.empty signedZeros ∧
    IxKey.ixCompare (wideFloatKey 0 0) (wideFloatKey 0 0) ≤ 0 ∧
    ∃ flags ih, IxOp.execAll (newIndex _ wideFloatIndex) signedZeros = .ok (flags, ih) ∧
      ¬RangeScans ih (IxOp.specAll IxMap.empty signedZeros).2 (wideFloatKey 0 0) (wideFloatKey 0 0) := by
  refine ⟨?_, by decide +kernel, ?_⟩
  · refine ⟨?_, ?_, ?_, ?_, ?_, ?_, trivial⟩ <;> exact ⟨wideFloatKey 0x40 0xc0, by decide +kernel⟩
  have hbounds := signedZeros_bounds
  cases hrun : IxOp.execAll (newIndex _ wideFloatIndex) signedZeros with
  | error e =>
      rw [hrun] at hbounds
      cases hbounds
  | ok res =>
      obtain ⟨flags, ih⟩ := res
      refine ⟨flags, ih, rfl, ?_⟩
      rintro ⟨a, b, es, hlower, hupper, hyields, -, hmem⟩
      rw [hrun] at hbounds
      simp only [Except.toOption, Option.map_some, hlower, hupper, Option.some.injEq,
        Prod.mk.injEq] at hbounds
      obtain ⟨rfl, rfl⟩ := hbounds
      have hin : (wideFloatKey 0 0x80, (⟨1, 3⟩ : Rid)) ∈ es :=
        (hmem _ _).2 ⟨by decide +kernel, by decide +kernel, by decide +kernel⟩
      cases es with
      | nil => cases hin
      | cons e es =>
          cases hyields with
          | step hend => exact absurd hend (by simp [IxScan.cursor])

end Ranges

section Emptying

def EndsEmpty {K : Type} [DecidableEq K] (m : IxMap K) (ops : List (IxOp K)) : Prop :=
  ∃ pre key rid, ops = pre ++ [.delete key rid] ∧ ∀ k, (IxOp.specAll m ops).2 k = none

/-- After the calls the index is an empty index that takes entries again. -/
def SurvivesEmpty {K : Type} [IxKey K] (ih : IxIndexHandle K) (ops : List (IxOp K)) : Prop :=
  ∃ flags ih', IxOp.execAll ih ops = .ok (flags, ih') ∧
    (∀ k, ih'.getValue k = .ok none ∧ ∃ p, ih'.lowerBound k = .ok p ∧ ih'.upperBound k = .ok p) ∧
    ∀ k v, ∃ leaf ih2, ih'.insertEntry k v = .ok (leaf, true, ih2) ∧ ih2.getValue k = .ok (some v)

variable {L : KeyLayout} {ih : IxIndexHandle (Key L)} {m : IxMap (Key L)} {op : IxOp (Key L)}
  {ops : List (IxOp (Key L))}

structure Rooted (ih : IxIndexHandle (Key L)) (m : IxMap (Key L)) : Prop where
  sim : Sim ih m
  noPage : NoPage ih
  entries : (∃ k, m k ≠ none) ∨ ih = createIndex L

theorem exec_rootless (hroot : ih.fileHdr.rootPage = -1) (hno : NoPage ih) (op : IxOp (Key L)) :
    ∃ e, op.exec ih = .error e := by
  cases op with
  | insert k v =>
      obtain ⟨e, he⟩ := findLeafPage_rootless hroot hno k
      exact ⟨e, by rw [IxOp.exec, IxIndexHandle.insertEntry, he]; rfl⟩
  | delete k rid =>
      obtain ⟨e, he⟩ := findLeafPage_rootless hroot hno k
      exact ⟨e, by rw [IxOp.exec, IxIndexHandle.deleteEntry, he]; rfl⟩

theorem NoPage.exec {ih' : IxIndexHandle (Key L)} {flag : Bool} (h : NoPage ih)
    (hrun : op.exec ih = .ok (flag, ih')) :
    NoPage ih' := by
  cases op with
  | insert k v =>
      rw [IxOp.exec] at hrun
      cases hins : ih.insertEntry k v with
      | error e =>
          rw [hins] at hrun
          cases hrun
      | ok res =>
          rw [hins] at hrun
          cases hrun
          exact h.insertEntry hins
  | delete k rid => exact h.deleteEntry hrun

/-- A call that leaves the index without entries also leaves it without a root. -/
theorem Rooted.exec_empty (h : Rooted ih m) (hempty : ∀ k, (op.spec m).2 k = none) :
    ∃ ih', op.exec ih = .ok (true, ih') ∧ ih'.fileHdr.rootPage = -1 ∧ NoPage ih' := by
  cases op with
  | insert key value =>
      have hkey := hempty key
      by_cases hnone : m key = none
      · simp only [IxOp.spec, if_pos hnone, Function.update_self] at hkey
        cases hkey
      · simp only [IxOp.spec, if_neg hnone] at hkey
        exact absurd hkey hnone
  | delete key rid =>
      rcases h.entries with ⟨k, hk⟩ | rfl
      · obtain ⟨es, hv, hm⟩ := h.sim
        -- the key is there, with this rid, and it is the only one
        obtain ⟨r, hr⟩ : ∃ r, m key = some r := by
          rw [← Option.ne_none_iff_exists']
          intro hnone
          have := hempty k
          rw [IxOp.spec, hnone] at this
          exact hk this
        have hrid : rid = none ∨ rid = some r := by
          by_contra hrid
          have := hempty k
          simp only [IxOp.spec, hr, if_neg hrid] at this
          exact hk this
        have honly : ∀ e ∈ es, e = (key, r) := by
          rintro ⟨k', r'⟩ he
          have hk' := (hm k' r').1 he
          have := hempty k'
          simp only [IxOp.spec, hr, if_pos hrid] at this
          by_cases heq : k' = key
          · rw [heq, hr] at hk'
            rw [heq, Option.some.inj hk']
          · rw [Function.update_of_ne heq, hk'] at this
            cases this
        have hes : es = [(key, r)] := by
          have hin := (hm key r).2 hr
          cases es with
          | nil => cases hin
          | cons a rest =>
              have ha := honly a List.mem_cons_self
              cases rest with
              | nil => rw [ha]
              | cons b rest =>
                  have hb := honly b (List.mem_cons_of_mem _ List.mem_cons_self)
                  have hlt := (List.pairwise_cons.1 hv.sorted).1 b List.mem_cons_self
                  rw [ha, hb] at hlt
                  exact absurd hlt (lt_irrefl _)
        rw [hes] at hv
        obtain ⟨ih', hrun, hdone⟩ := deleteEntry_last hv h.noPage hrid
        exact ⟨ih', hrun, hdone.root, hdone.noPage⟩
      · exact deleteEntry_fresh _ key rid

theorem Rooted.exec (h : Rooted ih m) (hleft : ∃ k, (op.spec m).2 k ≠ none) :
    ∃ ih', op.exec ih = .ok ((op.spec m).1, ih') ∧ Rooted ih' (op.spec m).2 := by
  obtain ⟨ih', hrun, hs⟩ := step_sim op h.sim (IxOp.served_of_left hleft) fun hlast => by
    obtain ⟨k, hk⟩ := hleft
    exact hk (hlast.2 k)
  exact ⟨ih', hrun, hs, h.noPage.exec hrun, .inl hleft⟩

theorem Rooted.never_survives (h : Rooted ih m) (hends : EndsEmpty m ops) : ¬SurvivesEmpty ih ops := by
  induction ops generalizing ih m with
  | nil =>
      obtain ⟨pre, key, rid, hpre, -⟩ := hends
      exact absurd (congrArg List.length hpre) (by simp)
  | cons op ops iho =>
      by_cases hleft : ∃ k, (op.spec m).2 k ≠ none
      · obtain ⟨ih1, hrun, h1⟩ := h.exec hleft
        rintro ⟨flags, ih', hall, hread, hinsert⟩
        rw [IxOp.execAll, hrun, ok_bind] at hall
        cases hrest : IxOp.execAll ih1 ops with
        | error e =>
            simp only [hrest] at hall
            cases hall
        | ok res =>
            simp only [hrest, ok_bind] at hall
            cases hall
            refine iho h1 ?_ ⟨_, _, hrest, hread, hinsert⟩
            obtain ⟨pre, key, rid, hpre, hempty⟩ := hends
            cases pre with
            | nil =>
                cases hpre
                obtain ⟨k, hk⟩ := hleft
                exact absurd (hempty k) hk
            | cons x pre =>
                cases hpre
                exact ⟨pre, key, rid, rfl, hempty⟩
      · obtain ⟨ih1, hrun, hroot, hno⟩ := h.exec_empty fun k => not_not.1 fun hk => hleft ⟨k, hk⟩
        rintro ⟨flags, ih', hall, hread, -⟩
        rw [IxOp.execAll, hrun, ok_bind] at hall
        cases ops with
        | nil =>
            cases hall
            -- the search for the leaf throws
            let key : Key L := ⟨List.replicate (colTotLen L.cols) 0, List.length_replicate⟩
            obtain ⟨e, he⟩ := findLeafPage_rootless hroot hno key
            have hthrows : ih1.getValue key = .error e := by
              rw [getValue, he]
              rfl
            have hnone : ih1.getValue key = .ok none := (hread key).1
            rw [hthrows] at hnone
            cases hnone
        | cons op' ops =>
            obtain ⟨e, he⟩ := exec_rootless hroot hno op'
            simp only [IxOp.execAll, he] at hall
            cases hall

theorem rooted_createIndex (L : KeyLayout) : Rooted (createIndex L) IxMap.empty :=
  ⟨createIndex_sim L, rfl, .inr rfl⟩

/-- No index survives becoming empty. -/
theorem not_survivesEmpty (hends : EndsEmpty IxMap.empty ops) : ¬SurvivesEmpty (createIndex L) ops :=
  (rooted_createIndex L).never_survives hends

theorem not_survivesEmpty_absentKey : EndsEmpty IxMap.empty [.delete (intKey 1 0 0 0) none] ∧
    ¬SurvivesEmpty (createIndex intLayout) [.delete (intKey 1 0 0 0) none] := by
  have hends : EndsEmpty IxMap.empty [.delete (intKey 1 0 0 0) none] := ⟨[], _, _, rfl, fun _ => rfl⟩
  exact ⟨hends, not_survivesEmpty hends⟩

theorem lastEntry_rootless :
    EndsEmpty IxMap.empty [.insert (intKey 1 0 0 0) ⟨1, 0⟩, .delete (intKey 1 0 0 0) none] ∧
    ¬SurvivesEmpty (createIndex intLayout) [.insert (intKey 1 0 0 0) ⟨1, 0⟩,
      .delete (intKey 1 0 0 0) none] := by
  refine ⟨⟨[_], _, _, rfl, fun k => ?_⟩, ?_⟩
  · change Function.update (Function.update IxMap.empty (intKey 1 0 0 0) (some ⟨1, 0⟩))
      (intKey 1 0 0 0) none k = none
    by_cases hk : k = intKey 1 0 0 0
    · rw [hk, Function.update_self]
    · rw [Function.update_of_ne hk, Function.update_of_ne hk]
      rfl
  · have hthrows : (do
        let (_, ih) ← IxOp.execAll (createIndex intLayout) [.insert (intKey 1 0 0 0) ⟨1, 0⟩,
          .delete (intKey 1 0 0 0) none]
        ih.getValue (intKey 1 0 0 0)) = .error .internalError := rfl
    rintro ⟨flags, ih, hrun, hread, -⟩
    simp only [hrun, ok_bind, (hread _).1] at hthrows
    cases hthrows

end Emptying

end Rmdb
