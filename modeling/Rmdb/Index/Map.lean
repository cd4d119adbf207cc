import Rmdb.Index.Delete
import Rmdb.Index.Scan
import Rmdb.Index.Key

namespace Rmdb

open BPlus SepList IxIndexHandle IxManager

variable {K : Type}

inductive IxOp (K : Type)
  | insert (key : K) (value : Rid)
  | delete (key : K) (rid : Option Rid)

/-- What an index stands for: at most one rid for each key. -/
abbrev IxMap (K : Type) := K → Option Rid

def IxMap.empty : IxMap K := fun _ => none

namespace IxOp

def exec [IxKey K] (ih : IxIndexHandle K) : IxOp K → Ix (Bool × IxIndexHandle K)
  | .insert key value => do
      let (_, success, ih) ← ih.insertEntry key value
      return (success, ih)
  | .delete key rid => ih.deleteEntry key rid

def execAll [IxKey K] : IxIndexHandle K → List (IxOp K) → Ix (List Bool × IxIndexHandle K)
  | ih, [] => .ok ([], ih)
  | ih, op :: ops => do
      let (flag, ih) ← op.exec ih
      let (flags, ih) ← execAll ih ops
      return (flag :: flags, ih)

variable [DecidableEq K]

/-- What a call should do to the map. -/
def spec (m : IxMap K) : IxOp K → Bool × IxMap K
  | .insert key value => if m key = none then (true, Function.update m key (some value)) else (false, m)
  | .delete key rid =>
      (true, match m key with
        | some r => if rid = none ∨ rid = some r then Function.update m key none else m
        | none => m)

def specAll : IxMap K → List (IxOp K) → List Bool × IxMap K
  | m, [] => ([], m)
  | m, op :: ops => ((op.spec m).1 :: (specAll (op.spec m).2 ops).1, (specAll (op.spec m).2 ops).2)

def RemovesLast (m : IxMap K) (op : IxOp K) : Prop := (∃ k, m k ≠ none) ∧ ∀ k, (op.spec m).2 k = none

def NeverRemovesLast : IxMap K → List (IxOp K) → Prop
  | _, [] => True
  | m, op :: ops => ¬ RemovesLast m op ∧ NeverRemovesLast (op.spec m).2 ops

def Served (m : IxMap K) : IxOp K → Prop
  | .insert _ _ => True
  | .delete _ _ => ∃ k, m k ≠ none

end IxOp

/-- The index is well formed and holds the map `m`. -/
def Sim [LinearOrder K] (ih : IxIndexHandle K) (m : IxMap K) : Prop :=
  ∃ es, Valid ih es ∧ ∀ k r, (k, r) ∈ es ↔ m k = some r

section Step

variable [LinearOrder K] [DecidableEq K] {ih : IxIndexHandle K} {es pre post : List (K × Rid)}
  {m : IxMap K} {k : K} {r : Rid}

omit [DecidableEq K] in
theorem Valid.sorted (hv : Valid ih es) : es.Pairwise (fun a b => a.1 < b.1) := by
  obtain ⟨h, t, hz, -, rfl⟩ := hv
  have hs := Sorted.entKeys_lt hz.sorted
  rw [entKeys_zflat] at hs
  have he : zents .top t = ents t.items := by simp [zents, Ctx.leftEnts, Ctx.rightEnts]
  rw [he] at hs
  exact List.pairwise_map.1 hs

omit [DecidableEq K] in
theorem absent (hpre : ∀ e ∈ pre, e.1 < k) (hpost : ∀ e ∈ post, k < e.1)
    (hm : ∀ k r, (k, r) ∈ pre ++ post ↔ m k = some r) :
    m k = none := by
  cases hk : m k with
  | none => rfl
  | some r =>
      rcases List.mem_append.1 ((hm k r).2 hk) with h | h
      · exact absurd (hpre _ h) (lt_irrefl _)
      · exact absurd (hpost _ h) (lt_irrefl _)

theorem insert_mem (v : Rid) (hpre : ∀ e ∈ pre, e.1 < k) (hpost : ∀ e ∈ post, k < e.1)
    (hm : ∀ k r, (k, r) ∈ pre ++ post ↔ m k = some r) (k' : K) (r' : Rid) :
    (k', r') ∈ pre ++ (k, v) :: post ↔ Function.update m k (some v) k' = some r' := by
  by_cases hk : k' = k
  · subst hk
    rw [Function.update_self]
    constructor
    · intro hmem
      rcases List.mem_append.1 hmem with h | h
      · exact absurd (hpre _ h) (lt_irrefl _)
      · rcases List.mem_cons.1 h with h | h
        · cases h; rfl
        · exact absurd (hpost _ h) (lt_irrefl _)
    · intro he
      cases he
      simp
  · rw [Function.update_of_ne hk, ← hm]
    simp [hk]

theorem erase_mem (hpre : ∀ e ∈ pre, e.1 < k) (hpost : ∀ e ∈ post, k < e.1)
    (hm : ∀ k' r', (k', r') ∈ pre ++ (k, r) :: post ↔ m k' = some r') (k' : K) (r' : Rid) :
    (k', r') ∈ pre ++ post ↔ Function.update m k none k' = some r' := by
  by_cases hk : k' = k
  · subst hk
    rw [Function.update_self]
    simp only [reduceCtorEq, iff_false]
    intro hmem
    rcases List.mem_append.1 hmem with h | h
    · exact absurd (hpre _ h) (lt_irrefl _)
    · exact absurd (hpost _ h) (lt_irrefl _)
  · rw [Function.update_of_ne hk, ← hm]
    simp [hk]

omit [LinearOrder K] [DecidableEq K] in
theorem Sim.entries_ne (hm : ∀ k r, (k, r) ∈ es ↔ m k = some r) (hne : ∃ k, m k ≠ none) : es ≠ [] := by
  obtain ⟨k, hk⟩ := hne
  obtain ⟨r, hr⟩ := Option.ne_none_iff_exists'.1 hk
  rintro rfl
  simpa using (hm k r).2 hr

variable [IxKey K] [LawfulIxKey K]

theorem step_sim (op : IxOp K) (hs : Sim ih m) (hserved : op.Served m) (hlast : ¬ op.RemovesLast m) :
    ∃ ih', op.exec ih = .ok ((op.spec m).1, ih') ∧ Sim ih' (op.spec m).2 := by
  obtain ⟨es, hv, hm⟩ := hs
  cases op with
  | insert k v =>
      rcases insertEntry_spec k v hv with ⟨pre, post, r, leaf, rfl, hrun⟩ |
        ⟨pre, post, leaf, ih', rfl, hpre, hpost, hrun, hv'⟩
      · have hk : m k = some r := (hm k r).1 (by simp)
        refine ⟨ih, ?_, ?_⟩
        · simp [IxOp.exec, hrun, IxOp.spec, hk]
        · simp only [IxOp.spec, hk, reduceCtorEq, if_false]
          exact ⟨_, hv, hm⟩
      · have hk := absent hpre hpost hm
        refine ⟨ih', ?_, ?_⟩
        · simp [IxOp.exec, hrun, IxOp.spec, hk]
        · simp only [IxOp.spec, hk, if_true]
          exact ⟨_, hv', insert_mem v hpre hpost hm⟩
  | delete k rid =>
      rcases deleteEntry_spec k rid hv (Sim.entries_ne hm hserved) with
        ⟨pre, post, rfl, hpre, hpost, ih', hrun, hv'⟩ | ⟨pre, r, post, rfl, hpre, hpost, herase, hkeep⟩
      · have hk := absent hpre hpost hm
        refine ⟨ih', hrun, ?_⟩
        simp only [IxOp.spec, hk]
        exact ⟨_, hv', hm⟩
      · have hk : m k = some r := (hm k r).1 (by simp)
        by_cases hrid : rid = none ∨ rid = some r
        · have hspec : (IxOp.spec m (.delete k rid)).2 = Function.update m k none := by
            simp only [IxOp.spec, hk, if_pos hrid]
          have hmem := erase_mem hpre hpost hm
          have hne : pre ++ post ≠ [] := by
            intro hnil
            refine hlast ⟨⟨k, by simp [hk]⟩, ?_⟩
            intro k'
            rw [hspec]
            cases hk' : Function.update m k none k' with
            | none => rfl
            | some r' =>
                have := (hmem k' r').2 hk'
                rw [hnil] at this
                simp at this
          obtain ⟨ih', hrun, hv'⟩ := herase hrid hne
          exact ⟨ih', hrun, _, hv', by rw [hspec]; exact hmem⟩
        · obtain ⟨ih', hrun, hv'⟩ := hkeep hrid
          refine ⟨ih', hrun, _, hv', ?_⟩
          simpa only [IxOp.spec, hk, if_neg hrid] using hm

/-- A run of calls does to the index what it should do to the map. -/
theorem run_sim (ops : List (IxOp K)) (hs : Sim ih m) (hne : ∃ k, m k ≠ none)
    (hlast : IxOp.NeverRemovesLast m ops) :
    ∃ ih', IxOp.execAll ih ops = .ok ((IxOp.specAll m ops).1, ih') ∧ Sim ih' (IxOp.specAll m ops).2 := by
  induction ops generalizing ih m with
  | nil => exact ⟨ih, rfl, hs⟩
  | cons op ops iho =>
      have hserved : op.Served m := by
        cases op with
        | insert => trivial
        | delete => exact hne
      obtain ⟨ih1, hrun1, hs1⟩ := step_sim op hs hserved hlast.1
      have hne1 : ∃ k, (op.spec m).2 k ≠ none := by
        by_contra hc
        push Not at hc
        exact hlast.1 ⟨hne, hc⟩
      obtain ⟨ih2, hrun2, hs2⟩ := iho hs1 hne1 hlast.2
      exact ⟨ih2, by simp [IxOp.execAll, hrun1, hrun2, IxOp.specAll], hs2⟩

end Step

section Fresh

theorem btreeOrder_ge (L : KeyLayout) : 6 ≤ btreeOrder L := by
  have hb := L.bounded
  have : 7 ≤ (4096 - 24) / (colTotLen L.cols + 8) := (Nat.le_div_iff_mul_le (by omega)).2 (by omega)
  rw [btreeOrder]
  omega

/-- The pages of a new index, whatever its keys are. -/
def emptyIndex (K : Type) (order : Nat) : IxIndexHandle K where
  fileHdr := ⟨3, 2, order, 2, 2⟩
  pages p :=
    if p = 1 then some ⟨-1, true, 2, 2, [], []⟩
    else if p = 2 then some ⟨-1, true, 1, 1, [], []⟩
    else none
  fd2pageno := 3

theorem emptyIndex_exact {K : Type} [LinearOrder K] {order : Nat} (horder : 6 ≤ order) :
    ValidIf (emptyIndex K order) [] True := by
  refine ⟨0, Tree.mk 2 [], ⟨⟨horder, rfl, ⟨?_, ?_, ?_⟩, ?_, trivial, by simp⟩, ⟨?_, rfl, rfl⟩⟩,
    ⟨Or.inl rfl, ?_⟩, rfl, fun _ _ _ => trivial⟩
  · intro r hr
    simp only [zrecs, Tree.recs, Ctx.recs, kidRecs_zero, List.append_nil, List.mem_singleton] at hr
    subst hr
    exact ⟨_, rfl, rfl, rfl, rfl⟩
  · simp [zrecs, Tree.recs, Ctx.recs]
  · intro r hr
    simp only [zrecs, Tree.recs, Ctx.recs, kidRecs_zero, List.append_nil, List.mem_singleton] at hr
    subst hr
    exact ⟨le_rfl, by simp [emptyIndex]⟩
  · simp [zflat, Ctx.left, Ctx.right, Sorted]
  · simp [zleaves, Ctx.leftLeaves, Ctx.rightLeaves, Ring.IsRing, Ring.Link, nextOf, prevOf, link, emptyIndex]
  · simp only [emptyIndex, Tree.items_mk, List.length_nil]
    omega

theorem createIndex_exact (L : KeyLayout) : ValidIf (createIndex L) [] True :=
  emptyIndex_exact (btreeOrder_ge L)

theorem emptyIndex_sim {K : Type} [LinearOrder K] {order : Nat} (horder : 6 ≤ order) :
    Sim (emptyIndex K order) IxMap.empty :=
  ⟨[], (emptyIndex_exact horder).valid, by simp [IxMap.empty]⟩

theorem createIndex_valid (L : KeyLayout) : Valid (createIndex L) [] := (createIndex_exact L).valid

theorem createIndex_sim (L : KeyLayout) : Sim (createIndex L) IxMap.empty :=
  ⟨[], createIndex_valid L, by simp [IxMap.empty]⟩

end Fresh

/-- A scan of the whole index reads exactly the entries of `m`, each once, in ascending order. -/
def Enumerates [IxKey K] (ih : IxIndexHandle K) (m : IxMap K) : Prop :=
  ∃ end_ es, ih.leafEnd = .ok end_ ∧
    (∀ fuel, es.length ≤ fuel → ih.scanFrom end_ fuel ih.leafBegin = .ok es) ∧
    es.Pairwise (fun a b => IxKey.ixCompare a.1 b.1 < 0) ∧ ∀ k r, (k, r) ∈ es ↔ m k = some r

theorem Sim.enumerates [LinearOrder K] [IxKey K] [LawfulIxKey K] {ih : IxIndexHandle K}
    {m : IxMap K} (hs : Sim ih m) :
    Enumerates ih m := by
  obtain ⟨es, hv, hm⟩ := hs
  obtain ⟨end_, hend, hscan⟩ := scan_spec hv
  exact ⟨end_, es, hend, hscan, hv.sorted.imp (fun hab => (LawfulIxKey.ixCompare_neg _ _).2 hab), hm⟩

/-- The B+ tree refines a finite map. -/
theorem index_refines_map (L : KeyLayout) (key : Key L) (value : Rid) (ops : List (IxOp (Key L)))
    (hlast : IxOp.NeverRemovesLast IxMap.empty (.insert key value :: ops)) :
    ∃ ih', IxOp.execAll (createIndex L) (.insert key value :: ops) =
        .ok ((IxOp.specAll IxMap.empty (.insert key value :: ops)).1, ih') ∧
      Enumerates ih' (IxOp.specAll IxMap.empty (.insert key value :: ops)).2 := by
  obtain ⟨ih1, hrun1, hs1⟩ := step_sim (.insert key value) (createIndex_sim L) trivial hlast.1
  have hne : ∃ k, (IxOp.spec IxMap.empty (.insert key value)).2 k ≠ none :=
    ⟨key, by simp [IxOp.spec, IxMap.empty]⟩
  obtain ⟨ih2, hrun2, hs2⟩ := run_sim ops hs1 hne hlast.2
  exact ⟨ih2, by simp [IxOp.execAll, hrun1, hrun2, IxOp.specAll], hs2.enumerates⟩

def intLayout : KeyLayout := ⟨[(.int, 4)], by simp, by decide⟩

theorem length_intKey (a b c d : UInt8) : [a, b, c, d].length = colTotLen intLayout.cols := rfl

def intKey (a b c d : UInt8) : Key intLayout := ⟨[a, b, c, d], length_intKey a b c d⟩

theorem index_refines_map_int :
    IxOp.NeverRemovesLast IxMap.empty [.insert (intKey 1 0 0 0) ⟨1, 0⟩, .insert (intKey 2 0 0 0) ⟨1, 1⟩,
      .delete (intKey 1 0 0 0) none] ∧
    ∃ ih', IxOp.execAll (createIndex intLayout) [.insert (intKey 1 0 0 0) ⟨1, 0⟩,
      .insert (intKey 2 0 0 0) ⟨1, 1⟩,
        .delete (intKey 1 0 0 0) none] = .ok ([true, true, true], ih') ∧
      Enumerates ih' (IxOp.specAll IxMap.empty [.insert (intKey 1 0 0 0) ⟨1, 0⟩,
        .insert (intKey 2 0 0 0) ⟨1, 1⟩,
        .delete (intKey 1 0 0 0) none]).2 := by
  have hlast : IxOp.NeverRemovesLast IxMap.empty [.insert (intKey 1 0 0 0) ⟨1, 0⟩,
    .insert (intKey 2 0 0 0) ⟨1, 1⟩,
      .delete (intKey 1 0 0 0) none] := by
    refine ⟨fun h => ?_, fun h => ?_, fun h => ?_, trivial⟩
    · exact absurd (h.2 (intKey 1 0 0 0)) (by decide)
    · exact absurd (h.2 (intKey 1 0 0 0)) (by decide)
    · exact absurd (h.2 (intKey 2 0 0 0)) (by decide)
  exact ⟨hlast, index_refines_map intLayout (intKey 1 0 0 0) ⟨1, 0⟩ _ hlast⟩

end Rmdb
