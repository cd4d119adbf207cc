import Rmdb.Index.Node

namespace Rmdb

open IxKey

/-- The two comparisons the index mixes agree with one linear order on keys. -/
class LawfulIxKey (K : Type) [IxKey K] [LinearOrder K] : Prop where
  ixCompare_neg : ∀ a b : K, ixCompare a b < 0 ↔ a < b
  ixCompare_pos : ∀ a b : K, 0 < ixCompare a b ↔ b < a
  memcmp_zero : ∀ a b : K, memcmp a b = 0 ↔ a = b

namespace IxNode

variable {K : Type} [IxKey K]

theorem slot_split {n : IxNode K} {A B : List (K × Rid)} {e : K × Rid} (h : n.pairs = A ++ e :: B) :
    n.slot A.length = e := by
  simp [slot, h]

theorem getKey_split {n : IxNode K} {A B : List (K × Rid)} {e : K × Rid} (h : n.pairs = A ++ e :: B) :
    n.getKey A.length = e.1 := by rw [getKey, slot_split h]

theorem getRid_split {n : IxNode K} {A B : List (K × Rid)} {e : K × Rid} (h : n.pairs = A ++ e :: B) :
    n.getRid A.length = e.2 := by rw [getRid, slot_split h]

theorem getKey_zero {n : IxNode K} {B : List (K × Rid)} {e : K × Rid} (h : n.pairs = e :: B) :
    n.getKey 0 = e.1 := getKey_split (A := []) h

theorem valueAt_split {n : IxNode K} {A B : List (K × Rid)} {e : K × Rid} (h : n.pairs = A ++ e :: B) :
    n.valueAt A.length = e.2.pageNo := by rw [valueAt, getRid_split h]

omit [IxKey K] in
@[simp] theorem insertPairs_parent (n : IxNode K) (pos : Nat) (new : List (K × Rid)) :
    (n.insertPairs pos new).parent = n.parent := rfl

omit [IxKey K] in
@[simp] theorem insertPairs_isLeaf (n : IxNode K) (pos : Nat) (new : List (K × Rid)) :
    (n.insertPairs pos new).isLeaf = n.isLeaf := rfl

omit [IxKey K] in
theorem insertPairs_split {n : IxNode K} {A B : List (K × Rid)} (h : n.pairs = A ++ B)
    (new : List (K × Rid)) :
    (n.insertPairs A.length new).pairs = A ++ new ++ B := by
  simp [insertPairs, h]

omit [IxKey K] in
theorem erasePair_split {n : IxNode K} {A B : List (K × Rid)} {e : K × Rid} (h : n.pairs = A ++ e :: B) :
    (n.erasePair A.length).pairs = A ++ B := by
  simp [erasePair, h, List.eraseIdx_append_of_length_le]

omit [IxKey K] in
theorem setKey_split {n : IxNode K} {A B : List (K × Rid)} {e : K × Rid} (h : n.pairs = A ++ e :: B) (k : K) :
    (n.setKey A.length k).pairs = A ++ (k, e.2) :: B := by
  simp [setKey, h, List.modify_eq_take_drop]

omit [IxKey K] in
theorem findChild_split {n : IxNode K} {A B : List (K × Rid)} {e : K × Rid} (h : n.pairs = A ++ e :: B)
    (hA : ∀ a ∈ A, a.2.pageNo ≠ e.2.pageNo) : n.findChild e.2.pageNo = A.length := by
  have hf : A.findIdx (fun a => a.2.pageNo == e.2.pageNo) = A.length := by
    rw [List.findIdx_eq_length]
    simpa using hA
  rw [findChild, h, List.findIdx_append, hf]
  simp [List.findIdx_cons]

section Search

variable {n : IxNode K} {A B : List (K × Rid)} {k : K} {i : Nat}

theorem getKey_cut (h : n.pairs = A ++ B) (hi : i < A.length + B.length) :
    ∃ e, n.getKey i = e.1 ∧ (i < A.length ∧ e ∈ A ∨ A.length ≤ i ∧ e ∈ B) := by
  have hi' : i < (A ++ B).length := by simpa using hi
  refine ⟨(A ++ B)[i], ?_, ?_⟩
  · simp only [getKey, slot, h]
    grind
  · by_cases hc : i < A.length
    · exact .inl ⟨hc, by rw [List.getElem_append_left hc]; exact List.getElem_mem hc⟩
    · exact .inr ⟨Nat.le_of_not_lt hc,
        by rw [List.getElem_append_right (Nat.le_of_not_lt hc)]; exact List.getElem_mem _⟩

/-- The search needs no order: the keys below the target come first. -/
theorem lowerBound_cut (h : n.pairs = A ++ B) (hA : ∀ e ∈ A, ixCompare e.1 k < 0)
    (hB : ∀ e ∈ B, 0 ≤ ixCompare e.1 k) :
    n.lowerBound k = A.length := by
  have hlen : n.getSize = A.length + B.length := by simp [getSize, h]
  refine Bisect.loop_eq _ _ _ _ _ le_rfl (Nat.zero_le _) (by omega) ?_
  intro i _ hi
  obtain ⟨e, hkey, ⟨hlt, he⟩ | ⟨hge, he⟩⟩ := getKey_cut (i := i) h (by omega)
  · simp only [hkey, hA e he, decide_true, hlt]
  · have := hB e he
    simp only [hkey, decide_eq_true_eq]
    omega

theorem upperBound_cut (h : n.pairs = A ++ B) (hA : ∀ e ∈ A, ixCompare e.1 k ≤ 0)
    (hB : ∀ e ∈ B, 0 < ixCompare e.1 k) :
    n.upperBound k = A.length := by
  have hlen : n.getSize = A.length + B.length := by simp [getSize, h]
  have hle : ∀ i, i < A.length + B.length → (ixCompare (n.getKey i) k ≤ 0 ↔ i < A.length) := by
    intro i hi
    obtain ⟨e, hkey, ⟨hlt, he⟩ | ⟨hge, he⟩⟩ := getKey_cut h hi
    · simp only [hkey, hA e he, hlt]
    · have := hB e he
      rw [hkey]
      omega
  have hloop : Bisect.loop (fun i => ixCompare (n.getKey i) k ≤ 0) (n.getSize - 1) 0 (n.getSize - 1) =
      min A.length (n.getSize - 1) := by
    refine Bisect.loop_eq _ _ _ _ _ le_rfl (Nat.zero_le _) (by omega) ?_
    intro i _ hi
    rw [decide_eq_true_eq, hle i (by omega)]
    omega
  simp only [upperBound]
  rw [hloop]
  cases B with
  | nil =>
      simp only [List.length_nil, Nat.add_zero] at hlen hle
      split
      · rename_i hgt
        by_contra hne
        have := (hle (min A.length (n.getSize - 1)) (by omega)).2 (by omega)
        omega
      · exact hlen
  | cons b B =>
      simp only [List.length_cons] at hlen hle
      have hmin : min A.length (n.getSize - 1) = A.length := by omega
      rw [hmin, if_pos]
      by_contra hc
      have := (hle A.length (by omega)).1 (by omega)
      omega

end Search

section Lawful

variable [LinearOrder K] [LawfulIxKey K]

theorem ixCompare_eq_zero (a b : K) : ixCompare a b = 0 ↔ a = b := by
  have hn := LawfulIxKey.ixCompare_neg a b
  have hp := LawfulIxKey.ixCompare_pos a b
  constructor
  · intro h
    exact le_antisymm (not_lt.1 (fun hlt => by have := hp.2 hlt; omega))
      (not_lt.1 (fun hlt => by have := hn.2 hlt; omega))
  · rintro rfl
    have h1 : ¬ ixCompare a a < 0 := fun hc => lt_irrefl _ (hn.1 hc)
    have h2 : ¬ 0 < ixCompare a a := fun hc => lt_irrefl _ (hp.1 hc)
    omega

theorem lowerBound_split {n : IxNode K} {A B : List (K × Rid)} {k : K} (h : n.pairs = A ++ B)
    (hA : ∀ e ∈ A, e.1 < k) (hB : ∀ e ∈ B, k ≤ e.1) : n.lowerBound k = A.length := by
  refine lowerBound_cut h (fun e he => (LawfulIxKey.ixCompare_neg e.1 k).2 (hA e he)) fun e he => ?_
  exact not_lt.1 fun hc => not_lt.2 (hB e he) ((LawfulIxKey.ixCompare_neg e.1 k).1 hc)

/-- The two searches cut the pairs at `k`, the upper one behind the pair with key `k`. -/
theorem upperBound_split {n : IxNode K} {A B : List (K × Rid)} {k : K} (h : n.pairs = A ++ B)
    (hA : ∀ e ∈ A, e.1 ≤ k) (hB : ∀ e ∈ B, k < e.1) : n.upperBound k = A.length := by
  refine upperBound_cut h (fun e he => ?_) fun e he => (LawfulIxKey.ixCompare_pos e.1 k).2 (hB e he)
  exact not_lt.1 fun hc => not_lt.2 (hA e he) ((LawfulIxKey.ixCompare_pos e.1 k).1 hc)

theorem insert_new {n : IxNode K} {A B : List (K × Rid)} {k : K} (h : n.pairs = A ++ B)
    (hA : ∀ e ∈ A, e.1 < k) (hB : ∀ e ∈ B, k < e.1) (v : Rid) :
    n.insert k v = n.insertPairs A.length [(k, v)] := by
  have hlb := lowerBound_split h hA (fun e he => le_of_lt (hB e he))
  rw [insert, hlb, if_pos]
  cases B with
  | nil => left; simp [getSize, h]
  | cons e B =>
      right
      rw [getKey_split h, ne_eq, LawfulIxKey.memcmp_zero]
      exact ne_of_gt (hB e (by simp))

theorem insert_dup {n : IxNode K} {A B : List (K × Rid)} {k : K} {r : Rid} (h : n.pairs = A ++ (k, r) :: B)
    (hA : ∀ e ∈ A, e.1 < k) (hB : ∀ e ∈ B, k < e.1) (v : Rid) : n.insert k v = n := by
  have hlb : n.lowerBound k = A.length := by
    refine lowerBound_split h hA ?_
    intro e he
    rcases List.mem_cons.1 he with rfl | he
    · exact le_rfl
    · exact le_of_lt (hB e he)
  rw [insert, hlb, if_neg]
  rw [getKey_split h]
  simp [getSize, h, LawfulIxKey.memcmp_zero]

theorem remove_absent {n : IxNode K} {A B : List (K × Rid)} {k : K} (h : n.pairs = A ++ B)
    (hA : ∀ e ∈ A, e.1 < k) (hB : ∀ e ∈ B, k < e.1) (rid : Option Rid) : n.remove k rid = n := by
  have hlb := lowerBound_split h hA (fun e he => le_of_lt (hB e he))
  rw [remove, hlb, if_neg]
  rintro ⟨hlt, hc, -⟩
  cases B with
  | nil => simp [getSize, h] at hlt
  | cons e B =>
      rw [getKey_split h, ixCompare_eq_zero] at hc
      exact ne_of_gt (hB e (by simp)) hc

theorem remove_present {n : IxNode K} {A B : List (K × Rid)} {k : K} {r : Rid}
    (h : n.pairs = A ++ (k, r) :: B) (hA : ∀ e ∈ A, e.1 < k) (hB : ∀ e ∈ B, k < e.1) (rid : Option Rid) :
    n.remove k rid = if rid = none ∨ rid = some r then n.erasePair A.length else n := by
  have hlb : n.lowerBound k = A.length := by
    refine lowerBound_split h hA ?_
    intro e he
    rcases List.mem_cons.1 he with rfl | he
    · exact le_rfl
    · exact le_of_lt (hB e he)
  rw [remove, hlb, getKey_split h, getRid_split h]
  simp [ixCompare_eq_zero, getSize, h]

/-- The child with the greatest separator not above the key, or the first child. -/
theorem internalLookup_split {n : IxNode K} {A B : List (K × Rid)} {s k : K} {c : Rid}
    (h : n.pairs = A ++ (s, c) :: B) (hA : ∀ e ∈ A, e.1 < s) (hB : ∀ e ∈ B, k < e.1)
    (hs : s ≤ k ∨ A = [] ∧ k < s) : n.internalLookup k = c.pageNo := by
  rcases hs with hs | ⟨rfl, hs⟩
  · rcases lt_or_eq_of_le hs with hlt | rfl
    · have hlb : n.lowerBound k = A.length + 1 := by
        have := lowerBound_split (n := n) (A := A ++ [(s, c)]) (B := B) (k := k) (by simp [h])
          (by
            intro e he
            rcases List.mem_append.1 he with he | he
            · exact lt_trans (hA e he) hlt
            · rw [List.mem_singleton.1 he]; exact hlt)
          (fun e he => le_of_lt (hB e he))
        simpa using this
      rw [internalLookup, hlb, if_neg (Nat.succ_ne_zero _), if_neg, Nat.add_sub_cancel, valueAt_split h]
      rintro ⟨hsz, hc⟩
      cases B with
      | nil => simp [getSize, h] at hsz
      | cons e B =>
          have hk : n.getKey (A.length + 1) = e.1 := by
            have := getKey_split (n := n) (A := A ++ [(s, c)]) (B := B) (e := e) (by simp [h])
            simpa using this
          rw [hk, LawfulIxKey.memcmp_zero] at hc
          exact ne_of_gt (hB e (by simp)) hc
    · have hlb : n.lowerBound s = A.length := by
        refine lowerBound_split h hA ?_
        intro e he
        rcases List.mem_cons.1 he with rfl | he
        · exact le_rfl
        · exact le_of_lt (hB e he)
      have hval := valueAt_split h
      rw [internalLookup, hlb]
      split
      · exact hval
      · rw [if_pos ⟨by simp [getSize, h], by rw [getKey_split h, LawfulIxKey.memcmp_zero]⟩]
        exact hval
  · have hlb : n.lowerBound k = 0 := by
      refine lowerBound_split (A := []) h (by simp) ?_
      intro e he
      rcases List.mem_cons.1 he with rfl | he
      · exact le_of_lt hs
      · exact le_of_lt (hB e he)
    rw [internalLookup, hlb, if_pos rfl]
    exact valueAt_split h

end Lawful

end IxNode

end Rmdb
