import Mathlib.Data.Nat.Find
import Mathlib.Data.List.Range
import Mathlib.Tactic.IntervalCases

namespace Rmdb.Bitmap

/-- Bytes in memory, by address. -/
abbrev Memory := Nat → UInt8

def getBucket (pos : Nat) : Nat := pos / 8

def getBit (pos : Nat) : UInt8 := 0x80 >>> UInt8.ofNat (pos % 8)

variable (mem : Memory) (bm : Nat)

def set (pos : Nat) : Memory :=
  Function.update mem (bm + getBucket pos) (mem (bm + getBucket pos) ||| getBit pos)

def reset (pos : Nat) : Memory :=
  Function.update mem (bm + getBucket pos) (mem (bm + getBucket pos) &&& ~~~ getBit pos)

def isSet (pos : Nat) : Bool := mem (bm + getBucket pos) &&& getBit pos ≠ 0

def search (bit : Bool) : Nat → Nat → Nat
  | 0, i => i
  | count + 1, i => if isSet mem bm i = bit then i else search bit count (i + 1)

def nextBit (bit : Bool) (maxN : Nat) (curr : Int) : Nat :=
  search mem bm bit (maxN - (curr + 1).toNat) (curr + 1).toNat

def firstBit (bit : Bool) (maxN : Nat) : Nat := nextBit mem bm bit maxN (-1)

variable {mem bm} {pos q maxN : Nat} {bit : Bool}

theorem getBit_toBitVec (pos : Nat) : (getBit pos).toBitVec = BitVec.twoPow 8 (7 - pos % 8) := by
  have hlt : pos % 8 < 8 := Nat.mod_lt _ (by decide)
  rw [getBit]
  generalize pos % 8 = k at hlt ⊢
  interval_cases k <;> rfl

theorem and_getBit (b : UInt8) (pos : Nat) :
    (b &&& getBit pos ≠ 0) ↔ b.toBitVec.getLsbD (7 - pos % 8) = true := by
  have hlt : 7 - pos % 8 < 8 := by omega
  rw [ne_eq, ← UInt8.toBitVec_inj, UInt8.toBitVec_and, getBit_toBitVec, BitVec.and_twoPow]
  split
  · rename_i h
    refine ⟨fun _ => h, fun _ hc => ?_⟩
    have := congrArg (fun x => BitVec.getLsbD x (7 - pos % 8)) hc
    simp [hlt] at this
  · rename_i h
    exact ⟨fun hc => absurd rfl hc, fun hc => absurd hc h⟩

theorem isSet_iff :
    isSet mem bm pos = true ↔ (mem (bm + getBucket pos)).toBitVec.getLsbD (7 - pos % 8) = true := by
  rw [isSet, decide_eq_true_iff, and_getBit]

theorem isSet_set : isSet (set mem bm pos) bm q = (decide (q = pos) || isSet mem bm q) := by
  rw [Bool.eq_iff_iff, Bool.or_eq_true, decide_eq_true_iff, isSet_iff, isSet_iff, set]
  by_cases hb : getBucket q = getBucket pos
  · rw [hb, Function.update_self, UInt8.toBitVec_or, getBit_toBitVec, BitVec.getLsbD_or,
      BitVec.getLsbD_twoPow]
    have hiff : q = pos ↔ 7 - pos % 8 = 7 - q % 8 := by
      simp only [getBucket] at hb
      omega
    have hlt : 7 - pos % 8 < 8 := by omega
    rw [hiff]
    simp [or_comm, hlt]
  · have hne : q ≠ pos := fun hc => hb (by rw [hc])
    have hoff : bm + getBucket q ≠ bm + getBucket pos := by omega
    rw [Function.update_of_ne hoff]
    simp [hne]

theorem isSet_reset : isSet (reset mem bm pos) bm q = (!decide (q = pos) && isSet mem bm q) := by
  rw [Bool.eq_iff_iff, Bool.and_eq_true, Bool.not_eq_true', decide_eq_false_iff_not,
    isSet_iff, isSet_iff, reset]
  by_cases hb : getBucket q = getBucket pos
  · rw [hb, Function.update_self, UInt8.toBitVec_and, UInt8.toBitVec_not, getBit_toBitVec, BitVec.getLsbD_and,
      BitVec.getLsbD_not, BitVec.getLsbD_twoPow]
    have hiff : q = pos ↔ 7 - pos % 8 = 7 - q % 8 := by
      simp only [getBucket] at hb
      omega
    have hlt : 7 - q % 8 < 8 := by omega
    rw [hiff]
    simp [and_comm]
    omega
  · have hne : q ≠ pos := fun hc => hb (by rw [hc])
    have hoff : bm + getBucket q ≠ bm + getBucket pos := by omega
    rw [Function.update_of_ne hoff]
    simp [hne]

/-- Stops at the first position that has the bit, or behind the last one. -/
theorem search_spec (mem : Memory) (bm : Nat) (bit : Bool) (count i : Nat) :
    i ≤ search mem bm bit count i ∧ search mem bm bit count i ≤ i + count ∧
      (∀ j, i ≤ j → j < search mem bm bit count i → isSet mem bm j ≠ bit) ∧
      (search mem bm bit count i < i + count → isSet mem bm (search mem bm bit count i) = bit) := by
  induction count generalizing i with
  | zero =>
      exact ⟨le_rfl, le_rfl, fun j h1 h2 => absurd h2 (by rw [search]; omega), fun h =>
        absurd h (by rw [search]; omega)⟩
  | succ count iht =>
      rw [search]
      split
      · rename_i h
        exact ⟨le_rfl, by omega, fun j h1 h2 => by omega, fun _ => h⟩
      · rename_i h
        obtain ⟨h1, h2, h3, h4⟩ := iht (i + 1)
        refine ⟨by omega, by omega, fun j hj hlt => ?_, fun hlt => h4 (by omega)⟩
        rcases Nat.eq_or_lt_of_le hj with rfl | hj
        · exact h
        · exact h3 j hj hlt

theorem firstBit_spec (mem : Memory) (bm : Nat) (bit : Bool) (maxN : Nat) :
    firstBit mem bm bit maxN ≤ maxN ∧ (∀ j, j < firstBit mem bm bit maxN → isSet mem bm j ≠ bit) ∧
    (firstBit mem bm bit maxN < maxN → isSet mem bm (firstBit mem bm bit maxN) = bit) := by
  have h := search_spec mem bm bit maxN 0
  simp only [Nat.zero_add] at h
  have heq : firstBit mem bm bit maxN = search mem bm bit maxN 0 := by simp [firstBit, nextBit]
  rw [heq]
  exact ⟨h.2.1, fun j hj => h.2.2.1 j (Nat.zero_le _) hj, h.2.2.2⟩

def count (mem : Memory) (bm maxN : Nat) : Nat := (List.range maxN).countP (fun i => isSet mem bm i)

theorem count_le : count mem bm maxN ≤ maxN := by
  have := List.countP_le_length (p := fun i => isSet mem bm i) (l := List.range maxN)
  rwa [List.length_range] at this

theorem firstBit_false_lt : firstBit mem bm false maxN < maxN ↔ count mem bm maxN < maxN := by
  obtain ⟨hle, hbefore, hat⟩ := firstBit_spec mem bm false maxN
  constructor
  · intro hlt
    by_contra hc
    have heq : (List.range maxN).countP (fun i => isSet mem bm i) = (List.range maxN).length := by
      rw [List.length_range]
      exact le_antisymm count_le (not_lt.1 hc)
    have hall := List.countP_eq_length.1 heq _ (List.mem_range.2 hlt)
    rw [hat hlt] at hall
    cases hall
  · intro hlt
    by_contra hc
    have heq : firstBit mem bm false maxN = maxN := le_antisymm hle (not_lt.1 hc)
    have hall : (List.range maxN).countP (fun i => isSet mem bm i) = (List.range maxN).length :=
      List.countP_eq_length.2 fun i hi => by
        have := hbefore i (by rw [heq]; exact List.mem_range.1 hi)
        simpa using this
    rw [count, hall, List.length_range] at hlt
    exact lt_irrefl _ hlt

theorem countP_insert {l : List Nat} {c c' : Nat → Bool} (hnd : l.Nodup) (hin : pos ∈ l)
    (hpos : c pos = false) (hpos' : c' pos = true) (hother : ∀ i ∈ l, i ≠ pos → c' i = c i) :
    l.countP c' = l.countP c + 1 := by
  induction l with
  | nil => cases hin
  | cons i l iht =>
      obtain ⟨hnot, hnd⟩ := List.nodup_cons.1 hnd
      rw [List.countP_cons, List.countP_cons]
      rcases List.mem_cons.1 hin with rfl | hin
      · have hsame : l.countP c' = l.countP c := by
          refine List.countP_congr fun j hj => ?_
          have hne : j ≠ pos := by
            rintro rfl
            exact hnot hj
          rw [hother j (List.mem_cons_of_mem _ hj) hne]
        rw [hsame, hpos, hpos']
        simp
      · have hne : i ≠ pos := by
          rintro rfl
          exact hnot hin
        rw [iht hnd hin fun j hj => hother j (List.mem_cons_of_mem _ hj), hother i List.mem_cons_self hne]
        omega

theorem count_set (hlt : pos < maxN) (hfree : isSet mem bm pos = false) :
    count (set mem bm pos) bm maxN = count mem bm maxN + 1 := by
  refine countP_insert List.nodup_range (List.mem_range.2 hlt) hfree ?_ fun i _ hne => ?_
  · rw [isSet_set]
    simp
  · rw [isSet_set]
    simp [hne]

theorem count_reset (hlt : pos < maxN) (hset : isSet mem bm pos = true) :
    count mem bm maxN = count (reset mem bm pos) bm maxN + 1 := by
  refine countP_insert List.nodup_range (List.mem_range.2 hlt) ?_ hset fun i _ hne => ?_
  · rw [isSet_reset]
    simp
  · rw [isSet_reset]
    simp [hne]

end Rmdb.Bitmap
