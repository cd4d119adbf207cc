import Rmdb.Record.RecordMap

namespace Rmdb

open Bitmap (Memory)

def StandsAt (src : Memory) (a : Nat) (bs : Bytes) : Prop := bytesAt src a bs.length = bs

variable {mem src : Memory} {a k n : Nat} {b c bs : Bytes}

theorem bytesAt_getElem? {i : Nat} (h : i < n) : (bytesAt src a n)[i]? = some (src (a + i)) := by
  simp [bytesAt, h]

theorem standsAt_iff : StandsAt src a bs ↔ ∀ i, (h : i < bs.length) → src (a + i) = bs[i] := by
  constructor
  · intro h i hi
    have hget : (bytesAt src a _)[_]? = some (src (a + _)) := bytesAt_getElem? hi
    rw [h, List.getElem?_eq_getElem hi] at hget
    exact (Option.some.inj hget).symm
  · intro h
    refine List.ext_getElem (by simp [bytesAt]) fun i hi hi' => ?_
    rw [← h i hi']
    simp [bytesAt]

theorem standsAt_append : StandsAt src a (b ++ c) ↔ StandsAt src a b ∧ StandsAt src (a + b.length) c := by
  simp only [standsAt_iff, List.length_append]
  constructor
  · intro h
    refine ⟨fun i hi => ?_, fun i hi => ?_⟩
    · rw [h i (by omega), List.getElem_append_left hi]
    · rw [Nat.add_assoc, h (b.length + i) (by omega), List.getElem_append_right (by omega)]
      simp
  · rintro ⟨hb, hc⟩ i hi
    by_cases hlt : i < b.length
    · rw [List.getElem_append_left hlt]
      exact hb i hlt
    · rw [List.getElem_append_right (not_lt.1 hlt), ← hc (i - b.length) (by omega)]
      congr 1
      omega

theorem StandsAt.congr {src' : Memory} (h : StandsAt src a bs)
    (hsrc : ∀ x, a ≤ x → x < a + bs.length → src' x = src x) :
    StandsAt src' a bs := by
  rw [StandsAt, bytesAt_congr hsrc]
  exact h

theorem memcpy_memcpy (hn : b.length = n) :
    memcpy (memcpy mem a b n) (a + n) c k = memcpy mem a (b ++ c) (n + k) := by
  funext x
  simp only [memcpy, List.getD_eq_getElem?_getD]
  by_cases hb : a ≤ x ∧ x < a + n
  · rw [if_neg (by omega), if_pos hb, if_pos (by omega), List.getElem?_append_left (by omega)]
  · by_cases hc : a + n ≤ x ∧ x < a + n + k
    · rw [if_pos hc, if_pos (by omega), List.getElem?_append_right (by omega), hn, Nat.sub_sub]
    · rw [if_neg hc, if_neg hb, if_neg (by omega)]

theorem memcpy_zero_append (mem : Memory) (c : Bytes) (k : Nat) (hn : b.length = n) :
    memcpy (memcpy mem 0 b n) n c k = memcpy mem 0 (b ++ c) (n + k) := by
  rw [← memcpy_memcpy hn, Nat.zero_add]

theorem standsAt_memcpy (hn : bs.length = n) : StandsAt (memcpy mem a bs n) a bs := by
  rw [StandsAt, hn]
  exact bytesAt_memcpy hn

theorem bytesAt_add (mem : Memory) (a n k : Nat) :
    bytesAt mem a (n + k) = bytesAt mem a n ++ bytesAt mem (a + n) k := by
  rw [bytesAt, bytesAt, bytesAt, List.range_add, List.map_append, List.map_map]
  simp only [Function.comp_def, Nat.add_assoc]

end Rmdb
