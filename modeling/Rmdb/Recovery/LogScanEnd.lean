import Mathlib.Data.List.GetD
import Rmdb.Lib.Orbit
import Rmdb.Recovery.LogScan

namespace Rmdb.LogScan

open Orbit Relation

variable (file : Bytes) (s : LogScan)

def follow (i : Int) : Option Int :=
  let s := { s with bufOffset := i }
  if s.bufferSize < int32 (i + 20) then none
  else match s.header with
    | .error _ => none
    | .ok base =>
        if uint32 s.bufferSize < uint32 (i + base.logTotLen.toNat) then none
        else match s.decode base with
          | .error _ => none
          | .ok _ => some (int32 (i + base.logTotLen.toNat))

/-- The lengths of the records, added as `int`s, lead from the header to the same header, with all
these records whole in the buffer: a length of 0, or some that come to a multiple of 2^32. -/
def LeadsBack : Prop := TransGen (Leads s.follow) s.bufOffset s.bufOffset

inductive Reached (offset : Int) : LogScan → Prop
  | start {s : LogScan} (h : start file offset = .ok s) : Reached offset s
  | iterate {s s' : LogScan} (h : Reached offset s) (hs : s.iterate file = .ok (some s')) : Reached offset s'

section Endless

variable {file s} {s' : LogScan} {i j : Int}

theorem iterate_of_follow (h : s.follow s.bufOffset = some j) :
    ∃ s', s.iterate file = .ok (some s') ∧ s'.bufOffset = j ∧ s'.buffer = s.buffer ∧
      s'.bufferSize = s.bufferSize := by
  rw [follow] at h
  split at h
  · cases h
  · rename_i hhead
    split at h
    · cases h
    · rename_i base hbase
      split at h
      · cases h
      · rename_i hbody
        split at h
        · cases h
        · rename_i r hr
          cases h
          refine ⟨s.advance base.logTotLen.toNat r, ?_, rfl, rfl, rfl⟩
          change s.header = .ok base at hbase
          change s.decode base = .ok r at hr
          rw [iterate, fillHeader, if_neg hhead]
          simp only [hbase]
          rw [fillBody, if_neg hbody]
          simp only [hr]

theorem follow_congr (hbuf : s'.buffer = s.buffer) (hsize : s'.bufferSize = s.bufferSize) :
    s'.follow = s.follow := by
  cases s
  cases s'
  cases hbuf
  cases hsize
  rfl

theorem scan_none (h : GoesRound s.follow s.bufOffset) (fuel : Nat) : s.scan file fuel = none := by
  induction fuel generalizing s with
  | zero => rfl
  | succ fuel ih =>
      obtain ⟨j, hj, hround⟩ := h.next
      obtain ⟨s', hs', hoff, hbuf, hsize⟩ := iterate_of_follow hj
      rw [scan, hs']
      refine ih (s := s') ?_
      rw [follow_congr hbuf hsize, hoff]
      exact hround

theorem Reached.follow {offset : Int} (h : Reached file offset s)
    (hi : ReflTransGen (Leads s.follow) s.bufOffset i) :
    ∃ s', Reached file offset s' ∧ s'.bufOffset = i ∧ s'.follow = s.follow := by
  induction hi with
  | refl => exact ⟨s, h, rfl, rfl⟩
  | tail _ hij ih =>
      obtain ⟨s₁, h₁, rfl, hfollow⟩ := ih
      rw [← hfollow] at hij
      obtain ⟨s₂, hs₂, hoff, hbuf, hsize⟩ := iterate_of_follow hij
      exact ⟨s₂, h₁.iterate hs₂, hoff, (follow_congr hbuf hsize).trans hfollow⟩

theorem Reached.scanLog_none {offset : Int} (h : Reached file offset s)
    (hnone : ∀ fuel, s.scan file fuel = none) (fuel : Nat) :
    scanLog file fuel offset = none := by
  induction h generalizing fuel with
  | start h =>
      rw [scanLog, h]
      exact hnone fuel
  | iterate _ hs ih =>
      refine ih (fun fuel => ?_) fuel
      cases fuel with
      | zero => rfl
      | succ fuel =>
          rw [scan, hs]
          exact hnone fuel

end Endless

section Ends

structure Filled (file : Bytes) (s : LogScan) : Prop where
  low : 0 ≤ s.bufOffset
  high : s.bufOffset ≤ s.bufferSize
  size : s.bufferSize ≤ 4194304
  base : -2147483648 ≤ s.offset - s.bufOffset
  whole : 0 ≤ s.offset - s.bufOffset →
    s.bufferSize = min 4194304 (int32 file.length - (s.offset - s.bufOffset))

def Tame (file : Bytes) (s : LogScan) : Prop := FitsInt s.offset ∧ (s.bufferSize = -1 ∨ Filled file s)

/-- Every refill after which the loop goes on makes it smaller: the buffer begins further behind
in the file, or, at an offset below zero, the descriptor has moved on. -/
def rank (file : Bytes) (s : LogScan) : Nat :=
  if s.bufferSize < 0 then 2147483648 + 2 * (file.length - s.pos)
  else if 0 ≤ s.offset - s.bufOffset then (int32 file.length - (s.offset - s.bufOffset)).toNat
  else 2147483648 + 2 * (file.length - s.pos) + 1

variable {file : Bytes} {s s' : LogScan} {n : Nat}

theorem readLogBytes_cases {pos pos' : Nat} {offset m : Int} {data : Bytes} (hoff : FitsInt offset)
    (h : readLogBytes file pos logBufferSize offset = .ok (m, data, pos')) :
    (m = -1 ∧ pos' = pos ∨ m = 0 ∧ pos' = pos ∨
      0 < m ∧ m ≤ 4194304 ∧ (offset < 0 → (pos' : Int) = pos + m ∧ pos' ≤ file.length)) ∧
      (0 ≤ offset → m = -1 ∧ int32 file.length < offset ∨ m = min 4194304 (int32 file.length - offset)) := by
  obtain ⟨-, hmax⟩ := int32_le_length file
  obtain ⟨hlo, -⟩ := hoff
  have hdiff : 0 ≤ offset → ¬int32 file.length < offset →
      int32 (int32 file.length - offset) = int32 file.length - offset :=
    fun h0 hle => int32_of_fits ⟨by omega, by omega⟩
  rw [readLogBytes] at h
  generalize int32 file.length = w at *
  generalize int32 (w - offset) = d at *
  have hbuf : (logBufferSize : Int) = 4194304 := rfl
  rw [hbuf] at h
  simp only at h
  split at h
  · rename_i hbehind
    cases h
    exact ⟨.inl ⟨rfl, rfl⟩, fun _ => .inl ⟨rfl, hbehind⟩⟩
  · rename_i hle
    split at h
    · rename_i hzero
      cases h
      exact ⟨.inr (.inl ⟨rfl, rfl⟩), fun h0 => .inr (by rw [← hdiff h0 hle]; exact hzero.symm)⟩
    · rename_i hzero
      by_cases hneg : min 4194304 d < 0
      · -- a size below zero: the read fails
        rw [if_pos hneg, Int.toNat_of_nonpos hneg.le, List.take_zero] at h
        split at h
        · cases h
          have h0 : offset < 0 := by
            by_contra h0
            have := hdiff (not_lt.1 h0) hle
            omega
          rw [if_pos h0]
          exact ⟨.inl ⟨rfl, rfl⟩, fun h => absurd h0 (not_lt.2 h)⟩
        · cases h
      · rw [if_neg hneg] at h
        generalize hp : (if offset < 0 then pos else offset.toNat) = p at h
        split at h
        · rename_i hcount
          cases h
          refine ⟨.inr (.inr ⟨by omega, by omega, fun h0 => ?_⟩), fun h0 => .inr ?_⟩
          · rw [if_pos h0] at hp
            have hdrop := List.length_take_le' (min 4194304 d).toNat (file.drop p)
            rw [List.length_drop] at hdrop
            constructor <;> omega
          · rw [hcount, hdiff h0 hle]
        · cases h

/-- A refill after which the loop can go on: something has been read, and not what the buffer
holds already. -/
theorem refill (h : Tame file s) (hread : s.read file = .ok s') :
    Tame file { s' with bufOffset := 0 } ∧ (s'.bufferSize ≠ 0 → (s.bufferSize = -1 → 0 < s'.bufferSize) →
      (s.bufOffset = 0 → s.bufferSize ≠ -1 → s'.bufferSize ≠ s.bufferSize) →
        rank file { s' with bufOffset := 0 } < rank file s) := by
  obtain ⟨hoff, hstate⟩ := h
  rw [read] at hread
  split at hread
  · cases hread
  · rename_i m data pos' hbytes
    cases hread
    obtain ⟨hcases, hwhole⟩ := readLogBytes_cases hoff hbytes
    have hmax := (int32_le_length file).2
    have hlow := hoff.1
    generalize hw : int32 file.length = w at hwhole hmax
    constructor
    · refine ⟨hoff, ?_⟩
      rcases hcases with ⟨rfl, -⟩ | hm
      · exact .inl rfl
      · have hm' : 0 ≤ m ∧ m ≤ 4194304 := by omega
        refine .inr ⟨le_rfl, hm'.1, hm'.2, ?_, ?_⟩
        · simp only [sub_zero]
          exact hlow
        · simp only [sub_zero, hw]
          intro h0
          exact (hwhole h0).resolve_left (by omega)
    · intro hne hwild hmoved
      simp only at hne hwild hmoved
      rw [rank, rank]
      simp only [sub_zero, hw]
      rcases hstate with hneg | ⟨hlow', hhigh, hsize, hbase, hfull⟩
      · have hm := hwild hneg
        have hpos := (hcases.resolve_left (by omega)).resolve_left (by omega)
        clear hcases hwild hmoved
        rw [if_neg (not_lt.2 hm.le), hneg, if_pos (by decide : (-1 : Int) < 0)]
        by_cases h0 : 0 ≤ s.offset
        · rw [if_pos h0]
          clear hwhole hpos
          omega
        · obtain ⟨hread, hlen⟩ := hpos.2.2 (not_le.1 h0)
          clear hwhole hpos
          rw [if_neg h0]
          omega
      · rw [if_neg (not_lt.2 (hlow'.trans hhigh))]
        rw [hw] at hfull
        by_cases hfrom : 0 ≤ s.offset - s.bufOffset
        · have hsame := hfull hfrom
          have h0 : 0 ≤ s.offset := hlow'.trans (sub_nonneg.1 hfrom)
          have hin : s.offset ≤ w := by
            clear hcases hwhole hwild hmoved hfull
            omega
          have hm := (hwhole h0).resolve_left fun hend => absurd hend.2 (not_lt.2 hin)
          have hpos : s.bufOffset ≠ 0 := fun hzero =>
            hmoved hzero (by omega) (by rw [hm, hsame, hzero, sub_zero])
          clear hcases hwhole hwild hmoved hfull
          rw [if_neg (by omega : ¬m < 0), if_pos h0, if_pos hfrom]
          omega
        · clear hwhole hwild hmoved hfull
          rw [if_neg hfrom]
          split
          · omega
          · split <;> omega

theorem Filled.sum20 (h : Filled file s) : int32 (s.bufOffset + 20) = s.bufOffset + 20 :=
  int32_of_fits (by
    obtain ⟨hlow, hhigh, hsize, -⟩ := h
    constructor <;> omega)

theorem fillHeader_step (h : Tame file s) (hs : s.fillHeader file = .ok (some s')) :
    s' = s ∧ int32 (s.bufOffset + 20) ≤ s.bufferSize ∨ Tame file s' ∧ rank file s' < rank file s := by
  rw [fillHeader] at hs
  split at hs
  · rename_i hcut
    cases hread : s.read file with
    | error e =>
        rw [hread] at hs
        cases hs
    | ok t =>
        rw [hread] at hs
        simp only at hs
        split at hs
        · cases hs
        · rename_i hlong
          cases hs
          obtain ⟨htame, hrank⟩ := refill h hread
          refine .inr ⟨htame, hrank (by omega) (fun _ => by omega) fun hzero hne => ?_⟩
          have hsum := (h.2.resolve_left hne).sum20
          omega
  · rename_i hcut
    cases hs
    exact .inl ⟨rfl, not_lt.1 hcut⟩

theorem fillBody_step (h : Tame file s) (hs : s.fillBody file n = .ok (some s')) :
    uint32 (s'.bufOffset + n) ≤ uint32 s'.bufferSize ∧
    (s' = s ∨ Tame file s' ∧ rank file s' < rank file s) := by
  have hall : ∀ x : Int, 0 ≤ uint32 x ∧ uint32 x ≤ uint32 (-1) := fun x => by
    rw [uint32, uint32]
    omega
  rw [fillBody] at hs
  split at hs
  · rename_i hcut
    have hne : s.bufferSize ≠ -1 := fun hneg => by
      rw [hneg] at hcut
      exact absurd (hall (s.bufOffset + n)).2 (not_le.2 hcut)
    cases hread : s.read file with
    | error e =>
        rw [hread] at hs
        cases hs
    | ok t =>
        rw [hread] at hs
        simp only at hs
        split at hs
        · cases hs
        · rename_i hlong
          cases hs
          obtain ⟨htame, hrank⟩ := refill h hread
          have hsmall : uint32 n ≤ n := by
            rw [uint32]
            omega
          refine ⟨?_, .inr ⟨htame, hrank ?_ (fun hneg => absurd hneg hne) fun hzero _ hsame => ?_⟩⟩
          · simp only [zero_add]
            omega
          · intro hnone
            obtain ⟨hlow, hhigh, hsize, -⟩ := h.2.resolve_left hne
            rw [hnone, uint32] at hlong
            rw [uint32, uint32] at hcut
            omega
          · rw [hzero, zero_add] at hcut
            rw [hsame] at hlong
            omega
  · rename_i hcut
    cases hs
    exact ⟨not_lt.1 hcut, .inl rfl⟩

theorem advance_step {r : LogRecord} (h : Tame file s) (hn : n < 4294967296)
    (hroom : uint32 (s.bufOffset + n) ≤ uint32 s.bufferSize) :
    Tame file (s.advance n r) ∧ rank file (s.advance n r) = rank file s := by
  have hfits : FitsInt (int32 (s.offset + n)) := by
    rw [int32]
    constructor <;> omega
  obtain ⟨hoff, hneg | hfilled⟩ := h
  · refine ⟨⟨hfits, .inl hneg⟩, ?_⟩
    rw [rank, rank, advance]
    simp only [hneg, if_pos (by decide : (-1 : Int) < 0)]
  · obtain ⟨hlow, hhigh, hsize, hbase, hwhole⟩ := hfilled
    obtain ⟨-, hmax⟩ := int32_le_length file
    have hbuf : 0 ≤ int32 (s.bufOffset + n) ∧ int32 (s.bufOffset + n) ≤ s.bufferSize := by
      rw [uint32, uint32] at hroom
      rw [int32]
      omega
    -- the place in the file where the buffer begins stays the same
    have hsame : int32 (s.offset + n) - int32 (s.bufOffset + n) = s.offset - s.bufOffset := by
      generalize int32 file.length = w at *
      rw [int32] at hbuf
      rw [int32, int32]
      omega
    refine ⟨⟨hfits, .inr ⟨hbuf.1, hbuf.2, hsize, ?_, ?_⟩⟩, ?_⟩
    · rw [advance]
      simp only [hsame]
      exact hbase
    · rw [advance]
      simp only [hsame]
      exact hwhole
    · rw [rank, rank, advance]
      simp only [hsame]

/-- An iteration either fills the buffer or goes on to where the record leads. -/
theorem iterate_step (h : Tame file s) (hs : s.iterate file = .ok (some s')) :
    Tame file s' ∧ (rank file s' < rank file s ∨
    rank file s' = rank file s ∧ s'.follow = s.follow ∧ s.follow s.bufOffset = some s'.bufOffset) := by
  rw [iterate] at hs
  split at hs
  · cases hs
  · cases hs
  · rename_i s₁ hhead
    split at hs
    · cases hs
    · rename_i base hbase
      split at hs
      · cases hs
      · cases hs
      · rename_i s₂ hbody
        split at hs
        · cases hs
        · rename_i r hr
          cases hs
          have hlen : base.logTotLen.toNat < 4294967296 := base.logTotLen.toNat_lt
          have hhead' := fillHeader_step h hhead
          have h₁ : Tame file s₁ := by
            rcases hhead' with ⟨rfl, -⟩ | ⟨h₁, -⟩
            · exact h
            · exact h₁
          obtain ⟨hroom, hbody'⟩ := fillBody_step h₁ hbody
          have h₂ : Tame file s₂ := by
            rcases hbody' with rfl | ⟨h₂, -⟩
            · exact h₁
            · exact h₂
          obtain ⟨htame, hrank⟩ := advance_step (r := r) h₂ hlen hroom
          refine ⟨htame, ?_⟩
          rw [hrank]
          rcases hhead' with ⟨rfl, hwhole⟩ | ⟨-, hless⟩
          · rcases hbody' with rfl | ⟨-, hless⟩
            · refine .inr ⟨rfl, follow_congr rfl rfl, ?_⟩
              rw [follow, if_neg (not_lt.2 hwhole), hbase]
              simp only
              rw [if_neg (not_lt.2 hroom), hr]
              rfl
            · exact .inl hless
          · rcases hbody' with rfl | ⟨-, hless'⟩
            · exact .inl hless
            · exact .inl (hless'.trans hless)

theorem tame_start {offset : Int} (hoff : FitsInt offset) (h : start file offset = .ok s) : Tame file s := by
  have hempty : Tame file ⟨fun _ => 0, -1, 0, offset, 0, {}⟩ := ⟨hoff, .inl rfl⟩
  have hread : read file ⟨fun _ => 0, -1, 0, offset, 0, {}⟩ = .ok s := h
  have hbuf : { s with bufOffset := 0 } = s := by
    rw [read] at hread
    split at hread
    · cases hread
    · cases hread
      rfl
  rw [← hbuf]
  exact (refill hempty hread).1

theorem Reached.tame {offset : Int} (hoff : FitsInt offset) (h : Reached file offset s) : Tame file s := by
  induction h with
  | start h => exact tame_start hoff h
  | iterate _ hs ih => exact (iterate_step ih hs).1

theorem follow_mem {i j : Int} (h : s.follow i = some j) : j ∈ Set.Icc (-2147483648) 2147483647 := by
  rw [follow] at h
  split at h
  · cases h
  · split at h
    · cases h
    · split at h
      · cases h
      · split at h
        · cases h
        · cases h
          rw [int32, Set.mem_Icc]
          omega

/-- Without a way round the loop leaves the buffer, and it cannot fill it for ever. -/
theorem Reached.scan_ends {offset : Int} (hoff : FitsInt offset)
    (hround : ∀ s, Reached file offset s → ¬GoesRound s.follow s.bufOffset) (h : Reached file offset s) :
    ∃ fuel x, s.scan file fuel = some x := by
  induction hrank : rank file s using Nat.strong_induction_on generalizing s with
  | _ k ih =>
      have hleaves : ∃ n, after s.follow n s.bufOffset = none := by
        by_contra hall
        refine hround s h (goesRound_of_finite
          ((Set.finite_Icc (-2147483648) 2147483647).insert s.bufOffset) ?_
          (Set.mem_insert _ _) (not_exists.1 hall))
        exact fun _ _ _ hb => Set.mem_insert_of_mem _ (follow_mem hb)
      obtain ⟨n, hn⟩ := hleaves
      induction n generalizing s with
      | zero => cases hn
      | succ n ihn =>
          cases hs : s.iterate file with
          | error e => exact ⟨1, .error e, by rw [scan, hs]⟩
          | ok next =>
              cases next with
              | none => exact ⟨1, .ok s.found, by rw [scan, hs]⟩
              | some s' =>
                  have hends : ∃ fuel x, s'.scan file fuel = some x := by
                    rcases (iterate_step (h.tame hoff) hs).2 with hless | ⟨hsame, hfollow, hleads⟩
                    · exact ih _ (hrank ▸ hless) (h.iterate hs) rfl
                    · refine ihn (h.iterate hs) (hsame.trans hrank) ?_
                      rw [after, hleads, Option.bind_some] at hn
                      rw [hfollow]
                      exact hn
                  obtain ⟨fuel, x, hscan⟩ := hends
                  exact ⟨fuel + 1, x, by rw [scan, hs]; exact hscan⟩

theorem fitsInt_getRestartLog (restart : Bytes) : FitsInt (getRestartLog restart) := by
  rw [getRestartLog]
  split
  · constructor <;> decide
  · exact readInt_range restart

theorem scanLog_ends_iff (file restart : Bytes) :
    (∃ fuel x, scanLog file fuel (getRestartLog restart) = some x) ↔
    ∀ s, Reached file (getRestartLog restart) s → ¬s.LeadsBack := by
  constructor
  · rintro ⟨fuel, x, hscan⟩ s hs hback
    have hnone := hs.scanLog_none (scan_none ⟨s.bufOffset, .refl, hback⟩) fuel
    rw [hscan] at hnone
    cases hnone
  · intro hnot
    have hround : ∀ s, Reached file (getRestartLog restart) s → ¬GoesRound s.follow s.bufOffset := by
      rintro s hs ⟨i, hi, hii⟩
      obtain ⟨s', hs', rfl, hfollow⟩ := hs.follow hi
      rw [← hfollow] at hii
      exact hnot s' hs' hii
    cases hstart : start file (getRestartLog restart) with
    | error e => exact ⟨0, .error e, by rw [scanLog, hstart]⟩
    | ok s =>
        obtain ⟨fuel, x, hscan⟩ := (Reached.start hstart).scan_ends (fitsInt_getRestartLog restart) hround
        exact ⟨fuel, x, by rw [scanLog, hstart]; exact hscan⟩

section Samples

/-- Bytes that the file was extended by and that were never written. -/
def zeroTail : Bytes := List.replicate 20 0

theorem zeroTail_endless : ¬∃ fuel x, scanLog zeroTail fuel (getRestartLog []) = some x := by
  have hstart : start zeroTail (getRestartLog []) = .ok ⟨fun _ => 0, 20, 0, 0, 20, {}⟩ := by
    have hbytes : readLogBytes zeroTail 0 logBufferSize (getRestartLog []) = .ok (20, zeroTail, 20) := by
      have hlen : int32 zeroTail.length = 20 := int32_of_fits (by decide)
      have hdiff : int32 (20 - getRestartLog []) = 20 := int32_of_fits (by decide)
      rw [readLogBytes, hlen, hdiff]
      rfl
    have hzero : memcpy (fun _ => (0 : UInt8)) 0 zeroTail zeroTail.length = fun _ => 0 := by
      funext i
      have hbyte : zeroTail.getD (i - 0) 0 = 0 := by
        rw [zeroTail, List.getD_eq_getElem?_getD, List.getElem?_getD_replicate_default_eq]
      rw [memcpy, hbyte]
      split <;> rfl
    rw [start, read]
    simp only [hbytes, hzero]
    rfl
  have hround : GoesRound (LogScan.follow ⟨fun _ => 0, 20, 0, 0, 20, {}⟩) 0 :=
    ⟨0, .refl, .single (by decide +kernel : LogScan.follow _ 0 = some 0)⟩
  rintro ⟨fuel, x, hscan⟩
  have hnone := (Reached.start hstart).scanLog_none (scan_none hround) fuel
  rw [hscan] at hnone
  cases hnone

end Samples

end Ends

end Rmdb.LogScan
