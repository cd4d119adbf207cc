import Rmdb.Lib.Trace
import Rmdb.Recovery.LogBuffer

namespace Rmdb

structure PersistLog where
  log : ByteLog
  persistLsn : Option Int32

namespace PersistLog

open LogCall

variable (m : PersistLog) (r : LogImage)

def init : PersistLog := ⟨ByteLog.init, none⟩

def addLogToBuffer : PersistLog where
  log := m.log.addLogToBuffer r
  -- read after the record has taken its number
  persistLsn := if m.log.logBuffer.isFull r.entry.logTotLen.toNat
    then some (m.log.globalLsn + 1 - 1) else m.persistLsn

def flushLogToDisk : PersistLog := ⟨m.log.flushLogToDisk, some (m.log.globalLsn - 1)⟩

def addStaticCkpt : PersistLog := ⟨m.log.addStaticCkpt r, some (m.log.globalLsn + 1 - 1)⟩

def call (m : PersistLog) : LogCall → PersistLog
  | .addLogToBuffer r => m.addLogToBuffer r
  | .flushLogToDisk => m.flushLogToDisk
  | .addStaticCkpt r => m.addStaticCkpt r

def run (calls : List LogCall) : PersistLog := calls.foldl call init

/-- Every record numbered up to `persist_lsn_` is in the log file to its last byte. -/
def Truthful (rs : List LogImage) (m : PersistLog) : Prop :=
  ∀ (i : Nat) (r : LogImage), rs[i]? = some r → ∀ p ∈ m.persistLsn, r.lsn.toInt ≤ p.toInt →
    imageBytes (rs.take (i + 1)) <+: m.log.log

def StaysBuffered (m : PersistLog) : LogCall → Prop
  | .addLogToBuffer r => m.log.logBuffer.isFull r.entry.logTotLen.toNat = false ∧
      ∀ p ∈ m.persistLsn, p.toInt < m.log.globalLsn.toInt
  | .flushLogToDisk | .addStaticCkpt _ => True

instance (m : PersistLog) : (c : LogCall) → Decidable (m.StaysBuffered c)
  | .addLogToBuffer _ =>
      -- by the one value there is: `Int32` is also finite
      have : Decidable (∀ p ∈ m.persistLsn, p.toInt < m.log.globalLsn.toInt) := Option.decidableForallMem ..
      instDecidableAnd
  | .flushLogToDisk | .addStaticCkpt _ => .isTrue trivial

variable {m : PersistLog} {rs : List LogImage} {r : LogImage} {calls : List LogCall}

theorem run_snoc (c : LogCall) : run (calls ++ [c]) = (run calls).call c := List.foldl_concat ..

theorem call_log (c : LogCall) : (m.call c).log = m.log.call c := by cases c <;> rfl

theorem run_log : (run calls).log = ByteLog.run calls := by
  induction calls using List.reverseRecOn with
  | nil => rfl
  | append_singleton calls c ih => rw [run_snoc, call_log, ih, ByteLog.run_snoc]

theorem truthful_of_written (h : m.log.log = imageBytes rs) : Truthful rs m := by
  intro i r hr p hp hle
  rw [h]
  exact (List.take_prefix (i + 1) rs).flatMap _

/-- A record that comes last and is not written yet must be numbered above `persist_lsn_`. -/
theorem truthful_snoc (h : m.log.log <+: imageBytes rs) :
    Truthful (rs ++ [r]) m ↔ Truthful rs m ∧ ∀ p ∈ m.persistLsn, p.toInt < r.lsn.toInt := by
  have hunwritten : ¬ imageBytes (rs ++ [r]) <+: m.log.log := by
    intro hwritten
    have hlen := hwritten.length_le.trans h.length_le
    rw [ByteLog.imageBytes_snoc, List.length_append, LogImage.bytes, List.length_append,
      LogHeader.bytes_length] at hlen
    omega
  constructor
  · intro htruth
    refine ⟨fun i r' hr' p hp hle => ?_, fun p hp => ?_⟩
    · have hi : i < rs.length := (List.getElem?_eq_some_iff.1 hr').1
      have hwritten := htruth i r' (by rw [List.getElem?_append_left hi, hr']) p hp hle
      rwa [List.take_append_of_le_length hi] at hwritten
    · refine not_le.1 fun hle => hunwritten ?_
      have hwritten := htruth rs.length r List.getElem?_concat_length p hp hle
      rwa [List.take_of_length_le (by simp)] at hwritten
  · rintro ⟨htruth, hlast⟩ i r' hr' p hp hle
    rcases lt_or_ge i rs.length with hi | hi
    · rw [List.getElem?_append_left hi] at hr'
      rw [List.take_append_of_le_length hi]
      exact htruth i r' hr' p hp hle
    · have hi' : i < (rs ++ [r]).length := (List.getElem?_eq_some_iff.1 hr').1
      obtain rfl : i = rs.length := by simp at hi'; omega
      cases List.getElem?_concat_length.symm.trans hr'
      exact absurd (hlast p hp) (not_lt.2 hle)

variable (hinv : ByteLog.Inv rs m.log)

include hinv

/-- The full buffer is written and the record stays behind, under the number that `persist_lsn_` now holds. -/
theorem full_not_truthful (hfull : m.log.logBuffer.isFull r.entry.logTotLen.toNat = true) :
    ¬ Truthful (rs ++ [{ r with lsn := Int32.ofNat rs.length }]) (m.addLogToBuffer r) := by
  have hpersist : (m.addLogToBuffer r).persistLsn = some (Int32.ofNat rs.length) := by
    rw [addLogToBuffer]
    simp only [hfull, if_true, Int32.add_sub_cancel, hinv.lsn]
  have hlog : (m.addLogToBuffer r).log.log = imageBytes rs := by
    rw [← hinv.writeLog.2, addLogToBuffer, ByteLog.addLogToBuffer]
    simp only [hfull, if_true]
    rfl
  rw [truthful_snoc (hlog ▸ List.prefix_rfl)]
  exact fun hboth => absurd (hboth.2 _ hpersist) (lt_irrefl _)

theorem addLogToBuffer_truthful_iff (h : Truthful rs m) :
    Truthful (rs ++ [{ r with lsn := Int32.ofNat rs.length }]) (m.addLogToBuffer r) ↔
    m.StaysBuffered (.addLogToBuffer r) := by
  have hlsn : m.log.globalLsn = Int32.ofNat rs.length := hinv.lsn
  cases hfull : m.log.logBuffer.isFull r.entry.logTotLen.toNat with
  | true =>
      exact iff_of_false (full_not_truthful hinv hfull) fun hbuffered => by
        cases hfull.symm.trans hbuffered.1
  | false =>
      have hpersist : (m.addLogToBuffer r).persistLsn = m.persistLsn := by
        rw [addLogToBuffer]
        simp only [hfull, Bool.false_eq_true, if_false]
      have hlog : (m.addLogToBuffer r).log.log = m.log.log := by
        rw [addLogToBuffer, ByteLog.addLogToBuffer]
        simp only [hfull, Bool.false_eq_true, if_false]
      have hprefix : m.log.log <+: imageBytes rs := ⟨_, hinv.bytes⟩
      have hsame : Truthful rs (m.addLogToBuffer r) := by
        rw [Truthful, hpersist, hlog]
        exact h
      rw [truthful_snoc (hlog ▸ hprefix), hpersist, ← hlsn]
      exact ⟨fun hboth => ⟨hfull, hboth.2⟩, fun hbuffered => ⟨hsame, hbuffered.2⟩⟩

omit hinv

theorem call_truthful_iff {c : LogCall} (hadm : ∀ c' ∈ calls ++ [c], c'.Admissible)
    (h : Truthful (numbered calls) (run calls)) :
    Truthful (numbered (calls ++ [c])) (run (calls ++ [c])) ↔ (run calls).StaysBuffered c := by
  have hinv : ByteLog.Inv (numbered calls) (run calls).log := by
    rw [run_log]
    exact ByteLog.inv_run fun c' hc' => hadm c' (List.mem_append_left _ hc')
  have hc : c.Admissible := hadm c (by simp)
  rw [run_snoc]
  cases c with
  | addLogToBuffer r =>
      rw [ByteLog.numbered_snoc rfl]
      exact addLogToBuffer_truthful_iff hinv h
  | flushLogToDisk =>
      rw [ByteLog.numbered_flush]
      exact iff_of_true (truthful_of_written hinv.writeLog.2) trivial
  | addStaticCkpt r =>
      rw [ByteLog.numbered_snoc rfl]
      exact iff_of_true (truthful_of_written (hinv.addStaticCkpt (hc r rfl)).2.1) trivial

/-- Every record numbered up to `persist_lsn_` is in the log file after each call, exactly while
no added record finds the buffer full or takes a number that `persist_lsn_` has passed. -/
theorem persistLsn_truthful_iff (calls : List LogCall) (h : ∀ c ∈ calls, c.Admissible) :
    (∀ before, before <+: calls → Truthful (numbered before) (run before)) ↔
      Trace.Guarded (fun m c => some (call m c)) StaysBuffered init calls := by
  refine Trace.forall_prefix_iff_guarded (fun i r hr => by cases hr) fun before c hpre htruth => ?_
  exact call_truthful_iff (fun c' hc' => h c' (hpre.subset hc')) htruth

theorem persistLsn_truthful_checkpoint : (∀ c ∈ ByteLog.checkpointCalls, c.Admissible) ∧
    ∀ before, before <+: ByteLog.checkpointCalls → Truthful (numbered before) (run before) := by
  have hadm : ∀ c ∈ ByteLog.checkpointCalls, c.Admissible := by decide
  exact ⟨hadm, (persistLsn_truthful_iff _ hadm).2 (by decide)⟩

def begins (n : Nat) : List LogCall := List.replicate n (.addLogToBuffer ⟨-1, 0, -1, .begin⟩)

theorem begins_admissible (n : Nat) : ∀ c ∈ begins n, c.Admissible := by
  intro c hc
  rw [(List.mem_replicate.1 hc).2]
  decide

theorem begins_succ (n : Nat) : begins (n + 1) = begins n ++ [.addLogToBuffer ⟨-1, 0, -1, .begin⟩] :=
  List.replicate_succ'

theorem begins_offset {n : Nat} (hn : 20 * n ≤ logBufferSize) :
    (ByteLog.run (begins n)).logBuffer.offset = 20 * n := by
  induction n with
  | zero => rfl
  | succ n ih =>
      have hoffset := ih (by omega)
      have hroom : ¬ logBufferSize < 20 * n + 20 := by omega
      rw [begins_succ, ByteLog.run_snoc]
      change (ByteLog.addLogToBuffer _ _).logBuffer.offset = _
      rw [ByteLog.addLogToBuffer, show (LogImage.mk (-1) 0 (-1) .begin).entry.logTotLen.toNat = 20 from rfl]
      simp only [LogBuffer.isFull, hoffset, hroom, decide_false, Bool.false_eq_true, if_false]
      rfl

/-- The begin record that the buffer has no room for. -/
theorem begins_not_truthful {n : Nat} (hn : 20 * n ≤ logBufferSize) (hfull : logBufferSize < 20 * n + 20) :
    ¬ Truthful (numbered (begins (n + 1))) (run (begins (n + 1))) := by
  have hinv : ByteLog.Inv (numbered (begins n)) (run (begins n)).log := by
    rw [run_log]
    exact ByteLog.inv_run (begins_admissible n)
  rw [begins_succ, run_snoc, ByteLog.numbered_snoc rfl]
  refine full_not_truthful hinv ?_
  rw [run_log, LogBuffer.isFull, begins_offset hn]
  exact decide_eq_true hfull

/-- The buffer takes 209715 begin records; the next one writes them out and is itself left in the buffer. -/
theorem begin_not_written : (∀ c ∈ begins (209715 + 1), c.Admissible) ∧
    ¬ Truthful (numbered (begins (209715 + 1))) (run (begins (209715 + 1))) := by
  have hsize : 20 * 209715 ≤ logBufferSize ∧ logBufferSize < 20 * 209715 + 20 := by decide
  exact ⟨begins_admissible _, begins_not_truthful hsize.1 hsize.2⟩

end PersistLog

end Rmdb
