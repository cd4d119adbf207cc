import Rmdb.Recovery.LogCodec
import Rmdb.Recovery.LogCrash

namespace Rmdb

open Bitmap (Memory)

section Image

variable (r : LogRecord)

def LogRecord.image : LogImage where
  lsn := Int32.ofInt r.lsn
  logTid := Int32.ofInt r.logTid
  prevLsn := Int32.ofInt r.prevLsn
  entry :=
    match r.body with
    | .begin => .begin
    | .commit => .commit
    | .abort => .abort
    | .staticCheckpoint => .staticCheckpoint
    | .write ⟨loc, .put v⟩ =>
        .insert v ⟨Int32.ofInt loc.rid.pageNo, Int32.ofInt loc.rid.slotNo⟩ (nameBytes loc.table)
    | .write ⟨loc, .erase v⟩ =>
        .delete v ⟨Int32.ofInt loc.rid.pageNo, Int32.ofInt loc.rid.slotNo⟩ (nameBytes loc.table)
    | .write ⟨loc, .set before after⟩ =>
        .update before after ⟨Int32.ofInt loc.rid.pageNo, Int32.ofInt loc.rid.slotNo⟩ (nameBytes loc.table)

def DiskRid.loc (rid : DiskRid) (tableName : Bytes) : Loc :=
  ⟨(String.fromUTF8? ⟨tableName.toArray⟩).getD "", ⟨rid.pageNo.toInt, rid.slotNo.toInt⟩⟩

def LogImage.record (r : LogImage) : LogRecord where
  lsn := r.lsn.toInt
  logTid := r.logTid.toInt
  prevLsn := r.prevLsn.toInt
  body :=
    match r.entry with
    | .begin => .begin
    | .commit => .commit
    | .abort => .abort
    | .staticCheckpoint => .staticCheckpoint
    | .insert v rid name => .write ⟨rid.loc name, .put v⟩
    | .delete v rid name => .write ⟨rid.loc name, .erase v⟩
    | .update before after rid name => .write ⟨rid.loc name, .set before after⟩

variable {r} {x : Int} {loc : Loc}

theorem toInt_ofInt (h : FitsInt x) : (Int32.ofInt x).toInt = x :=
  Int32.toInt_ofInt_of_le h.1 (by simpa using h.2)

theorem diskRid_loc (h : loc.Fits) :
    DiskRid.loc ⟨Int32.ofInt loc.rid.pageNo, Int32.ofInt loc.rid.slotNo⟩ (nameBytes loc.table) = loc := by
  rw [DiskRid.loc, readName_nameBytes, toInt_ofInt h.1, toInt_ofInt h.2]
  rfl

theorem image_record (h : r.Fits) : r.image.record = r := by
  obtain ⟨lsn, tid, prev, body⟩ := r
  have hlsn : (Int32.ofInt lsn).toInt = lsn := toInt_ofInt h.lsn
  have htid : (Int32.ofInt tid).toInt = tid := toInt_ofInt h.tid
  have hprev : (Int32.ofInt prev).toInt = prev := toInt_ofInt h.prev
  rw [LogImage.record]
  simp only [LogRecord.image, hlsn, htid, hprev]
  cases body with
  | begin | commit | abort | staticCheckpoint => rfl
  | write w =>
      have hloc : w.loc.Fits := h.loc w rfl
      obtain ⟨loc, _ | _ | _⟩ := w <;> simp only [diskRid_loc hloc]

theorem placeBytes_locBytes (hname : (nameBytes loc.table).length < 4294967296) :
    placeBytes ⟨Int32.ofInt loc.rid.pageNo, Int32.ofInt loc.rid.slotNo⟩ (nameBytes loc.table) =
      locBytes loc := by
  rw [placeBytes, DiskRid.bytes, sizeBytes, Nat.mod_eq_of_lt hname, Nat.div_eq_of_lt hname, locBytes]
  simp only [List.append_assoc]
  rfl

theorem image_bytes_length : r.image.bytes.length = r.totLen := by
  rw [LogImage.bytes, List.length_append, LogHeader.bytes_length, data_length]
  obtain ⟨lsn, tid, prev, body⟩ := r
  rcases body with _ | _ | _ | _ | ⟨loc, _ | _ | _⟩ <;>
    simp only [LogRecord.image, LogEntry.bytes, LogRecord.data, List.length_append, List.length_nil,
      placeBytes_length, nameBytes_length, locBytes_length] <;> omega

theorem image_logTotLen (h : r.totLen ≤ logBufferSize) : r.image.entry.logTotLen.toNat = r.totLen := by
  have hlen : r.totLen ≤ 4194304 := h
  rw [LogImage.logTotLen_toNat, image_bytes_length, Nat.mod_eq_of_lt (by omega)]

theorem image_bytes (h : r.totLen ≤ logBufferSize) : r.image.bytes = r.serialize := by
  have hlen : r.totLen ≤ 4194304 := h
  rw [LogImage.bytes, LogHeader.bytes, LogImage.header]
  simp only [image_logTotLen h]
  obtain ⟨lsn, tid, prev, body⟩ := r
  rw [LogRecord.serialize]
  simp only [List.append_assoc]
  cases body with
  | begin | commit | abort | staticCheckpoint => rfl
  | write w =>
      obtain ⟨loc, op⟩ := w
      have hname : (nameBytes loc.table).length < 4294967296 := by
        rw [nameBytes_length]
        rcases op with _ | _ | _ <;> simp only [LogRecord.totLen] at hlen <;> omega
      rcases op with _ | _ | _ <;>
        simp only [LogRecord.image, LogEntry.bytes, placeBytes_locBytes hname, LogRecord.data] <;> rfl

end Image

/-- `LogBuffer`: the bytes of the array, and how many of them are in use. -/
structure LogBuffer where
  buffer : Memory
  offset : Nat

def LogBuffer.isFull (b : LogBuffer) (appendSize : Nat) : Bool := logBufferSize < b.offset + appendSize

structure ByteLog where
  globalLsn : Int32
  logBuffer : LogBuffer
  log : Bytes
  restart : Bytes

inductive LogCall
  | addLogToBuffer (r : LogImage)
  | flushLogToDisk
  | addStaticCkpt (r : LogImage)

namespace ByteLog

variable (m : ByteLog) (r : LogImage)

def init : ByteLog := ⟨0, ⟨fun _ => 0, 0⟩, [], []⟩

def writeLog : ByteLog :=
  { m with
    log := m.log ++ bytesAt m.logBuffer.buffer 0 m.logBuffer.offset
    logBuffer := { m.logBuffer with offset := 0 } }

/-- `get_file_size` returns an `int`. -/
def getLogSize : Int32 := Int32.ofNat m.log.length

def setRestartLog (offset : Int32) : ByteLog := { m with restart := intBytes offset ++ m.restart.drop 4 }

def addLogToBuffer : ByteLog :=
  let r := { r with lsn := m.globalLsn }
  let m := { m with globalLsn := m.globalLsn + 1 }
  let m := if m.logBuffer.isFull r.entry.logTotLen.toNat then m.writeLog else m
  { m with logBuffer :=
      ⟨r.serialize m.logBuffer.buffer m.logBuffer.offset, m.logBuffer.offset + r.entry.logTotLen.toNat⟩ }

def flushLogToDisk : ByteLog := m.writeLog

def addStaticCkpt : ByteLog :=
  let m := (m.addLogToBuffer r).writeLog
  m.setRestartLog m.getLogSize

def call (m : ByteLog) : LogCall → ByteLog
  | .addLogToBuffer r => m.addLogToBuffer r
  | .flushLogToDisk => m.flushLogToDisk
  | .addStaticCkpt r => m.addStaticCkpt r

def run (calls : List LogCall) : ByteLog := calls.foldl call init

end ByteLog

namespace LogCall

def record? : LogCall → Option LogImage
  | addLogToBuffer r | addStaticCkpt r => some r
  | flushLogToDisk => none

def Admissible (c : LogCall) : Prop := ∀ r ∈ c.record?, r.bytes.length ≤ logBufferSize

instance (c : LogCall) : Decidable c.Admissible :=
  inferInstanceAs (Decidable (∀ r ∈ c.record?, r.bytes.length ≤ logBufferSize))

def numbered (calls : List LogCall) : List LogImage :=
  (calls.filterMap record?).mapIdx fun i r => { r with lsn := Int32.ofNat i }

end LogCall

def imageBytes (rs : List LogImage) : Bytes := rs.flatMap LogImage.bytes

namespace ByteLog

open LogCall

structure Exact (calls : List LogCall) (m : ByteLog) : Prop where
  bytes : m.log ++ bytesAt m.logBuffer.buffer 0 m.logBuffer.offset = imageBytes (numbered calls)
  lsns : ∀ (i : Nat) (r : LogImage), (numbered calls)[i]? = some r → r.lsn.toInt = i
  lengths : ∀ r ∈ numbered calls, r.bytes.length = r.entry.logTotLen.toNat
  flushed : calls.getLast? = some .flushLogToDisk → m.log = imageBytes (numbered calls)
  restart : ∀ r, calls.getLast? = some (.addStaticCkpt r) →
    m.log = imageBytes (numbered calls) ∧ getRestartLog m.restart = m.log.length

def InRange (calls : List LogCall) : Prop :=
  (calls.filterMap record?).length ≤ 2147483648 ∧
    ∀ before r, before ++ [.addStaticCkpt r] <+: calls →
      (((before ++ [.addStaticCkpt r]).filterMap record?).map fun r => r.bytes.length).sum < 2147483648

structure Inv (rs : List LogImage) (m : ByteLog) : Prop where
  bytes : m.log ++ bytesAt m.logBuffer.buffer 0 m.logBuffer.offset = imageBytes rs
  room : m.logBuffer.offset ≤ logBufferSize
  lsn : m.globalLsn = Int32.ofNat rs.length

variable {m : ByteLog} {rs : List LogImage} {r : LogImage} {calls before : List LogCall} {c : LogCall}

theorem bytes_setLsn (x : Int32) : ({ r with lsn := x } : LogImage).bytes.length = r.bytes.length := by
  rw [LogImage.bytes, LogImage.bytes, List.length_append, List.length_append, LogHeader.bytes_length,
    LogHeader.bytes_length]

theorem imageBytes_snoc : imageBytes (rs ++ [r]) = imageBytes rs ++ r.bytes := by simp [imageBytes]

theorem inv_init : Inv [] init := ⟨rfl, Nat.zero_le _, rfl⟩

theorem Inv.writeLog (h : Inv rs m) : Inv rs m.writeLog ∧ m.writeLog.log = imageBytes rs := by
  have hlog : m.writeLog.log = imageBytes rs := h.bytes
  refine ⟨⟨?_, Nat.zero_le _, h.lsn⟩, hlog⟩
  change m.writeLog.log ++ bytesAt m.logBuffer.buffer 0 0 = _
  rw [hlog]
  exact List.append_nil _

theorem Inv.addLogToBuffer (h : Inv rs m) (hr : r.bytes.length ≤ logBufferSize) :
    Inv (rs ++ [{ r with lsn := Int32.ofNat rs.length }]) (m.addLogToBuffer r) := by
  have hlen : r.entry.logTotLen.toNat = r.bytes.length := by
    rw [r.logTotLen_toNat]
    rw [logBufferSize] at hr
    omega
  -- what the record does to a buffer that has room for it
  have happend : ∀ m : ByteLog, Inv rs m → m.logBuffer.offset + r.bytes.length ≤ logBufferSize →
      Inv (rs ++ [{ r with lsn := Int32.ofNat rs.length }]) { m with
        globalLsn := m.globalLsn + 1
        logBuffer :=
          ⟨({ r with lsn := m.globalLsn } : LogImage).serialize m.logBuffer.buffer m.logBuffer.offset,
          m.logBuffer.offset + r.bytes.length⟩ } := by
    intro m h hroom
    refine ⟨?_, hroom, ?_⟩
    · change m.log ++ bytesAt _ 0 (m.logBuffer.offset + r.bytes.length) = _
      rw [LogImage.serialize_eq, bytesAt_add, bytes_setLsn, Nat.zero_add, bytesAt_memcpy (bytes_setLsn _),
        bytesAt_congr fun a _ ha => memcpy_outside (.inl (by omega)), ← List.append_assoc, h.bytes,
        imageBytes_snoc, h.lsn]
    · change m.globalLsn + 1 = _
      rw [h.lsn, List.length_append, List.length_singleton, Int32.ofNat_add]
      rfl
  rw [ByteLog.addLogToBuffer]
  simp only [hlen]
  split
  · exact happend m.writeLog h.writeLog.1 (by change 0 + r.bytes.length ≤ _; omega)
  · rename_i hfull
    refine happend m h (not_lt.1 fun hlt => hfull ?_)
    exact decide_eq_true hlt

theorem Inv.addStaticCkpt (h : Inv rs m) (hr : r.bytes.length ≤ logBufferSize) :
    Inv (rs ++ [{ r with lsn := Int32.ofNat rs.length }]) (m.addStaticCkpt r) ∧
      (m.addStaticCkpt r).log = imageBytes (rs ++ [{ r with lsn := Int32.ofNat rs.length }]) ∧
      getRestartLog (m.addStaticCkpt r).restart = (Int32.ofNat (m.addStaticCkpt r).log.length).toInt := by
  obtain ⟨hinv, hlog⟩ := (h.addLogToBuffer hr).writeLog
  refine ⟨⟨hinv.bytes, hinv.room, hinv.lsn⟩, hlog, ?_⟩
  change getRestartLog (intBytes _ ++ _) = _
  rw [getRestartLog, if_neg (by rw [List.length_append, intBytes_length]; omega),
    readInt_append (intBytes_length _), readInt_intBytes]
  rfl

theorem numbered_length : (numbered calls).length = (calls.filterMap record?).length := List.length_mapIdx

theorem numbered_snoc (hc : c.record? = some r) :
    numbered (calls ++ [c]) = numbered calls ++ [{ r with lsn := Int32.ofNat (numbered calls).length }] := by
  rw [numbered_length, numbered, List.filterMap_append, List.filterMap_cons_some hc, List.filterMap_nil,
    List.mapIdx_append, List.mapIdx_cons, List.mapIdx_nil, Nat.zero_add]
  rfl

theorem numbered_flush : numbered (calls ++ [.flushLogToDisk]) = numbered calls := by
  rw [numbered, List.filterMap_append, List.filterMap_cons_none rfl, List.filterMap_nil, List.append_nil]
  rfl

theorem run_snoc : run (calls ++ [c]) = (run calls).call c := List.foldl_concat ..

theorem inv_run (h : ∀ c ∈ calls, c.Admissible) : Inv (numbered calls) (run calls) := by
  induction calls using List.reverseRecOn with
  | nil => exact inv_init
  | append_singleton calls c ih =>
      have hinv := ih fun c' hc' => h c' (List.mem_append_left _ hc')
      have hc := h c (by simp)
      rw [run_snoc]
      cases c with
      | addLogToBuffer r =>
          rw [numbered_snoc rfl]
          exact hinv.addLogToBuffer (hc r rfl)
      | flushLogToDisk =>
          rw [numbered_flush]
          exact hinv.writeLog.1
      | addStaticCkpt r =>
          rw [numbered_snoc rfl]
          exact (hinv.addStaticCkpt (hc r rfl)).1

theorem mem_numbered (hr : r ∈ numbered calls) :
    ∃ r' ∈ calls.filterMap record?, r.entry = r'.entry ∧ r.bytes.length = r'.bytes.length := by
  obtain ⟨i, hi, rfl⟩ := List.mem_mapIdx.1 hr
  exact ⟨_, List.getElem_mem hi, rfl, bytes_setLsn _⟩

theorem numbered_lengths (h : ∀ c ∈ calls, c.Admissible) (hr : r ∈ numbered calls) :
    r.bytes.length = r.entry.logTotLen.toNat := by
  obtain ⟨r', hr', -, hlen⟩ := mem_numbered hr
  obtain ⟨c, hc, hcr⟩ := List.mem_filterMap.1 hr'
  have hsize : r'.bytes.length ≤ 4194304 := h c hc r' hcr
  rw [r.logTotLen_toNat, Nat.mod_eq_of_lt (by omega)]

theorem imageBytes_numbered : (imageBytes (numbered calls)).length =
    ((calls.filterMap record?).map fun r => r.bytes.length).sum := by
  rw [imageBytes, List.length_flatMap, numbered]
  congr 1
  refine List.ext_getElem (by simp) fun i hi hi' => ?_
  simp only [List.getElem_map, List.getElem_mapIdx, bytes_setLsn]

theorem toInt_ofNat_iff {n : Nat} : (Int32.ofNat n).toInt = n ↔ n < 2147483648 := by
  constructor
  · intro h
    have := Int32.toInt_lt (Int32.ofNat n)
    omega
  · intro h
    exact Int32.toInt_ofNat_of_lt h

/-- Only the two counters can go wrong. -/
theorem exact_run_iff (h : ∀ c ∈ calls, c.Admissible) : Exact calls (run calls) ↔
    (calls.filterMap record?).length ≤ 2147483648 ∧ ∀ before r, before ++ [.addStaticCkpt r] = calls →
      ((calls.filterMap record?).map fun r => r.bytes.length).sum < 2147483648 := by
  have hckpt : ∀ before r, before ++ [.addStaticCkpt r] = calls →
    (run calls).log = imageBytes (numbered calls) ∧
      getRestartLog (run calls).restart = (Int32.ofNat (run calls).log.length).toInt := by
    rintro before r rfl
    have hinv := inv_run fun c hc => h c (List.mem_append_left _ hc)
    rw [run_snoc, numbered_snoc rfl]
    exact (hinv.addStaticCkpt (h (.addStaticCkpt r) (by simp) r rfl)).2
  constructor
  · intro hexact
    refine ⟨?_, fun before r hcalls => ?_⟩
    · by_contra hlong
      have hlt : 2147483648 < (numbered calls).length := by rw [numbered_length]; omega
      have hlsn := hexact.lsns 2147483648 _ (List.getElem?_eq_getElem hlt)
      rw [show (numbered calls)[2147483648].lsn = Int32.ofNat 2147483648 by simp [numbered]] at hlsn
      exact absurd (toInt_ofNat_iff.1 hlsn) (lt_irrefl _)
    · have hlast : calls.getLast? = some (.addStaticCkpt r) := by rw [← hcalls, List.getLast?_concat]
      obtain ⟨hlog, hrestart⟩ := hexact.restart r hlast
      rw [(hckpt before r hcalls).2] at hrestart
      rw [← imageBytes_numbered, ← hlog]
      exact toInt_ofNat_iff.1 hrestart
  · rintro ⟨hcount, hsum⟩
    refine ⟨(inv_run h).bytes, fun i r hr => ?_, fun r hr => numbered_lengths h hr, fun hlast =>
      ?_, fun r hlast => ?_⟩
    · obtain ⟨hi, rfl⟩ := List.getElem?_eq_some_iff.1 hr
      rw [show (numbered calls)[i].lsn = Int32.ofNat i by simp [numbered]]
      rw [numbered_length] at hi
      exact toInt_ofNat_iff.2 (by omega)
    · obtain ⟨before, rfl⟩ := List.getLast?_eq_some_iff.1 hlast
      rw [run_snoc, numbered_flush]
      exact (inv_run fun c hc => h c (List.mem_append_left _ hc)).writeLog.2
    · obtain ⟨before, hbefore⟩ := List.getLast?_eq_some_iff.1 hlast
      obtain ⟨hlog, hrestart⟩ := hckpt before r hbefore.symm
      refine ⟨hlog, hrestart.trans (toInt_ofNat_iff.2 ?_)⟩
      rw [hlog, imageBytes_numbered]
      exact hsum before r hbefore.symm

/-- After every call of a run the log file and the buffer are the records in the order of the
calls, the log file alone after a flush, and the restart offset is the end of the record after a
checkpoint, exactly while the two counters are `int`s. -/
theorem log_exact_iff (calls : List LogCall) (h : ∀ c ∈ calls, c.Admissible) :
    (∀ before, before <+: calls → Exact before (run before)) ↔ InRange calls := by
  have hiff : ∀ before, before <+: calls → (Exact before (run before) ↔ _) := fun before hpre =>
    exact_run_iff fun c hc => h c (hpre.subset hc)
  constructor
  · intro hall
    refine ⟨((hiff calls List.prefix_rfl).1 (hall calls List.prefix_rfl)).1, fun before r hpre => ?_⟩
    exact ((hiff _ hpre).1 (hall _ hpre)).2 before r rfl
  · rintro ⟨hcount, hsum⟩ before hpre
    refine (hiff before hpre).2 ⟨((hpre.filterMap record?).length_le).trans hcount, ?_⟩
    rintro b r rfl
    exact hsum b r hpre

theorem inRange_of_sum (h : ((calls.filterMap record?).map fun r => r.bytes.length).sum < 2147483648) :
    InRange calls := by
  constructor
  · have hcount : (calls.filterMap record?).length ≤
        ((calls.filterMap record?).map fun r => r.bytes.length).sum := by
      generalize calls.filterMap record? = rs
      induction rs with
      | nil => exact le_rfl
      | cons r rs ih =>
          rw [List.length_cons, List.map_cons, List.sum_cons, LogImage.bytes, List.length_append,
            LogHeader.bytes_length]
          omega
    omega
  · intro before r hpre
    refine lt_of_le_of_lt ?_ h
    exact ((hpre.filterMap record?).map fun r => r.bytes.length).sublist.sum_le_sum fun _ _ => Nat.zero_le _

def insertImage : LogImage := ⟨-1, 0, 0, .insert [5, 0, 0, 0] ⟨1, 0⟩ [116]⟩

def checkpointCalls : List LogCall :=
  [.addLogToBuffer ⟨-1, 0, -1, .begin⟩, .addLogToBuffer insertImage, .flushLogToDisk,
    .addLogToBuffer ⟨-1, 0, 1, .commit⟩, .addStaticCkpt ⟨-1, -1, -1, .staticCheckpoint⟩]

theorem log_exact_checkpoint : (∀ c ∈ checkpointCalls, c.Admissible) ∧
    ∀ before, before <+: checkpointCalls → Exact before (run before) := by
  have hadm : ∀ c ∈ checkpointCalls, c.Admissible := by decide
  exact ⟨hadm, (log_exact_iff _ hadm).2 (inRange_of_sum (by decide))⟩

section Records

structure Writes (l : LogManager) (m : ByteLog) : Prop where
  log : m.log = serializeAll l.file
  buffer : bytesAt m.logBuffer.buffer 0 m.logBuffer.offset = serializeAll l.buffer
  offset : m.logBuffer.offset = l.offset
  lsn : m.globalLsn = Int32.ofInt l.globalLsn

variable {l : LogManager} {t : TxnId} {prevLsn : Lsn} {body : LogBody}

theorem Writes.writeLog (h : Writes l m) : Writes l.writeLog m.writeLog := by
  refine ⟨?_, rfl, rfl, h.lsn⟩
  change m.log ++ bytesAt _ 0 _ = serializeAll (l.file ++ l.buffer)
  rw [h.log, h.buffer, LogSession.serializeAll_append]

theorem Writes.addLogToBuffer (h : Writes l m) (hfits : (l.record t prevLsn body).totLen ≤ logBufferSize) :
    Writes (l.addLogToBuffer t prevLsn body) (m.addLogToBuffer (l.record t prevLsn body).image) := by
  have hlen := image_logTotLen hfits
  have himage : ({ (l.record t prevLsn body).image with lsn := m.globalLsn } : LogImage) =
      (l.record t prevLsn body).image := by
    rw [h.lsn]
    rfl
  have happend : ∀ (l' : LogManager) (m' : ByteLog), Writes l' m' →
      Writes { l' with globalLsn := l.globalLsn + 1, buffer := l'.buffer ++ [l.record t prevLsn body] }
        { m' with
          globalLsn := m.globalLsn + 1
          logBuffer := ⟨(l.record t prevLsn body).image.serialize m'.logBuffer.buffer m'.logBuffer.offset,
            m'.logBuffer.offset + (l.record t prevLsn body).totLen⟩ } := by
    intro l' m' h'
    refine ⟨h'.log, ?_, ?_, ?_⟩
    · change bytesAt _ 0 (m'.logBuffer.offset + (l.record t prevLsn body).totLen) = _
      rw [LogImage.serialize_eq, bytesAt_add, image_bytes_length, Nat.zero_add,
        bytesAt_memcpy image_bytes_length,
        bytesAt_congr fun a _ ha => memcpy_outside (.inl (by omega)), h'.buffer,
        image_bytes hfits, LogSession.serializeAll_append]
      simp [serializeAll]
    · change m'.logBuffer.offset + (l.record t prevLsn body).totLen =
        LogManager.offset ⟨_, l'.buffer ++ [l.record t prevLsn body], _⟩
      rw [h'.offset, LogManager.offset, LogManager.offset, List.map_append, List.sum_append]
      rfl
    · change m.globalLsn + 1 = _
      rw [h.lsn, Int32.ofInt_add]
      rfl
  rw [ByteLog.addLogToBuffer, LogManager.addLogToBuffer]
  simp only [hlen, himage, LogBuffer.isFull, h.offset, decide_eq_true_eq]
  by_cases hfull : logBufferSize < l.offset + (l.record t prevLsn body).totLen
  · rw [if_pos hfull, if_pos hfull]
    exact happend _ m.writeLog h.writeLog
  · rw [if_neg hfull, if_neg hfull]
    exact happend _ m h

end Records

def beginsThenCkpt (n : Nat) : List LogCall :=
  List.replicate n (.addLogToBuffer ⟨-1, 0, -1, .begin⟩) ++ [.addStaticCkpt ⟨-1, -1, -1, .staticCheckpoint⟩]

theorem beginsThenCkpt_bytes (n : Nat) :
    (((beginsThenCkpt n).filterMap record?).map fun r => r.bytes.length).sum = 20 * n + 20 := by
  have hrecords : (List.replicate n (LogCall.addLogToBuffer ⟨-1, 0, -1, .begin⟩)).filterMap record? =
      List.replicate n ⟨-1, 0, -1, .begin⟩ := by
    induction n with
    | zero => rfl
    | succ n ih => simp [List.replicate_succ, ih, record?]
  rw [beginsThenCkpt, List.filterMap_append, hrecords, List.map_append, List.map_replicate,
    List.sum_append, List.sum_replicate, Nat.nsmul_eq_mul, Nat.mul_comm]
  rfl

theorem beginsThenCkpt_admissible (n : Nat) : ∀ c ∈ beginsThenCkpt n, c.Admissible := by
  intro c hc
  rcases List.mem_append.1 hc with hc | hc
  · rw [(List.mem_replicate.1 hc).2]
    decide
  · rw [List.mem_singleton.1 hc]
    decide

/-- The log is never cut, so it comes to 2^31 bytes, and the restart offset of the checkpoint does
not fit an `int`. -/
theorem fullLog_not_exact : (∀ c ∈ beginsThenCkpt 107374182, c.Admissible) ∧
    ¬Exact (beginsThenCkpt 107374182) (run (beginsThenCkpt 107374182)) := by
  refine ⟨beginsThenCkpt_admissible _, fun hexact => ?_⟩
  have hsum := ((exact_run_iff (beginsThenCkpt_admissible _)).1 hexact).2 _ _ rfl
  rw [beginsThenCkpt_bytes] at hsum
  omega

end ByteLog

end Rmdb
