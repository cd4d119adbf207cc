import Rmdb.Record.MemoryBlock
import Rmdb.Recovery.LogBytes

namespace Rmdb

open Bitmap (Memory)

inductive LogType
  | update
  | insert
  | delete
  | begin
  | commit
  | abort
  | staticCheckpoint
deriving DecidableEq, Repr

def LogType.code : LogType → Int32
  | update => 0
  | insert => 1
  | delete => 2
  | begin => 3
  | commit => 4
  | abort => 5
  | staticCheckpoint => 6

structure DiskRid where
  pageNo : Int32
  slotNo : Int32
deriving DecidableEq, Repr

/-- The members of a log record that its class adds to the header. -/
inductive LogEntry
  | begin
  | commit
  | abort
  | staticCheckpoint
  | insert (insertValue : Bytes) (rid : DiskRid) (tableName : Bytes)
  | delete (deleteValue : Bytes) (rid : DiskRid) (tableName : Bytes)
  | update (beforeValue updateValue : Bytes) (rid : DiskRid) (tableName : Bytes)
deriving DecidableEq

structure LogHeader where
  logType : Int32
  lsn : Int32
  logTotLen : UInt32
  logTid : Int32
  prevLsn : Int32
deriving DecidableEq

structure LogImage where
  lsn : Int32
  logTid : Int32
  prevLsn : Int32
  entry : LogEntry
deriving DecidableEq

namespace LogEntry

def logType : LogEntry → LogType
  | begin => .begin
  | commit => .commit
  | abort => .abort
  | staticCheckpoint => .staticCheckpoint
  | insert .. => .insert
  | delete .. => .delete
  | update .. => .update

/-- What the constructors of the three changes add to `log_tot_len_` for the rid and the name. -/
def locLen (tableName : Bytes) : UInt32 := 8 + (8 + UInt32.ofNat tableName.length)

def logTotLen : LogEntry → UInt32
  | begin | commit | abort | staticCheckpoint => 20
  | insert v _ name | delete v _ name => 20 + 4 + UInt32.ofNat v.length + locLen name
  | update before after _ name =>
      20 + (4 + UInt32.ofNat before.length) + (4 + UInt32.ofNat after.length) + locLen name

end LogEntry

def LogImage.header (r : LogImage) : LogHeader :=
  ⟨r.entry.logType.code, r.lsn, r.entry.logTotLen, r.logTid, r.prevLsn⟩

section Serialize

variable (dest : Memory) (pos : Nat)

def sizeBytes (n : Nat) : Bytes := wordBytes (n % 4294967296) ++ wordBytes (n / 4294967296)

def DiskRid.bytes (rid : DiskRid) : Bytes := intBytes rid.pageNo ++ intBytes rid.slotNo

def LogHeader.serialize (h : LogHeader) : Memory :=
  let dest := memcpy dest pos (intBytes h.logType) 4
  let dest := memcpy dest (pos + 4) (intBytes h.lsn) 4
  let dest := memcpy dest (pos + 8) (wordBytes h.logTotLen.toNat) 4
  let dest := memcpy dest (pos + 12) (intBytes h.logTid) 4
  memcpy dest (pos + 16) (intBytes h.prevLsn) 4

def serializeLoc (offset : Nat) (rid : DiskRid) (tableName : Bytes) : Memory :=
  let dest := memcpy dest (pos + offset) rid.bytes 8
  let offset := offset + 8
  let dest := memcpy dest (pos + offset) (sizeBytes tableName.length) 8
  let offset := offset + 8
  memcpy dest (pos + offset) tableName tableName.length

def serializeValue (v : Bytes) (rid : DiskRid) (tableName : Bytes) : Memory :=
  let offset := 20
  let dest := memcpy dest (pos + offset) (int32Bytes v.length) 4
  let offset := offset + 4
  let dest := memcpy dest (pos + offset) v v.length
  let offset := offset + v.length
  serializeLoc dest pos offset rid tableName

def serializeValues (before after : Bytes) (rid : DiskRid) (tableName : Bytes) : Memory :=
  let offset := 20
  let dest := memcpy dest (pos + offset) (int32Bytes before.length) 4
  let offset := offset + 4
  let dest := memcpy dest (pos + offset) before before.length
  let offset := offset + before.length
  let dest := memcpy dest (pos + offset) (int32Bytes after.length) 4
  let offset := offset + 4
  let dest := memcpy dest (pos + offset) after after.length
  let offset := offset + after.length
  serializeLoc dest pos offset rid tableName

def LogImage.serialize (r : LogImage) : Memory :=
  let dest := r.header.serialize dest pos
  match r.entry with
  | .begin | .commit | .abort | .staticCheckpoint => dest
  | .insert v rid name | .delete v rid name => serializeValue dest pos v rid name
  | .update before after rid name => serializeValues dest pos before after rid name

end Serialize

/-- Why `deserialize` throws, or reads what is not in the log buffer. -/
inductive DecodeError
  | badArrayNewLength
  | outOfBuffer

section Deserialize

variable (src : Memory) (pos : Nat)

/-- A read of the log buffer, `LOG_BUFFER_SIZE + 1` bytes. -/
def readAt (a len : Nat) : Except DecodeError Bytes :=
  if a + len ≤ logBufferSize + 1 then .ok (bytesAt src a len) else .error .outOfBuffer

def readInt32 (a : Nat) : Except DecodeError Int32 := do
  let b ← readAt src a 4
  return Int32.ofInt (readInt b)

def readUInt32 (a : Nat) : Except DecodeError UInt32 := do
  let b ← readAt src a 4
  return UInt32.ofNat (readWord b)

def LogHeader.deserialize : Except DecodeError LogHeader := do
  let logType ← readInt32 src pos
  let lsn ← readInt32 src (pos + 4)
  let logTotLen ← readUInt32 src (pos + 8)
  let logTid ← readInt32 src (pos + 12)
  let prevLsn ← readInt32 src (pos + 16)
  return ⟨logType, lsn, logTotLen, logTid, prevLsn⟩

/-- `RmRecord::Deserialize`; `new` throws at a size below zero. -/
def readRmRecord (a : Nat) : Except DecodeError Bytes := do
  let size ← readInt32 src a
  if size.toInt < 0 then throw .badArrayNewLength
  readAt src (a + 4) size.toInt.toNat

def readRid (a : Nat) : Except DecodeError DiskRid := do
  let pageNo ← readInt32 src a
  let slotNo ← readInt32 src (a + 4)
  return ⟨pageNo, slotNo⟩

def readSize (a : Nat) : Except DecodeError Nat := do
  let lo ← readUInt32 src a
  let hi ← readUInt32 src (a + 4)
  return lo.toNat + 4294967296 * hi.toNat

def deserializeLoc (offset : Nat) : Except DecodeError (DiskRid × Bytes × Nat) := do
  let rid ← readRid src (pos + offset)
  let offset := offset + 8
  let tableNameSize ← readSize src (pos + offset)
  let offset := offset + 8
  let tableName ← readAt src (pos + offset) tableNameSize
  return (rid, tableName, offset + tableNameSize)

def deserializeValue (entry : Bytes → DiskRid → Bytes → LogEntry) : Except DecodeError (LogEntry × Nat) := do
  let v ← readRmRecord src (pos + 20)
  let offset := 20 + v.length + 4
  let (rid, tableName, offset) ← deserializeLoc src pos offset
  return (entry v rid tableName, offset)

def deserializeValues : Except DecodeError (LogEntry × Nat) := do
  let before ← readRmRecord src (pos + 20)
  let offset := 20 + before.length + 4
  let after ← readRmRecord src (pos + offset)
  let offset := offset + (after.length + 4)
  let (rid, tableName, offset) ← deserializeLoc src pos offset
  return (.update before after rid tableName, offset)

def LogType.entry : LogType → Except DecodeError (LogEntry × Nat)
  | .begin => .ok (.begin, 20)
  | .commit => .ok (.commit, 20)
  | .abort => .ok (.abort, 20)
  | .staticCheckpoint => .ok (.staticCheckpoint, 20)
  | .insert => deserializeValue src pos .insert
  | .delete => deserializeValue src pos .delete
  | .update => deserializeValues src pos

def LogType.deserialize (type : LogType) : Except DecodeError (LogHeader × LogEntry × Nat) := do
  let header ← LogHeader.deserialize src pos
  let (entry, read) ← type.entry src pos
  return (header, entry, read)

end Deserialize

section Memory

variable {src : Memory} {a n : Nat} {bs : Bytes}

theorem StandsAt.readAt (h : StandsAt src a bs) (hn : bs.length = n) (hroom : a + n ≤ logBufferSize + 1) :
    readAt src a n = .ok bs := by
  rw [Rmdb.readAt, if_pos hroom, ← hn, h]

end Memory

section Bytes

def LogHeader.bytes (h : LogHeader) : Bytes :=
  intBytes h.logType ++
    (intBytes h.lsn ++ (wordBytes h.logTotLen.toNat ++ (intBytes h.logTid ++ intBytes h.prevLsn)))

def placeBytes (rid : DiskRid) (tableName : Bytes) : Bytes :=
  rid.bytes ++ (sizeBytes tableName.length ++ tableName)

def LogEntry.bytes : LogEntry → Bytes
  | begin | commit | abort | staticCheckpoint => []
  | insert v rid name | delete v rid name => valueBytes v ++ placeBytes rid name
  | update before after rid name => valueBytes before ++ (valueBytes after ++ placeBytes rid name)

def LogImage.bytes (r : LogImage) : Bytes := r.header.bytes ++ r.entry.bytes

variable {dest src : Memory} {pos n : Nat} {bs : Bytes} {rid : DiskRid}
  {name v before after : Bytes} {h : LogHeader} {e : LogEntry} {r : LogImage}

theorem LogHeader.bytes_length : h.bytes.length = 20 := rfl

theorem placeBytes_length : (placeBytes rid name).length = 16 + name.length := by
  rw [placeBytes, List.length_append, List.length_append]
  change 8 + (8 + name.length) = _
  omega

theorem LogHeader.serialize_eq : h.serialize dest pos = memcpy dest pos h.bytes 20 := by
  have h4 : (intBytes h.logType).length = 4 := rfl
  have h8 : (intBytes h.logType ++ intBytes h.lsn).length = 8 := rfl
  have h12 : (intBytes h.logType ++ intBytes h.lsn ++ wordBytes h.logTotLen.toNat).length = 12 := rfl
  have h16 : (intBytes h.logType ++ intBytes h.lsn ++ wordBytes h.logTotLen.toNat ++
    intBytes h.logTid).length = 16 := rfl
  rw [LogHeader.serialize, memcpy_memcpy h4, memcpy_memcpy h8, memcpy_memcpy h12, memcpy_memcpy h16]
  simp only [LogHeader.bytes, List.append_assoc]

theorem serializeLoc_eq (hbs : bs.length = n) : serializeLoc (memcpy dest pos bs n) pos n rid name =
    memcpy dest pos (bs ++ placeBytes rid name) (n + (placeBytes rid name).length) := by
  have h8 : (bs ++ rid.bytes).length = n + 8 := by rw [List.length_append, hbs]; rfl
  have h16 : (bs ++ rid.bytes ++ sizeBytes name.length).length = n + 8 + 8 :=
    by rw [List.length_append, h8]; rfl
  rw [serializeLoc, memcpy_memcpy hbs, memcpy_memcpy h8, memcpy_memcpy h16, placeBytes_length]
  simp only [placeBytes, List.append_assoc, Nat.add_assoc, Nat.reduceAdd]

theorem serializeValue_eq (hbs : bs.length = 20) : serializeValue (memcpy dest pos bs 20) pos v rid name =
    memcpy dest pos (bs ++ (valueBytes v ++ placeBytes rid name))
      (20 + (valueBytes v ++ placeBytes rid name).length) := by
  have h24 : (bs ++ int32Bytes v.length).length = 24 := by rw [List.length_append, hbs]; rfl
  have hv : (bs ++ int32Bytes v.length ++ v).length = 24 + v.length := by rw [List.length_append, h24]
  rw [serializeValue, memcpy_memcpy hbs, memcpy_memcpy h24, serializeLoc_eq hv]
  simp only [valueBytes, List.append_assoc, List.length_append, int32Bytes_length, Nat.add_assoc]
  congr 1
  omega

theorem serializeValues_eq (hbs : bs.length = 20) :
    serializeValues (memcpy dest pos bs 20) pos before after rid name =
    memcpy dest pos (bs ++ (valueBytes before ++ (valueBytes after ++ placeBytes rid name)))
      (20 + (valueBytes before ++ (valueBytes after ++ placeBytes rid name)).length) := by
  have h24 : (bs ++ int32Bytes before.length).length = 24 := by rw [List.length_append, hbs]; rfl
  have hb : (bs ++ int32Bytes before.length ++ before).length = 24 + before.length := by
    rw [List.length_append, h24]
  have h28 : (bs ++ int32Bytes before.length ++ before ++ int32Bytes after.length).length =
      24 + before.length + 4 := by
    rw [List.length_append, hb]
    rfl
  have ha : (bs ++ int32Bytes before.length ++ before ++ int32Bytes after.length ++ after).length =
      24 + before.length + 4 + after.length := by rw [List.length_append, h28]
  rw [serializeValues, memcpy_memcpy hbs, memcpy_memcpy h24, memcpy_memcpy hb, memcpy_memcpy h28,
    serializeLoc_eq ha]
  simp only [valueBytes, List.append_assoc, List.length_append, int32Bytes_length]
  congr 1
  omega

/-- `serialize` writes the bytes of the record and no others. -/
theorem LogImage.serialize_eq (r : LogImage) (dest : Memory) (pos : Nat) :
    r.serialize dest pos = memcpy dest pos r.bytes r.bytes.length := by
  rw [LogImage.serialize, LogHeader.serialize_eq, LogImage.bytes, List.length_append, LogHeader.bytes_length]
  cases hr : r.entry with
  | begin | commit | abort | staticCheckpoint => simp only [LogEntry.bytes, List.append_nil]; rfl
  | insert v rid name | delete v rid name => exact serializeValue_eq LogHeader.bytes_length
  | update before after rid name => exact serializeValues_eq LogHeader.bytes_length

/-- `log_tot_len_` counts the bytes of the record, mod 2^32. -/
theorem LogImage.logTotLen_toNat (r : LogImage) : r.entry.logTotLen.toNat = r.bytes.length % 4294967296 := by
  rw [LogImage.bytes, List.length_append, LogHeader.bytes_length]
  cases hr : r.entry with
  | begin | commit | abort | staticCheckpoint => rfl
  | insert v rid name | delete v rid name =>
      simp only [LogEntry.logTotLen, LogEntry.locLen, LogEntry.bytes, List.length_append,
        valueBytes_length, placeBytes_length, UInt32.toNat_add, UInt32.toNat_ofNat', UInt32.reduceToNat]
      omega
  | update before after rid name =>
      simp only [LogEntry.logTotLen, LogEntry.locLen, LogEntry.bytes, List.length_append,
        valueBytes_length, placeBytes_length, UInt32.toNat_add, UInt32.toNat_ofNat', UInt32.reduceToNat]
      omega

end Bytes

section Reads

variable {src : Memory} {a pos offset n : Nat} {x : Int32} {v name before after : Bytes}
  {rid : DiskRid} {h : LogHeader} {r : LogImage}

theorem readInt32_eq (hs : StandsAt src a (intBytes x)) (hroom : a + 4 ≤ logBufferSize + 1) :
    readInt32 src a = .ok x := by
  have hread : readAt src a 4 = .ok (intBytes x) := hs.readAt rfl hroom
  rw [readInt32, hread]
  change Except.ok (Int32.ofInt (readInt (intBytes x))) = _
  rw [readInt_intBytes, Int32.ofInt_toInt]

theorem readUInt32_eq (hs : StandsAt src a (wordBytes n)) (hn : n < 4294967296)
    (hroom : a + 4 ≤ logBufferSize + 1) :
    readUInt32 src a = .ok (UInt32.ofNat n) := by
  have hread : readAt src a 4 = .ok (wordBytes n) := hs.readAt rfl hroom
  rw [readUInt32, hread]
  change Except.ok (UInt32.ofNat (readWord (wordBytes n))) = _
  rw [readWord_wordBytes hn]

theorem header_deserialize_eq (hs : StandsAt src pos h.bytes) (hroom : pos + 20 ≤ logBufferSize + 1) :
    LogHeader.deserialize src pos = .ok h := by
  rw [LogHeader.bytes, standsAt_append, standsAt_append, standsAt_append, standsAt_append] at hs
  obtain ⟨h0, h4, h8, h12, h16⟩ := hs
  have htype : readInt32 src pos = .ok h.logType := readInt32_eq h0 (by omega)
  have hlsn : readInt32 src (pos + 4) = .ok h.lsn := readInt32_eq h4 (by omega)
  have hlen : readUInt32 src (pos + 8) = .ok h.logTotLen := by
    rw [← UInt32.ofNat_toNat (x := h.logTotLen)]
    exact readUInt32_eq h8 h.logTotLen.toNat_lt (by omega)
  have htid : readInt32 src (pos + 12) = .ok h.logTid := readInt32_eq h12 (by omega)
  have hprev : readInt32 src (pos + 16) = .ok h.prevLsn := readInt32_eq h16 hroom
  rw [LogHeader.deserialize, htype, hlsn, hlen, htid, hprev]
  rfl

theorem readRmRecord_eq (hs : StandsAt src a (valueBytes v))
    (hroom : a + (4 + v.length) ≤ logBufferSize + 1) :
    readRmRecord src a = .ok v := by
  have hlen : v.length < 2147483648 := by
    rw [logBufferSize] at hroom
    omega
  have hsize : (Int32.ofInt v.length).toInt = v.length :=
    Int32.toInt_ofInt_of_le (by omega) (by simpa using by omega)
  rw [valueBytes, standsAt_append] at hs
  have hint : readInt32 src a = .ok (Int32.ofInt v.length) := readInt32_eq hs.1 (by omega)
  have hvalue : readAt src (a + 4) v.length = .ok v :=
    StandsAt.readAt (a := a + 4) hs.2 rfl (by omega)
  rw [readRmRecord, hint]
  simp only [bind, Except.bind, hsize, Int.toNat_natCast, hvalue]
  rw [if_neg (by omega)]

theorem deserializeLoc_eq (hs : StandsAt src (pos + offset) (placeBytes rid name))
    (hroom : pos + offset + (16 + name.length) ≤ logBufferSize + 1) :
    deserializeLoc src pos offset = .ok (rid, name, offset + (16 + name.length)) := by
  rw [placeBytes, DiskRid.bytes, sizeBytes, standsAt_append, standsAt_append, standsAt_append,
    standsAt_append] at hs
  obtain ⟨⟨hpage, hslot⟩, ⟨hlo, hhi⟩, hname⟩ := hs
  have hlen : name.length < 4294967296 := by
    rw [logBufferSize] at hroom
    omega
  have hrid : readRid src (pos + offset) = .ok rid := by
    have h0 : readInt32 src (pos + offset) = .ok rid.pageNo := readInt32_eq hpage (by omega)
    have h4 : readInt32 src (pos + offset + 4) = .ok rid.slotNo := readInt32_eq hslot (by omega)
    rw [readRid, h0, h4]
    rfl
  have hsize : readSize src (pos + (offset + 8)) = .ok name.length := by
    have h0 : readUInt32 src (pos + (offset + 8)) = .ok (UInt32.ofNat (name.length % 4294967296)) :=
      readUInt32_eq hlo (Nat.mod_lt _ (by omega)) (by omega)
    have h4 : readUInt32 src (pos + (offset + 8) + 4) = .ok (UInt32.ofNat (name.length / 4294967296)) :=
      readUInt32_eq hhi (by omega) (by omega)
    rw [readSize, h0, h4]
    change Except.ok ((UInt32.ofNat (name.length % 4294967296)).toNat +
      4294967296 * (UInt32.ofNat (name.length / 4294967296)).toNat) = _
    rw [UInt32.toNat_ofNat', UInt32.toNat_ofNat']
    congr 1
    omega
  have hread : readAt src (pos + (offset + 8 + 8)) name.length = .ok name :=
    StandsAt.readAt (a := pos + (offset + 8 + 8)) hname rfl (by omega)
  rw [deserializeLoc, hrid]
  simp only [bind, Except.bind, hsize, hread]
  rw [Nat.add_assoc offset, Nat.add_assoc offset]
  rfl

theorem deserializeValue_eq {entry : Bytes → DiskRid → Bytes → LogEntry}
    (hs : StandsAt src (pos + 20) (valueBytes v ++ placeBytes rid name))
    (hroom : pos + 20 + (valueBytes v ++ placeBytes rid name).length ≤ logBufferSize + 1) :
    deserializeValue src pos entry =
      .ok (entry v rid name, 20 + (valueBytes v ++ placeBytes rid name).length) := by
  rw [standsAt_append, valueBytes_length] at hs
  rw [List.length_append, valueBytes_length, placeBytes_length] at hroom ⊢
  have hvalue : readRmRecord src (pos + 20) = .ok v := readRmRecord_eq hs.1 (by omega)
  have hplace : deserializeLoc src pos (20 + v.length + 4) =
      .ok (rid, name, 20 + v.length + 4 + (16 + name.length)) := by
    refine deserializeLoc_eq ?_ (by omega)
    rw [show pos + (20 + v.length + 4) = pos + 20 + (4 + v.length) by omega]
    exact hs.2
  rw [deserializeValue, hvalue]
  simp only [bind, Except.bind, hplace]
  rw [show 20 + v.length + 4 + (16 + name.length) = 20 + (4 + v.length + (16 + name.length)) by omega]
  rfl

theorem deserializeValues_eq
    (hs : StandsAt src (pos + 20) (valueBytes before ++ (valueBytes after ++ placeBytes rid name)))
    (hroom : pos + 20 + (valueBytes before ++ (valueBytes after ++ placeBytes rid name)).length ≤
      logBufferSize + 1) :
    deserializeValues src pos = .ok (.update before after rid name,
      20 + (valueBytes before ++ (valueBytes after ++ placeBytes rid name)).length) := by
  rw [standsAt_append, standsAt_append, valueBytes_length, valueBytes_length] at hs
  rw [List.length_append, List.length_append, valueBytes_length, valueBytes_length,
    placeBytes_length] at hroom ⊢
  obtain ⟨hb, ha, hp⟩ := hs
  have hbefore : readRmRecord src (pos + 20) = .ok before := readRmRecord_eq hb (by omega)
  have hafter : readRmRecord src (pos + (20 + before.length + 4)) = .ok after := by
    refine readRmRecord_eq ?_ (by omega)
    rw [show pos + (20 + before.length + 4) = pos + 20 + (4 + before.length) by omega]
    exact ha
  have hplace : deserializeLoc src pos (20 + before.length + 4 + (after.length + 4)) =
      .ok (rid, name, 20 + before.length + 4 + (after.length + 4) + (16 + name.length)) := by
    refine deserializeLoc_eq ?_ (by omega)
    rw [show pos + (20 + before.length + 4 + (after.length + 4)) =
      pos + 20 + (4 + before.length) + (4 + after.length) by omega]
    exact hp
  rw [deserializeValues, hbefore]
  simp only [bind, Except.bind, hafter, hplace]
  rw [show 20 + before.length + 4 + (after.length + 4) + (16 + name.length) =
    20 + (4 + before.length + (4 + after.length + (16 + name.length))) by omega]
  rfl

/-- A class reads the record whose bytes stand at the position, and as many bytes. -/
theorem deserialize_eq (hs : StandsAt src pos r.bytes) (hroom : pos + r.bytes.length ≤ logBufferSize + 1) :
    r.entry.logType.deserialize src pos = .ok (r.header, r.entry, r.bytes.length) ∧
      LogHeader.deserialize src pos = .ok r.header := by
  rw [LogImage.bytes, List.length_append, LogHeader.bytes_length] at *
  rw [standsAt_append, LogHeader.bytes_length] at hs
  have hheader := header_deserialize_eq hs.1 (by omega)
  have hentry : r.entry.logType.entry src pos = .ok (r.entry, 20 + r.entry.bytes.length) := by
    cases he : r.entry with
    | begin | commit | abort | staticCheckpoint => rfl
    | insert v rid name | delete v rid name =>
        rw [he] at hs hroom
        exact deserializeValue_eq hs.2 (by rw [Nat.add_assoc]; exact hroom)
    | update before after rid name =>
        rw [he] at hs hroom
        exact deserializeValues_eq hs.2 (by rw [Nat.add_assoc]; exact hroom)
  refine ⟨?_, hheader⟩
  rw [LogType.deserialize, hheader]
  simp only [bind, Except.bind, hentry]
  rfl

/-- What `serialize` has written anywhere in the buffer, the class of the record and `LogRecord` read back;
they read these bytes and no others. -/
theorem deserialize_serialize_at (r : LogImage) (dest src : Memory) (pos : Nat)
    (hroom : pos + r.bytes.length ≤ logBufferSize + 1)
    (hsrc : ∀ a, pos ≤ a → a < pos + r.bytes.length → src a = r.serialize dest pos a) :
    r.entry.logType.deserialize src pos = .ok (r.header, r.entry, r.header.logTotLen.toNat) ∧
      LogHeader.deserialize src pos = .ok r.header := by
  have hs : StandsAt src pos r.bytes := by
    refine StandsAt.congr ?_ hsrc
    rw [r.serialize_eq]
    exact standsAt_memcpy rfl
  have hlen : r.header.logTotLen.toNat = r.bytes.length := by
    rw [LogImage.header, r.logTotLen_toNat]
    rw [logBufferSize] at hroom
    omega
  rw [hlen]
  exact deserialize_eq hs hroom

def updateImage : LogImage := ⟨3, 1, 2, .update [1, 2] [3, 4] ⟨1, 0⟩ [116]⟩

theorem deserialize_updateImage :
    LogType.deserialize (updateImage.serialize (fun _ => 0) 5) 5 .update =
      .ok (⟨0, 3, 49, 1, 2⟩, updateImage.entry, 49) ∧
      LogHeader.deserialize (updateImage.serialize (fun _ => 0) 5) 5 = .ok ⟨0, 3, 49, 1, 2⟩ :=
  deserialize_serialize_at updateImage (fun _ => 0) _ 5 (by decide) fun _ _ _ => rfl

end Reads

end Rmdb
