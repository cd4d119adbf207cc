import Rmdb.Recovery.Log

namespace Rmdb

/-- `log_tot_len_`: the header, and for a change the values with their sizes, the rid, and the name of
the table with its size. -/
def LogRecord.totLen (r : LogRecord) : Nat :=
  match r.body with
  | .begin | .commit | .abort | .staticCheckpoint => 20
  | .write ⟨loc, .put v⟩ | .write ⟨loc, .erase v⟩ => 20 + (4 + v.length) + 8 + (8 + loc.table.utf8ByteSize)
  | .write ⟨loc, .set before after⟩ =>
      20 + (4 + before.length) + (4 + after.length) + 8 + (8 + loc.table.utf8ByteSize)

def logBufferSize : Nat := 1024 * 4096

/-- The records in the log buffer, and those in the log file below it. -/
structure LogManager where
  globalLsn : Lsn
  buffer : List LogRecord
  file : List LogRecord

namespace LogManager

variable (m : LogManager) (t : TxnId) (prevLsn : Lsn) (body : LogBody)

def init : LogManager := ⟨0, [], []⟩

def offset : Nat := (m.buffer.map LogRecord.totLen).sum

def writeLog : LogManager := { m with buffer := [], file := m.file ++ m.buffer }

def record : LogRecord := ⟨m.globalLsn, t, prevLsn, body⟩

/-- The buffer is written first when the record does not fit. -/
def addLogToBuffer : LogManager :=
  let r := m.record t prevLsn body
  let m := if logBufferSize < m.offset + r.totLen then m.writeLog else m
  { m with globalLsn := m.globalLsn + 1, buffer := m.buffer ++ [r] }

def flushLogToDisk : LogManager := m.writeLog

def records : List LogRecord := m.file ++ m.buffer

variable {m t prevLsn body} {r : LogRecord}

@[simp] theorem records_writeLog : m.writeLog.records = m.records := by simp [records, writeLog]

@[simp] theorem records_flushLogToDisk : m.flushLogToDisk.records = m.records := records_writeLog

@[simp] theorem file_flushLogToDisk : m.flushLogToDisk.file = m.records := rfl

@[simp] theorem buffer_flushLogToDisk : m.flushLogToDisk.buffer = [] := rfl

@[simp] theorem records_addLogToBuffer :
    (m.addLogToBuffer t prevLsn body).records = m.records ++ [m.record t prevLsn body] := by
  simp only [addLogToBuffer]
  split <;> simp [records, writeLog]

theorem file_prefix_flushLogToDisk : m.file <+: m.flushLogToDisk.file := List.prefix_append _ _

theorem file_prefix_addLogToBuffer : m.file <+: (m.addLogToBuffer t prevLsn body).file := by
  simp only [addLogToBuffer]
  split
  · exact List.prefix_append _ _
  · exact List.prefix_rfl

end LogManager

end Rmdb
