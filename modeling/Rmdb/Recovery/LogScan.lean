import Rmdb.Recovery.LogBuffer

namespace Rmdb

open Bitmap (Memory)

/-- The value of an `int` after a computation that left its range. -/
@[irreducible] def int32 (x : Int) : Int := (x + 2147483648) % 4294967296 - 2147483648

@[irreducible] def uint32 (x : Int) : Int := x % 4294967296

theorem int32_of_fits {x : Int} (h : FitsInt x) : int32 x = x := by
  obtain ⟨hlo, hhi⟩ := h
  rw [int32]
  omega

def LogType.ofCode (code : Int32) : Option LogType :=
  [update, insert, delete, begin, commit, abort, staticCheckpoint].find? fun t => t.code = code

inductive ScanFailure
  | decode (e : DecodeError)
  | invalidLogType
  | assertion

/-- The bytes of the buffer, how many of them `read_log` has said to have read, `buffer_.offset_`,
the offset in the file, and the position of the descriptor. -/
structure LogScan where
  buffer : Memory
  bufferSize : Int
  bufOffset : Int
  offset : Int
  pos : Nat
  found : RecoveryManager

/-- `read_log`: what it returns, the bytes, and the position of the descriptor. `lseek` to an
offset below zero fails and leaves the position. -/
def readLogBytes (file : Bytes) (pos : Nat) (size offset : Int) : Except ScanFailure (Int × Bytes × Nat) :=
  let fileSize := int32 file.length
  if fileSize < offset then .ok (-1, [], pos)
  else
    let size := min size (int32 (fileSize - offset))
    if size = 0 then .ok (0, [], pos)
    else
      let pos := if offset < 0 then pos else offset.toNat
      let data := (file.drop pos).take size.toNat
      let bytesRead : Int := if size < 0 then -1 else data.length
      if bytesRead = size then .ok (bytesRead, data, pos + data.length) else .error .assertion

namespace LogScan

variable (file : Bytes) (s : LogScan)

def read : Except ScanFailure LogScan :=
  match readLogBytes file s.pos logBufferSize s.offset with
  | .error e => .error e
  | .ok (n, data, pos) =>
      .ok { s with buffer := memcpy s.buffer 0 data data.length, bufferSize := n, pos := pos }

def start (offset : Int) : Except ScanFailure LogScan := read file ⟨fun _ => 0, 0, 0, offset, 0, {}⟩

def fillHeader : Except ScanFailure (Option LogScan) :=
  if s.bufferSize < int32 (s.bufOffset + 20) then
    match s.read file with
    | .error e => .error e
    | .ok s => .ok (if s.bufferSize < 20 then none else some { s with bufOffset := 0 })
  else .ok (some s)

/-- The buffer is filled again when the record is cut. Both comparisons are those of `uint32_t`. -/
def fillBody (totLen : Int) : Except ScanFailure (Option LogScan) :=
  if uint32 s.bufferSize < uint32 (s.bufOffset + totLen) then
    match s.read file with
    | .error e => .error e
    | .ok s => .ok (if uint32 s.bufferSize < totLen then none else some { s with bufOffset := 0 })
  else .ok (some s)

def header : Except DecodeError LogHeader :=
  if s.bufOffset < 0 then .error .outOfBuffer else LogHeader.deserialize s.buffer s.bufOffset.toNat

/-- The class that the type of the header names reads the record, which gets into the tables under
the lsn of the header. -/
def decode (base : LogHeader) : Except ScanFailure LogRecord :=
  match LogType.ofCode base.logType with
  | none => .error .invalidLogType
  | some type =>
      match type.deserialize s.buffer s.bufOffset.toNat with
      | .error e => .error (.decode e)
      | .ok (h, entry, _) => .ok (LogImage.record ⟨base.lsn, h.logTid, h.prevLsn, entry⟩)

def advance (totLen : Int) (r : LogRecord) : LogScan :=
  { s with
    bufOffset := int32 (s.bufOffset + totLen), offset := int32 (s.offset + totLen), found :=
      s.found.readRecord r }

def iterate : Except ScanFailure (Option LogScan) :=
  match s.fillHeader file with
  | .error e => .error e
  | .ok none => .ok none
  | .ok (some s) =>
      match s.header with
      | .error e => .error (.decode e)
      | .ok base =>
          match s.fillBody file base.logTotLen.toNat with
          | .error e => .error e
          | .ok none => .ok none
          | .ok (some s) =>
              match s.decode base with
              | .error e => .error e
              | .ok r => .ok (some (s.advance base.logTotLen.toNat r))

/-- The loop; `none` when it has not ended after as many iterations. -/
def scan : Nat → LogScan → Option (Except ScanFailure RecoveryManager)
  | 0, _ => none
  | fuel + 1, s =>
      match s.iterate file with
      | .error e => some (.error e)
      | .ok none => some (.ok s.found)
      | .ok (some s) => scan fuel s

def scanLog (fuel : Nat) (offset : Int) : Option (Except ScanFailure RecoveryManager) :=
  match start file offset with
  | .error e => some (.error e)
  | .ok s => s.scan file fuel

section Visible

/-- The bytes of the log file that the size of the file, an `int`, lets `read_log` see. -/
def visible (file : Bytes) : Bytes := file.take (int32 file.length).toNat

structure Follows (file : Bytes) (s : LogScan) : Prop where
  low : 0 ≤ s.bufOffset
  high : s.bufOffset ≤ s.bufferSize
  size : s.bufferSize ≤ 4194304
  offset : 0 ≤ s.offset
  seen : s.offset ≤ int32 file.length
  bytes : bytesAt s.buffer s.bufOffset.toNat (s.bufferSize - s.bufOffset).toNat <+:
    (visible file).drop s.offset.toNat

variable {file tail : Bytes} {s s' : LogScan} {n : Nat} {r : LogRecord} {rs : List LogRecord}

theorem int32_le_length (file : Bytes) :
    int32 file.length ≤ file.length ∧ int32 file.length < 2147483648 := by
  rw [int32]
  omega

theorem visible_length (h : 0 ≤ int32 file.length) : ((visible file).length : Int) = int32 file.length := by
  have := (int32_le_length file).1
  rw [visible, List.length_take]
  omega

theorem min_toNat {w o : Int} (hlo : 0 ≤ o) (hhi : o ≤ w) :
    (min (n : Int) (w - o)).toNat = min n (w.toNat - o.toNat) := by
  omega

theorem read_visible (hlo : 0 ≤ s.offset) (hhi : s.offset ≤ int32 file.length) : ∃ s', s.read file = .ok s' ∧
    s'.bufferSize = ((readLogFile (visible file) s.offset.toNat).length : Int) ∧
    bytesAt s'.buffer 0 s'.bufferSize.toNat = readLogFile (visible file) s.offset.toNat ∧
    s'.offset = s.offset ∧ s'.found = s.found := by
  have hlen := visible_length (hlo.trans hhi)
  obtain ⟨hle, hlt⟩ := int32_le_length file
  have hdiff : int32 (int32 file.length - s.offset) = int32 file.length - s.offset :=
    int32_of_fits ⟨by omega, by omega⟩
  have hdata : (file.drop s.offset.toNat).take
    (min (logBufferSize : Int) (int32 file.length - s.offset)).toNat =
      readLogFile (visible file) s.offset.toNat := by
    rw [readLogFile, visible, List.drop_take, List.take_take, min_toNat hlo hhi]
  have hcount : ((readLogFile (visible file) s.offset.toNat).length : Int) =
      min (logBufferSize : Int) (int32 file.length - s.offset) := by
    rw [readLogFile, List.length_take, List.length_drop, logBufferSize]
    omega
  rw [read, readLogBytes]
  simp only [hdiff]
  rw [if_neg (by omega)]
  by_cases hzero : min (logBufferSize : Int) (int32 file.length - s.offset) = 0
  · have hnil : readLogFile (visible file) s.offset.toNat = [] := by
      rw [hzero] at hcount
      exact List.eq_nil_of_length_eq_zero (by omega)
    rw [if_pos hzero]
    refine ⟨_, rfl, ?_, ?_, rfl, rfl⟩
    · rw [hnil]
      rfl
    · rw [hnil]
      rfl
  · have hpos : ¬min (logBufferSize : Int) (int32 file.length - s.offset) < 0 := by
      rw [logBufferSize]
      omega
    rw [if_neg hzero, if_neg (by omega : ¬s.offset < 0), if_neg hpos, hdata, hcount, if_pos rfl]
    refine ⟨_, rfl, rfl, ?_, rfl, rfl⟩
    change bytesAt _ 0 (min _ _ : Int).toNat = _
    rw [← hcount, Int.toNat_natCast]
    exact bytesAt_memcpy rfl

theorem read_follows (hlo : 0 ≤ s.offset) (hhi : s.offset ≤ int32 file.length) : ∃ s', s.read file = .ok s' ∧
    Follows file { s' with bufOffset := 0 } ∧
    s'.bufferSize = ((readLogFile (visible file) s.offset.toNat).length : Int) ∧
    s'.offset = s.offset ∧ s'.found = s.found := by
  obtain ⟨s', hread, hsize, hbytes, hoff, hfound⟩ := read_visible hlo hhi
  refine ⟨s', hread, ⟨le_rfl, ?_, ?_, ?_, ?_, ?_⟩, hsize, hoff, hfound⟩
  · change 0 ≤ s'.bufferSize
    omega
  · change s'.bufferSize ≤ 4194304
    rw [hsize, readLogFile, List.length_take, logBufferSize]
    omega
  · change 0 ≤ s'.offset
    rw [hoff]
    exact hlo
  · change s'.offset ≤ _
    rw [hoff]
    exact hhi
  · change bytesAt s'.buffer (0 : Int).toNat (s'.bufferSize - 0).toNat <+: (visible file).drop s'.offset.toNat
    rw [sub_zero, hoff]
    exact hbytes ▸ List.take_prefix _ _

def fill (file : Bytes) (s : LogScan) (size : Nat) : Except ScanFailure (Option LogScan) :=
  if s.bufferSize < s.bufOffset + size then
    match s.read file with
    | .error e => .error e
    | .ok s => .ok (if s.bufferSize < size then none else some { s with bufOffset := 0 })
  else .ok (some s)

theorem Follows.fillHeader_eq (h : Follows file s) : s.fillHeader file = fill file s 20 := by
  have hsum : int32 (s.bufOffset + 20) = s.bufOffset + 20 := int32_of_fits (by
    obtain ⟨hlow, hhigh, hsize, -⟩ := h
    constructor <;> omega)
  rw [fillHeader, fill, hsum]
  rfl

theorem Follows.fillBody_eq (h : Follows file s) (hn : n ≤ logBufferSize) :
    s.fillBody file n = fill file s n := by
  obtain ⟨hlow, hhigh, hsize, hoff, hseen, -⟩ := h
  have hn' : n ≤ 4194304 := hn
  obtain ⟨s', hread, hs', -⟩ := read_follows hoff hseen
  have h0 : 0 ≤ s'.bufferSize := hs'.high
  have h1 : s'.bufferSize ≤ 4194304 := hs'.size
  have hleft : uint32 s.bufferSize = s.bufferSize := by rw [uint32]; omega
  have hright : uint32 (s.bufOffset + n) = s.bufOffset + n := by rw [uint32]; omega
  have hnew : uint32 s'.bufferSize = s'.bufferSize := by rw [uint32]; omega
  rw [fillBody, fill, hleft, hright, hread]
  simp only [hnew]

theorem Follows.fill_some (h : Follows file s) (hn : n ≤ logBufferSize)
    (hleft : n ≤ ((visible file).drop s.offset.toNat).length) :
    ∃ s', fill file s n = .ok (some s') ∧ Follows file s' ∧ s'.bufOffset + n ≤ s'.bufferSize ∧
      s'.offset = s.offset ∧ s'.found = s.found := by
  rw [fill]
  split
  · obtain ⟨s', hread, hs', hsize, hoff, hfound⟩ := read_follows h.offset h.seen
    have hlen : ¬s'.bufferSize < n := by
      rw [hsize, readLogFile, List.length_take]
      omega
    rw [hread]
    refine ⟨{ s' with bufOffset := 0 }, ?_, hs', ?_, hoff, hfound⟩
    · simp only [hlen, if_false]
    · change (0 : Int) + n ≤ s'.bufferSize
      omega
  · exact ⟨s, rfl, h, by omega, rfl, rfl⟩

theorem Follows.fill_none (h : Follows file s) (hleft : ((visible file).drop s.offset.toNat).length < n) :
    fill file s n = .ok none := by
  obtain ⟨s', hread, -, hsize, -⟩ := read_follows h.offset h.seen
  have hlen := h.bytes.length_le
  have hcount : (bytesAt s.buffer s.bufOffset.toNat (s.bufferSize - s.bufOffset).toNat).length =
      (s.bufferSize - s.bufOffset).toNat := by simp [bytesAt]
  have hfew : s'.bufferSize < n := by
    rw [hsize, readLogFile, List.length_take]
    omega
  rw [hcount] at hlen
  rw [fill, if_pos (by have := h.low; have := h.high; omega), hread]
  simp only [hfew, if_true]

theorem ofCode_code (t : LogType) : LogType.ofCode t.code = some t := by cases t <;> rfl

theorem standsAt_of_prefix {src : Memory} {a : Nat} {b l : Bytes} (h : bytesAt src a n <+: l) (hb : b <+: l)
    (hn : b.length ≤ n) : StandsAt src a b := by
  have hlen : (bytesAt src a n).length = n := by simp [bytesAt]
  obtain ⟨c, hc⟩ := List.prefix_of_prefix_length_le hb h (by rw [hlen]; exact hn)
  have hstands : StandsAt src a (b ++ c) := by
    rw [hc, StandsAt, hlen]
  exact (standsAt_append.1 hstands).1

theorem Follows.standsAt {b : Bytes} (h : Follows file s) (hb : b <+: (visible file).drop s.offset.toNat)
    (hlen : s.bufOffset + b.length ≤ s.bufferSize) : StandsAt s.buffer s.bufOffset.toNat b :=
  standsAt_of_prefix h.bytes hb (by omega)

theorem Follows.header {part : Bytes} (h : Follows file s) (hr : r.Fits)
    (hpart : part <+: (visible file).drop s.offset.toNat) ( hprefix : part <+: r.serialize)
    (h20 : 20 ≤ part.length) (hroom : s.bufOffset + 20 ≤ s.bufferSize) :
    s.header = .ok r.image.header := by
  have hlow := h.low
  have hsize := h.size
  have hhead : r.image.header.bytes <+: r.serialize := by
    rw [← image_bytes hr.len]
    exact List.prefix_append _ _
  have hbytes : r.image.header.bytes <+: part := List.prefix_of_prefix_length_le hhead hprefix h20
  have hstands := h.standsAt (hbytes.trans hpart) hroom
  have hread := header_deserialize_eq hstands (by change s.bufOffset.toNat + 20 ≤ 4194305; omega)
  rw [LogScan.header, if_neg (not_lt.2 hlow), hread]

theorem Follows.decode (h : Follows file s) (hr : r.Fits)
    ( hprefix : r.serialize <+: (visible file).drop s.offset.toNat)
    (hroom : s.bufOffset + r.totLen ≤ s.bufferSize) : s.decode r.image.header = .ok r := by
  have hsize := h.size
  have hlow := h.low
  have hlen : r.image.bytes.length = r.totLen := image_bytes_length
  rw [← image_bytes hr.len] at hprefix
  have hstands := h.standsAt hprefix (by rw [hlen]; exact hroom)
  have hread := (deserialize_eq hstands (by rw [hlen]; change _ ≤ 4194305; omega)).1
  rw [LogScan.decode]
  change (match LogType.ofCode r.image.entry.logType.code with | none => _ | some type => _) = _
  rw [ofCode_code]
  simp only [hread]
  exact congrArg Except.ok (image_record hr)

theorem Follows.advance (h : Follows file s) (hseen : n ≤ ((visible file).drop s.offset.toNat).length)
    (hroom : s.bufOffset + n ≤ s.bufferSize) :
    Follows file (s.advance n r) ∧ (s.advance n r).offset.toNat = s.offset.toNat + n := by
  obtain ⟨hlow, hhigh, hsize, hoff, hle, hbytes⟩ := h
  have hle' : s.offset + n ≤ int32 file.length := by
    have hvis := visible_length (hoff.trans hle)
    rw [List.length_drop] at hseen
    omega
  clear hseen
  have hmax := (int32_le_length file).2
  have hbuf : int32 (s.bufOffset + n) = s.bufOffset + n := int32_of_fits ⟨by omega, by omega⟩
  have hfile : int32 (s.offset + n) = s.offset + n := int32_of_fits ⟨by omega, by omega⟩
  have hnat : (s.offset + n).toNat = s.offset.toNat + n := by omega
  have hsum : (s.bufferSize - s.bufOffset).toNat = n + (s.bufferSize - (s.bufOffset + n)).toNat := by omega
  have hstart : (s.bufOffset + n).toNat = s.bufOffset.toNat + n := by omega
  have hlow' : 0 ≤ s.bufOffset + n := by omega
  have hoff' : 0 ≤ s.offset + n := by omega
  rw [LogScan.advance, hbuf, hfile]
  refine ⟨⟨hlow', hroom, hsize, hoff', hle', ?_⟩, hnat⟩
  change bytesAt s.buffer (s.bufOffset + n).toNat (s.bufferSize - (s.bufOffset + n)).toNat <+:
    (visible file).drop (s.offset + n).toNat
  rw [hsum, bytesAt_add] at hbytes
  rw [hnat, hstart, ← List.drop_drop]
  have hdrop := hbytes.drop n
  rwa [List.drop_left' (by simp [bytesAt])] at hdrop

/-- The loop takes the whole records one after the other and ends at the torn one. -/
theorem scan_serializeAll (h : Follows file s) (hfits : ∀ r ∈ rs, r.Fits) (htail : TornRecord tail)
    (hfile : (visible file).drop s.offset.toNat = serializeAll rs ++ tail) :
    ∃ fuel, s.scan file fuel = some (.ok (rs.foldl RecoveryManager.readRecord s.found)) := by
  induction rs generalizing s with
  | nil =>
      obtain ⟨r, hr, hpre, hshort⟩ := htail
      change (visible file).drop s.offset.toNat = tail at hfile
      have hstop : s.iterate file = .ok none := by
        rw [iterate, h.fillHeader_eq]
        by_cases hhead : tail.length < 20
        · rw [h.fill_none (by rw [hfile]; exact hhead)]
        · obtain ⟨s', hfill, hs', hroom, hoff, -⟩ :=
            h.fill_some (n := 20) (by decide) (by rw [hfile]; exact not_lt.1 hhead)
          have hheader := hs'.header hr (by rw [hoff, hfile]) hpre (not_lt.1 hhead) hroom
          have hlen : r.image.header.logTotLen.toNat = r.totLen := image_logTotLen hr.len
          rw [hfill]
          simp only [hheader, hlen]
          rw [hs'.fillBody_eq hr.len, hs'.fill_none (by rw [hoff, hfile]; exact hshort)]
      exact ⟨1, by rw [scan, hstop]; rfl⟩
  | cons r rs ih =>
      have hr := hfits r List.mem_cons_self
      have hrest : (visible file).drop s.offset.toNat = r.serialize ++ (serializeAll rs ++ tail) := by
        rw [hfile, serializeAll, List.flatMap_cons, List.append_assoc]
        rfl
      have hlong : r.totLen ≤ ((visible file).drop s.offset.toNat).length := by
        rw [hrest, List.length_append, serialize_length]
        omega
      obtain ⟨s₁, hfill₁, hs₁, hroom₁, hoff₁, hfound₁⟩ :=
        h.fill_some (n := 20) (by decide) (totLen_pos.trans hlong)
      have hpre₁ : r.serialize <+: (visible file).drop s₁.offset.toNat := by
        rw [hoff₁, hrest]
        exact List.prefix_append _ _
      have hheader := hs₁.header hr hpre₁ List.prefix_rfl (by rw [serialize_length]; exact totLen_pos) hroom₁
      obtain ⟨s₂, hfill₂, hs₂, hroom₂, hoff₂, hfound₂⟩ :=
        hs₁.fill_some (n := r.totLen) hr.len (by rw [hoff₁]; exact hlong)
      have hdecode := hs₂.decode hr (by rw [hoff₂]; exact hpre₁) hroom₂
      have hlen : r.image.header.logTotLen.toNat = r.totLen := image_logTotLen hr.len
      have hiterate : s.iterate file = .ok (some (s₂.advance r.totLen r)) := by
        rw [iterate, h.fillHeader_eq, hfill₁]
        simp only [hheader, hlen]
        rw [hs₁.fillBody_eq hr.len, hfill₂]
        simp only [hdecode]
      obtain ⟨hnext, hoffset⟩ :=
        hs₂.advance (r := r) (n := r.totLen) (by rw [hoff₂, hoff₁]; exact hlong) hroom₂
      obtain ⟨fuel, hscan⟩ := ih hnext (fun x hx => hfits x (List.mem_cons_of_mem _ hx)) (by
        rw [hoffset, hoff₂, hoff₁, ← List.drop_drop, hrest, List.drop_left' serialize_length])
      refine ⟨fuel + 1, ?_⟩
      rw [scan, hiterate]
      simp only [hscan]
      rw [List.foldl_cons]
      change some (Except.ok (rs.foldl RecoveryManager.readRecord (s₂.found.readRecord r))) = _
      rw [hfound₂, hfound₁]

theorem perm_emplaceRecord {l : List LogRecord} (h : ∀ x ∈ l, r.lsn ≠ x.lsn) :
    (emplaceRecord r l).Perm (r :: l) := by
  induction l with
  | nil => exact .refl _
  | cons x l ih =>
      have hx := h x List.mem_cons_self
      rw [emplaceRecord]
      split
      · exact .refl _
      · exact ((ih fun y hy => h y (List.mem_cons_of_mem _ hy)).cons x).trans (.swap r x l)

theorem perm_logRecords (h : rs.Pairwise fun r r' => r.lsn ≠ r'.lsn) :
    (RecoveryManager.readLog rs).logRecords.Perm rs := by
  induction rs using List.reverseRecOn with
  | nil => exact .refl _
  | append_singleton rs r ih =>
      obtain ⟨hrs, -, hne⟩ := List.pairwise_append.1 h
      have hperm := ih hrs
      rw [logRecords_readLog, List.foldl_concat, ← logRecords_readLog]
      have hnew : ∀ x ∈ (RecoveryManager.readLog rs).logRecords, r.lsn ≠ x.lsn := fun x hx =>
        (hne x (hperm.mem_iff.1 hx) r (List.mem_singleton_self r)).symm
      exact (perm_emplaceRecord hnew).trans ((hperm.cons r).trans (List.perm_append_singleton r rs).symm)

theorem scan_more {fuel : Nat} {x : Except ScanFailure RecoveryManager}
    (h : s.scan file fuel = some x) (k : Nat) :
    s.scan file (fuel + k) = some x := by
  induction fuel generalizing s with
  | zero => cases h
  | succ fuel ih =>
      rw [Nat.succ_add, scan]
      rw [scan] at h
      cases hs : s.iterate file with
      | error e =>
          rw [hs] at h
          exact h
      | ok next =>
          rw [hs] at h
          cases next with
          | none => exact h
          | some s' => exact ih h

theorem scan_unique {fuel fuel' : Nat} {x y : Except ScanFailure RecoveryManager}
    (hx : s.scan file fuel = some x) (hy : s.scan file fuel' = some y) : x = y := by
  have hx' := scan_more hx fuel'
  rw [Nat.add_comm, scan_more hy fuel] at hx'
  exact (Option.some.inj hx').symm

theorem scanLog_unique {offset : Int} {fuel fuel' : Nat} {x y : Except ScanFailure RecoveryManager}
    (hx : scanLog file fuel offset = some x) (hy : scanLog file fuel' offset = some y) : x = y := by
  rw [scanLog] at hx hy
  cases hs : start file offset with
  | error e =>
      rw [hs] at hx hy
      exact Option.some.inj (hx.symm.trans hy)
  | ok s =>
      rw [hs] at hx hy
      exact scan_unique hx hy

theorem scanLog_invisible {offset : Int} (h : int32 file.length < offset) :
    scanLog file 1 offset = some (.ok {}) := by
  have hread : ∀ s : LogScan, s.offset = offset → s.read file = .ok { s with bufferSize := -1 } := by
    intro s hs
    rw [read, readLogBytes, hs, if_pos h]
    congr 2
  have hstop : ∀ s : LogScan, s.offset = offset → s.bufOffset = 0 → s.bufferSize = -1 →
      s.iterate file = .ok none := by
    intro s hs hbuf hsize
    rw [iterate, fillHeader, hbuf, hsize, if_pos (by rw [int32]; decide), hread s hs]
    rfl
  rw [scanLog, start, hread _ rfl]
  simp only
  rw [scan, hstop _ rfl rfl rfl]

theorem scanLog_visible {offset : Nat} (h : (offset : Int) ≤ int32 file.length) (hfits : ∀ r ∈ rs, r.Fits)
    (htail : TornRecord tail) (hfile : (visible file).drop offset = serializeAll rs ++ tail) :
    ∃ fuel, scanLog file fuel offset = some (.ok (RecoveryManager.readLog rs)) := by
  obtain ⟨s, hread, hs, -, hoff, hfound⟩ :=
    read_follows (s := ⟨fun _ => 0, 0, 0, offset, 0, {}⟩) (Int.natCast_nonneg offset) h
  have hsame : { s with bufOffset := 0 } = s := by
    rw [read] at hread
    split at hread
    · cases hread
    · cases hread
      rfl
  rw [hsame] at hs
  obtain ⟨fuel, hscan⟩ := scan_serializeAll hs hfits htail (by rw [hoff]; exact hfile)
  refine ⟨fuel, ?_⟩
  rw [scanLog, start, hread]
  simp only [hscan, hfound]
  rfl

theorem tornRecord_length (h : TornRecord tail) : tail.length < 4194304 := by
  obtain ⟨r, hr, -, hshort⟩ := h
  exact lt_of_lt_of_le hshort hr.len

/-- The records that the loop finds behind the restart offset are all that are there, unless the
size of the file does not fit an `int`. -/
theorem scanLog_reads_iff {offset : Nat} (hfits : ∀ r ∈ rs, r.Fits)
    (hlsn : rs.Pairwise fun r r' => r.lsn ≠ r'.lsn) (htail : TornRecord tail)
    (hfile : file.drop offset = serializeAll rs ++ tail) :
    (∃ fuel a, scanLog file fuel offset = some (.ok a) ∧ a.logRecords.Perm rs) ↔
      file.length < 2147483648 ∨ rs = [] := by
  have hlen := congrArg List.length hfile
  rw [List.length_drop, List.length_append] at hlen
  have hshort := tornRecord_length htail
  rcases lt_or_ge (int32 file.length) offset with hout | hin
  · -- nothing is read
    have hnone := scanLog_invisible hout
    have hrs : file.length < 2147483648 → rs = [] := by
      intro hint
      rw [int32_of_fits ⟨by omega, by omega⟩] at hout
      rw [List.drop_eq_nil_of_le (by omega)] at hfile
      cases rs with
      | nil => rfl
      | cons r rs =>
          have hpos := congrArg List.length hfile
          rw [serializeAll, List.flatMap_cons, List.length_append, List.length_append, serialize_length,
            List.length_nil] at hpos
          have := totLen_pos (r := r)
          omega
    constructor
    · rintro ⟨fuel, a, hscan, hperm⟩
      cases scanLog_unique hscan hnone
      exact .inr hperm.nil_eq.symm
    · intro h
      rw [h.elim hrs id]
      exact ⟨1, {}, hnone, .refl _⟩
  · obtain ⟨hle, hmax⟩ := int32_le_length file
    by_cases hint : file.length < 2147483648
    · have hsize : int32 file.length = file.length := int32_of_fits ⟨by omega, by omega⟩
      have hvis : visible file = file := by rw [visible, hsize, Int.toNat_natCast, List.take_length]
      obtain ⟨fuel, hscan⟩ := scanLog_visible hin hfits htail (by rw [hvis]; exact hfile)
      exact ⟨fun _ => .inl hint, fun _ => ⟨fuel, _, hscan, perm_logRecords hlsn⟩⟩
    · -- the loop ends before the end of the file
      have hcut : int32 file.length ≤ file.length - 4294967296 := by
        rw [int32]
        omega
      obtain ⟨n, tail', htake, htail'⟩ := take_serializeAll hfits ((int32 file.length).toNat - offset)
      have hvis : (visible file).drop offset = serializeAll (rs.take n) ++ tail' := by
        rw [visible, List.drop_take, hfile, List.take_append_of_le_length (by omega), htake]
      obtain ⟨fuel, hscan⟩ := scanLog_visible hin (fun r hr => hfits r (List.mem_of_mem_take hr)) htail' hvis
      constructor
      · rintro ⟨fuel', a, hscan', hperm⟩
        cases scanLog_unique hscan' hscan
        have hkept := perm_logRecords (hlsn.sublist (List.take_sublist n rs))
        have hcount := (hkept.symm.trans hperm).length_eq
        have hall : rs.take n = rs := (List.take_sublist n rs).eq_of_length hcount
        have htotal := List.length_take_le ((int32 file.length).toNat - offset) (serializeAll rs)
        rw [htake, hall, List.length_append] at htotal
        generalize int32 file.length = w at *
        omega
      · rintro (h | rfl)
        · exact absurd h hint
        · change _ = 0 + _ at hlen
          omega

section Samples

def scanned : List LogRecord := [⟨0, 0, -1, .begin⟩, ⟨1, 0, 0, .write ⟨⟨"t", ⟨1, 0⟩⟩, .put [5, 0, 0, 0]⟩⟩]

def cutCommit : LogRecord := ⟨2, 0, 1, .commit⟩

theorem scanLog_cutCommit : ∃ fuel a, scanLog (serializeAll scanned ++ cutCommit.serialize.take 19) fuel
    (0 : Nat) = some (.ok a) ∧
    a.logRecords.Perm scanned :=
  (scanLog_reads_iff (by decide) (by decide)
    ⟨cutCommit, by decide, List.take_prefix _ _, by decide⟩ rfl).2 (.inl (by decide))

def longFile : Bytes := List.replicate 2147483640 0 ++ (⟨0, 0, -1, .begin⟩ : LogRecord).serialize

theorem longFile_unread : longFile.drop 2147483640 = serializeAll [⟨0, 0, -1, .begin⟩] ++ [] ∧
    ¬∃ fuel a, scanLog longFile fuel
    (2147483640 : Nat) = some (.ok a) ∧ a.logRecords.Perm [⟨0, 0, -1, .begin⟩] := by
  have hlen : longFile.length = 2147483660 := by
    have h20 : (⟨0, 0, -1, .begin⟩ : LogRecord).totLen = 20 := rfl
    rw [longFile, List.length_append, List.length_replicate, serialize_length, h20]
  refine ⟨?_, ?_⟩
  · rw [longFile, List.drop_left' List.length_replicate]
    rfl
  · rintro ⟨fuel, a, hscan, hperm⟩
    cases scanLog_unique hscan (scanLog_invisible (by rw [hlen, int32]; omega))
    exact absurd hperm.length_eq (by decide)

end Samples

end Visible

end LogScan

end Rmdb
