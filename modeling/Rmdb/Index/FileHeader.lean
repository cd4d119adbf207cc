import Rmdb.Index.Key
import Rmdb.Record.MemoryBlock

namespace Rmdb

open Bitmap (Memory)

def ColType.code : ColType → Int32
  | int => 0
  | float => 1
  | string => 2
  | null => 3

def ColType.ofCode (code : Int32) : Option ColType :=
  if code = 0 then some int else if code = 1 then some float else if code = 2 then some string
  else if code = 3 then some null else none

structure IxHeader where
  firstFreePageNo : Int32
  numPages : Int32
  rootPage : Int32
  colNum : Int32
  colTypes : List ColType
  colLens : List Int32
  colTotLen : Int32
  btreeOrder : Int32
  keysSize : Int32
  firstLeaf : Int32
  lastLeaf : Int32
  totLen : Int32
deriving DecidableEq

structure HeaderWriter where
  dest : Memory
  offset : Nat

def HeaderWriter.put (w : HeaderWriter) (v : Int32) : HeaderWriter :=
  ⟨memcpy w.dest w.offset (intBytes v) 4, w.offset + 4⟩

def intAt (src : Memory) (offset : Nat) : Int32 := Int32.ofInt (readInt (bytesAt src offset 4))

namespace IxHeader

/-- The sizes are added up as `size_t`, and the sum is cut to an `int`. -/
def updateTotLen (h : IxHeader) : IxHeader :=
  { h with totLen := 0 + (4 * 4 + 4 * 6) + (4 * h.colNum + 4 * h.colNum) }

def putTypes (h : IxHeader) (w : HeaderWriter) : HeaderWriter :=
  (List.range h.colNum.toInt.toNat).foldl (fun w i => w.put (h.colTypes.getD i .int).code) w

def putLens (h : IxHeader) (w : HeaderWriter) : HeaderWriter :=
  (List.range h.colNum.toInt.toNat).foldl (fun w i => w.put (h.colLens.getD i 0)) w

/-- `none` when the assertion fails. -/
def serialize (h : IxHeader) (dest : Memory) : Option Memory :=
  let w : HeaderWriter := ⟨dest, 0⟩
  let w := w.put h.totLen
  let w := w.put h.firstFreePageNo
  let w := w.put h.numPages
  let w := w.put h.rootPage
  let w := w.put h.colNum
  let w := h.putTypes w
  let w := h.putLens w
  let w := w.put h.colTotLen
  let w := w.put h.btreeOrder
  let w := w.put h.keysSize
  let w := w.put h.firstLeaf
  let w := w.put h.lastLeaf
  if Int32.ofNat w.offset = h.totLen then some w.dest else none

variable (src : Memory)

def readTypes (offset : Nat) : Nat → Option (List ColType)
  | 0 => some []
  | left + 1 => do
      let type ← ColType.ofCode (intAt src offset)
      let types ← readTypes (offset + 4) left
      return type :: types

def readLens (offset : Nat) : Nat → List Int32
  | 0 => []
  | left + 1 => intAt src offset :: readLens (offset + 4) left

/-- `deserialize` into a new header. `none` when the assertion fails, or when a column type is
none of the enumeration. -/
def deserialize : Option IxHeader := do
  let offset := 0
  let totLen := intAt src offset
  let offset := offset + 4
  let firstFreePageNo := intAt src offset
  let offset := offset + 4
  let numPages := intAt src offset
  let offset := offset + 4
  let rootPage := intAt src offset
  let offset := offset + 4
  let colNum := intAt src offset
  let offset := offset + 4
  let colTypes ← readTypes src offset colNum.toInt.toNat
  let offset := offset + 4 * colNum.toInt.toNat
  let colLens := readLens src offset colNum.toInt.toNat
  let offset := offset + 4 * colNum.toInt.toNat
  let colTotLen := intAt src offset
  let offset := offset + 4
  let btreeOrder := intAt src offset
  let offset := offset + 4
  let keysSize := intAt src offset
  let offset := offset + 4
  let firstLeaf := intAt src offset
  let offset := offset + 4
  let lastLeaf := intAt src offset
  let offset := offset + 4
  if Int32.ofNat offset = totLen then
    return ⟨firstFreePageNo, numPages, rootPage, colNum, colTypes, colLens, colTotLen, btreeOrder,
      keysSize, firstLeaf, lastLeaf, totLen⟩
  else none

end IxHeader

section Words

variable {dest src : Memory} {ws vs : List Int32} {v : Int32} {a n : Nat}

def wordsBytes (ws : List Int32) : Bytes := ws.flatMap intBytes

def WordsAt (src : Memory) (a : Nat) (ws : List Int32) : Prop := StandsAt src a (wordsBytes ws)

theorem wordsBytes_length (ws : List Int32) : (wordsBytes ws).length = 4 * ws.length := by
  induction ws with
  | nil => rfl
  | cons v ws ih =>
      rw [wordsBytes, List.flatMap_cons, List.length_append, List.length_cons, intBytes_length]
      rw [wordsBytes] at ih
      omega

theorem wordsAt_append :
    WordsAt src a (vs ++ ws) ↔ WordsAt src a vs ∧ WordsAt src (a + 4 * vs.length) ws := by
  rw [WordsAt, wordsBytes, List.flatMap_append, standsAt_append]
  rw [← wordsBytes, ← wordsBytes, wordsBytes_length, WordsAt, WordsAt]

theorem WordsAt.cons (h : WordsAt src a (v :: ws)) : intAt src a = v ∧ WordsAt src (a + 4) ws := by
  have hsplit : WordsAt src a ([v] ++ ws) := h
  obtain ⟨hv, hws⟩ := wordsAt_append.1 hsplit
  rw [WordsAt, wordsBytes, List.flatMap_singleton, StandsAt, intBytes_length] at hv
  exact ⟨by rw [intAt, hv, readInt_intBytes, Int32.ofInt_toInt], hws⟩

def HeaderWriter.wrote (dest : Memory) (ws : List Int32) : HeaderWriter :=
  ⟨memcpy dest 0 (wordsBytes ws) (4 * ws.length), 4 * ws.length⟩

theorem wrote_nil (dest : Memory) : HeaderWriter.wrote dest [] = ⟨dest, 0⟩ := by
  have hdest : memcpy dest 0 (wordsBytes []) 0 = dest := funext fun x => memcpy_outside (.inr (Nat.zero_le x))
  rw [HeaderWriter.wrote, List.length_nil, Nat.mul_zero, hdest]

theorem put_wrote : (HeaderWriter.wrote dest ws).put v = .wrote dest (ws ++ [v]) := by
  have h := memcpy_zero_append dest (intBytes v) 4 (wordsBytes_length ws)
  have hbytes : wordsBytes (ws ++ [v]) = wordsBytes ws ++ intBytes v := by simp [wordsBytes]
  rw [HeaderWriter.put, HeaderWriter.wrote, HeaderWriter.wrote, hbytes, List.length_append,
    List.length_singleton, Nat.mul_add]
  rw [h]

theorem putAll_wrote (f : Nat → Int32) (is : List Nat) :
    is.foldl (fun w i => w.put (f i)) (HeaderWriter.wrote dest ws) = .wrote dest (ws ++ is.map f) := by
  induction is generalizing ws with
  | nil => simp
  | cons i is ih =>
      rw [List.foldl_cons, put_wrote, ih, List.map_cons, List.append_assoc, List.singleton_append]

theorem map_range_getD {α : Type} (l : List α) (d : α) (f : α → Int32) :
    (List.range l.length).map (fun i => f (l.getD i d)) = l.map f := by
  refine List.ext_getElem (by simp) fun i h _ => ?_
  have hi : i < l.length := by simpa using h
  simp [hi]

theorem readLens_eq {ls : List Int32} (h : WordsAt src a ls) : IxHeader.readLens src a ls.length = ls := by
  induction ls generalizing a with
  | nil => rfl
  | cons l ls ih =>
      obtain ⟨hl, hls⟩ := h.cons
      rw [List.length_cons, IxHeader.readLens, hl, ih hls]

theorem ofCode_code (type : ColType) : ColType.ofCode type.code = some type := by cases type <;> rfl

theorem readTypes_eq {ts : List ColType} (h : WordsAt src a (ts.map ColType.code)) :
    IxHeader.readTypes src a ts.length = some ts := by
  induction ts generalizing a with
  | nil => rfl
  | cons t ts ih =>
      obtain ⟨ht, hts⟩ := h.cons
      rw [List.length_cons, IxHeader.readTypes, ht, ofCode_code, ih hts]
      rfl

end Words

namespace IxHeader

variable {h : IxHeader} {src : Memory}

structure Complete (h : IxHeader) : Prop where
  types : (h.colTypes.length : Int) = h.colNum.toInt
  lens : (h.colLens.length : Int) = h.colNum.toInt
  totLen : h.totLen = h.updateTotLen.totLen

/-- `serialize` writes the first `tot_len_` bytes of its destination and no others, and
`deserialize` makes the header of them, whatever stands behind them. -/
structure RoundTrips (h : IxHeader) : Prop where
  writes : ∃ bytes : Bytes, (bytes.length : Int) = h.totLen.toInt ∧
    ∀ dest, h.serialize dest = some (memcpy dest 0 bytes bytes.length)
  reads : ∀ dest out src, h.serialize dest = some out →
    (∀ a : Nat, (a : Int) < h.totLen.toInt → src a = out a) →
    deserialize src = some h

def words (h : IxHeader) : List Int32 :=
  [h.totLen, h.firstFreePageNo, h.numPages, h.rootPage,
    h.colNum] ++ (h.colTypes.map ColType.code ++ (h.colLens ++
    [h.colTotLen, h.btreeOrder, h.keysSize, h.firstLeaf, h.lastLeaf]))

theorem Complete.words_length (hc : Complete h) : (h.words.length : Int) = 10 + 2 * h.colNum.toInt := by
  have htypes := hc.types
  have hlens := hc.lens
  simp only [words, List.length_append, List.length_map, List.length_cons, List.length_nil]
  omega

theorem Complete.offset_eq (hc : Complete h) : Int32.ofNat (4 * h.words.length) = h.totLen := by
  have hlen : ((4 * h.words.length : Nat) : Int) =
      0 + (4 * 4 + 4 * 6) + (4 * h.colNum.toInt + 4 * h.colNum.toInt) := by
    have := hc.words_length
    push_cast
    omega
  rw [← Int32.ofInt_eq_ofNat, hlen, hc.totLen]
  simp only [updateTotLen, Int32.ofInt_add, Int32.ofInt_mul, Int32.ofInt_toInt]
  rfl

theorem Complete.serialize_eq (hc : Complete h) (dest : Memory) :
    h.serialize dest = some (memcpy dest 0 (wordsBytes h.words) (4 * h.words.length)) := by
  have htypes : h.colNum.toInt.toNat = h.colTypes.length := by
    have := hc.types
    omega
  have hlens : h.colNum.toInt.toNat = h.colLens.length := by
    have := hc.lens
    omega
  have hputTypes : ∀ ws, h.putTypes (.wrote dest ws) = .wrote dest (ws ++ h.colTypes.map ColType.code) := by
    intro ws
    rw [putTypes, putAll_wrote fun i => (h.colTypes.getD i .int).code, htypes, map_range_getD]
  have hputLens : ∀ ws, h.putLens (.wrote dest ws) = .wrote dest (ws ++ h.colLens) := by
    intro ws
    have hmap := map_range_getD h.colLens 0 id
    rw [List.map_id] at hmap
    rw [putLens, putAll_wrote fun i => h.colLens.getD i 0, hlens]
    exact congrArg (fun vs => HeaderWriter.wrote dest (ws ++ vs)) hmap
  have hoff := hc.offset_eq
  simp only [serialize, ← wrote_nil dest, put_wrote, hputTypes, hputLens]
  simp only [words, List.cons_append, List.nil_append, List.append_assoc] at hoff ⊢
  simp only [HeaderWriter.wrote, hoff, if_true]

theorem Complete.deserialize_eq (hc : Complete h) (hw : WordsAt src 0 h.words) :
    deserialize src = some h := by
  have htypes : h.colNum.toInt.toNat = h.colTypes.length := by
    have := hc.types
    omega
  have hlens : h.colNum.toInt.toNat = h.colLens.length := by
    have := hc.lens
    omega
  have hlen : 4 * h.words.length = 20 + 4 * h.colNum.toInt.toNat + 4 * h.colNum.toInt.toNat + 20 := by
    have := hc.types
    have := hc.words_length
    omega
  have hoff := hc.offset_eq
  rw [hlen] at hoff
  obtain ⟨hfront, hrest⟩ := wordsAt_append.1 hw
  obtain ⟨htot, hfront⟩ := hfront.cons
  obtain ⟨hfree, hfront⟩ := hfront.cons
  obtain ⟨hpages, hfront⟩ := hfront.cons
  obtain ⟨hroot, hfront⟩ := hfront.cons
  have hnum := hfront.cons.1
  obtain ⟨hcolTypes, hrest⟩ := wordsAt_append.1 hrest
  obtain ⟨hcolLens, hback⟩ := wordsAt_append.1 hrest
  rw [List.length_map, ← htypes, ← hlens] at hback
  rw [List.length_map, ← htypes] at hcolLens
  have hreadTypes := readTypes_eq hcolTypes
  have hreadLens := readLens_eq hcolLens
  rw [← htypes] at hreadTypes
  rw [← hlens] at hreadLens
  simp only [List.length_cons, List.length_nil] at hreadTypes hreadLens hback
  obtain ⟨hcolTotLen, hback⟩ := hback.cons
  obtain ⟨horder, hback⟩ := hback.cons
  obtain ⟨hkeys, hback⟩ := hback.cons
  obtain ⟨hfirst, hback⟩ := hback.cons
  have hlast := hback.cons.1
  simp only [Nat.zero_add, Nat.reduceMul, Nat.reduceAdd] at hfree hpages hroot hnum hreadTypes hreadLens
  simp only [Nat.zero_add, Nat.reduceMul, Nat.reduceAdd, Nat.add_assoc]
    at hcolTotLen horder hkeys hfirst hlast hoff
  simp only [deserialize, Nat.zero_add, Nat.reduceAdd, Nat.add_assoc, htot, hfree, hpages, hroot, hnum,
    hreadTypes, hreadLens, hcolTotLen, horder, hkeys, hfirst, hlast, hoff, if_true, Option.bind_eq_bind,
    Option.bind_some, Option.pure_def]

theorem length_le_of_memcpy {b c : Bytes}
    (h : ∀ dest : Memory, memcpy dest 0 b b.length = memcpy dest 0 c c.length) :
    c.length ≤ b.length := by
  by_contra hlt
  have hat := congrFun (h fun _ => c.getD b.length 0 + 1) b.length
  rw [memcpy, memcpy, if_neg (by omega), if_pos (by omega), Nat.sub_zero] at hat
  have hnat := congrArg UInt8.toNat hat
  have hsize := (c.getD b.length 0).toNat_lt
  rw [UInt8.toNat_add, UInt8.toNat_one] at hnat
  omega

theorem Complete.roundTrips_of_lt (hc : Complete h) (hlt : 40 + 8 * h.colNum.toInt < 2147483648) :
    RoundTrips h := by
  have hbytes := wordsBytes_length h.words
  have hlen : (h.totLen.toInt : Int) = (4 * h.words.length : Nat) := by
    have := hc.words_length
    rw [← hc.offset_eq, Int32.toInt_ofNat_of_lt (by omega)]
  refine ⟨⟨wordsBytes h.words, by rw [hbytes, hlen], fun dest => by rw [hbytes, hc.serialize_eq]⟩, ?_⟩
  intro dest out src hout hsrc
  rw [hc.serialize_eq] at hout
  cases hout
  refine hc.deserialize_eq (StandsAt.congr (standsAt_memcpy hbytes) fun a _ ha => hsrc a ?_)
  omega

theorem Complete.lt_of_roundTrips (hc : Complete h) (hr : RoundTrips h) :
    40 + 8 * h.colNum.toInt < 2147483648 := by
  obtain ⟨bytes, hlen, hwrites⟩ := hr.writes
  have hsame : ∀ dest : Memory, memcpy dest 0 (wordsBytes h.words) (wordsBytes h.words).length =
      memcpy dest 0 bytes bytes.length := by
    intro dest
    have := hwrites dest
    rw [hc.serialize_eq, ← wordsBytes_length] at this
    exact Option.some.inj this
  have hle := length_le_of_memcpy fun dest => (hsame dest).symm
  have hwords := hc.words_length
  have hmax := Int32.toInt_lt h.totLen
  rw [wordsBytes_length] at hle
  omega

/-- The header of an index survives the way through its file exactly when its length is an `int`. -/
theorem round_trips_iff (h : IxHeader) (hc : Complete h) : RoundTrips h ↔ h.colNum.toInt < 268435451 := by
  constructor
  · intro hr
    have := hc.lt_of_roundTrips hr
    omega
  · intro hlt
    exact hc.roundTrips_of_lt (by omega)

def emptyColumns (n : Nat) : IxHeader :=
  updateTotLen ⟨-1, 3, 2, Int32.ofNat n, List.replicate n .string, List.replicate n 0, 0, 508, 0, 2, 2, 0⟩

theorem complete_emptyColumns {n : Nat} (hn : n < 2 ^ 31) : Complete (emptyColumns n) where
  types := by
    have htoInt : (emptyColumns n).colNum.toInt = n := Int32.toInt_ofNat_of_lt hn
    rw [htoInt, emptyColumns, updateTotLen, List.length_replicate]
  lens := by
    have htoInt : (emptyColumns n).colNum.toInt = n := Int32.toInt_ofNat_of_lt hn
    rw [htoInt, emptyColumns, updateTotLen, List.length_replicate]
  totLen := rfl

theorem round_trips_iff_two : Complete (emptyColumns 2) ∧ RoundTrips (emptyColumns 2) :=
  ⟨complete_emptyColumns (by decide), (round_trips_iff _ (complete_emptyColumns (by decide))).2 (by decide)⟩

/-- `tot_len_` gets the value -2147483648. -/
theorem many_columns_overflow :
    Complete (emptyColumns 268435451) ∧ ¬ RoundTrips (emptyColumns 268435451) := by
  have hc : Complete (emptyColumns 268435451) := complete_emptyColumns (by decide)
  refine ⟨hc, fun hr => ?_⟩
  have htoInt : (emptyColumns 268435451).colNum.toInt = 268435451 := Int32.toInt_ofNat_of_lt (by decide)
  have := hc.lt_of_roundTrips hr
  omega

end IxHeader

def IxManager.createHeader (cols : List (ColType × Nat)) : Option IxHeader :=
  if 512 < colTotLen cols then none
  else
    let order := (4096 - 24) / (colTotLen cols + 8) - 1
    some (IxHeader.updateTotLen ⟨-1, 3, 2, Int32.ofNat cols.length, cols.map Prod.fst,
      cols.map fun c => Int32.ofNat c.2, Int32.ofNat (colTotLen cols), Int32.ofNat order,
      Int32.ofNat ((order + 1) * colTotLen cols), 2, 2, 0⟩)

theorem IxHeader.complete_updateTotLen {cols : List (ColType × Nat)} {tot order keys : Int32}
    (hlt : cols.length < 2 ^ 31) :
    Complete (updateTotLen ⟨-1, 3, 2, Int32.ofNat cols.length, cols.map Prod.fst,
      cols.map fun c => Int32.ofNat c.2, tot, order, keys,
      2, 2, 0⟩) := by
  have htoInt : (Int32.ofNat cols.length).toInt = cols.length := Int32.toInt_ofNat_of_lt hlt
  refine ⟨?_, ?_, rfl⟩
  · rw [updateTotLen, htoInt, List.length_map]
  · rw [updateTotLen, htoInt, List.length_map]

theorem createHeader_roundTrips {cols : List (ColType × Nat)} {h : IxHeader}
    (hrun : IxManager.createHeader cols = some h) (hlt : cols.length < 268435451) : h.RoundTrips := by
  rw [IxManager.createHeader, Option.ite_none_left_eq_some] at hrun
  obtain ⟨-, hrun⟩ := hrun
  cases hrun
  apply (IxHeader.complete_updateTotLen (by omega)).roundTrips_of_lt
  have htoInt : (Int32.ofNat cols.length).toInt = cols.length := Int32.toInt_ofNat_of_lt (by omega)
  rw [IxHeader.updateTotLen, htoInt]
  omega

end Rmdb
