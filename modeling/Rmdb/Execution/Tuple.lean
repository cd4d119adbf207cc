import Rmdb.Execution.SelectAnswers
import Rmdb.System.LoadTable

namespace Rmdb

open ConditionCheck

inductive Datum
  | int (v : Int32)
  | float (w : UInt32)
  | text (s : Bytes)
deriving DecidableEq

abbrev Tuple := List Datum

namespace Datum

def bytes (len : Nat) : Datum → Bytes
  | int v => intBytes v
  | float w => wordBytes w.toNat
  | text s => padTo len s

def cell : Datum → CellValue
  | int v => Sum.inlₗ (v.toInt : ℚ)
  | float _ => Sum.inrₗ []
  | text s => Sum.inrₗ (unsignedBytes s)

def printed : Datum → Bytes
  | int v => (TextStream.integerText v).map byteOf
  | float w => floatText (Float32.ofBits w)
  | text s => s

def Fits (col : ColMeta) : Datum → Prop
  | int _ => col.type = .int
  | float _ => col.type = .float
  | text s => col.type = .string ∧ 0 ∉ s ∧ s.length ≤ col.len

def ofValue (type : ColType) : Value → Datum
  | .int v => if type = .float then float (Float32.ofInt v.toInt).toBits else int v
  | .float x => if type = .int then int (floatToInt x) else float x.toBits
  | .string s _ => text s

end Datum

namespace ColMeta

def datum (col : ColMeta) (record : Bytes) : Datum :=
  match col.type with
  | .int => .int (Int32.ofInt (readInt (record.drop col.offset)))
  | .float => .float (UInt32.ofNat (readWord (record.drop col.offset)))
  | .string | .null => .text (columnValue col record)

end ColMeta

namespace Tuple

def decode (cols : List ColMeta) (record : Bytes) : Tuple := cols.map fun col => col.datum record

def encode (cols : List ColMeta) (tup : Tuple) : Bytes :=
  (List.zipWith (fun col d => d.bytes col.len) cols tup).flatten

def Typed (cols : List ColMeta) (tup : Tuple) : Prop := List.Forall₂ (fun col d => d.Fits col) cols tup

def index (cols : List ColMeta) (c : TabCol) : Nat :=
  cols.findIdx fun col => col.tabName = c.tabName ∧ col.name = c.colName

def get (cols : List ColMeta) (c : TabCol) (tup : Tuple) : Option Datum := tup[index cols c]?

def put (cols : List ColMeta) (c : TabCol) (d : Datum) (tup : Tuple) : Tuple := tup.set (index cols c) d

def key (cols : List ColMeta) (ix : IndexMeta) (tup : Tuple) : List (Option Datum) :=
  ix.cols.map fun c => get cols ⟨c.tabName, c.name⟩ tup

end Tuple

def ColMeta.Wide (col : ColMeta) : Prop := col.type = .int ∨ col.type = .float → col.len = 4

section Data

variable {col : ColMeta} {d : Datum} {v : Value} {record : Bytes}

theorem Datum.fits_ofValue (h : col.Takes v) : (Datum.ofValue col.type v).Fits col := by
  cases v with
  | int i => rcases h with h | h <;> simp [Datum.ofValue, Datum.Fits, h]
  | float x => rcases h with h | h <;> simp [Datum.ofValue, Datum.Fits, h]
  | string s n => exact h

theorem Datum.Fits.length (h : d.Fits col) (hw : col.Wide) : (d.bytes col.len).length = col.len := by
  cases d with
  | int v => rw [hw (.inl h), bytes, intBytes_length]
  | float w => rw [hw (.inr h), bytes]; rfl
  | text s =>
      rw [bytes, padTo, List.length_append, List.length_replicate]
      exact Nat.add_sub_cancel' h.2.2

theorem takeWhile_padTo {s : Bytes} (hs : 0 ∉ s) (len : Nat) : (padTo len s).takeWhile (· ≠ 0) = s := by
  have hall : ∀ b ∈ s, decide (b ≠ 0) = true := by
    intro b hb
    refine decide_eq_true fun hc => hs ?_
    rwa [hc] at hb
  rw [padTo, List.takeWhile_append_of_pos hall]
  cases len - s.length with
  | zero => simp
  | succ n => simp [List.replicate_succ]

theorem Datum.Fits.datum (h : d.Fits col) (hin : col.Inside record.length)
    (hslice : col.slice record = d.bytes col.len) :
    col.datum record = d := by
  cases d with
  | int v =>
      have ht : col.type = .int := h
      rw [ColMeta.datum, ht]
      simp only
      rw [← ColMeta.readInt_slice hin.bound (hin.width (.inl ht)), hslice, bytes, readInt_intBytes,
        Int32.ofInt_toInt]
  | float w =>
      have ht : col.type = .float := h
      rw [ColMeta.datum, ht]
      simp only
      rw [← ColMeta.readWord_slice hin.bound (hin.width (.inr ht)), hslice, bytes,
        readWord_wordBytes w.toNat_lt]
      exact congrArg _ w.ofNat_toNat
  | text s =>
      rw [ColMeta.datum, h.1]
      simp only
      rw [ColMeta.columnValue_slice, hslice, bytes, takeWhile_padTo h.2.1]

theorem Datum.cell_datum (col : ColMeta) (record : Bytes) (hnull : col.type ≠ .null) :
    (col.datum record).cell = col.cell record := by
  rw [ColMeta.datum, ColMeta.cell]
  cases ht : col.type with
  | int => exact congrArg (fun i : Int => Sum.inlₗ (i : ℚ)) (toInt_readInt _)
  | float => rfl
  | string => rfl
  | null => exact absurd ht hnull

theorem Datum.printed_datum (col : ColMeta) (record : Bytes) (hnull : col.type ≠ .null) :
    (col.datum record).printed = col.text record := by
  rw [ColMeta.datum, ColMeta.text]
  cases ht : col.type with
  | int => rfl
  | float => rfl
  | string => rfl
  | null => exact absurd ht hnull

end Data

namespace Tuple

variable {cols front back : List ColMeta} {tup tf tb : Tuple} {col : ColMeta} {d : Datum}
  {record pre suf : Bytes} {n : Nat}

theorem Typed.length (h : Typed cols tup) : cols.length = tup.length := List.Forall₂.length_eq h

theorem encode_cons : encode (col :: cols) (d :: tup) = d.bytes col.len ++ encode cols tup := rfl

theorem encode_append (h : front.length = tf.length) :
    encode (front ++ back) (tf ++ tb) = encode front tf ++ encode back tb := by
  rw [encode, List.zipWith_append h, List.flatten_append]
  rfl

theorem encode_length (h : Typed cols tup) (hw : ∀ col ∈ cols, col.Wide) :
    (encode cols tup).length = recordWidth cols := by
  induction h with
  | nil => rfl
  | @cons col d cols tup hd _ ih =>
      rw [encode_cons, List.length_append, hd.length (hw col List.mem_cons_self),
        ih fun c hc => hw c (List.mem_cons_of_mem col hc)]
      rfl

/-- The columns of the record, placed behind what comes before it, hold the tuple. -/
theorem decode_place (h : Typed cols tup) (hw : ∀ col ∈ cols, col.Wide) (hpre : pre.length = n) :
    decode (ColMeta.place n cols) (pre ++ encode cols tup) = tup := by
  induction h generalizing pre n with
  | nil => rfl
  | @cons col d cols tup hd hrest ih =>
      have hcol := hw col List.mem_cons_self
      have hlen := hd.length hcol
      have hall := encode_length hrest fun c hc => hw c (List.mem_cons_of_mem col hc)
      rw [ColMeta.place, decode, List.map_cons, encode_cons]
      refine congrArg₂ List.cons ?_ ?_
      · have hfits : d.Fits { col with offset := n } := by
          cases d <;> exact hd
        refine hfits.datum ⟨?_, hcol⟩ ?_
        · change n + col.len ≤ _
          rw [List.length_append, List.length_append, hlen, hpre]
          omega
        · rw [ColMeta.slice, ← hpre, List.drop_left]
          exact List.take_left' hlen
      · rw [← List.append_assoc]
        exact ih (fun c hc => hw c (List.mem_cons_of_mem col hc)) (by rw [List.length_append, hlen, hpre])

/-- The record of a tuple is read back as the tuple. -/
theorem decode_encode (h : Typed cols tup) (hw : ∀ col ∈ cols, col.Wide)
    (hplaced : ColMeta.place 0 cols = cols) :
    decode cols (encode cols tup) = tup := by
  have hread : decode (ColMeta.place 0 cols) ([] ++ encode cols tup) = tup := decode_place h hw rfl
  rwa [hplaced, List.nil_append] at hread

theorem get_decode {c : TabCol} :
    get cols c (decode cols record) = (cols.find? fun col => col.tabName = c.tabName ∧
    col.name = c.colName).map fun col => col.datum record := by
  rw [get, decode, List.getElem?_map, index, ← List.find?_eq_getElem?_findIdx]

theorem get_put {c c' : TabCol} (hget : getCol cols c = .ok col) (hne : c'.colName ≠ c.colName) :
    get cols c (put cols c' d tup) = get cols c tup := by
  have hfind := Database.getCol_ok.1 hget
  rw [List.find?_eq_getElem?_findIdx] at hfind
  have hidx : index cols c' ≠ index cols c := by
    intro heq
    have hname := List.findIdx_of_getElem?_eq_some hfind
    rw [index, index] at heq
    rw [← heq] at hfind
    have hname' := List.findIdx_of_getElem?_eq_some hfind
    simp only [decide_eq_true_eq] at hname hname'
    exact hne (hname'.2.symm.trans hname.2)
  rw [get, put, get, List.getElem?_set_ne hidx]

theorem offset_eq (h : ColMeta.place 0 (front ++ col :: back) = front ++ col :: back) :
    col.offset = recordWidth front := by
  rw [place_append, Nat.zero_add] at h
  obtain ⟨-, hrest⟩ := List.append_inj h length_place
  exact (congrArg ColMeta.offset (List.cons.inj hrest).1).symm

theorem Typed.split (h : Typed (front ++ col :: back) tup) :
    ∃ tf d tb, tup = tf ++ d :: tb ∧ Typed front tf ∧ d.Fits col ∧ Typed back tb := by
  induction front generalizing tup with
  | nil =>
      cases h with
      | cons hd hb => exact ⟨[], _, _, rfl, .nil, hd, hb⟩
  | cons c front ih =>
      cases h with
      | cons hc hrest =>
          obtain ⟨tf, d, tb, rfl, hf, hd, hb⟩ := ih hrest
          exact ⟨_ :: tf, d, tb, rfl, .cons hc hf, hd, hb⟩

section Record

variable (hplaced : ColMeta.place 0 cols = cols) (hw : ∀ col ∈ cols, col.Wide)

include hplaced hw

theorem inside (hcol : col ∈ cols) : col.Inside (recordWidth cols) := by
  refine ⟨?_, hw col hcol⟩
  rw [← hplaced] at hcol
  simpa using (mem_place hcol).2

theorem slice_encode (h : Typed cols tup) (hcol : col ∈ cols) :
    (col.datum (encode cols tup)).Fits col ∧
    col.slice (encode cols tup) = (col.datum (encode cols tup)).bytes col.len := by
  have hin := inside hplaced hw hcol
  obtain ⟨front, back, rfl⟩ := List.append_of_mem hcol
  obtain ⟨tf, d, tb, rfl, hf, hd, -⟩ := h.split
  have hlen : (encode front tf).length = col.offset := by
    rw [encode_length hf fun c hc => hw c (List.mem_append_left _ hc), offset_eq hplaced]
  have hslice : col.slice (encode (front ++ col :: back) (tf ++ d :: tb)) = d.bytes col.len := by
    rw [encode_append hf.length, encode_cons, ColMeta.slice, ← hlen, List.drop_left]
    exact List.take_left' (hd.length (hw col hcol))
  rw [← encode_length h hw] at hin
  rw [hd.datum hin hslice]
  exact ⟨hd, hslice⟩

theorem encode_put {c : TabCol} (h : Typed cols tup) (hget : getCol cols c = .ok col) (hd : d.Fits col) :
    copyInto (encode cols tup) col.offset (d.bytes col.len) = encode cols (put cols c d tup) ∧
    Typed cols (put cols c d tup) := by
  obtain ⟨hnamed, front, back, rfl, hfront⟩ := List.find?_eq_some_iff_append.1 (Database.getCol_ok.1 hget)
  obtain ⟨tf, old, tb, rfl, hf, hold, hb⟩ := h.split
  have hcol := hw col (List.mem_append_right front List.mem_cons_self)
  have hlen : (encode front tf).length = col.offset := by
    rw [encode_length hf fun c hc => hw c (List.mem_append_left _ hc), offset_eq hplaced]
  have hidx : index (front ++ col :: back) c = tf.length := by
    have hnone : front.findIdx (fun col => col.tabName = c.tabName ∧ col.name = c.colName) = front.length :=
      List.findIdx_eq_length_of_false fun x hx => by simpa only [Bool.not_eq_true'] using hfront x hx
    rw [index, List.findIdx_append, hnone, if_neg (lt_irrefl _), List.findIdx_cons, hnamed, cond_true,
      Nat.zero_add, hf.length]
  have hput : put (front ++ col :: back) c d (tf ++ old :: tb) = tf ++ d :: tb := by
    rw [put, hidx, List.set_append_right _ _ le_rfl, Nat.sub_self, List.set_cons_zero]
  rw [hput, encode_append hf.length, encode_append hf.length, encode_cons, encode_cons]
  refine ⟨?_, List.rel_append hf (.cons hd hb)⟩
  have hsame : (old.bytes col.len).length = (d.bytes col.len).length :=
    (hold.length hcol).trans (hd.length hcol).symm
  have hdrop : (encode front tf ++ (old.bytes col.len ++ encode back tb)).drop
    ((encode front tf).length + (d.bytes col.len).length) =
      encode back tb := by
    rw [← hsame, ← List.length_append, ← List.append_assoc, List.drop_left]
  rw [copyInto, ← hlen, List.take_left, hdrop, List.append_assoc]

variable {ix : IndexMeta} {tup' : Tuple}

theorem key_eq (h : Typed cols tup) (hfound : ∀ c ∈ ix.cols, getCol cols ⟨c.tabName, c.name⟩ = .ok c) :
    key cols ix tup = ix.cols.map fun c => some (c.datum (encode cols tup)) := by
  refine List.map_congr_left fun c hc => ?_
  have hfind := Database.getCol_ok.1 (hfound c hc)
  conv_lhs => rw [← decode_encode h hw hplaced]
  rw [get_decode, hfind]
  rfl

/-- Records have one key exactly if their tuples have the same values in the columns of the index. -/
theorem rowKey_eq_iff (h : Typed cols tup) (h' : Typed cols tup')
    (hfound : ∀ c ∈ ix.cols, getCol cols ⟨c.tabName, c.name⟩ = .ok c) :
    ix.rowKey (encode cols tup) = ix.rowKey (encode cols tup') ↔ key cols ix tup = key cols ix tup' := by
  have hin : ∀ {tup}, Typed cols tup → ∀ c ∈ ix.cols, c.Inside (encode cols tup).length := fun ht c hc =>
    encode_length ht hw ▸ inside hplaced hw (Database.mem_of_getCol (hfound c hc))
  have hslice : ∀ {tup}, Typed cols tup → ∀ c ∈ ix.cols, _ := fun ht c hc =>
    slice_encode hplaced hw ht (Database.mem_of_getCol (hfound c hc))
  rw [key_eq hplaced hw h hfound, key_eq hplaced hw h' hfound, List.map_inj_left]
  constructor
  · intro hkey c hc
    have hfields :=
      Fields.ext (Fields.of_slices fun c hc => (hin h c hc).bound)
        (Fields.of_slices fun c hc => (hin h' c hc).bound) hkey
    have heq := List.map_inj_left.1 hfields c hc
    obtain ⟨hfits, hbytes⟩ := hslice h c hc
    exact congrArg some (hfits.datum (hin h' c hc) (heq.symm.trans hbytes)).symm
  · intro hdata
    rw [IndexMeta.rowKey, IndexMeta.rowKey]
    refine congrArg List.flatten (List.map_congr_left fun c hc => ?_)
    rw [(hslice h c hc).2, (hslice h' c hc).2, Option.some.inj (hdata c hc)]

end Record

end Tuple

end Rmdb
