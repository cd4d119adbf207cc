import Rmdb.Index.NodeSearch

namespace Rmdb

open IxKey IxManager

/-- Column for column the keys have the same bytes, or a zero with and without a sign in a `FLOAT` column. -/
def SameButZeroSigns : List (ColType × Nat) → Bytes → Bytes → Prop
  | [], _, _ => True
  | c :: cols, a, b =>
      (a.take c.2 = b.take c.2 ∨ c.1 = .float ∧ readFloat a = some 0 ∧ readFloat b = some 0) ∧
        SameButZeroSigns cols (a.drop c.2) (b.drop c.2)

/-- `ix_compare` compares the keys without an exception and as an order, and finds them equal when
`memcmp` does. -/
structure OrderMatchesBytes {L : KeyColumns} (a b c : RawKey L) : Prop where
  compares : ∃ res, IxManager.ixCompare L.cols a.1 b.1 = .ok res
  antisymm : ixCompare a b < 0 ↔ 0 < ixCompare b a
  trans : ixCompare a b ≤ 0 → ixCompare b c ≤ 0 → ixCompare a c ≤ 0
  total : ixCompare a b ≤ 0 ∨ ixCompare b a ≤ 0
  bytes : ixCompare a b = 0 ↔ IxKey.memcmp a b = 0

section Columns

variable {c : ColType × Nat} {cols : List (ColType × Nat)} {a b : Bytes} {x : Int}

/-- Only zero has two encodings. -/
theorem readFloat_inj (ha : 4 ≤ a.length) (hb : 4 ≤ b.length) (hxa : readFloat a = some x)
    (hxb : readFloat b = some x) :
    a.take 4 = b.take 4 ∨ x = 0 := by
  have hwa := readWord_lt a
  have hwb := readWord_lt b
  rw [readFloat] at hxa hxb
  simp only [Option.ite_none_left_eq_some, Option.some.injEq] at hxa hxb
  by_cases hx : x = 0
  · exact .inr hx
  · refine .inl (readWord_inj ha hb ?_)
    obtain ⟨-, hxa⟩ := hxa
    obtain ⟨-, hxb⟩ := hxb
    split at hxa <;> split at hxb <;> omega

theorem colCode_eq_iff (hc : c = (.int, 4) ∨ c.1 = .string) (ha : c.2 ≤ a.length) (hb : c.2 ≤ b.length) :
    colCode c a = colCode c b ↔ a.take c.2 = b.take c.2 := by
  refine ⟨colCode_inj hc ha hb, fun h => ?_⟩
  rcases hc with rfl | hc
  · have hread : readInt a = readInt b := by
      rw [← readInt_take ha, ← readInt_take hb]
      exact congrArg readInt h
    rw [colCode, colCode, hread]
    rfl
  · rw [colCode, colCode, if_neg (by rw [hc]; simp), if_neg (by rw [hc]; simp), h]

theorem eq_floatColumn (hc : c = (.int, 4) ∨ c = (.float, 4) ∨ c.1 = .string) (hf : c.1 = .float) :
    c = (.float, 4) := by
  rcases hc with rfl | rfl | hs
  · cases hf
  · rfl
  · cases hf.symm.trans hs

theorem orderColumn_eq_iff (hc : c = (.int, 4) ∨ c = (.float, 4) ∨ c.1 = .string) (ha : c.2 ≤ a.length)
    (hb : c.2 ≤ b.length) (hna : c.1 = .float → readFloat a ≠ none)
    (hnb : c.1 = .float → readFloat b ≠ none) :
    (if c.1 = .float then [(readFloat a).getD 0] else colCode c a) =
        (if c.1 = .float then [(readFloat b).getD 0] else colCode c b) ↔
      a.take c.2 = b.take c.2 ∨ c.1 = .float ∧ readFloat a = some 0 ∧ readFloat b = some 0 := by
  by_cases hf : c.1 = .float
  · obtain rfl := eq_floatColumn hc hf
    obtain ⟨x, hx⟩ := Option.ne_none_iff_exists'.1 (hna rfl)
    obtain ⟨y, hy⟩ := Option.ne_none_iff_exists'.1 (hnb rfl)
    rw [if_pos rfl, if_pos rfl, hx, hy, Option.getD_some, Option.getD_some, List.cons.injEq,
      eq_self, and_true]
    constructor
    · rintro rfl
      exact (readFloat_inj ha hb hx hy).imp_right fun h0 => ⟨rfl, by rw [h0], by rw [h0]⟩
    · rintro (h | ⟨-, h0, h0'⟩)
      · have hread : readFloat a = readFloat b := by
          rw [← readFloat_take ha, ← readFloat_take hb]
          exact congrArg readFloat h
        rw [hx, hy] at hread
        exact Option.some.inj hread
      · exact Option.some.inj (h0.trans h0'.symm)
  · have hplain : c = (.int, 4) ∨ c.1 = .string := by
      rcases hc with h | h | h
      · exact .inl h
      · exact absurd (h ▸ rfl) hf
      · exact .inr h
    rw [if_neg hf, if_neg hf, colCode_eq_iff hplain ha hb]
    exact ⟨.inl, fun h => h.resolve_right fun hz => hf hz.1⟩

/-- Keys of numbers have one code exactly when they differ in signs of zeros only. -/
theorem orderCode_eq_iff (hc : ∀ c ∈ cols, c = (.int, 4) ∨ c = (.float, 4) ∨ c.1 = .string)
    (ha : a.length = colTotLen cols) (hb : b.length = colTotLen cols) (hna : HasNumbers cols a)
    (hnb : HasNumbers cols b) :
    orderCode cols a = orderCode cols b ↔ SameButZeroSigns cols a b := by
  induction cols generalizing a b with
  | nil => simp [orderCode, SameButZeroSigns]
  | cons c cols ih =>
      simp only [colTotLen, List.map_cons, List.sum_cons] at ha hb ih
      have hrest := ih (fun d hd => hc d (List.mem_cons_of_mem c hd)) (by rw [List.length_drop]; omega)
        (by rw [List.length_drop]; omega) hna.2 hnb.2
      have hcol :=
        orderColumn_eq_iff (hc c List.mem_cons_self) (a := a) (b := b) (by omega) (by omega) hna.1 hnb.1
      have hlen : (if c.1 = .float then [(readFloat a).getD 0] else colCode c a).length =
          (if c.1 = .float then [(readFloat b).getD 0] else colCode c b).length := by
        split
        · rfl
        · exact colCode_length c (ha.trans hb.symm)
      rw [SameButZeroSigns, orderCode, orderCode, ← hrest, ← hcol]
      refine ⟨fun h => List.append_inj h hlen, ?_⟩
      rintro ⟨h1, h2⟩
      rw [h1, h2]

end Columns

section Keys

variable {L : KeyColumns} {a b c : RawKey L}

theorem rawCompare_eq_zero_iff (ha : HasNumbers L.cols a.1) (hb : HasNumbers L.cols b.1) :
    ixCompare a b = 0 ↔ SameButZeroSigns L.cols a.1 b.1 := by
  rw [← orderCode_eq_iff L.typed a.2 b.2 ha hb]
  obtain ⟨hlt, hgt⟩ := rawCompare_order ha hb
  constructor
  · intro h
    refine le_antisymm (not_lt.1 fun hc => ?_) (not_lt.1 fun hc => ?_)
    · have := hgt.2 hc
      omega
    · have := hlt.2 hc
      omega
  · intro h
    rw [h] at hlt hgt
    have h1 := hlt.not.2 (lt_irrefl _)
    have h2 := hgt.not.2 (lt_irrefl _)
    omega

theorem rawMemcmp_eq_zero_iff : IxKey.memcmp a b = 0 ↔ a = b :=
  (memcmp_lt (a.2.trans b.2.symm)).2.2.trans Subtype.ext_iff.symm

theorem rawCompare_le_iff (ha : HasNumbers L.cols a.1) (hb : HasNumbers L.cols b.1) :
    ixCompare a b ≤ 0 ↔ orderCode L.cols a.1 ≤ orderCode L.cols b.1 := by
  rw [← not_lt, ← not_lt, (rawCompare_order ha hb).2]

theorem sameButZeroSigns_refl (cols : List (ColType × Nat)) (x : Bytes) : SameButZeroSigns cols x x := by
  induction cols generalizing x with
  | nil => exact trivial
  | cons c cols ih => exact ⟨.inl rfl, ih _⟩

/-- `ix_compare` is an order on all keys without NaN. Its equality is that of `memcmp` for two
keys exactly when they are one key or differ in more than signs of zeros. -/
theorem key_order_matches_iff (L : KeyColumns) (a b c : RawKey L) (ha : HasNumbers L.cols a.1)
    (hb : HasNumbers L.cols b.1) (hc : HasNumbers L.cols c.1) :
    OrderMatchesBytes a b c ↔ (SameButZeroSigns L.cols a.1 b.1 → a = b) := by
  have hzero := rawCompare_eq_zero_iff ha hb
  have hbytes := rawMemcmp_eq_zero_iff (a := a) (b := b)
  constructor
  · intro h hsame
    exact hbytes.1 (h.bytes.1 (hzero.2 hsame))
  · intro h
    refine ⟨?_, rawCompare_anti a b, ?_, ?_, ?_⟩
    · obtain ⟨res, hres, -⟩ := ixCompare_order L.typed (a.2.trans b.2.symm) ha hb
      exact ⟨res, hres⟩
    · rw [rawCompare_le_iff ha hb, rawCompare_le_iff hb hc, rawCompare_le_iff ha hc]
      exact le_trans
    · rw [rawCompare_le_iff ha hb, rawCompare_le_iff hb ha]
      exact le_total _ _
    · rw [hzero, hbytes]
      refine ⟨h, ?_⟩
      rintro rfl
      exact sameButZeroSigns_refl _ _

theorem key_order_matches_minusOne :
    HasNumbers floatColumn.cols minusOne.1 ∧ HasNumbers floatColumn.cols zeroFloat.1 ∧
    OrderMatchesBytes minusOne zeroFloat minusZero := by
  have hminus : HasNumbers floatColumn.cols minusOne.1 := ⟨fun _ => by decide, trivial⟩
  have hzero : HasNumbers floatColumn.cols zeroFloat.1 := ⟨fun _ => by decide, trivial⟩
  have hneg : HasNumbers floatColumn.cols minusZero.1 := ⟨fun _ => by decide, trivial⟩
  refine ⟨hminus, hzero,
    (key_order_matches_iff floatColumn minusOne zeroFloat minusZero hminus hzero hneg).2 ?_⟩
  rintro ⟨h | ⟨-, h, -⟩, -⟩
  · exact absurd h (by decide)
  · exact absurd h (by decide)

instance (L : KeyColumns) : DecidableEq (RawKey L) := inferInstanceAs
    (DecidableEq { b : Bytes // b.length = colTotLen L.cols })

def zeroLeaf : IxNode (RawKey floatColumn) := ⟨2, true, 1, 1, [(zeroFloat, ⟨1, 0⟩)], []⟩

/-- `0.0` and `-0.0` are equal for `ix_compare` and differ for `memcmp`: a leaf takes both. -/
theorem both_zeros_inserted :
    HasNumbers floatColumn.cols zeroFloat.1 ∧ HasNumbers floatColumn.cols minusZero.1 ∧
    ixCompare zeroFloat minusZero = 0 ∧ ¬ OrderMatchesBytes zeroFloat minusZero zeroFloat ∧
    (zeroLeaf.insert minusZero ⟨1, 1⟩).pairs = [(minusZero, ⟨1, 1⟩), (zeroFloat, ⟨1, 0⟩)] := by
  refine ⟨⟨fun _ => by decide, trivial⟩, ⟨fun _ => by decide, trivial⟩, by decide, fun h => ?_,
    by decide⟩
  exact absurd (h.bytes.1 (by decide)) (by decide)

end Keys

section Layouts

def minusZeros : List (ColType × Nat) → Bytes
  | [] => []
  | c :: cols => (if c.1 = .float then [0, 0, 0, 0x80] else List.replicate c.2 0) ++ minusZeros cols

def zeros (cols : List (ColType × Nat)) : Bytes := List.replicate (colTotLen cols) 0

variable {c : ColType × Nat} {cols : List (ColType × Nat)}

theorem zeros_cons (c : ColType × Nat) (cols : List (ColType × Nat)) :
    zeros (c :: cols) = List.replicate c.2 0 ++ zeros cols := by
  rw [zeros, zeros, List.replicate_append_replicate]
  simp [colTotLen]

theorem minusZeros_spec (hc : ∀ c ∈ cols, c = (.int, 4) ∨ c = (.float, 4) ∨ c.1 = .string) :
    (minusZeros cols).length = colTotLen cols ∧ HasNumbers cols (minusZeros cols) ∧
    HasNumbers cols (zeros cols) ∧
      SameButZeroSigns cols (zeros cols) (minusZeros cols) := by
  induction cols with
  | nil => exact ⟨rfl, trivial, trivial, trivial⟩
  | cons c cols ih =>
      obtain ⟨hlen, hminus, hzeros, hsame⟩ := ih fun d hd => hc d (List.mem_cons_of_mem c hd)
      rw [zeros_cons, minusZeros]
      by_cases hf : c.1 = .float
      · obtain rfl := eq_floatColumn (hc c List.mem_cons_self) hf
        have hread : readFloat ([0, 0, 0, 0x80] ++ minusZeros cols) = some 0 :=
          (readFloat_append rfl).trans (by decide)
        have hread' : readFloat (List.replicate 4 0 ++ zeros cols) = some 0 :=
          (readFloat_append rfl).trans (by decide)
        rw [if_pos rfl]
        refine ⟨?_, ⟨fun _ hn => ?_, hminus⟩, ⟨fun _ hn => ?_, hzeros⟩, .inr ⟨rfl, hread', hread⟩, hsame⟩
        · rw [List.length_append, hlen, colTotLen, colTotLen, List.map_cons, List.sum_cons]
          rfl
        · cases hread.symm.trans hn
        · cases hread'.symm.trans hn
      · rw [if_neg hf]
        refine ⟨by simp [hlen, colTotLen], ⟨fun h => absurd h hf, ?_⟩,
          ⟨fun h => absurd h hf, ?_⟩, .inl ?_, ?_⟩
        · simpa using hminus
        · simpa using hzeros
        · simp
        · simpa using hsame

theorem minusZeros_ne (hc : ∀ c ∈ cols, c = (.int, 4) ∨ c = (.float, 4) ∨ c.1 = .string)
    (hf : ∃ c ∈ cols, c.1 = .float) :
    minusZeros cols ≠ zeros cols := by
  induction cols with
  | nil => simp at hf
  | cons c cols ih =>
      intro heq
      rw [zeros_cons, minusZeros] at heq
      by_cases hcf : c.1 = .float
      · obtain rfl := eq_floatColumn (hc c List.mem_cons_self) hcf
        exact absurd (List.append_inj heq rfl).1 (by decide)
      · rw [if_neg hcf] at heq
        refine ih (fun d hd => hc d (List.mem_cons_of_mem c hd)) ?_ (List.append_inj heq rfl).2
        obtain ⟨d, hd, hdf⟩ := hf
        rcases List.mem_cons.1 hd with rfl | hd
        · exact absurd hdf hcf
        · exact ⟨d, hd, hdf⟩

/-- No `FLOAT` column of the key holds a NaN or `-0.0`. -/
def PlainFloats : List (ColType × Nat) → Bytes → Prop
  | [], _ => True
  | c :: cols, b =>
      (c.1 = .float → readFloat b ≠ none ∧ readWord b ≠ 2147483648) ∧ PlainFloats cols (b.drop c.2)

theorem PlainFloats.hasNumbers {b : Bytes} (h : PlainFloats cols b) : HasNumbers cols b := by
  induction cols generalizing b with
  | nil => trivial
  | cons c cols ih => exact ⟨fun hc => (h.1 hc).1, ih h.2⟩

theorem plainFloats_of_noFloat (hplain : ∀ c ∈ cols, c.1 ≠ .float) (b : Bytes) : PlainFloats cols b := by
  induction cols generalizing b with
  | nil => trivial
  | cons c cols ih =>
      exact ⟨fun hc => absurd hc (hplain c List.mem_cons_self),
        ih (fun d hd => hplain d (List.mem_cons_of_mem c hd)) _⟩

theorem plainFloats_zeros (hc : ∀ c ∈ cols, c = (.int, 4) ∨ c = (.float, 4) ∨ c.1 = .string) :
    PlainFloats cols (zeros cols) := by
  induction cols with
  | nil => trivial
  | cons c cols ih =>
      rw [zeros_cons]
      refine ⟨fun hf => ?_, ?_⟩
      · obtain rfl := eq_floatColumn (hc c List.mem_cons_self) hf
        have hfour : (List.replicate 4 (0 : UInt8)).length = 4 := rfl
        rw [readFloat_append hfour, readWord_append hfour]
        exact ⟨by decide, by decide⟩
      · rw [List.drop_left' List.length_replicate]
        exact ih fun d hd => hc d (List.mem_cons_of_mem c hd)

theorem readWord_of_zero {b : Bytes} (h0 : readFloat b = some 0) (hne : readWord b ≠ 2147483648) :
    readWord b = 0 := by
  have hlt := readWord_lt b
  rw [readFloat] at h0
  simp only [Option.ite_none_left_eq_some, Option.some.injEq] at h0
  obtain ⟨-, h0⟩ := h0
  split at h0 <;> omega

/-- Without `-0.0` keys that differ in signs of zeros only are one key. -/
theorem eq_of_sameButZeroSigns {a b : Bytes}
    (hc : ∀ c ∈ cols, c = (.int, 4) ∨ c = (.float, 4) ∨ c.1 = .string) (hpa : PlainFloats cols a)
    (hpb : PlainFloats cols b) (ha : a.length = colTotLen cols) (hb : b.length = colTotLen cols)
    (h : SameButZeroSigns cols a b) : a = b := by
  induction cols generalizing a b with
  | nil =>
      simp only [colTotLen, List.map_nil, List.sum_nil, List.length_eq_zero_iff] at ha hb
      rw [ha, hb]
  | cons c cols ih =>
      simp only [colTotLen, List.map_cons, List.sum_cons] at ha hb ih
      have hhead : a.take c.2 = b.take c.2 := by
        rcases h.1 with hsame | ⟨hf, hza, hzb⟩
        · exact hsame
        · obtain rfl := eq_floatColumn (hc c List.mem_cons_self) hf
          refine readWord_inj (by omega) (by omega) ?_
          rw [readWord_of_zero hza (hpa.1 rfl).2, readWord_of_zero hzb (hpb.1 rfl).2]
      have htail :=
        ih (fun d hd => hc d (List.mem_cons_of_mem c hd)) hpa.2 hpb.2 (by rw [List.length_drop]; omega)
        (by rw [List.length_drop]; omega) h.2
      rw [← List.take_append_drop c.2 a, ← List.take_append_drop c.2 b, hhead, htail]

/-- The two equalities agree on all keys of an index exactly when it has no `FLOAT` column. -/
theorem layout_matches_iff (L : KeyColumns) :
    (∀ a b c : RawKey L, HasNumbers L.cols a.1 → HasNumbers L.cols b.1 → HasNumbers L.cols c.1 →
      OrderMatchesBytes a b c) ↔
      ∀ col ∈ L.cols, col.1 ≠ .float := by
  constructor
  · intro h col hcol hf
    obtain ⟨hlen, hminus, hzeros, hsame⟩ := minusZeros_spec L.typed
    let a : RawKey L := ⟨zeros L.cols, by simp [zeros]⟩
    let b : RawKey L := ⟨minusZeros L.cols, hlen⟩
    have heq : a = b :=
      (key_order_matches_iff L a b a hzeros hminus hzeros).1 (h a b a hzeros hminus hzeros) hsame
    exact minusZeros_ne L.typed ⟨col, hcol, hf⟩ (congrArg Subtype.val heq).symm
  · intro hplain a b c ha hb hc
    refine (key_order_matches_iff L a b c ha hb hc).2 fun hsame => ?_
    exact Subtype.ext (eq_of_sameButZeroSigns L.typed (plainFloats_of_noFloat hplain a.1)
      (plainFloats_of_noFloat hplain b.1)
      a.2 b.2 hsame)

end Layouts

end Rmdb
