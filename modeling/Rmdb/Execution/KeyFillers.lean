import Rmdb.Execution.ColumnOrder

namespace Rmdb

open IxManager IndexScanExecutor

/-- A column that an index can have, `FLOAT` columns among them. -/
def ColMeta.Indexable (col : ColMeta) : Prop :=
  col.type = .int ∧ col.len = 4 ∨ col.type = .float ∧ col.len = 4 ∨ col.type = .string

/-- The key of a scan without range conditions: what `build_equal_key` writes, and a filler for
every column behind. -/
def boundKey (filler : ColMeta → Bytes) (cols : List ColMeta) (equal : List Value) :
    Except ScanError Bytes := do
  let front ← buildEqualKey cols equal
  return front.flatten ++ ((cols.drop equal.length).map filler).flatten

structure Bounded (cols : List ColMeta) (equal : List Value) (key : Bytes) : Prop where
  lower : ∃ low res, boundKey lowestField cols equal = .ok low ∧
    IxManager.ixCompare (layoutOf cols) low key = .ok res ∧ res ≤ 0
  upper : ∃ high res, boundKey highestField cols equal = .ok high ∧
    IxManager.ixCompare (layoutOf cols) high key = .ok res ∧ 0 ≤ res

structure AgreesOn (cols : List ColMeta) (equal : List Value) (front : List Bytes) (key : Bytes) : Prop where
  built : buildEqualKey cols equal = .ok front
  fields : Fields (cols.take equal.length) front
  values : IxManager.ixCompare (layoutOf (cols.take equal.length)) front.flatten key = .ok 0

def FiniteFloats : List ColMeta → Bytes → Prop
  | [], _ => True
  | col :: cols, b =>
      (col.type = .float → ∃ x, readFloat b = some x ∧ x.natAbs < 2139095040) ∧
        FiniteFloats cols (b.drop col.len)

/-- Up to the first column that differs from its filler no `FLOAT` is below the smallest positive
normal number. -/
def AboveFillers : List ColMeta → Bytes → Prop
  | [], _ => True
  | col :: cols, b =>
      (col.type = .float → ∀ x, readFloat b = some x → 8388608 ≤ x) ∧
        (ixCompareCol col.type col.len (lowestField col) b = .ok 0 → AboveFillers cols (b.drop col.len))

section Column

variable {col : ColMeta} {cols front' : List ColMeta} {a b rest key : Bytes}

theorem ixCompareCol_append (hc : col.Indexable) (hl : a.length = col.len) :
    ixCompareCol col.type col.len (a ++ rest) b = ixCompareCol col.type col.len a b := by
  rcases hc with ⟨ht, h4⟩ | ⟨ht, h4⟩ | ht
  · simp only [ht, ixCompareCol, readInt_append (hl.trans h4)]
  · simp only [ht, ixCompareCol, readFloat_append (hl.trans h4)]
  · simp only [ht, ixCompareCol, ← hl, List.take_left, List.take_length]

theorem memcmp_zeros (n : Nat) (b : Bytes) : memcmp (List.replicate n 0) b ≤ 0 := by
  induction n generalizing b with
  | zero => simp [memcmp]
  | succ n ih =>
      cases b with
      | nil => simp [memcmp, List.replicate_succ]
      | cons c b =>
          have hc : ¬ c < 0 := UInt8.not_lt_zero
          rw [List.replicate_succ, memcmp, if_neg hc]
          split
          · omega
          · exact ih b

theorem memcmp_ones (n : Nat) (b : Bytes) : 0 ≤ memcmp (List.replicate n 0xFF) b := by
  induction n generalizing b with
  | zero => simp [memcmp]
  | succ n ih =>
      cases b with
      | nil => simp [memcmp, List.replicate_succ]
      | cons c b =>
          have hc : ¬ 0xFF < c := by
            rw [UInt8.lt_iff_toNat_lt]
            have := c.toNat_lt
            change ¬ 255 < c.toNat
            omega
          rw [List.replicate_succ, memcmp, if_neg hc]
          split
          · omega
          · exact ih b

theorem lowestField_length (hc : col.Indexable) : (lowestField col).length = col.len := by
  rcases hc with ⟨ht, h4⟩ | ⟨ht, h4⟩ | ht
  · rw [lowestField, ht, h4]; rfl
  · rw [lowestField, ht, h4]; rfl
  · simp [lowestField, ht]

theorem highestField_length (hc : col.Indexable) : (highestField col).length = col.len := by
  rcases hc with ⟨ht, h4⟩ | ⟨ht, h4⟩ | ht
  · rw [highestField, ht, h4]; rfl
  · rw [highestField, ht, h4]; rfl
  · simp [highestField, ht]

/-- A filler of the lower key is not above the column, but for the number in a `FLOAT` column. -/
theorem compare_lowest (hc : col.Indexable)
    (hfin : col.type = .float → ∃ x, readFloat b = some x ∧ x.natAbs < 2139095040) :
    ∃ res, ixCompareCol col.type col.len (lowestField col) b = .ok res ∧
      (res ≤ 0 ↔ (col.type = .float → ∀ x, readFloat b = some x → 8388608 ≤ x)) := by
  rcases hc with ⟨ht, -⟩ | ⟨ht, -⟩ | ht
  · have hmin : readInt (intBytes Int32.minValue) = -2147483648 := by decide
    have hlo := (readInt_range b).1
    simp only [ht, lowestField, ixCompareCol, hmin]
    refine ⟨_, rfl, iff_of_true ?_ nofun⟩
    rw [← not_lt, compareInt_pos]
    omega
  · obtain ⟨x, hx, -⟩ := hfin ht
    have hmin : readFloat (wordBytes 0x00800000) = some 8388608 := by decide
    simp only [ht, lowestField, ixCompareCol, hmin, hx]
    refine ⟨_, rfl, ?_⟩
    rw [← not_lt, compareInt_pos]
    simp
  · simp only [ht, lowestField, ixCompareCol, List.take_replicate, Nat.min_self]
    exact ⟨_, rfl, iff_of_true (memcmp_zeros _ _) nofun⟩

theorem compare_highest (hc : col.Indexable)
    (hfin : col.type = .float → ∃ x, readFloat b = some x ∧ x.natAbs < 2139095040) :
    ∃ res, ixCompareCol col.type col.len (highestField col) b = .ok res ∧ 0 ≤ res := by
  rcases hc with ⟨ht, -⟩ | ⟨ht, -⟩ | ht
  · have hmax : readInt (intBytes Int32.maxValue) = 2147483647 := by decide
    have hhi := (readInt_range b).2
    simp only [ht, highestField, ixCompareCol, hmax]
    refine ⟨_, rfl, ?_⟩
    rw [← not_lt, compareInt_neg]
    omega
  · obtain ⟨x, hx, hbound⟩ := hfin ht
    have hmax : readFloat (wordBytes 0x7f7fffff) = some 2139095039 := by decide
    simp only [ht, highestField, ixCompareCol, hmax, hx]
    refine ⟨_, rfl, ?_⟩
    rw [← not_lt, compareInt_neg]
    omega
  · simp only [ht, highestField, ixCompareCol, List.take_replicate, Nat.min_self]
    exact ⟨_, rfl, memcmp_ones _ _⟩

theorem ixCompareCol_ok (hc : col.Indexable) (a b : Bytes) :
    ∃ res, ixCompareCol col.type col.len a b = .ok res := by
  rcases hc with ⟨ht, -⟩ | ⟨ht, -⟩ | ht
  · exact ⟨_, by rw [ht]; rfl⟩
  · rw [ht, ixCompareCol]
    split
    · exact ⟨_, rfl⟩
    · exact ⟨0, rfl⟩
  · exact ⟨_, by rw [ht]; rfl⟩

theorem ixCompare_cons {res : Int} (hc : col.Indexable) (hl : a.length = col.len)
    (hres : ixCompareCol col.type col.len a b = .ok res) :
    IxManager.ixCompare (layoutOf (col :: cols)) (a ++ rest) b =
      if res ≠ 0 then .ok res else IxManager.ixCompare (layoutOf cols) rest (b.drop col.len) := by
  rw [layoutOf, List.map_cons, IxManager.ixCompare, ixCompareCol_append hc hl, hres]
  simp only [bind, Except.bind, ← hl, List.drop_left]
  rfl

end Column

section Key

variable {cols front' : List ColMeta} {front : List Bytes} {b key : Bytes}

theorem fillers_lowest (hcols : ∀ c ∈ cols, c.Indexable) (hfin : FiniteFloats cols b) :
    ∃ res, IxManager.ixCompare (layoutOf cols) (cols.map lowestField).flatten b = .ok res ∧
      (res ≤ 0 ↔ AboveFillers cols b) := by
  induction cols generalizing b with
  | nil => exact ⟨0, rfl, by simp [AboveFillers]⟩
  | cons col cols ih =>
      have hc := hcols col List.mem_cons_self
      obtain ⟨res, hres, hiff⟩ := compare_lowest hc hfin.1
      rw [List.map_cons, List.flatten_cons, ixCompare_cons hc (lowestField_length hc) hres,
        AboveFillers, ← hiff, hres]
      by_cases h0 : res = 0
      · obtain ⟨rest, hrest, hiff'⟩ := ih (fun c h => hcols c (List.mem_cons_of_mem col h)) hfin.2
        subst h0
        refine ⟨rest, by rw [if_neg (by simp), hrest], ?_⟩
        simp [hiff']
      · refine ⟨res, if_pos h0, ?_⟩
        simp [h0]

theorem fillers_highest (hcols : ∀ c ∈ cols, c.Indexable) (hfin : FiniteFloats cols b) :
    ∃ res, IxManager.ixCompare (layoutOf cols) (cols.map highestField).flatten b = .ok res ∧ 0 ≤ res := by
  induction cols generalizing b with
  | nil => exact ⟨0, rfl, le_rfl⟩
  | cons col cols ih =>
      have hc := hcols col List.mem_cons_self
      obtain ⟨res, hres, hpos⟩ := compare_highest hc hfin.1
      rw [List.map_cons, List.flatten_cons, ixCompare_cons hc (highestField_length hc) hres]
      by_cases h0 : res = 0
      · obtain ⟨rest, hrest, hpos'⟩ := ih (fun c h => hcols c (List.mem_cons_of_mem col h)) hfin.2
        exact ⟨rest, by rw [if_neg (by simpa using h0), hrest], hpos'⟩
      · exact ⟨res, if_pos h0, hpos⟩

theorem ixCompare_front (hcols : ∀ c ∈ front', c.Indexable) (hfields : Fields front' front)
    (cols : List ColMeta) (rest : Bytes)
    (hagree : IxManager.ixCompare (layoutOf front') front.flatten key = .ok 0) :
    IxManager.ixCompare (layoutOf (front' ++ cols)) (front.flatten ++ rest) key =
      IxManager.ixCompare (layoutOf cols) rest (key.drop front.flatten.length) := by
  induction hfields generalizing key with
  | nil => rfl
  | @cons col field front' front hl _ ih =>
      have hc := hcols col List.mem_cons_self
      obtain ⟨res, hres⟩ := ixCompareCol_ok hc field key
      rw [List.flatten_cons, ixCompare_cons hc hl hres] at hagree
      by_cases h0 : res = 0
      · subst h0
        rw [if_neg (by simp)] at hagree
        rw [List.flatten_cons, List.append_assoc, List.cons_append,
          ixCompare_cons hc hl hres, if_neg (by simp),
          ih (fun c h => hcols c (List.mem_cons_of_mem col h)) hagree, List.drop_drop,
          List.length_append, hl]
      · rw [if_pos h0, Except.ok.injEq] at hagree
        exact absurd hagree h0

/-- The two keys of a scan without range conditions are bounds of a stored key with the values of
the equalities exactly when no `FLOAT` column that decides against the lower key is below the
smallest positive normal number. -/
theorem bounded_iff {cols : List ColMeta} {equal : List Value} {front : List Bytes} {key : Bytes}
    (hcols : ∀ c ∈ cols, c.Indexable) (hagree : AgreesOn cols equal front key)
    (hfin : FiniteFloats (cols.drop equal.length) (key.drop front.flatten.length)) :
    Bounded cols equal key ↔ AboveFillers (cols.drop equal.length) (key.drop front.flatten.length) := by
  have htake : ∀ c ∈ cols.take equal.length, c.Indexable := fun c h => hcols c (List.mem_of_mem_take h)
  have hdrop : ∀ c ∈ cols.drop equal.length, c.Indexable := fun c h => hcols c (List.mem_of_mem_drop h)
  have hbuilt : ∀ filler, boundKey filler cols equal =
      .ok (front.flatten ++ ((cols.drop equal.length).map filler).flatten) := by
    intro filler
    rw [boundKey, hagree.built]
    rfl
  have hkey : ∀ filler, IxManager.ixCompare (layoutOf cols)
    (front.flatten ++ ((cols.drop equal.length).map filler).flatten) key =
      IxManager.ixCompare (layoutOf (cols.drop equal.length)) ((cols.drop equal.length).map filler).flatten
        (key.drop front.flatten.length) := by
    intro filler
    have h :=
      ixCompare_front htake hagree.fields (cols.drop equal.length)
        ((cols.drop equal.length).map filler).flatten
      hagree.values
    rwa [List.take_append_drop] at h
  obtain ⟨res, hres, hiff⟩ := fillers_lowest hdrop hfin
  obtain ⟨res', hres', hpos⟩ := fillers_highest hdrop hfin
  constructor
  · rintro ⟨⟨low, r, hlow, hcmp, hle⟩, -⟩
    rw [hbuilt, Except.ok.injEq] at hlow
    rw [← hlow, hkey, hres, Except.ok.injEq] at hcmp
    exact hiff.1 (hcmp ▸ hle)
  · intro h
    exact ⟨⟨_, res, hbuilt _, (hkey _).trans hres, hiff.2 h⟩, ⟨_, res', hbuilt _, (hkey _).trans hres', hpos⟩⟩

end Key

def intKeyCol : ColMeta := ⟨"t", "a", .int, 4, 0⟩

def floatKeyCol : ColMeta := ⟨"t", "f", .float, 4, 4⟩

theorem intFloat_indexable : ∀ c ∈ [intKeyCol, floatKeyCol], c.Indexable := by
  intro c hc
  rcases List.mem_pair.1 hc with rfl | rfl
  · exact .inl ⟨rfl, rfl⟩
  · exact .inr (.inl ⟨rfl, rfl⟩)

/-- The key `(7, x)` of an index on an `INT` and a `FLOAT` column, and the condition `a = 7`. -/
theorem agreesOn_seven (x : UInt32) : AgreesOn [intKeyCol, floatKeyCol] [.int 7] [intBytes 7]
    (intBytes 7 ++ wordBytes x.toNat) := by
  refine ⟨rfl, .cons rfl .nil, ?_⟩
  rfl

/-- `(7, 1.5)`. -/
theorem bounded_above :
    AgreesOn [intKeyCol, floatKeyCol] [.int 7] [intBytes 7] (intBytes 7 ++ wordBytes 0x3fc00000) ∧
    Bounded [intKeyCol, floatKeyCol] [.int 7] (intBytes 7 ++ wordBytes 0x3fc00000) := by
  have hagree := agreesOn_seven 0x3fc00000
  refine ⟨hagree, (bounded_iff intFloat_indexable hagree ?_).2 ?_⟩
  · exact ⟨fun _ => ⟨1069547520, by decide, by decide⟩, trivial⟩
  · refine ⟨fun _ x hx => ?_, fun _ => trivial⟩
    obtain rfl : 1069547520 = x := Option.some.inj (hx ▸ by decide)
    decide

/-- `(7, -1.5)` is below the lower key. -/
theorem negative_hidden :
    AgreesOn [intKeyCol, floatKeyCol] [.int 7] [intBytes 7] (intBytes 7 ++ wordBytes 0xbfc00000) ∧
    ¬ Bounded [intKeyCol, floatKeyCol] [.int 7] (intBytes 7 ++ wordBytes 0xbfc00000) := by
  refine ⟨agreesOn_seven 0xbfc00000, fun h => ?_⟩
  obtain ⟨low, res, hlow, hcmp, hle⟩ := h.lower
  have hlow' : boundKey lowestField [intKeyCol, floatKeyCol] [.int 7] =
    .ok (intBytes 7 ++ wordBytes 0x00800000) := rfl
  have hres : IxManager.ixCompare (layoutOf [intKeyCol, floatKeyCol]) (intBytes 7 ++ wordBytes 0x00800000)
      (intBytes 7 ++ wordBytes 0xbfc00000) = .ok 1 := by decide
  rw [hlow', Except.ok.injEq] at hlow
  rw [← hlow, hres, Except.ok.injEq] at hcmp
  omega

end Rmdb
