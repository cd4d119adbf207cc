import Rmdb.Index.Handle
import Rmdb.Index.NodeSpec
import Mathlib.Data.List.Lex
import Mathlib.Tactic

namespace Rmdb

inductive ColType
  | int
  | float
  | string
  | null
deriving DecidableEq, Repr

/-- `memcmp` over two buffers of one length; only the sign of its result is specified. -/
def memcmp : Bytes → Bytes → Int
  | a :: as, b :: bs => if a < b then -1 else if b < a then 1 else memcmp as bs
  | _, _ => 0

/-- The four bytes of an `int` or a `float`, little end first. -/
def readWord (b : Bytes) : Nat :=
  (b.getD 0 0).toNat + 256 * (b.getD 1 0).toNat + 65536 * (b.getD 2 0).toNat + 16777216 * (b.getD 3 0).toNat

def readInt (b : Bytes) : Int := if readWord b < 2147483648 then readWord b else readWord b - 4294967296

def wordBytes (w : Nat) : Bytes :=
  [UInt8.ofNat w, UInt8.ofNat (w / 256), UInt8.ofNat (w / 65536), UInt8.ofNat (w / 16777216)]

def intBytes (v : Int32) : Bytes := wordBytes v.toUInt32.toNat

def floatBytes (x : Float32) : Bytes := wordBytes x.toBits.toNat

/-- The place of a `float` in the order of floats, both zeros at `0`; a NaN has none. -/
def readFloat (b : Bytes) : Option Int :=
  let magnitude : Nat := readWord b % 2147483648
  if 2139095040 < magnitude then none
  else some (if readWord b < 2147483648 then magnitude else -magnitude)

def compareInt (a b : Int) : Int := if a < b then -1 else if b < a then 1 else 0

namespace IxManager

def ixCompareCol (type : ColType) (colLen : Nat) (a b : Bytes) : Ix Int :=
  match type with
  | .int => .ok (compareInt (readInt a) (readInt b))
  | .float =>
      match readFloat a, readFloat b with
      | some x, some y => .ok (compareInt x y)
      | _, _ => .ok 0
  | .string => .ok (memcmp (a.take colLen) (b.take colLen))
  | .null => .error .internalError

/-- Column by column, up to the first that differs. -/
def ixCompare : List (ColType × Nat) → Bytes → Bytes → Ix Int
  | [], _, _ => .ok 0
  | (type, colLen) :: cols, a, b => do
      let res ← ixCompareCol type colLen a b
      if res ≠ 0 then return res else ixCompare cols (a.drop colLen) (b.drop colLen)

def colTotLen (cols : List (ColType × Nat)) : Nat := (cols.map Prod.snd).sum

end IxManager

open IxManager

/-- The columns of an index over `INT` and `CHAR` columns, as `create_index` accepts them. -/
structure KeyLayout where
  cols : List (ColType × Nat)
  typed : ∀ c ∈ cols, c = (.int, 4) ∨ c.1 = .string
  bounded : colTotLen cols ≤ 512

def Key (L : KeyLayout) : Type := { b : Bytes // b.length = colTotLen L.cols }

instance (L : KeyLayout) : DecidableEq (Key L) := inferInstanceAs
    (DecidableEq { b : Bytes // b.length = colTotLen L.cols })

instance (L : KeyLayout) : IxKey (Key L) where
  ixCompare a b := match IxManager.ixCompare L.cols a.1 b.1 with
    | .ok res => res
    | .error _ => 0
  memcmp a b := Rmdb.memcmp a.1 b.1
  zero := ⟨List.replicate (colTotLen L.cols) 0, by simp⟩

namespace IxManager

/-- `(PAGE_SIZE - sizeof(IxPageHdr)) / (col_tot_len + sizeof(Rid)) - 1`. -/
def btreeOrder (L : KeyLayout) : Nat := (4096 - 24) / (colTotLen L.cols + 8) - 1

/-- The index that `create_index` writes and `open_index` opens: the leaf list header on
page `1` and an empty root leaf on page `2`. Page `0` holds the file header and is not a
node. Creating leaves the page counter at `2`, opening moves it to `3`. -/
def createIndex (L : KeyLayout) : IxIndexHandle (Key L) where
  fileHdr := ⟨3, 2, btreeOrder L, 2, 2⟩
  pages p :=
    if p = 1 then some ⟨-1, true, 2, 2, [], []⟩
    else if p = 2 then some ⟨-1, true, 1, 1, [], []⟩
    else none
  fd2pageno := 3

end IxManager

section Order

theorem lex_append {x y xs ys : List Int} (hl : x.length = y.length) :
    x ++ xs < y ++ ys ↔ x < y ∨ x = y ∧ xs < ys := by
  induction x generalizing y with
  | nil =>
      obtain rfl := List.length_eq_zero_iff.1 hl.symm
      simp
  | cons a x ih =>
      cases y with
      | nil => simp at hl
      | cons b y =>
          have := ih (y := y) (by simpa using hl)
          simp only [List.cons_append, List.cons_lt_cons_iff, this, List.cons.injEq]
          tauto

def unsignedBytes (b : Bytes) : List Int := b.map (fun c => (c.toNat : Int))

theorem memcmp_lt {a b : Bytes} (hl : a.length = b.length) :
    (memcmp a b < 0 ↔ unsignedBytes a < unsignedBytes b) ∧
    (0 < memcmp a b ↔ unsignedBytes b < unsignedBytes a) ∧
      (memcmp a b = 0 ↔ a = b) := by
  induction a generalizing b with
  | nil =>
      obtain rfl := List.length_eq_zero_iff.1 hl.symm
      simp [memcmp, unsignedBytes]
  | cons c a ih =>
      cases b with
      | nil => simp at hl
      | cons d b =>
          obtain ⟨h1, h2, h3⟩ := ih (b := b) (by simpa using hl)
          have hcd : (c < d ↔ (c.toNat : Int) < d.toNat) ∧ (d < c ↔ (d.toNat : Int) < c.toNat) ∧
              (c = d ↔ (c.toNat : Int) = d.toNat) := by
            refine ⟨?_, ?_, ?_⟩
            · rw [UInt8.lt_iff_toNat_lt]; omega
            · rw [UInt8.lt_iff_toNat_lt]; omega
            · rw [← UInt8.toNat_inj]; omega
          simp only [unsignedBytes, List.map_cons, List.cons_lt_cons_iff, List.cons.injEq] at h1 h2 ⊢
          rw [memcmp]
          rcases lt_trichotomy (c.toNat : Int) d.toNat with hlt | heq | hgt
          · rw [if_pos (hcd.1.2 hlt)]
            refine ⟨by simp [hlt], ?_, ?_⟩
            · simp only [show ¬ (0 : Int) < -1 by omega, false_iff]; omega
            · simp only [show ¬ (-1 : Int) = 0 by omega, false_iff, hcd.2.2]; omega
          · rw [if_neg (by rw [hcd.1]; omega), if_neg (by rw [hcd.2.1]; omega), h1, h2, h3, hcd.2.2]
            refine ⟨by simp [heq], by simp [heq], by simp [heq]⟩
          · rw [if_neg (by rw [hcd.1]; omega), if_pos (hcd.2.1.2 hgt)]
            refine ⟨?_, by simp [hgt], ?_⟩
            · simp only [show ¬ (1 : Int) < 0 by omega, false_iff]; omega
            · simp only [show ¬ (1 : Int) = 0 by omega, false_iff, hcd.2.2]; omega

theorem compareInt_neg (a b : Int) : compareInt a b < 0 ↔ a < b := by
  rw [compareInt]
  split
  · simp [*]
  · split <;> simp_all

theorem compareInt_pos (a b : Int) : 0 < compareInt a b ↔ b < a := by
  rw [compareInt]
  split
  · next hlt => simp [le_of_lt hlt]
  · split <;> simp_all

theorem readWord_inj {a b : Bytes} (ha : 4 ≤ a.length) (hb : 4 ≤ b.length) (h : readWord a = readWord b) :
    a.take 4 = b.take 4 := by
  match a, b, ha, hb with
  | a0 :: a1 :: a2 :: a3 :: _, b0 :: b1 :: b2 :: b3 :: _, _, _ =>
      simp only [readWord, List.getD_cons_zero, List.getD_cons_succ] at h
      have := a0.toNat_lt
      have := a1.toNat_lt
      have := a2.toNat_lt
      have := a3.toNat_lt
      have := b0.toNat_lt
      have := b1.toNat_lt
      have := b2.toNat_lt
      have := b3.toNat_lt
      simp only [List.take_succ_cons, List.take_zero, List.cons.injEq, ← UInt8.toNat_inj, and_true]
      omega

theorem readWord_lt (b : Bytes) : readWord b < 4294967296 := by
  have h0 := (b.getD 0 0).toNat_lt
  have h1 := (b.getD 1 0).toNat_lt
  have h2 := (b.getD 2 0).toNat_lt
  have h3 := (b.getD 3 0).toNat_lt
  simp only [readWord]
  omega

theorem readWord_append {a b : Bytes} (h : a.length = 4) : readWord (a ++ b) = readWord a := by
  match a, h with
  | [a0, a1, a2, a3], _ => rfl

theorem readInt_append {a b : Bytes} (h : a.length = 4) : readInt (a ++ b) = readInt a := by
  rw [readInt, readInt, readWord_append h]

theorem readFloat_append {a b : Bytes} (h : a.length = 4) : readFloat (a ++ b) = readFloat a := by
  rw [readFloat, readFloat, readWord_append h]

theorem readInt_take {b : Bytes} (h : 4 ≤ b.length) : readInt (b.take 4) = readInt b := by
  conv_rhs => rw [← List.take_append_drop 4 b]
  exact (readInt_append (by simpa using h)).symm

theorem readFloat_take {b : Bytes} (h : 4 ≤ b.length) : readFloat (b.take 4) = readFloat b := by
  conv_rhs => rw [← List.take_append_drop 4 b]
  exact (readFloat_append (by simpa using h)).symm

theorem readWord_wordBytes {w : Nat} (h : w < 4294967296) : readWord (wordBytes w) = w := by
  simp only [readWord, wordBytes, List.getD_cons_zero, List.getD_cons_succ, UInt8.toNat_ofNat']
  omega

theorem intBytes_length (v : Int32) : (intBytes v).length = 4 := rfl

theorem readInt_intBytes (v : Int32) : readInt (intBytes v) = v.toInt := by
  have hw : v.toUInt32.toNat < 4294967296 := v.toUInt32.toNat_lt
  rw [readInt, intBytes, readWord_wordBytes hw]
  have hv : v.toInt = if 2 * v.toUInt32.toNat < 4294967296 then (v.toUInt32.toNat : Int)
      else v.toUInt32.toNat - 4294967296 :=
    BitVec.toInt_eq_toNat_cond v.toBitVec
  rw [hv]
  split <;> split <;> omega

theorem readInt_range (b : Bytes) : -2147483648 ≤ readInt b ∧ readInt b < 2147483648 := by
  have h := readWord_lt b
  by_cases hlt : readWord b < 2147483648
  · rw [readInt, if_pos hlt]
    omega
  · rw [readInt, if_neg hlt]
    omega

theorem toInt_readInt (b : Bytes) : (Int32.ofInt (readInt b)).toInt = readInt b := by
  have h := readInt_range b
  exact Int32.toInt_ofInt_of_le (by simpa using h.1) (by simpa using h.2)

theorem readInt_inj {a b : Bytes} (ha : 4 ≤ a.length) (hb : 4 ≤ b.length) (h : readInt a = readInt b) :
    a.take 4 = b.take 4 := by
  have hwa := readWord_lt a
  have hwb := readWord_lt b
  refine readWord_inj ha hb ?_
  simp only [readInt] at h
  split at h <;> split at h <;> omega

def colCode (c : ColType × Nat) (b : Bytes) : List Int :=
  if c.1 = .int then [readInt b] else unsignedBytes (b.take c.2)

def keyCode : List (ColType × Nat) → Bytes → List Int
  | [], _ => []
  | c :: cols, b => colCode c b ++ keyCode cols (b.drop c.2)

theorem colCode_length (c : ColType × Nat) {a b : Bytes} (hl : a.length = b.length) :
    (colCode c a).length = (colCode c b).length := by
  rw [colCode, colCode]
  split <;> simp [unsignedBytes, hl]

theorem colCode_inj {c : ColType × Nat} (hc : c = (.int, 4) ∨ c.1 = .string) {a b : Bytes}
    (ha : c.2 ≤ a.length) (hb : c.2 ≤ b.length) (h : colCode c a = colCode c b) :
    a.take c.2 = b.take c.2 := by
  rcases hc with rfl | hc
  · exact readInt_inj ha hb (by simpa [colCode] using h)
  · rw [colCode, colCode, if_neg (by rw [hc]; simp), if_neg (by rw [hc]; simp)] at h
    refine List.map_injective_iff.2 ?_ h
    intro x y hxy
    exact UInt8.toNat_inj.1 (by simpa using hxy)

theorem ixCompareCol_lt {c : ColType × Nat} (hc : c = (.int, 4) ∨ c.1 = .string) {a b : Bytes}
    (hl : a.length = b.length) :
    ∃ res, ixCompareCol c.1 c.2 a b = .ok res ∧ (res < 0 ↔ colCode c a < colCode c b) ∧
      (0 < res ↔ colCode c b < colCode c a) := by
  rcases hc with rfl | hc
  · exact ⟨_, rfl, by simp [colCode, compareInt_neg, List.cons_lt_cons_iff],
      by simp [colCode, compareInt_pos, List.cons_lt_cons_iff]⟩
  · have hm := memcmp_lt (a := a.take c.2) (b := b.take c.2) (by simp [hl])
    refine ⟨memcmp (a.take c.2) (b.take c.2), by rw [hc]; rfl, ?_, ?_⟩
    · rw [colCode, colCode, if_neg (by rw [hc]; simp), if_neg (by rw [hc]; simp)]; exact hm.1
    · rw [colCode, colCode, if_neg (by rw [hc]; simp), if_neg (by rw [hc]; simp)]; exact hm.2.1

def Orders (cmp : Ix Int) (x y : List Int) : Prop :=
  ∃ res, cmp = .ok res ∧ (res < 0 ↔ x < y) ∧ (0 < res ↔ y < x)

theorem ixCompare_step {c : ColType × Nat} {cols : List (ColType × Nat)} {a b : Bytes} {x y xs ys : List Int}
    (hl : x.length = y.length) (hcol : Orders (ixCompareCol c.1 c.2 a b) x y)
    (hcols : Orders (IxManager.ixCompare cols (a.drop c.2) (b.drop c.2)) xs ys) :
    Orders (IxManager.ixCompare (c :: cols) a b) (x ++ xs) (y ++ ys) := by
  obtain ⟨res, hres, hlt, hgt⟩ := hcol
  obtain ⟨rest, hrest, hlt', hgt'⟩ := hcols
  rw [Orders, lex_append hl, lex_append hl.symm]
  by_cases h0 : res = 0
  · have heq : x = y := le_antisymm (not_lt.1 (fun hc => by have := hgt.2 hc; omega))
      (not_lt.1 (fun hc => by have := hlt.2 hc; omega))
    refine ⟨rest, ?_, ?_, ?_⟩
    · rw [IxManager.ixCompare, hres]
      simp only [bind, Except.bind, h0, ne_eq, not_true_eq_false, if_false]
      exact hrest
    · simp [heq, hlt']
    · simp [heq, hgt']
  · have hne : x ≠ y := by
      rintro rfl
      simp at hlt hgt
      omega
    refine ⟨res, ?_, ?_, ?_⟩
    · rw [IxManager.ixCompare, hres]
      simp only [bind, Except.bind, ne_eq, h0, not_false_eq_true, if_true]
      rfl
    · rw [hlt]
      exact ⟨Or.inl, fun h => h.elim id fun h => absurd h.1 hne⟩
    · rw [hgt]
      exact ⟨Or.inl, fun h => h.elim id fun h => absurd h.1.symm hne⟩

/-- `ix_compare` orders keys as their codes. -/
theorem ixCompare_lt (cols : List (ColType × Nat))
    (hc : ∀ c ∈ cols, c = (.int, 4) ∨ c.1 = .string) {a b : Bytes} (hl : a.length = b.length) :
    ∃ res, IxManager.ixCompare cols a b = .ok res ∧ (res < 0 ↔ keyCode cols a < keyCode cols b) ∧
      (0 < res ↔ keyCode cols b < keyCode cols a) := by
  induction cols generalizing a b with
  | nil => exact ⟨0, rfl, by simp [keyCode], by simp [keyCode]⟩
  | cons c cols ih =>
      have hdrop : (a.drop c.2).length = (b.drop c.2).length := by simp [hl]
      exact ixCompare_step (colCode_length c hl) (ixCompareCol_lt (hc c (by simp)) hl)
        (ih (fun x hx => hc x (by simp [hx])) hdrop)

theorem keyCode_inj (cols : List (ColType × Nat))
    (hc : ∀ c ∈ cols, c = (.int, 4) ∨ c.1 = .string) {a b : Bytes} (ha : a.length = colTotLen cols)
    (hb : b.length = colTotLen cols) (h : keyCode cols a = keyCode cols b) : a = b := by
  induction cols generalizing a b with
  | nil =>
      simp only [colTotLen, List.map_nil, List.sum_nil, List.length_eq_zero_iff] at ha hb
      rw [ha, hb]
  | cons c cols ih =>
      simp only [colTotLen, List.map_cons, List.sum_cons] at ha hb ih
      obtain ⟨h1, h2⟩ := List.append_inj h (colCode_length c (ha.trans hb.symm))
      have hhead := colCode_inj (hc c (by simp)) (by omega) (by omega) h1
      have htail := ih (fun x hx => hc x (by simp [hx])) (by rw [List.length_drop]; omega)
        (by rw [List.length_drop]; omega) h2
      rw [← List.take_append_drop c.2 a, ← List.take_append_drop c.2 b, hhead, htail]

/-- Keys in the order of their columns. -/
instance (L : KeyLayout) : LinearOrder (Key L) :=
  LinearOrder.lift' (fun k => keyCode L.cols k.1)
    (fun a b h => Subtype.ext (keyCode_inj L.cols L.typed a.2 b.2 h))

theorem key_lt {L : KeyLayout} (a b : Key L) : a < b ↔ keyCode L.cols a.1 < keyCode L.cols b.1 := Iff.rfl

instance (L : KeyLayout) : LawfulIxKey (Key L) where
  ixCompare_neg a b := by
    obtain ⟨res, hres, hlt, -⟩ := ixCompare_lt L.cols L.typed (a.2.trans b.2.symm)
    simp only [IxKey.ixCompare, hres, key_lt]
    exact hlt
  ixCompare_pos a b := by
    obtain ⟨res, hres, -, hgt⟩ := ixCompare_lt L.cols L.typed (a.2.trans b.2.symm)
    simp only [IxKey.ixCompare, hres, key_lt]
    exact hgt
  memcmp_zero a b := (memcmp_lt (a.2.trans b.2.symm)).2.2.trans Subtype.ext_iff.symm

end Order

end Rmdb
