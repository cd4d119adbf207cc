import Rmdb.Index.KeyEquality
import Rmdb.Index.Map

namespace Rmdb

open IxManager

structure IndexColumns extends KeyColumns where
  bounded : colTotLen cols ≤ 512

/-- A key on which the order of the index and the bytes agree. No call makes a key of its own, so
that an index that is given such keys only holds no others. -/
def OrderedKey (L : KeyColumns) : Type := { k : RawKey L // PlainFloats L.cols k.1 }

section Order

variable {L : KeyColumns}

instance (L : KeyColumns) : DecidableEq (OrderedKey L) :=
  inferInstanceAs (DecidableEq { k : RawKey L // PlainFloats L.cols k.1 })

instance (L : KeyColumns) : IxKey (OrderedKey L) where
  ixCompare a b := IxKey.ixCompare a.1 b.1
  memcmp a b := IxKey.memcmp a.1 b.1
  zero := ⟨IxKey.zero, plainFloats_zeros L.typed⟩

theorem orderCode_inj {a b : OrderedKey L} (h : orderCode L.cols a.1.1 = orderCode L.cols b.1.1) : a = b := by
  have hsame := (orderCode_eq_iff L.typed a.1.2 b.1.2 a.2.hasNumbers b.2.hasNumbers).1 h
  exact Subtype.ext (Subtype.ext (eq_of_sameButZeroSigns L.typed a.2 b.2 a.1.2 b.1.2 hsame))

instance (L : KeyColumns) : LinearOrder (OrderedKey L) :=
  LinearOrder.lift' (fun k => orderCode L.cols k.1.1) fun _ _ h => orderCode_inj h

instance (L : KeyColumns) : LawfulIxKey (OrderedKey L) where
  ixCompare_neg a b := (rawCompare_order a.2.hasNumbers b.2.hasNumbers).1
  ixCompare_pos a b := (rawCompare_order a.2.hasNumbers b.2.hasNumbers).2
  memcmp_zero _ _ := rawMemcmp_eq_zero_iff.trans Subtype.ext_iff.symm

end Order

section Fresh

def newIndex (K : Type) (L : IndexColumns) : IxIndexHandle K :=
  emptyIndex K ((4096 - 24) / (colTotLen L.cols + 8) - 1)

theorem newIndex_valid {K : Type} [LinearOrder K] (L : IndexColumns) : Valid (newIndex K L) [] := by
  have hbound := L.bounded
  have hseven : 7 ≤ (4096 - 24) / (colTotLen L.cols + 8) := (Nat.le_div_iff_mul_le (by omega)).2 (by omega)
  exact (emptyIndex_exact (by omega)).valid

theorem newIndex_sim {K : Type} [LinearOrder K] (L : IndexColumns) : Sim (newIndex K L) IxMap.empty :=
  ⟨[], newIndex_valid L, by simp [IxMap.empty]⟩

def floatIndex : IndexColumns := ⟨floatColumn, by decide⟩

def floatOne : OrderedKey floatColumn := ⟨floatKey 0 0 0x80 0x3f, fun _ => ⟨by decide, by decide⟩, trivial⟩

def floatTwo : OrderedKey floatColumn := ⟨floatKey 0 0 0 0x40, fun _ => ⟨by decide, by decide⟩, trivial⟩

def floatThree : OrderedKey floatColumn := ⟨floatKey 0 0 0x40 0x40, fun _ => ⟨by decide, by decide⟩, trivial⟩

end Fresh

end Rmdb
