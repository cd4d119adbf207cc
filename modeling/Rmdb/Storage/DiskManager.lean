import Rmdb.Index.Node
import Mathlib.Tactic

namespace Rmdb

namespace FileBytes

variable {file data : Bytes} {off pos n : Nat}

/-- `write` at a position. A gap behind the end of the file reads as zeros. -/
def write (file : Bytes) (off : Nat) (data : Bytes) : Bytes :=
  (file ++ List.replicate (off - file.length) 0).take off ++ data ++ file.drop (off + data.length)

/-- `read` from a position: fewer bytes at the end of the file. -/
def read (file : Bytes) (off n : Nat) : Bytes := (file.drop off).take n

theorem length_front : ((file ++ List.replicate (off - file.length) 0).take off).length = off := by
  simp only [List.length_take, List.length_append, List.length_replicate]
  omega

theorem read_write : read (write file off data) off data.length = data := by
  rw [read, write, List.append_assoc, List.drop_append_of_le_length length_front.ge,
    List.drop_of_length_le length_front.le, List.nil_append, List.take_left]

theorem length_read (h : (read file pos n).length = n) (hn : 0 < n) : pos + n ≤ file.length := by
  simp only [read, List.length_take, List.length_drop] at h
  omega

theorem read_write_of_apart (h : (read file pos n).length = n) (hn : 0 < n)
    (hapart : pos + n ≤ off ∨ off + data.length ≤ pos) :
    read (write file off data) pos n = read file pos n := by
  have hin := length_read h hn
  apply List.ext_getElem?
  intro i
  by_cases hi : i < n
  · simp only [read, write, List.getElem?_take, if_pos hi, List.getElem?_drop]
    rcases hapart with hbefore | hbehind
    · rw [List.append_assoc, List.getElem?_append_left (by rw [length_front]; omega), List.getElem?_take,
        if_pos (by omega), List.getElem?_append_left (by omega)]
    · rw [List.getElem?_append_right (by rw [List.length_append, length_front]; omega), List.getElem?_drop,
        List.length_append, length_front]
      congr 1
      omega
  · simp only [read, List.getElem?_take, if_neg hi]

end FileBytes

structure InternalError where
  msg : String
deriving DecidableEq

abbrev OpenFiles := Nat → Bytes

namespace DiskManager

/-- `page_no * PAGE_SIZE`, an `int` that is widened to an `off_t` after the product. -/
def filePosition (pageNo : Int32) : Int := (pageNo * 4096).toInt

/-- `lseek` refuses a negative position. -/
def lseek (pageNo : Int32) : Except InternalError Nat :=
  if filePosition pageNo < 0 then .error ⟨"Failed to seek to page location"⟩
    else .ok (filePosition pageNo).toNat

def writePage (files : OpenFiles) (fd : Nat) (pageNo : Int32) (buf : Bytes) :
    Except InternalError OpenFiles := do
  let off ← lseek pageNo
  return Function.update files fd (FileBytes.write (files fd) off buf)

def readPage (files : OpenFiles) (fd : Nat) (pageNo : Int32) (numBytes : Nat) :
    Except InternalError Bytes := do
  let off ← lseek pageNo
  let buf := FileBytes.read (files fd) off numBytes
  if buf.length ≠ numBytes then throw ⟨"DiskManager::read_page Error"⟩ else return buf

variable {files files' : OpenFiles} {fd : Nat} {p q : Int32} {x y : Bytes} {n : Nat}

theorem lseek_of_nonneg (h : 0 ≤ filePosition p) : lseek p = .ok (filePosition p).toNat := by
  rw [lseek, if_neg (by omega)]

theorem lseek_of_neg (h : filePosition p < 0) :
    lseek p = .error ⟨"Failed to seek to page location"⟩ := if_pos h

theorem writePage_of_nonneg (h : 0 ≤ filePosition p) :
    writePage files fd p x =
      .ok (Function.update files fd (FileBytes.write (files fd) (filePosition p).toNat x)) := by
  rw [writePage, lseek_of_nonneg h]
  rfl

theorem readPage_eq_ok : readPage files fd p n = .ok y ↔
    0 ≤ filePosition p ∧ FileBytes.read (files fd) (filePosition p).toNat n = y ∧ y.length = n := by
  rcases lt_or_ge (filePosition p) 0 with hneg | hpos
  · rw [readPage, lseek_of_neg hneg]
    refine iff_of_false nofun ?_
    rintro ⟨hpos, -⟩
    omega
  · rw [readPage, lseek_of_nonneg hpos]
    simp only [bind, Except.bind, ne_eq, ite_not]
    split
    · rename_i hlen
      constructor
      · intro h
        cases h
        exact ⟨hpos, rfl, hlen⟩
      · rintro ⟨-, rfl, -⟩
        rfl
    · rename_i hlen
      refine iff_of_false nofun ?_
      rintro ⟨-, rfl, hlen'⟩
      exact hlen hlen'

/-- The wrapped product: the low 20 bits of the page number count, the highest of them as the sign. -/
theorem filePosition_eq (p : Int32) : filePosition p =
    if p.toInt % 1048576 < 524288 then p.toInt % 1048576 * 4096
    else p.toInt % 1048576 * 4096 - 4294967296 := by
  have h4096 : (4096 : Int32).toInt = 4096 := rfl
  rw [filePosition, Int32.toInt_mul, h4096, Int.bmod_def]
  omega

theorem filePosition_nonneg_iff : 0 ≤ filePosition p ↔ p.toInt % 1048576 < 524288 := by
  rw [filePosition_eq]
  omega

theorem filePosition_inj_iff : filePosition p = filePosition q ↔ p.toInt % 1048576 = q.toInt % 1048576 := by
  rw [filePosition_eq p, filePosition_eq q]
  omega

theorem filePosition_apart (h : filePosition p ≠ filePosition q) :
    filePosition q + 4096 ≤ filePosition p ∨ filePosition p + 4096 ≤ filePosition q := by
  rw [filePosition_eq p, filePosition_eq q] at h ⊢
  omega

/-- What page storage promises of a page and another one: positions of their own in the file, a page that is
read back as it was written, and another page that still reads as before. -/
structure Separate (p q : Int32) : Prop where
  inFile : 0 ≤ filePosition p ∧ 0 ≤ filePosition q
  distinct : filePosition p ≠ filePosition q
  readBack : ∀ files fd x, x.length = 4096 → ∃ files', writePage files fd p x = .ok files' ∧
    readPage files' fd p 4096 = .ok x ∧ ∀ y, readPage files fd q 4096 = .ok y →
    readPage files' fd q 4096 = .ok y

theorem readPage_writePage (hp : 0 ≤ filePosition p) (hx : x.length = 4096)
    (hrun : writePage files fd p x = .ok files') :
    readPage files' fd p 4096 = .ok x := by
  rw [writePage_of_nonneg hp, Except.ok.injEq] at hrun
  refine readPage_eq_ok.2 ⟨hp, ?_, hx⟩
  rw [← hrun, Function.update_self, ← hx, FileBytes.read_write]

theorem readPage_writePage_of_ne (hp : 0 ≤ filePosition p) (hpq : filePosition p ≠ filePosition q)
    (hx : x.length = 4096) (hrun : writePage files fd p x = .ok files')
    (hy : readPage files fd q 4096 = .ok y) :
    readPage files' fd q 4096 = .ok y := by
  rw [writePage_of_nonneg hp, Except.ok.injEq] at hrun
  obtain ⟨hq, hread, hlen⟩ := readPage_eq_ok.1 hy
  have hapart := filePosition_apart hpq
  refine readPage_eq_ok.2 ⟨hq, ?_, hlen⟩
  rw [← hrun, Function.update_self,
    FileBytes.read_write_of_apart (by rw [hread, hlen]) (by decide) (by omega), hread]

/-- Past the range of an `int` two page numbers share a position: a write of the one is a write of
the other. -/
theorem readPage_alias (hp : 0 ≤ filePosition p) (hpq : filePosition p = filePosition q)
    (hx : x.length = 4096) (hrun : writePage files fd p x = .ok files') :
    readPage files' fd q 4096 = .ok x := by
  have hread := readPage_writePage hp hx hrun
  rw [readPage_eq_ok] at hread ⊢
  rwa [← hpq]

/-- Two pages are kept apart exactly when their numbers, modulo `2 ^ 20`, are different and below `2 ^ 19`. -/
theorem separate_iff (p q : Int32) : Separate p q ↔
    p.toInt % 1048576 < 524288 ∧ q.toInt % 1048576 < 524288 ∧ p.toInt % 1048576 ≠ q.toInt % 1048576 := by
  constructor
  · intro h
    exact ⟨filePosition_nonneg_iff.1 h.inFile.1, filePosition_nonneg_iff.1 h.inFile.2,
      fun heq => h.distinct (filePosition_inj_iff.2 heq)⟩
  · rintro ⟨hp, hq, hne⟩
    have hpos := filePosition_nonneg_iff.2 hp
    have hdistinct : filePosition p ≠ filePosition q := fun heq => hne (filePosition_inj_iff.1 heq)
    refine ⟨⟨hpos, filePosition_nonneg_iff.2 hq⟩, hdistinct, fun files fd x hx => ?_⟩
    refine ⟨_, writePage_of_nonneg hpos, ?_, fun y hy => ?_⟩
    · exact readPage_writePage hpos hx (writePage_of_nonneg hpos)
    · exact readPage_writePage_of_ne hpos hdistinct hx (writePage_of_nonneg hpos) hy

/-- In a file of up to 2 GiB every page has a position of its own. -/
theorem separate_of_small (hp : 0 ≤ p.toInt ∧ p.toInt < 524288)
    (hq : 0 ≤ q.toInt ∧ q.toInt < 524288) (hpq : p ≠ q) :
    Separate p q := by
  refine (separate_iff p q).2 ⟨by omega, by omega, fun heq => hpq (Int32.toInt_inj.1 (by omega))⟩

/-- Page `2 ^ 20` stands where page `0` stands. -/
theorem firstPage_overwritten : ¬ Separate 1048576 0 := by
  intro h
  have hrun : writePage (fun _ => List.replicate 4096 0) 0 1048576 (List.replicate 4096 1) = .ok _ :=
    writePage_of_nonneg (by decide)
  obtain ⟨files', hrun', -, hother⟩ := h.readBack (fun _ => List.replicate 4096 0) 0 (List.replicate 4096 1)
    List.length_replicate
  have hold : readPage (fun _ => List.replicate 4096 0) 0 0 4096 = .ok (List.replicate 4096 0) := by
    refine readPage_eq_ok.2 ⟨by decide, ?_, List.length_replicate⟩
    have hpos : (filePosition 0).toNat = 0 := by decide
    rw [FileBytes.read, hpos, List.drop_zero, List.take_replicate, Nat.min_self]
  have hnew := readPage_alias (q := 0) (by decide) (by decide) List.length_replicate hrun'
  rw [hother _ hold, Except.ok.injEq] at hnew
  exact absurd (congrArg List.head? hnew) (by simp)

end DiskManager

end Rmdb
