import Rmdb.Lib.TextStream
import Rmdb.Record.MemoryBlock

namespace Rmdb

open Bitmap (Memory)

def byteOf (c : Char) : UInt8 := UInt8.ofNat c.toNat

def ascii (s : String) : Bytes := s.toList.map byteOf

def bufferLength : Nat := 8192

def recordCountLength : Nat := 40

structure PrintContext where
  dataSend : Memory
  offset : Nat
  ellipsis : Bool

namespace PrintContext

variable (ctx : PrintContext) (str : Bytes)

/-- `none` when the copy runs over the end of the buffer. -/
def send : Option PrintContext :=
  if ctx.offset + str.length ≤ bufferLength then
    some { ctx with
      dataSend := memcpy ctx.dataSend ctx.offset str str.length, offset := ctx.offset + str.length }
  else none

def hasRoom : Bool :=
  ctx.ellipsis == false && decide (ctx.offset + recordCountLength + str.length < bufferLength)

def sendOrMark : Option PrintContext :=
  if ctx.hasRoom str then ctx.send str else some { ctx with ellipsis := true }

/-- The branch at the end of a record, which leaves the flag as it is. -/
def sendOrSkip : Option PrintContext :=
  if ctx.hasRoom str then ctx.send str else some ctx

end PrintContext

structure RecordPrinter where
  numCols : Nat
  numCols_pos : 0 < numCols

namespace RecordPrinter

def colWidth : Nat := 16

def separatorText : Bytes := ascii "+" ++ List.replicate (colWidth + 2) (byteOf '-')

def printSeparator (printer : RecordPrinter) (ctx : PrintContext) : Option PrintContext := do
  let ctx ← (List.range printer.numCols).foldlM (fun ctx _ => ctx.sendOrMark separatorText) ctx
  ctx.sendOrMark (ascii "+\n")

def cutText (col : Bytes) : Bytes :=
  if colWidth < col.length then col.take (colWidth - 3) ++ ascii "..." else col

def cellText (col : Bytes) : Bytes :=
  ascii "| " ++ List.leftpad colWidth (byteOf ' ') (cutText col) ++ ascii " "

def printRecord (printer : RecordPrinter) (recStr : List.Vector Bytes printer.numCols) (ctx : PrintContext) :
    Option PrintContext := do
  let ctx ← recStr.toList.foldlM (fun ctx col => ctx.sendOrMark (cellText col)) ctx
  ctx.sendOrSkip (ascii "|\n")

def countText (ellipsis : Bool) (numRec : Nat) : Bytes :=
  (if ellipsis then ascii "... ...\n" else []) ++
    (ascii "Total record(s): " ++ (TextStream.naturalText numRec).map byteOf ++ ascii "\n")

/-- There is no check here. -/
def printRecordCount (numRec : Nat) (ctx : PrintContext) : Option PrintContext :=
  ctx.send (countText ctx.ellipsis numRec)

end RecordPrinter

open RecordPrinter

inductive PrintCall where
  | separator (printer : RecordPrinter)
  | record (printer : RecordPrinter) (recStr : List.Vector Bytes printer.numCols)

def PrintCall.run : PrintCall → PrintContext → Option PrintContext
  | separator printer, ctx => printer.printSeparator ctx
  | record printer recStr, ctx => printer.printRecord recStr ctx

def printResult (calls : List PrintCall) (numRec : Nat) (ctx : PrintContext) : Option PrintContext := do
  let ctx ← calls.foldlM (fun ctx call => call.run ctx) ctx
  printRecordCount numRec ctx

inductive Fragment where
  | separatorColumn
  | separatorEnd
  | cell (col : Bytes)
  | recordEnd
deriving DecidableEq

namespace Fragment

def text : Fragment → Bytes
  | separatorColumn => separatorText
  | separatorEnd => ascii "+\n"
  | cell col => cellText col
  | recordEnd => ascii "|\n"

def print : Fragment → PrintContext → Option PrintContext
  | recordEnd, ctx => ctx.sendOrSkip recordEnd.text
  | f, ctx => ctx.sendOrMark f.text

def textOf (fs : List Fragment) : Bytes := fs.flatMap text

end Fragment

def PrintCall.fragments : PrintCall → List Fragment
  | separator printer => List.replicate printer.numCols .separatorColumn ++ [.separatorEnd]
  | record _ recStr => recStr.toList.map .cell ++ [.recordEnd]

/-- The reply has the bytes of the first fragments and the count line, which says whether a cell
or a separator is among the fragments that are left out. -/
structure Replied (mem : Memory) (fragments : List Fragment) (numRec : Nat) (kept left : List Fragment)
    (ctx : PrintContext) :
    Prop where
  split : fragments = kept ++ left
  sent : bytesAt ctx.dataSend 0 ctx.offset = Fragment.textOf kept ++ countText ctx.ellipsis numRec
  marked : ctx.ellipsis = true ↔ ∃ f ∈ left, f ≠ .recordEnd
  inBuffer : ctx.offset < bufferLength
  behind : ∀ a, ctx.offset ≤ a → ctx.dataSend a = mem a

/-- Before the count line. When a fragment has been left out, there is no room for any other one. -/
structure Printed (mem : Memory) (kept left : List Fragment) (ctx : PrintContext) : Prop where
  dataSend : ctx.dataSend = memcpy mem 0 (Fragment.textOf kept) (Fragment.textOf kept).length
  offset : ctx.offset = (Fragment.textOf kept).length
  room : ctx.offset + recordCountLength < bufferLength
  full : left ≠ [] → ctx.ellipsis = true ∨ bufferLength ≤ ctx.offset + recordCountLength + 2
  marked : ctx.ellipsis = true ↔ ∃ f ∈ left, f ≠ .recordEnd

variable {mem : Memory} {ctx : PrintContext} {kept left : List Fragment}

theorem two_le_text (f : Fragment) : 2 ≤ f.text.length := by
  cases f with
  | separatorColumn => decide
  | separatorEnd => decide
  | cell col =>
      have hblank : 2 ≤ (ascii "| ").length := by decide
      rw [Fragment.text, cellText, List.length_append, List.length_append]
      omega
  | recordEnd => decide

theorem textOf_concat (kept : List Fragment) (f : Fragment) :
    Fragment.textOf (kept ++ [f]) = Fragment.textOf kept ++ f.text := by
  rw [Fragment.textOf, List.flatMap_append, List.flatMap_singleton, Fragment.textOf]

theorem print_of_ne {f : Fragment} (hf : f ≠ .recordEnd) : f.print ctx = ctx.sendOrMark f.text := by
  cases f with
  | recordEnd => exact absurd rfl hf
  | _ => rfl

theorem hasRoom_iff {str : Bytes} :
    ctx.hasRoom str = true ↔ ctx.ellipsis = false ∧
    ctx.offset + recordCountLength + str.length < bufferLength := by
  simp [PrintContext.hasRoom]

theorem PrintContext.send_of_le {str : Bytes} (h : ctx.offset + str.length ≤ bufferLength) :
    ctx.send str = some ⟨memcpy ctx.dataSend ctx.offset str str.length, ctx.offset + str.length,
      ctx.ellipsis⟩ := by
  rw [PrintContext.send, if_pos h]

namespace Printed

theorem start (mem : Memory) : Printed mem [] [] ⟨mem, 0, false⟩ where
  dataSend := funext fun _ => (memcpy_outside (.inr (Nat.zero_le _))).symm
  offset := rfl
  room := (by decide : 0 + recordCountLength < bufferLength)
  full h := absurd rfl h
  marked := by simp

theorem left_eq_nil (h : Printed mem kept left ctx) {f : Fragment}
    (hroom : ctx.hasRoom f.text = true) : left = [] := by
  obtain ⟨hell, hlt⟩ := hasRoom_iff.1 hroom
  have htwo := two_le_text f
  by_contra hleft
  cases h.full hleft with
  | inl hmark => exact absurd hmark (by rw [hell]; decide)
  | inr hfull => omega

theorem send (h : Printed mem kept [] ctx) {f : Fragment} (hroom : ctx.hasRoom f.text = true) :
    ∃ ctx', ctx.send f.text = some ctx' ∧ Printed mem (kept ++ [f]) [] ctx' := by
  obtain ⟨hell, hlt⟩ := hasRoom_iff.1 hroom
  refine ⟨_, PrintContext.send_of_le (by omega), ?_⟩
  constructor
  · rw [textOf_concat, List.length_append, ← memcpy_zero_append mem f.text f.text.length rfl,
      ← h.dataSend, ← h.offset]
  · rw [textOf_concat, List.length_append, ← h.offset]
  · have := hlt
    simp only
    omega
  · exact fun hne => absurd rfl hne
  · simp [hell]

theorem leaveOut (h : Printed mem kept left ctx) {f : Fragment} (hf : f ≠ .recordEnd) :
    Printed mem kept (left ++ [f]) { ctx with ellipsis := true } where
  dataSend := h.dataSend
  offset := h.offset
  room := h.room
  full _ := .inl rfl
  marked := by simp [hf]

theorem skipEnd (h : Printed mem kept left ctx) (hroom : ¬ ctx.hasRoom Fragment.recordEnd.text = true) :
    Printed mem kept (left ++ [.recordEnd]) ctx where
  dataSend := h.dataSend
  offset := h.offset
  room := h.room
  full _ := by
    rw [hasRoom_iff] at hroom
    cases hell : ctx.ellipsis with
    | true => exact .inl rfl
    | false =>
        have htwo : Fragment.recordEnd.text.length = 2 := by decide
        refine .inr ?_
        by_contra hlt
        exact hroom ⟨hell, by omega⟩
  marked := by
    rw [h.marked]
    simp

theorem step (h : Printed mem kept left ctx) (f : Fragment) :
    ∃ ctx' kept' left', f.print ctx = some ctx' ∧ kept' ++ left' = kept ++ left ++ [f] ∧
      Printed mem kept' left' ctx' := by
  by_cases hroom : ctx.hasRoom f.text = true
  · cases h.left_eq_nil hroom
    obtain ⟨ctx', hsend, h'⟩ := h.send hroom
    refine ⟨ctx', kept ++ [f], [], ?_, by simp, h'⟩
    rw [← hsend]
    cases f <;> exact if_pos hroom
  · by_cases hf : f = .recordEnd
    · cases hf
      exact ⟨ctx, kept, left ++ [.recordEnd], if_neg hroom, by simp, h.skipEnd hroom⟩
    · refine ⟨_, kept, left ++ [f], ?_, by simp, h.leaveOut hf⟩
      rw [print_of_ne hf, PrintContext.sendOrMark, if_neg hroom]

theorem run (h : Printed mem kept left ctx) (fs : List Fragment) :
    ∃ ctx' kept' left', fs.foldlM (fun ctx f => f.print ctx) ctx = some ctx' ∧
      kept' ++ left' = kept ++ left ++ fs ∧
      Printed mem kept' left' ctx' := by
  induction fs generalizing ctx kept left with
  | nil => exact ⟨ctx, kept, left, rfl, by simp, h⟩
  | cons f fs ih =>
      obtain ⟨ctx₁, kept₁, left₁, hprint, hsplit, h₁⟩ := h.step f
      obtain ⟨ctx', kept', left', hrun, hsplit', h'⟩ := ih h₁
      refine ⟨ctx', kept', left', ?_, ?_, h'⟩
      · rw [List.foldlM_cons, hprint]
        exact hrun
      · rw [hsplit', hsplit, List.append_assoc, List.singleton_append]

end Printed

theorem PrintCall.run_eq (call : PrintCall) (ctx : PrintContext) :
    call.run ctx = call.fragments.foldlM (fun ctx f => f.print ctx) ctx := by
  cases call with
  | separator printer =>
      have hcolumns : List.replicate printer.numCols Fragment.separatorColumn =
          (List.range printer.numCols).map fun _ => .separatorColumn := by simp
      rw [run, printSeparator, fragments, List.foldlM_append, hcolumns, List.foldlM_map]
      simp only [List.foldlM_cons, List.foldlM_nil, bind_pure]
      rfl
  | record printer recStr =>
      rw [run, printRecord, fragments, List.foldlM_append, List.foldlM_map]
      simp only [List.foldlM_cons, List.foldlM_nil, bind_pure]
      rfl

theorem calls_eq (calls : List PrintCall) (ctx : PrintContext) :
    calls.foldlM (fun ctx call => call.run ctx) ctx =
    (calls.flatMap PrintCall.fragments).foldlM (fun ctx f => f.print ctx) ctx := by
  induction calls generalizing ctx with
  | nil => rfl
  | cons call calls ih =>
      rw [List.foldlM_cons, List.flatMap_cons, List.foldlM_append, PrintCall.run_eq]
      simp only [ih]

theorem countText_length_le {numRec : Nat} (hrec : numRec < 10 ^ 14) (ellipsis : Bool) :
    (countText ellipsis numRec).length ≤ recordCountLength := by
  have hdigits : (TextStream.naturalText numRec).length ≤ 14 :=
    (Nat.length_toDigits_le_iff (by decide) (by decide)).2 hrec
  have htotal : (ascii "Total record(s): ").length = 17 := by decide
  have hend : (ascii "\n").length = 1 := by decide
  have hdots : (if ellipsis then ascii "... ...\n" else []).length ≤ 8 := by cases ellipsis <;> decide
  rw [countText, List.length_append, List.length_append, List.length_append, List.length_map, htotal,
    hend, recordCountLength]
  omega

/-- The reserved bytes are enough for the count line. -/
theorem Printed.finish (h : Printed mem kept left ctx) {numRec : Nat} (hrec : numRec < 10 ^ 14) :
    ∃ ctx', printRecordCount numRec ctx = some ctx' ∧ Replied mem (kept ++ left) numRec kept left ctx' := by
  have hlen := countText_length_le hrec ctx.ellipsis
  have hroom := h.room
  refine ⟨_, PrintContext.send_of_le (by omega), ?_⟩
  have hcopy :=
    memcpy_zero_append mem (countText ctx.ellipsis numRec)
      (countText ctx.ellipsis numRec).length h.offset.symm
  rw [h.offset, ← h.dataSend, ← h.offset] at hcopy
  constructor
  · rfl
  · simp only [hcopy]
    refine bytesAt_memcpy ?_
    rw [List.length_append, h.offset]
  · exact h.marked
  · simp only
    omega
  · intro a ha
    simp only [hcopy]
    exact memcpy_outside (.inr (by rw [Nat.zero_add]; exact ha))

theorem fragments_replied (fs : List Fragment) {numRec : Nat} (hrec : numRec < 10 ^ 14) (mem : Memory) :
    ∃ ctx kept left, (fs.foldlM (fun ctx f => f.print ctx) ⟨mem, 0, false⟩ >>= printRecordCount numRec) =
      some ctx ∧
      Replied mem fs numRec kept left ctx := by
  obtain ⟨ctx, kept, left, hrun, hsplit, hprinted⟩ := (Printed.start mem).run fs
  obtain ⟨ctx', hcount, hreplied⟩ := hprinted.finish hrec
  rw [hsplit] at hreplied
  refine ⟨ctx', kept, left, ?_, hreplied⟩
  rw [hrun]
  exact hcount

/-- Whatever is printed, the reply stays in the buffer. -/
theorem printResult_replied (calls : List PrintCall) {numRec : Nat} (hrec : numRec < 10 ^ 14) (mem : Memory) :
    ∃ ctx kept left, printResult calls numRec ⟨mem, 0, false⟩ = some ctx ∧
      Replied mem (calls.flatMap PrintCall.fragments) numRec kept left ctx := by
  simp only [printResult, calls_eq]
  exact fragments_replied _ hrec mem

def oneColumn : RecordPrinter := ⟨1, Nat.one_pos⟩

def twoNames : List PrintCall :=
  [.separator oneColumn, .record oneColumn ⟨[ascii "name"], rfl⟩, .separator oneColumn,
    .record oneColumn ⟨[ascii "a"], rfl⟩,
    .record oneColumn ⟨[ascii "a name longer than its column"], rfl⟩, .separator oneColumn]

theorem printResult_replied_twoNames :
    2 < 10 ^ 14 ∧ ∃ ctx kept left, printResult twoNames 2 ⟨fun _ => 0, 0, false⟩ = some ctx ∧
    Replied (fun _ => 0) (twoNames.flatMap PrintCall.fragments) 2 kept left ctx :=
  ⟨by decide, printResult_replied twoNames (by decide) fun _ => 0⟩

section SelectFrom

variable (printer : RecordPrinter) (captions : List.Vector Bytes printer.numCols)
  (records : List (List.Vector Bytes printer.numCols))

def QlManager.selectFrom (ctx : PrintContext) : Option PrintContext := do
  let ctx ← printer.printSeparator ctx
  let ctx ← printer.printRecord captions ctx
  let ctx ← printer.printSeparator ctx
  let ctx ← records.foldlM (fun ctx columns => printer.printRecord columns ctx) ctx
  let ctx ← printer.printSeparator ctx
  printRecordCount records.length ctx

def selectCalls : List PrintCall :=
  [.separator printer, .record printer captions,
    .separator printer] ++ (records.map (.record printer) ++ [.separator printer])

theorem selectFrom_eq (ctx : PrintContext) : QlManager.selectFrom printer captions records ctx =
    printResult (selectCalls printer captions records) records.length ctx := by
  simp only [QlManager.selectFrom, printResult, selectCalls, List.foldlM_append, List.foldlM_cons,
    List.foldlM_nil, List.foldlM_map, PrintCall.run, bind_assoc, bind_pure]

theorem selectCalls_ends :
    ∃ fs, (selectCalls printer captions records).flatMap PrintCall.fragments = fs ++ [.separatorEnd] := by
  rw [selectCalls, ← List.append_assoc, List.flatMap_append, List.flatMap_singleton, PrintCall.fragments,
    ← List.append_assoc]
  exact ⟨_, rfl⟩

/-- The reply to a query ends in a separator, so nothing of it is left out without the mark. -/
theorem selectFrom_marks (hrec : records.length < 10 ^ 14) (mem : Memory) :
    ∃ ctx kept left, QlManager.selectFrom printer captions records ⟨mem, 0, false⟩ = some ctx ∧
      Replied mem ((selectCalls printer captions records).flatMap PrintCall.fragments)
        records.length kept left ctx ∧
      (ctx.ellipsis = true ↔ left ≠ []) := by
  obtain ⟨ctx, kept, left, hrun, hreplied⟩ :=
    fragments_replied ((selectCalls printer captions records).flatMap PrintCall.fragments) hrec mem
  rw [← calls_eq] at hrun
  refine ⟨ctx, kept, left, by rw [selectFrom_eq]; exact hrun, hreplied, ?_⟩
  rw [hreplied.marked]
  constructor
  · rintro ⟨f, hf, -⟩
    exact List.ne_nil_of_mem hf
  · intro hleft
    obtain ⟨fs, hfs⟩ := selectCalls_ends printer captions records
    have hsplit := hreplied.split
    rw [hfs, ← List.dropLast_append_getLast hleft, ← List.append_assoc] at hsplit
    have hlast : Fragment.separatorEnd = left.getLast hleft :=
      List.singleton_inj.1 (List.append_inj' hsplit rfl).2
    exact ⟨_, List.getLast_mem hleft, by rw [← hlast]; decide⟩

end SelectFrom

end Rmdb
