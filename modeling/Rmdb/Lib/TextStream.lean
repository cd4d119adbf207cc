import Mathlib.Tactic

namespace Rmdb.TextStream

/-- Formatted input: a value and what is left of the text. `none` is a stream that has failed. -/
abbrev Reader := StateT (List Char) Option

def isSpace (c : Char) : Bool := c = ' ' || (9 ≤ c.toNat && c.toNat ≤ 13)

def skip (s : List Char) : List Char := s.dropWhile isSpace

/-- `is >> std::string`. -/
def word : Reader (List Char) := fun s =>
  match (skip s).takeWhile (fun c => !isSpace c) with
  | [] => none
  | w => some (w, (skip s).dropWhile fun c => !isSpace c)

def digits : Reader Nat := fun s =>
  match s.takeWhile Char.isDigit with
  | [] => none
  | ds => some (Nat.ofDigitChars 10 ds 0, s.dropWhile Char.isDigit)

/-- `is >> size_t`, of a text without a sign. -/
def natural : Reader Nat := fun s => digits (skip s)

def signed : Reader Int := fun s =>
  match s with
  | '-' :: s => (digits s).map fun r => (-r.1, r.2)
  | '+' :: s => (digits s).map fun r => (r.1, r.2)
  | s => (digits s).map fun r => (r.1, r.2)

def integer : Reader Int32 := fun s =>
  match signed (skip s) with
  | some (z, s) => if -2147483648 ≤ z ∧ z < 2147483648 then some (Int32.ofInt z, s) else none
  | none => none

def boolean : Reader Bool := do
  match ← integer with
  | 0 => return false
  | 1 => return true
  | _ => failure

def many {α : Type} (r : Reader α) : Nat → Reader (List α)
  | 0 => return []
  | n + 1 => do
      let x ← r
      let xs ← many r n
      return x :: xs

def integerText (v : Int32) : List Char :=
  if v.toInt < 0 then '-' :: Nat.toDigits 10 v.toInt.natAbs else Nat.toDigits 10 v.toInt.natAbs

def naturalText (n : Nat) : List Char := Nat.toDigits 10 n

def booleanText (b : Bool) : List Char := if b then ['1'] else ['0']

def Blank (s : List Char) : Prop := ∀ c ∈ s, isSpace c = true

/-- The text stands for the value whatever comes behind it: it is read off, but for white space at its end. -/
def Reads {α : Type} (r : Reader α) (text : List Char) (a : α) : Prop :=
  ∀ blanks rest, Blank blanks → ∃ left, Blank left ∧ r (blanks ++ (text ++ rest)) = some (a, left ++ rest)

section Compose

variable {α β : Type} {r : Reader α} {f : α → Reader β} {a : α} {b : β} {t t' : List Char} {c : Char}

theorem Reads.pure (a : α) : Reads (Pure.pure a) [] a := fun blanks _ hb => ⟨blanks, hb, rfl⟩

theorem Reads.bind (h : Reads r t a) (h' : Reads (f a) t' b) : Reads (r >>= f) (t ++ t') b := by
  intro blanks rest hb
  obtain ⟨left, hleft, hrun⟩ := h blanks (t' ++ rest) hb
  obtain ⟨left', hleft', hrun'⟩ := h' left rest hleft
  refine ⟨left', hleft', ?_⟩
  rw [List.append_assoc]
  change (r (blanks ++ (t ++ (t' ++ rest)))).bind (fun p => f p.1 p.2) = _
  rw [hrun]
  exact hrun'

theorem Reads.bind_pure (h : Reads r t a) (g : α → β) : Reads (r >>= fun x => Pure.pure (g x)) t (g a) := by
  have h' := h.bind (f := fun x => Pure.pure (g x)) (Reads.pure (g a))
  rwa [List.append_nil] at h'

theorem Reads.blank (h : Reads r t a) (hc : isSpace c = true) : Reads r (t ++ [c]) a := by
  intro blanks rest hb
  obtain ⟨left, hleft, hrun⟩ := h blanks (c :: rest) hb
  refine ⟨left ++ [c], ?_, ?_⟩
  · intro d hd
    rcases List.mem_append.1 hd with hd | hd
    · exact hleft d hd
    · rwa [List.mem_singleton.1 hd]
  · simpa using hrun

theorem Reads.many {text : α → List Char} {xs : List α} (h : ∀ x ∈ xs, Reads r (text x) x) :
    Reads (many r xs.length) (xs.flatMap text) xs := by
  induction xs with
  | nil => exact Reads.pure []
  | cons x xs ih =>
      rw [List.flatMap_cons]
      refine (h x List.mem_cons_self).bind ?_
      exact (ih fun y hy => h y (List.mem_cons_of_mem x hy)).bind_pure fun ys => x :: ys

end Compose

section Tokens

variable {c : Char} {w rest blanks : List Char}

theorem skip_blank (hb : Blank blanks) (h : ∀ d ∈ w.head?, isSpace d = false) : skip (blanks ++ w) = w := by
  induction blanks with
  | nil =>
      cases w with
      | nil => rfl
      | cons d w => simp [skip, h d rfl]
  | cons d blanks ih =>
      have hd := hb d List.mem_cons_self
      rw [List.cons_append, skip, List.dropWhile_cons_of_pos hd]
      exact ih fun e he => hb e (List.mem_cons_of_mem d he)

theorem takeWhile_stop {p : Char → Bool} (rest : List Char) (hw : ∀ d ∈ w, p d = true) (hc : p c = false) :
    (w ++ c :: rest).takeWhile p = w ∧ (w ++ c :: rest).dropWhile p = c :: rest := by
  induction w with
  | nil => simp [hc]
  | cons d w ih =>
      have hd := hw d List.mem_cons_self
      obtain ⟨h1, h2⟩ := ih fun e he => hw e (List.mem_cons_of_mem d he)
      simp [hd, h1, h2]

theorem reads_word (hne : w ≠ []) (hw : ∀ d ∈ w, isSpace d = false) (hc : isSpace c = true) :
    Reads word (w ++ [c]) w := by
  intro blanks rest hb
  refine ⟨[c], by simpa [Blank] using hc, ?_⟩
  obtain ⟨d, w', rfl⟩ := List.exists_cons_of_ne_nil hne
  have hskip : skip (blanks ++ (d :: w' ++ [c] ++ rest)) = d :: w' ++ c :: rest := by
    rw [List.append_assoc, List.singleton_append]
    exact skip_blank hb fun e he => by
      obtain rfl : d = e := by simpa using he
      exact hw d List.mem_cons_self
  obtain ⟨htake, hdrop⟩ := takeWhile_stop rest (fun e he => show (!isSpace e) = true by simp [hw e he])
    (show (!isSpace c) = false by simp [hc])
  rw [word, hskip, htake, hdrop]
  rfl

theorem isSpace_digit {d : Char} (h : d.isDigit = true) : isSpace d = false := by
  have hd : 48 ≤ d.toNat := by
    simp only [Char.isDigit, Bool.and_eq_true, decide_eq_true_eq] at h
    exact h.1
  have hne : d ≠ ' ' := by
    rintro rfl
    exact absurd hd (by decide)
  simp only [isSpace, hne, decide_false, Bool.false_or, Bool.and_eq_false_iff, decide_eq_false_iff_not]
  omega

theorem isDigit_space (h : isSpace c = true) : c.isDigit = false := by
  cases hd : c.isDigit with
  | false => rfl
  | true => rw [isSpace_digit hd] at h; cases h

theorem digits_text (n : Nat) (rest : List Char) (hc : isSpace c = true) :
    digits (Nat.toDigits 10 n ++ c :: rest) = some (n, c :: rest) := by
  have hds : ∀ d ∈ Nat.toDigits 10 n,
    d.isDigit = true := fun d hd => Nat.isDigit_of_mem_toDigits (by decide) (by decide) hd
  obtain ⟨htake, hdrop⟩ := takeWhile_stop rest hds (isDigit_space hc)
  have hval : Nat.ofDigitChars 10 (Nat.toDigits 10 n) 0 = n :=
    Nat.ofDigitChars_toDigits (by decide) (by decide)
  obtain ⟨d, ds, heq⟩ := List.exists_cons_of_ne_nil (Nat.toDigits_ne_nil (n := n) (b := 10))
  rw [digits, htake, hdrop]
  rw [heq] at hval ⊢
  simp only [hval]

theorem head_toDigits (n : Nat) (s : List Char) :
    ∃ d ds, Nat.toDigits 10 n ++ s = d :: ds ∧ d.isDigit = true := by
  obtain ⟨d, ds, heq⟩ := List.exists_cons_of_ne_nil (Nat.toDigits_ne_nil (n := n) (b := 10))
  refine ⟨d, ds ++ s, by rw [heq, List.cons_append], ?_⟩
  exact Nat.isDigit_of_mem_toDigits (b := 10) (n := n) (by decide) (by decide)
    (by rw [heq]; exact List.mem_cons_self)

theorem reads_natural (n : Nat) (hc : isSpace c = true) : Reads natural (naturalText n ++ [c]) n := by
  intro blanks rest hb
  refine ⟨[c], by simpa [Blank] using hc, ?_⟩
  have hskip : skip (blanks ++ (naturalText n ++ [c] ++ rest)) = Nat.toDigits 10 n ++ c :: rest := by
    rw [List.append_assoc, List.singleton_append, naturalText]
    refine skip_blank hb fun e he => ?_
    obtain ⟨d, ds, heq, hd⟩ := head_toDigits n (c :: rest)
    rw [heq] at he
    obtain rfl : d = e := by simpa using he
    exact isSpace_digit hd
  rw [natural, hskip, digits_text n _ hc]
  rfl

theorem signed_plain {d : Char} {ds : List Char} (hminus : d ≠ '-') (hplus : d ≠ '+') :
    signed (d :: ds) = (digits (d :: ds)).map fun r => ((r.1 : Int), r.2) := by
  rw [signed.eq_def]
  split
  · rename_i heq
    exact absurd (List.cons.inj heq).1 hminus
  · rename_i heq
    exact absurd (List.cons.inj heq).1 hplus
  · rfl

theorem signed_text (v : Int32) (hc : isSpace c = true) :
    signed (integerText v ++ c :: rest) = some (v.toInt, c :: rest) := by
  rw [integerText]
  split
  · rename_i hneg
    rw [List.cons_append, signed, digits_text _ _ hc]
    simp only [Option.map_some, Option.some.injEq, Prod.mk.injEq, and_true]
    omega
  · rename_i hneg
    obtain ⟨d, ds, heq, hd⟩ := head_toDigits v.toInt.natAbs (c :: rest)
    have hrun := digits_text v.toInt.natAbs rest hc
    rw [heq] at hrun ⊢
    have hminus : d ≠ '-' := by rintro rfl; cases hd
    have hplus : d ≠ '+' := by rintro rfl; cases hd
    have hval : (v.toInt.natAbs : Int) = v.toInt := by omega
    rw [signed_plain hminus hplus, hrun, Option.map_some, hval]

theorem head_integerText (v : Int32) (s : List Char) :
    ∀ d ∈ (integerText v ++ s).head?, isSpace d = false := by
  rw [integerText]
  split
  · intro d hd
    obtain rfl : '-' = d := by simpa using hd
    rfl
  · intro e he
    obtain ⟨d, ds, heq, hd⟩ := head_toDigits v.toInt.natAbs s
    rw [heq] at he
    obtain rfl : d = e := by simpa using he
    exact isSpace_digit hd

theorem reads_integer (v : Int32) (hc : isSpace c = true) : Reads integer (integerText v ++ [c]) v := by
  intro blanks rest hb
  refine ⟨[c], by simpa [Blank] using hc, ?_⟩
  have hskip : skip (blanks ++ (integerText v ++ [c] ++ rest)) = integerText v ++ c :: rest := by
    rw [List.append_assoc, List.singleton_append]
    exact skip_blank hb (head_integerText v _)
  have hlo := v.le_toInt
  have hhi := v.toInt_lt
  simp only [integer, hskip, signed_text v hc]
  rw [if_pos (by omega), Int32.ofInt_toInt]
  rfl

theorem reads_boolean (b : Bool) (hc : isSpace c = true) : Reads boolean (booleanText b ++ [c]) b := by
  cases b with
  | false =>
      have h : Reads boolean (integerText 0 ++ [c] ++ []) false :=
        (reads_integer 0 hc).bind (Reads.pure false)
      rwa [List.append_nil] at h
  | true =>
      have h : Reads boolean (integerText 1 ++ [c] ++ []) true := (reads_integer 1 hc).bind (Reads.pure true)
      rwa [List.append_nil] at h

end Tokens

end Rmdb.TextStream
