import Mathlib.Logic.Function.Basic
import Mathlib.Algebra.BigOperators.Group.Finset.Basic
import Mathlib.Algebra.Order.BigOperators.Group.Finset
import Mathlib.Tactic.Linarith

namespace Rmdb

/-- A computation that may throw, with the list of what it did; the list is kept when it throws. -/
structure Traced (E ε α : Type) where
  events : List E
  result : Except ε α

namespace Traced

variable {E ε α β : Type} {x : Traced E ε α} {f : α → Traced E ε β} {a : α} {b : β} {e : ε}

def bind (x : Traced E ε α) (f : α → Traced E ε β) : Traced E ε β :=
  match x.result with
  | .ok a => ⟨x.events ++ (f a).events, (f a).result⟩
  | .error e => ⟨x.events, .error e⟩

instance : Monad (Traced E ε) where
  pure a := ⟨[], .ok a⟩
  bind := bind

def emit (e : E) : Traced E ε PUnit := ⟨[e], .ok ⟨⟩⟩

def lift (x : Except ε α) : Traced E ε α := ⟨[], x⟩

@[simp] theorem pure_events (a : α) : (pure a : Traced E ε α).events = [] := rfl

@[simp] theorem pure_result (a : α) : (pure a : Traced E ε α).result = .ok a := rfl

@[simp] theorem emit_events (e : E) : (emit e : Traced E ε PUnit).events = [e] := rfl

@[simp] theorem emit_result (e : E) : (emit e : Traced E ε PUnit).result = .ok ⟨⟩ := rfl

@[simp] theorem lift_events (x : Except ε α) : (lift x : Traced E ε α).events = [] := rfl

@[simp] theorem lift_result (x : Except ε α) : (lift x : Traced E ε α).result = x := rfl

@[simp] theorem bind_result : (x >>= f).result = x.result >>= fun a => (f a).result := by
  change (bind x f).result = _
  rw [bind]
  cases x.result with
  | ok a => rfl
  | error e => rfl

theorem ok_bind_eq {t : List E} :
    ((⟨t, .ok a⟩ : Traced E ε α) >>= f) = ⟨t ++ (f a).events, (f a).result⟩ := rfl

theorem bind_ok_events (h : x.result = .ok a) : (x >>= f).events = x.events ++ (f a).events := by
  change (bind x f).events = _
  rw [bind, h]

@[simp] theorem emit_bind_events (e : E) (f : PUnit → Traced E ε β) :
    (emit e >>= f).events = e :: (f ⟨⟩).events := rfl

@[simp] theorem pure_bind_events (a : α) (f : α → Traced E ε β) : (pure a >>= f).events = (f a).events := rfl

@[simp] theorem ite_result {c : Prop} [Decidable c] {y : Traced E ε α} :
    (if c then x else y).result = if c then x.result else y.result := apply_ite result c x y

theorem bind_ok (h : (x >>= f).result = .ok b) :
    ∃ a, x.result = .ok a ∧ (f a).result = .ok b ∧ (x >>= f).events = x.events ++ (f a).events := by
  rw [bind_result] at h
  cases hx : x.result with
  | error e =>
      rw [hx] at h
      cases h
  | ok a =>
      rw [hx] at h
      exact ⟨a, rfl, h, bind_ok_events hx⟩

end Traced

/-- What a computation does with the pages of a pool: it takes a pin, gives one back, or reads or
writes the bytes. -/
inductive PinEvent (P : Type)
  | pin (p : P)
  | unpin (p : P)
  | touch (p : P)
deriving DecidableEq, Repr

/-- How many pins there are on each page. -/
abbrev Pins (P : Type) := P → Nat

namespace Pins

variable {P : Type} [DecidableEq P] {o : Pins P} {p q : P} {s t : List (PinEvent P)}

def pin (o : Pins P) (p : P) : Pins P := Function.update o p (o p + 1)

/-- A page without pins stays as it is. -/
def unpin (o : Pins P) (p : P) : Pins P := Function.update o p (o p - 1)

def zero : Pins P := fun _ => 0

def after (o : Pins P) : List (PinEvent P) → Pins P
  | [] => o
  | .pin p :: t => (o.pin p).after t
  | .unpin p :: t => (o.unpin p).after t
  | .touch _ :: t => o.after t

/-- Bytes are touched only while there is a pin on the page. -/
def Covers (o : Pins P) : List (PinEvent P) → Prop
  | [] => True
  | .pin p :: t => (o.pin p).Covers t
  | .unpin p :: t => (o.unpin p).Covers t
  | .touch p :: t => 0 < o p ∧ o.Covers t

theorem after_append : o.after (s ++ t) = (o.after s).after t := by
  induction s generalizing o with
  | nil => rfl
  | cons e s ih => cases e <;> exact ih

theorem covers_append : o.Covers (s ++ t) ↔ o.Covers s ∧ (o.after s).Covers t := by
  induction s generalizing o with
  | nil => exact (true_and _).to_iff.symm
  | cons e s ih =>
      cases e with
      | pin p => exact ih
      | unpin p => exact ih
      | touch p => exact (and_congr_right fun _ => ih).trans and_assoc.symm

@[simp] theorem unpin_pin : (o.pin p).unpin p = o := by
  funext q
  by_cases hq : q = p
  · rw [unpin, pin, hq]
    simp
  · rw [unpin, pin]
    simp [hq]

theorem pin_comm : (o.pin p).pin q = (o.pin q).pin p := by
  funext r
  by_cases hp : r = p
  · by_cases hq : r = q
    · rw [← hp, ← hq]
    · simp [pin, ← hp, hq]
  · by_cases hq : r = q
    · simp [pin, ← hq, hp]
    · simp [pin, hp, hq]

@[simp] theorem unpin_pin_pin : ((o.pin p).pin q).unpin p = o.pin q := by rw [pin_comm, unpin_pin]

@[simp] theorem pin_self : (o.pin p) p = o p + 1 := Function.update_self ..

theorem le_pin (q : P) : o q ≤ (o.pin p) q := by
  by_cases hq : q = p
  · rw [hq, pin_self]
    exact Nat.le_succ _
  · rw [pin, Function.update_of_ne hq]

theorem pin_of_ne (h : q ≠ p) : (o.pin p) q = o q := Function.update_of_ne h ..

theorem pin_pos_self : 0 < (o.pin p) p := by simp

theorem pin_pos (h : 0 < o q) : 0 < (o.pin p) q := h.trans_le (le_pin q)

def balance : List (PinEvent P) → Int
  | [] => 0
  | .pin _ :: t => balance t + 1
  | .unpin _ :: t => balance t - 1
  | .touch _ :: t => balance t

omit [DecidableEq P] in
@[simp] theorem balance_append : balance (s ++ t) = balance s + balance t := by
  induction s with
  | nil => simp [balance]
  | cons e s ih => cases e <;> simp only [List.cons_append, balance, ih] <;> omega

def page : PinEvent P → P
  | .pin p | .unpin p | .touch p => p

/-- Over a set of pages that holds all pages of the trace, the pins grow by at least its balance:
a page without pins stays as it is when one is given back. -/
theorem sum_after (S : Finset P) (hS : ∀ e ∈ t, page e ∈ S) :
    (∑ p ∈ S, (o p : Int)) + balance t ≤ ∑ p ∈ S, (o.after t p : Int) := by
  induction t generalizing o with
  | nil => simp [balance, after]
  | cons e t ih =>
      have hrest := fun o : Pins P => ih (o := o) fun e he => hS e (List.mem_cons_of_mem _ he)
      have hin := hS e List.mem_cons_self
      cases e with
      | pin p =>
          have hpage : p ∈ S := hin
          have hsum : ∑ q ∈ S, ((o.pin p) q : Int) = (∑ q ∈ S, (o q : Int)) + 1 := by
            rw [← Finset.add_sum_erase S _ hpage,
              ← Finset.add_sum_erase S (fun q => (o q : Int)) hpage, pin_self]
            have heq : ∑ q ∈ S.erase p, ((o.pin p) q : Int) = ∑ q ∈ S.erase p, (o q : Int) :=
              Finset.sum_congr rfl fun q hq => by rw [pin_of_ne (Finset.ne_of_mem_erase hq)]
            rw [heq]
            push_cast
            exact add_right_comm _ _ _
          have hle := hrest (o.pin p)
          rw [hsum] at hle
          rw [balance, after]
          linarith
      | unpin p =>
          have hpage : p ∈ S := hin
          have hsum : (∑ q ∈ S, (o q : Int)) - 1 ≤ ∑ q ∈ S, ((o.unpin p) q : Int) := by
            rw [← Finset.add_sum_erase S (fun q => (o q : Int)) hpage,
              ← Finset.add_sum_erase S (fun q => ((o.unpin p) q : Int)) hpage]
            have heq : ∑ q ∈ S.erase p, ((o.unpin p) q : Int) = ∑ q ∈ S.erase p, (o q : Int) :=
              Finset.sum_congr rfl fun q hq => by
                rw [unpin, Function.update_of_ne (Finset.ne_of_mem_erase hq)]
            have hself : (o p : Int) - 1 ≤ ((o.unpin p) p : Int) := by
              rw [unpin, Function.update_self]
              omega
            rw [heq]
            linarith
          have hle := hrest (o.unpin p)
          rw [balance, after]
          linarith
      | touch p => exact hrest o

theorem balance_of_after (h : o.after t = o) : balance t ≤ 0 := by
  have hle := sum_after (o := o) (t := t) (t.map page).toFinset fun e he =>
    List.mem_toFinset.2 (List.mem_map_of_mem he)
  rw [h] at hle
  linarith

end Pins

namespace Traced

open Pins

variable {P ε α β : Type} {x : Traced (PinEvent P) ε α} {f : α → Traced (PinEvent P) ε β} {a : α} {p : P}

section Nets

variable {Q : α → Int → Prop} {R : β → Int → Prop}

/-- When the computation returns, `Q` holds of its result and of the balance of what it did. -/
def Nets (x : Traced (PinEvent P) ε α) (Q : α → Int → Prop) : Prop :=
  ∀ a, x.result = .ok a → Q a (balance x.events)

theorem Nets.bind (h : Nets x fun a n => Nets (f a) fun b m => R b (n + m)) : Nets (x >>= f) R := by
  intro b hb
  obtain ⟨a, ha, hfa, hev⟩ := bind_ok hb
  rw [hev, balance_append]
  exact h a ha b hfa

theorem Nets.mono {Q' : α → Int → Prop} (h : Nets x Q) (hQ : ∀ a n, Q a n → Q' a n) : Nets x Q' :=
  fun a ha => hQ a _ (h a ha)

theorem Nets.pure (h : Q a 0) : Nets (Pure.pure a : Traced (PinEvent P) ε α) Q := by
  rintro b ⟨⟩
  exact h

theorem Nets.lift {r : Except ε α} (h : ∀ a, r = .ok a → Q a 0) : Nets
    (lift r : Traced (PinEvent P) ε α) Q := h

theorem Nets.emit {e : PinEvent P} {Q : PUnit → Int → Prop} (h : Q ⟨⟩ (balance [e])) :
    Nets (emit e : Traced (PinEvent P) ε PUnit) Q := fun _ _ => h

theorem Nets.ite {c : Prop} [Decidable c] {y : Traced (PinEvent P) ε α} (ht : c → Nets x Q)
    (hf : ¬c → Nets y Q) :
    Nets (if c then x else y) Q := by
  split
  · exact ht ‹c›
  · exact hf ‹¬c›

end Nets

section Neat

variable [DecidableEq P] {o : Pins P} {Q : α → Pins P → Prop} {R : β → Pins P → Prop}

/-- When the computation returns, it has touched bytes only under pins, and `Q` holds of its
result and of the pins it leaves. -/
def Neat (o : Pins P) (x : Traced (PinEvent P) ε α) (Q : α → Pins P → Prop) : Prop :=
  ∀ a, x.result = .ok a → o.Covers x.events ∧ Q a (o.after x.events)

theorem Neat.bind (h : Neat o x fun a o' => Neat o' (f a) R) : Neat o (x >>= f) R := by
  intro b hb
  obtain ⟨a, ha, hfa, hev⟩ := bind_ok hb
  obtain ⟨hcov, hrest⟩ := h a ha
  obtain ⟨hcov', hR⟩ := hrest b hfa
  rw [hev, covers_append, after_append]
  exact ⟨⟨hcov, hcov'⟩, hR⟩

theorem Neat.mono {Q' : α → Pins P → Prop} (h : Neat o x Q) (hQ : ∀ a o', Q a o' → Q' a o') : Neat o x Q' :=
  fun a ha => ⟨(h a ha).1, hQ a _ (h a ha).2⟩

theorem Neat.pure (h : Q a o) : Neat o (Pure.pure a : Traced (PinEvent P) ε α) Q := by
  rintro b ⟨⟩
  exact ⟨trivial, h⟩

theorem Neat.lift {r : Except ε α} (h : ∀ a, r = .ok a → Q a o) : Neat o
    (lift r : Traced (PinEvent P) ε α) Q :=
  fun a ha => ⟨trivial, h a ha⟩

theorem Neat.touch {Q : PUnit → Pins P → Prop} (hp : 0 < o p) (h : Q ⟨⟩ o) :
    Neat o (emit (.touch p) : Traced (PinEvent P) ε PUnit) Q := fun _ _ => ⟨⟨hp, trivial⟩, h⟩

theorem Neat.unpin {Q : PUnit → Pins P → Prop} (h : Q ⟨⟩ (o.unpin p)) :
    Neat o (emit (.unpin p) : Traced (PinEvent P) ε PUnit) Q := fun _ _ => ⟨trivial, h⟩

theorem Neat.ite {c : Prop} [Decidable c] {y : Traced (PinEvent P) ε α} (ht : c → Neat o x Q)
    (hf : ¬c → Neat o y Q) :
    Neat o (if c then x else y) Q := by
  split
  · exact ht ‹c›
  · exact hf ‹¬c›

/-- The computation does not return without touching bytes of a page that has no pin. -/
def Bare (o : Pins P) (x : Traced (PinEvent P) ε α) : Prop := ∀ a, x.result = .ok a → ¬o.Covers x.events

theorem Bare.bind (h : Neat o x fun a o' => Bare o' (f a)) : Bare o (x >>= f) := by
  intro b hb
  obtain ⟨a, ha, hfa, hev⟩ := bind_ok hb
  rw [hev, covers_append]
  exact fun hcov => (h a ha).2 b hfa hcov.2

theorem Bare.first (h : Bare o x) : Bare o (x >>= f) := by
  intro b hb
  obtain ⟨a, ha, -, hev⟩ := bind_ok hb
  rw [hev, covers_append]
  exact fun hcov => h a ha hcov.1

theorem Bare.touch (hp : o p = 0) : Bare o (emit (.touch p) : Traced (PinEvent P) ε PUnit) :=
  fun _ _ hcov => hcov.1.ne' hp

end Neat

end Traced

end Rmdb
