import Rmdb.Lib.Cursor
import Rmdb.Execution.Condition

namespace Rmdb

open ConditionCheck

structure AbstractExecutor (σ : Type) extends Cursor σ ScanError Bytes where
  cols : List ColMeta
  tupleLen : Nat
  beginTuple : σ → Except ScanError σ

/-- From every state in `reach` the executor can be started; it then runs over the records and stays in
`reach`, so that it can be started again at any time. -/
structure AbstractExecutor.Iterates {σ : Type} (ex : AbstractExecutor σ) (reach : σ → Prop)
    (records : List Bytes) : Prop where
  start : ∀ s, reach s → ∃ t, ex.beginTuple s = .ok t ∧ ex.YieldsIn reach t records
  width : ∀ record ∈ records, record.length = ex.tupleLen

def AbstractExecutor.run {σ : Type} (ex : AbstractExecutor σ) (fuel : Nat) (s : σ) :
    Except ScanError (List Bytes) := do
  let t ← ex.beginTuple s
  ex.collect .outOfFuel fuel t

/-- Where the children stand, and the flag `isend`. -/
structure JoinState (σ τ : Type) where
  left : σ
  right : τ
  isEnd : Bool

namespace NestedLoopJoinExecutor

variable {σ τ : Type} (left : AbstractExecutor σ) (right : AbstractExecutor τ) (conds : List Condition)
  (fed : List FedCond) (fuel : Nat)

def cols : List ColMeta :=
  left.cols ++ right.cols.map fun col => { col with offset := col.offset + left.tupleLen }

def fedConds : Except ScanError (List FedCond) := conds.mapM fun cond => cond.feed (cols left right)

def concat (l r : Bytes) : Bytes := l.take left.tupleLen ++ r.take right.tupleLen

def get (s : JoinState σ τ) : Except ScanError Bytes := do
  let l ← left.get s.left
  let r ← right.get s.right
  return concat left right l r

/-- The inner loop; returns whether it has stopped at a pair that passes. -/
def scanRight : Nat → JoinState σ τ → Except ScanError (Bool × JoinState σ τ)
  | 0, s => if right.isEnd s.right then .ok (false, s) else .error .outOfFuel
  | n + 1, s =>
      if right.isEnd s.right then .ok (false, s)
      else do
        let record ← get left right s
        if ← checkConditions fed record then return (true, s)
        let r ← right.next s.right
        scanRight n { s with right := r }

def beginLoop : Nat → JoinState σ τ → Except ScanError (JoinState σ τ)
  | 0, s => if left.isEnd s.left then .ok { s with isEnd := true } else .error .outOfFuel
  | n + 1, s =>
      if left.isEnd s.left then .ok { s with isEnd := true }
      else do
        let r ← right.beginTuple s.right
        let (found, s) ← scanRight left right fed fuel { s with right := r }
        if found then return s
        let l ← left.next s.left
        beginLoop n { s with left := l }

def nextLoop : Nat → JoinState σ τ → Except ScanError (JoinState σ τ)
  | 0, s => if left.isEnd s.left then .ok { s with isEnd := true } else .error .outOfFuel
  | n + 1, s =>
      if left.isEnd s.left then .ok { s with isEnd := true }
      else do
        let (found, s) ← scanRight left right fed fuel s
        if found then return s
        let l ← left.next s.left
        let r ← right.beginTuple s.right
        nextLoop n { s with left := l, right := r }

def beginTuple (s : JoinState σ τ) : Except ScanError (JoinState σ τ) := do
  let l ← left.beginTuple s.left
  beginLoop left right fed fuel fuel { s with left := l, isEnd := false }

def nextTuple (s : JoinState σ τ) : Except ScanError (JoinState σ τ) := do
  let r ← right.next s.right
  nextLoop left right fed fuel fuel { s with right := r }

def executor : AbstractExecutor (JoinState σ τ) where
  isEnd s := s.isEnd
  get := get left right
  next := nextTuple left right fed fuel
  cols := cols left right
  tupleLen := left.tupleLen + right.tupleLen
  beginTuple := beginTuple left right fed fuel

end NestedLoopJoinExecutor

section Pairs

variable (fed : List FedCond)

def keepRecords : List Bytes → Except ScanError (List Bytes)
  | [] => .ok []
  | record :: records => do
      let keep ← checkConditions fed record
      let kept ← keepRecords records
      return if keep then record :: kept else kept

def seekRecord : List Bytes → Except ScanError (List Bytes)
  | [] => .ok []
  | record :: records => do
      if ← checkConditions fed record then return record :: records
      seekRecord records

def keepFrom : List Bytes → Except ScanError (List Bytes)
  | [] => .ok []
  | record :: records => do
      let kept ← keepRecords fed records
      return record :: kept

variable {fed} {records : List Bytes}

theorem keepRecords_seek : keepRecords fed records = seekRecord fed records >>= keepFrom fed := by
  induction records with
  | nil => rfl
  | cons record records ih =>
      rw [keepRecords, seekRecord]
      cases hcheck : checkConditions fed record with
      | error e => rfl
      | ok keep =>
          cases keep with
          | true => rfl
          | false =>
              change keepRecords fed records >>= pure = _
              rw [bind_pure]
              exact ih

theorem keepRecords_filter {test : Bytes → Bool}
    (h : ∀ record ∈ records, checkConditions fed record = .ok (test record)) :
    keepRecords fed records = .ok (records.filter test) := by
  induction records with
  | nil => rfl
  | cons record records ih =>
      rw [keepRecords, h record List.mem_cons_self,
        ih fun x hx => h x (List.mem_cons_of_mem _ hx), List.filter_cons]
      cases test record <;> rfl

theorem seekRecord_append {front back : List Bytes} :
    seekRecord fed (front ++ back) = seekRecord fed front >>= fun found =>
    if found = [] then seekRecord fed back else .ok (found ++ back) := by
  induction front with
  | nil => rfl
  | cons record front ih =>
      rw [List.cons_append, seekRecord, seekRecord]
      cases hcheck : checkConditions fed record with
      | error e => rfl
      | ok keep =>
          cases keep with
          | true => rfl
          | false => exact ih

theorem seekRecord_length {found : List Bytes} (h : seekRecord fed records = .ok found) :
    found.length ≤ records.length := by
  induction records with
  | nil =>
      cases h
      exact le_rfl
  | cons record records ih =>
      rw [seekRecord] at h
      cases hcheck : checkConditions fed record with
      | error e => simp [hcheck, bind, Except.bind] at h
      | ok keep =>
          cases keep with
          | true =>
              simp only [hcheck, bind, Except.bind, pure, Except.pure, if_true, Except.ok.injEq] at h
              rw [← h]
          | false => exact (ih (by simpa [hcheck, bind, Except.bind] using h)).trans (Nat.le_succ _)

def pairs (ls R : List Bytes) : List Bytes := ls.flatMap fun l => R.map (l ++ ·)

def pairsFrom (rs R : List Bytes) : List Bytes → List Bytes
  | [] => []
  | l :: ls => rs.map (l ++ ·) ++ pairs ls R

theorem pairsFrom_all (ls R : List Bytes) : pairsFrom R R ls = pairs ls R := by cases ls <;> rfl

def Agree {ε α β : Type} (rel : α → β → Prop) : Except ε α → Except ε β → Prop
  | .ok a, .ok b => rel a b
  | .error e, .error e' => e = e'
  | _, _ => False

theorem Agree.cases {ε α β : Type} {rel : α → β → Prop} {x : Except ε α} {y : Except ε β}
    (h : Agree rel x y) :
    (∃ e, x = .error e ∧ y = .error e) ∨ ∃ a b, x = .ok a ∧ y = .ok b ∧ rel a b := by
  cases x with
  | error e =>
      cases y with
      | error e' => exact .inl ⟨e, rfl, congrArg _ (Eq.symm h)⟩
      | ok b => cases h
  | ok a =>
      cases y with
      | error e => cases h
      | ok b => exact .inr ⟨a, b, rfl, rfl, h⟩

theorem Agree.bind {ε α β γ δ : Type} {rel : α → β → Prop} {rel' : γ → δ → Prop}
    {x : Except ε α} {y : Except ε β} {f : α → Except ε γ} {g : β → Except ε δ} (h : Agree rel x y)
    (hf : ∀ a b, rel a b → Agree rel' (f a) (g b)) :
    Agree rel' (x >>= f) (y >>= g) := by
  rcases h.cases with ⟨e, rfl, rfl⟩ | ⟨a, b, rfl, rfl, hrel⟩
  · rfl
  · exact hf a b hrel

end Pairs

namespace NestedLoopJoinExecutor

variable {σ τ : Type} {left : AbstractExecutor σ} {right : AbstractExecutor τ}
  {fed : List FedCond} {fuel : Nat} {reachL : σ → Prop} {reachR : τ → Prop} {L R ls rs : List Bytes}
  {l r : Bytes} {s : JoinState σ τ}

section Loops

variable (left right fuel reachL reachR)

/-- The children stand where the given records are still to come. -/
structure Before (s : JoinState σ τ) (ls rs : List Bytes) : Prop where
  going : s.isEnd = false
  onLeft : left.YieldsIn reachL s.left ls
  onRight : right.YieldsIn reachR s.right rs
  widthL : ∀ l ∈ ls, l.length = left.tupleLen
  widthR : ∀ r ∈ rs, r.length = right.tupleLen
  fitL : ls.length ≤ fuel
  fitR : rs.length ≤ fuel

def At (R : List Bytes) (s : JoinState σ τ) (ps : List Bytes) : Prop :=
  (ps = [] ∧ s.isEnd = true ∧ reachL s.left ∧ reachR s.right) ∨
    ∃ l ls r rs, Before left right fuel reachL reachR s (l :: ls) (r :: rs) ∧
    ps = pairsFrom (r :: rs) R (l :: ls)

def Scanned (l : Bytes) (ls : List Bytes) (res : Bool × JoinState σ τ) (ps : List Bytes) : Prop :=
  (res.1 = false ∧ ps = [] ∧ Before left right fuel reachL reachR res.2 (l :: ls) []) ∨
    (res.1 = true ∧ ∃ r rs, ps = (r :: rs).map (l ++ ·) ∧
      Before left right fuel reachL reachR res.2 (l :: ls) (r :: rs))

end Loops

theorem Before.get (h : Before left right fuel reachL reachR s (l :: ls) (r :: rs)) :
    get left right s = .ok (l ++ r) := by
  have hl := h.onLeft.cons.2.1
  have hr := h.onRight.cons.2.1
  have hwl := h.widthL l List.mem_cons_self
  have hwr := h.widthR r List.mem_cons_self
  simp [NestedLoopJoinExecutor.get, hl, hr, concat, ← hwl, ← hwr, bind, Except.bind, pure, Except.pure]

theorem Before.nextRight (h : Before left right fuel reachL reachR s ls (r :: rs)) :
    ∃ t, right.next s.right = .ok t ∧ Before left right fuel reachL reachR { s with right := t } ls rs := by
  obtain ⟨-, -, t, hnext, hrest⟩ := h.onRight.cons
  exact ⟨t, hnext, h.going, h.onLeft, hrest,
    h.widthL, fun x hx => h.widthR x (List.mem_cons_of_mem _ hx), h.fitL,
    Nat.le_of_succ_le h.fitR⟩

theorem Before.nextLeft (hR : right.Iterates reachR R) (hfuel : R.length ≤ fuel)
    (h : Before left right fuel reachL reachR s (l :: ls) rs) : ∃ t u, left.next s.left = .ok t ∧
      right.beginTuple s.right = .ok u ∧
      Before left right fuel reachL reachR { s with left := t, right := u } ls R := by
  obtain ⟨-, -, t, hnext, hrest⟩ := h.onLeft.cons
  obtain ⟨u, hstart, honRight⟩ := hR.start _ h.onRight.holds
  exact ⟨t, u, hnext, hstart, h.going, hrest,
    honRight, fun x hx => h.widthL x (List.mem_cons_of_mem _ hx), hR.width,
    Nat.le_of_succ_le h.fitL, hfuel⟩

theorem scanRight_spec (h : Before left right fuel reachL reachR s (l :: ls) rs) {n : Nat}
    (hn : rs.length ≤ n) :
    Agree (Scanned left right fuel reachL reachR l ls) (scanRight left right fed n s)
      (seekRecord fed (rs.map (l ++ ·))) := by
  induction rs generalizing s n with
  | nil =>
      have hscan : scanRight left right fed n s = .ok (false, s) :=
        by cases n <;> simp [scanRight, h.onRight.isEnd_nil]
      rw [hscan]
      exact .inl ⟨rfl, rfl, h⟩
  | cons r rs ih =>
      obtain ⟨n, rfl⟩ : ∃ m, n = m + 1 := Nat.exists_eq_succ_of_ne_zero (by simp at hn; omega)
      obtain ⟨t, hnext, hrest⟩ := h.nextRight
      rw [scanRight, h.onRight.cons.1, if_neg Bool.false_ne_true, h.get, List.map_cons, seekRecord, hnext]
      cases hcheck : checkConditions fed (l ++ r) with
      | error e => simp [hcheck, bind, Except.bind, Agree]
      | ok keep =>
          cases keep with
          | true =>
              simp only [hcheck, bind, Except.bind, pure, Except.pure, if_true]
              exact .inr ⟨rfl, r, rs, rfl, h⟩
          | false => simpa [hcheck, bind, Except.bind] using ih hrest (Nat.le_of_succ_le_succ hn)

theorem nextLoop_spec (hR : right.Iterates reachR R) (hfuel : R.length ≤ fuel)
    (h : Before left right fuel reachL reachR s ls rs) {n : Nat} (hn : ls.length ≤ n) :
    Agree (At left right fuel reachL reachR R) (nextLoop left right fed fuel n s)
      (seekRecord fed (pairsFrom rs R ls)) := by
  induction ls generalizing s rs n with
  | nil =>
      have hloop : nextLoop left right fed fuel n s = .ok { s with isEnd := true } := by
        cases n <;> simp [nextLoop, h.onLeft.isEnd_nil]
      rw [hloop]
      exact .inl ⟨rfl, rfl, h.onLeft.holds, h.onRight.holds⟩
  | cons l ls ih =>
      obtain ⟨n, rfl⟩ : ∃ m, n = m + 1 := Nat.exists_eq_succ_of_ne_zero (by simp at hn; omega)
      rw [nextLoop, h.onLeft.cons.1, if_neg Bool.false_ne_true, pairsFrom, seekRecord_append]
      refine (scanRight_spec h h.fitR).bind ?_
      rintro ⟨found, t⟩ ps (⟨rfl, rfl, hdone⟩ | ⟨rfl, r, rs, rfl, hfound⟩)
      · -- the right records are through: the next left record
        obtain ⟨u, v, hnext, hstart, hbefore⟩ := hdone.nextLeft hR hfuel
        have hrest := ih hbefore (Nat.le_of_succ_le_succ hn)
        rw [pairsFrom_all] at hrest
        simpa [hnext, hstart, bind, Except.bind] using hrest
      · exact .inr ⟨l, ls, r, rs, hfound, rfl⟩

/-- Between two rounds of `beginTuple` the right child may stand anywhere. -/
theorem beginLoop_spec (hR : right.Iterates reachR R) (hfuel : R.length ≤ fuel) (hgoing : s.isEnd = false)
    (honLeft : left.YieldsIn reachL s.left ls) (hreachR : reachR s.right)
    (hwidthL : ∀ l ∈ ls, l.length = left.tupleLen) (hfit : ls.length ≤ fuel) {n : Nat} (hn : ls.length ≤ n) :
    Agree (At left right fuel reachL reachR R) (beginLoop left right fed fuel n s)
      (seekRecord fed (pairs ls R)) := by
  induction ls generalizing s n with
  | nil =>
      have hloop : beginLoop left right fed fuel n s = .ok { s with isEnd := true } := by
        cases n <;> simp [beginLoop, honLeft.isEnd_nil]
      rw [hloop]
      exact .inl ⟨rfl, rfl, honLeft.holds, hreachR⟩
  | cons l ls ih =>
      obtain ⟨n, rfl⟩ : ∃ m, n = m + 1 := Nat.exists_eq_succ_of_ne_zero (by simp at hn; omega)
      obtain ⟨u, hstart, honRight⟩ := hR.start _ hreachR
      have hbefore : Before left right fuel reachL reachR { s with right := u } (l :: ls) R :=
        ⟨hgoing, honLeft, honRight, hwidthL, hR.width, hfit, hfuel⟩
      have hpairs : pairs (l :: ls) R = R.map (l ++ ·) ++ pairs ls R := rfl
      rw [beginLoop, honLeft.cons.1, if_neg Bool.false_ne_true, hstart, hpairs, seekRecord_append]
      refine (scanRight_spec hbefore hfuel).bind ?_
      rintro ⟨found, t⟩ ps (⟨rfl, rfl, hdone⟩ | ⟨rfl, r, rs, rfl, hfound⟩)
      · obtain ⟨-, -, v, hnext, hrestL⟩ := hdone.onLeft.cons
        have hrest := ih (s := ⟨v, t.right, t.isEnd⟩) hdone.going hrestL hdone.onRight.holds
          (fun x hx => hwidthL x (List.mem_cons_of_mem _ hx)) (Nat.le_of_succ_le hfit)
            (Nat.le_of_succ_le_succ hn)
        simpa [hnext, bind, Except.bind] using hrest
      · exact .inr ⟨l, ls, r, rs, hfound, rfl⟩

variable (fed) in
theorem beginTuple_spec (hL : left.Iterates reachL L) (hR : right.Iterates reachR R)
    (hfuelL : L.length ≤ fuel) (hfuelR : R.length ≤ fuel) (hreachL : reachL s.left)
    (hreachR : reachR s.right) :
    Agree (At left right fuel reachL reachR R) (beginTuple left right fed fuel s)
      (seekRecord fed (pairs L R)) := by
  obtain ⟨t, hstart, honLeft⟩ := hL.start _ hreachL
  rw [beginTuple, hstart]
  exact beginLoop_spec (s := ⟨t, s.right, false⟩) hR hfuelR rfl honLeft hreachR hL.width hfuelL hfuelL

variable (fed) in
theorem nextTuple_spec (hR : right.Iterates reachR R) (hfuel : R.length ≤ fuel) {p : Bytes} {ps : List Bytes}
    (h : At left right fuel reachL reachR R s (p :: ps)) :
    s.isEnd = false ∧ get left right s = .ok p ∧ reachL s.left ∧ reachR s.right ∧
      Agree (At left right fuel reachL reachR R) (nextTuple left right fed fuel s) (seekRecord fed ps) := by
  rcases h with ⟨hnil, -⟩ | ⟨l, ls, r, rs, hbefore, hps⟩
  · cases hnil
  · cases hps
    obtain ⟨t, hnext, hrest⟩ := hbefore.nextRight
    refine ⟨hbefore.going, hbefore.get, hbefore.onLeft.holds, hbefore.onRight.holds, ?_⟩
    rw [nextTuple, hnext]
    exact nextLoop_spec hR hfuel hrest hbefore.fitL

def Reach (reachL : σ → Prop) (reachR : τ → Prop) (s : JoinState σ τ) : Prop := reachL s.left ∧ reachR s.right

/-- From a pair on, the join returns the pairs that pass, or the exception of the first one that throws. -/
theorem collect_spec (hR : right.Iterates reachR R) (hfuel : R.length ≤ fuel) {ps : List Bytes}
    (h : At left right fuel reachL reachR R s ps) {n : Nat} (hn : ps.length ≤ n) :
    (executor left right fed fuel).collect .outOfFuel n s = keepFrom fed ps := by
  induction n generalizing s ps with
  | zero =>
      obtain rfl : ps = [] := List.length_eq_zero_iff.1 (Nat.le_zero.1 hn)
      rcases h with ⟨-, hend, -⟩ | ⟨l, ls, r, rs, -, hps⟩
      · exact if_pos hend
      · simp [pairsFrom] at hps
  | succ n ih =>
      cases ps with
      | nil =>
          rcases h with ⟨-, hend, -⟩ | ⟨l, ls, r, rs, -, hps⟩
          · exact if_pos hend
          · simp [pairsFrom] at hps
      | cons p ps =>
          obtain ⟨hgoing, hget, -, -, hnext⟩ := nextTuple_spec fed hR hfuel h
          have hend : (executor left right fed fuel).isEnd s = false := hgoing
          have hpair : (executor left right fed fuel).get s = .ok p := hget
          have hstep : (executor left right fed fuel).next s = nextTuple left right fed fuel s := rfl
          rw [Cursor.collect, hend, if_neg Bool.false_ne_true, hpair, hstep, keepFrom, keepRecords_seek]
          rcases hnext.cases with ⟨e, htuple, hseek⟩ | ⟨t, found, htuple, hseek, hat⟩
          · rw [htuple, hseek]
            rfl
          · have hlen := (seekRecord_length hseek).trans (Nat.le_of_succ_le_succ hn)
            rw [htuple, hseek]
            exact congrArg (fun rows => rows >>= fun kept => pure (p :: kept)) (ih hat hlen)

theorem yieldsIn_spec (hR : right.Iterates reachR R) (hfuel : R.length ≤ fuel) {ps rows : List Bytes}
    (h : At left right fuel reachL reachR R s ps) (hrows : keepFrom fed ps = .ok rows) :
    (executor left right fed fuel).YieldsIn (Reach reachL reachR) s rows := by
  induction hn : ps.length using Nat.strong_induction_on generalizing s ps rows with
  | _ n ih =>
      cases ps with
      | nil =>
          cases hrows
          rcases h with ⟨-, hend, hreach⟩ | ⟨l, ls, r, rs, -, hps⟩
          · exact .done hreach hend
          · simp [pairsFrom] at hps
      | cons p ps =>
          obtain ⟨hgoing, hget, hreachL, hreachR, hnext⟩ := nextTuple_spec fed hR hfuel h
          have hlen : ∀ found, seekRecord fed ps = .ok found → found.length < n := by
            intro found hseek
            rw [← hn]
            exact Nat.lt_succ_of_le (seekRecord_length hseek)
          rw [keepFrom, keepRecords_seek] at hrows
          rcases hnext.cases with ⟨e, -, hseek⟩ | ⟨t, found, htuple, hseek, hat⟩
          · rw [hseek] at hrows
            cases hrows
          · rw [hseek] at hrows
            cases hkept : keepFrom fed found with
            | error e =>
                simp [hkept, bind, Except.bind] at hrows
            | ok kept =>
                simp only [hkept, bind, Except.bind, pure, Except.pure, Except.ok.injEq] at hrows
                rw [← hrows]
                exact .step ⟨hreachL, hreachR⟩ hgoing hget htuple (ih _ (hlen found hseek) hat hkept rfl)

variable (fed) in
/-- The join over two executors that can be started again: from every state it returns the pairs that
meet the conditions, the left records in the outer loop, and it can be started again itself. -/
theorem join_iterates (hL : left.Iterates reachL L) (hR : right.Iterates reachR R) (hfuelL : L.length ≤ fuel)
    (hfuelR : R.length ≤ fuel) :
    (∀ s n, Reach reachL reachR s → (pairs L R).length ≤ n →
      (executor left right fed fuel).run n s = keepRecords fed (pairs L R)) ∧
    (∀ test : Bytes → Bool, (∀ p ∈ pairs L R, checkConditions fed p = .ok (test p)) →
      (executor left right fed fuel).Iterates (Reach reachL reachR) ((pairs L R).filter test)) := by
  refine ⟨fun s n hs hn => ?_, fun test htest => ⟨fun s hs => ?_, fun record hrecord => ?_⟩⟩
  · have hstart : (executor left right fed fuel).beginTuple s = beginTuple left right fed fuel s := rfl
    rw [AbstractExecutor.run, hstart, keepRecords_seek]
    rcases (beginTuple_spec fed hL hR hfuelL hfuelR hs.1 hs.2).cases with
      ⟨e, htuple, hseek⟩ | ⟨t, found, htuple, hseek, hat⟩
    · rw [htuple, hseek]
      rfl
    · rw [htuple, hseek]
      exact collect_spec hR hfuelR hat ((seekRecord_length hseek).trans hn)
  · have hkept := keepRecords_filter htest
    rw [keepRecords_seek] at hkept
    rcases (beginTuple_spec fed hL hR hfuelL hfuelR hs.1 hs.2).cases with
      ⟨e, -, hseek⟩ | ⟨t, found, htuple, hseek, hat⟩
    · rw [hseek] at hkept
      cases hkept
    · rw [hseek] at hkept
      exact ⟨t, htuple, yieldsIn_spec hR hfuelR hat hkept⟩
  · obtain ⟨l, hl, hpair⟩ := List.mem_flatMap.1 (List.mem_filter.1 hrecord).1
    obtain ⟨r, hr, rfl⟩ := List.mem_map.1 hpair
    change (l ++ r).length = left.tupleLen + right.tupleLen
    rw [List.length_append, hL.width l hl, hR.width r hr]

section Example

def recordList (cols : List ColMeta) (tupleLen : Nat) (records : List Bytes) :
    AbstractExecutor (List Bytes) where
  isEnd rest := rest.isEmpty
  get rest := .ok (rest.headD [])
  next rest := .ok rest.tail
  cols := cols
  tupleLen := tupleLen
  beginTuple _ := .ok records

theorem recordList_iterates {cols : List ColMeta} {tupleLen : Nat} {records : List Bytes}
    (h : ∀ record ∈ records, record.length = tupleLen) :
    (recordList cols tupleLen records).Iterates (fun _ => True) records := by
  refine ⟨fun s _ => ⟨records, rfl, ?_⟩, h⟩
  clear h
  have hall : ∀ rest, (recordList cols tupleLen records).YieldsIn (fun _ => True) rest rest := by
    intro rest
    induction rest with
    | nil => exact .done trivial rfl
    | cons record rest ih => exact .step trivial rfl rfl rfl ih
  exact hall records

/-- Two tables of one `CHAR(1)` column each, joined on equality. -/
def letterCol (tab : String) (offset : Nat) : ColMeta := ⟨tab, "a", .string, 1, offset⟩

def letters (tab : String) (records : List Bytes) : AbstractExecutor (List Bytes) :=
  recordList [letterCol tab 0] 1 records

def sameLetter : List FedCond := [⟨letterCol "s" 0, .eq, .col (letterCol "t" 1)⟩]

theorem join_iterates_letters :
    let join := executor (letters "s" [[97], [98]]) (letters "t" [[98], [97]]) sameLetter 2
    join.run 4 ⟨[], [], true⟩ = .ok [[97, 97], [98, 98]] ∧
      join.Iterates (Reach (fun _ => True) fun _ => True) [[97, 97], [98, 98]] := by
  intro join
  have hS : (letters "s" [[97], [98]]).Iterates (fun _ => True) [[97], [98]] := recordList_iterates (by simp)
  have hT : (letters "t" [[98], [97]]).Iterates (fun _ => True) [[98], [97]] := recordList_iterates (by simp)
  obtain ⟨hrun, hiter⟩ := join_iterates sameLetter hS hT le_rfl le_rfl
  refine ⟨(hrun _ 4 ⟨trivial, trivial⟩ le_rfl).trans (by decide), ?_⟩
  exact hiter (fun p => p.headD 0 = p.getD 1 0) (by decide)

end Example

end NestedLoopJoinExecutor

end Rmdb
