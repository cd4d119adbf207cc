import Mathlib.Data.List.Forall2

namespace Rmdb.Restart

universe u

/-- What a call comes to, the state it leaves, and what the disk holds after each of its writes, the last one
at the end. -/
structure Outcome (ε α σ δ : Type u) where
  result : Except ε α
  state : σ
  writes : List δ

/-- A program that throws and that writes to a disk. -/
def Prog (ε σ δ α : Type u) := σ → Outcome ε α σ δ

section Monad

variable {ε σ δ α β : Type u}

/-- What has been written before an exception stays. -/
def Outcome.andThen (o : Outcome ε α σ δ) (f : α → Prog ε σ δ β) : Outcome ε β σ δ :=
  match o.result with
  | .ok a => ⟨(f a o.state).result, (f a o.state).state, o.writes ++ (f a o.state).writes⟩
  | .error e => ⟨.error e, o.state, o.writes⟩

instance : Monad (Prog ε σ δ) where
  pure a s := ⟨.ok a, s, []⟩
  bind x f s := (x s).andThen f

instance : MonadStateOf σ (Prog ε σ δ) where
  get s := ⟨.ok s, s, []⟩
  set s _ := ⟨.ok ⟨⟩, s, []⟩
  modifyGet f s := ⟨.ok (f s).1, (f s).2, []⟩

def fail (e : ε) : Prog ε σ δ α := fun s => ⟨.error e, s, []⟩

variable {x : Prog ε σ δ α} {f : α → Prog ε σ δ β} {a : α} {e : ε} {r : Except ε β}
  {s s' s'' : σ} {ds ds' : List δ}

theorem run_bind (hx : x s = ⟨.ok a, s', ds⟩) (hf : f a s' = ⟨r, s'', ds'⟩) :
    (x >>= f) s = ⟨r, s'', ds ++ ds'⟩ := by
  change (x s).andThen f = _
  rw [hx]
  change Outcome.mk (f a s').result (f a s').state (ds ++ (f a s').writes) = _
  rw [hf]

theorem run_fail (hx : x s = ⟨.error e, s', ds⟩) : (x >>= f) s = ⟨.error e, s', ds⟩ := by
  change (x s).andThen f = _
  rw [hx, Outcome.andThen]

theorem run_assoc {γ : Type u} (x : Prog ε σ δ α) (f : α → Prog ε σ δ β) (g : β → Prog ε σ δ γ) (s : σ) :
    ((x >>= f) >>= g) s = (x >>= fun a => f a >>= g) s := by
  change ((x s).andThen f).andThen g = (x s).andThen fun a => f a >>= g
  generalize x s = o
  obtain ⟨res, s', ds⟩ := o
  cases res with
  | error e => rfl
  | ok a =>
      change Outcome.andThen ⟨(f a s').result, (f a s').state, ds ++ (f a s').writes⟩ g =
        ⟨((f a s').andThen g).result, ((f a s').andThen g).state, ds ++ ((f a s').andThen g).writes⟩
      generalize f a s' = o'
      obtain ⟨res', s'', ds'⟩ := o'
      cases res' with
      | error e => rfl
      | ok b => exact congrArg (Outcome.mk _ _) (List.append_assoc _ _ _)

theorem ok_of_bind {b : β} (h : ((x >>= f) s).result = .ok b) :
    ∃ a, (x s).result = .ok a ∧ (f a (x s).state).result = .ok b ∧
      ((x >>= f) s).state = (f a (x s).state).state := by
  change ((x s).andThen f).result = .ok b at h
  change ∃ a, _ ∧ _ ∧ ((x s).andThen f).state = _
  generalize x s = o at h ⊢
  obtain ⟨res, s', ds⟩ := o
  cases res with
  | error e => cases h
  | ok a => exact ⟨a, rfl, h, rfl⟩

theorem run_get (f : σ → Prog ε σ δ β) (s : σ) : (get >>= f) s = f s s := rfl

end Monad

section Simulation

variable {ε σ σ' δ δ' α β : Type u} (ends : ε → Prop) (R : σ → σ' → Prop) (D : δ → δ' → Prop)

/-- The same result and the same writes, one by one. The states do not count once the process has ended. -/
structure Outcome.Matches (o : Outcome ε α σ δ) (o' : Outcome ε α σ' δ') : Prop where
  result : o.result = o'.result
  writes : List.Forall₂ D o.writes o'.writes
  state : (∀ e, o.result = .error e → ¬ ends e) → R o.state o'.state

variable {ends R D}

theorem Outcome.Matches.andThen {o : Outcome ε α σ δ} {o' : Outcome ε α σ' δ'} {f : α → Prog ε σ δ β}
    {f' : α → Prog ε σ' δ' β} (h : o.Matches ends R D o')
    (hf : ∀ a, o'.result = .ok a → R o.state o'.state → (f a o.state).Matches ends R D (f' a o'.state)) :
    (o.andThen f).Matches ends R D (o'.andThen f') := by
  obtain ⟨res, s, ds⟩ := o
  obtain ⟨res', s', ds'⟩ := o'
  obtain ⟨rfl, hwrites, hstate⟩ := h
  cases res with
  | error e => exact ⟨rfl, hwrites, fun hover => hstate fun e' he' => hover e' (by cases he'; rfl)⟩
  | ok a =>
      obtain ⟨hres, hw, hs⟩ := hf a rfl (hstate nofun)
      exact ⟨hres, List.rel_append hwrites hw, hs⟩

end Simulation

/-- Programs over a state of which only the disk stays when the process ends, and what a new process makes of
the disk. -/
structure Machine (ι ε α σ δ : Type u) where
  call : ι → Prog ε σ δ α
  ends : ε → Bool
  disk : σ → δ
  start : δ → Except ε σ

/-- A call runs to its end, or the process is killed after `k` of its writes. -/
inductive Event (ι : Type u)
  | call (i : ι)
  | kill (i : ι) (k : Nat)
deriving DecidableEq

def Event.input {ι : Type u} : Event ι → ι
  | .call i => i
  | .kill i _ => i

/-- What the clients see: the result of a call, or what comes of the start of a new process. -/
inductive Reply (ε α : Type u)
  | result (r : Except ε α)
  | started
  | refused (e : ε)

inductive Status (σ δ : Type u)
  | up (s : σ)
  | down (d : δ)

def diskAfter {δ : Type u} (d : δ) (writes : List δ) (k : Nat) : δ := (writes.take k).getLastD d

namespace Machine

variable {ι ε α σ δ : Type u} (M : Machine ι ε α σ δ)

def boot (d : δ) : Status σ δ × Reply ε α :=
  match M.start d with
  | .ok s => (.up s, .started)
  | .error e => (.down d, .refused e)

def answer (d : δ) (o : Outcome ε α σ δ) : Status σ δ × Reply ε α :=
  match o.result with
  | .ok a => (.up o.state, .result (.ok a))
  | .error e =>
      if M.ends e then M.boot (diskAfter d o.writes o.writes.length)
        else (.up o.state, .result (.error e))

def step : Status σ δ → Event ι → Status σ δ × Reply ε α
  | .up s, .call i => M.answer (M.disk s) (M.call i s)
  | .up s, .kill i k => M.boot (diskAfter (M.disk s) (M.call i s).writes k)
  | .down d, _ => M.boot d

def replies : Status σ δ → List (Event ι) → List (Reply ε α)
  | _, [] => []
  | st, e :: es => (M.step st e).2 :: replies (M.step st e).1 es

def run : Status σ δ → List (Event ι) → Status σ δ
  | st, [] => st
  | st, e :: es => run (M.step st e).1 es

def session (d : δ) (es : List (Event ι)) : List (Reply ε α) := (M.boot d).2 :: M.replies (M.boot d).1 es

end Machine

section Refinement

variable {ι ε α σ σ' δ δ' : Type u} {M : Machine ι ε α σ δ} {M' : Machine ι ε α σ' δ'}

def Status.Matches (R : σ → σ' → Prop) (D : δ → δ' → Prop) : Status σ δ → Status σ' δ' → Prop
  | .up s, .up s' => R s s'
  | .down d, .down d' => D d d'
  | _, _ => False

/-- One machine does as the other: calls, disks and starts agree under the two relations. -/
structure Refines (M : Machine ι ε α σ δ) (M' : Machine ι ε α σ' δ') (ok : ι → Prop) (R : σ → σ' → Prop)
    (D : δ → δ' → Prop) : Prop where
  ends : M.ends = M'.ends
  disk : ∀ {s s'}, R s s' → D (M.disk s) (M'.disk s')
  call : ∀ {i s s'}, ok i → R s s' → (M.call i s).Matches (fun e => M.ends e = true) R D (M'.call i s')
  refused : ∀ {d d'}, D d d' → ∀ e, M.start d = .error e ↔ M'.start d' = .error e
  start : ∀ {d d' s s'}, D d d' → M.start d = .ok s → M'.start d' = .ok s' → R s s'

namespace Refines

variable {ok : ι → Prop} {R : σ → σ' → Prop} {D : δ → δ' → Prop} (h : Refines M M' ok R D)

include h

theorem boot {d : δ} {d' : δ'} (hd : D d d') :
    (M.boot d).1.Matches R D (M'.boot d').1 ∧ (M.boot d).2 = (M'.boot d').2 := by
  have hrefused := h.refused hd
  rw [Machine.boot, Machine.boot]
  cases hs : M.start d with
  | error e =>
      rw [(hrefused e).1 hs]
      exact ⟨hd, rfl⟩
  | ok s =>
      cases hs' : M'.start d' with
      | error e => cases hs.symm.trans ((hrefused e).2 hs')
      | ok s' => exact ⟨h.start hd hs hs', rfl⟩

omit h in
theorem diskAfter_matches {d : δ} {d' : δ'} {ds : List δ} {ds' : List δ'} (hd : D d d')
    (hds : List.Forall₂ D ds ds') (k : Nat) :
    D (diskAfter d ds k) (diskAfter d' ds' k) := by
  have hlast : ∀ {xs : List δ} {xs' : List δ'} {x : δ} {x' : δ'}, List.Forall₂ D xs xs' → D x x' →
      D (xs.getLastD x) (xs'.getLastD x') := by
    intro xs xs' x x' hxs
    induction hxs generalizing x x' with
    | nil => exact id
    | @cons a b as bs hab _ ih =>
        intro _
        rw [List.getLastD_cons, List.getLastD_cons]
        exact ih hab
  exact hlast (List.forall₂_take k hds) hd

theorem answer {d : δ} {d' : δ'} {o : Outcome ε α σ δ} {o' : Outcome ε α σ' δ'} (hd : D d d')
    (ho : o.Matches (fun e => M.ends e = true) R D o') :
    (M.answer d o).1.Matches R D (M'.answer d' o').1 ∧ (M.answer d o).2 = (M'.answer d' o').2 := by
  obtain ⟨res, s, ds⟩ := o
  obtain ⟨res', s', ds'⟩ := o'
  obtain ⟨rfl, hwrites, hstate⟩ := ho
  cases res with
  | ok a => exact ⟨hstate nofun, rfl⟩
  | error e =>
      simp only [Machine.answer, ← h.ends]
      cases hover : M.ends e with
      | true =>
          rw [if_pos rfl, if_pos rfl, hwrites.length_eq]
          exact h.boot (diskAfter_matches hd hwrites _)
      | false =>
          refine ⟨hstate fun e' he' => ?_, rfl⟩
          cases he'
          rw [hover]
          exact Bool.false_ne_true

theorem step {st : Status σ δ} {st' : Status σ' δ'} {e : Event ι} (hst : st.Matches R D st')
    (he : ok e.input) :
    (M.step st e).1.Matches R D (M'.step st' e).1 ∧ (M.step st e).2 = (M'.step st' e).2 := by
  cases st with
  | down d =>
      cases st' with
      | up s' => exact hst.elim
      | down d' => exact h.boot hst
  | up s =>
      cases st' with
      | down d' => exact hst.elim
      | up s' =>
          cases e with
          | kill i k => exact h.boot (diskAfter_matches (h.disk hst) (h.call he hst).writes k)
          | call i => exact h.answer (h.disk hst) (h.call he hst)

theorem replies {st : Status σ δ} {st' : Status σ' δ'} (hst : st.Matches R D st') {es : List (Event ι)}
    (hes : ∀ e ∈ es, ok e.input) : M.replies st es = M'.replies st' es := by
  induction es generalizing st st' with
  | nil => rfl
  | cons e es ih =>
      obtain ⟨hnext, hreply⟩ := h.step hst (hes e List.mem_cons_self)
      rw [Machine.replies, Machine.replies, hreply,
        ih hnext fun e' he' => hes e' (List.mem_cons_of_mem _ he')]

theorem run {st : Status σ δ} {st' : Status σ' δ'} (hst : st.Matches R D st') {es : List (Event ι)}
    (hes : ∀ e ∈ es, ok e.input) : (M.run st es).Matches R D (M'.run st' es) := by
  induction es generalizing st st' with
  | nil => exact hst
  | cons e es ih =>
      exact ih (h.step hst (hes e List.mem_cons_self)).1 fun e' he' => hes e' (List.mem_cons_of_mem _ he')

/-- Every session gets the same replies, wherever the process is killed. -/
theorem session {d : δ} {d' : δ'} (hd : D d d') {es : List (Event ι)} (hes : ∀ e ∈ es, ok e.input) :
    M.session d es = M'.session d' es := by
  obtain ⟨hstart, hreply⟩ := h.boot hd
  rw [Machine.session, Machine.session, hreply, h.replies hstart hes]

end Refines

end Refinement

end Rmdb.Restart
