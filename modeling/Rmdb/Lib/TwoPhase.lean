import Mathlib.Logic.Function.Basic
import Mathlib.Data.List.Basic

namespace Rmdb.TwoPhase

/-- What a transaction does to an object: it finds something there, or it changes the content. -/
inductive Access (O V : Type*)
  | read (obj : O) (found : V → Prop)
  | write (obj : O) (change : V → V)

section Replay

variable {O V : Type*}

def Access.obj : Access O V → O
  | .read o _ | .write o _ => o

def Access.Writes : Access O V → Prop
  | .read .. => False
  | .write .. => True

variable [DecidableEq O]

/-- The accesses, one after the other and with nobody else on the objects. -/
def Replays : List (Access O V) → (O → V) → (O → V) → Prop
  | [], db, db' => db' = db
  | .read o found :: as, db, db' => found (db o) ∧ Replays as db db'
  | .write o change :: as, db, db' => Replays as (Function.update db o (change (db o))) db'

variable {as bs : List (Access O V)} {a : Access O V} {db db' e : O → V} {o : O}

theorem replays_append : Replays (as ++ bs) db db' ↔ ∃ mid, Replays as db mid ∧ Replays bs mid db' := by
  induction as generalizing db with
  | nil => simp [Replays]
  | cons a as ih =>
      cases a with
      | read o found => simp only [List.cons_append, Replays, ih, exists_and_left, and_assoc]
      | write o change => simp only [List.cons_append, Replays, ih]

theorem Replays.untouched (h : Replays as db db') (ho : ∀ a ∈ as, a.Writes → a.obj ≠ o) : db' o = db o := by
  induction as generalizing db with
  | nil => rw [h]
  | cons a as ih =>
      have hrest : ∀ a ∈ as, a.Writes → a.obj ≠ o := fun b hb => ho b (List.mem_cons_of_mem _ hb)
      cases a with
      | read p found => exact ih h.2 hrest
      | write p change =>
          have hp : p ≠ o := ho (.write p change) List.mem_cons_self trivial
          rw [ih h hrest, Function.update_of_ne hp.symm]

theorem Replays.congr (h : Replays as db db') (hagree : ∀ a ∈ as, e a.obj = db a.obj) :
    ∃ e', Replays as e e' ∧ ∀ o, e o = db o → e' o = db' o := by
  induction as generalizing db e with
  | nil => exact ⟨e, rfl, fun o ho => by rw [h, ho]⟩
  | cons a as ih =>
      have hrest : ∀ b ∈ as, e b.obj = db b.obj := fun b hb => hagree b (List.mem_cons_of_mem _ hb)
      have ha := hagree a List.mem_cons_self
      cases a with
      | read p found =>
          obtain ⟨e', hrun, he'⟩ := ih h.2 hrest
          exact ⟨e', ⟨by rw [show e p = db p from ha]; exact h.1, hrun⟩, he'⟩
      | write p change =>
          have hupd : ∀ o, e o = db o →
              Function.update e p (change (e p)) o = Function.update db p (change (db p)) o := by
            intro o ho
            by_cases hop : o = p
            · subst hop
              simp only [Function.update_self, ho]
            · rw [Function.update_of_ne hop, Function.update_of_ne hop, ho]
          obtain ⟨e', hrun, he'⟩ := ih h fun b hb => hupd _ (hrest b hb)
          exact ⟨e', hrun, fun o ho => he' o (hupd o ho)⟩

end Replay

/-- Objects that transactions change in place. `stable` is what the committed transactions have
made of them, `log` what a transaction has done, and `undo` how it takes that back, the latest
change first; `serial` are the committed transactions in the order of their commits. -/
structure Store (T O V : Type*) where
  live : O → V
  stable : O → V
  log : T → List (Access O V)
  undo : T → List (O × (V → V))
  serial : List (T × List (Access O V))

def unwindAt {O V : Type*} [DecidableEq O] (o : O) : List (O × (V → V)) → V → V
  | [], v => v
  | (p, back) :: us, v => unwindAt o us (if p = o then back v else v)

namespace Store

variable {T O V : Type*} [DecidableEq T]

section Steps

variable (s : Store T O V) (t : T) (o : O)

/-- The transaction has changed the object and not taken it back. -/
def Dirty : Prop := ∃ u ∈ s.undo t, u.1 = o

def Active : Prop := s.log t = [] → s.undo t = []

def read (found : V → Prop) : Store T O V :=
  { s with log := Function.update s.log t (s.log t ++ [.read o found]) }

def write [DecidableEq O] (change back : V → V) : Store T O V :=
  { s with
    live := Function.update s.live o (change (s.live o))
    log := Function.update s.log t (s.log t ++ [.write o change])
    undo := Function.update s.undo t ((o, back) :: s.undo t) }

def commit [DecidableEq O] : Store T O V :=
  { s with
    stable := fun o => if o ∈ (s.undo t).map Prod.fst then s.live o else s.stable o
    log := Function.update s.log t []
    undo := Function.update s.undo t []
    serial := s.serial ++ [(t, s.log t)] }

def giveUp : Store T O V := { s with log := Function.update s.log t [] }

def undoLast [DecidableEq O] : Store T O V :=
  match s.undo t with
  | [] => s
  | (o, back) :: us =>
      { s with live := Function.update s.live o (back (s.live o)), undo := Function.update s.undo t us }

end Steps

variable [DecidableEq O]

/-- The invariant of a store whose transactions `holds` an object that they access and have it
`excl`usively when they change it, to their ends. -/
structure Inv (holds excl : T → O → Prop) (start : O → V) (s : Store T O V) : Prop where
  held : ∀ t o, excl t o → holds t o
  alone : ∀ t u o, excl t o → holds u o → u = t
  logged : ∀ t, ∀ a ∈ s.log t, holds t a.obj
  dirty : ∀ t o, s.Dirty t o → excl t o
  writes : ∀ t, s.Active t → ∀ a ∈ s.log t, a.Writes → s.Dirty t a.obj
  restores : ∀ t o, (∀ u, u ≠ t → ¬ s.Dirty u o) → unwindAt o (s.undo t) (s.live o) = s.stable o
  view : ∀ t, s.Active t → ∃ db, Replays (s.log t) s.stable db ∧ ∀ o, s.Dirty t o → db o = s.live o
  serial : Replays (s.serial.flatMap Prod.snd) start s.stable

section Lemmas

variable {s : Store T O V} {t u : T} {o : O} {holds excl : T → O → Prop} {start : O → V}

omit [DecidableEq T] in
theorem unwindAt_clean (h : ¬ s.Dirty t o) (v : V) : unwindAt o (s.undo t) v = v := by
  have hall : ∀ us : List (O × (V → V)), (∀ u ∈ us, u.1 ≠ o) → ∀ v, unwindAt o us v = v := by
    intro us
    induction us with
    | nil => exact fun _ _ => rfl
    | cons p us ih =>
        intro hus v
        rw [unwindAt, if_neg (hus p List.mem_cons_self), ih fun u hu => hus u (List.mem_cons_of_mem _ hu)]
  exact hall _ (fun u hu hc => h ⟨u, hu, hc⟩) v

namespace Inv

variable (h : Inv holds excl start s)

include h

omit [DecidableEq T] in
theorem others_clean (hh : holds t o) (hu : u ≠ t) :
    ¬ s.Dirty u o := fun hd => hu (h.alone u t o (h.dirty u o hd) hh).symm

omit [DecidableEq T] in
/-- What nobody has changed is as the committed transactions have left it. -/
theorem clean (hall : ∀ u, ¬ s.Dirty u o) [Nonempty T] : s.live o = s.stable o := by
  obtain ⟨t⟩ := ‹Nonempty T›
  rw [← h.restores t o fun u _ => hall u, unwindAt_clean (hall t)]

omit [DecidableEq T] in
theorem held_clean (hh : holds t o) (hd : ¬ s.Dirty t o) : s.live o = s.stable o := by
  rw [← h.restores t o fun u hu => h.others_clean hh hu, unwindAt_clean hd]

omit [DecidableEq T] in
/-- Alone with the committed contents, an active transaction would have the objects that it holds
as they are. -/
theorem replay (ha : s.Active t) : ∃ db, Replays (s.log t) s.stable db ∧ (∀ o, holds t o → db o = s.live o) ∧
    ∀ o, ¬ s.Dirty t o → db o = s.stable o := by
  obtain ⟨db, hrun, hdb⟩ := h.view t ha
  have hclean : ∀ o, ¬ s.Dirty t o → db o = s.stable o := fun o hd =>
    hrun.untouched fun a hmem hw hc => hd (hc ▸ h.writes t ha a hmem hw)
  refine ⟨db, hrun, fun o hh => ?_, hclean⟩
  by_cases hd : s.Dirty t o
  · exact hdb o hd
  · rw [hclean o hd, h.held_clean hh hd]

omit [DecidableEq T] in
theorem relock {holds' excl' : T → O → Prop} (hheld : ∀ t o, excl' t o → holds' t o)
    (halone : ∀ t u o, excl' t o → holds' u o → u = t)
    (hholds : ∀ t, ∀ a ∈ s.log t, holds t a.obj → holds' t a.obj)
    (hexcl : ∀ t o, s.Dirty t o → excl t o → excl' t o) : Inv holds' excl' start s where
  held := hheld
  alone := halone
  logged t a ha := hholds t a ha (h.logged t a ha)
  dirty t o hd := hexcl t o hd (h.dirty t o hd)
  writes := h.writes
  restores := h.restores
  view := h.view
  serial := h.serial

theorem read (ha : s.Active t) (hh : holds t o) {found : V → Prop} (hf : found (s.live o)) :
    Inv holds excl start (s.read t o found) where
  held := h.held
  alone := h.alone
  logged u a hmem := by
    by_cases hu : u = t
    · subst hu
      simp only [Store.read, Function.update_self, List.mem_append, List.mem_singleton] at hmem
      rcases hmem with hmem | rfl
      · exact h.logged u a hmem
      · exact hh
    · simp only [Store.read, Function.update_of_ne hu] at hmem
      exact h.logged u a hmem
  dirty := h.dirty
  writes u hact a hmem hw := by
    by_cases hu : u = t
    · subst hu
      simp only [Store.read, Function.update_self, List.mem_append, List.mem_singleton] at hmem
      rcases hmem with hmem | rfl
      · exact h.writes u ha a hmem hw
      · cases hw
    · simp only [Store.read, Store.Active, Function.update_of_ne hu] at hmem hact
      exact h.writes u hact a hmem hw
  restores := h.restores
  view u hact := by
    by_cases hu : u = t
    · subst hu
      obtain ⟨db, hrun, hheld, -⟩ := h.replay ha
      refine ⟨db, ?_, fun p hd => hheld p (h.held u p (h.dirty u p hd))⟩
      simp only [Store.read, Function.update_self]
      exact replays_append.2 ⟨db, hrun, by rw [hheld o hh]; exact hf, rfl⟩
    · simp only [Store.read, Store.Active, Function.update_of_ne hu] at hact ⊢
      exact h.view u hact
  serial := h.serial

theorem write (ha : s.Active t) (hx : excl t o) {change back : V → V}
    (hback : back (change (s.live o)) = s.live o) :
    Inv holds excl start (s.write t o change back) := by
  have hhold := h.held t o hx
  have hdirty : ∀ u p, (s.write t o change back).Dirty u p ↔ s.Dirty u p ∨ u = t ∧ p = o := by
    intro u p
    by_cases hu : u = t
    · subst hu
      simp [Dirty, Store.write, or_comm, eq_comm]
    · simp [Dirty, Store.write, hu]
  have hother : ∀ u, u ≠ t → ∀ p, s.Dirty u p → p ≠ o := by
    rintro u hu p hd rfl
    exact h.others_clean hhold hu hd
  have hactive : ∀ u, u ≠ t → (s.write t o change back).Active u → s.Active u := by
    intro u hu hact
    simpa only [Store.write, Store.Active, Function.update_of_ne hu] using hact
  refine ⟨h.held, h.alone, ?_, ?_, ?_, ?_, ?_, h.serial⟩
  · intro u a hmem
    by_cases hu : u = t
    · subst hu
      simp only [Store.write, Function.update_self, List.mem_append, List.mem_singleton] at hmem
      rcases hmem with hmem | rfl
      · exact h.logged u a hmem
      · exact hhold
    · simp only [Store.write, Function.update_of_ne hu] at hmem
      exact h.logged u a hmem
  · intro u p hd
    rcases (hdirty u p).1 hd with hd | ⟨rfl, rfl⟩
    · exact h.dirty u p hd
    · exact hx
  · intro u hact a hmem hw
    refine (hdirty u _).2 ?_
    by_cases hu : u = t
    · subst hu
      simp only [Store.write, Function.update_self, List.mem_append, List.mem_singleton] at hmem
      rcases hmem with hmem | rfl
      · exact .inl (h.writes u ha a hmem hw)
      · exact .inr ⟨rfl, rfl⟩
    · have hact' := hactive u hu hact
      simp only [Store.write, Function.update_of_ne hu] at hmem
      exact .inl (h.writes u hact' a hmem hw)
  · intro u p hothers
    have hothers' : ∀ w, w ≠ u → ¬ s.Dirty w p := fun w hw hd => hothers w hw ((hdirty w p).2 (.inl hd))
    have hold := h.restores u p hothers'
    by_cases hu : u = t
    · subst hu
      simp only [Store.write, Function.update_self, unwindAt]
      by_cases hp : p = o
      · subst hp
        rw [if_pos rfl, Function.update_self, hback, hold]
      · rw [if_neg fun hc => hp hc.symm, Function.update_of_ne hp, hold]
    · have hp : p ≠ o := fun hc => hothers t (fun htu => hu htu.symm) ((hdirty t p).2 (.inr ⟨rfl, hc⟩))
      simp only [Store.write, Function.update_of_ne hu, Function.update_of_ne hp]
      exact hold
  · intro u hact
    by_cases hu : u = t
    · subst hu
      obtain ⟨db, hrun, hheld, -⟩ := h.replay ha
      refine ⟨Function.update db o (change (db o)), ?_, fun p hd => ?_⟩
      · simp only [Store.write, Function.update_self]
        exact replays_append.2 ⟨db, hrun, rfl⟩
      · by_cases hp : p = o
        · subst hp
          simp only [Store.write, Function.update_self, hheld p hhold]
        · rcases (hdirty u p).1 hd with hd | ⟨-, hc⟩
          · simp only [Store.write, Function.update_of_ne hp]
            exact hheld p (h.held u p (h.dirty u p hd))
          · exact absurd hc hp
    · obtain ⟨db, hrun, hdb⟩ := h.view u (hactive u hu hact)
      refine ⟨db, ?_, fun p hd => ?_⟩
      · simp only [Store.write, Function.update_of_ne hu]
        exact hrun
      · rcases (hdirty u p).1 hd with hd | ⟨hc, -⟩
        · simp only [Store.write, Function.update_of_ne (hother u hu p hd)]
          exact hdb p hd
        · exact absurd hc hu

/-- A transaction that ends leaves the logs of the others, which hold other objects than those it
has changed. -/
theorem commit (ha : s.Active t) : Inv holds excl start (s.commit t) := by
  have hstable : ∀ p, (s.commit t).stable p = if p ∈ (s.undo t).map Prod.fst then s.live p
    else s.stable p := fun _ => rfl
  have hmem : ∀ p, p ∈ (s.undo t).map Prod.fst ↔ s.Dirty t p := fun p => List.mem_map
  have hdirty : ∀ u p, (s.commit t).Dirty u p ↔ u ≠ t ∧ s.Dirty u p := by
    intro u p
    by_cases hu : u = t
    · subst hu
      simp [Dirty, Store.commit]
    · simp [Dirty, Store.commit, hu]
  have hsame : ∀ u, u ≠ t → ∀ p, holds u p → (s.commit t).stable p = s.stable p := by
    intro u hu p hh
    rw [hstable, if_neg fun hc => h.others_clean hh (fun htu => hu htu.symm) ((hmem p).1 hc)]
  refine ⟨h.held, h.alone, ?_, ?_, ?_, ?_, ?_, ?_⟩
  · intro u a ha'
    by_cases hu : u = t
    · subst hu
      simp only [Store.commit, Function.update_self, List.not_mem_nil] at ha'
    · simp only [Store.commit, Function.update_of_ne hu] at ha'
      exact h.logged u a ha'
  · exact fun u p hd => h.dirty u p ((hdirty u p).1 hd).2
  · intro u hact a ha' hw
    by_cases hu : u = t
    · subst hu
      simp only [Store.commit, Function.update_self, List.not_mem_nil] at ha'
    · simp only [Store.commit, Store.Active, Function.update_of_ne hu] at ha' hact
      exact (hdirty u _).2 ⟨hu, h.writes u hact a ha' hw⟩
  · intro u p hothers
    by_cases hd : s.Dirty t p
    · have hclean : ∀ w, ¬ (s.commit t).Dirty w p := by
        intro w hw
        obtain ⟨hwt, hw⟩ := (hdirty w p).1 hw
        exact h.others_clean (h.held t p (h.dirty t p hd)) hwt hw
      rw [hstable, if_pos ((hmem p).2 hd), unwindAt_clean (hclean u)]
      rfl
    · have hothers' : ∀ w, w ≠ u → ¬ s.Dirty w p := by
        intro w hw hdw
        by_cases hwt : w = t
        · exact hd (hwt ▸ hdw)
        · exact hothers w hw ((hdirty w p).2 ⟨hwt, hdw⟩)
      rw [hstable, if_neg fun hc => hd ((hmem p).1 hc)]
      by_cases hu : u = t
      · subst hu
        rw [← h.restores u p hothers', unwindAt_clean hd, unwindAt_clean fun hc => ((hdirty u p).1 hc).1 rfl]
        rfl
      · rw [← h.restores u p hothers']
        simp only [Store.commit, Function.update_of_ne hu]
  · intro u hact
    by_cases hu : u = t
    · subst hu
      refine ⟨(s.commit u).stable, ?_, fun p hd => absurd rfl ((hdirty u p).1 hd).1⟩
      simp only [Store.commit, Function.update_self, Replays]
    · have hact' : s.Active u := by
        simpa only [Store.commit, Store.Active, Function.update_of_ne hu] using hact
      obtain ⟨db, hrun, hdb⟩ := h.view u hact'
      obtain ⟨e, hrun', he⟩ :=
        hrun.congr (e := (s.commit t).stable) fun a hmem => hsame u hu _ (h.logged u a hmem)
      refine ⟨e, ?_, fun p hd => ?_⟩
      · simp only [Store.commit, Function.update_of_ne hu]
        exact hrun'
      · have hd' := ((hdirty u p).1 hd).2
        rw [he p (hsame u hu p (h.held u p (h.dirty u p hd'))), hdb p hd']
        rfl
  · obtain ⟨db, hrun, hheld, hclean⟩ := h.replay ha
    have hdb : db = (s.commit t).stable := by
      funext p
      rw [hstable]
      split
      · rename_i hp
        exact hheld p (h.held t p (h.dirty t p ((hmem p).1 hp)))
      · rename_i hp
        exact hclean p fun hd => hp ((hmem p).2 hd)
    rw [hdb] at hrun
    simp only [Store.commit, List.flatMap_append, List.flatMap_cons, List.flatMap_nil, List.append_nil]
    exact replays_append.2 ⟨_, h.serial, hrun⟩

theorem giveUp : Inv holds excl start (s.giveUp t) where
  held := h.held
  alone := h.alone
  logged u a hmem := by
    by_cases hu : u = t
    · subst hu
      simp only [Store.giveUp, Function.update_self, List.not_mem_nil] at hmem
    · simp only [Store.giveUp, Function.update_of_ne hu] at hmem
      exact h.logged u a hmem
  dirty := h.dirty
  writes u hact a hmem hw := by
    by_cases hu : u = t
    · subst hu
      simp only [Store.giveUp, Function.update_self, List.not_mem_nil] at hmem
    · simp only [Store.giveUp, Store.Active, Function.update_of_ne hu] at hmem hact
      exact h.writes u hact a hmem hw
  restores := h.restores
  view u hact := by
    by_cases hu : u = t
    · subst hu
      simp only [Store.giveUp, Store.Active, Function.update_self, true_implies] at hact
      refine ⟨s.stable, by simp only [Store.giveUp, Function.update_self, Replays], ?_⟩
      rintro p ⟨w, hw, -⟩
      rw [show (s.giveUp u).undo u = s.undo u from rfl, hact] at hw
      cases hw
    · simp only [Store.giveUp, Store.Active, Function.update_of_ne hu] at hact ⊢
      exact h.view u hact
  serial := h.serial

theorem undoLast (hlog : s.log t = []) : Inv holds excl start (s.undoLast t) := by
  cases hundo : s.undo t with
  | nil =>
      rw [Store.undoLast, hundo]
      exact h
  | cons w us =>
      obtain ⟨o, back⟩ := w
      have hs' : s.undoLast t =
          { s with
            live := Function.update s.live o (back (s.live o))
            undo := Function.update s.undo t us } := by
        rw [Store.undoLast, hundo]
      have ho : s.Dirty t o := ⟨(o, back), by rw [hundo]; exact List.mem_cons_self, rfl⟩
      have hhold := h.held t o (h.dirty t o ho)
      rw [hs']
      generalize hs'' : ({ s with
        live := Function.update s.live o (back (s.live o)), undo :=
          Function.update s.undo t us } : Store T O V) = s'
      have hlive : s'.live = Function.update s.live o (back (s.live o)) := by rw [← hs'']
      have hus : s'.undo t = us := by rw [← hs'']; exact Function.update_self ..
      have hundo' : ∀ u, u ≠ t →
        s'.undo u = s.undo u := fun u hu => by rw [← hs'']; exact Function.update_of_ne hu ..
      have hlog' : s'.log = s.log := by rw [← hs'']
      have hstable : s'.stable = s.stable := by rw [← hs'']
      have hdirty : ∀ u p, s'.Dirty u p → s.Dirty u p := by
        rintro u p ⟨w, hw, hp⟩
        by_cases hu : u = t
        · subst hu
          rw [hus] at hw
          exact ⟨w, by rw [hundo]; exact List.mem_cons_of_mem _ hw, hp⟩
        · rw [hundo' u hu] at hw
          exact ⟨w, hw, hp⟩
      have hother : ∀ u, u ≠ t → ∀ p, s.Dirty u p → s'.Dirty u p ∧ p ≠ o := by
        rintro u hu p hd
        refine ⟨?_, ?_⟩
        · rw [Dirty, hundo' u hu]
          exact hd
        · rintro rfl
          exact h.others_clean hhold hu hd
      have hback : ∀ p, unwindAt p (s'.undo t) (s'.live p) = unwindAt p (s.undo t) (s.live p) := by
        intro p
        rw [hundo, hus, hlive, unwindAt]
        by_cases hp : p = o
        · subst hp
          rw [if_pos rfl, Function.update_self]
        · rw [if_neg fun hc => hp hc.symm, Function.update_of_ne hp]
      have hactive : ∀ u, u ≠ t → s'.Active u → s.Active u := by
        intro u hu hact
        rw [Active, hlog', hundo' u hu] at hact
        exact hact
      refine ⟨h.held, h.alone, ?_, fun u p hd => h.dirty u p (hdirty u p hd), ?_, ?_, ?_, ?_⟩
      · rw [hlog']
        exact h.logged
      · intro u hact a hmem hw
        rw [hlog'] at hmem
        by_cases hu : u = t
        · rw [hu, hlog] at hmem
          cases hmem
        · exact (hother u hu _ (h.writes u (hactive u hu hact) a hmem hw)).1
      · intro u p hothers
        rw [hstable]
        by_cases hu : u = t
        · subst hu
          rw [hback]
          exact h.restores u p fun w hw hd => hothers w hw (hother w hw p hd).1
        · have htp : ¬ s'.Dirty t p := hothers t fun htu => hu htu.symm
          by_cases hd : s.Dirty t p
          · have hclean : ∀ w, w ≠ t → ¬ s.Dirty w p := fun w hw =>
              h.others_clean (h.held t p (h.dirty t p hd)) hw
            rw [hundo' u hu, unwindAt_clean (hclean u hu), ← h.restores t p hclean, ← hback p,
              unwindAt_clean htp]
          · have hp : p ≠ o := fun hc => hd (hc ▸ ho)
            rw [hundo' u hu, hlive, Function.update_of_ne hp]
            refine h.restores u p fun w hw hdw => ?_
            by_cases hwt : w = t
            · exact hd (hwt ▸ hdw)
            · exact hothers w hw (hother w hwt p hdw).1
      · intro u hact
        rw [hlog', hstable]
        by_cases hu : u = t
        · subst hu
          refine ⟨s.stable, by rw [hlog]; rfl, ?_⟩
          rintro p ⟨w, hw, -⟩
          rw [hact (by rw [hlog', hlog])] at hw
          cases hw
        · obtain ⟨db, hrun, hdb⟩ := h.view u (hactive u hu hact)
          refine ⟨db, hrun, fun p hd => ?_⟩
          have hd' := hdirty u p hd
          rw [hlive, Function.update_of_ne (hother u hu p hd').2]
          exact hdb p hd'
      · rw [hstable, ← hs'']
        exact h.serial

omit [DecidableEq T] h in
theorem init (hheld : ∀ t o, excl t o → holds t o) (halone : ∀ t u o, excl t o → holds u o → u = t) :
    Inv holds excl start (⟨start, start, fun _ => [], fun _ => [], []⟩ : Store T O V) where
  held := hheld
  alone := halone
  logged t a ha := by cases ha
  dirty := by
    rintro t o ⟨w, hw, -⟩
    cases hw
  writes t _ a ha := by cases ha
  restores t o _ := rfl
  view t _ := ⟨start, rfl, fun _ _ => rfl⟩
  serial := rfl

end Inv

end Lemmas

end Store

end Rmdb.TwoPhase
