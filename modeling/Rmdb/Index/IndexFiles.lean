import Mathlib.Data.Finset.Insert
import Mathlib.Data.Finset.Range
import Mathlib.Data.Finset.Union
import Mathlib.Data.Finset.Image
import Rmdb.Index.Changes
import Rmdb.Lib.Trace

namespace Rmdb

/-- The index files of a database: the tables and page counters of the `DiskManager`, the page
numbers that each file on disk uses, and the descriptors of the open `IxIndexHandle`s. -/
structure IndexFiles where
  fd2pageno : Int → Nat
  path2fd : String → Option Int
  fd2path : Int → Option String
  pageNos : String → Option (Finset Nat)
  ihs : String → Option Int

/-- The descriptor that the operating system chooses is an argument of the call. `otherFile` is a
file that is not an index: it has the descriptor for a while and leaves the counter behind. -/
inductive IndexCall
  | createIndex (path : String) (colTotLen : Nat) (fd : Int)
  | openIndex (path : String) (fd : Int)
  | closeIndex (path : String)
  | createNode (path : String)
  | otherFile (fd : Int) (numPages : Nat)
  | newProcess

namespace IndexFiles

def ixMaxColLen : Nat := 512

def ixInitNumPages : Nat := 3

def init : IndexFiles := ⟨fun _ => 0, fun _ => none, fun _ => none, fun _ => none, fun _ => none⟩

def openFile (s : IndexFiles) (path : String) (fd : Int) : IndexFiles :=
  { s with
    path2fd := Function.update s.path2fd path (some fd)
    fd2path := Function.update s.fd2path fd (some path) }

def closeFile (s : IndexFiles) (path : String) (fd : Int) : IndexFiles :=
  { s with path2fd := Function.update s.path2fd path none, fd2path := Function.update s.fd2path fd none }

def setFd2pageno (s : IndexFiles) (fd : Int) (n : Nat) : IndexFiles :=
  { s with fd2pageno := Function.update s.fd2pageno fd n }

def setPages (s : IndexFiles) (path : String) (ps : Finset Nat) : IndexFiles :=
  { s with pageNos := Function.update s.pageNos path (some ps) }

/-- An exception leaves behind what the call has done so far: an empty file, or a file that stays open. -/
def createIndex (s : IndexFiles) (path : String) (colTotLen : Nat) (fd : Int) : Option IndexFiles :=
  if s.pageNos path ≠ none then some s
  else if s.path2fd path ≠ none then some (s.setPages path ∅)
  else if s.fd2path fd ≠ none then none
  else if ixMaxColLen < colTotLen then some ((s.setPages path ∅).openFile path fd)
  else
    some ((((s.setPages path {0, 1, 2}).openFile path fd).setFd2pageno fd
      (ixInitNumPages - 1)).closeFile path fd)

def openIndex (s : IndexFiles) (path : String) (fd : Int) : Option IndexFiles :=
  if s.path2fd path ≠ none then some s
  else match s.pageNos path with
    | none => some s
    | some ps =>
        if s.fd2path fd ≠ none then none
        -- the constructor cannot read the header of an empty file
        else if 0 ∉ ps then some (s.openFile path fd)
        else
          let s := (s.openFile path fd).setFd2pageno fd (s.fd2pageno fd + 1)
          some { s with ihs := Function.update s.ihs path (some fd) }

def closeIndex (s : IndexFiles) (path : String) : Option IndexFiles :=
  (s.ihs path).map fun fd => { (s.closeFile path fd) with ihs := Function.update s.ihs path none }

def createNode (s : IndexFiles) (path : String) : Option (Nat × IndexFiles) :=
  (s.ihs path).map fun fd =>
    (s.fd2pageno fd,
      (s.setFd2pageno fd (s.fd2pageno fd + 1)).setPages path
        (insert (s.fd2pageno fd) ((s.pageNos path).getD ∅)))

def step (s : IndexFiles) : IndexCall → Option IndexFiles
  | .createIndex path colTotLen fd => s.createIndex path colTotLen fd
  | .openIndex path fd => s.openIndex path fd
  | .closeIndex path => s.closeIndex path
  | .createNode path => (s.createNode path).map Prod.snd
  | .otherFile fd numPages => if s.fd2path fd = none then some (s.setFd2pageno fd numPages) else none
  | .newProcess => some { init with pageNos := s.pageNos }

/-- What `create_node` would hand out now is a page behind the first three that the index does not use. -/
def NextFresh (s : IndexFiles) (path : String) : Prop :=
  ∀ p s', s.createNode path = some (p, s') → 3 ≤ p ∧ ∀ ps, s.pageNos path = some ps → p ∉ ps

def Fresh (s : IndexFiles) : Prop :=
  ∀ path n s', Trace.run step s (List.replicate n (.createNode path)) = some s' → s'.NextFresh path

/-- An index is opened on a descriptor whose counter stands at or behind all its pages. -/
def OpensAhead (s : IndexFiles) : IndexCall → Prop
  | .openIndex path fd => s.path2fd path = none → ∀ ps, s.pageNos path = some ps → 0 ∈ ps →
      2 ≤ s.fd2pageno fd ∧ ∀ p ∈ ps, p ≤ s.fd2pageno fd
  | _ => True

section Inv

variable {s s' : IndexFiles} {path : String} {fd : Int} {ps : Finset Nat}

structure Inv (s : IndexFiles) : Prop where
  tables : ∀ path fd, s.path2fd path = some fd ↔ s.fd2path fd = some path
  opened : ∀ path fd, s.ihs path = some fd → s.path2fd path = some fd
  header : ∀ path fd, s.ihs path = some fd → ∃ ps, s.pageNos path = some ps ∧ 0 ∈ ps

theorem inv_init : Inv init := ⟨by simp [init], by simp [init], by simp [init]⟩

def Ahead (s : IndexFiles) : Prop :=
  ∀ path fd ps, s.ihs path = some fd → s.pageNos path = some ps → 3 ≤ s.fd2pageno fd ∧
    ∀ p ∈ ps, p < s.fd2pageno fd

theorem run_createNode (n : Nat) (hi : s.ihs path = some fd) (hp : s.pageNos path = some ps) :
    ∃ s', Trace.run step s (List.replicate n (.createNode path)) = some s' ∧ s'.ihs path = some fd ∧
      s'.fd2pageno fd = s.fd2pageno fd + n ∧
      s'.pageNos path = some (ps ∪ (Finset.range n).image (s.fd2pageno fd + ·)) := by
  induction n generalizing s ps with
  | zero => exact ⟨s, rfl, hi, rfl, by simp [hp]⟩
  | succ n ih =>
      have hstep : s.step (.createNode path) =
          some ((s.setFd2pageno fd (s.fd2pageno fd + 1)).setPages path (insert (s.fd2pageno fd) ps)) := by
        simp [step, createNode, hi, hp]
      obtain ⟨s', hrun, hi', hc', hp'⟩ :=
        ih (s := (s.setFd2pageno fd (s.fd2pageno fd + 1)).setPages path (insert (s.fd2pageno fd) ps))
        hi (show _ = some (insert (s.fd2pageno fd) ps) by simp [setPages])
      have hcount : ((s.setFd2pageno fd (s.fd2pageno fd + 1)).setPages path
        (insert (s.fd2pageno fd) ps)).fd2pageno fd =
          s.fd2pageno fd + 1 := by simp [setPages, setFd2pageno]
      rw [hcount] at hc' hp'
      refine ⟨s', Trace.run_cons.2 ⟨_, hstep, hrun⟩, hi', by omega, ?_⟩
      rw [hp', Option.some.injEq]
      ext p
      simp only [Finset.mem_union, Finset.mem_insert, Finset.mem_image, Finset.mem_range]
      constructor
      · rintro ((rfl | hp) | ⟨k, hk, rfl⟩)
        · exact .inr ⟨0, by omega, rfl⟩
        · exact .inl hp
        · exact .inr ⟨k + 1, by omega, by omega⟩
      · rintro (hp | ⟨k, hk, rfl⟩)
        · exact .inl (.inr hp)
        · cases k with
          | zero => exact .inl (.inl rfl)
          | succ k => exact .inr ⟨k, by omega, by omega⟩

theorem fresh_iff_ahead (h : Inv s) : Fresh s ↔ Ahead s := by
  constructor
  · intro hf path fd ps hi hp
    refine ⟨(hf path 0 s rfl _ _ (by rw [createNode, hi]; rfl)).1, fun p hmem => ?_⟩
    by_contra hle
    obtain ⟨k, hk⟩ : ∃ k, p = s.fd2pageno fd + k := ⟨p - s.fd2pageno fd, by omega⟩
    obtain ⟨s', hrun, hi', hc', hp'⟩ := run_createNode k hi hp
    have hnew := (hf path k s' hrun (s'.fd2pageno fd) _ (by rw [createNode, hi']; rfl)).2 _ hp'
    rw [hc', ← hk] at hnew
    exact hnew (Finset.mem_union_left _ hmem)
  · intro ha path n s' hrun p t hcreate
    cases hi : s.ihs path with
    | none =>
        cases n with
        | zero =>
            cases hrun
            simp [createNode, hi] at hcreate
        | succ n => simp [List.replicate_succ, Trace.run, step, createNode, hi] at hrun
    | some fd =>
        obtain ⟨ps, hp, -⟩ := h.header path fd hi
        obtain ⟨h3, hlt⟩ := ha path fd ps hi hp
        obtain ⟨u, hrun', hi', hc', hp'⟩ := run_createNode n hi hp
        cases hrun.symm.trans hrun'
        simp only [createNode, hi', Option.map_some, Option.some.injEq, Prod.mk.injEq] at hcreate
        obtain ⟨rfl, -⟩ := hcreate
        refine ⟨by omega, ?_⟩
        intro ps' hps' hmem
        cases hp'.symm.trans hps'
        rcases Finset.mem_union.1 hmem with hmem | hmem
        · have := hlt _ hmem
          omega
        · obtain ⟨k, hk, he⟩ := Finset.mem_image.1 hmem
          have := Finset.mem_range.1 hk
          omega

theorem Inv.unopened (h : Inv s) (hp : s.path2fd path = none) : s.ihs path = none := by
  cases hi : s.ihs path with
  | none => rfl
  | some fd =>
      rw [h.opened path fd hi] at hp
      cases hp

theorem Inv.ihs_inj (h : Inv s) {path' : String} (hi : s.ihs path = some fd)
    (hi' : s.ihs path' = some fd) : path' = path := by
  have ht := (h.tables path fd).1 (h.opened path fd hi)
  rw [(h.tables path' fd).1 (h.opened path' fd hi')] at ht
  exact Option.some.inj ht

theorem Inv.unused (h : Inv s) (hfd : s.fd2path fd = none) (path : String) : s.ihs path ≠ some fd := by
  intro hi
  rw [(h.tables path fd).1 (h.opened path fd hi)] at hfd
  cases hfd

theorem tables_open (h : Inv s) (hp : s.path2fd path = none) (hfd : s.fd2path fd = none)
    (p : String) (f : Int) :
    (s.openFile path fd).path2fd p = some f ↔ (s.openFile path fd).fd2path f = some p := by
  have ht := h.tables p f
  simp only [openFile, Function.update_apply]
  by_cases h1 : p = path
  · by_cases h2 : f = fd
    · simp [h1, h2]
    · have hno : s.fd2path f ≠ some path := by
        rw [← h1]
        intro hc
        rw [← h1, ht.2 hc] at hp
        cases hp
      simp [h1, h2, Ne.symm h2, hno]
  · by_cases h2 : f = fd
    · have hno : s.path2fd p ≠ some fd := by
        rw [← h2]
        intro hc
        rw [← h2, ht.1 hc] at hfd
        cases hfd
      simp [h1, h2, Ne.symm h1, hno]
    · simp [h1, h2, ht]

theorem tables_close (h : Inv s) (hp : s.path2fd path = some fd) (p : String) (f : Int) :
    (s.closeFile path fd).path2fd p = some f ↔ (s.closeFile path fd).fd2path f = some p := by
  have ht := h.tables p f
  simp only [closeFile, Function.update_apply]
  by_cases h1 : p = path
  · by_cases h2 : f = fd
    · simp [h1, h2]
    · have hno : s.fd2path f ≠ some path := by
        rw [← h1]
        intro hc
        rw [← h1, ht.2 hc, Option.some.injEq] at hp
        exact h2 hp
      simp [h1, h2, hno]
  · by_cases h2 : f = fd
    · have hno : s.path2fd p ≠ some fd := by
        rw [← h2]
        intro hc
        have hpath := (h.tables path fd).1 hp
        rw [← h2, ht.1 hc, Option.some.injEq] at hpath
        exact h1 hpath
      simp [h1, h2, hno]
    · simp [h1, h2, ht]

/-- A call that leaves the open indexes, their files and their counters as they are. -/
theorem Inv.same (h : Inv s) (htab : ∀ p f, s'.path2fd p = some f ↔ s'.fd2path f = some p)
    (hihs : s'.ihs = s.ihs)
    (hopen : ∀ p f, s.ihs p = some f → s'.path2fd p = some f ∧ s'.pageNos p = s.pageNos p ∧
      s'.fd2pageno f = s.fd2pageno f) :
    Inv s' ∧ (Ahead s → Ahead s') := by
  refine ⟨⟨htab, ?_, ?_⟩, ?_⟩
  · intro p f hi
    rw [hihs] at hi
    exact (hopen p f hi).1
  · intro p f hi
    rw [hihs] at hi
    rw [(hopen p f hi).2.1]
    exact h.header p f hi
  · intro ha p f ps hi hp
    rw [hihs] at hi
    obtain ⟨-, hpage, hcount⟩ := hopen p f hi
    rw [hcount]
    exact ha p f ps hi (hpage ▸ hp)

theorem Inv.createIndex (h : Inv s) {colTotLen : Nat} (hstep : s.createIndex path colTotLen fd = some s') :
    Inv s' ∧ (Ahead s → Ahead s') := by
  rw [IndexFiles.createIndex] at hstep
  split at hstep
  · cases hstep
    exact ⟨h, id⟩
  · rename_i hnew
    -- an open index has a file
    have hne : ∀ p f, s.ihs p = some f → p ≠ path := by
      rintro p f hi rfl
      obtain ⟨ps, hp, -⟩ := h.header p f hi
      exact hnew (by simp [hp])
    split at hstep
    · cases hstep
      exact h.same h.tables rfl fun p f hi => ⟨h.opened p f hi, by simp [setPages, hne p f hi], rfl⟩
    · rename_i hpath
      have hpath := not_not.1 hpath
      split at hstep
      · cases hstep
      · rename_i hfd
        have hfd := not_not.1 hfd
        split at hstep
        · cases hstep
          refine h.same (tables_open (s := s) h hpath hfd) rfl fun p f hi => ⟨?_,
            by simp [openFile, setPages, hne p f hi], rfl⟩
          simp [openFile, setPages, hne p f hi, h.opened p f hi]
        · cases hstep
          refine h.same ?_ rfl fun p f hi => ⟨?_, ?_, ?_⟩
          · -- the file is closed again
            intro p f
            simp only [closeFile, setFd2pageno, openFile, setPages, Function.update_idem]
            rw [Function.update_eq_self_iff.2 hpath.symm, Function.update_eq_self_iff.2 hfd.symm]
            exact h.tables p f
          · simp [closeFile, setFd2pageno, openFile, setPages, hne p f hi, h.opened p f hi]
          · simp [closeFile, setFd2pageno, openFile, setPages, hne p f hi]
          · have hf : f ≠ fd := fun hc => h.unused hfd p (hc ▸ hi)
            simp [closeFile, setFd2pageno, openFile, setPages, hf]

theorem Inv.openIndex (h : Inv s) (ha : Ahead s) (hstep : s.openIndex path fd = some s') :
    Inv s' ∧ (Ahead s' ↔ s.OpensAhead (.openIndex path fd)) := by
  rw [IndexFiles.openIndex] at hstep
  split at hstep
  · rename_i hpath
    cases hstep
    exact ⟨h, iff_of_true ha fun hn => absurd hn hpath⟩
  · rename_i hpath
    have hpath := not_not.1 hpath
    have hne : ∀ p f, s.ihs p = some f → p ≠ path := by
      rintro p f hi rfl
      rw [h.unopened hpath] at hi
      cases hi
    split at hstep
    · rename_i hnone
      cases hstep
      refine ⟨h, iff_of_true ha fun _ ps hps => ?_⟩
      rw [hnone] at hps
      cases hps
    · rename_i ps hps
      split at hstep
      · cases hstep
      · rename_i hfd
        have hfd := not_not.1 hfd
        split at hstep
        · rename_i h0
          cases hstep
          obtain ⟨hinv, hah⟩ := h.same (tables_open h hpath hfd) rfl fun p f hi =>
            ⟨by simp [openFile, hne p f hi, h.opened p f hi], rfl, rfl⟩
          refine ⟨hinv, iff_of_true (hah ha) fun _ ps' hps' h0' => ?_⟩
          cases hps.symm.trans hps'
          exact absurd h0' h0
        · rename_i h0
          have h0 := not_not.1 h0
          cases hstep
          refine ⟨⟨tables_open h hpath hfd, ?_, ?_⟩, ?_⟩
          · intro p f hi
            by_cases hp : p = path
            · simp_all [openFile, setFd2pageno]
            · simp only [Function.update_of_ne hp] at hi
              simp [openFile, setFd2pageno, hp, h.opened p f hi]
          · intro p f hi
            by_cases hp : p = path
            · exact ⟨ps, by rw [hp]; exact hps, h0⟩
            · simp only [Function.update_of_ne hp] at hi
              exact h.header p f hi
          · constructor
            · intro ha' _ ps' hps' _
              cases hps.symm.trans hps'
              have hself := ha' path fd ps (by simp) hps
              simp only [setFd2pageno, openFile, Function.update_self] at hself
              exact ⟨by omega, fun p hp => by have := hself.2 p hp; omega⟩
            · intro hok p f ps' hi hps'
              by_cases hp : p = path
              · subst hp
                cases hps.symm.trans hps'
                simp only [Function.update_self, Option.some.injEq] at hi
                obtain ⟨h2, hle⟩ := hok hpath ps hps h0
                simp only [setFd2pageno, openFile, ← hi, Function.update_self]
                exact ⟨by omega, fun p hp => by have := hle p hp; omega⟩
              · simp only [Function.update_of_ne hp] at hi
                have hf : f ≠ fd := fun hc => h.unused hfd p (hc ▸ hi)
                simp only [setFd2pageno, openFile, Function.update_of_ne hf]
                exact ha p f ps' hi hps'

theorem Inv.closeIndex (h : Inv s) (hstep : s.closeIndex path = some s') : Inv s' ∧ (Ahead s → Ahead s') := by
  obtain ⟨fd, hi, rfl⟩ := Option.map_eq_some_iff.1 hstep
  have hstill : ∀ p f, Function.update s.ihs path none p = some f → p ≠ path ∧ s.ihs p = some f := by
    intro p f hpf
    by_cases hp : p = path
    · simp [hp] at hpf
    · exact ⟨hp, by simpa [hp] using hpf⟩
  refine ⟨⟨tables_close h (h.opened path fd hi), ?_, ?_⟩, ?_⟩
  · intro p f hpf
    obtain ⟨hp, hpf⟩ := hstill p f hpf
    simp [closeFile, hp, h.opened p f hpf]
  · intro p f hpf
    exact h.header p f (hstill p f hpf).2
  · intro ha p f ps hpf hps
    exact ha p f ps (hstill p f hpf).2 hps

theorem Inv.createNode (h : Inv s) {p : Nat} (hstep : s.createNode path = some (p, s')) :
    Inv s' ∧ (Ahead s → Ahead s') := by
  obtain ⟨fd, hi, he⟩ := Option.map_eq_some_iff.1 hstep
  obtain ⟨rfl, rfl⟩ := Prod.mk.inj he
  obtain ⟨ps, hps, h0⟩ := h.header path fd hi
  refine ⟨⟨h.tables, h.opened, ?_⟩, ?_⟩
  · intro q f hq
    by_cases hp : q = path
    · exact ⟨insert (s.fd2pageno fd) ps, by simp [setPages, hp, hps], Finset.mem_insert_of_mem h0⟩
    · simpa [setPages, setFd2pageno, hp] using h.header q f hq
  · intro ha q f qs hq hqs
    by_cases hp : q = path
    · subst hp
      cases hi.symm.trans hq
      obtain ⟨h3, hlt⟩ := ha q fd ps hi hps
      simp only [setPages, Function.update_self, hps, Option.getD_some, Option.some.injEq] at hqs
      simp only [setPages, setFd2pageno, Function.update_self]
      refine ⟨by omega, ?_⟩
      intro p hp
      rw [← hqs, Finset.mem_insert] at hp
      rcases hp with rfl | hp
      · omega
      · have := hlt p hp
        omega
    · have hf : f ≠ fd := by
        rintro rfl
        exact hp (h.ihs_inj hi hq)
      have hqs' : s.pageNos q = some qs := by simpa [setPages, setFd2pageno, hp] using hqs
      simpa [setPages, setFd2pageno, hf] using ha q f qs hq hqs'

theorem Inv.step (h : Inv s) (ha : Ahead s) {a : IndexCall} (hstep : s.step a = some s') :
    Inv s' ∧ (Ahead s' ↔ s.OpensAhead a) := by
  cases a with
  | createIndex path colTotLen fd =>
      obtain ⟨hinv, hah⟩ := h.createIndex hstep
      exact ⟨hinv, iff_of_true (hah ha) trivial⟩
  | openIndex path fd => exact h.openIndex ha hstep
  | closeIndex path =>
      obtain ⟨hinv, hah⟩ := h.closeIndex hstep
      exact ⟨hinv, iff_of_true (hah ha) trivial⟩
  | createNode path =>
      obtain ⟨⟨p, s''⟩, hcreate, rfl⟩ := Option.map_eq_some_iff.1 hstep
      obtain ⟨hinv, hah⟩ := h.createNode hcreate
      exact ⟨hinv, iff_of_true (hah ha) trivial⟩
  | otherFile fd numPages =>
      obtain ⟨hfd, ⟨⟩⟩ := Option.ite_none_right_eq_some.1 hstep
      obtain ⟨hinv, hah⟩ :=
        h.same (show ∀ p f, (s.setFd2pageno fd numPages).path2fd p = some f ↔
          _ from h.tables) rfl fun p f hi => by
        have hf : f ≠ fd := fun hc => h.unused hfd p (hc ▸ hi)
        exact ⟨h.opened p f hi, rfl, by simp [setFd2pageno, hf]⟩
      exact ⟨hinv, iff_of_true (hah ha) trivial⟩
  | newProcess =>
      cases hstep
      exact ⟨⟨by simp [init], by simp [init], by simp [init]⟩,
        iff_of_true (fun p f ps hi => by cases hi) trivial⟩

end Inv

/-- In every state of a run an open index allocates fresh pages only, exactly when the counter of the
descriptor stands at or behind the pages of the file each time an index is opened. -/
theorem fresh_iff_opensAhead (calls : List IndexCall) (s : IndexFiles)
    (hrun : Trace.run step init calls = some s) :
    Trace.Always step Fresh init calls ↔ Trace.Guarded step OpensAhead init calls := by
  have hstart : Fresh init := (fresh_iff_ahead inv_init).2 fun p f ps hi => by cases hi
  refine Trace.always_iff_guarded ?_ ?_ inv_init hstart (Trace.guarded_of_forall fun _ _ => trivial) hrun
  · intro s a s' h hf _ hstep
    exact (h.step ((fresh_iff_ahead h).1 hf) hstep).1
  · intro s a s' h hf _ hstep
    obtain ⟨hinv, hiff⟩ := h.step ((fresh_iff_ahead h).1 hf) hstep
    rw [fresh_iff_ahead hinv]
    exact hiff

/-- Two indexes created and opened one after the other, each on the descriptor it was created on. -/
theorem fresh_iff_opensAhead_created :
    Trace.Always step Fresh init [.createIndex "t_a.idx" 4 5, .openIndex "t_a.idx" 5,
      .createIndex "t_b.idx" 8 6, .openIndex "t_b.idx" 6,
        .createNode "t_a.idx"] ↔
      Trace.Guarded step OpensAhead init [.createIndex "t_a.idx" 4 5, .openIndex "t_a.idx" 5,
        .createIndex "t_b.idx" 8 6,
        .openIndex "t_b.idx" 6, .createNode "t_a.idx"] :=
  fresh_iff_opensAhead _ _ rfl

/-- After a restart the counter starts at 0 and opening moves it to 1: the first node that a split creates
is put on page 1, the header of the leaf list. -/
theorem restart_hands_out_leaf_header :
    ∃ s s', Trace.run step init [.createIndex "t_a.idx" 4 5, .openIndex "t_a.idx" 5,
      .closeIndex "t_a.idx", .newProcess,
        .openIndex "t_a.idx" 5] = some s ∧ s.createNode "t_a.idx" = some (1, s') ∧
        s.pageNos "t_a.idx" = some {0, 1, 2} ∧ ¬ s.Fresh := by
  obtain ⟨s, s', hrun, hnext, hpages⟩ : ∃ s s', Trace.run step init [.createIndex "t_a.idx" 4 5,
    .openIndex "t_a.idx" 5,
      .closeIndex "t_a.idx", .newProcess,
      .openIndex "t_a.idx" 5] = some s ∧ s.createNode "t_a.idx" = some (1, s') ∧
      s.pageNos "t_a.idx" = some {0, 1, 2} := ⟨_, _, rfl, rfl, rfl⟩
  exact ⟨s, s', hrun, hnext, hpages, fun hf => absurd (hf "t_a.idx" 0 s rfl 1 s' hnext).1 (by decide)⟩

section Handle

variable {K : Type} {ih ih' : IxIndexHandle K} {s : IndexFiles} {path : String}

structure Shows (s : IndexFiles) (path : String) (ih : IxIndexHandle K) : Prop where
  counter : ∃ fd, s.ihs path = some fd ∧ s.fd2pageno fd = ih.fd2pageno
  pages : ∃ ps, s.pageNos path = some ps ∧ ∀ p : Nat, p ∈ ps ↔ p = 0 ∨ Present ih p

theorem shows_createIndex (L : KeyLayout) {fd : Int} (hnew : s.pageNos path = none)
    (hpath : s.path2fd path = none) (hfd : s.fd2path fd = none) :
    ∃ s', Trace.run step s [.createIndex path (IxManager.colTotLen L.cols) fd, .openIndex path fd] = some s' ∧
      s'.Shows path (IxManager.createIndex L) := by
  have hlen : ¬ ixMaxColLen < IxManager.colTotLen L.cols := not_lt.2 L.bounded
  refine ⟨_,
    by
      simp [Trace.run, step, createIndex, openIndex, setPages, openFile, closeFile, setFd2pageno, hnew,
        hpath, hfd, hlen]; rfl, ?_, ?_⟩
  · exact ⟨fd, by simp, by simp [ixInitNumPages, IxManager.createIndex]⟩
  · refine ⟨{0, 1, 2}, by simp, fun p => ?_⟩
    simp only [Finset.mem_insert, Finset.mem_singleton, Present, IxManager.createIndex]
    by_cases h1 : p = 1
    · simp [h1]
    · by_cases h2 : p = 2
      · simp [h2]
      · have h1' : (p : Int) ≠ 1 := by exact_mod_cast h1
        have h2' : (p : Int) ≠ 2 := by exact_mod_cast h2
        simp [h1, h2, h1', h2']

theorem Shows.createNode (h : s.Shows path ih) :
    ∃ s', s.createNode path = some (ih.fd2pageno, s') ∧ s'.Shows path ih.createNode.2 := by
  obtain ⟨fd, hi, hc⟩ := h.counter
  obtain ⟨ps, hps, hmem⟩ := h.pages
  refine ⟨(s.setFd2pageno fd (s.fd2pageno fd + 1)).setPages path (insert (s.fd2pageno fd) ps), ?_, ?_, ?_⟩
  · simp [IndexFiles.createNode, hi, hps, hc]
  · exact ⟨fd, hi, by simp [setPages, setFd2pageno, IxIndexHandle.createNode, hc]⟩
  · refine ⟨insert (s.fd2pageno fd) ps, by simp [setPages], ?_⟩
    intro p
    rw [Finset.mem_insert, hmem, hc, Present, Present]
    by_cases hp : p = ih.fd2pageno
    · simp [hp, IxIndexHandle.createNode]
    · simp [hp, IxIndexHandle.createNode]

/-- For the page numbers an operation on the tree is a number of allocations. -/
theorem Shows.changes (hs : s.Shows path ih) (h : Changes ih ih') :
    ∃ n s', Trace.run step s (List.replicate n (.createNode path)) = some s' ∧ s'.Shows path ih' := by
  induction h with
  | refl => exact ⟨0, s, rfl, hs⟩
  | @write ih' _ p hp m iht =>
      obtain ⟨n, s', hrun, hcount, ps, hps, hmem⟩ := iht
      refine ⟨n, s', hrun, hcount, ps, hps, fun q => ?_⟩
      rw [hmem, present_writeNode]
      refine or_congr_right ⟨.inl, ?_⟩
      rintro (hq | rfl)
      · exact hq
      · exact hp
  | @create ih' _ iht =>
      obtain ⟨n, s', hrun, hshow⟩ := iht
      obtain ⟨t, hcreate, ht⟩ := hshow.createNode
      refine ⟨n + 1, t, ?_, ht⟩
      rw [List.replicate_succ', Trace.run_append, hrun]
      simp [Trace.run, step, hcreate]
  | header _ f iht =>
      obtain ⟨n, s', hrun, hcount, hpages⟩ := iht
      exact ⟨n, s', hrun, hcount, hpages⟩

variable [IxKey K]

theorem Shows.insertEntry (hs : s.Shows path ih) {k : K} {v : Rid} {p : Int} {b : Bool}
    (hrun : ih.insertEntry k v = .ok (p, b, ih')) :
    ∃ n s', Trace.run step s (List.replicate n (.createNode path)) = some s' ∧ s'.Shows path ih' :=
  hs.changes (Changes.refl.insertEntry hrun)

theorem Shows.deleteEntry (hs : s.Shows path ih) {k : K} {rid : Option Rid} {b : Bool}
    (hrun : ih.deleteEntry k rid = .ok (b, ih')) :
    ∃ n s', Trace.run step s (List.replicate n (.createNode path)) = some s' ∧ s'.Shows path ih' :=
  hs.changes (Changes.refl.deleteEntry hrun)

end Handle

end IndexFiles

end Rmdb
