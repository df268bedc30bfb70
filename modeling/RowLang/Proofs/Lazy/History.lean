import RowLang.Lazy.Reader
import RowLang.Proofs.Lazy.Cells
import Mathlib.Data.Finset.Card

/-!
# Proofs/Lazy/History — what happens while labels are read

A read from outside finds nothing, or an initializer at work, or a value, or it starts an
initializer, which may read in its turn.  `Reads` says so without a bound on how initializers nest,
and writes down what happens (`Event`), latest first.  Since each initializer at work has its label
in progress, the bound is never felt: what is run is what the rules allow (`visits_of_run`).
-/

namespace RowLang.LazyRow

/-- What happens while labels are read. -/
inductive Event (ε α : Type) where
  /-- A label that the row does not have is read. -/
  | missing (l : Label)
  /-- A label is read while its own initializer is at work. -/
  | circular (l : Label)
  /-- A label is read that has its value. -/
  | remembered (l : Label) (x : α)
  /-- A label is read that has no value, and its initializer starts. -/
  | begins (l : Label)
  /-- The initializer of a label ends, with a value or without. -/
  | ends (l : Label) (r : Except ε α)

variable {ε α : Type}

/-- The label that it happens to. -/
def Event.label : Event ε α → Label
  | missing l => l
  | circular l => l
  | remembered l _ => l
  | begins l => l
  | ends l _ => l

/-- A row of readers and what has happened to it, latest first. -/
structure History (ε α : Type) where
  row : LazyRow (Reader ε α) α
  past : List (Event ε α) := []

namespace History

/-- One thing more has happened. -/
def noting (h : History ε α) (e : Event ε α) : History ε α := { h with past := e :: h.past }

/-- The initializer of a label starts. -/
def begin (h : History ε α) (l : Label) : History ε α := ⟨h.row.start l, .begins l :: h.past⟩

/-- The initializer of a label has ended. -/
def close (h : History ε α) (l : Label) (r : Except ε α) : History ε α where
  row := match r with
    | .ok x => h.row.finish l x
    | .error _ => h.row.abandon l
  past := .ends l r :: h.past

/-- The labels whose initializers were started, latest first. -/
def started : List (Event ε α) → List Label
  | [] => []
  | .begins l :: past => l :: started past
  | _ :: past => started past

/-- The row with the labels whose initializers were started. -/
def reading (h : History ε α) : Reading ε α := ⟨h.row, started h.past⟩

end History

/-! ## What a read leaves as it was -/

/-- Whether the initializer of a label is at work. -/
def atWork (r : LazyRow (Reader ε α) α) (l : Label) : Bool :=
  match r.access l with
  | .circular => true
  | _ => false

/-- The same initializers, and the same ones of them at work. -/
structure Steady (r r' : LazyRow (Reader ε α) α) : Prop where
  initializers : r'.initializers = r.initializers
  atWork : ∀ l, r'.atWork l = r.atWork l

variable {r mid r' : LazyRow (Reader ε α) α} {l : Label}

theorem Steady.refl (r : LazyRow (Reader ε α) α) : r.Steady r := ⟨rfl, fun _ => rfl⟩

theorem Steady.trans (h : r.Steady mid) (h' : mid.Steady r') : r.Steady r' :=
  ⟨h'.initializers.trans h.initializers, fun l => (h'.atWork l).trans (h.atWork l)⟩

theorem Steady.labels (h : r.Steady r') : Row.labels r' = Row.labels r := by
  rw [← labels_initializers, h.initializers, labels_initializers]

theorem atWork_iff : r.atWork l = true ↔ r.access l = .circular := by
  unfold atWork
  cases r.access l <;> simp

theorem atWork_setCell_of_ne {k : Label} (h : k ≠ l)
    (c : Cell α) : (r.setCell l c).atWork k = r.atWork k := by
  rw [atWork, access_setCell_of_ne r h, ← atWork]

/-- An initializer that has started and ended is at work as little as before. -/
theorem Steady.close {h : History ε α} {q : Except ε α} {i : Reader ε α} {h' : History ε α}
    (hl : h.row.access l = .start i) (hsteady : (h.begin l).row.Steady h'.row) :
    h.row.Steady (h'.close l q).row := by
  have hmem : l ∈ Row.labels h'.row := by
    rw [hsteady.labels, History.begin, start, labels_setCell]
    exact mem_labels_of_access_start hl
  obtain ⟨c, hc, hcell⟩ : ∃ c, (h'.close l q).row = h'.row.setCell l c ∧ c ≠ .inProgress := by
    cases q with
    | ok x => exact ⟨_, rfl, nofun⟩
    | error e => exact ⟨_, rfl, nofun⟩
  rw [hc]
  refine ⟨?_, fun k => ?_⟩
  · rw [initializers_setCell, hsteady.initializers, History.begin, start, initializers_setCell]
  · by_cases hk : k = l
    · subst hk
      have hafter : (h'.row.setCell k c).atWork k = false := by
        cases c with
        | inProgress => exact absurd rfl hcell
        | ready x => rw [LazyRow.atWork, (access_setCell_self hmem _).2.1 x rfl]
        | absent =>
          obtain ⟨j, hj⟩ := (access_setCell_self hmem .absent).2.2 rfl
          rw [LazyRow.atWork, hj]
      rw [hafter, LazyRow.atWork, hl]
    · rw [atWork_setCell_of_ne hk, hsteady.atWork, History.begin, start, atWork_setCell_of_ne hk]

/-! ## Rules -/

section

variable [ReadFailure ε]

mutual

/-- **What reading a label comes to**, however deep initializers nest. -/
inductive Reads : History ε α → Label → Except ε α → History ε α → Prop
  | missing {h l} : h.row.access l = .missing →
    Reads h l (.error (ReadFailure.missing l)) (h.noting (.missing l))
  | circular {h l} : h.row.access l = .circular →
      Reads h l (.error (ReadFailure.circular l)) (h.noting (.circular l))
  | ready {h l x} : h.row.access l = .ready x → Reads h l (.ok x) (h.noting (.remembered l x))
  | start {h l i r h'} : h.row.access l = .start i → Runs (h.begin l) i r h' →
    Reads h l r (h'.close l r)

/-- What running an initializer comes to. -/
inductive Runs : History ε α → Reader ε α → Except ε α → History ε α → Prop
  | give (h : History ε α) (r : Except ε α) : Runs h (.give r) r h
  | read {h l next q mid r h'} : Reads h l q mid → Runs mid (next q) r h' →
    Runs h (.read l next) r h'

end

/-- Labels read from outside, one after the other, with what each read comes to. -/
inductive Visits : History ε α → List Label → List (Except ε α) → History ε α → Prop
  | nil (h : History ε α) : Visits h [] [] h
  | cons {h l ls r rs mid h'} : Reads h l r mid → Visits mid ls rs h' →
    Visits h (l :: ls) (r :: rs) h'

mutual

/-- **A read leaves at work what was at work.** -/
theorem Reads.steady {h h' : History ε α} {l : Label} {r : Except ε α} :
    Reads h l r h' → h.row.Steady h'.row
  | .missing _ | .circular _ | .ready _ => .refl _
  | .start hl hrun => .close hl hrun.steady

theorem Runs.steady {h h' : History ε α} {i : Reader ε α} {r : Except ε α} :
    Runs h i r h' → h.row.Steady h'.row
  | .give _ _ => .refl _
  | .read hread hrun => hread.steady.trans hrun.steady

end

/-- While an initializer is at work its label is circular. -/
theorem Runs.circular {h mid : History ε α} {l : Label} {i j : Reader ε α} {r : Except ε α}
    (hrun : Runs (h.begin l) j r mid) (hl : h.row.access l = .start i) : mid.row.access l =
      .circular := by
  rw [← atWork_iff, hrun.steady.atWork, atWork_iff]
  exact access_start (mem_labels_of_access_start hl)

theorem Visits.steady {h h' : History ε α} {ls : List Label} {rs : List (Except ε α)}
    (hv : Visits h ls rs h') :
    h.row.Steady h'.row := by
  induction hv with
  | nil => exact .refl _
  | cons hread _ ih => exact hread.steady.trans ih

/-! ## Runs follow the rules -/

/-- The labels whose initializers are not at work. -/
def idle (r : LazyRow (Reader ε α) α) : Finset Label :=
  (Row.domain r).filter fun l => r.atWork l = false

omit [ReadFailure ε] in
theorem Steady.idle (h : r.Steady r') : r'.idle = r.idle := by
  rw [LazyRow.idle, LazyRow.idle, Row.domain, Row.domain, h.labels]
  exact Finset.filter_congr fun l _ => by rw [h.atWork]

omit [ReadFailure ε] in
/-- **Each initializer that starts leaves one less idle.** -/
theorem card_idle_start_lt {i : Reader ε α} (h : r.access l = .start i) :
    (r.start l).idle.card < r.idle.card := by
  have hmem := mem_labels_of_access_start h
  refine Finset.card_lt_card ⟨fun k hk => ?_, fun hsub => ?_⟩
  · rw [idle, Finset.mem_filter, Row.mem_domain, start, labels_setCell] at hk
    refine Finset.mem_filter.mpr ⟨Row.mem_domain.mpr hk.1, ?_⟩
    by_cases hkl : k = l
    · rw [hkl, atWork, h]
    · rw [← atWork_setCell_of_ne hkl .inProgress]
      exact hk.2
  · have hl : l ∈ r.idle := Finset.mem_filter.mpr ⟨Row.mem_domain.mpr hmem, by rw [atWork, h]⟩
    have hwork := (Finset.mem_filter.mp (hsub hl)).2
    rw [atWork, access_start hmem] at hwork
    cases hwork

omit [ReadFailure ε] in
theorem card_idle_le (r : LazyRow (Reader ε α) α) : r.idle.card ≤ r.length :=
  (Finset.card_filter_le _ _).trans
    ((List.toFinset_card_le _).trans (by rw [Row.labels, List.length_map]))

/-- Reads nest as deep as initializers are idle. -/
private def Follows (depth : Nat) : Prop :=
  ∀ (h : History ε α) (l : Label), h.row.idle.card < depth →
  ∃ r h', Reads h l r h' ∧ (readWithin depth l).run h.reading = (r, h'.reading)

private theorem runs_of_runReader {depth : Nat}
    (hread : Follows (ε := ε) (α := α) depth) : ∀ (i : Reader ε α)
    (h : History ε α), h.row.idle.card < depth →
      ∃ r h', Runs h i r h' ∧ (runReader (readWithin depth) i).run h.reading = (r, h'.reading)
  | .give r, h, _ => ⟨r, h, .give h r, rfl⟩
  | .read l next, h, hlt => by
    obtain ⟨q, mid, hq, hrunq⟩ := hread h l hlt
    obtain ⟨r, h', hr, hrunr⟩ := runs_of_runReader hread (next q) mid (hq.steady.idle ▸ hlt)
    refine ⟨r, h', .read hq hr, ?_⟩
    rw [runReader, StateT.run_bind, hrunq]
    exact hrunr

/-- One read, step by step. -/
theorem readWithin_succ (depth : Nat) (l : Label)
    (s : Reading ε α) : (readWithin (depth + 1) l).run s =
    match s.row.access l with
    | .missing => (.error (ReadFailure.missing l), s)
    | .circular => (.error (ReadFailure.circular l), s)
    | .ready x => (.ok x, s)
    | .start i =>
      let (result, s') := (runReader (readWithin depth) i).run ⟨s.row.start l, l :: s.started⟩
      (result, { s' with row := match result with
        | .ok x => s'.row.finish l x
        | .error _ => s'.row.abandon l }) := by
  rw [readWithin, StateT.run_bind, StateT.run_get]
  show (match s.row.access l with | _ => _ : StateM (Reading ε α) (Except ε α)).run s = _
  cases s.row.access l <;> rfl

private theorem follows : ∀ depth, Follows (ε := ε) (α := α) depth
  | 0, _, _, hlt => absurd hlt (Nat.not_lt_zero _)
  | depth + 1, h, l, hlt => by
    rw [readWithin_succ]
    cases hl : h.row.access l with
    | missing => exact ⟨_, _, .missing hl, by rw [History.reading, hl]; rfl⟩
    | circular => exact ⟨_, _, .circular hl, by rw [History.reading, hl]; rfl⟩
    | ready x => exact ⟨_, _, .ready hl, by rw [History.reading, hl]; rfl⟩
    | start i =>
      have hlt' : (h.begin l).row.idle.card < depth := by
        have := card_idle_start_lt hl
        show (h.row.start l).idle.card < depth
        omega
      obtain ⟨r, mid, hr, hrun⟩ := runs_of_runReader (follows depth) i (h.begin l) hlt'
      refine ⟨r, mid.close l r, .start hl hr, ?_⟩
      have hrun' : (runReader (readWithin depth) i).run
        ⟨h.row.start l, l :: History.started h.past⟩ =
        (r, mid.reading) := hrun
      rw [History.reading, hl]
      dsimp only
      rw [hrun']
      cases r <;> rfl

/-- **The bound on how initializers nest is never felt.** -/
theorem reads_of_run (h : History ε α) (l : Label) :
    ∃ r h', Reads h l r h' ∧ (read l).run h.reading = (r, h'.reading) :=
  follows _ h l (Nat.lt_succ_of_le (card_idle_le h.row))

/-- **Labels read one after the other follow the rules.** -/
theorem visits_of_run : ∀ (ls : List Label) (h : History ε α),
    ∃ rs h', Visits h ls rs h' ∧ (ls.mapM read).run h.reading = (rs, h'.reading)
  | [], h => ⟨[], h, .nil h, rfl⟩
  | l :: ls, h => by
    obtain ⟨r, mid, hr, hrun⟩ := reads_of_run h l
    obtain ⟨rs, h', hrs, hruns⟩ := visits_of_run ls mid
    refine ⟨r :: rs, h', .cons hr hrs, ?_⟩
    rw [List.mapM_cons, StateT.run_bind, hrun]
    show (do let rs ← ls.mapM read; pure (r :: rs) : StateM (Reading ε α) _).run mid.reading = _
    rw [StateT.run_bind, hruns]
    rfl

end

end RowLang.LazyRow
