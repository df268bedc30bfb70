import RowLang.Proofs.Lazy.Promises

/-!
# Proofs/Lazy/Order — the order of reading does not matter

Initializers that never recover from a failed read (`Strict`) end with a value only if all that they
have read has one.  So each value of a row is derived from values that came before it (`Grounded`):
a row that does not have them yet derives the same ones (`Grounded.recomputed`), and where one row
finds a cycle the other does too.

  * `read_eq_fresh` — **whatever has been read before, a label is read as it is of a fresh row**,
  with its value or
with its failure.
-/

namespace RowLang.LazyRow

variable {ε α : Type} {past : List (Event ε α)} {l k : Label} {x y : α} {i : Reader ε α}

/-! ## Initializers that never recover -/

/-- Whatever it reads from now on, the initializer fails. -/
inductive Doomed : Reader ε α → Prop
  | give (e : ε) : Doomed (.give (.error e))
  | read {l : Label} {next : Except ε α → Reader ε α} (h : ∀ r, Doomed (next r)) :
    Doomed (.read l next)

/-- **An initializer that never recovers**: once a read has failed it fails. -/
inductive Strict : Reader ε α → Prop
  | give (r : Except ε α) : Strict (.give r)
  | read {l : Label} {next : Except ε α → Reader ε α} (herror : ∀ e, Doomed (next (.error e)))
      (hok : ∀ x, Strict (next (.ok x))) : Strict (.read l next)

/-! ## Where values come from -/

/-- An initializer gives a value when it reads values that are there. -/
inductive Derives (past : List (Event ε α)) : Reader ε α → α → Prop
  | give (x : α) : Derives past (.give (.ok x)) x
  | read {l : Label} {next : Except ε α → Reader ε α} {x y : α} (hx : .ends l (.ok x) ∈ past)
      (hy : Derives past (next (.ok x)) y) : Derives past (.read l next) y

/-- Each value was derived from values that came before it. -/
def Grounded (initializers : Row (Reader ε α)) : List (Event ε α) → Prop
  | [] => True
  | .ends l (.ok x) :: past =>
    (∃ i, initializers.lookup l = some i ∧ Derives past i x) ∧ Grounded initializers past
  | _ :: past => Grounded initializers past

theorem Derives.mono {past' : List (Event ε α)} (h : Derives past i x)
    (hsub : ∀ e ∈ past, e ∈ past') :
    Derives past' i x := by
  induction h with
  | give x => exact .give x
  | read hx _ ih => exact .read (hsub _ hx) ih

variable {initializers : Row (Reader ε α)}

theorem Grounded.tail : ∀ {e : Event ε α} {past : List (Event ε α)}, Grounded initializers
    (e :: past) →
    Grounded initializers past
  | .ends _ (.ok _), _, h => h.2
  | .ends _ (.error _), _, h | .begins _, _, h | .missing _, _, h | .circular _, _,
    h | .remembered _ _, _, h => h

/-- A value and the values before it. -/
theorem Grounded.exists_derives : ∀ {past : List (Event ε α)}, Grounded initializers past →
    .ends l (.ok x) ∈ past → ∃ i, initializers.lookup l = some i ∧ Derives past i x
  | e :: past, h, hmem => by
    rcases List.mem_cons.mp hmem with rfl | hmem
    · obtain ⟨i, hi, hx⟩ := h.1
      exact ⟨i, hi, hx.mono fun _ => List.mem_cons_of_mem _⟩
    · obtain ⟨i, hi, hx⟩ := h.tail.exists_derives hmem
      exact ⟨i, hi, hx.mono fun _ => List.mem_cons_of_mem _⟩

/-- Of the same values an initializer gives the same. -/
theorem Derives.unique {past' : List (Event ε α)} (h : Derives past i x) (h' : Derives past' i y)
    (hvalues : ∀ l x y, .ends l (.ok x) ∈ past → .ends l (.ok y) ∈ past' → x = y) : x = y := by
  induction h with
  | give x =>
    cases h'
    rfl
  | read hx _ ih =>
    cases h' with
    | read hx' hrest =>
      cases hvalues _ _ _ hx hx'
      exact ih hrest

/-- **A label has one value**, however it came about. -/
theorem Grounded.unique {past' : List (Event ε α)} (h' : Grounded initializers past') :
    ∀ {past : List (Event ε α)}, Grounded initializers past → ∀ l x y, .ends l (.ok x) ∈ past →
      .ends l (.ok y) ∈ past' → x = y
  | e :: past, h, l, x, y, hx, hy => by
    rcases List.mem_cons.mp hx with rfl | hx
    · obtain ⟨i, hi, hderives⟩ := h.1
      obtain ⟨j, hj, hderives'⟩ := h'.exists_derives hy
      cases hi.symm.trans hj
      exact hderives.unique hderives' (Grounded.unique h' h.2)
    · exact Grounded.unique h' h.tail l x y hx hy

/-! ## What is read is derived -/

variable {h h' mid g g' : History ε α} {r r' : Except ε α}

/-- A row all of whose values are derived, by initializers that never recover. -/
structure Derived (initializers : Row (Reader ε α)) (h : History ε α) : Prop where
  consistent : Consistent h
  same : h.row.initializers = initializers
  grounded : Grounded initializers h.past

theorem Derived.lookup (hd : Derived initializers h) (hl : h.row.access l = .start i) :
    initializers.lookup l = some i := hd.same ▸ lookup_initializers_of_start hl

theorem Derived.begin (hd : Derived initializers h) (hl : h.row.access l = .start i) :
    Derived initializers (h.begin l) where
  consistent := hd.consistent.begin hl
  same := (initializers_setCell ..).trans hd.same
  grounded := hd.grounded

theorem Derived.close (hd : Derived initializers h) (hl : h.row.access l = .circular)
    (hi : initializers.lookup l = some i) (hx : ∀ x, r = .ok x → Derives h.past i x) :
    Derived initializers (h.close l r) where
  consistent := hd.consistent.close hl r
  same := by cases r <;> exact (initializers_setCell ..).trans hd.same
  grounded := by
    cases r with
    | ok x => exact ⟨⟨i, hi, hx x rfl⟩, hd.grounded⟩
    | error e => exact hd.grounded

section

variable [ReadFailure ε]

mutual

/-- Nothing that has happened is forgotten. -/
theorem Reads.forgets_nothing {h h' : History ε α} {l : Label} {r : Except ε α} :
    Reads h l r h' → ∀ e ∈ h.past, e ∈ h'.past
  | .missing _, _, hmem | .circular _, _, hmem | .ready _, _, hmem => List.mem_cons_of_mem _ hmem
  | .start _ hrun, e, hmem =>
    List.mem_cons_of_mem _ (hrun.forgets_nothing e (List.mem_cons_of_mem _ hmem))

theorem Runs.forgets_nothing {h h' : History ε α} {i : Reader ε α} {r : Except ε α} :
    Runs h i r h' → ∀ e ∈ h.past, e ∈ h'.past
  | .give _ _, _, hmem => hmem
  | .read hread hrun, e, hmem => hrun.forgets_nothing e (hread.forgets_nothing e hmem)

end

/-- A read that succeeds has a value to answer with. -/
theorem Reads.ended (hread : Reads h l (.ok x) h') (hc : Consistent h) :
    .ends l (.ok x) ∈ h'.past := by
  cases hread with
  | ready hl => exact List.mem_cons_of_mem _ ((hc.ready l x).mp hl)
  | start _ _ => exact List.mem_cons_self

theorem Doomed.fails (hi : Doomed i) (hrun : Runs h i r h') : ∃ e, r = .error e := by
  induction hi generalizing h with
  | give e =>
    cases hrun
    exact ⟨e, rfl⟩
  | read _ ih =>
    cases hrun with
    | read _ hrest => exact ih _ hrest

/-- **An initializer that never recovers gives what it derives from the values of others.** -/
theorem Strict.derives (hi : Strict i) (hrun : Runs h i (.ok x) h') (hc : Consistent h) :
    Derives h'.past i x := by
  induction hi generalizing h with
  | give r =>
    cases hrun
    exact .give x
  | read herror _ ih =>
    cases hrun with
    | @read _ _ _ q mid _ _ hread hrest =>
      cases q with
      | error e =>
        obtain ⟨e', he'⟩ := (herror e).fails hrest
        cases he'
      | ok y =>
        exact .read (hrest.forgets_nothing _ (hread.ended hc)) (ih y hrest (hread.consistent hc))

mutual

/-- **Every read derives what it puts in.** -/
theorem Reads.derived {h h' : History ε α} {l : Label} {r : Except ε α}
    (hstrict : ∀ l i, initializers.lookup l = some i → Strict i) (hd : Derived initializers h) :
    Reads h l r h' → Derived initializers h'
  | .missing hl => ⟨(Reads.missing hl).consistent hd.consistent, hd.same, hd.grounded⟩
  | .circular hl => ⟨(Reads.circular hl).consistent hd.consistent, hd.same, hd.grounded⟩
  | .ready hl => ⟨(Reads.ready hl).consistent hd.consistent, hd.same, hd.grounded⟩
  | .start hl hrun =>
    have hi := hd.lookup hl
    (hrun.derived hstrict (hd.begin hl)).close (hrun.circular hl) hi fun _ hx =>
      (hstrict _ _ hi).derives (hx ▸ hrun) (hd.begin hl).consistent

theorem Runs.derived {h h' : History ε α} {i : Reader ε α} {r : Except ε α}
    (hstrict : ∀ l i, initializers.lookup l = some i → Strict i) (hd : Derived initializers h) :
    Runs h i r h' → Derived initializers h'
  | .give _ _ => hd
  | .read hread hrest => hrest.derived hstrict (hread.derived hstrict hd)

end

/-! ## Two rows of the same initializers -/

omit [ReadFailure ε] in
theorem Derived.ne_missing (hd : Derived initializers h) (hi : initializers.lookup l = some i) :
    h.row.access l ≠ .missing := by
  refine access_ne_missing ?_
  rw [← labels_initializers, hd.same]
  exact Row.mem_labels_of_mem (Row.mem_of_lookup hi)

omit [ReadFailure ε] in
/-- What has its value is not at work. -/
theorem Derived.not_atWork (hd : Derived initializers h) (hx : .ends l (.ok x) ∈ h.past) :
    h.row.atWork l = false := by
  rw [atWork, (hd.consistent.ready l x).mpr hx]

/-- **What one row has computed another computes as well**, if none of it is at work there. -/
theorem Grounded.recomputed (hstrict : ∀ l i, initializers.lookup l = some i → Strict i) :
    ∀ {past : List (Event ε α)} {l : Label} {x : α} {h h' : History ε α} {r : Except ε α},
      Grounded initializers past → Lawful past → .ends l (.ok x) ∈ past → Derived initializers h →
      (∀ k y, .ends k (.ok y) ∈ past → h.row.atWork k = false) → Reads h l r h' → r = .ok x
  | e :: past, l, x, h, h', r, hg, hlaw, hmem, hd, hidle, hread => by
    rcases List.mem_cons.mp hmem with rfl | hmem
    case inr =>
      exact hg.tail.recomputed hstrict hlaw.2 hmem hd
        (fun k y hk => hidle k y (List.mem_cons_of_mem _ hk)) hread
    obtain ⟨⟨i, hi, hx⟩, hpast⟩ := hg
    cases hread with
    | missing hl => exact absurd hl (hd.ne_missing hi)
    | circular hl =>
      have hwork := hidle l x List.mem_cons_self
      rw [atWork, hl] at hwork
      cases hwork
    | ready hl =>
      have hy := (hd.consistent.ready l _).mp hl
      have hgrounded : Grounded initializers (.ends l (.ok x) :: past) := ⟨⟨i, hi, hx⟩, hpast⟩
      rw [hd.grounded.unique hgrounded l _ _ List.mem_cons_self hy]
    | start hl hrun =>
      cases (hd.lookup hl).symm.trans hi
      have hbegin : ∀ k y, .ends k (.ok y) ∈ past → (h.begin l).row.atWork k = false :=
        fun k y hk => by
        have hkl : k ≠ l := by
          rintro rfl
          exact hlaw.1.2 y hk
        rw [History.begin, start, atWork_setCell_of_ne hkl]
        exact hidle k y (List.mem_cons_of_mem _ hk)
      have hdb := hd.begin hl
      have hpastlaw := hlaw.2
      generalize h.begin l = g at hrun hbegin hdb
      clear hi hidle hmem hl hlaw
      induction hx generalizing g with
      | give x =>
        cases hrun
        rfl
      | read hz _ ih =>
        cases hrun with
        | read hread hrest =>
          cases hpast.recomputed hstrict hpastlaw hz hdb hbegin hread
          exact ih _ hrest (fun k y hk => (hread.steady.atWork k).trans (hbegin k y hk))
            (hread.derived hstrict hdb)

/-- Two rows of the same initializers at work, each with values of its own. -/
structure Twins (initializers : Row (Reader ε α)) (h g : History ε α) : Prop where
  left : Derived initializers h
  right : Derived initializers g
  atWork : ∀ k, g.row.atWork k = h.row.atWork k

omit [ReadFailure ε] in
theorem Twins.symm (ht : Twins initializers h g) : Twins initializers g h :=
  ⟨ht.right, ht.left, fun k => (ht.atWork k).symm⟩

omit [ReadFailure ε] in
theorem Twins.begin {j : Reader ε α} (ht : Twins initializers h g) (hl : h.row.access l = .start i)
    (hl' : g.row.access l = .start j) : Twins initializers (h.begin l) (g.begin l) := by
  refine ⟨ht.left.begin hl, ht.right.begin hl', fun k => ?_⟩
  rw [History.begin, History.begin]
  by_cases hk : k = l
  · subst hk
    rw [LazyRow.atWork, LazyRow.atWork, access_start (mem_labels_of_access_start hl),
      access_start (mem_labels_of_access_start hl')]
  · rw [start, start, atWork_setCell_of_ne hk, atWork_setCell_of_ne hk, ht.atWork]

theorem Twins.read (hstrict : ∀ l i, initializers.lookup l = some i → Strict i)
    (ht : Twins initializers h g)
    (hread : Reads h l r h') (hread' : Reads g k r' g') : Twins initializers h' g' :=
  ⟨hread.derived hstrict ht.left, hread'.derived hstrict ht.right, fun k =>
    (hread'.steady.atWork k).trans ((ht.atWork k).trans (hread.steady.atWork k).symm)⟩

/-- What one of two rows has computed the other computes as well. -/
theorem Twins.of_ready (hstrict : ∀ l i, initializers.lookup l = some i → Strict i)
    (ht : Twins initializers h g)
    (hx : h.row.access l = .ready x) (hread : Reads g l r g') : r = .ok x :=
  ht.left.grounded.recomputed hstrict ht.left.consistent.lawful
    ((ht.left.consistent.ready l x).mp hx) ht.right
    (fun k _ hk => (ht.atWork k).trans (ht.left.not_atWork hk)) hread

mutual

/-- **Two rows answer alike**, whatever each has computed. -/
theorem Reads.agrees {h h' g g' : History ε α} {l : Label} {r r' : Except ε α}
    (hstrict : ∀ l i, initializers.lookup l = some i → Strict i) (ht : Twins initializers h g) :
    Reads h l r h' → Reads g l r' g' → r = r'
  | .missing hl, hread' => by
    have hnone : g.row.access l = .missing := by
      by_contra hne
      rw [← ne_eq, access_ne_missing_iff, ← labels_initializers, ht.right.same, ← ht.left.same,
        labels_initializers, ← access_ne_missing_iff] at hne
      exact hne hl
    cases hread' with
    | missing _ => rfl
    | circular hl' | ready hl' | start hl' _ => cases hnone.symm.trans hl'
  | .circular hl, hread' => by
    have hcirc : g.row.access l = .circular := by
      rw [← atWork_iff, ht.atWork, atWork_iff, hl]
    cases hread' with
    | circular _ => rfl
    | missing hl' | ready hl' | start hl' _ => cases hcirc.symm.trans hl'
  | .ready hx, hread' => (ht.of_ready hstrict hx hread').symm
  | .start hl hrun, hread' => by
    have hi := ht.left.lookup hl
    cases hread' with
    | missing hl' => exact absurd hl' (ht.right.ne_missing hi)
    | circular hl' =>
      rw [← atWork_iff, ht.atWork, atWork_iff, hl] at hl'
      cases hl'
    | ready hl' => exact ht.symm.of_ready hstrict hl' (.start hl hrun)
    | start hl' hrun' =>
      cases hi.symm.trans (ht.right.lookup hl')
      exact hrun.agrees hstrict (ht.begin hl hl') hrun'

/-- And so do two runs of one initializer. -/
theorem Runs.agrees {h h' g g' : History ε α} {i : Reader ε α} {r r' : Except ε α}
    (hstrict : ∀ l i, initializers.lookup l = some i → Strict i) (ht : Twins initializers h g) :
    Runs h i r h' → Runs g i r' g' → r = r'
  | .give _ _, hrun' => by
    cases hrun'
    rfl
  | .read hread hrest, hrun' => by
    cases hrun' with
    | read hread' hrest' =>
      cases hread.agrees hstrict ht hread'
      exact hrest.agrees hstrict (ht.read hstrict hread hread') hrest'

end

/-! ## The order of reading -/

omit [ReadFailure ε] in
theorem derived_ofRow (initializers : Row (Reader ε α)) :
    Derived initializers ⟨.ofRow initializers, []⟩ :=
  ⟨consistent_ofRow initializers, initializers_ofRow initializers, trivial⟩

theorem Visits.derived {ls : List Label} {rs : List (Except ε α)}
    (hstrict : ∀ l i, initializers.lookup l = some i → Strict i) (hvisits : Visits h ls rs h')
    (hd : Derived initializers h) : Derived initializers h' := by
  induction hvisits with
  | nil => exact hd
  | cons hread _ ih => exact ih (hread.derived hstrict hd)

/-- **The order of reading does not matter**: whatever has been read of a row before, with or
without success, a label is read as it is of a fresh one, if no initializer recovers from a failed
read. -/
theorem read_eq_fresh (initializers : Row (Reader ε α)) (hstrict : ∀ p ∈ initializers, Strict p.2)
    (before : List Label) (l : Label) :
    ((before.mapM read >>= fun _ => read l).run ⟨.ofRow initializers, []⟩).1 =
      ((read l).run ⟨.ofRow initializers, []⟩).1 := by
  have hstrict : ∀ l i, initializers.lookup l = some i → Strict i := fun l i hi =>
    hstrict (l, i) (Row.mem_of_lookup hi)
  have hfresh := derived_ofRow (α := α) initializers
  obtain ⟨rs, mid, hvisits, hrun⟩ := visits_of_run before (⟨.ofRow initializers, []⟩ : History ε α)
  obtain ⟨r, h, hread, hrunl⟩ := reads_of_run mid l
  obtain ⟨r', h', hread', hrunl'⟩ := reads_of_run (⟨.ofRow initializers, []⟩ : History ε α) l
  have hagree : r = r' := hread.agrees hstrict ⟨hvisits.derived hstrict hfresh, hfresh,
    fun k => (hvisits.steady.atWork k).symm⟩ hread'
  have hbefore : (before.mapM read).run ⟨.ofRow initializers, []⟩ = (rs, mid.reading) := hrun
  have hafter : (read l).run ⟨.ofRow initializers, []⟩ = (r', h'.reading) := hrunl'
  rw [StateT.run_bind, hbefore, hafter, ← hagree]
  show ((read l).run mid.reading).1 = r
  rw [hrunl]

end

end RowLang.LazyRow
