import RowLang.Proofs.Eval.Stepping

/-!
# Proofs/Eval/Forcing — fields are computed over again

A field that is read for the first time is computed, and its maker is known from then on.  A shadow
that reads a field which has been computed long ago computes it then: what it meets on the way is
new to it, since all that was made in the computation of the field has the field as its maker.
-/

namespace RowLang

variable {s : Shadow} {t u : Moment} {w w' : World} {a a' : Nat} {l : Label} {c : Cell Value}
  {i : Code} {v v' : Value}

/-! ## Reading a field -/

/-- The scope of the fields of a record at an address. -/
def StoredRecord.env (r : StoredRecord) (a : Nat) : Env :=
  if r.seesItself then r.scope.extend [("this", .record a)] else r.scope

theorem force_eq (depth a : Nat) (l : Label) :
    Eval.force (depth + 1) a l = Eval.forceBy .plain (Eval.within .plain depth) a l := rfl

/-- A field is read discreetly as in the world by itself. -/
theorem Discreet.force_eq (depth a : Nat) (l : Label) :
    force (depth + 1) a l = Eval.forceBy .plain (Eval.within host depth) a l := rfl

section Runs

variable {go : Eval.Callees World} {r : StoredRecord}

theorem run_forceBy_missing (h : (w.row a).access l = .missing) :
    (Eval.forceBy .plain go a l).run w = (.error (.bare (.noKey (Text.quoted l))), w) := by
  rw [Eval.forceBy, Host.plainly_plain, Run.run_bind, Run.run_get]
  simp only [h]
  rfl

theorem run_forceBy_circular (h : (w.row a).access l = .circular) :
    (Eval.forceBy .plain go a l).run w = (.error (.selfReferentialField l), w) := by
  rw [Eval.forceBy, Host.plainly_plain, Run.run_bind, Run.run_get]
  simp only [h]
  rfl

theorem run_forceBy_ready (h : (w.row a).access l = .ready v) :
    (Eval.forceBy .plain go a l).run w = (.ok v, w) := by
  rw [Eval.forceBy, Host.plainly_plain, Run.run_bind, Run.run_get]
  simp only [h]
  rfl

variable (go) in
/-- What a field's computation comes to: its cell is filled, or emptied again. -/
theorem run_forceBy_start (h : (w.row a).access l = .start i) (hr : w.records[a]? = some r) :
    (∀ v w', (go.eval (r.env a) i).run (w.setCell a l .inProgress) = (.ok v, w') →
      (Eval.forceBy .plain go a l).run w = (.ok v, w'.setCell a l (.ready v))) ∧
    ∀ e w', (go.eval (r.env a) i).run (w.setCell a l .inProgress) = (.error e, w') →
      (Eval.forceBy .plain go a l).run w = (.error e, w'.setCell a l .absent) := by
  have hstart : (World.updateRow a (·.start l)).run w = (.ok ⟨⟩, w.setCell a l .inProgress) := rfl
  constructor
  · intro v w' hrun
    rw [StoredRecord.env] at hrun
    rw [Eval.forceBy, Host.plainly_plain, Run.run_bind, Run.run_get]
    simp only [h, Host.plainly_plain, Run.run_bind, Run.run_get, hr, Option.getD_some, hstart,
      Run.run_tryCatch, hrun]
    rfl
  · intro e w' hrun
    rw [StoredRecord.env] at hrun
    rw [Eval.forceBy, Host.plainly_plain, Run.run_bind, Run.run_get]
    simp only [h, Host.plainly_plain, Run.run_bind, Run.run_get, hr, Option.getD_some, hstart,
      Run.run_tryCatch, hrun]
    rfl

end Runs

/-! ## Records that match -/

namespace StoredRecord

variable {β : Matching} {r r' : StoredRecord}

theorem Matches.env (h : r'.Matches β r) (ha : β (.record a') (.record a)) :
    Env.Matches β (r'.env a') (r.env a) := by
  rw [StoredRecord.env, StoredRecord.env, h.seesItself]
  split
  · exact h.scope.extend (.cons ⟨rfl, .record ha⟩ .nil)
  · exact h.scope

/-- Fields of records that match are computed from code that matches. -/
theorem Matches.initializer {i i' : Code} (h : r'.Matches β r) (hi' : r'.row.access l = .start i')
    (hi : r.row.access l = .start i) : i'.Matches β i := by
  have hlookup := Row.Matches.lookup h.fields l
  rw [lookup_fields, lookup_fields, LazyRow.lookup_of_access_start hi',
    LazyRow.lookup_of_access_start hi]
    at hlookup
  exact Option.rel_some_some.mp hlookup

end StoredRecord

/-! ## Cells -/

/-- A moment at which the cell of a field is set. -/
def Moment.setCell (t : Moment) (a : Nat) (l : Label) (c : Cell Value) : Moment :=
  ⟨t.world.setCell a l c, t.maker⟩

/-- A shadow in which the cell of a field is set. -/
def Shadow.setCell (s : Shadow) (a : Nat) (l : Label) (c : Cell Value) : Shadow :=
  ⟨s.world.setCell a l c, s.matching⟩

theorem Moment.le_setCell (h : ∀ v, (t.world.row a).access l ≠ .ready v) (c : Cell Value) :
    t.Le (t.setCell a l c) := ⟨World.precedes_setCell h c, fun _ _ => rfl⟩

/-- What has been computed when a cell has been set. -/
theorem World.ready_of_setCell {b : Nat} {k : Label}
    (h : ((w.setCell a l c).row b).access k = .ready v) :
    (a = b ∧ k = l) ∧ c = .ready v ∨ ¬ (a = b ∧ k = l) ∧ (w.row b).access k = .ready v := by
  by_cases hb : a = b ∧ k = l
  · obtain ⟨rfl, rfl⟩ := hb
    refine Or.inl ⟨⟨rfl, rfl⟩, ?_⟩
    have hlabel : k ∈ Row.labels (w.row a) := by
      have hk := LazyRow.access_ne_missing_iff.mp (by rw [h]; rintro ⟨⟩)
      rw [World.row_setCell, if_pos rfl] at hk
      rwa [LazyRow.labels_setCell] at hk
    obtain ⟨hprogress, hready, habsent⟩ := World.access_setCell_self hlabel c
    cases c with
    | inProgress => cases (hprogress rfl).symm.trans h
    | ready x =>
      cases (hready x rfl).symm.trans h
      rfl
    | absent =>
      obtain ⟨i, hi⟩ := habsent rfl
      cases hi.symm.trans h
  · exact Or.inr ⟨hb, by rwa [World.access_setCell_of_ne hb] at h⟩

/-- What is being computed when a cell has been set. -/
theorem World.circular_of_setCell {b : Nat} {k : Label}
    (h : ((w.setCell a l c).row b).access k = .circular) :
    (a = b ∧ k = l) ∨ (w.row b).access k = .circular := by
  by_cases hb : a = b ∧ k = l
  · exact Or.inl hb
  · exact Or.inr (by rwa [World.access_setCell_of_ne hb] at h)

namespace Shadow

/-- The records of a shadow in which a cell is set. -/
theorem Behind.records_setCell (h : s.Behind u) (c : Cell Value) {b' b : Nat}
    (hb : s.matching (.record b') (.record b)) : ∃ r' r,
      (s.world.setCell a l c).records[b']? = some r' ∧
      u.world.records[b]? = some r ∧ r'.Matches s.matching r := by
  obtain ⟨r', r, hr', hr, hmatches⟩ := h.records hb
  rw [World.getElem?_setCell, hr']
  refine ⟨_, r, rfl, hr, ?_⟩
  split
  · exact hmatches.kin_of (r'.kin_setCell l c)
  · exact hmatches

/-- What is known when a cell has been set: more, unless it is emptied. -/
theorem Knows.setCell {m : Maker} (h : s.Knows m) (hl : l ∈ Row.labels (s.world.row a'))
    (hc : c ≠ .absent) : (s.setCell a' l c).Knows m := by
  cases m with
  | program => trivial
  | module k name => exact h
  | field b k =>
    obtain ⟨b', hb, hknown⟩ := h
    refine ⟨b', hb, ?_⟩
    by_cases hbk : a' = b' ∧ k = l
    · obtain ⟨rfl, rfl⟩ := hbk
      obtain ⟨hprogress, hready, -⟩ := World.access_setCell_self hl c
      cases c with
      | inProgress => exact Or.inl (hprogress rfl)
      | ready x => exact Or.inr ⟨x, hready x rfl⟩
      | absent => exact absurd rfl hc
    · show ((s.world.setCell a' l c).row b').access k = _ ∨
        ∃ v, ((s.world.setCell a' l c).row b').access k = _
      rwa [World.access_setCell_of_ne hbk]

/-- **A field begins to be computed** in a shadow. -/
theorem Behind.start (h : s.Behind u) (hl : (s.world.row a').access l = .start i) :
    (s.setCell a' l .inProgress).Behind u where
  unique := h.unique
  has hxy := ⟨World.has_setCell_iff.mpr (h.has hxy).1, (h.has hxy).2⟩
  before := h.before
  shared := h.shared
  records := h.records_setCell .inProgress
  ready hb hv := by
    rcases World.ready_of_setCell hv with ⟨-, hc⟩ | ⟨-, hv⟩
    · cases hc
    · exact h.ready hb hv
  loaded := h.loaded
  library := h.library
  room := h.room
  orderly := h.orderly
  knows hxy := (h.knows hxy).setCell (LazyRow.mem_labels_of_access_start hl) (by rintro ⟨⟩)

/-- **A field comes to be computed** in a shadow. -/
theorem Behind.finish (h : s.Behind u) (ha : s.matching (.record a') (.record a))
    (hl : (s.world.row a').access l = .circular) (hv : (u.world.row a).access l = .ready v)
    (hmatches : v'.Matches s.matching v) : (s.setCell a' l (.ready v')).Behind u where
  unique := h.unique
  has hxy := ⟨World.has_setCell_iff.mpr (h.has hxy).1, (h.has hxy).2⟩
  before := h.before
  shared := h.shared
  records := h.records_setCell (.ready v')
  ready hb hx := by
    rcases World.ready_of_setCell hx with ⟨⟨rfl, rfl⟩, hc⟩ | ⟨-, hx⟩
    · cases hc
      cases h.unique.right ha hb
      exact ⟨v, hv, hmatches⟩
    · exact h.ready hb hx
  loaded := h.loaded
  library := h.library
  room := h.room
  orderly := h.orderly
  knows hxy :=
    (h.knows hxy).setCell (LazyRow.access_ne_missing_iff.mp (by rw [hl]; rintro ⟨⟩)) (by rintro ⟨⟩)

/-- What has not begun to be computed is not known. -/
theorem Behind.not_knows (h : s.Behind u) (ha : s.matching (.record a') (.record a))
    (hl : (s.world.row a').access l = .start i) : ¬ s.Knows (.field a l) := by
  rintro ⟨b', hb, hknown⟩
  cases h.unique.left ha hb
  rw [hl] at hknown
  rcases hknown with hcirc | ⟨v, hv⟩
  · cases hcirc
  · cases hv

/-- What is being computed side by side has not been computed. -/
theorem Apart.start (h : s.Apart w) (hs : s.matching.Unique)
    (ha : s.matching (.record a') (.record a))
    (hl : (w.row a).access l = .circular) : (s.setCell a' l .inProgress).Apart w where
  fields hb hcirc v hv := by
    rcases World.circular_of_setCell hcirc with ⟨rfl, rfl⟩ | hcirc
    · cases hs.right ha hb
      cases hl.symm.trans hv
    · exact h.fields hb hcirc v hv
  modules := h.modules

/-- A field begins to be computed side by side. -/
theorem InStep.start (h : s.InStep w) (hs : s.matching.Unique)
    (ha : s.matching (.record a') (.record a))
    (hl' : l ∈ Row.labels (s.world.row a')) (hl : l ∈ Row.labels (w.row a)) :
    (s.setCell a' l .inProgress).InStep (w.setCell a l .inProgress) where
  started {b k} hcirc := by
    by_cases hb : a = b ∧ k = l
    · obtain ⟨rfl, rfl⟩ := hb
      exact ⟨a', ha, (World.access_setCell_self hl' _).1 rfl⟩
    · rw [World.access_setCell_of_ne hb] at hcirc
      obtain ⟨b', hb', hcirc'⟩ := h.started hcirc
      refine ⟨b', hb', ?_⟩
      show ((s.world.setCell a' l .inProgress).row b').access k = .circular
      rw [World.access_setCell_of_ne]
      · exact hcirc'
      · rintro ⟨rfl, rfl⟩
        cases hs.right ha hb'
        exact hb ⟨rfl, rfl⟩
  running {b' b k} hb hcirc := by
    by_cases hbk : a = b ∧ k = l
    · obtain ⟨rfl, rfl⟩ := hbk
      exact (World.access_setCell_self hl _).1 rfl
    · rw [World.access_setCell_of_ne hbk]
      rcases World.circular_of_setCell hcirc with ⟨rfl, rfl⟩ | hcirc
      · cases hs.right ha hb
        exact absurd ⟨rfl, rfl⟩ hbk
      · exact h.running hb hcirc
  construction hk := h.construction hk
  report := h.report

/-! ## Fields of a shadow -/

section Compute

variable {go : Eval.Callees World} {r' : StoredRecord}

/-- **A shadow that catches up with the computation of a field** catches up with the field. -/
theorem Catches.finish {new new' : Thing → Prop} (ha : s.matching (.record a') (.record a))
    (hl : (s.world.row a').access l = .start i) (hr : s.world.records[a']? = some r')
    (hv : (u.world.row a).access l = .ready v) (hnew : ∀ y, new y → new' y)
    (h : (s.setCell a' l .inProgress).Catches u new (.ofValue v)
      ((go.eval (r'.env a') i).run (s.world.setCell a' l .inProgress))) :
    s.Catches u new' (.ofValue v) ((Eval.forceBy .plain go a' l).run s.world) := by
  obtain ⟨hok, herror⟩ := run_forceBy_start go hl hr
  revert h
  cases hrun : (go.eval (r'.env a') i).run (s.world.setCell a' l .inProgress) with
  | mk q w' =>
    intro h
    cases q with
    | error e =>
      rw [herror e w' hrun]
      exact h
    | ok x =>
      rw [hok x w' hrun]
      obtain ⟨β, hadv, hx⟩ := h
      have hlabel : l ∈ Row.labels (s.world.row a') := LazyRow.mem_labels_of_access_start hl
      have hcirc : (w'.row a').access l = .circular :=
        (hadv.steady.circular a' l).mpr ((World.access_setCell_self hlabel _).1 rfl)
      have hlabel' : l ∈ Row.labels (w'.row a') :=
        LazyRow.access_ne_missing_iff.mp (by rw [hcirc]; rintro ⟨⟩)
      refine ⟨β, ?_, hx⟩
      exact {
        matching := hadv.matching
        new := fun hxy => (hadv.new hxy).imp_right fun ⟨hx, hy⟩ =>
          ⟨fun hx' => hx (World.has_setCell_iff.mpr hx'), hnew _ hy⟩
        resolvers := hadv.resolvers
        world := (World.precedes_setCell (by rw [hl]; rintro v ⟨⟩) _).trans
          (hadv.world.trans (World.precedes_setCell (by rw [hcirc]; rintro v ⟨⟩) _))
        steady := World.steady_of_compute hadv.steady (by rw [hl]; rintro ⟨⟩) hlabel' (by rintro ⟨⟩)
        report := hadv.report
        behind := hadv.behind.finish (hadv.matching _ _ ha) hcirc hv hx }

end Compute

/-- What begins to be computed begins to be so side by side. -/
theorem InStep.access_start (h : s.InStep t.world) (hs : s.Behind t)
    (ha : s.matching (.record a') (.record a))
    (hl : (t.world.row a).access l = .start i) : ∃ i', (s.world.row a').access l = .start i' := by
  cases hl' : (s.world.row a').access l with
  | missing =>
    have hlabel := LazyRow.mem_labels_of_access_start hl
    rw [← hs.labels_eq ha] at hlabel
    exact absurd hl' (LazyRow.access_ne_missing hlabel)
  | circular => cases (h.running ha hl').symm.trans hl
  | ready v =>
    obtain ⟨x, hx, -⟩ := hs.ready ha hl'
    cases hx.symm.trans hl
  | start i' => exact ⟨i', rfl⟩

theorem Catches.weaken {α : Type} {new new' : Thing → Prop} {V : Counterparts α}
    {q : Except Failure α × World} (h : s.Catches u new V q) (hnew : ∀ y, new y → new' y) :
    s.Catches u new' V q := by
  obtain ⟨q, w⟩ := q
  cases q with
  | error e => exact h
  | ok x =>
    obtain ⟨β, hadv, hx⟩ := h
    exact ⟨β, hadv.weaken hnew, hx⟩

end Shadow

/-- What fails alike when it is computed leaves a field alike. -/
theorem FailsAlike.finish {go : Eval.Callees World} {r' : StoredRecord} {e : Failure}
    (h : FailsAlike e w ((go.eval (r'.env a') i).run (s.world.setCell a' l .inProgress)))
    (hl : (s.world.row a').access l = .start i) (hr : s.world.records[a']? = some r') :
    FailsAlike e (w.setCell a l .absent) ((Eval.forceBy .plain go a' l).run s.world) := by
  obtain ⟨-, herror⟩ := run_forceBy_start go hl hr
  revert h
  cases hrun : (go.eval (r'.env a') i).run (s.world.setCell a' l .inProgress) with
  | mk q w' =>
    intro h
    cases q with
    | ok x => exact h.elim
    | error e' =>
      rw [herror e' w' hrun]
      exact h

/-! ## Fields that have been computed -/

/-- What depends on a field when its computation begins. -/
abbrev Counterparts.ofField (r : StoredRecord) (a : Nat) (i : Code) : Counterparts (Env × Code) :=
  (ofEnv (r.env a)).both (ofCode i)

section Computed

variable {r : StoredRecord} {d n : Nat} {t₂ : Moment} {q : Except Failure Value}
  {B : Env × Code → Nat → Evaluating Value}

/-- A world of which a cell has been set. -/
theorem World.Whole.setCell (h : w.Whole) (hl : ∀ v, (w.row a).access l ≠ .ready v)
    (hc : ∀ v, c = .ready v → v.Matches w.itself v) : (w.setCell a l c).Whole := by
  have hle := (World.precedes_setCell hl c).itself_le
  exact {
    before := h.before
    shared := World.has_setCell_iff.mpr h.shared
    records := fun b r' hr' => by
      rw [World.getElem?_setCell] at hr'
      obtain ⟨r, hr, rfl⟩ := Option.map_eq_some_iff.mp hr'
      have hmatches := (h.records b r hr).mono hle
      split
      · exact (hmatches.kin_of (r.kin_setCell l c)).of_kin (r.kin_setCell l c)
      · exact hmatches
    ready := fun hv => by
      rcases World.ready_of_setCell hv with ⟨-, hv⟩ | ⟨-, hv⟩
      · exact (hc _ hv).mono hle
      · exact (h.ready hv).mono hle
    loaded := fun hv => (h.loaded hv).mono hle
    orderly := h.orderly }

/-- **A sound moment at which a cell is set** to what every shadow can catch up with. -/
theorem Moment.Sound.setCell (h : t.Sound) (hl : ∀ v, (t.world.row a).access l ≠ .ready v)
    (hc : ∀ v, c = .ready v → v.Matches t.world.itself v ∧ (t.setCell a l c).Caught a l v) :
    (t.setCell a l c).Sound where
  whole := h.whole.setCell hl fun v hv => (hc v hv).1
  fields hv := by
    rcases World.ready_of_setCell hv with ⟨⟨rfl, rfl⟩, hcell⟩ | ⟨-, hv⟩
    · exact (hc _ hcell).2
    · exact (h.fields hv).mono (Moment.le_setCell hl c)
  modules hv := (h.modules hv).mono (Moment.le_setCell hl c)

/-- A shadow that has not begun to compute a field does so with counterparts of what it depends on.
-/
theorem Shadow.Behind.ofField (hs : s.Behind u) (ht : t.Le u)
    (ha : s.matching (.record a') (.record a))
    (hr : t.world.records[a]? = some r) (hl : (t.world.row a).access l = .start i) {i' : Code}
    (hl' : (s.world.row a').access l = .start i') : ∃ r', s.world.records[a']? = some r' ∧
      (Counterparts.ofField r a i).rel s.matching (r'.env a', i') := by
  obtain ⟨r', p, hr', hp, hmatches⟩ := hs.records ha
  obtain ⟨p', hp', hkin⟩ := ht.world.records a r hr
  cases hp.symm.trans hp'
  have hmatches := hmatches.of_kin hkin.symm
  rw [World.row_of_getElem? hr] at hl
  rw [World.row_of_getElem? hr'] at hl'
  exact ⟨r', hr', hmatches.env ha, hmatches.initializer hl' hl⟩

/-- **What has been computed can be computed over again.** -/
theorem caught_of_computed (hr : t.world.records[a]? = some r)
    (hl : (t.world.row a).access l = .start i)
    (h : Followed (.field a l) d (t.setCell a l .inProgress) (.ok v) t₂ (.ofField r a i)
      (fun p n => Discreet.eval n p.1 p.2) .ofValue) :
    (t₂.setCell a l (.ready v)).Caught a l v := by
  have hnot : ∀ v, (t.world.row a).access l ≠ .ready v := by
    rw [hl]
    rintro v ⟨⟩
  have hcirc : (t₂.world.row a).access l = .circular :=
    (h.steady.circular a l).mpr
      ((World.access_setCell_self (LazyRow.mem_labels_of_access_start hl) _).1 rfl)
  have hle : t₂.Le (t₂.setCell a l (.ready v)) := Moment.le_setCell (by rw [hcirc]; rintro v ⟨⟩) _
  have hready : ((t₂.setCell a l (.ready v)).world.row a).access l = .ready v :=
    (World.access_setCell_self (LazyRow.access_ne_missing_iff.mp (by rw [hcirc]; rintro ⟨⟩)) _).2.1
      v rfl
  intro u s a' n hu hs hapart ha
  have htu : t.Le u := (Moment.le_setCell hnot _).trans (h.le.trans (hle.trans hu))
  cases n with
  | zero =>
    rw [Discreet.force]
    exact rfl
  | succ n =>
    rw [Discreet.force_eq]
    have hv := hu.world.ready _ _ _ hready
    cases hl' : (s.world.row a').access l with
    | missing =>
      have hlabel : l ∈ Row.labels (u.world.row a) :=
        LazyRow.access_ne_missing_iff.mp (by rw [hv]; rintro ⟨⟩)
      rw [← hs.labels_eq ha] at hlabel
      exact absurd hl' (LazyRow.access_ne_missing hlabel)
    | circular => exact absurd hready (hapart.fields ha hl' v)
    | ready v' =>
      rw [run_forceBy_ready hl']
      obtain ⟨x, hx, hmatches⟩ := hs.ready ha hl'
      cases hx.symm.trans hv
      exact ⟨s.matching, .refl hs, hmatches⟩
    | start i' =>
      obtain ⟨r', hr', hi⟩ := hs.ofField htu ha hr hl hl'
      have hpoised : (s.setCell a' l .inProgress).Poised (.field a l) (t.setCell a l .inProgress)
        t₂.world u := {
        behind := hs.start hl'
        own := fun hxy hy => absurd (hy ▸ hs.knows hxy) (hs.not_knows ha hl')
        knows := ⟨a', ha, Or.inl
          ((World.access_setCell_self (LazyRow.mem_labels_of_access_start hl') _).1 rfl)⟩
        apart := (hapart.mono hle.world).start hs.unique ha hcirc }
      refine (h.catches v rfl u _ _ n (hle.trans hu) hpoised hi).finish ha hl' hr' hv fun y hy => ?_
      rcases hy with hy | ⟨hy, -⟩
      · exact fun hknows =>
          hy (hknows.setCell (LazyRow.mem_labels_of_access_start hl') (by rintro ⟨⟩))
      · rw [Shadow.Unknown, hy]
        exact hs.not_knows ha hl'

end Computed

/-! ## Reading is followed -/

section Reading

variable {o : Maker} {d : Nat} {r : StoredRecord}

/-- A field that is not there is read side by side. -/
theorem follows_force_missing (ha : t.world.Has (.record a))
    (hl : (t.world.row a).access l = .missing) :
    Follows o (d + 1) t (Eval.force (d + 1) a l) (.ofAddress a) (fun a' n => Discreet.force n a' l)
      .ofValue := by
  have hrun : (Eval.force (d + 1) a l).run t.world = (.error (.bare (.noKey (Text.quoted l))),
    t.world) := by
    rw [force_eq, run_forceBy_missing hl]
  refine follows_of_look (by rw [hrun]) (fun v hv => ?_) fun u s a' n hu hs ha' => ?_
  · rw [hrun] at hv
    cases hv
  · have hlabels := (hs.labels_eq ha').trans (hu.world.labels_eq ha)
    have hl' : (s.world.row a').access l = .missing := by
      by_contra hne
      rw [← ne_eq, LazyRow.access_ne_missing_iff, hlabels, ← LazyRow.access_ne_missing_iff] at hne
      exact hne hl
    cases n with
    | zero =>
      rw [Discreet.force]
      exact Or.inl ⟨_, rfl⟩
    | succ n =>
      rw [Discreet.force_eq, run_forceBy_missing hl', hrun]
      exact Or.inr ⟨rfl, .error _⟩

/-- A field that is being computed is so side by side. -/
theorem follows_force_circular (hl : (t.world.row a).access l = .circular) :
    Follows o (d + 1) t (Eval.force (d + 1) a l) (.ofAddress a) (fun a' n => Discreet.force n a' l)
      .ofValue := by
  intro hsound
  rw [force_eq, run_forceBy_circular hl]
  refine ⟨t.maker, .refl t, hsound, .refl _, fun v hv => ?_, fun v hv => ?_,
    fun e he s a' n _ hs _ hstep ha => ?_⟩
  · cases hv
  · cases hv
  · cases he
    cases n with
    | zero =>
      rw [Discreet.force]
      exact Or.inl rfl
    | succ n =>
      obtain ⟨b', hb, hcirc⟩ := hstep.started hl
      cases hs.unique.left ha hb
      rw [Discreet.force_eq, run_forceBy_circular hcirc]
      exact Or.inr ⟨rfl, hstep.report⟩

/-- A field that has been computed may have to be computed over again. -/
theorem follows_force_ready (hl : (t.world.row a).access l = .ready v) :
    Follows o (d + 1) t (Eval.force (d + 1) a l) (.ofAddress a) (fun a' n => Discreet.force n a' l)
      .ofValue := by
  intro hsound
  rw [force_eq, run_forceBy_ready hl]
  refine ⟨t.maker, .refl t, hsound, .refl _, fun x hx => ?_, fun x hx u s a' n hu hs ha => ?_,
    fun e he => by cases he⟩
  · cases hx
    exact ⟨rfl, hsound.whole.ready hl⟩
  · cases hx
    exact (hsound.fields hl u s a' n hu hs.behind hs.apart ha).weaken fun _ => Or.inl

/-- A field begins to be computed, and shadows follow the computation. -/
theorem follows_force_start (hr : t.world.records[a]? = some r)
    (hl : (t.world.row a).access l = .start i)
    (heval : Follows (.field a l) d (t.setCell a l .inProgress) (Eval.eval d (r.env a) i)
      (.ofField r a i) (fun p n => Discreet.eval n p.1 p.2) .ofValue) :
    Follows o (d + 1) t (Eval.force (d + 1) a l) (.ofAddress a) (fun a' n => Discreet.force n a' l)
      .ofValue := by
  intro hsound
  have hnot : ∀ v, (t.world.row a).access l ≠ .ready v := by
    rw [hl]
    rintro v ⟨⟩
  have hlabel := LazyRow.mem_labels_of_access_start hl
  have hle := Moment.le_setCell hnot .inProgress
  obtain ⟨maker, h⟩ := heval (hsound.setCell hnot (by rintro v ⟨⟩))
  obtain ⟨hok, herror⟩ := run_forceBy_start (Eval.within .plain d) hl hr
  rw [force_eq]
  revert h
  cases hrun : (Eval.eval d (r.env a) i).run (t.world.setCell a l .inProgress) with
  | mk q w' =>
    intro h
    rw [show (t.setCell a l .inProgress).world = t.world.setCell a l .inProgress from rfl,
      hrun] at h
    have hcirc : (w'.row a).access l = .circular :=
      (h.steady.circular a l).mpr ((World.access_setCell_self hlabel _).1 rfl)
    have hnot' : ∀ v, (w'.row a).access l ≠ .ready v := by
      rw [hcirc]
      rintro v ⟨⟩
    have hlabel' : l ∈ Row.labels (w'.row a) :=
      LazyRow.access_ne_missing_iff.mp (by rw [hcirc]; rintro ⟨⟩)
    have hsteady {c : Cell Value} : c ≠ .inProgress → t.world.Steady (w'.setCell a l c) :=
      World.steady_of_compute h.steady (by rw [hl]; rintro ⟨⟩) hlabel'
    cases q with
    | ok v =>
      have hresult := h.result v rfl
      have hcaught := caught_of_computed hr hl h
      rw [hok v w' hrun]
      refine ⟨maker, ?_⟩
      exact {
        le := hle.trans (h.le.trans (Moment.le_setCell hnot' _))
        sound := h.sound.setCell hnot' (by rintro x ⟨⟩; exact ⟨hresult.2, hcaught⟩)
        steady := hsteady (by rintro ⟨⟩)
        result := by
          rintro x ⟨⟩
          exact ⟨hresult.1, hresult.2.mono (World.precedes_setCell hnot' _).itself_le⟩
        catches := by
          rintro x ⟨⟩ u s a' n hu hs ha
          exact (hcaught u s a' n hu hs.behind hs.apart ha).weaken fun _ => Or.inl
        fails := by rintro e ⟨⟩ }
    | error e =>
      rw [herror e w' hrun]
      refine ⟨maker, ?_⟩
      exact {
        le := hle.trans (h.le.trans (Moment.le_setCell hnot' _))
        sound := h.sound.setCell hnot' (by rintro x ⟨⟩)
        steady := hsteady (by rintro ⟨⟩)
        result := by rintro x ⟨⟩
        catches := by rintro x ⟨⟩
        fails := by
          rintro _ ⟨⟩ s a' n hn hs hknows hstep ha
          cases n with
          | zero =>
            rw [Discreet.force]
            exact Or.inl rfl
          | succ n =>
            rw [Discreet.force_eq]
            obtain ⟨i', hl'⟩ := hstep.access_start hs ha hl
            obtain ⟨r', hr', hi⟩ := hs.ofField (.refl t) ha hr hl hl'
            have hlabel' := LazyRow.mem_labels_of_access_start hl'
            exact (h.fails e rfl _ _ n (Nat.le_of_succ_le_succ hn) ((hs.start hl').mono hle)
              ⟨a', ha, Or.inl ((World.access_setCell_self hlabel' _).1 rfl)⟩
              (hstep.start hs.unique ha hlabel' hlabel) hi).finish hl' hr' }

end Reading

end RowLang
