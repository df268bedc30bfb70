import RowLang.Proofs.Lazy.History

/-!
# Proofs/Lazy/Promises — what a lazy row promises

Whatever has happened to a row was due when it happened (`Lawful`): no initializer begins that is at
work or has ended with a value, a label is circular while its initializer is at work and then only,
and it is remembered with the value of its initializer.  Every read keeps it so, and keeps the cells
of the row in step with it (`Reads.consistent`).  What a row promises follows from there.

  * `promises` — **between reads nothing is in progress; an initializer ends with a value once at
  most, and that
value is what every later read answers; a read is circular exactly while the initializer of its
label is at work; and after a failure the next read runs the initializer again.**
-/

namespace RowLang.LazyRow

variable {ε α : Type} {past : List (Event ε α)} {l k : Label} {x : α}

/-! ## What may happen when -/

/-- The labels whose initializers have begun and have not ended. -/
def running : List (Event ε α) → List Label
  | [] => []
  | .begins l :: past => l :: running past
  | .ends l _ :: past => (running past).erase l
  | _ :: past => running past

/-- What may happen next. -/
def Due (past : List (Event ε α)) : Event ε α → Prop
  | .missing l => .begins l ∉ past
  | .circular l => l ∈ running past
  | .remembered l x => l ∉ running past ∧ .ends l (.ok x) ∈ past
  | .begins l => l ∉ running past ∧ ∀ x, .ends l (.ok x) ∉ past
  | .ends l _ => l ∈ running past ∧ ∀ x, .ends l (.ok x) ∉ past

/-- All that has happened was due. -/
def Lawful : List (Event ε α) → Prop
  | [] => True
  | e :: past => Due past e ∧ Lawful past

theorem Lawful.of_append : ∀ {later : List (Event ε α)}, Lawful (later ++ past) → Lawful past
  | [], h => h
  | _ :: _, h => of_append h.2

/-- What is at work has begun. -/
theorem begins_of_running : ∀ {past : List (Event ε α)}, l ∈ running past → .begins l ∈ past
  | [], h => absurd h List.not_mem_nil
  | .begins k :: past, h => by
    rcases List.mem_cons.mp h with rfl | h
    · exact List.mem_cons_self
    · exact List.mem_cons_of_mem _ (begins_of_running h)
  | .ends k r :: past, h => List.mem_cons_of_mem _ (begins_of_running (List.mem_of_mem_erase h))
  | .missing k :: past, h =>
    List.mem_cons_of_mem _ (begins_of_running (show l ∈ running past from h))
  | .circular k :: past, h =>
    List.mem_cons_of_mem _ (begins_of_running (show l ∈ running past from h))
  | .remembered k x :: past, h =>
    List.mem_cons_of_mem _ (begins_of_running (show l ∈ running past from h))

/-- No initializer is at work twice. -/
theorem Lawful.nodup_running : ∀ {past : List (Event ε α)}, Lawful past → (running past).Nodup
  | [], _ => List.nodup_nil
  | .begins _ :: _, h => List.nodup_cons.mpr ⟨h.1.1, nodup_running h.2⟩
  | .ends l _ :: _, h => (nodup_running h.2).erase l
  | .missing _ :: past, h => show (running past).Nodup from nodup_running h.2
  | .circular _ :: past, h => show (running past).Nodup from nodup_running h.2
  | .remembered _ _ :: past, h => show (running past).Nodup from nodup_running h.2

/-- What has ended has begun. -/
theorem Lawful.begins_of_ends : ∀ {past : List (Event ε α)} {r : Except ε α}, Lawful past →
    .ends l r ∈ past →
    .begins l ∈ past
  | e :: past, r, h, hmem => by
    rcases List.mem_cons.mp hmem with rfl | hmem
    · exact List.mem_cons_of_mem _ (begins_of_running h.1.1)
    · exact List.mem_cons_of_mem _ (begins_of_ends h.2 hmem)

/-- An initializer that has ended with a value is not at work again. -/
theorem Lawful.not_running : ∀ {past : List (Event ε α)}, Lawful past → .ends l (.ok x) ∈ past →
    l ∉ running past
  | .ends k r :: past, h, hmem, hrun => by
    rcases List.mem_cons.mp hmem with he | hmem
    · cases he
      exact h.2.nodup_running.not_mem_erase hrun
    · exact not_running h.2 hmem (List.mem_of_mem_erase hrun)
  | .begins k :: past, h, hmem, hrun => by
    have hended : .ends l (.ok x) ∈ past := (List.mem_cons.mp hmem).resolve_left nofun
    rcases List.mem_cons.mp hrun with rfl | hrun
    · exact h.1.2 x hended
    · exact not_running h.2 hended hrun
  | .missing k :: past, h, hmem, hrun =>
    have hended : .ends l (.ok x) ∈ past := (List.mem_cons.mp hmem).resolve_left nofun
    not_running h.2 hended hrun
  | .circular k :: past, h, hmem, hrun =>
    have hended : .ends l (.ok x) ∈ past := (List.mem_cons.mp hmem).resolve_left nofun
    not_running h.2 hended hrun
  | .remembered k y :: past, h, hmem, hrun =>
    have hended : .ends l (.ok x) ∈ past := (List.mem_cons.mp hmem).resolve_left nofun
    not_running h.2 hended hrun

/-- An initializer ends with one value at most. -/
theorem Lawful.unique {y : α} : ∀ {past : List (Event ε α)}, Lawful past → .ends l (.ok x) ∈ past →
    .ends l (.ok y) ∈ past → x = y
  | e :: past, h, hx, hy => by
    rcases List.mem_cons.mp hx with rfl | hx <;> rcases List.mem_cons.mp hy with hey | hy
    · cases hey
      rfl
    · exact absurd hy (h.1.2 y)
    · exact absurd hx ((hey ▸ h.1 : Due past (.ends l (.ok y))).2 x)
    · exact unique h.2 hx hy

/-- Something read, not something ended. -/
def Event.IsRead (e : Event ε α) : Prop := ∀ l r, e ≠ .ends l r

section

variable {later earlier : List (Event ε α)} {e : Event ε α}

/-- **What has its value keeps it**: whatever happens to the label later is that the value is
remembered. -/
theorem Lawful.lasting : ∀ {later : List (Event ε α)}, Lawful
    (later ++ .ends l (.ok x) :: earlier) →
    ∀ e ∈ later, e.label = l → e = .remembered l x
  | e :: later, h, e', hmem, hlabel => by
    rcases List.mem_cons.mp hmem with rfl | hmem
    · have hended : .ends l (.ok x) ∈ later ++ .ends l (.ok x) :: earlier :=
        List.mem_append_right _ List.mem_cons_self
      have hidle := Lawful.not_running h.2 hended
      have hdue := h.1
      cases e' with
      | missing k => exact absurd (h.2.begins_of_ends hended) (hlabel ▸ hdue)
      | circular k => exact absurd hdue (hlabel ▸ hidle)
      | remembered k y =>
        cases hlabel
        rw [h.2.unique hended hdue.2]
        rfl
      | begins k => exact absurd (hlabel ▸ hended) (hdue.2 x)
      | ends k r => exact absurd hdue.1 (hlabel ▸ hidle)
    · exact lasting h.2 e' hmem hlabel

/-- **A read is circular exactly while the initializer of its label is at work.** -/
theorem Lawful.circular_iff (h : Lawful (e :: earlier)) (hread : e.IsRead) :
    e = .circular e.label ↔ e.label ∈ running earlier := by
  have hdue := h.1
  cases e with
  | missing k => exact iff_of_false nofun fun hrun => hdue (begins_of_running hrun)
  | circular k => exact iff_of_true rfl hdue
  | remembered k y => exact iff_of_false nofun hdue.1
  | begins k => exact iff_of_false nofun hdue.1
  | ends k r => exact absurd rfl (hread k r)

/-- From a failure of an initializer to the next read of its label nothing becomes of the label. -/
theorem Lawful.idle_after_failure {f : ε} : ∀ {between : List (Event ε α)},
    Lawful (between ++ .ends l (.error f) :: earlier) → (∀ e ∈ between, e.label = l → ¬ e.IsRead) →
      l ∉ running (between ++ .ends l (.error f) :: earlier) ∧
        ∀ x, .ends l (.ok x) ∉ between ++ .ends l (.error f) :: earlier
  | [], h, _ => ⟨h.2.nodup_running.not_mem_erase, fun x hmem =>
      h.1.2 x ((List.mem_cons.mp hmem).resolve_left nofun)⟩
  | e :: between, h, hno => by
    obtain ⟨hidle, hnone⟩ := idle_after_failure h.2 fun e' hmem =>
      hno e' (List.mem_cons_of_mem _ hmem)
    have hhead := hno e List.mem_cons_self
    have hdue := h.1
    cases e with
    | missing k | circular k | remembered k y =>
      exact ⟨hidle, fun x hmem => hnone x ((List.mem_cons.mp hmem).resolve_left nofun)⟩
    | begins k =>
      refine ⟨fun hrun => ?_, fun x hmem => hnone x ((List.mem_cons.mp hmem).resolve_left nofun)⟩
      rcases List.mem_cons.mp hrun with rfl | hrun
      · exact hhead rfl nofun
      · exact hidle hrun
    | ends k r =>
      refine ⟨fun hrun => hidle (List.mem_of_mem_erase hrun), fun x hmem => ?_⟩
      rcases List.mem_cons.mp hmem with he | hmem
      · cases he
        exact hidle hdue.1
      · exact hnone x hmem

/-- **After a failure the next read of the label runs its initializer again.** -/
theorem Lawful.again {f : ε} {between : List (Event ε α)}
    (h : Lawful (e :: (between ++ .ends l (.error f) :: earlier))) (hlabel : e.label = l)
    (hread : e.IsRead) (hno : ∀ e ∈ between, e.label = l → ¬ e.IsRead) : e = .begins l := by
  obtain ⟨hidle, hnone⟩ := h.2.idle_after_failure hno
  have hbegun := h.2.begins_of_ends (List.mem_append_right between List.mem_cons_self)
  have hdue := h.1
  cases e with
  | missing k => exact absurd hbegun (hlabel ▸ hdue)
  | circular k => exact absurd hdue (hlabel ▸ hidle)
  | remembered k y => exact absurd hdue.2 (hlabel ▸ hnone y)
  | begins k => exact hlabel ▸ rfl
  | ends k r => exact absurd rfl (hread k r)

end

/-! ## Cells in step -/

/-- The cells of a row say what has happened to it, all of which was due. -/
structure Consistent (h : History ε α) : Prop where
  lawful : Lawful h.past
  running : ∀ l, h.row.access l = .circular ↔ l ∈ running h.past
  ready : ∀ l x, h.row.access l = .ready x ↔ .ends l (.ok x) ∈ h.past
  begun : ∀ l, .begins l ∈ h.past → l ∈ Row.labels h.row

theorem consistent_ofRow (initializers : Row (Reader ε α)) :
    Consistent (⟨.ofRow initializers, []⟩ : History ε α) where
  lawful := trivial
  running l := iff_of_false (access_ofRow_ne_circular _ l) List.not_mem_nil
  ready l x := iff_of_false (access_ofRow_ne_ready _ l x) List.not_mem_nil
  begun _ h := absurd h List.not_mem_nil

namespace Consistent

variable {h h' : History ε α} {i : Reader ε α}

/-- A read that starts nothing. -/
theorem noting (hc : Consistent h) {e : Event ε α} (hdue : Due h.past e)
    (hrunning : LazyRow.running (e :: h.past) = LazyRow.running h.past)
    (hbegins : ∀ l, e ≠ .begins l) (hends : ∀ l r, e ≠ .ends l r) : Consistent (h.noting e) where
  lawful := ⟨hdue, hc.lawful⟩
  running l := by
    rw [History.noting, hrunning]
    exact hc.running l
  ready l x := by
    rw [History.noting, List.mem_cons, or_iff_right (hends l _).symm]
    exact hc.ready l x
  begun l hl := hc.begun l ((List.mem_cons.mp hl).resolve_left (hbegins l).symm)

/-- An initializer starts. -/
theorem begin (hc : Consistent h) (hl : h.row.access l = .start i) : Consistent (h.begin l) where
  lawful := by
    refine ⟨⟨fun hrun => ?_, fun x hended => ?_⟩, hc.lawful⟩
    · cases hl.symm.trans ((hc.running l).mpr hrun)
    · cases hl.symm.trans ((hc.ready l x).mpr hended)
  running k := by
    by_cases hk : k = l
    · subst hk
      exact iff_of_true (access_start (mem_labels_of_access_start hl)) List.mem_cons_self
    · rw [History.begin, start, access_setCell_of_ne _ hk, hc.running k, LazyRow.running,
        List.mem_cons,
        or_iff_right hk]
  ready k x := by
    by_cases hk : k = l
    · subst hk
      rw [History.begin, access_start (mem_labels_of_access_start hl), List.mem_cons,
        ← hc.ready k x, hl]
      simp
    · have hne : (.ends k (.ok x) : Event ε α) ≠ .begins l := by rintro ⟨⟩
      rw [History.begin, start, access_setCell_of_ne _ hk, hc.ready k x, List.mem_cons,
        or_iff_right hne]
  begun k hk := by
    rw [History.begin, start, labels_setCell]
    rcases List.mem_cons.mp hk with he | hk
    · cases he
      exact mem_labels_of_access_start hl
    · exact hc.begun k hk

/-- An initializer that is at work ends. -/
theorem close (hc : Consistent h) (hl : h.row.access l = .circular) (r : Except ε α) :
    Consistent (h.close l r) := by
  have hrun : l ∈ LazyRow.running h.past := (hc.running l).mp hl
  have hnone : ∀ x, .ends l (.ok x) ∉ h.past := fun x hended => by
    cases hl.symm.trans ((hc.ready l x).mpr hended)
  have hmem : l ∈ Row.labels h.row := hc.begun l (begins_of_running hrun)
  obtain ⟨c, hrow, hcell⟩ : ∃ c, (h.close l r).row = h.row.setCell l c ∧
      ((∃ x, c = .ready x ∧ r = .ok x) ∨ c = .absent ∧ ∃ e, r = .error e) := by
    cases r with
    | ok x => exact ⟨_, rfl, .inl ⟨x, rfl, rfl⟩⟩
    | error e => exact ⟨_, rfl, .inr ⟨rfl, e, rfl⟩⟩
  have hself : (h.row.setCell l c).access l ≠ .circular ∧
      ∀ x, (h.row.setCell l c).access l = .ready x ↔ r = .ok x := by
    rcases hcell with ⟨x, rfl, rfl⟩ | ⟨rfl, e, rfl⟩
    · rw [(access_setCell_self hmem _).2.1 x rfl]
      simp
    · obtain ⟨j, hj⟩ := (access_setCell_self hmem (.absent : Cell α)).2.2 rfl
      rw [hj]
      simp
  refine ⟨⟨⟨hrun, hnone⟩, hc.lawful⟩, fun k => ?_, fun k x => ?_, fun k hk => ?_⟩
  · rw [hrow, show (h.close l r).past = .ends l r :: h.past from rfl, LazyRow.running]
    by_cases hk : k = l
    · subst hk
      exact iff_of_false hself.1 hc.lawful.nodup_running.not_mem_erase
    · rw [access_setCell_of_ne _ hk, hc.running k, List.mem_erase_of_ne hk]
  · rw [hrow, show (h.close l r).past = .ends l r :: h.past from rfl, List.mem_cons]
    by_cases hk : k = l
    · subst hk
      rw [hself.2 x, or_iff_left (hnone x), Event.ends.injEq, eq_comm (a := r)]
      simp
    · rw [access_setCell_of_ne _ hk, hc.ready k x, or_iff_right]
      rintro ⟨⟩
      exact hk rfl
  · rw [hrow, labels_setCell]
    exact hc.begun k ((List.mem_cons.mp hk).resolve_left nofun)

end Consistent

section

variable [ReadFailure ε]

mutual

/-- **Every read keeps the cells in step.** -/
theorem Reads.consistent {h h' : History ε α} {l : Label} {r : Except ε α} (hc : Consistent h) :
    Reads h l r h' → Consistent h'
  | .missing hl =>
    hc.noting (fun hbegun => access_ne_missing (hc.begun l hbegun) hl) rfl nofun nofun
  | .circular hl => hc.noting ((hc.running l).mp hl) rfl nofun nofun
  | .ready hl =>
    hc.noting ⟨fun hrun => (nomatch hl.symm.trans ((hc.running l).mpr hrun)), (hc.ready l _).mp hl⟩
      rfl nofun nofun
  | .start hl hrun => (hrun.consistent (hc.begin hl)).close (hrun.circular hl) r

theorem Runs.consistent {h h' : History ε α} {i : Reader ε α} {r : Except ε α} (hc : Consistent h) :
    Runs h i r h' → Consistent h'
  | .give _ _ => hc
  | .read hread hrun => hrun.consistent (hread.consistent hc)

end

theorem Visits.consistent {h h' : History ε α} {ls : List Label} {rs : List (Except ε α)}
    (hv : Visits h ls rs h') (hc : Consistent h) : Consistent h' := by
  induction hv with
  | nil => exact hc
  | cons hread _ ih => exact ih (hread.consistent hc)

/-! ## Promises -/

/-- What is answered when something happens to a label; one that begins is answered when it ends. -/
def Event.answer? : Event ε α → Option (Except ε α)
  | missing l => some (.error (ReadFailure.missing l))
  | circular l => some (.error (ReadFailure.circular l))
  | remembered _ x => some (.ok x)
  | begins _ => none
  | ends _ r => some r

/-- What is answered to a read is the answer of what has happened last, and that to its label. -/
theorem Reads.answered {h h' : History ε α} {l : Label} {r : Except ε α} (hread : Reads h l r h') :
    ∃ e, h'.past.head? = some e ∧ e.label = l ∧ e.answer? = some r := by
  cases hread with
  | missing _ => exact ⟨_, rfl, rfl, rfl⟩
  | circular _ => exact ⟨_, rfl, rfl, rfl⟩
  | ready _ => exact ⟨_, rfl, rfl, rfl⟩
  | start _ _ => exact ⟨_, rfl, rfl, rfl⟩

/-- **A read that fails leaves its label as it was**, so uncomputed. -/
theorem Reads.restored {h h' : History ε α} {l : Label} {f : ε} (hread : Reads h l (.error f) h') :
    h'.row.access l = h.row.access l ∧ h'.row.computed? l = none := by
  have huncomputed {r : LazyRow (Reader ε α) α} {a : Access (Reader ε α) α} (ha : r.access l = a)
      (hne : ∀ x, a ≠ .ready x) : r.computed? l = none :=
    Option.eq_none_iff_forall_ne_some.mpr fun x hx =>
      hne x (ha.symm.trans (computed?_eq_some_iff.mp hx))
  cases hread with
  | missing hl => exact ⟨rfl, huncomputed hl (by rintro x ⟨⟩)⟩
  | circular hl => exact ⟨rfl, huncomputed hl (by rintro x ⟨⟩)⟩
  | @start _ _ i _ mid hl hrun =>
    have hinit : mid.row.initializers.lookup l = some i := by
      rw [hrun.steady.initializers, History.begin, LazyRow.start, initializers_setCell]
      exact lookup_initializers_of_start hl
    have hafter : (mid.close l (.error f)).row.access l = .start i := access_abandon hinit
    exact ⟨hafter.trans hl.symm, huncomputed hafter (by rintro x ⟨⟩)⟩

/-- **What a lazy row promises**, whatever has been read of it. -/
structure Promises (h : History ε α) : Prop where
  /-- No label is in progress. -/
  settled : ∀ l, h.row.access l ≠ .circular
  /-- What is computed is what an initializer has ended with. -/
  computed : ∀ l x, h.row.computed? l = some x ↔ .ends l (.ok x) ∈ h.past
  /-- After an initializer has ended with a value, all that happens to its label is that the value
  is remembered: it does not begin again. -/
  lasting : ∀ later l x earlier, h.past = later ++ .ends l (.ok x) :: earlier →
    ∀ e ∈ later, e.label = l → e = .remembered l x
  /-- A read was circular if and only if the initializer of its label was at work. -/
  circular : ∀ later e earlier, h.past = later ++ e :: earlier → e.IsRead →
    (e = .circular e.label ↔ e.label ∈ running earlier)
  /-- The first read of a label after its initializer has failed ran the initializer again. -/
  again : ∀ later e between l f earlier,
    h.past = later ++ e :: (between ++ .ends l (.error f) :: earlier) →
    e.label = l → e.IsRead → (∀ e ∈ between, e.label = l → ¬ e.IsRead) → e = .begins l
  /-- The next read is answered by what happens last, and that to its label. -/
  answered : ∀ l r h', Reads h l r h' → ∃ e, h'.past.head? = some e ∧ e.label = l ∧
    e.answer? = some r
  /-- If the next read fails, it leaves its label as it is, and uncomputed. -/
  restored : ∀ l f h', Reads h l (.error f) h' → h'.row.access l = h.row.access l ∧
    h'.row.computed? l = none

theorem Consistent.promises {h : History ε α} (hc : Consistent h)
    (hsettled : ∀ l, h.row.access l ≠ .circular) :
    Promises h where
  settled := hsettled
  computed l x := computed?_eq_some_iff.trans (hc.ready l x)
  lasting _ _ _ _ heq := Lawful.lasting (heq ▸ hc.lawful)
  circular later e earlier heq :=
    Lawful.circular_iff (heq ▸ hc.lawful : Lawful (later ++ e :: earlier)).of_append
  again later e between l f earlier heq :=
    Lawful.again (heq ▸ hc.lawful :
      Lawful (later ++ e :: (between ++ .ends l (.error f) :: earlier))).of_append
  answered _ _ _ hread := hread.answered
  restored _ _ _ hread := hread.restored

/-- **A lazy row keeps its promises**, whatever its initializers read and recover from and whatever
is read of it from outside: what is run is a course of reads after which it has kept them all. -/
theorem promises_of_reads (initializers : Row (Reader ε α)) (ls : List Label) :
    ∃ rs h, Visits ⟨.ofRow initializers, []⟩ ls rs h ∧
      (ls.mapM read).run ⟨.ofRow initializers, []⟩ = (rs, h.reading) ∧ Promises h := by
  obtain ⟨rs, h, hvisits, hrun⟩ := visits_of_run ls (⟨.ofRow initializers, []⟩ : History ε α)
  refine ⟨rs, h, hvisits, hrun, (hvisits.consistent (consistent_ofRow initializers)).promises
    fun l hl => ?_⟩
  rw [← atWork_iff, hvisits.steady.atWork, atWork_iff] at hl
  exact access_ofRow_ne_circular _ l hl

end

end RowLang.LazyRow
