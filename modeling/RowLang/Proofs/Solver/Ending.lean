import RowLang.Proofs.Solver.Course
import RowLang.Proofs.Solver.Parts
import RowLang.Proofs.Solver.Outcome
import RowLang.Proofs.Ty.Founded
import RowLang.Proofs.Ty.RoundTrip

/-!
# Proofs/Solver/Ending — every comparison of founded types ends

What is inside two types is a finite set (`Ground`), but the rests of rows that a comparison puts
together are not in it: each has fields of the set and a tail that may be a fresh variable
(`Drawn`), so that its text need never have been seen before.  From one such pair to the next
something is taken off the spines of the two, and a comparison that leaves the tails goes on with a
pair of the set, of which there are as many as there are equalities left to consider.  Both together
measure how deep the comparison is nested (`Ground.settles_equate`).

  * `demand_ends` — **comparing two founded types ends**: they agree, or they do not match, or too
  many binders
stand on each other, whatever the state is and however deep it may be followed from some depth on.
-/

namespace RowLang.Solver

open Ty

/-! ## Ends -/

/-- How a comparison may end: the types agree so far, they do not match, or binders stand on each
other without end. -/
inductive Ending : Except TypeFailure Unit → Prop
  | agreed : Ending (.ok ())
  | mismatch (s t : Ty) : Ending (.error (.mismatch s t))
  | endless (key : String) : Ending (.error (.endlessUnfolding key))

/-- No equality that was considered is forgotten. -/
def Recalls (st st' : Solver) : Prop := ∀ key ∈ st.visited, key ∈ st'.visited

/-- With enough of a budget an operation comes to one end, whatever the budget is. -/
def Settles (m : Nat → Solving Unit) (enough : Nat) (st : Solver) : Prop :=
  ∃ r st', Ending r ∧ Recalls st st' ∧ ∀ budget, enough ≤ budget → (m budget).run st = (r, st')

variable {U : Set Ty} {m m' : Nat → Solving Unit} {enough : Nat} {st : Solver} {s t : Ty}

theorem Recalls.trans {mid st' : Solver} (h : Recalls st mid)
    (h' : Recalls mid st') : Recalls st st' :=
  fun key hkey => h' key (h key hkey)

theorem recalls_noting (st : Solver) (key : String) : Recalls st (st.noting key) :=
  fun _ h => List.mem_cons_of_mem _ h

theorem settles_pure : Settles (fun _ => pure ()) enough st :=
  ⟨_, st, .agreed, fun _ h => h, fun _ _ => rfl⟩

/-- One operation after another. -/
theorem Settles.andThen (h : Settles m enough st)
    (h' : ∀ st', Recalls st st' → Settles m' enough st') :
    Settles (fun budget => m budget >>= fun _ => m' budget) enough st := by
  obtain ⟨r, mid, hr, hrec, hrun⟩ := h
  have hfail : ∀ e, r = .error e →
      ∀ budget, enough ≤ budget → (m budget >>= fun _ => m' budget).run st = (.error e, mid) := by
    rintro e rfl budget hb
    rw [Run.run_bind, hrun budget hb]
  cases hr with
  | agreed =>
    obtain ⟨r', st', hr', hrec', hrun'⟩ := h' mid hrec
    refine ⟨r', st', hr', hrec.trans hrec', fun budget hb => ?_⟩
    rw [Run.run_bind, hrun budget hb]
    exact hrun' budget hb
  | mismatch s t => exact ⟨_, mid, .mismatch s t, hrec, hfail _ rfl⟩
  | endless key => exact ⟨_, mid, .endless key, hrec, hfail _ rfl⟩

/-- Tasks one after the other. -/
theorem settles_forM : ∀ {tasks : List Task} {st : Solver}, (∀ task ∈ tasks, ∀ st', Recalls st st' →
    Settles (perform · task) enough st') → Settles (fun budget =>
      tasks.forM (perform budget)) enough st
  | [], _, _ => settles_pure
  | task :: _, st, h => (h task List.mem_cons_self st fun _ hkey => hkey).andThen fun _ hrec =>
      settles_forM fun task hmem st' hrec' =>
        h task (List.mem_cons_of_mem _ hmem) st' (hrec.trans hrec')

/-! ## What a comparison comes to -/

/-- A finite set of flat and founded types and of all that is inside them. -/
structure Ground (U : Set Ty) : Prop where
  finite : U.Finite
  flat : ∀ u ∈ U, u.Flat
  founded : ∀ u ∈ U, u.Founded
  inside : ∀ u ∈ U, ∀ v, Encloses u v → v ∈ U

/-- A type of the set, a variable, or a row of fields of the set. -/
inductive Drawn (U : Set Ty) : Ty → Prop
  | member {t : Ty} (h : t ∈ U) : Drawn U t
  | var (n : Nat) : Drawn U (.var n)
  | row {k : RowKind} {fields : Row Ty} {tail : Ty} (hf : ∀ p ∈ fields, p.2 ∈ U) (ht : Drawn U tail)
      (hne : ∀ inner rest, tail ≠ .row k inner rest) : Drawn U (.row k fields tail)

namespace Ground

variable (hU : Ground U)
include hU

theorem flat_of_drawn (h : Drawn U t) : t.Flat := by
  induction h with
  | member h => exact hU.flat _ h
  | var n => trivial
  | row hf _ hne ih => exact flat_row.mpr ⟨hne, fun p hp => hU.flat _ (hf p hp), ih⟩

theorem flatten_of_drawn (h : Drawn U t) : t.flatten = t := (hU.flat_of_drawn h).flatten_eq_self

theorem founded_of_drawn (h : Drawn U t) : t.Founded := by
  induction h with
  | member h => exact hU.founded _ h
  | var n => trivial
  | row hf _ _ ih => exact founded_row.mpr ⟨fun p hp => hU.founded _ (hf p hp), ih⟩

theorem of_arrow {a b : Ty} (h : Drawn U (.arrow a b)) : a ∈ U ∧ b ∈ U := by
  cases h with
  | member h => exact ⟨hU.inside _ h _ (.part (.arg a b)), hU.inside _ h _ (.part (.res a b))⟩

theorem of_list (h : Drawn U (.list t)) : t ∈ U := by
  cases h with
  | member h => exact hU.inside _ h _ (.part (.elt t))

theorem of_row {k : RowKind} {fields : Row Ty} {tail : Ty} (h : Drawn U (.row k fields tail)) :
    (∀ p ∈ fields, p.2 ∈ U) ∧ Drawn U tail ∧ ∀ inner rest, tail ≠ .row k inner rest := by
  cases h with
  | row hf ht hne => exact ⟨hf, ht, hne⟩
  | member h =>
    exact ⟨fun p hp => hU.inside _ h _ (.part (.field hp)), .member (hU.inside _ h _ (.tail ..)),
      (flat_row.mp (hU.flat _ h)).1⟩

/-- A binder opened is again of the set, with less in front. -/
theorem of_binder {p : Nat} {body : Ty} (h : Drawn U (.bind .mu p body)) :
    Drawn U (unfold p body) ∧ (unfold p body).flatten = unfold p body ∧
      (unfold p body).spine < (Ty.bind .mu p body).spine := by
  cases h with
  | member h =>
    have hin := hU.inside _ h _ (.part (.unfolded p body))
    have hspine := spine_unfold (hU.founded _ h)
    exact ⟨.member hin, (hU.flat _ hin).flatten_eq_self, by omega⟩

theorem ne_bind_or_mu (h : Drawn U t) :
    (∀ b n body, t ≠ .bind b n body) ∨ ∃ p body, t = .bind .mu p body := by
  cases t with
  | bind b n body =>
    cases b with
    | mu => exact Or.inr ⟨_, _, rfl⟩
    | forAll => exact ((hU.founded_of_drawn h).ne_forAll _ _ rfl).elim
  | _ => exact Or.inl (by simp)

/-- **Opening binders** takes something off what stands in front, or comes upon too many. -/
theorem openBinders {key : String} : ∀ {n : Nat} {s t : Ty}, Drawn U s → Drawn U t →
    (Solver.openBinders key n s t).run st = (.error (.endlessUnfolding key), st) ∨
      ∃ s' t', (Solver.openBinders key n s t).run st = (.ok (s', t'), st) ∧ Drawn U s' ∧
      Drawn U t' ∧
        (s'.spine + t'.spine < s.spine + t.spine ∨ ((∀ b n body, s ≠ .bind b n body) ∧
          (∀ b n body, t ≠ .bind b n body) ∧ s' = s ∧ t' = t))
  | 0, _, _, _, _ => Or.inl rfl
  | n + 1, s, t, hs, ht => by
    rcases hU.ne_bind_or_mu hs with hs' | ⟨p, body, rfl⟩
    · rcases hU.ne_bind_or_mu ht with ht' | ⟨p, body, rfl⟩
      · rw [openBinders_done key n hs' ht']
        exact Or.inr ⟨s, t, rfl, hs, ht, Or.inr ⟨hs', ht', rfl, rfl⟩⟩
      · obtain ⟨hopen, hflat, hspine⟩ := hU.of_binder ht
        rw [openBinders_right key n p body hs', hflat]
        refine (openBinders hs hopen).imp_right ?_
        rintro ⟨s', t', hrun, hds, hdt, hless⟩
        refine ⟨s', t', hrun, hds, hdt, Or.inl ?_⟩
        obtain hless | ⟨-, -, rfl, rfl⟩ := hless <;> omega
    · obtain ⟨hopen, hflat, hspine⟩ := hU.of_binder hs
      rw [openBinders_left, hflat]
      refine (openBinders hopen ht).imp_right ?_
      rintro ⟨s', t', hrun, hds, hdt, hless⟩
      refine ⟨s', t', hrun, hds, hdt, Or.inl ?_⟩
      obtain hless | ⟨-, -, rfl, rfl⟩ := hless <;> omega

end Ground

/-! ## Going on -/

/-- What a comparison of two types goes on with: types of the set, or tails with less in front. -/
inductive GoesOn (U : Set Ty) (n : Nat) (s t : Ty) : Prop
  | members (hs : s ∈ U) (ht : t ∈ U)
  | tails (hs : Drawn U s) (ht : Drawn U t) (hless : s.spine + t.spine < n)

/-- A task that goes on with such types. -/
def Task.GoesOn (U : Set Ty) (n : Nat) : Task → Prop
  | .agree s t => Solver.GoesOn U n s t
  | .meet k fields tail others tail' => ∀ v, Solver.GoesOn U n tail' (.row k fields (.var v)) ∧
      Solver.GoesOn U n tail (.row k others (.var v))

variable (hU : Ground U)
include hU

/-- **An equality of types of the set or of the rests of rows splits into such.** -/
theorem Ground.goesOn_of_splits {tasks : List Task} (hs : Drawn U s) (ht : Drawn U t)
    (h : Splits s t tasks) :
    ∀ task ∈ tasks, task.GoesOn U (s.spine + t.spine) := by
  cases h with
  | same => simp
  | arrow a b c d =>
    obtain ⟨ha, hb⟩ := hU.of_arrow hs
    obtain ⟨hc, hd⟩ := hU.of_arrow ht
    simp only [List.mem_cons, List.not_mem_nil, or_false]
    rintro task (rfl | rfl)
    exacts [.members ha hc, .members hb hd]
  | list s t =>
    simp only [List.mem_cons, List.not_mem_nil, or_false]
    rintro task rfl
    exact .members (hU.of_list hs) (hU.of_list ht)
  | row k fields others tail tail' =>
    obtain ⟨hf, htail, hne⟩ := hU.of_row hs
    obtain ⟨ho, htail', hne'⟩ := hU.of_row ht
    have hrest : ∀ {r other : Row Ty} {u : Ty}, (∀ p ∈ r, p.2 ∈ U) → Drawn U u →
        (∀ inner rest, u ≠ .row k inner rest) → Drawn U (.row k (Row.difference id r other) u) :=
      fun hr hu hne => .row (fun p hp => hr p (Row.mem_difference.mp hp).1) hu hne
    have hspine (r : Row Ty) (u : Ty) : (Ty.row k r u).spine = u.spine + 1 := rfl
    intro task hmem
    rcases List.mem_append.mp hmem with hmem | hmem
    · obtain ⟨l, s, t, hl, hl', rfl⟩ := mem_sharedTasks hmem
      exact .members (hf _ hl) (ho _ (Row.mem_of_lookup hl'))
    · rcases tailTasks_cases k fields others tail tail' with ⟨-, heq⟩ | ⟨-, -, heq⟩ | ⟨-, -, heq⟩ |
          ⟨-, -, heq⟩ <;>
        (rw [heq, List.mem_singleton] at hmem; rw [hmem])
      · exact .tails htail htail' (by rw [hspine, hspine]; omega)
      · exact .tails htail' (hrest hf htail hne) (by rw [hspine, hspine, hspine]; omega)
      · exact .tails htail (hrest ho htail' hne') (by rw [hspine, hspine, hspine]; omega)
      · refine fun v => ⟨.tails htail' (hrest hf (.var v) nofun) ?_,
          .tails htail (hrest ho (.var v) nofun) ?_⟩ <;>
          (rw [hspine, hspine, hspine, show (Ty.var v).spine = 0 from rfl]; omega)

/-- What an equality comes to ends if all ends that it goes on with. -/
theorem Ground.settles_follow (hs : Drawn U s) (ht : Drawn U t) (key : String)
    (h : ∀ a b, GoesOn U (s.spine + t.spine) a b → ∀ st',
      Recalls st st' → Settles (equate · a b) enough st') :
    Settles (fun budget => follow budget key s t (outcome s t)) enough st := by
  cases hout : outcome s t with
  | defer n u => exact ⟨_, st.posting n u, .agreed, fun _ hkey => hkey, fun _ _ => rfl⟩
  | clash => exact ⟨_, st, .mismatch s t, fun _ hkey => hkey, fun _ _ => rfl⟩
  | reopen =>
    obtain hrun | ⟨s', t', hrun, hs', ht', hless⟩ := hU.openBinders hs ht
    · refine ⟨_, st, .endless key, fun _ hkey => hkey, fun budget _ => ?_⟩
      dsimp only
      rw [follow_reopen, Run.run_bind, hrun]
    · have hless : s'.spine + t'.spine < s.spine + t.spine := hless.resolve_right <| by
        rintro ⟨hs, ht, -⟩
        rcases outcome_eq_reopen hout with ⟨b, n, body, he⟩ | ⟨b, n, body, he⟩
        · exact hs b n body he
        · exact ht b n body he
      obtain ⟨r, st', hr, hrec, hequate⟩ := h s' t' (.tails hs' ht' hless) st fun _ hkey => hkey
      refine ⟨r, st', hr, hrec, fun budget hb => ?_⟩
      dsimp only
      rw [follow_reopen, Run.run_bind, hrun]
      exact hequate budget hb
  | split tasks =>
    refine settles_forM fun task hmem st' hrec => ?_
    have hgo := hU.goesOn_of_splits hs ht (outcome_eq_split hout) task hmem
    cases task with
    | agree a b => exact h a b hgo st' hrec
    | meet k fields tail others tail' =>
      obtain ⟨hthis, hthat⟩ := hgo st'.counter
      obtain ⟨r, st'', hr, hrec', hrun⟩ := (h _ _ hthis st'.counting hrec).andThen
        fun st'' hrec' => h _ _ hthat st'' (hrec.trans hrec')
      refine ⟨r, st'', hr, hrec', fun budget hb => ?_⟩
      dsimp only
      rw [perform_meet, Run.run_bind, Run.run_fresh]
      exact hrun budget hb

/-- **A comparison is nested no deeper than the equalities that are left and the spines allow.** -/
theorem Ground.settles_equate {M : Nat}
    (hM : ∀ u ∈ U, u.spine ≤ M) : ∀ {enough : Nat} {st : Solver} {s t : Ty},
    Drawn U s.flatten → Drawn U t.flatten →
    (unseen U st * (2 * M + 2) + s.flatten.spine + t.flatten.spine + 2 ≤ enough ∨
      (s ∈ U ∧ t ∈ U ∧ unseen U st * (2 * M + 2) + 1 ≤ enough)) → Settles (equate · s t) enough st
  | 0, _, _, _, _, _, h => by omega
  | enough + 1, st, s, t, hs, ht, h => by
    by_cases hkey : st.visited.contains (equalityKey s t) = true
    · refine ⟨_, st, .agreed, fun _ hkey => hkey, fun budget hb => ?_⟩
      obtain ⟨budget, rfl⟩ := Nat.exists_eq_succ_of_ne_zero (Nat.ne_zero_of_lt hb)
      rw [equate_succ, if_pos hkey]
    have hnew : equalityKey s t ∉ st.visited := fun h => hkey (List.contains_iff_mem.mpr h)
    suffices hnext : ∀ a b, GoesOn U (s.flatten.spine + t.flatten.spine) a b → ∀ st',
        Recalls (st.noting (equalityKey s t)) st' → Settles (equate · a b) enough st' by
      obtain ⟨r, st', hr, hrec, hrun⟩ := hU.settles_follow hs ht (equalityKey s t) hnext
      refine ⟨r, st', hr, (recalls_noting st _).trans hrec, fun budget hb => ?_⟩
      obtain ⟨budget, rfl⟩ := Nat.exists_eq_succ_of_ne_zero (Nat.ne_zero_of_lt hb)
      rw [equate_succ, if_neg hkey]
      exact hrun budget (Nat.le_of_succ_le_succ hb)
    intro a b hgo st' hrec
    -- what is left for what comes next: as much as here, or less by one equality of the set
    have hleft : unseen U st' * (2 * M + 2) + (s.flatten.spine + t.flatten.spine) + 1 ≤ enough := by
      rcases h with h | ⟨hs, ht, h⟩
      · have := Nat.mul_le_mul_right (2 * M + 2)
          (unseen_le hU.finite ((recalls_noting st (equalityKey s t)).trans hrec))
        omega
      · have hlt : unseen U st' + 1 ≤ unseen U st :=
          (unseen_le hU.finite hrec).trans_lt (unseen_noting_lt hU.finite hs ht hnew)
        have hmul := Nat.mul_le_mul_right (2 * M + 2) hlt
        have hs' := hM s hs
        have ht' := hM t ht
        rw [hU.flatten_of_drawn (.member hs), hU.flatten_of_drawn (.member ht)]
        rw [Nat.add_mul, Nat.one_mul] at hmul
        omega
    cases hgo with
    | members ha hb =>
      have hfa := hU.flatten_of_drawn (.member ha)
      have hfb := hU.flatten_of_drawn (.member hb)
      exact Ground.settles_equate hM (hfa.symm ▸ .member ha) (hfb.symm ▸ .member hb)
        (Or.inr ⟨ha, hb, by omega⟩)
    | tails ha hb hless =>
      have hfa := hU.flatten_of_drawn ha
      have hfb := hU.flatten_of_drawn hb
      exact Ground.settles_equate hM (hfa.symm ▸ ha) (hfb.symm ▸ hb)
        (Or.inl (by rw [hfa, hfb]; omega))

omit hU

/-! ## All types -/

/-- All that is inside two such types, once they are flat. -/
theorem ground_inside (hs : s.Guarded) (ht : t.Guarded) :
    Ground {u | Relation.ReflTransGen Encloses s.flatten u ∨ Relation.ReflTransGen Encloses
      t.flatten u} := by
  obtain ⟨hapart, hin⟩ := hs.inside
  obtain ⟨hapart', hin'⟩ := ht.inside
  exact ⟨(finite_enclosed hapart).union (finite_enclosed hapart'),
    fun u hu => hu.elim (fun h => (hin u h).1) fun h => (hin' u h).1,
    fun u hu => hu.elim (fun h => (hin u h).2) fun h => (hin' u h).2,
    fun u hu v huv => hu.imp (·.tail huv) (·.tail huv)⟩

theorem exists_settles_equate (hs : s.Guarded) (ht : t.Guarded) (st : Solver) :
    ∃ enough, Settles (equate · s t) enough st := by
  have hU := ground_inside hs ht
  obtain ⟨M, hM⟩ := (hU.finite.image spine).bddAbove
  exact ⟨_, hU.settles_equate (fun u hu => hM ⟨u, hu, rfl⟩) (.member (Or.inl .refl))
    (.member (Or.inr .refl)) (Or.inl le_rfl)⟩

/-- **Comparing two types ends**, from every state and as soon as it may be followed deep enough:
they agree so far, or they do not match, or binders stand on each other without end; and it ends in
none of these ways only because a label has no rank to be listed by. -/
theorem demand_ends (hs : s.Guarded) (ht : t.Guarded) (st : Solver) : ∃ enough r st',
    (∀ budget, enough ≤ budget → (demand budget s t).run st = (r, st')) ∧
      (Ending r ↔ s.unranked? = none ∧ t.unranked? = none) ∧
      ∀ why, s.unranked?.or t.unranked? = some why → r = .error (.unwritable why) ∧ st' = st := by
  cases hrank : s.unranked?.or t.unranked? with
  | some why =>
    refine ⟨0, .error (.unwritable why), st, fun budget _ => ?_, ⟨nofun, fun ⟨hs, ht⟩ => ?_⟩, ?_⟩
    · rw [demand_eq, hrank]
      rfl
    · rw [hs, ht] at hrank
      cases hrank
    · rintro _ ⟨⟩
      exact ⟨rfl, rfl⟩
  | none =>
    obtain ⟨enough, r, st', hr, -, hrun⟩ := exists_settles_equate hs ht st
    refine ⟨enough, r, st', fun budget hb => ?_,
      ⟨fun _ => Option.or_eq_none_iff.mp hrank, fun _ => hr⟩, nofun⟩
    rw [demand_eq, hrank]
    exact hrun budget hb

/-- An open record, and one whose tail is a recursive one. -/
theorem demand_ends_of_recursive_tail :
    let s := Ty.row .record [("a", .number)] (.var 0)
    let t := Ty.row .record [("b", .list (.var 0))]
      (.bind .mu 1 (.row .record [("c", .var 1)] .unit))
    (s.Guarded ∧ t.Guarded) ∧ ∃ enough r st',
      (∀ budget, enough ≤ budget → (demand budget s t).run {} = (r, st')) ∧ Ending r := by
  intro s t
  have hs : s.Guarded := ⟨by simp [s, Founded, FieldsFounded], by decide⟩
  have ht : t.Guarded := ⟨by simp [t, Founded, FieldsFounded, heads], by decide⟩
  obtain ⟨enough, r, st', hrun, hend, -⟩ := demand_ends hs ht {}
  exact ⟨⟨hs, ht⟩, enough, r, st', hrun, hend.mpr ⟨by decide +kernel, by decide +kernel⟩⟩

theorem not_ending_of_unranked {why : Label.Unranked} (h : t.unranked? = some why) (budget : Nat) :
    ¬ Ending ((demand budget t t).run st).1 := by
  rw [demand_eq, h]
  rintro ⟨⟩

theorem unranked?_of_label {l : Label} {why : Label.Unranked} (h : Label.unranked? l = some why) :
    (Ty.closedRecord [(l, .number)]).unranked? = some why := by
  rw [Ty.closedRecord, Ty.unranked?, Row.unranked?, Row.labels, List.map_singleton,
    List.findSome?_cons, h]
  rfl

theorem guarded_of_label (l : Label) : (Ty.closedRecord [(l, .number)]).Guarded :=
  ⟨by simp [Ty.closedRecord, Founded, FieldsFounded], by
    simp [Ty.closedRecord, Ty.free, Ty.freeOfFields]⟩

/-- **Not every comparison ends so**: a label of too many digits has no rank. -/
theorem not_ending_of_longLabel :
    let t := Ty.closedRecord [(Ty.longLabel, .number)]
    t.Guarded ∧ ∀ budget, ¬ Ending ((demand budget t t).run {}).1 :=
  ⟨guarded_of_label Ty.longLabel, not_ending_of_unranked (unranked?_of_label unranked?_longLabel)⟩

end RowLang.Solver
