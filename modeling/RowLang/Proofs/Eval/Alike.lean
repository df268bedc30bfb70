import RowLang.Proofs.Eval.Stepping

/-!
# Proofs/Eval/Alike — what values that match show alike

Values that match are written in full alike if they show neither a field of a record nor an address,
and so failures are told of them alike.  Their entries match, and they are of one size.
-/

namespace RowLang

variable {β : Matching} {w w' : World} {v v' : Value}

theorem Row.length_eq_of_labels {α γ : Type} {r : Row α} {r' : Row γ} (h : r.labels = r'.labels) :
    r.length = r'.length := by
  simpa [labels] using congrArg List.length h

/-- **Records that match have the same labels** in two worlds. -/
def World.Alike (β : Matching) (w w' : World) : Prop :=
  ∀ a a', β (.record a) (.record a') → Row.labels (w.row a) = Row.labels (w'.row a')

theorem Shadow.Behind.alike {s : Shadow} {t : Moment} (h : s.Behind t) :
    World.Alike s.matching s.world t.world := fun _ _ ha => h.labels_eq ha

theorem World.Precedes.alike (h : w.Precedes w') : World.Alike w.itself w' w := by
  rintro a _ ⟨⟨⟩, ha⟩
  exact h.labels_eq ha

/-! ## Values in full -/

namespace Value

theorem allReticent_iff {vs : List Value} :
    allReticent w vs = true ↔ ∀ v ∈ vs, v.reticent w = true := by
  induction vs with
  | nil => simp [allReticent]
  | cons v vs ih => simp [allReticent, ih]

theorem allReticent_eq {xs ys : List Value}
    (h : List.Forall₂ (fun v v' => v.reticent w = v'.reticent w') xs ys) :
    allReticent w xs = allReticent w' ys := by
  induction h with
  | nil => rfl
  | cons hx _ ih => rw [allReticent, allReticent, hx, ih]

theorem Matches.reticent_eq (h : v.Matches β v') (hw : World.Alike β w w') :
    v.reticent w = v'.reticent w' := by
  induction h with
  | list _ hlen _ ih => exact allReticent_eq (allMatch_of_zip hlen ih)
  | tuple _ hlen _ ih => exact allReticent_eq (allMatch_of_zip hlen ih)
  | tagged _ _ _ ih => rw [reticent, reticent, ih]
  | @record a a' ha =>
    rw [reticent, reticent, Bool.eq_iff_iff, List.isEmpty_iff_length_eq_zero,
      List.isEmpty_iff_length_eq_zero, Row.length_eq_of_labels (hw a a' ha)]
  | _ => rfl

theorem mapM_eq {α γ ε : Type} {f g : α → Except ε γ} {xs ys : List α}
    (h : List.Forall₂ (fun x y => f x = g y) xs ys) : xs.mapM f = ys.mapM g := by
  induction h with
  | nil => rfl
  | cons hx _ ih => rw [List.mapM_cons, List.mapM_cons, hx, ih]

/-- **Values that show neither a field nor an address are written alike.** -/
theorem Matches.fullChars_eq (h : v.Matches β v') (hw : World.Alike β w w')
    (hv : v.reticent w = true) (n : Nat) : fullChars w n v = fullChars w' n v' := by
  induction h generalizing n with
  | list _ hlen _ ih =>
    cases n with
    | zero => rfl
    | succ n =>
      rw [reticent, allReticent_iff] at hv
      simp only [fullChars]
      rw [mapM_eq (allMatch_of_zip hlen fun p hp => ih p hp (hv _ (List.of_mem_zip hp).1) n)]
  | @tuple _ _ xs ys _ hlen _ ih =>
    cases n with
    | zero => rfl
    | succ n =>
      rw [reticent, allReticent_iff] at hv
      have hitems : List.Forall₂ (fun x y => fullChars w n x = fullChars w' n y) xs ys :=
        allMatch_of_zip hlen fun p hp => ih p hp (hv _ (List.of_mem_zip hp).1) n
      have hall := mapM_eq hitems
      cases hitems with
      | nil => rfl
      | cons hx hxs =>
        cases hxs with
        | nil => simp only [fullChars, hx]
        | cons hy hys =>
          simp only [fullChars]
          rw [hall]
  | @tagged _ _ t t' _ _ _ ht _ ih =>
    obtain ⟨l, o⟩ := t
    obtain ⟨l', o'⟩ := t'
    obtain rfl : l = l' := ht.label
    cases n with
    | zero => rfl
    | succ n => simp only [fullChars, ih hv n]
  | @record a a' ha =>
    have hempty : (w'.row a').isEmpty = true := ((Matches.record ha).reticent_eq hw).symm.trans hv
    have hv : (w.row a).isEmpty = true := hv
    rw [List.isEmpty_iff] at hv hempty
    cases n with
    | zero => rfl
    | succ n =>
      simp only [fullChars, hv, hempty]
      rfl
  | @closure _ _ _ _ p code code' _ _ _ _ hcode _ =>
    cases n with
    | zero => rfl
    | succ n => simp only [fullChars, hcode.expr]
  | @tagger _ _ t t' _ ht =>
    cases n with
    | zero => rfl
    | succ n => simp only [fullChars, ht.label]
  | dispatcher => cases hv
  | _ => cases n <;> rfl

/-- **Values are described alike**, if no tuple among them shows a field or an address. -/
theorem Matches.describe_eq (h : v.Matches β v') (hw : World.Alike β w w')
    (hv : ∀ o items, v = .tuple o items → v.reticent w = true) : describe w v = describe w' v' := by
  have hfull (hv : v.reticent w = true) :
      (fullChars w showDepth v).map String.ofList = (fullChars w' showDepth v').map
        String.ofList := by
    rw [h.fullChars_eq hw hv]
  cases h with
  | tuple _ _ _ => exact hfull (hv _ _ rfl)
  | tagged _ ht _ => simp only [describe, ht.label]
  | int _ | real _ | text _ => exact hfull rfl
  | _ => rfl

end Value

variable {α ι : Type} {o : Maker} {d : Nat} {t : Moment} {R : Counterparts ι}
  {V : α → Counterparts α}

/-- Something is told of a value, or that it cannot be described. -/
theorem run_failWith (make : String → Failure) (v : Value) (w : World) :
    (World.failWith make v : Evaluating α).run w
      = ((v.describe w).bind fun shown => .error (make shown), w) := by
  simp only [World.failWith, Run.run_bind, Run.run_get]
  cases v.describe w <;> rfl

theorem Discreet.run_guarded (v : Value) (m : Evaluating α) (w : World) :
    (guarded v m).run w = if v.reticent w then m.run w else (.error .tooDeep, w) := by
  simp only [guarded, Run.run_bind, Run.run_get]
  split <;> rfl

/-- Only a tuple that shows a field or an address is not described. -/
theorem Discreet.run_failWith (make : String → Failure) (v : Value) (w : World) :
    (failWith make v : Evaluating α).run w = (.error .tooDeep, w) ∨
      (failWith make v : Evaluating α).run w = (World.failWith make v).run w ∧
        ∀ o items, v = .tuple o items → v.reticent w = true := by
  cases v with
  | tuple o items =>
    rw [failWith, run_guarded]
    split
    case isTrue h => exact Or.inr ⟨rfl, fun _ _ _ => h⟩
    case isFalse => exact Or.inl rfl
  | _ => exact Or.inr ⟨rfl, by rintro _ _ ⟨⟩⟩

/-- **What is told of a value.** -/
theorem follows_failWith {make : String → Failure} {v' : ι → Value}
    (hv : v.Matches t.world.itself v) (hv' : ∀ β i, R.rel β i → (v' i).Matches β v) :
    Follows o d t (World.failWith make v) R (fun i _ => Discreet.failWith make (v' i)) V := by
  refine follows_of_look (by rw [run_failWith]) (fun x hx => ?_) fun u s i n hu hs hi => ?_
  · rw [run_failWith] at hx
    cases hdescribe : v.describe t.world with
    | ok shown => simp [hdescribe, Except.bind] at hx
    | error e => simp [hdescribe, Except.bind] at hx
  · refine (Discreet.run_failWith make (v' i) s.world).imp
      (fun h => ⟨_, h⟩) fun ⟨hrun, htuple⟩ => ?_
    have hmatches := hv' s.matching i hi
    have hu_eq : (v' i).describe s.world = v.describe u.world :=
      hmatches.describe_eq hs.alike htuple
    have ht_eq : v.describe u.world = v.describe t.world := by
      refine hv.describe_eq hu.world.alike fun o items h => ?_
      subst h
      rw [← hmatches.reticent_eq hs.alike]
      cases hv'_eq : v' i with
      | tuple o' items' => exact hv'_eq ▸ htuple o' items' hv'_eq
      | _ => rw [hv'_eq] at hmatches; cases hmatches
    rw [hrun, run_failWith, run_failWith, hu_eq, ht_eq]
    refine ⟨rfl, ?_⟩
    cases v.describe t.world with
    | ok shown => exact .error _
    | error e => exact .error _

/-! ## Verdicts -/

/-- The verdict that a value is, if it is one. -/
def Value.verdict? : Value → Option Bool
  | tagged _ ⟨l, _⟩ _ => if l = "true" then some true else if l = "false" then some false else none
  | _ => none

theorem Value.Like.verdict?_eq {A : Likeness} (h : v.Like A v') : v.verdict? = v'.verdict? := by
  cases h <;> rfl

theorem verdictOf_eq {σ : Type} (h : Host σ) (v : Value) :
    Eval.verdictOf h v = v.verdict?.elim (h.failWith .unhandledTag v) pure := by
  unfold Eval.verdictOf
  split
  · rfl
  · rfl
  · rename_i htrue hfalse
    cases v with
    | tagged o t x =>
      obtain ⟨l, o'⟩ := t
      have ht : l ≠ "true" := fun h => htrue o o' x (by rw [h])
      have hf : l ≠ "false" := fun h => hfalse o o' x (by rw [h])
      rw [Value.verdict?, if_neg ht, if_neg hf]
      rfl
    | _ => rfl

/-- **The verdict that a value is.** -/
theorem follows_verdictOf (hv : v.Matches t.world.itself v) :
    Follows o d t (Eval.verdictOf .plain v) (.ofValue v)
      (fun v' _ => Eval.verdictOf Discreet.host v') .same := by
  rw [verdictOf_eq]
  cases hverdict : v.verdict? with
  | some b =>
    refine Follows.reindex (S := .ofValue v) (C := fun _ _ => return b) ?_ fun β v' n hv' =>
      ⟨v', hv', ?_⟩
    · exact follows_pure rfl fun _ _ _ => rfl
    · rw [verdictOf_eq, (Value.Matches.like hv').verdict?_eq, hverdict]
      rfl
  | none =>
    refine Follows.reindex (S := .ofValue v)
      (C := fun v' _ => Discreet.failWith .unhandledTag v') ?_
      fun β v' n hv' => ⟨v', hv', ?_⟩
    · exact follows_failWith hv fun _ _ hv' => hv'
    · rw [verdictOf_eq, (Value.Matches.like hv').verdict?_eq, hverdict]
      rfl

/-! ## Entries -/

/-- A text of characters each. -/
theorem allMatch_characters {p p' : Origin} (h : p.Matches β p') (codes : List Nat) :
    Value.AllMatch β (codes.mapIdx fun i c => .text (p.part i) [c])
      (codes.mapIdx fun i c => .text (p'.part i) [c]) := by
  refine List.forall₂_iff_get.mpr ⟨by simp, fun i hi hi' => ?_⟩
  simp only [List.get_eq_getElem, List.getElem_mapIdx]
  exact .text (h.part i)

/-- What a record consists of, with the labels as they stand in the program. -/
def StoredRecord.entries (r : StoredRecord) : List Value :=
  r.fields.map fun p => .ofString (if r.seesItself then p.2.origin else p.2.origin.numeral) p.1

theorem StoredRecord.Matches.entries {r r' : StoredRecord} (h : r.Matches β r') :
    Value.AllMatch β r.entries r'.entries := by
  refine List.rel_map ?_ h.fields
  rintro ⟨l, c⟩ ⟨l', c'⟩ ⟨rfl, hc⟩
  dsimp only
  rw [h.seesItself]
  split
  · exact Value.matches_ofString hc.origin l
  · exact Value.matches_ofString hc.origin.numeral l

theorem run_entries_record (a : Nat) (w : World) :
    (Eval.entries (.record a)).run w = (.ok (w.records[a]?.getD default).entries, w) := by
  simp only [Eval.entries, Run.run_bind, Run.run_get, Run.run_pure, StoredRecord.entries,
    StoredRecord.fields, Row.mapValues, List.map_map]
  rfl

/-- **What a value consists of.** -/
theorem follows_entries (hv : v.Matches t.world.itself v) :
    Follows o d t (Eval.entries v) (.ofValue v) (fun v' _ => Eval.entries v') (.list .ofValue) := by
  have hitems {xs : List Value} (h : v.tupleItems? = some xs) :
      Follows o d t (pure xs) (.list .ofValue xs) (fun ys _ => pure ys) (.list .ofValue) := by
    have hxs : Option.Rel (Value.AllMatch t.world.itself) (some xs) (some xs) := h ▸ hv.tupleItems?
    have hxs : Value.AllMatch t.world.itself xs xs := Option.rel_some_some.mp hxs
    exact follows_pure hxs fun _ _ hys => hys
  cases hv with
  | list ho hlen hitems =>
    refine Follows.reindex (S := .list .ofValue _) (C := fun ys _ => return ys)
      (follows_pure (Value.allMatch_of_zip hlen hitems) fun _ _ hys => hys) fun β v' n hv' => ?_
    cases hv' with
    | list _ hlen hitems => exact ⟨_, Value.allMatch_of_zip hlen hitems, rfl⟩
  | @text _ _ codes ho =>
    refine Follows.reindex (S := .same ()) (C := fun _ _ => do
      let origin ← World.birth
      return codes.mapIdx fun i c => .text (origin.part i) [c]) ?_ fun β v' n hv' => ?_
    · exact follows_birth.bind fun t₁ p _ hp =>
        follows_pure (allMatch_characters hp codes) fun _ q hq => allMatch_characters hq.2 codes
    · cases hv' with
      | text _ => exact ⟨(), rfl, rfl⟩
  | @record a _ ha =>
    obtain ⟨r, hr⟩ := World.exists_of_has ha.2
    have hrun : (Eval.entries (.record a)).run t.world = (.ok r.entries, t.world) := by
      rw [run_entries_record, hr]
      rfl
    refine Follows.of_sound fun hsound => follows_of_look (by rw [hrun]) (fun xs hxs => ?_)
      fun u s v' n hu hs hv' => ?_
    · rw [hrun] at hxs
      cases hxs
      exact (hsound.whole.records a r hr).entries
    · cases hv' with
      | @record a' _ ha' =>
        obtain ⟨r', q, hr', hq, hmatches⟩ := hs.records ha'
        obtain ⟨q', hq', hkin⟩ := hu.world.records a r hr
        cases hq.symm.trans hq'
        rw [hrun, run_entries_record, hr']
        exact Or.inr ⟨rfl, .ok (hmatches.of_kin hkin.symm).entries⟩
  | tuple ho hlen _ =>
    refine (hitems rfl).reindex fun β v' n hv' => ?_
    cases hv' with
    | tuple _ hlen hitems => exact ⟨_, Value.allMatch_of_zip hlen hitems, rfl⟩
  | tagged ho ht hx =>
    refine (hitems rfl).reindex fun β v' n hv' => ?_
    have hpair := Value.Matches.tupleItems? hv'
    cases hv' with
    | tagged _ _ _ =>
      have hpair : Value.AllMatch β _ _ := Option.rel_some_some.mp hpair
      exact ⟨_, hpair, rfl⟩
  | _ =>
    refine Follows.reindex (S := .same ()) (C := fun _ _ => throw _)
      (follows_throw _) fun β v' n hv' => ?_
    cases hv'
    exact ⟨(), rfl, rfl⟩

/-- **The number of a value's entries.** -/
theorem follows_sizeOf (hv : v.Matches t.world.itself v) :
    Follows o d t (Eval.sizeOf v) (.ofValue v) (fun v' _ => Eval.sizeOf v') .ofValue := by
  refine Follows.bind follows_birth fun t₁ p ht hp => ?_
  have hsize (n : Nat) {f : Value × Origin → Evaluating Value}
      (hf : ∀ β v' p', v'.Matches β v → f (v', p') = return .int p' n) :
      Follows o d t₁ (return .int p n) ((Counterparts.ofValue v).both (.ofOrigin p))
        (fun q _ => f q) .ofValue :=
    Follows.reindex (S := .ofOrigin p) (C := fun p' _ => return .int p' n)
      (follows_pure (Value.Matches.int hp) fun _ _ hp' => Value.Matches.int hp')
      fun β q _ hq => ⟨q.2, hq.2, hf β q.1 q.2 hq.1⟩
  have hnone {f : Value × Origin → Evaluating Value} (kind : String)
      (hf : ∀ β v' p', v'.Matches β v → f (v', p') = throw (.bare (.noLength kind))) :
      Follows o d t₁ (throw (.bare (.noLength kind))) ((Counterparts.ofValue v).both (.ofOrigin p))
        (fun q _ => f q) .ofValue :=
    Follows.reindex (S := .same ()) (C := fun _ _ => throw (.bare (.noLength kind)))
      (follows_throw _)
      fun β q _ hq => ⟨(), rfl, hf β q.1 q.2 hq.1⟩
  cases hv with
  | @list _ _ xs _ _ _ _ =>
    refine hsize xs.length fun β v' p' hv' => ?_
    cases hv' with
    | list _ hlen _ => rw [← hlen]
  | @text _ _ codes _ =>
    refine hsize codes.length fun β v' p' hv' => ?_
    cases hv'
    rfl
  | @record a _ ha =>
    refine follows_of_look rfl (fun x hx => ?_) fun u s q n hu hs hq => ?_
    · cases hx
      exact Value.Matches.int hp
    · obtain ⟨v', p'⟩ := q
      obtain ⟨hv', hp'⟩ := hq
      cases hv' with
      | @record a' _ ha' =>
        refine Or.inr ⟨rfl, .ok ?_⟩
        rw [Row.length_eq_of_labels
          ((hs.labels_eq ha').trans (hu.world.labels_eq (ht.world.has _ ha.2)))]
        exact Value.Matches.int hp'
  | @tuple _ _ xs _ _ _ _ =>
    refine hsize xs.length fun β v' p' hv' => ?_
    cases hv' with
    | tuple _ hlen _ =>
      rw [← hlen]
      rfl
  | tagged _ _ _ =>
    refine hsize 2 fun β v' p' hv' => ?_
    cases hv'
    rfl
  | _ =>
    refine hnone _ fun β v' p' hv' => ?_
    cases hv'
    rfl

end RowLang
