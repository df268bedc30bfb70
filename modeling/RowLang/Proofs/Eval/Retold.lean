import RowLang.Proofs.Eval.Pursued

/-!
# Proofs/Eval/Retold — documents are followed

Writing a value computes all the fields of the records in it, so a shadow that writes a value
computes what it has not computed yet.  Documents hold no things of a world: those of values that
match are equal.
-/

namespace RowLang

variable {β : Matching} {v v' : Value} {o : Maker} {d : Nat} {t : Moment}

/-! ## Values as they are -/

namespace Value

theorem asTheyAre_eq {xs ys : List Value}
    (h : List.Forall₂ (fun x y => x.asItIs = y.asItIs) xs ys) :
    asTheyAre xs = asTheyAre ys := by
  induction h with
  | nil => rfl
  | cons hx _ ih => rw [asTheyAre, asTheyAre, hx, ih]

theorem Like.asItIs_eq {A : Likeness} (h : v.Like A v') : v.asItIs = v'.asItIs := by
  induction h with
  | list _ hlen _ ih => rw [asItIs, asItIs, asTheyAre_eq (allMatch_of_zip hlen ih)]
  | tuple _ hlen _ ih => rw [asItIs, asItIs, asTheyAre_eq (allMatch_of_zip hlen ih)]
  | tagged _ _ _ ih => rw [asItIs, asItIs, ih]
  | _ => rfl

end Value

/-! ## Documents -/

theorem Value.Like.plain?_eq {A : Likeness} (h : v.Like A v') : v.plain? = v'.plain? := by
  have hasItIs := h.asItIs_eq
  cases h with
  | tuple _ _ _ => exact congrArg some hasItIs
  | _ => rfl

/-- What stands on a path side by side stands on it. -/
theorem contains_path {path path' : List Nat} {a a' : Nat} (hβ : β.Unique)
    (h : (Counterparts.list .ofAddress path).rel β path') (ha : β (.record a') (.record a)) :
    path'.contains a' = path.contains a := by
  induction h with
  | nil => rfl
  | @cons b' b _ _ hb _ ih =>
    have hiff : a' = b' ↔ a = b := by
      constructor
      · rintro rfl
        exact Thing.record.inj (hβ.right ha hb)
      · rintro rfl
        exact Thing.record.inj (hβ.left ha hb)
    rw [List.contains_cons, List.contains_cons, ih, Bool.eq_iff_iff]
    simp only [Bool.or_eq_true, beq_iff_eq, hiff]

theorem Counterparts.eq_of_list_same {α : Type} {xs ys : List α}
    (h : (Counterparts.list .same xs).rel β ys) : ys = xs := by
  induction h with
  | nil => rfl
  | cons hx _ ih => rw [hx, ih]

/-- The document of a record, field by field. -/
def Eval.objectBy {σ : Type} (go : Callees σ) (path : List Nat) (a : Nat) (labels : List Label) :
    Running σ Document := do
  return .object (← labels.mapM fun l => do return (l, ← go.document (a :: path) (← go.force a l)))

/-- Writing a record depends on the world where it is written. -/
theorem Eval.run_documentBy_record {h : Host World} {go : Callees World}
    (hget : h.plainly get = get) (path : List Nat) (a : Nat) (w : World) :
    (documentBy h go path (.record a)).run w = if path.contains a then (.ok cycleMarker, w) else
      (objectBy go path a (Row.labels (w.row a))).run w := by
  rw [documentBy, hget]
  cases path.contains a <;> rfl

/-- A record is written field by field, if shadows follow how values are written. -/
theorem follows_object
    (hdocument : ∀ {t : Moment} {path v}, (∀ b ∈ path, t.world.Has (.record b)) →
      v.Matches t.world.itself v → Follows o d t (Eval.document d path v)
        ((Counterparts.list .ofAddress path).both (.ofValue v))
        (fun p n => Discreet.document n p.1 p.2) .same)
    {path : List Nat} {a : Nat} (hpath : ∀ b ∈ path, t.world.Has (.record b))
    (ha : t.world.Has (.record a))
    (labels : List Label) : Follows o d t (Eval.objectBy (Eval.within .plain d) path a labels)
      ((Counterparts.list .ofAddress path).both (.ofAddress a))
      (fun p n => Eval.objectBy (Eval.within Discreet.host n) p.1 p.2 labels) .same := by
  have hlabel : ∀ t₁ l, t.Le t₁ →
      Follows o d t₁ (do return (l, ← Eval.document d (a :: path) (← Eval.force d a l)))
        ((Counterparts.list .ofAddress path).both (.ofAddress a))
        (fun p n => do
          return (l, ← Discreet.document n (p.2 :: p.1) (← Discreet.force n p.2 l))) .same := by
    intro t₁ l ht
    refine Follows.bind (V := .ofValue) ?_ fun t₂ v ht₂ hv =>
      Follows.bind (V := .same) ?_ fun t₃ doc ht₃ _ => ?_
    · exact ((Eval.pursued d).force l (ht.world.has _ ha)).reindex fun β p n hp => ⟨p.2, hp.2, rfl⟩
    · have hpath' : ∀ b ∈ a :: path, t₂.world.Has (.record b) := fun b hb => by
        rcases List.mem_cons.mp hb with rfl | hb
        · exact (ht.trans ht₂).world.has _ ha
        · exact (ht.trans ht₂).world.has _ (hpath b hb)
      exact (hdocument hpath' hv).reindex
        fun β p n hp => ⟨(p.1.2 :: p.1.1, p.2), ⟨.cons hp.1.2 hp.1.1, hp.2⟩, rfl⟩
    · exact follows_pure rfl fun β p hp => by rw [show p.2 = doc from hp.2]; rfl
  refine Follows.bind (V := .list .same) ?_ fun t₁ fields ht _ => ?_
  · exact (follows_mapM (E := .same) (V := .same) (F := fun p n l => do
      return (l, ← Discreet.document n (p.2 :: p.1) (← Discreet.force n p.2 l)))
        (fun _ _ => rfl) fun t₁ l ht _ _ =>
          (hlabel t₁ l ht).reindex fun β p n hp =>
            ⟨p.1, hp.1, by rw [show p.2 = l from hp.2]⟩).reindex
      fun β p n hp => ⟨(p, labels), ⟨hp, List.forall₂_same.mpr fun _ _ => rfl⟩, rfl⟩
  · exact follows_pure rfl fun β p hp => by
      rw [Counterparts.eq_of_list_same hp.2]
      rfl

/-- A record is written, or is on the path already and marked so, if shadows follow how its fields
are written. -/
theorem follows_document_record
    (hdocument : ∀ {t : Moment} {path v}, (∀ b ∈ path, t.world.Has (.record b)) →
      v.Matches t.world.itself v → Follows o d t (Eval.document d path v)
        ((Counterparts.list .ofAddress path).both (.ofValue v))
        (fun p n => Discreet.document n p.1 p.2) .same)
    {path : List Nat} {a : Nat} (hpath : ∀ b ∈ path, t.world.Has (.record b))
    (ha : t.world.Has (.record a)) :
    Follows o (d + 1) t (Eval.document (d + 1) path (.record a))
      ((Counterparts.list .ofAddress path).both (.ofValue (.record a)))
      (fun p n => Discreet.document n p.1 p.2)
      .same := by
  -- A shadow stands on its path where the record does, and has the labels of the record.
  have hside {u : Moment} {s : Shadow} {path' : List Nat} {a' : Nat} (hu : t.Le u) (hs : s.Behind u)
      (hpath' : (Counterparts.list .ofAddress path).rel s.matching path')
      (ha' : s.matching (.record a') (.record a)) :
      path'.contains a' = path.contains a ∧
        Row.labels (s.world.row a') = Row.labels (t.world.row a) :=
    ⟨contains_path hs.unique hpath' ha', (hs.labels_eq ha').trans (hu.world.labels_eq ha)⟩
  cases hc : path.contains a with
  | true =>
    refine (follows_pure (o := o) (d := d) (R := .same ()) (V := .same)
      (y := fun _ => Eval.cycleMarker) rfl
      fun _ _ _ => rfl).via (by rw [Eval.document_succ, Eval.run_documentBy_record rfl, hc]; rfl)
        fun u s q n hu hs hq => ?_
    obtain ⟨path', v'⟩ := q
    obtain ⟨hpath', hv'⟩ := hq
    cases hv' with
    | @record a' _ ha' =>
      cases n with
      | zero => exact Or.inl ⟨s.world, rfl⟩
      | succ n =>
        refine Or.inr ⟨(), n, rfl, Nat.le_of_succ_le_succ, ?_⟩
        rw [Discreet.document_succ, Eval.run_documentBy_record rfl, (hside hu hs hpath' ha').1, hc]
        rfl
  | false =>
    refine (follows_object hdocument hpath ha (Row.labels (t.world.row a))).via
      (by rw [Eval.document_succ, Eval.run_documentBy_record rfl, hc]; rfl)
        fun u s q n hu hs hq => ?_
    obtain ⟨path', v'⟩ := q
    obtain ⟨hpath', hv'⟩ := hq
    cases hv' with
    | @record a' _ ha' =>
      cases n with
      | zero => exact Or.inl ⟨s.world, rfl⟩
      | succ n =>
        refine Or.inr ⟨(path', a'), n, ⟨hpath', ha'⟩, Nat.le_of_succ_le_succ, ?_⟩
        rw [Discreet.document_succ, Eval.run_documentBy_record rfl, (hside hu hs hpath' ha').1,
          (hside hu hs hpath' ha').2, hc]
        rfl

/-- **The writing of a value is followed.** -/
theorem follows_document (d : Nat) {path : List Nat} {v : Value}
    (hpath : ∀ a ∈ path, t.world.Has (.record a))
    (hv : v.Matches t.world.itself v) : Follows o d t (Eval.document d path v)
      ((Counterparts.list .ofAddress path).both (.ofValue v))
      (fun p n => Discreet.document n p.1 p.2) .same := by
  induction d generalizing t path v with
  | zero => exact follows_tooDeep fun _ => rfl
  | succ d ih =>
    have hzero : ∀ p : List Nat × Value, Discreet.document 0 p.1 p.2 = throw .tooDeep :=
      fun _ => rfl
    cases hplain : v.plain? with
    | some doc =>
      exact Follows.deeper (S := .same ()) (C := fun _ _ => return doc)
        (follows_pure rfl fun _ _ _ => rfl)
        (Eval.documentBy_plain hplain path) hzero fun β p n hp =>
          ⟨(), rfl, Eval.documentBy_plain ((Value.Matches.like hp.2).plain?_eq.trans hplain) p.1⟩
    | none =>
      cases hv with
      | @tagged _ _ tag _ payload _ ho htag hpayload =>
        obtain ⟨l, p⟩ := tag
        refine Follows.deeper (S := (Counterparts.list .ofAddress path).both (.ofValue payload))
          (C := fun p n => do return .array [.ofString l, ← Discreet.document n p.1 p.2]) ?_ rfl
          hzero fun β q n hq => ?_
        · exact (ih hpath hpayload).bind fun t₁ doc ht hdoc => follows_pure rfl fun β q hq => by
            rw [show q.2 = doc from hq.2]
            rfl
        · obtain ⟨path', v'⟩ := q
          obtain ⟨hpath', hv'⟩ := hq
          cases hv' with
          | @tagged _ _ tag' _ payload' _ _ htag' hpayload' =>
            obtain ⟨l', p'⟩ := tag'
            obtain rfl : l' = l := htag'.label
            exact ⟨(path', payload'), ⟨hpath', hpayload'⟩, rfl⟩
      | @list _ _ items _ ho hlen hitems =>
        have hitems := Value.allMatch_of_zip hlen hitems
        refine Follows.deeper (S := (Counterparts.list .ofAddress path).both (.list .ofValue items))
          (C := fun p n => do return .array (← p.2.mapM (Discreet.document n p.1))) ?_ rfl
          hzero fun β q n hq => ?_
        · refine Follows.bind (follows_mapM (E := .ofValue) (V := .same)
            (F := fun path' n x => Discreet.document n path' x)
              (fun x hx => List.forall₂_same.mp hitems x hx)
            fun t₁ x ht _ hx => ih (fun b hb => ht.world.has _ (hpath b hb)) hx)
              fun t₁ docs ht _ => ?_
          exact follows_pure rfl fun β q hq => by
            rw [Counterparts.eq_of_list_same hq.2]
            rfl
        · obtain ⟨path', v'⟩ := q
          obtain ⟨hpath', hv'⟩ := hq
          cases hv' with
          | @list _ _ items' _ _ hlen' hitems' =>
            exact ⟨(path', items'), ⟨hpath', Value.allMatch_of_zip hlen' hitems'⟩, rfl⟩
      | record ha => exact follows_document_record ih hpath ha.2
      | _ => cases hplain

/-! ## Programs -/

/-- Resolvers that match one, or none. -/
def Counterparts.ofImports (root : ImportRoot) : Counterparts ImportRoot where
  rel β root' := ImportRoot.Matches β root' root
  mono hβ h := h.mono hβ

/-- The value of a program, as text, with a number of levels. -/
def Discreet.valueTextWithin (n : Nat) (root : ImportRoot) (e : Expr) : Evaluating String := do
  let v ← eval n (.ofRoot root) ⟨← World.birth, e⟩
  World.faulty (← document n [] v).toText

/-- The text of a value is followed. -/
theorem follows_toText {v : Value} (hv : v.Matches t.world.itself v) :
    Follows o Eval.depthLimit t (Eval.toText v) (.ofValue v)
      (fun v' n => do World.faulty (← Discreet.document n [] v').toText) .same := by
  refine Follows.bind (V := .same) ?_ fun t₁ doc _ _ => ?_
  · exact (follows_document _ (fun _ h => absurd h List.not_mem_nil) hv).reindex
      fun β v' n hv' => ⟨([], v'), ⟨.nil, hv'⟩, rfl⟩
  · exact follows_faulty (.of_eq rfl) fun β p _ hp => by
      rw [show p.2 = doc from hp.2]
      exact .of_eq rfl

/-- **A program is followed.** -/
theorem follows_valueText {root : ImportRoot} (hroot : ImportRoot.Matches t.world.itself root root)
    (e : Expr) :
    Follows o Eval.depthLimit t (Session.valueText root e) (.ofImports root)
      (fun root' n => Discreet.valueTextWithin n root' e) .same := by
  refine follows_birth.bind fun t₁ b ht hb => Follows.bind (V := .ofValue) ?_ fun t₂ v ht₂ hv => ?_
  · have hcode : Code.Matches t₁.world.itself ⟨b, e⟩ ⟨b, e⟩ := ⟨hb, rfl⟩
    exact ((Eval.pursued _).eval (Env.Matches.ofRoot (hroot.mono ht.world.itself_le)) hcode).reindex
      fun β p n hp => ⟨(.ofRoot p.1, ⟨p.2, e⟩), ⟨Env.Matches.ofRoot hp.1, hp.2, rfl⟩, rfl⟩
  · exact (follows_toText hv).reindex fun β p n hp => ⟨p.2, hp.2, rfl⟩

end RowLang
