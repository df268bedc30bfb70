import RowLang.Proofs.Eval.Unfolded

/-!
# Proofs/Eval/Cycles — a document cuts exactly the cycles of a value

A value occurs in another one at a place of the document, inside the records that lie between the
two (`World.Occurs`).  There the document has the cycle marker if and only if the value is one of
these records (`Eval.cuts_exactly_cycles`); any other record stands there with all its labels in
order, whether it occurs once or many times.  Only a tuple is written without looking into it, so
that a record in it is neither cut nor rendered (`Eval.not_rendered_of_tuple`).
-/

namespace RowLang

/-! ## Places -/

/-- A step from a document to a part of it. -/
inductive Document.Step where
  | index (i : Nat)
  | label (l : Label)

/-- What stands at a place of a document, to which some steps lead. -/
def Document.at? : Document → List Step → Option Document
  | d, [] => some d
  | array ds, .index i :: steps => ds[i]?.bind fun d => at? d steps
  | object fields, .label l :: steps => (fields.lookup l).bind fun d => at? d steps
  | _, _ :: _ => none

/-- **A value occurs in another one** at a place: some steps lead from the one to the other, and
`inside` are the records on the path, the latest first, with those that it began with.  No step
leads into a tuple, or into a record that is on the path. -/
inductive World.Occurs (w : World) : List Nat → Value → List Document.Step → List Nat →
    Value → Prop where
  | here (path : List Nat) (v : Value) : w.Occurs path v [] path v
  | payload {path inside : List Nat} {o : Origin} {tag : Tag} {v u : Value}
    {steps : List Document.Step} :
    w.Occurs path v steps inside u → w.Occurs path (.tagged o tag v) (.index 1 :: steps) inside u
  | entry {path inside : List Nat} {o : Origin} {items : List Value} {i : Nat} {v u : Value}
    {steps : List Document.Step} : items[i]? = some v → w.Occurs path v steps inside u →
      w.Occurs path (.list o items) (.index i :: steps) inside u
  | field {path inside : List Nat} {a : Nat} {l : Label} {v u : Value}
    {steps : List Document.Step} : a ∉ path →
    (w.row a).access l = .ready v → w.Occurs (a :: path) v steps inside u →
      w.Occurs path (.record a) (.label l :: steps) inside u

/-- **How a document renders a value** inside some records: one of these is the cycle marker, and
any other record has all its labels in order, with its fields computed. -/
def World.Renders (w : World) (inside : List Nat) : Value → Document → Prop
  | .record a, d => (d = Eval.cycleMarker ↔ a ∈ inside) ∧
    (a ∉ inside → ∃ fields, d = .object fields ∧
      Row.labels fields = Row.labels (w.row a) ∧ ∀ l ∈ Row.labels (w.row a), ∃ u,
        (w.row a).access l = .ready u)
  | .tagged _ tag _, d => ∃ payload, d = .array [.ofString tag.label, payload]
  | .list _ items, d => ∃ ds, d = .array ds ∧ ds.length = items.length
  | v, d => v.plain? = some d

namespace World

variable {w w' : World} {path inside : List Nat} {u v : Value} {d : Document}
  {steps : List Document.Step}

/-- **What occurs in a value is depicted at its place.** -/
theorem Depicts.exists_at (h : w.Depicts path v d) (hoccurs : w.Occurs path v steps inside u) :
    ∃ part, d.at? steps = some part ∧ w.Depicts inside u part := by
  induction hoccurs generalizing d with
  | here => exact ⟨d, by rw [Document.at?], h⟩
  | payload _ ih =>
    cases h with
    | plain hd => cases hd
    | tagged hd => exact ih hd
  | @entry _ _ _ _ i _ _ _ hi _ ih =>
    cases h with
    | plain hd => cases hd
    | @list _ _ _ ds hlength hds =>
      have hd : i < ds.length := hlength ▸ (List.getElem?_eq_some_iff.mp hi).1
      obtain ⟨part, hpart, hdepicts⟩ := ih (hds i _ _ hi (List.getElem?_eq_getElem hd))
      refine ⟨part, ?_, hdepicts⟩
      rwa [Document.at?, List.getElem?_eq_getElem hd]
  | @field _ _ a l _ _ _ ha hl _ ih =>
    cases h with
    | plain hd => cases hd
    | cut hmem => exact absurd hmem ha
    | @record _ _ fields _ _ hlabels _ hfields =>
      have hlabel : l ∈ Row.labels fields :=
        hlabels ▸ LazyRow.access_ne_missing_iff.mp (by rw [hl]; nofun)
      obtain ⟨c, hc⟩ := Option.isSome_iff_exists.mp (Row.lookup_isSome_iff.mpr hlabel)
      obtain ⟨part, hpart, hdepicts⟩ := ih (hfields (l, c) (Row.mem_of_lookup hc) _ hl)
      refine ⟨part, ?_, hdepicts⟩
      rwa [Document.at?, hc]

theorem object_ne_cycleMarker
    (fields : List (Label × Document)) : Document.object fields ≠ Eval.cycleMarker :=
  nofun

/-- What depicts a value renders it. -/
theorem Depicts.renders (h : w.Depicts path v d) : w.Renders path v d := by
  cases h with
  | tagged => exact ⟨_, rfl⟩
  | list hlength => exact ⟨_, rfl, hlength⟩
  | cut ha => exact ⟨iff_of_true rfl ha, fun hne => absurd ha hne⟩
  | record ha _ hlabels hready =>
    refine ⟨iff_of_false (object_ne_cycleMarker _) ha, fun _ => ⟨_, rfl, hlabels, fun l hl => ?_⟩⟩
    obtain ⟨p, hp, rfl⟩ := List.mem_map.mp (hlabels ▸ hl)
    exact hready p hp
  | plain hd =>
    cases v with
    | tagged | list | record => cases hd
    | _ => exact hd

end World

namespace Eval

variable {w : World} {v : Value}

/-- **The document of a value cuts exactly its cycles.** A value that can be read to its end has a
document with enough levels, and whatever occurs in the value is rendered at its place. -/
theorem cuts_exactly_cycles (h : w.Readable v) : ∃ n d w',
    (∀ k, n ≤ k → (document k [] v).run w = (.ok d, w')) ∧ w.Unfolds v w' ∧
      ∀ steps inside u, w'.Occurs [] v steps inside u →
        ∃ part, d.at? steps = some part ∧ w'.Renders inside u part := by
  obtain ⟨d, w', ⟨n, hn⟩, hw', -, hd⟩ := succeeds_document h [] v .unread (.itself v)
  refine ⟨n, d, w', hn, hw', fun steps inside u hoccurs => ?_⟩
  obtain ⟨part, hpart, hdepicts⟩ := hd.exists_at hoccurs
  exact ⟨part, hpart, hdepicts.renders⟩

/-- A record that is shared, and one that holds itself. -/
private def knot : Expr := .bindIn (.name "r") (.record [("n", .number (.int 1))])
  (.record [("all", .list [.var "r", .apply (.tag "t") (.var "r"), .var "this"])])

/-- The world in which the two have been made. -/
private def knotted : World := ((eval 30 (.ofRoot none) ⟨.before, knot⟩).run {}).2

/-- That world, after some of their fields have been read. -/
private def knottedRead (all n : Bool) : World :=
  let w := if all then ((force 30 2 "all").run knotted).2 else knotted
  if n then ((force 30 1 "n").run w).2 else w

private theorem labels_knottedRead (all n : Bool) : (knottedRead all n).records.size = 3 ∧
    Row.labels ((knottedRead all n).row 1) = ["n"] ∧
    Row.labels ((knottedRead all n).row 2) = ["all"] := by
  cases all <;> cases n <;> exact ⟨rfl, rfl, rfl⟩

private theorem force_knottedRead (all n : Bool) :
    (force 30 1 "n").run (knottedRead all n)
      = (.ok (.int { birth := 0, place := [0, 0] } 1), knottedRead all true) ∧
    (force 30 2 "all").run (knottedRead all n) = (.ok (.list { birth := 3 } [.record 1,
      .tagged { birth := 2 } ⟨"t", { birth := 0, place := [0, 0, 1, 0, 1] }⟩ (.record 1),
        .record 2]),
        knottedRead true n) := by
  cases all <;> cases n <;> exact ⟨rfl, rfl⟩

private theorem readable_knotted : knotted.Readable (.record 2) := by
  refine readable_of_invariant (K := [1, 2]) (I := fun w => ∃ all n, w = knottedRead all n)
    (.record (by decide))
    ⟨false, false, rfl⟩ ?_ ?_
  · rintro _ ⟨all, n, rfl⟩ a ha
    have hsize := (labels_knottedRead all n).1
    exact lt_of_lt_of_eq (by grind) hsize.symm
  · rintro _ ⟨all, n, rfl⟩ a ha l hl
    obtain ⟨-, hrecord, hthis⟩ := labels_knottedRead all n
    obtain ⟨hn, hall⟩ := force_knottedRead all n
    obtain rfl | rfl : a = 1 ∨ a = 2 := by simpa using ha
    · rw [hrecord, List.mem_singleton] at hl
      subst hl
      exact ⟨30, _, _, hn, .int, all, true, rfl⟩
    · rw [hthis, List.mem_singleton] at hl
      subst hl
      refine ⟨30, _, _, hall, .list ?_, true, n, rfl⟩
      rintro v (_ | ⟨_, _ | ⟨_, _ | ⟨_, ⟨⟩⟩⟩⟩)
      exacts [.record (by decide), .tagged (.record (by decide)), .record (by decide)]

private theorem eval_knot : (eval 30 (.ofRoot none) ⟨.before, knot⟩).run
    {} = (.ok (.record 2), knotted) := by
  rfl

set_option maxRecDepth 4000 in
/-- A record that occurs twice in another one, which occurs in itself. -/
theorem cuts_exactly_cycles_of_knot :
    Expr.parse "let r = \x7bn: 1\x7d; \x7ball: [r, #t r, this]\x7d".toList = .ok knot ∧
    (eval 30 (.ofRoot none) ⟨.before, knot⟩).run {} = (.ok (.record 2), knotted) ∧
    knotted.Readable (.record 2) ∧ ∃ n d w',
      (∀ k, n ≤ k → (document k [] (.record 2)).run knotted = (.ok d, w')) ∧
        knotted.Unfolds (.record 2) w' ∧
        ∀ steps inside u, w'.Occurs [] (.record 2) steps inside u →
          ∃ part, d.at? steps = some part ∧ w'.Renders inside u part :=
  ⟨by rfl, eval_knot, readable_knotted, cuts_exactly_cycles readable_knotted⟩

/-- Two tagged records, joined. -/
private def joined : Expr := .apply (.op .plus) (.tuple
  [.apply (.tag "a") (.record [("x", .number (.int 1))]), .apply (.tag "b") (.record [])])

/-- The world in which they have been joined, and after the field of one has been read. -/
private def joinedRead (x : Bool) : World :=
  let w := ((eval 30 (.ofRoot none) ⟨.before, joined⟩).run {}).2
  if x then ((force 30 2 "x").run w).2 else w

private theorem labels_joinedRead (x : Bool) : (joinedRead x).records.size = 4 ∧
    Row.labels ((joinedRead x).row 2) = ["x"] ∧ Row.labels ((joinedRead x).row 3) = [] := by
  cases x <;> exact ⟨rfl, rfl, rfl⟩

private theorem force_joinedRead (x : Bool) : (force 30 2 "x").run (joinedRead x)
    = (.ok (.int { birth := 0, place := [0, 1, 0, 1] } 1), joinedRead true) := by
  cases x <;> rfl

/-- What they are joined to. -/
private def joinedPair : Value :=
  .tuple { birth := 5 } [.text { birth := 0, place := [0, 0, 0, 1] } [97],
  .record 2, .text { birth := 0, place := [0, 0, 1, 1] } [98], .record 3]

private theorem readable_joined : (joinedRead false).Readable joinedPair := by
  have hpair : joinedPair.Scoped (· ∈ [2, 3]) := by
    refine .tuple ?_
    rintro v (_ | ⟨_, _ | ⟨_, _ | ⟨_, _ | ⟨_, ⟨⟩⟩⟩⟩⟩)
    exacts [.text, .record (by decide), .text, .record (by decide)]
  refine readable_of_invariant (I := fun w => ∃ x, w = joinedRead x) hpair ⟨false, rfl⟩ ?_ ?_
  · rintro _ ⟨x, rfl⟩ a ha
    exact lt_of_lt_of_eq (by grind) (labels_joinedRead x).1.symm
  · rintro _ ⟨x, rfl⟩ a ha l hl
    obtain ⟨-, hx, hempty⟩ := labels_joinedRead x
    obtain rfl | rfl : a = 2 ∨ a = 3 := by simpa using ha
    · rw [hx, List.mem_singleton] at hl
      subst hl
      exact ⟨30, _, _, force_joinedRead x, .int, true, rfl⟩
    · rw [hempty] at hl
      cases hl

private theorem eval_joined :
    (eval 30 (.ofRoot none) ⟨.before, joined⟩).run {} = (.ok joinedPair, joinedRead false) := by
  rfl

/-- **A record in a tuple is not rendered**, although no record is inside itself: a tuple is what
two tagged values are joined to. -/
theorem not_rendered_of_tuple :
    Expr.parse "#a \x7bx: 1\x7d + #b \x7b\x7d".toList = .ok joined ∧
    (eval 30 (.ofRoot none) ⟨.before, joined⟩).run {} = (.ok joinedPair, joinedRead false) ∧
    (joinedRead false).Readable joinedPair ∧ ∃ o items d part,
      joinedPair = .tuple o items ∧ items[1]? = some (.record 2) ∧
      (∀ k, 1 ≤ k → (document k [] joinedPair).run (joinedRead false) = (.ok d, joinedRead false)) ∧
      d.at? [.index 1] = some part ∧ ¬ (joinedRead false).Renders [] (.record 2) part := by
  refine ⟨by rfl, eval_joined, readable_joined, _, _, joinedPair.asItIs,
    .alien "LazyRecord", rfl, rfl,
    fun k hk => ?_, rfl, ?_⟩
  · obtain ⟨k, rfl⟩ := Nat.exists_eq_add_of_le' hk
    have hplain : joinedPair.plain? = some joinedPair.asItIs := rfl
    rw [document_succ, documentBy_plain hplain]
    rfl
  · rintro ⟨-, hfull⟩
    obtain ⟨fields, hfields, -⟩ := hfull List.not_mem_nil
    cases hfields

end Eval

end RowLang
