import Mathlib.Data.Set.Finite.Basic
import RowLang.Proofs.Eval.Clauses
import RowLang.Proofs.Eval.Deeper
import RowLang.Proofs.Eval.Shown
import RowLang.Proofs.Value.Scoped

/-!
# Proofs/Eval/Unfolded — values that are read to their end

Whoever reads the fields of the records that a value shows, one after the other, unfolds the value
(`World.Unfolds`).  A value can be read to its end when it shows finitely many records, however it
is unfolded, and each field of these can be computed (`World.Readable`).  Then its document comes
about with enough levels (`Eval.succeeds_document`): in a list or a tagged value there is less to
go, and in a record there is one record less to go into, since it is cut where it is met again
inside itself.  What the document is of the value is said by `World.Depicts`.
-/

namespace RowLang

/-! ## Unfolding -/

/-- **What a world becomes** when a value is unfolded: fields are read, with success, of the records
that the value shows. -/
inductive World.Unfolds (v : Value) (w : World) : World → Prop
  | unread : Unfolds v w w
  | field {w' w'' : World} {a depth : Nat} {l : Label} {u : Value} : Unfolds v w w' →
    w'.Shows v (.record a) →
      (Eval.force depth a l).run w' = (.ok u, w'') → Unfolds v w w''

/-- **A value can be read to its end.** -/
structure World.Readable (v : Value) (w : World) : Prop where
  /-- Finitely many records are shown, however the value is unfolded. -/
  finite : {a | ∃ w', w.Unfolds v w' ∧ w'.Shows v (.record a)}.Finite
  /-- A record that is shown is there. -/
  stored : ∀ w' a, w.Unfolds v w' → w'.Shows v (.record a) → w'.Has (.record a)
  computable : ∀ w' a l, w.Unfolds v w' → w'.Shows v (.record a) → l ∈ Row.labels (w'.row a) →
    ∃ depth u w'', (Eval.force depth a l).run w' = (.ok u, w'')

/-! ## Documents of values -/

/-- **A document depicts a value** inside the records of a path: all its fields are computed, and a
record inside itself is cut. -/
inductive World.Depicts (w : World) : List Nat → Value → Document → Prop where
  | tagged {path : List Nat} {o : Origin} {tag : Tag} {payload : Value} {d : Document} :
    w.Depicts path payload d →
      w.Depicts path (.tagged o tag payload) (.array [.ofString tag.label, d])
  | list {path : List Nat} {o : Origin} {items : List Value} {ds : List Document} :
    ds.length = items.length →
      (∀ (i : Nat) v d, items[i]? = some v → ds[i]? = some d → w.Depicts path v d) →
      w.Depicts path (.list o items) (.array ds)
  | cut {path : List Nat} {a : Nat} : a ∈ path → w.Depicts path (.record a) Eval.cycleMarker
  | record {path : List Nat} {a : Nat} {fields : List (Label × Document)} : a ∉ path →
    w.Has (.record a) →
    Row.labels fields = Row.labels (w.row a) →
      (∀ p ∈ fields, ∃ u, (w.row a).access p.1 = .ready u) →
      (∀ p ∈ fields, ∀ u, (w.row a).access p.1 = .ready u → w.Depicts (a :: path) u p.2) →
        w.Depicts path (.record a) (.object fields)
  | plain {path : List Nat} {v : Value} {d : Document} : v.plain? = some d → w.Depicts path v d

namespace World

variable {w w' : World} {path : List Nat} {v : Value} {d : Document}

/-- What a value is depicted by does not change. -/
theorem Depicts.mono (h : w.Depicts path v d) (hw : w.Precedes w') : w'.Depicts path v d := by
  induction h with
  | tagged _ ih => exact .tagged ih
  | list hlength _ ih => exact .list hlength ih
  | cut ha => exact .cut ha
  | record ha hhas hlabels hready _ ih =>
    refine .record ha (hw.has _ hhas) (hlabels.trans (hw.labels_eq hhas).symm)
      (fun p hp => ?_) fun p hp u hu => ?_
    · obtain ⟨u, hu⟩ := hready p hp
      exact ⟨u, hw.ready _ _ _ hu⟩
    · obtain ⟨u', hu'⟩ := hready p hp
      obtain rfl : u' = u := Access.ready.inj ((hw.ready _ _ _ hu').symm.trans hu)
      exact ih p hp u' hu'
  | plain hd => exact .plain hd

/-- A field of a record, as it stands in a document that depicts the record. -/
def DepictsField (w : World) (path : List Nat) (a : Nat) (l : Label)
    (p : Label × Document) : Prop :=
  l = p.1 ∧ ∃ u, (w.row a).access l = .ready u ∧ w.Depicts (a :: path) u p.2

theorem DepictsField.mono {a : Nat} {l : Label} {p : Label × Document}
    (h : w.DepictsField path a l p) (hw : w.Precedes w') : w'.DepictsField path a l p := by
  obtain ⟨rfl, u, hu, hd⟩ := h
  exact ⟨rfl, u, hw.ready _ _ _ hu, hd.mono hw⟩

/-- A record is depicted field by field. -/
theorem depicts_record {a : Nat} {fields : List (Label × Document)} (ha : a ∉ path)
    (hhas : w.Has (.record a))
    (h : List.Forall₂ (w.DepictsField path a) (Row.labels (w.row a)) fields) :
    w.Depicts path (.record a) (.object fields) := by
  have hlabels : Row.labels (w.row a) = Row.labels fields := by
    have hfst : List.Forall₂ (fun l (p : Label × Document) => l = p.1)
      (Row.labels (w.row a)) fields :=
      h.imp fun l p hp => hp.1
    rwa [← List.forall₂_map_right_iff, List.forall₂_eq_eq_eq] at hfst
  have hfield : ∀ p ∈ fields, ∃ u, (w.row a).access p.1 = .ready u ∧
    w.Depicts (a :: path) u p.2 := by
    intro p hp
    obtain ⟨i, hi, rfl⟩ := List.mem_iff_getElem.mp hp
    obtain ⟨hl, hu⟩ := h.get (h.length_eq.symm ▸ hi) hi
    exact (show _ = fields[i].1 from hl) ▸ hu
  refine .record ha hhas hlabels.symm (fun p hp => ?_) fun p hp u hu => ?_
  · obtain ⟨u, hu, -⟩ := hfield p hp
    exact ⟨u, hu⟩
  · obtain ⟨u', hu', hd⟩ := hfield p hp
    exact Access.ready.inj (hu'.symm.trans hu) ▸ hd

end World

namespace Eval

variable {α β : Type} {v₀ : Value} {w₀ w w' w'' : World}

/-! ## Values that stay within some records -/

/-- What a value shows stays within some records, if their fields do. -/
theorem scoped_of_shows {K : Nat → Prop} {u v : Value} (h : w.Shows v u)
    (hready : ∀ a, K a → ∀ l u, (w.row a).access l = .ready u → u.Scoped K) (hv : v.Scoped K) :
    u.Scoped K := by
  induction h with
  | itself => exact hv
  | payload _ ih =>
    cases hv with
    | tagged hv => exact ih hv
  | entry hmem _ ih =>
    cases hv with
    | list hv => exact ih (hv _ hmem)
  | item hmem _ ih =>
    cases hv with
    | tuple hv => exact ih (hv _ hmem)
  | field hl _ ih =>
    cases hv with
    | record ha => exact ih (hready _ ha _ _ hl)

/-- **A value that stays within some records can be read to its end**, if their fields can be
computed in any order, to values that stay within them: in each world that this leads to. -/
theorem readable_of_invariant {v : Value} {K : List Nat} {I : World → Prop}
    (hv : v.Scoped (· ∈ K)) (hw : I w) (hhas : ∀ w', I w' → ∀ a ∈ K, w'.Has (.record a))
    (hforce : ∀ w', I w' → ∀ a ∈ K, ∀ l ∈ Row.labels (w'.row a), ∃ depth u w'',
      (force depth a l).run w' = (.ok u, w'') ∧ u.Scoped (· ∈ K) ∧ I w'') : w.Readable v := by
  have hready : ∀ w', I w' → ∀ a ∈ K, ∀ l u, (w'.row a).access l = .ready u → u.Scoped (· ∈ K) := by
    intro w' hI a ha l u hl
    have hread : (force 1 a l).run w' = (.ok u, w') := by
      rw [force_eq]
      exact run_forceBy_ready hl
    obtain ⟨depth, u', w'', hrun, hu, -⟩ := hforce w' hI a ha l (mem_labels_of_force hread)
    exact (force_unique hrun hread).1 ▸ hu
  have hmem : ∀ w', I w' → ∀ a, w'.Shows v (.record a) → a ∈ K := fun w' hI a ha => by
    cases scoped_of_shows ha (hready w' hI) hv with
    | record ha => exact ha
  have hunfolds : ∀ w', w.Unfolds v w' → I w' := fun w' h => by
    induction h with
    | unread => exact hw
    | field _ ha hrun ih =>
      obtain ⟨depth, u, w'', hrun', -, hI⟩ :=
        hforce _ ih _ (hmem _ ih _ ha) _ (mem_labels_of_force hrun)
      exact (force_unique hrun' hrun).2 ▸ hI
  refine ⟨(List.finite_toSet K).subset ?_, fun w' a h ha => ?_, fun w' a l h ha hl => ?_⟩
  · rintro a ⟨w', h, ha⟩
    exact hmem w' (hunfolds w' h) a ha
  · exact hhas w' (hunfolds w' h) a (hmem w' (hunfolds w' h) a ha)
  · obtain ⟨depth, u, w'', hrun, -⟩ :=
      hforce w' (hunfolds w' h) a (hmem w' (hunfolds w' h) a ha) l hl
    exact ⟨depth, u, w'', hrun⟩

/-! ## Enough levels -/

/-- A computation comes to a result in a world with enough levels. -/
def Settles (m : Nat → Evaluating α) (w : World) (x : α) (w' : World) : Prop :=
  ∃ n, ∀ k, n ≤ k → (m k).run w = (.ok x, w')

/-- One level more makes no difference. -/
theorem Settles.succ {m : Nat → Evaluating α} {x : α} (h : Settles (fun k => m (k + 1)) w x w') :
    Settles m w x w' := by
  obtain ⟨n, hn⟩ := h
  refine ⟨n + 1, fun k hk => ?_⟩
  obtain ⟨k, rfl⟩ := Nat.exists_eq_add_of_le' hk
  exact hn (k + n) (Nat.le_add_left n k)

/-- A computation comes to a result with enough levels, and the value `v₀` is unfolded meanwhile. -/
def Succeeds (v₀ : Value) (w₀ : World) (m : Nat → Evaluating α) (w : World)
    (post : World → α → Prop) : Prop :=
  ∃ x w', Settles m w x w' ∧ w₀.Unfolds v₀ w' ∧ w.Precedes w' ∧ post w' x

variable {post post' : World → α → Prop} {post₂ : World → β → Prop} {m : Nat → Evaluating α}

theorem succeeds_pure {x : α} (hw : w₀.Unfolds v₀ w) (hx : post w x) :
    Succeeds v₀ w₀ (fun _ => pure x) w post := ⟨x, w, ⟨0, fun _ _ => rfl⟩, hw, .refl w, hx⟩

theorem Succeeds.succ
    (h : Succeeds v₀ w₀ (fun k => m (k + 1)) w post) : Succeeds v₀ w₀ m w post := by
  obtain ⟨x, w', hx, hrest⟩ := h
  exact ⟨x, w', hx.succ, hrest⟩

theorem Succeeds.bind {f : Nat → α → Evaluating β} (h : Succeeds v₀ w₀ m w post)
    (hf : ∀ x w', w₀.Unfolds v₀ w' → w.Precedes w' → post w' x → Succeeds v₀ w₀
      (fun k => f k x) w' post₂) :
    Succeeds v₀ w₀ (fun k => m k >>= f k) w post₂ := by
  obtain ⟨x, mid, ⟨n, hn⟩, hmid, hle, hx⟩ := h
  obtain ⟨y, w', ⟨n', hn'⟩, hw', hle', hy⟩ := hf x mid hmid hle hx
  refine ⟨y, w', ⟨max n n', fun k hk => ?_⟩, hw', hle.trans hle', hy⟩
  exact Run.run_bind_eq_ok.mpr ⟨x, mid, hn k (le_of_max_le_left hk), hn' k (le_of_max_le_right hk)⟩

/-- Looking at the world. -/
theorem succeeds_get {f : Nat → World → Evaluating α} (h : Succeeds v₀ w₀ (fun k => f k w) w post) :
    Succeeds v₀ w₀ (fun k => get >>= f k) w post := h

/-- One after the other, each in a world that the ones before have left. -/
theorem succeeds_mapM {f : Nat → α → Evaluating β} {R : World → α → β → Prop}
    (hR : ∀ {w w' x y}, R w x y → w.Precedes w' → R w' x y) :
    ∀ {xs : List α} {w}, w₀.Unfolds v₀ w →
      (∀ x ∈ xs, ∀ w', w₀.Unfolds v₀ w' → w.Precedes w' →
        Succeeds v₀ w₀ (fun k => f k x) w' fun w'' y => R w'' x y) →
        Succeeds v₀ w₀ (fun k => xs.mapM (f k)) w fun w' ys => List.Forall₂ (R w') xs ys
  | [], w, hw, _ => by
    simp only [List.mapM_nil]
    exact succeeds_pure hw .nil
  | x :: xs, w, hw, h => by
    simp only [List.mapM_cons]
    refine (h x List.mem_cons_self w hw (.refl w)).bind fun y w₁ hw₁ hle₁ hy => ?_
    refine (succeeds_mapM (R := R) hR hw₁ fun x hx w' hw' hle => h x
      (List.mem_cons_of_mem _ hx) w' hw'
      (hle₁.trans hle)).bind fun ys w₂ hw₂ hle₂ hys => ?_
    exact succeeds_pure hw₂ (.cons (hR hy hle₂) hys)

/-! ## Documents come about -/

/-- A field of a record that is shown is computed. -/
theorem succeeds_force (h : w₀.Readable v₀) {a : Nat} {l : Label} (hw : w₀.Unfolds v₀ w)
    (ha : w.Shows v₀ (.record a)) (hl : l ∈ Row.labels (w.row a)) :
    Succeeds v₀ w₀ (fun k => force k a l) w fun w' u => (w'.row a).access l = .ready u := by
  obtain ⟨depth, u, w', hrun⟩ := h.computable w a l hw ha hl
  exact ⟨u, w', ⟨depth, fun k hk => run_force_of_le hrun hk⟩, hw.field ha hrun,
    precedes_of_force hrun,
    ready_of_force hrun⟩

/-- What has been gone into is not gone into again. -/
theorem card_unvisited_lt {s : Finset Nat} {path : List Nat} {a : Nat} (ha : a ∈ s)
    (hpath : a ∉ path) :
    (s \ (a :: path).toFinset).card < (s \ path.toFinset).card := by
  refine Finset.card_lt_card (Finset.ssubset_iff_subset_ne.mpr ⟨fun b hb => ?_, fun he => ?_⟩)
  · simp only [List.toFinset_cons, Finset.mem_sdiff, Finset.mem_insert, not_or] at hb ⊢
    exact ⟨hb.1, hb.2.2⟩
  · have hmem : a ∈ s \ path.toFinset := Finset.mem_sdiff.mpr ⟨ha, by simpa using hpath⟩
    rw [← he] at hmem
    simp at hmem

section Document

variable {path : List Nat}

/-- A list is depicted entry by entry. -/
theorem succeeds_list (hw : w₀.Unfolds v₀ w) (o : Origin) {items : List Value}
    (ih : ∀ v ∈ items, ∀ w', w₀.Unfolds v₀ w' → w.Precedes w' →
      Succeeds v₀ w₀ (fun k => document k path v) w' fun w'' d => w''.Depicts path v d) :
    Succeeds v₀ w₀ (fun k => document (k + 1) path (.list o items)) w
      fun w' d => w'.Depicts path (.list o items) d := by
  simp only [document_succ, documentBy, document_within]
  refine (succeeds_mapM (R := fun w v d => w.Depicts path v d) (fun hd => hd.mono) hw ih).bind
    fun ds w' hw' _ hds => succeeds_pure hw' (.list hds.length_eq.symm fun i v d hi hd => ?_)
  obtain ⟨hi, rfl⟩ := List.getElem?_eq_some_iff.mp hi
  obtain ⟨hd, rfl⟩ := List.getElem?_eq_some_iff.mp hd
  exact hds.get _ _

/-- A record is depicted field by field; each field is computed, and then depicted inside the
record. -/
theorem succeeds_record (h : w₀.Readable v₀) {a : Nat} (hw : w₀.Unfolds v₀ w)
    (ha : w.Shows v₀ (.record a)) (hpath : a ∉ path)
    (ih : ∀ u w', w₀.Unfolds v₀ w' → w'.Shows v₀ u →
      Succeeds v₀ w₀ (fun k => document k (a :: path) u) w' fun w'' d =>
        w''.Depicts (a :: path) u d) :
    Succeeds v₀ w₀ (fun k => document (k + 1) path (.record a)) w
      fun w' d => w'.Depicts path (.record a) d := by
  have hhas := h.stored w a hw ha
  simp only [document_succ, documentBy, document_within, force_within, Host.plainly_plain,
    List.contains_iff_mem, hpath, if_false]
  refine succeeds_get ?_
  refine (succeeds_mapM (R := fun w l p => w.DepictsField path a l p) (fun hd hle => hd.mono hle) hw
    fun l hl w₁ hw₁ hle₁ => ?_).bind fun fields w' hw' hle hfields => succeeds_pure hw' ?_
  · have ha₁ := ha.of_ready hle₁.ready
    refine (succeeds_force h hw₁ ha₁ (hle₁.labels_eq hhas ▸ hl)).bind fun u w₂ hw₂ hle₂ hu => ?_
    have hshows : w₂.Shows v₀ u := (ha₁.of_ready hle₂.ready).trans (.field hu (.itself u))
    refine (ih u w₂ hw₂ hshows).bind fun d w₃ hw₃ hle₃ hd => succeeds_pure hw₃ ?_
    exact ⟨rfl, u, hle₃.ready _ _ _ hu, hd⟩
  · exact World.depicts_record hpath (hle.has _ hhas) (hle.labels_eq hhas ▸ hfields)

/-- **The document of a value comes about**, if the value can be read to its end, and it depicts the
value. -/
theorem succeeds_document (h : w₀.Readable v₀) (path : List Nat) (v : Value) {w : World}
    (hw : w₀.Unfolds v₀ w) (hv : w.Shows v₀ v) :
    Succeeds v₀ w₀ (fun k => document k path v) w fun w' d => w'.Depicts path v d := by
  refine Succeeds.succ ?_
  cases hplain : v.plain? with
  | some d =>
    simp only [document_succ, documentBy_plain hplain]
    exact succeeds_pure hw (.plain hplain)
  | none =>
    match v, hv with
    | .tagged o ⟨l, p⟩ payload, hv =>
      simp only [document_succ, documentBy, document_within]
      exact (succeeds_document h path payload hw (hv.trans (.payload (.itself _)))).bind
        fun d w' hw' _ hd => succeeds_pure hw' (.tagged hd)
    | .list o items, hv =>
      exact succeeds_list hw o fun v hmem w' hw' hle => succeeds_document h path v hw'
        ((hv.of_ready hle.ready).trans (.entry hmem (.itself v)))
    | .record a, hv =>
      by_cases ha : a ∈ path
      · simp only [document_succ, documentBy, document_within, force_within, Host.plainly_plain,
          List.contains_iff_mem, ha, if_true]
        exact succeeds_pure hw (.cut ha)
      · exact succeeds_record h hw hv ha fun u w' hw' hu => succeeds_document h (a :: path) u hw' hu
-- a record that is gone into was not on the path before, and elsewhere the value gets smaller
termination_by ((h.finite.toFinset \ path.toFinset).card, SizeOf.sizeOf v)
decreasing_by
  · refine Prod.Lex.right _ ?_
    rw [Value.tagged.sizeOf_spec]
    omega
  · have hlt := List.sizeOf_lt_of_mem hmem
    refine Prod.Lex.right _ ?_
    rw [Value.list.sizeOf_spec]
    omega
  · exact Prod.Lex.left _ _ (card_unvisited_lt (h.finite.mem_toFinset.mpr ⟨w, hw, hv⟩) ha)

end Document

end Eval

end RowLang
