import RowLang.Proofs.Eval.Contained
import RowLang.Proofs.Eval.Discipline
import RowLang.Proofs.Value.Like

/-!
# Proofs/Eval/Moment — worlds as time goes by

Evaluation makes things, computes fields and loads modules, and none of that is ever taken back,
however it ends (`World.Precedes`); what is being computed or loaded when it ends is what was when
it began (`World.Steady`).  Each thing was made in the computation of a field, in the loading of a
module or in a program itself: its `Maker`.  A world and the makers of its things are a `Moment`.
-/

namespace RowLang

/-! ## Things -/

/-- Whether a world has a thing. -/
def World.Has (w : World) : Thing → Prop
  | .record a => a < w.records.size
  | .birth n => n < w.births
  | .resolver k => k < w.resolvers.size

/-- The things of a world, each matched with itself. -/
def World.itself (w : World) : Matching := fun x y => x = y ∧ w.Has x

theorem World.unique_itself (w : World) : w.itself.Unique where
  right h h' := h.1.symm.trans h'.1
  left h h' := h.1.trans h'.1.symm

/-! ## Records -/

namespace StoredRecord

variable {r r' r'' : StoredRecord} {l : Label} {β : Matching}

/-- The fields of a record, whatever has been computed of them. -/
def fields (r : StoredRecord) : Row Code := Row.mapValues (·.initializer) r.row

/-- The same record, but for what has been computed. -/
structure Kin (r r' : StoredRecord) : Prop where
  scope : r'.scope = r.scope
  seesItself : r'.seesItself = r.seesItself
  fields : r'.fields = r.fields

/-- Records of fields that match, whatever has been computed of them. -/
structure Matches (β : Matching) (r r' : StoredRecord) : Prop where
  scope : Env.Matches β r.scope r'.scope
  seesItself : r.seesItself = r'.seesItself
  fields : Row.Matches (Code.Matches β) r.fields r'.fields

theorem Kin.refl (r : StoredRecord) : r.Kin r := ⟨rfl, rfl, rfl⟩

theorem Kin.symm (h : r.Kin r') : r'.Kin r := ⟨h.scope.symm, h.seesItself.symm, h.fields.symm⟩

theorem Kin.trans (h : r.Kin r') (h' : r'.Kin r'') : r.Kin r'' :=
  ⟨h'.scope.trans h.scope, h'.seesItself.trans h.seesItself, h'.fields.trans h.fields⟩

theorem Matches.mono {β' : Matching} (h : r.Matches β r') (hβ : β ≤ β') : r.Matches β' r' :=
  ⟨h.scope.mono hβ, h.seesItself, Row.Matches.mono h.fields fun _ _ hc => hc.mono hβ⟩

theorem Matches.of_kin (h : r.Matches β r') (h' : r'.Kin r'') : r.Matches β r'' where
  scope := h'.scope ▸ h.scope
  seesItself := h.seesItself.trans h'.seesItself.symm
  fields := h'.fields ▸ h.fields

theorem Matches.kin_of (h : r.Matches β r') (h' : r.Kin r'') : r''.Matches β r' where
  scope := h'.scope ▸ h.scope
  seesItself := h'.seesItself.trans h.seesItself
  fields := h'.fields ▸ h.fields

theorem labels_fields (r : StoredRecord) : Row.labels r.fields = Row.labels r.row :=
  Row.labels_mapValues _ _

theorem lookup_fields (r : StoredRecord) (l : Label) :
    r.fields.lookup l = (List.lookup l r.row).map (·.initializer) := LazyRow.lookup_initializers _ _

/-- Another cell is no other field. -/
theorem kin_setCell (r : StoredRecord) (l : Label) (c : Cell Value) :
    r.Kin { r with row := r.row.setCell l c } := ⟨rfl, rfl, LazyRow.initializers_setCell r.row l c⟩

theorem fields_ofRow (scope : Env) (seesItself : Bool) (row : Row Code) :
    fields ⟨scope, seesItself, .ofRow row⟩ = row := LazyRow.initializers_ofRow row

end StoredRecord

/-! ## Rows of the store -/

namespace World

variable {w w' w'' : World} {a : Nat} {l : Label} {c : Cell Value}

theorem row_of_getElem? {r : StoredRecord} (h : w.records[a]? = some r) : w.row a = r.row := by
  rw [row, h]
  rfl

theorem exists_of_access {r : Access Code Value} (h : (w.row a).access l = r) (hr : r ≠ .missing) :
    ∃ s, w.records[a]? = some s ∧ w.row a = s.row := by
  cases hs : w.records[a]? with
  | some s => exact ⟨s, rfl, row_of_getElem? hs⟩
  | none =>
    rw [row, hs] at h
    exact absurd h.symm hr

theorem has_of_getElem? {r : StoredRecord} (h : w.records[a]? = some r) : w.Has (.record a) :=
  (Array.getElem?_eq_some_iff.mp h).1

theorem exists_of_has (h : w.Has (.record a)) : ∃ r, w.records[a]? = some r :=
  ⟨_, Array.getElem?_eq_getElem h⟩

theorem access_setCell_of_ne {b : Nat} {k : Label} (h : ¬ (a = b ∧ k = l)) :
    ((w.setCell a l c).row b).access k = (w.row b).access k := by
  rw [row_setCell]
  split
  case isTrue hab => exact LazyRow.access_setCell_of_ne _ fun hk => h ⟨hab, hk⟩
  case isFalse => rfl

theorem access_setCell_self (h : l ∈ Row.labels (w.row a)) (c : Cell Value) :
    (c = .inProgress → ((w.setCell a l c).row a).access l = .circular) ∧
    (∀ v, c = .ready v → ((w.setCell a l c).row a).access l = .ready v) ∧
    (c = .absent → ∃ i, ((w.setCell a l c).row a).access l = .start i) := by
  rw [row_setCell, if_pos rfl]
  exact LazyRow.access_setCell_self h c

theorem getElem?_setCell (w : World) (a : Nat) (l : Label) (c : Cell Value) (b : Nat) :
    (w.setCell a l c).records[b]?
      = (w.records[b]?).map fun r => if a = b then { r with row := r.row.setCell l c } else r := by
  rw [setCell, Array.getElem?_modify]
  split
  · rfl
  · simp

@[simp] theorem resolver_setCell (k : Nat) : (w.setCell a l c).resolver k = w.resolver k := rfl

@[simp] theorem library_setCell : (w.setCell a l c).library = w.library := rfl

theorem has_setCell_iff {x : Thing} : (w.setCell a l c).Has x ↔ w.Has x := by
  cases x with
  | record b => simp [Has, setCell]
  | _ => exact Iff.rfl

/-! ## What is never taken back -/

/-- **What a world has and has computed, a later one has**, whatever happened in between. -/
structure Precedes (w w' : World) : Prop where
  has : ∀ x, w.Has x → w'.Has x
  records : ∀ (a : Nat) (r : StoredRecord), w.records[a]? = some r →
    ∃ r', w'.records[a]? = some r' ∧ r.Kin r'
  ready : ∀ a l v, (w.row a).access l = .ready v → (w'.row a).access l = .ready v
  loaded : ∀ k name v, (w.resolver k).loaded.lookup name = some v →
    (w'.resolver k).loaded.lookup name = some v
  library : w'.library = w.library
  machine : w'.machine = w.machine

/-- **What is underway in a world is so in another one**: the fields that are being computed and the
modules under construction. -/
structure Steady (w w' : World) : Prop where
  circular : ∀ a l, (w'.row a).access l = .circular ↔ (w.row a).access l = .circular
  construction : ∀ k, (w'.resolver k).construction = (w.resolver k).construction

theorem Precedes.refl (w : World) : w.Precedes w :=
  ⟨fun _ h => h, fun _ r h => ⟨r, h, .refl r⟩, fun _ _ _ h => h, fun _ _ _ h => h, rfl, rfl⟩

theorem Precedes.trans (h : w.Precedes w') (h' : w'.Precedes w'') : w.Precedes w'' where
  has x hx := h'.has x (h.has x hx)
  records a r hr := by
    obtain ⟨r', hr', hkin⟩ := h.records a r hr
    obtain ⟨r'', hr'', hkin'⟩ := h'.records a r' hr'
    exact ⟨r'', hr'', hkin.trans hkin'⟩
  ready a l v hv := h'.ready a l v (h.ready a l v hv)
  loaded k name v hv := h'.loaded k name v (h.loaded k name v hv)
  library := h'.library.trans h.library
  machine := h'.machine.trans h.machine

theorem Precedes.itself_le (h : w.Precedes w') : w.itself ≤ w'.itself :=
  fun x _ hx => ⟨hx.1, h.has x hx.2⟩

/-- A record has the labels in a later world that it has. -/
theorem Precedes.labels_eq (h : w.Precedes w') (ha : w.Has (.record a)) :
    Row.labels (w'.row a) = Row.labels (w.row a) := by
  obtain ⟨r, hr⟩ := exists_of_has ha
  obtain ⟨r', hr', hkin⟩ := h.records a r hr
  rw [row_of_getElem? hr, row_of_getElem? hr', ← r.labels_fields, ← r'.labels_fields, hkin.fields]

theorem Steady.refl (w : World) : w.Steady w := ⟨fun _ _ => Iff.rfl, fun _ => rfl⟩

theorem Steady.trans (h : w.Steady w') (h' : w'.Steady w'') : w.Steady w'' :=
  ⟨fun a l => (h'.circular a l).trans (h.circular a l), fun k =>
    (h'.construction k).trans (h.construction k)⟩

/-- What does not count as time. -/
theorem precedes_of_eq (hrecords : w'.records = w.records) (hbirths : w.births ≤ w'.births)
    (hresolvers : w'.resolvers = w.resolvers) (hlibrary : w'.library = w.library)
    (hmachine : w'.machine = w.machine) : w.Precedes w' where
  has x hx := by
    cases x with
    | record a => rwa [Has, hrecords]
    | birth n => exact Nat.lt_of_lt_of_le hx hbirths
    | resolver k => rwa [Has, hresolvers]
  records a r hr := ⟨r, hrecords ▸ hr, .refl r⟩
  ready a l v hv := by rwa [row, hrecords]
  loaded k name v hv := by rwa [resolver, hresolvers]
  library := hlibrary
  machine := hmachine

theorem steady_of_eq (hrecords : w'.records = w.records) (hresolvers : w'.resolvers = w.resolvers) :
    w.Steady w' where
  circular a l := by rw [row, hrecords, ← row]
  construction k := by rw [resolver, hresolvers, ← resolver]

/-- A cell may be set that held no value at first. -/
theorem Precedes.setCell (h : w.Precedes w') (hl : ∀ v, (w.row a).access l ≠ .ready v)
    (c : Cell Value) :
    w.Precedes (w'.setCell a l c) where
  has x hx := has_setCell_iff.mpr (h.has x hx)
  records b r hr := by
    obtain ⟨r', hr', hkin⟩ := h.records b r hr
    rw [getElem?_setCell, hr']
    refine ⟨_, rfl, hkin.trans ?_⟩
    split
    · exact r'.kin_setCell l c
    · exact .refl r'
  ready b k v hv := by
    rw [access_setCell_of_ne]
    · exact h.ready b k v hv
    · rintro ⟨rfl, rfl⟩
      exact hl v hv
  loaded := h.loaded
  library := h.library
  machine := h.machine

/-- A cell that holds no value is set. -/
theorem precedes_setCell (h : ∀ v, (w.row a).access l ≠ .ready v) (c : Cell Value) :
    w.Precedes (w.setCell a l c) := (Precedes.refl w).setCell h c

/-- A new record stands behind the others. -/
theorem getElem?_push (w : World) (r : StoredRecord) (a : Nat) :
    (w.records.push r)[a]? = if a = w.records.size then some r else w.records[a]? :=
  Array.getElem?_push

theorem row_push (w : World) (r : StoredRecord) (a : Nat) :
    row { w with records := w.records.push r } a = if a = w.records.size then r.row else
      w.row a := by
  rw [row, getElem?_push]
  split
  · rfl
  · rfl

theorem row_of_not_has (h : ¬ w.Has (.record a)) : w.row a = [] := by
  rw [row, Array.getElem?_eq_none (Nat.le_of_not_lt h)]
  rfl

theorem row_size (w : World) : w.row w.records.size = [] := row_of_not_has (Nat.lt_irrefl _)

theorem precedes_push (w : World) (r : StoredRecord) :
    w.Precedes { w with records := w.records.push r } where
  has x hx := by
    cases x with
    | record a =>
      have hx : a < w.records.size := hx
      show a < (w.records.push r).size
      rw [Array.size_push]
      omega
    | _ => exact hx
  records a s hs := by
    have ha : a ≠ w.records.size := Nat.ne_of_lt (has_of_getElem? hs)
    exact ⟨s, by rw [getElem?_push, if_neg ha, hs], .refl s⟩
  ready a l v hv := by
    rw [row_push]
    split
    case isTrue ha =>
      rw [ha, row_size] at hv
      cases hv
    case isFalse => exact hv
  loaded k name v hv := hv
  library := rfl
  machine := rfl

/-- A new record of fields that have not been computed. -/
theorem steady_push (w : World) {r : StoredRecord} (h : ∀ l, r.row.access l ≠ .circular) :
    w.Steady { w with records := w.records.push r } where
  circular a l := by
    rw [row_push]
    split
    case isTrue ha =>
      rw [ha, row_size]
      exact iff_of_false (h l) (by rintro ⟨⟩)
    case isFalse => exact Iff.rfl
  construction k := rfl

/-- **The computation of a field comes to its end**, and the field is not computed any more. -/
theorem steady_of_compute (h : (w.setCell a l .inProgress).Steady w')
    (hl : (w.row a).access l ≠ .circular) (hlabel : l ∈ Row.labels (w'.row a))
    (hc : c ≠ .inProgress) :
    w.Steady (w'.setCell a l c) where
  circular b k := by
    by_cases hbk : a = b ∧ l = k
    · obtain ⟨rfl, rfl⟩ := hbk
      refine iff_of_false (fun hcirc => ?_) hl
      obtain ⟨-, hready, habsent⟩ := access_setCell_self hlabel c
      cases c with
      | inProgress => exact hc rfl
      | ready v => cases (hready v rfl).symm.trans hcirc
      | absent =>
        obtain ⟨i, hi⟩ := habsent rfl
        cases hi.symm.trans hcirc
    · have hbk' : ¬ (a = b ∧ k = l) := fun h => hbk ⟨h.1, h.2.symm⟩
      rw [access_setCell_of_ne hbk', h.circular, access_setCell_of_ne hbk']
  construction k := h.construction k

/-! ## Modules -/

section Modules

variable {k n : Nat} {name : String} {f : Resolver → Resolver}

/-- One resolver is changed. -/
theorem resolver_modify (hk : w.Has (.resolver k))
    (h : w'.resolvers = w.resolvers.modify k f) (n : Nat) :
    w'.resolver n = if k = n then f (w.resolver n) else w.resolver n := by
  by_cases hkn : k = n
  · subst hkn
    exact Observed.resolver_of_modify h hk
  · rw [if_neg hkn, resolver, h, Array.getElem?_modify, if_neg hkn, ← resolver]

/-- The world in which the value of a module begins to be computed. -/
def entering (w : World) (k : Nat) (name : String) : World :=
  { w with
    trace := ("Loading " ++ name) :: w.trace
    resolvers := w.resolvers.modify k (·.enter name)
    births := w.births + 1 }

theorem resolver_entering (hk : w.Has (.resolver k)) (n : Nat) : (w.entering k name).resolver n
    = if k = n then (w.resolver n).enter name else w.resolver n :=
  resolver_modify (f := (·.enter name)) hk rfl n

/-- **The loading of a module comes to its end**, and the module is not under construction any more.
-/
theorem steady_of_loading (hk : w.Has (.resolver k)) (h : (w.entering k name).Steady w')
    (hk' : w'.Has (.resolver k)) (hf : ∀ r, (f r).construction = r.construction.dropLast) :
    w.Steady { w' with resolvers := w'.resolvers.modify k f } where
  circular a l := h.circular a l
  construction n := by
    have hmid := h.construction n
    rw [resolver_entering hk] at hmid
    rw [resolver_modify (f := f) hk' rfl]
    split at hmid
    case isTrue hkn => rw [if_pos hkn, hf, hmid, Resolver.enter, List.dropLast_concat]
    case isFalse hkn => rw [if_neg hkn, hmid]

theorem has_modify_iff {x : Thing} :
    ({ w with resolvers := w.resolvers.modify k f } : World).Has x ↔ w.Has x := by
  cases x with
  | resolver n => simp [Has]
  | _ => exact Iff.rfl

/-- A resolver may be changed that forgets nothing that was loaded at first. -/
theorem Precedes.modify (h : w.Precedes w')
    (hf : ∀ name v, (w.resolver k).loaded.lookup name = some v →
    (f (w'.resolver k)).loaded.lookup name = some v) :
    w.Precedes { w' with resolvers := w'.resolvers.modify k f } where
  has x hx := has_modify_iff.mpr (h.has x hx)
  records := h.records
  ready := h.ready
  loaded n name v hv := by
    by_cases hk : w'.Has (.resolver k)
    · rw [resolver_modify (f := f) hk rfl]
      split
      case isTrue hkn =>
        subst hkn
        exact hf name v hv
      case isFalse => exact h.loaded n name v hv
    · have hsame : w'.resolvers.modify k f = w'.resolvers := by
        refine Array.ext_getElem? fun i => ?_
        rw [Array.getElem?_modify]
        split
        case isTrue hki => rw [← hki, Array.getElem?_eq_none (Nat.le_of_not_lt hk), Option.map_none]
        case isFalse => rfl
      rw [resolver, hsame]
      exact h.loaded n name v hv
  library := h.library
  machine := h.machine

/-- One resolver is changed, and nothing that it has loaded is forgotten. -/
theorem precedes_modify (births : Nat) (trace : List String)
    (hf : ∀ name v, (w.resolver k).loaded.lookup name = some v →
      (f (w.resolver k)).loaded.lookup name = some v) :
    w.Precedes { w with resolvers := w.resolvers.modify k f, births := w.births + births, trace } :=
  ((Precedes.refl w).modify hf).trans (precedes_of_eq rfl (Nat.le_add_right _ _) rfl rfl rfl)

theorem precedes_entering (w : World) (k : Nat) (name : String) : w.Precedes (w.entering k name) :=
  precedes_modify 1 _ fun _ _ h => h

end Modules

end World

end RowLang
