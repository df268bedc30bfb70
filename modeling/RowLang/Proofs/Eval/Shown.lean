import RowLang.Proofs.Eval.Levels
import RowLang.Eval.Document

/-!
# Proofs/Eval/Shown — what cannot be written of a value

Records, lists and tagged values are written by writing what is in them, and functions as a marker.
Only a tuple is written as it is, and tuples come from joining or repeating tagged values.  So the
text of a value is refused only for an integer that is too long, or for a record or a function
inside a tuple that the value shows (`Value.Telling`).
-/

namespace RowLang

/-- A value that has no JSON form of its own. -/
def Value.Opaque (v : Value) : Prop := (∃ a, v = .record a) ∨ v.isProcedure = true

/-- **A value shows another one**: it is that one, or something in it shows it; what is in a record
are its computed fields. -/
inductive World.Shows (w : World) : Value → Value → Prop where
  | itself (v : Value) : w.Shows v v
  | payload {o : Origin} {tag : Tag} {v u : Value} : w.Shows v u → w.Shows (.tagged o tag v) u
  | entry {o : Origin} {items : List Value} {v u : Value} :
    v ∈ items → w.Shows v u → w.Shows (.list o items) u
  | item {o : Origin} {items : List Value} {v u : Value} :
    v ∈ items → w.Shows v u → w.Shows (.tuple o items) u
  | field {a : Nat} {l : Label} {v u : Value} :
    (w.row a).access l = .ready v → w.Shows v u → w.Shows (.record a) u

namespace World

variable {w w' : World} {u v : Value}

/-- What is shown stays so while no computed field is lost. -/
theorem Shows.of_ready (h : w.Shows v u)
    (hw : ∀ a l v, (w.row a).access l = .ready v → (w'.row a).access l = .ready v) :
    w'.Shows v u := by
  induction h with
  | itself v => exact .itself v
  | payload _ ih => exact .payload ih
  | entry hv _ ih => exact .entry hv ih
  | item hv _ ih => exact .item hv ih
  | field hv _ ih => exact .field (hw _ _ _ hv) ih

theorem Shows.mono (h : w.Shows v u) (hw : w.Keeps w') : w'.Shows v u := h.of_ready hw.ready

theorem Shows.trans {x : Value} (h : w.Shows v u) (h' : w.Shows u x) : w.Shows v x := by
  induction h with
  | itself => exact h'
  | payload _ ih => exact .payload (ih h')
  | entry hv _ ih => exact .entry hv (ih h')
  | item hv _ ih => exact .item hv (ih h')
  | field hv _ ih => exact .field hv (ih h')

/-- A value shows a tuple that holds something which has no JSON form, of some kind. -/
def Hides (w : World) (v : Value) (kind : String) : Prop :=
  ∃ o items u, w.Shows v (.tuple o items) ∧ w.Shows (.tuple o items) u ∧ u.Opaque ∧ kind = u.kind

theorem Hides.mono {kind : String} (h : w.Hides v kind) (hw : w.Keeps w') : w'.Hides v kind := by
  obtain ⟨o, items, u, hv, hu, hrest⟩ := h
  exact ⟨o, items, u, hv.mono hw, hu.mono hw, hrest⟩

/-- What is in a value hides is hidden in the value. -/
theorem Hides.inside {v' : Value} {kind : String} (h : w.Hides v kind)
    (hv : ∀ u, w.Shows v u → w.Shows v' u) : w.Hides v' kind := by
  obtain ⟨o, items, u, htuple, hrest⟩ := h
  exact ⟨o, items, u, hv _ htuple, hrest⟩

end World

/-! ## Rendering -/

/-- A document is refused for an integer that is too long, or for a kind of some sort. -/
def Document.Refused (P : String → Prop) (f : Fault) : Prop :=
  f = .integerTooLong ∨ ∃ kind, P kind ∧ f = .notSerializable kind

/-- A document is rendered at each level, or refused for a kind of some sort. -/
def Document.Telling (P : String → Prop) (d : Document) : Prop :=
  ∀ level, Fails (Refused P) (d.render level)

namespace Document

variable {P P' : String → Prop} {d : Document}

theorem Telling.mono (h : d.Telling P) (hP : ∀ k, P k → P' k) : d.Telling P' := fun level f hf =>
  (h level f hf).imp id fun ⟨k, hk, he⟩ => ⟨k, hP k hk, he⟩

theorem telling_int (i : Int) : (int i).Telling P := fun level => by
  rw [render]
  split
  exacts [.ok _, .error (Or.inl rfl)]

theorem telling_real (x : Binary64) : (real x).Telling P := fun _ => .ok _

theorem telling_text (codes : List Nat) : (text codes).Telling P := fun _ => .ok _

theorem telling_alien {kind : String} (h : P kind) : (alien kind).Telling P :=
  fun _ => .error (Or.inr ⟨kind, h, rfl⟩)

theorem telling_array {items : List Document} (h : ∀ d ∈ items, d.Telling P) :
    (array items).Telling P := by
  have hall : ∀ level, Fails (Refused P) (renderAll level items) := by
    intro level
    induction items with
    | nil => exact .ok _
    | cons d ds ih =>
      exact (h d List.mem_cons_self level).bind fun _ =>
        (ih fun d hd => h d (List.mem_cons_of_mem _ hd)).bind fun _ => .ok _
  exact fun level => (hall (level + 1)).bind fun _ => .ok _

theorem telling_object {fields : List (Label × Document)} (h : ∀ p ∈ fields, p.2.Telling P) :
    (object fields).Telling P := by
  have hall : ∀ level, Fails (Refused P) (renderFields level fields) := by
    intro level
    induction fields with
    | nil => exact .ok _
    | cons p fields ih =>
      exact (h p List.mem_cons_self level).bind fun _ =>
        (ih fun q hq => h q (List.mem_cons_of_mem _ hq)).bind fun _ => .ok _
  exact fun level => (hall (level + 1)).bind fun _ => .ok _

end Document

namespace Value

open Document

variable (w : World)

mutual

/-- A value as it is shows what is refused of it. -/
theorem telling_asItIs : ∀ v : Value,
    v.asItIs.Telling fun kind => ∃ u, w.Shows v u ∧ u.Opaque ∧ kind = u.kind
  | int _ i => telling_int i
  | real _ x => telling_real x
  | text _ codes => telling_text codes
  | list _ items => telling_array fun d hd => by
    obtain ⟨v, hv, h⟩ := telling_asTheyAre items d hd
    exact h.mono fun kind ⟨u, hu, hrest⟩ => ⟨u, .entry hv hu, hrest⟩
  | tuple _ items => telling_array fun d hd => by
    obtain ⟨v, hv, h⟩ := telling_asTheyAre items d hd
    exact h.mono fun kind ⟨u, hu, hrest⟩ => ⟨u, .item hv hu, hrest⟩
  | tagged _ ⟨l, _⟩ payload => telling_array fun d hd => by
    rcases List.mem_pair.mp hd with rfl | rfl
    · exact telling_text _
    · exact (telling_asItIs payload).mono fun kind ⟨u, hu, hrest⟩ => ⟨u, .payload hu, hrest⟩
  | record a => telling_alien ⟨_, .itself _, Or.inl ⟨a, rfl⟩, rfl⟩
  | operator _ => telling_alien ⟨_, .itself _, Or.inr rfl, rfl⟩
  | waiting .. => telling_alien ⟨_, .itself _, Or.inr rfl, rfl⟩
  | tagger .. => telling_alien ⟨_, .itself _, Or.inr rfl, rfl⟩
  | closure .. => telling_alien ⟨_, .itself _, Or.inr rfl, rfl⟩
  | dispatcher .. => telling_alien ⟨_, .itself _, Or.inr rfl, rfl⟩

/-- Each of some values as they are shows what is refused of it. -/
theorem telling_asTheyAre : ∀ vs : List Value, ∀ d ∈ asTheyAre vs, ∃ v ∈ vs,
    d.Telling fun kind => ∃ u, w.Shows v u ∧ u.Opaque ∧ kind = u.kind
  | [], d, hd => by cases hd
  | v :: vs, d, hd => by
    rw [asTheyAre, List.mem_cons] at hd
    rcases hd with rfl | hd
    · exact ⟨v, List.mem_cons_self, telling_asItIs v⟩
    · obtain ⟨u, hu, h⟩ := telling_asTheyAre vs d hd
      exact ⟨u, List.mem_cons_of_mem _ hu, h⟩

end

end Value

namespace Eval

open Document

variable {w : World}

theorem durable_telling (v : Value) : Durable fun w (d : Document) => d.Telling (World.Hides w v) :=
  fun _ _ _ h hw => h.mono fun _ hk => hk.mono hw

theorem durable_telling_snd (v : Value) :
    Durable fun w (p : Label × Document) => p.2.Telling (World.Hides w v) :=
  fun w w' p => durable_telling v w w' p.2

/-- **A document is refused only for what a tuple hides.** -/
theorem contained_document (depth : Nat) : ∀ (w : World) (path : List Nat) (v : Value),
    Contained Fault.Loose w (document depth path v) fun w' d => d.Telling (w'.Hides v) := by
  induction depth with
  | zero => exact fun _ _ _ => contained_throw fun _ => trivial
  | succ depth ih =>
    intro w path v
    have hmarker : ∀ {c : Document}, c = functionMarker →
        Contained Fault.Loose w (return c : Evaluating Document) fun w' d =>
          d.Telling (w'.Hides v) :=
      fun hc => contained_pure fun _ _ => hc ▸ telling_text _
    cases v with
    | int o i => exact contained_pure fun _ _ => telling_int i
    | text o codes => exact contained_pure fun _ _ => telling_text codes
    | operator | waiting | tagger | closure | dispatcher => exact hmarker rfl
    | real o x =>
      rw [document_succ, documentBy]
      split
      exacts [contained_pure fun _ _ => telling_int _, contained_pure fun _ _ => telling_real _]
    | tuple o items =>
      refine contained_pure fun w' _ => (Value.telling_asItIs w' _).mono ?_
      rintro kind ⟨u, hu, hrest⟩
      exact ⟨o, items, u, .itself _, hu, hrest⟩
    | list o items =>
      rw [document_succ, documentBy]
      refine (contained_mapM (durable_telling (.list o items)) fun v hv w' _ =>
        (ih w' path v).weaken (fun _ hf => hf) fun w'' d _ hd =>
          hd.mono fun _ hk => hk.inside fun _ => .entry hv).bind fun w' ds _ hds =>
            contained_pure fun w'' hw => ?_
      exact telling_array fun d hd => durable_telling _ w' w'' d (hds d hd) hw
    | tagged o tag payload =>
      obtain ⟨l, place⟩ := tag
      rw [document_succ, documentBy]
      refine (ih w path payload).bind fun w' d _ hd => contained_pure fun w'' hw => ?_
      refine telling_array fun e he => ?_
      rcases List.mem_pair.mp he with rfl | rfl
      · exact telling_text _
      · exact hd.mono fun _ hk => (hk.mono hw).inside fun _ => .payload
    | record a =>
      rw [document_succ, documentBy]
      split
      · exact contained_pure fun _ _ => telling_text _
      refine contained_get fun w₀ _ => ?_
      refine (contained_mapM (durable_telling_snd (.record a)) fun l hl w₁ hw₁ => ?_).bind
        fun w' ps _ hps => contained_pure fun w'' hw => ?_
      · refine ((levels depth).force (fun _ hf => hf) (Or.inl (hw₁.labels a l hl))).bind
          fun w₂ v _ hv => (ih w₂ _ v).bind fun w₃ d hw₃ hd => contained_pure fun w₄ hw₄ => ?_
        have hready := (hw₃.trans hw₄).ready a l v hv
        exact hd.mono fun _ hk => (hk.mono hw₄).inside fun _ => .field hready
      · exact telling_object fun p hp => durable_telling _ w' w'' p.2 (hps p hp) hw

/-- What the writing of a value comes to. -/
def Writes (w : World) (v : Value) : Except Failure String × World → Prop
  | (.ok _, w') => w.Keeps w'
  | (.error e, w') => w'.report.limit = w.report.limit ∧ w'.report.issues.length ≤ 1 ∧
    (e.Within Fault.Loose w.report.limit ∨
      ∃ kind, w'.Hides v kind ∧ e = .bare (.notSerializable kind))

/-- **The text of a value is refused only for what a tuple hides.** -/
theorem writes_toText (v : Value) (hi : w.report.issues = []) :
    Writes w v ((toText v).run w) := by
  have hd := contained_document depthLimit w [] v w (.refl w) hi
  rw [toText_eq, Run.run_bind]
  split
  case h_2 e w' hrun =>
    rw [hrun] at hd
    exact ⟨hd.1, hd.2.1, Or.inl hd.2.2⟩
  case h_1 d w' hrun =>
    rw [hrun] at hd
    obtain ⟨hkeeps, hd⟩ := hd
    have htext : Fails (Refused (w'.Hides v)) d.toText := (hd 0).bind fun _ => .ok _
    cases hr : d.toText with
    | ok text => exact hkeeps
    | error f =>
      refine ⟨congrArg Report.limit hkeeps.report, by simp [hkeeps.report, hi], ?_⟩
      rcases htext f hr with rfl | ⟨kind, hkind, rfl⟩
      · exact Or.inl (Or.inl trivial)
      · exact Or.inr ⟨kind, hkind, rfl⟩

end Eval

end RowLang
