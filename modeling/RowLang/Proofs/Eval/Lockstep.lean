import RowLang.Proofs.Eval.Retold
import RowLang.Proofs.Value.Untyped

/-!
# Proofs/Eval/Lockstep — evaluation in two worlds that differ in types

Two worlds are alike up to types when each record of one is alike to the record of the other at the
same address, and so on (`World.Like`).  A computation in the one is **tracked** by computations in
the other, with ever more levels to go, if it is too deep or else they end as it does, from some
number of levels on (`Tracks`).
-/

namespace RowLang

variable {own : Origin → Origin → Prop} {w w' : World} {a : Nat} {l : Label}

/-! ## Worlds that are alike -/

/-- Cells are alike. -/
inductive Cell.Like (own : Origin → Origin → Prop) : Cell Value → Cell Value → Prop
  | absent : Like own .absent .absent
  | inProgress : Like own .inProgress .inProgress
  | ready {v v' : Value} : Agree own v v' → Like own (.ready v) (.ready v')

/-- Fields are alike. -/
structure Slot.Like (own : Origin → Origin → Prop) (s s' : Slot Code Value) : Prop where
  initializer : s.initializer.UpToTypes own s'.initializer
  cell : s.cell.Like own s'.cell

/-- Records are alike. -/
structure StoredRecord.Like (own : Origin → Origin → Prop) (r r' : StoredRecord) : Prop where
  scope : Env.Like (.upToTypes own) r.scope r'.scope
  seesItself : r.seesItself = r'.seesItself
  row : Row.Matches (Slot.Like own) r.row r'.row

/-- Resolvers are alike. -/
structure Resolver.Like (own : Origin → Origin → Prop) (r r' : Resolver) : Prop where
  loaded : ∀ name, Option.Rel (Agree own) (r.loaded.lookup name) (r'.loaded.lookup name)
  construction : r.construction = r'.construction

/-- **Worlds are alike up to types.** -/
structure World.Like (own : Origin → Origin → Prop) (w w' : World) : Prop where
  size : w.records.size = w'.records.size
  records : ∀ a : Nat, Option.Rel (StoredRecord.Like own) w.records[a]? w'.records[a]?
  births : w.births = w'.births
  /-- What is yet to be born is known by its origin. -/
  fresh : ∀ p : Origin, w.births ≤ p.birth → own p p
  library : w.library = w'.library
  room : w.machine.room = w'.machine.room
  modules : ∀ {name source tree}, w.library.source name = .ok (some source) →
    Expr.parse source.toList = .ok tree → tree.Without .modulo
  resolvers : ∀ k : Nat, Option.Rel (Resolver.Like own) w.resolvers[k]? w'.resolvers[k]?
  report : w.report = w'.report

/-- A birth of which everything is known by its origin. -/
structure Born (own : Origin → Origin → Prop) (p p' : Origin) : Prop where
  same : p = p'
  own : ∀ q : Origin, q.birth = p.birth → own q q

theorem Born.fresh {p p' : Origin} (h : Born own p p') : (Likeness.upToTypes own).Fresh p p' :=
  ⟨trivial, h.same ▸ h.own p rfl⟩

/-- What reading a label comes to, on both sides. -/
inductive Access.Like (own : Origin → Origin → Prop) : Access Code Value → Access Code Value → Prop
  | missing : Like own .missing .missing
  | circular : Like own .circular .circular
  | ready {v v' : Value} : Agree own v v' → Like own (.ready v) (.ready v')
  | start {i i' : Code} : i.UpToTypes own i' → Like own (.start i) (.start i')

theorem LazyRow.access_like {r r' : LazyRow Code Value} (h : Row.Matches (Slot.Like own) r r')
    (l : Label) :
    (r.access l).Like own (r'.access l) := by
  have hlookup := Row.Matches.lookup h l
  unfold access Row.get?
  generalize r.lookup l = s, r'.lookup l = s' at hlookup
  cases hlookup with
  | none => exact .missing
  | @some s s' hs =>
    obtain ⟨i, c⟩ := s
    obtain ⟨i', c'⟩ := s'
    obtain ⟨hi, hc⟩ := hs
    cases hc with
    | absent => exact .start hi
    | inProgress => exact .circular
    | ready hv => exact .ready hv

theorem LazyRow.like_setCell {r r' : LazyRow Code Value}
    (h : Row.Matches (Slot.Like own) r r') (l : Label)
    {c c' : Cell Value} (hc : c.Like own c') : Row.Matches (Slot.Like own) (r.setCell l c)
      (r'.setCell l c') := by
  refine List.rel_map ?_ h
  rintro ⟨k, s⟩ ⟨k', s'⟩ ⟨rfl, hs⟩
  dsimp only
  split
  · exact ⟨rfl, hs.initializer, hc⟩
  · exact ⟨rfl, hs⟩

theorem LazyRow.like_ofRow {r r' : Row Code} (h : Row.Matches (Code.UpToTypes own) r r') :
    Row.Matches (Slot.Like own) (ofRow r : LazyRow Code Value) (ofRow r') :=
  List.rel_map (fun _ _ hp => ⟨hp.1, hp.2, .absent⟩) h

theorem StoredRecord.Like.env {r r' : StoredRecord} (h : r.Like own r') (a : Nat) :
    Env.Like (.upToTypes own) (r.env a) (r'.env a) := by
  rw [StoredRecord.env, StoredRecord.env, h.seesItself]
  split
  · exact h.scope.extend (.cons ⟨rfl, .record rfl⟩ .nil)
  · exact h.scope

namespace Resolver.Like

variable {r r' : Resolver}

theorem enter (h : r.Like own r') (name : String) : (r.enter name).Like own (r'.enter name) :=
  ⟨h.loaded, congrArg (· ++ [name]) h.construction⟩

theorem leave (h : r.Like own r') : r.leave.Like own r'.leave :=
  ⟨h.loaded, congrArg List.dropLast h.construction⟩

theorem keep (h : r.Like own r') (name : String) {v v' : Value} (hv : Agree own v v') :
    (r.keep name v).Like own (r'.keep name v') := by
  refine ⟨fun other => ?_, h.construction⟩
  rw [Resolver.lookup_keep, Resolver.lookup_keep]
  split
  · exact .some hv
  · exact h.loaded other

end Resolver.Like

namespace World.Like

/-- **What is born next is new on both sides.** -/
theorem born (h : w.Like own w') : Born own { birth := w.births } { birth := w'.births } :=
  ⟨congrArg (fun n => ({ birth := n } : Origin)) h.births,
    fun q hq => h.fresh q (Nat.le_of_eq hq.symm)⟩

theorem record (h : w.Like own w') (a : Nat) :
    (w.records[a]?.getD default).Like own (w'.records[a]?.getD default) := by
  have ha := h.records a
  generalize w.records[a]? = r, w'.records[a]? = r' at ha
  cases ha with
  | none => exact ⟨Env.Like.ofRoot .none, rfl, .nil⟩
  | some hr => exact hr

theorem row (h : w.Like own w') (a : Nat) : Row.Matches (Slot.Like own) (w.row a) (w'.row a) := by
  have ha := h.records a
  unfold World.row
  generalize w.records[a]? = r, w'.records[a]? = r' at ha
  cases ha with
  | none => exact .nil
  | some hr => exact hr.row

theorem labels (h : w.Like own w') (a : Nat) : Row.labels (w.row a) = Row.labels (w'.row a) :=
  (h.row a).labels

theorem resolver (h : w.Like own w') (k : Nat) : (w.resolver k).Like own (w'.resolver k) := by
  have hk := h.resolvers k
  unfold World.resolver
  generalize w.resolvers[k]? = r, w'.resolvers[k]? = r' at hk
  cases hk with
  | none => exact ⟨fun _ => .none, rfl⟩
  | some hr => exact hr

theorem next (h : w.Like own w') :
    World.Like own { w with births := w.births + 1 } { w' with births := w'.births + 1 } :=
  { h with
    births := congrArg (· + 1) h.births
    fresh := fun p hp => h.fresh p (Nat.le_of_succ_le hp) }

theorem push (h : w.Like own w') {r r' : StoredRecord} (hr : r.Like own r') :
    World.Like own { w with records := w.records.push r }
      { w' with records := w'.records.push r' } :=
  { h with
    size := by simp [h.size]
    records := fun a => by
      dsimp only
      rw [Array.getElem?_push, Array.getElem?_push, h.size]
      split
      · exact .some hr
      · exact h.records a }

theorem setCell (h : w.Like own w') (a : Nat) (l : Label) {c c' : Cell Value} (hc : c.Like own c') :
    (w.setCell a l c).Like own (w'.setCell a l c') :=
  { h with
    size := by simp [World.setCell, h.size]
    records := fun b => by
      have hb := h.records b
      simp only [World.setCell, Array.getElem?_modify]
      split
      · generalize w.records[b]? = r, w'.records[b]? = r' at hb
        cases hb with
        | none => exact .none
        | some hr => exact .some ⟨hr.scope, hr.seesItself, LazyRow.like_setCell hr.row l hc⟩
      · exact hb }

theorem modify (h : w.Like own w') (k : Nat) {f f' : Resolver → Resolver}
    (hf : ∀ r r', r.Like own r' → (f r).Like own (f' r')) :
    World.Like own { w with resolvers := w.resolvers.modify k f }
      { w' with resolvers := w'.resolvers.modify k f' } :=
  { h with
    resolvers := fun n => by
      have hn := h.resolvers n
      simp only [Array.getElem?_modify]
      split
      · generalize w.resolvers[n]? = r, w'.resolvers[n]? = r' at hn
        cases hn with
        | none => exact .none
        | some hr => exact .some (hf _ _ hr)
      · exact hn }

theorem post (h : w.Like own w') (i : Issue) :
    World.Like own { w with report := w.report.post i } { w' with report := w'.report.post i } :=
  { h with report := congrArg (·.post i) h.report }

theorem trace (h : w.Like own w') (t t' : List String) :
    World.Like own { w with trace := t } { w' with trace := t' } := { h with }

end World.Like

/-! ## Values in full -/

namespace Value

/-- Both are written, or neither is for the same reason. -/
abbrev Spoken {ε α : Type} : Except ε α → Except ε α → Prop := ResultsMatch fun _ _ => True

theorem spoken_mapM {ε α γ δ : Type} {f : α → Except ε δ} {g : γ → Except ε δ} {xs : List α}
    {ys : List γ}
    (h : List.Forall₂ (fun x y => Spoken (f x) (g y)) xs ys) : Spoken (xs.mapM f) (ys.mapM g) := by
  induction h with
  | nil => exact .ok trivial
  | cons hx _ ih =>
    rw [List.mapM_cons, List.mapM_cons]
    exact hx.bind fun _ _ _ => ih.bind fun _ _ _ => .ok trivial

variable {v v' : Value}

/-- **Both values are written in full, or neither is.** -/
theorem Like.fullChars (hw : w.Like own w') (n : Nat) (h : Agree own v v') :
    Spoken (fullChars w n v) (fullChars w' n v') := by
  induction n generalizing v v' with
  | zero => exact .error _
  | succ n ih =>
    have hall {xs ys : List Value} (h : AllLike (.upToTypes own) xs ys) :
        Spoken (xs.mapM (Value.fullChars w n)) (ys.mapM (Value.fullChars w' n)) :=
      spoken_mapM (h.imp fun _ _ => ih)
    cases h with
    | int =>
      simp only [Value.fullChars]
      split
      · exact .ok trivial
      · exact .error _
    | list _ hlen hitems =>
      simp only [Value.fullChars]
      exact (hall (allMatch_of_zip hlen hitems)).bind fun _ _ _ => .ok trivial
    | tuple _ hlen hitems =>
      have hitems := allMatch_of_zip hlen hitems
      have hmany := hall hitems
      cases hitems with
      | nil => exact .ok trivial
      | cons hx hxs =>
        cases hxs with
        | nil =>
          simp only [Value.fullChars]
          exact (ih hx).bind fun _ _ _ => .ok trivial
        | cons hy hys =>
          simp only [Value.fullChars]
          exact hmany.bind fun _ _ _ => .ok trivial
    | tagged _ _ hx =>
      simp only [Value.fullChars]
      exact (ih hx).bind fun _ _ _ => .ok trivial
    | @record a _ ha =>
      cases (show a = _ from ha)
      simp only [Value.fullChars]
      refine ResultsMatch.bind (R := fun _ _ => True) (spoken_mapM ?_) fun _ _ _ => .ok trivial
      refine List.rel_map (fun p q hp => ?_) (hw.row a)
      obtain ⟨l, i, c⟩ := p
      obtain ⟨l', i', c'⟩ := q
      cases hp.2.cell with
      | absent | inProgress => exact .ok trivial
      | ready hv => exact (ih hv).bind fun _ _ _ => .ok trivial
    | @closure _ _ _ _ _ code code' _ _ _ _ hcode =>
      simp only [Value.fullChars, Code.UpToTypes.unranked?_eq hcode]
      split
      · exact .error _
      · exact .ok trivial
    | _ => exact .ok trivial

/-- **Both values are described, or neither is.** -/
theorem Like.describe (hw : w.Like own w') (h : Agree own v v') :
    Spoken (v.describe w) (v'.describe w') := by
  have hfull : Spoken ((Value.fullChars w showDepth v).map String.ofList)
      ((Value.fullChars w' showDepth v').map String.ofList) := by
    have := h.fullChars hw showDepth
    generalize Value.fullChars w showDepth v = r, Value.fullChars w' showDepth v' = r' at this
    cases this with
    | ok => exact .ok trivial
    | error e => exact .error e
  cases h with
  | int | real | text | tuple => exact hfull
  | _ => exact .ok trivial

end Value

/-! ## Tracking -/

/-- A failure without the description of a value. -/
def Failure.undescribed : Failure → Failure
  | notAProcedure _ => notAProcedure ""
  | missingField l _ => missingField l ""
  | unhandledTag _ => unhandledTag ""
  | e => e

variable {α γ δ : Type}

/-- Two computations end alike: with results in a relation and in worlds that are alike, or in the
same failure up to the description of a value. -/
inductive EndAlike (own : Origin → Origin → Prop) (V : α → α → Prop) :
    Except Failure α × World → Except Failure α × World → Prop
  | ok {x y : α} {w w' : World} : V x y → w.Like own w' → EndAlike own V (.ok x, w) (.ok y, w')
  | error {e e' : Failure} {w w' : World} : e.undescribed = e'.undescribed →
      EndAlike own V (.error e, w) (.error e', w')

/-- **A computation is tracked**: it is too deep, or computations with enough levels end as it does.
-/
def Tracks (own : Origin → Origin → Prop) (V : α → α → Prop) (m : Evaluating α)
    (N : Nat → Evaluating α) : Prop :=
  ∀ w w' : World, w.Like own w' → (m.run w).1 = .error .tooDeep ∨
    ∃ n r, (∀ k, n ≤ k → (N k).run w' = r) ∧ EndAlike own V (m.run w) r

variable {V : α → α → Prop} {W : γ → γ → Prop} {m : Evaluating α} {N : Nat → Evaluating α}

theorem tracks_pure {x y : α} (h : V x y) : Tracks own V (pure x) fun _ => pure y := fun _ _ hw =>
  Or.inr ⟨0, _, fun _ _ => rfl, .ok h hw⟩

theorem tracks_throw {e e' : Failure} (h : e.undescribed = e'.undescribed) :
    Tracks own V (throw e) fun _ => throw e' := fun _ _ _ => Or.inr ⟨0, _, fun _ _ => rfl, .error h⟩

theorem tracks_tooDeep : Tracks own V (throw .tooDeep) N := fun _ _ _ => Or.inl rfl

/-- One level more makes no difference. -/
theorem Tracks.deeper (h : Tracks own V m fun k => N (k + 1)) : Tracks own V m N := fun w w' hw =>
  (h w w' hw).imp_right fun ⟨n, r, hr, hend⟩ => ⟨n + 1, r, fun k hk => by
    obtain ⟨j, rfl⟩ : ∃ j, k = j + 1 := ⟨k - 1, by omega⟩
    exact hr j (Nat.le_of_succ_le_succ hk), hend⟩

/-- **One computation after the other.** -/
theorem Tracks.bind {f : α → Evaluating γ} {G : Nat → α → Evaluating γ} (h : Tracks own V m N)
    (hf : ∀ x y, V x y → Tracks own W (f x) fun k => G k y) :
    Tracks own W (m >>= f) fun k => N k >>= G k := fun w w' hw => by
  simp only [Run.run_bind]
  rcases h w w' hw with hdeep | ⟨n, r, hr, hend⟩
  · left
    generalize m.run w = q at hdeep
    obtain ⟨x, u⟩ := q
    cases hdeep
    rfl
  · generalize m.run w = q at hend
    cases hend with
    | error he => exact Or.inr ⟨n, _, fun k hk => by rw [hr k hk], .error he⟩
    | ok hxy hw =>
      refine (hf _ _ hxy _ _ hw).imp_right fun ⟨n', r', hr', hend'⟩ => ?_
      exact ⟨max n n', r', fun k hk => by
        rw [hr k (le_of_max_le_left hk)]; exact hr' k (le_of_max_le_right hk), hend'⟩

/-- Looking at the world. -/
theorem tracks_get {f : World → Evaluating α} {G : Nat → World → Evaluating α}
    (h : ∀ w w' : World, w.Like own w' → Tracks own V (f w) fun k => G k w') :
    Tracks own V (get >>= f) fun k => get >>= G k := fun w w' hw => by
  simp only [Run.run_bind, Run.run_get]
  exact h w w' hw w w' hw

/-- What is done depends on the worlds. -/
theorem Tracks.look
    (h : ∀ w w' : World, w.Like own w' → ∃ (m₁ : Evaluating α) (N₁ : Nat → Evaluating α),
    m.run w = m₁.run w ∧ (∀ k, (N k).run w' = (N₁ k).run w') ∧ Tracks own V m₁ N₁) :
      Tracks own V m N :=
  fun w w' hw => by
    obtain ⟨m₁, N₁, hm, hN, htracks⟩ := h w w' hw
    simp only [hm, hN]
    exact htracks w w' hw

/-- Changing the world. -/
theorem tracks_modify {f f' : World → World}
    (h : ∀ w w' : World, w.Like own w' → (f w).Like own (f' w')) :
    Tracks own (fun _ _ => True) (modify f) fun _ => modify f' := fun w w' hw =>
  Or.inr ⟨0, _, fun _ _ => rfl, .ok trivial (h w w' hw)⟩

theorem tracks_birth : Tracks own (Born own) World.birth fun _ => World.birth := fun _ _ hw =>
  Or.inr ⟨0, _, fun _ _ => rfl, .ok hw.born hw.next⟩

theorem tracks_room : Tracks own Eq World.room fun _ => World.room := fun _ _ hw =>
  Or.inr ⟨0, _, fun _ _ => rfl, .ok hw.room hw⟩

/-- Another cell for a field. -/
theorem tracks_setCell (a : Nat) (l : Label) {c c' : Cell Value} (hc : c.Like own c') :
    Tracks own (fun _ _ => True) (World.updateRow a (·.setCell l c)) fun _ =>
      World.updateRow a (·.setCell l c') :=
  tracks_modify fun _ _ hw => hw.setCell a l hc

/-- Another state of a resolver. -/
theorem tracks_updateResolver (n : Nat) {f f' : Resolver → Resolver}
    (hf : ∀ r r', r.Like own r' → (f r).Like own (f' r')) :
    Tracks own (fun _ _ => True) (World.updateResolver n f) fun _ => World.updateResolver n f' :=
  tracks_modify fun _ _ hw => hw.modify n hf

/-- An issue in the report. -/
theorem tracks_post (i : Issue) : Tracks own (fun _ _ => True) (World.post i) fun _ =>
    World.post i :=
  (tracks_modify fun _ _ hw => hw.post i).bind fun _ _ _ => tracks_get fun w w' hw => by
    rw [← hw.report]
    split
    · exact tracks_throw rfl
    · exact tracks_pure trivial

theorem tracks_allocate {r r' : StoredRecord} (h : r.Like own r') :
    Tracks own (Agree own) (World.allocate r) fun _ => World.allocate r' := fun _ _ hw =>
  Or.inr ⟨0, _, fun _ _ => rfl, .ok (.record hw.size) (hw.push h)⟩

theorem tracks_faulty {r r' : Except Fault α} (h : ResultsMatch V r r') :
    Tracks own V (World.faulty r) fun _ => World.faulty r' := by
  cases h with
  | ok h => exact tracks_pure h
  | error f => exact tracks_throw rfl

/-- A failure with the description of a value. -/
theorem tracks_failWith {make : String → Failure} {v v' : Value}
    (hmake : ∀ s s', (make s).undescribed = (make s').undescribed) (h : Agree own v v') :
    Tracks own V (World.failWith make v) fun _ => World.failWith make v' := fun w w' hw => by
  simp only [run_failWith]
  have hdescribe := h.describe hw
  generalize v.describe w = r, v'.describe w' = r' at hdescribe
  cases hdescribe with
  | ok => exact Or.inr ⟨0, _, fun _ _ => rfl, .error (hmake _ _)⟩
  | error e => exact Or.inr ⟨0, _, fun _ _ => rfl, .error rfl⟩

/-- A failure that is only passed on. -/
theorem Tracks.passing {h h' : Failure → Evaluating α} (hm : Tracks own V m N)
    (hh : ∀ e w, ((h e).run w).1 = .error e) (hh' : ∀ e w, ((h' e).run w).1 = .error e) :
    Tracks own V (tryCatch m h) fun k => tryCatch (N k) h' := fun w w' hw => by
  simp only [Run.run_tryCatch]
  rcases hm w w' hw with hdeep | ⟨n, r, hr, hend⟩
  · left
    generalize m.run w = q at hdeep
    obtain ⟨x, u⟩ := q
    cases hdeep
    exact hh _ _
  · generalize m.run w = q at hend
    cases hend with
    | ok hxy hw => exact Or.inr ⟨n, _, fun k hk => by rw [hr k hk], .ok hxy hw⟩
    | @error e e' u u' he =>
      refine Or.inr ⟨n, _, fun k hk => by rw [hr k hk], ?_⟩
      dsimp only
      rw [← Prod.mk.eta (p := (h e).run u), hh e u, ← Prod.mk.eta (p := (h' e').run u'), hh' e' u']
      exact .error he

/-- What an operator refuses. -/
theorem Tracks.refusing (h : Tracks own V m N) (op : Operator) :
    Tracks own V (Eval.refusing op m) fun k => Eval.refusing op (N k) := fun w w' hw => by
  have hputDown {e e' : Failure} (h : e.undescribed = e'.undescribed) :
      (e.putDown op).undescribed = (e'.putDown op).undescribed := by
    cases e <;> cases e' <;> cases h <;> rfl
  simp only [run_refusing]
  rcases h w w' hw with hdeep | ⟨n, r, hr, hend⟩
  · left
    rw [hdeep]
    rfl
  · generalize m.run w = q at hend
    cases hend with
    | ok hxy hw => exact Or.inr ⟨n, (.ok _, _), fun k hk => by rw [hr k hk]; rfl, .ok hxy hw⟩
    | error he =>
      exact Or.inr ⟨n, (.error _, _), fun k hk => by rw [hr k hk]; rfl, .error (hputDown he)⟩

/-! ### Lists -/

section Lists

variable {R : δ → δ → Prop} {xs ys : List δ}

theorem tracks_mapM {f : δ → Evaluating α} {G : Nat → δ → Evaluating α}
    (hf : ∀ x y, R x y → Tracks own V (f x) fun k => G k y) (h : List.Forall₂ R xs ys) :
    Tracks own (List.Forall₂ V) (xs.mapM f) fun k => ys.mapM (G k) := by
  induction h with
  | nil => exact tracks_pure .nil
  | cons hx _ ih =>
    simp only [List.mapM_cons]
    exact (hf _ _ hx).bind fun _ _ hz => ih.bind fun _ _ hzs => tracks_pure (.cons hz hzs)

theorem tracks_filterAuxM {f : δ → Evaluating Bool} {G : Nat → δ → Evaluating Bool}
    (hf : ∀ x y, R x y → Tracks own Eq (f x) fun k => G k y) (h : List.Forall₂ R xs ys)
    {acc acc' : List δ} (hacc : List.Forall₂ R acc acc') :
    Tracks own (List.Forall₂ R) (xs.filterAuxM f acc) fun k => ys.filterAuxM (G k) acc' := by
  induction h generalizing acc acc' with
  | nil => exact tracks_pure hacc
  | cons hx _ ih =>
    simp only [List.filterAuxM]
    refine (hf _ _ hx).bind fun b _ hb => ?_
    subst hb
    cases b with
    | true => exact ih (.cons hx hacc)
    | false => exact ih hacc

theorem tracks_filterM {f : δ → Evaluating Bool} {G : Nat → δ → Evaluating Bool}
    (hf : ∀ x y, R x y → Tracks own Eq (f x) fun k => G k y) (h : List.Forall₂ R xs ys) :
    Tracks own (List.Forall₂ R) (xs.filterM f) fun k => ys.filterM (G k) := by
  simp only [List.filterM]
  exact (tracks_filterAuxM hf h .nil).bind fun _ _ hzs => tracks_pure (List.rel_reverse hzs)

theorem tracks_foldlM {f : α → δ → Evaluating α} {G : Nat → α → δ → Evaluating α}
    (hf : ∀ b c x y, V b c → R x y → Tracks own V (f b x) fun k => G k c y)
    (h : List.Forall₂ R xs ys) {b c : α}
    (hb : V b c) : Tracks own V (xs.foldlM f b) fun k => ys.foldlM (G k) c := by
  induction h generalizing b c with
  | nil => exact tracks_pure hb
  | cons hx _ ih =>
    simp only [List.foldlM_cons]
    exact (hf _ _ _ _ hb hx).bind fun _ _ hz => ih hz

end Lists

end RowLang
