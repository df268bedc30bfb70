import RowLang.Proofs.Eval.Loose

/-!
# Proofs/Eval/Levels — evaluation is contained at every level

Evaluation, application, operators, reading a field, computing it and loading a module call one
another with one level less to go, so all are shown to be contained together (`Eval.Levels`).
Reading a field asks for its value only if the record has it, and no record loses a field, so that a
key is missed only inside an operator.
-/

namespace RowLang.Eval

variable {Q : Fault → Prop} {w : World}

/-! ## Imports -/

/-- The value of a module, or else an import that fails. -/
def required (name : String) : Option Value → Evaluating Value
  | some v => return v
  | none => throw (.importFailed name)

/-- A computation finds a module, or posts one issue that says why there is none. -/
def Imports (m : Evaluating (Option Value)) : Prop :=
  ∀ name, Tame Fault.Loose (m >>= required name)

theorem imports_some (v : Value) : Imports (return some v) := fun _ => by
  rw [pure_bind]
  exact tame_pure v

theorem imports_throw {e : Failure} (h : ∀ limit, e.Within Fault.Loose limit) : Imports (throw e) :=
  fun _ => (tame_throw h).bind fun x => by
    cases x with
    | some v => exact tame_pure v
    | none => exact tame_throw fun _ => trivial

theorem imports_post (i : Issue) : Imports (World.post i >>= fun _ => return none) := fun name => by
  simp only [bind_assoc, pure_bind]
  exact fun _ => contained_post (e := .importFailed name) fun _ => trivial

theorem Imports.after {α : Type} {m : Evaluating α} {f : α → Evaluating (Option Value)}
    (h : Tame Fault.Loose m) (hf : ∀ x, Imports (f x)) : Imports (m >>= f) := fun name => by
  rw [bind_assoc]
  exact h.bind fun x => hf x name

theorem imports_get {f : World → Evaluating (Option Value)} (h : ∀ w, Imports (f w)) :
    Imports (get >>= f) := fun name => by
  rw [bind_assoc]
  exact tame_get fun w => h w name

theorem tame_modify {f : World → World} (h : ∀ w : World, w.Keeps (f w)) :
    Tame Q (modify f : Evaluating PUnit) := fun _ => contained_modifyGet h

theorem tame_updateResolver (n : Nat) (f : Resolver → Resolver) :
    Tame Q (World.updateResolver n f) :=
  tame_modify fun w => (World.Keeps.refl w).of_records_eq rfl rfl

/-! ## Levels -/

/-- What is contained within some levels. -/
structure Levels (depth : Nat) : Prop where
  eval : ∀ env code, Tame Fault.Loose (eval depth env code)
  apply : ∀ fn arg, Tame Fault.Loose (apply depth fn arg)
  operate : ∀ o args, Tame Fault.Any (operate depth o args)
  field : ∀ v l, Tame Fault.Loose (field depth v l)
  /-- The label is there, or its lack may be told. -/
  force : ∀ {Q : Fault → Prop} {w a l}, (∀ f, f.Loose → Q f) →
    (l ∈ Row.labels (World.row w a) ∨ ∀ f, Q f) →
      Contained Q w (force depth a l) fun w' v => (w'.row a).access l = .ready v
  load : ∀ n name, Imports (load depth n name)

theorem levels_zero : Levels 0 where
  eval _ _ := tame_throw fun _ => trivial
  apply _ _ := tame_throw fun _ => trivial
  operate _ _ := tame_throw fun _ => trivial
  field _ _ := tame_throw fun _ => trivial
  force _ _ := contained_throw fun _ => trivial
  load _ _ := imports_throw fun _ => trivial

/-- Taking apart a value by a pattern only reads fields. -/
theorem tame_collectWith {field : Value → Label → Evaluating Value} (h : ∀ v l, Tame Q (field v l))
    (p : Pattern) : ∀ bindings v, Tame Q (collectWith field bindings p v) := by
  induction p using Pattern.inductOn with
  | name n => exact fun _ _ => tame_pure _
  | wildcard => exact fun _ _ => tame_pure _
  | row fields ih =>
    intro bindings v
    rw [collectWith]
    induction fields generalizing bindings with
    | nil =>
      rw [collectWith.collectFields]
      exact tame_pure _
    | cons p fields ihfields =>
      rw [collectWith.collectFields]
      exact (h _ _).bind fun u => (ih _ List.mem_cons_self _ _).bind fun bindings =>
        ihfields (fun q hq => ih q (List.mem_cons_of_mem _ hq)) _

variable {depth : Nat}

theorem Levels.eval_succ (h : Levels depth) (env : Env) (code : Code) :
    Tame Fault.Loose (Eval.eval (depth + 1) env code) := by
  obtain ⟨here, e⟩ := code
  cases e with
  | number n =>
    cases n with
    | int i => exact tame_pure _
    | real x => exact tame_pure _
  | char c => exact tame_pure _
  | var x =>
    rw [Eval.eval_succ, evalBy]
    cases env.fetch? x with
    | some v => exact tame_pure v
    | none => exact tame_throw fun _ => trivial
  | op o => exact tame_pure _
  | lambda p body => exact tame_birth.bind fun _ => tame_pure _
  | apply fn arg => exact (h.eval _ _).bind fun fn => (h.eval _ _).bind fun arg => h.apply fn arg
  | list elts =>
    exact (tame_mapM (h.eval env) _).bind fun _ => tame_birth.bind fun _ => tame_pure _
  | record fields => exact fun _ => contained_allocate _
  | tuple items => exact fun _ => contained_allocate _
  | dispatch handlers => exact tame_birth.bind fun _ => tame_pure _
  | tag l => exact tame_birth.bind fun _ => tame_pure _
  | load name =>
    rw [Eval.eval_succ, evalBy]
    cases env.root with
    | none => exact tame_throw fun _ => trivial
    | some n => exact h.load n name name
  | ascribe t e => exact h.eval _ _
  | bindIn p bound body =>
    rw [Eval.eval_succ, evalBy]
    exact (h.eval _ _).bind fun v => (tame_collectWith h.field p _ v).bind fun _ => h.eval _ _

theorem Levels.apply_succ (h : Levels depth) (fn arg : Value) :
    Tame Fault.Loose (Eval.apply (depth + 1) fn arg) := by
  have hfail : ∀ {make : String → Failure} (_ : ∀ shown limit,
    (make shown).Within Fault.Loose limit)
      (v : Value), Tame Fault.Loose (Host.plain.failWith make v : Evaluating Value) :=
    fun hmake v _ => contained_failWith (fun _ hf => Or.inl hf) hmake v
  have hroom : Fault.Loose .outOfMemory := Or.inr (Or.inl rfl)
  rw [Eval.apply_succ]
  unfold applyBy
  split
  · exact (tame_collectWith h.field _ _ arg).bind fun _ => h.eval _ _
  · exact tame_birth.bind fun _ => tame_pure _
  · split
    · split
      · exact (h.eval _ _).bind fun fn => h.apply fn _
      · exact hfail (by exact fun _ _ => trivial) _
    · exact hfail (by exact fun _ _ => trivial) _
  · exact fun w => (h.operate _ _ w).refusing hroom
  · exact fun w => (h.operate _ _ w).refusing hroom
  · exact hfail (by exact fun _ _ => trivial) _

theorem Levels.operate_succ (h : Levels depth) (o : Operator) (args : List Value) :
    Tame Fault.Any (Eval.operate (depth + 1) o args) := by
  have happly : ∀ fn arg, Tame Fault.Any (Eval.apply depth fn arg) :=
    fun fn arg => (h.apply fn arg).mono
  have hforce : ∀ a l, Tame Fault.Any (Eval.force depth a l) := fun a l w =>
    (h.force (fun _ _ => trivial) (Or.inr fun _ => trivial)).weaken (fun _ hf => hf)
      fun _ _ _ _ => trivial
  rw [Eval.operate_succ]
  unfold operateBy
  split
  · exact tame_birth.bind fun _ => tame_pure _
  split
  · exact (closed_tame.entries _).bind fun items => (tame_mapM (happly _) items).bind fun _ =>
      tame_birth.bind fun _ => tame_pure _
  · refine (closed_tame.entries _).bind fun items => Tame.bind (fun w => ?_) fun _ =>
      tame_birth.bind fun _ =>
      tame_pure _
    exact contained_filterM fun x => (happly _ x).bind fun v => closed_tame.inWorld.verdictOf v
  · refine (closed_tame.entries _).bind fun items w => ?_
    exact contained_foldlM fun acc x => (happly _ acc).bind fun fn => happly fn x
  · exact closed_tame.sizeOf _
  · exact closed_tame.room.bind fun _ => tame_birth.bind fun _ => closed_tame.faulty _
  · exact tame_birth.bind fun _ => closed_tame.faulty _
  · exact tame_birth.bind fun _ => closed_tame.faulty _
  · exact (h.field _ _).mono.bind fun x => (h.field _ _).mono.bind fun y =>
      closed_tame.inWorld.calculate (fun a l _ => hforce a l) _
  · exact tame_throw fun _ => trivial

theorem Levels.field_succ (h : Levels depth) (v : Value) (l : Label) :
    Tame Fault.Loose (Eval.field (depth + 1) v l) := by
  intro w
  rw [Eval.field_succ]
  unfold fieldBy
  have hfail : ∀ w' : World,
    Contained Fault.Loose w' (Host.plain.failWith (.missingField l) v : Evaluating Value)
      fun _ _ => True := fun _ =>
      contained_failWith (fun _ hf => Or.inl hf) (by exact fun _ _ => trivial) v
  split
  case h_1 a =>
    refine contained_get fun w' _ => ?_
    split
    case isTrue hhas =>
      exact (h.force (fun _ hf => hf) (Or.inl (Row.has_iff.mp hhas))).weaken (fun _ hf => hf)
        fun _ _ _ _ => trivial
    case isFalse => exact hfail w'
  case h_2 => exact hfail w

/-- **Computing a field changes nothing but its own cell**, which was not computed before. -/
theorem ends_compute {m : Evaluating Value} {a : Nat} {l : Label} {initializer : Code}
    (h : Tame Q m) (hi : w.report.issues = []) (hl : (w.row a).access l = .start initializer) :
    Ends Q w (fun w' v => (w'.row a).access l = .ready v) ((do
      World.updateRow a (·.start l)
      let v ← tryCatch m fun e => do
        World.updateRow a (·.abandon l)
        throw e
      World.updateRow a (·.finish l v)
      return v : Evaluating Value).run w) := by
  have hready : ∀ v, (w.row a).access l ≠ .ready v := fun v hv => by
    rw [hv] at hl
    cases hl
  have hstart : w.Keeps (w.setCell a l .inProgress) := (World.Keeps.refl w).setCell hready
  have hm : Ends Q (w.setCell a l .inProgress) (fun _ _ => True) ((tryCatch m fun e => do
      World.updateRow a (·.abandon l)
      throw e : Evaluating Value).run (w.setCell a l .inProgress)) :=
    (h _).orElse (fun w => w.setCell a l .absent) (fun _ => rfl) _ (.refl _) hi
  have hrun : (World.updateRow a (·.start l)).run w = (.ok ⟨⟩, w.setCell a l .inProgress) := rfl
  rw [Run.run_bind, hrun]
  dsimp only
  rw [Run.run_bind]
  split
  case h_1 v w' hrun =>
    rw [hrun] at hm
    have hkeeps := hstart.trans hm.1
    refine ⟨hkeeps.setCell (c := .ready v) hready, ?_⟩
    show ((w'.setCell a l (.ready v)).row a).access l = _
    rw [World.row_setCell, if_pos rfl]
    exact LazyRow.access_finish (hkeeps.labels a l (LazyRow.mem_labels_of_access_start hl)) v
  case h_2 e w' hrun =>
    rw [hrun] at hm
    exact hm

/-- **Only what is there is asked for.** -/
theorem Levels.force_succ (h : Levels depth) {a : Nat} {l : Label} (hQ : ∀ f, f.Loose → Q f)
    (hl : l ∈ Row.labels (w.row a) ∨ ∀ f, Q f) :
    Contained Q w (Eval.force (depth + 1) a l) fun w' v => (w'.row a).access l = .ready v := by
  intro w' hw hi
  rw [Eval.force_succ, forceBy, Host.plainly_plain, Run.run_bind, Run.run_get]
  dsimp only
  cases haccess : (w'.row a).access l with
  | missing =>
    refine contained_throw (fun _ => ?_) w' (.refl w') hi
    rcases hl with hl | hl
    · exact absurd haccess (LazyRow.access_ne_missing (hw.labels a l hl))
    · exact hl _
  | circular =>
    exact contained_throw (e := .selfReferentialField l) (fun _ => trivial) w' (.refl w') hi
  | ready v => exact ⟨.refl w', haccess⟩
  | start initializer =>
    dsimp only
    rw [Run.run_bind, Run.run_get]
    exact ends_compute (fun w => (h.eval _ _ w).weaken hQ fun _ _ _ h => h) hi haccess

/-- A module is read, and its value is computed, while it is under construction. -/
theorem Levels.load_succ (h : Levels depth) (n : Nat) (name : String) :
    Imports (Eval.load (depth + 1) n name) := by
  rw [Eval.load_succ]
  refine imports_get fun w => ?_
  dsimp only
  split
  · exact imports_some _
  split
  · exact imports_post _
  unfold fetching
  split
  case h_1 f hf => exact imports_throw fun _ => Library.loose_of_source hf
  case h_2 => exact imports_post _
  refine .after (tame_modify fun w => (World.Keeps.refl w).of_records_eq rfl rfl) fun _ => ?_
  split
  case h_1 f hf => exact imports_throw fun _ => Or.inl (Expr.oversized_of_parse hf)
  case h_2 => exact imports_throw fun _ => trivial
  case h_3 => exact imports_post _
  case h_4 tree _ =>
    refine .after (tame_updateResolver n _) fun _ => .after tame_birth fun _ => .after ?_ fun v =>
      .after (tame_updateResolver n _) fun _ => imports_some v
    exact fun w => (h.eval _ _ w).orElse _ fun _ => rfl

/-- **Evaluation is contained within any number of levels.** -/
theorem levels (depth : Nat) : Levels depth := by
  induction depth with
  | zero => exact levels_zero
  | succ depth ih =>
    exact ⟨ih.eval_succ, ih.apply_succ, ih.operate_succ, ih.field_succ, ih.force_succ, ih.load_succ⟩

end RowLang.Eval
