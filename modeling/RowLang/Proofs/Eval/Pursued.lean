import RowLang.Proofs.Eval.Alike
import RowLang.Proofs.Eval.Clauses
import RowLang.Proofs.Eval.Filled
import RowLang.Proofs.Eval.Loading

/-!
# Proofs/Eval/Pursued — evaluation is followed

Whatever is evaluated, applied, read or loaded, shadows follow it by discreet evaluation.  The
functions of the evaluator call one another with one level less, so all are shown to be followed
together (`Eval.Pursued`); reading a field and loading a module begin computations that have makers
of their own.
-/

namespace RowLang

variable {o : Maker} {d : Nat} {t : Moment}

/-! ## Modules that begin to be loaded -/

section Imports

variable {k : Nat} {name : String} {tree : Expr}

/-- A module begins to be loaded, and shadows follow its computation. -/
theorem follows_import_start (hk : t.world.Has (.resolver k))
    (hloaded : (t.world.resolver k).loaded.lookup name = none)
    (hfind : t.world.library.find (t.world.resolver k) name = .module tree)
    (heval : Follows (.module k name) d (t.entering k name)
      (Eval.eval d (.ofRoot (some k)) ⟨{ birth := t.world.births }, tree⟩)
        (.ofModule k t.world.births tree)
      (fun p n => Discreet.eval n p.1 p.2) .ofValue) :
    Follows o (d + 1) t (Eval.load (d + 1) k name >>= Eval.required name) (.ofResolver k)
      (fun k' n => Discreet.load n k' name >>= Eval.required name) .ofValue := by
  intro hsound
  have hle : t.Le (t.entering k name) := Moment.le_entering t k name
  obtain ⟨maker, h⟩ := heval (hsound.entering hk hloaded (Library.not_mem_of_find hfind))
  obtain ⟨hok, herror⟩ := run_importBy_module (Eval.within .plain d) hloaded hfind
  rw [import_eq]
  revert h
  cases hrun : (Eval.eval d (.ofRoot (some k)) ⟨{ birth := t.world.births }, tree⟩).run
      (t.world.entering k name) with
  | mk q w' =>
    intro h
    rw [show (t.entering k name).world = t.world.entering k name from rfl, hrun] at h
    have hcon := construction_of_computed hk h
    have hk' : w'.Has (.resolver k) :=
      h.le.world.has _ ((World.precedes_entering _ k name).has _ hk)
    have horderly := h.sound.whole.orderly k
    have hsteady {f : Resolver → Resolver} : (∀ r, (f r).construction = r.construction.dropLast) →
        t.world.Steady { w' with resolvers := w'.resolvers.modify k f } :=
          World.steady_of_loading hk h.steady hk'
    cases q with
    | ok v =>
      have hkept : ∀ other x, (w'.resolver k).loaded.lookup other = some x →
          (((w'.resolver k).keep name v).leave).loaded.lookup other = some x := fun _ _ =>
        lookup_keep_leave horderly hcon
      have hresult := h.result v rfl
      have hcaught := caughtModule_of_computed hk hfind h
      rw [hok v w' hrun]
      refine ⟨maker, ?_⟩
      exact {
        le := hle.trans (h.le.trans (Moment.le_leaving hkept))
        sound := h.sound.leaving hk' hkept (fun other x hx => by
          rw [show (((w'.resolver k).keep name v).leave).loaded.lookup other
            = if other = name then some v else (w'.resolver k).loaded.lookup other from
              Resolver.lookup_keep _ _ _ _] at hx
          split at hx
          case isTrue hother =>
            cases hx
            exact Or.inr ⟨hresult.2, hother ▸ hcaught⟩
          case isFalse => exact Or.inl hx) (horderly.keep_leave hcon)
        steady := hsteady fun _ => rfl
        result := by
          rintro x ⟨⟩
          exact ⟨hresult.1,
            hresult.2.mono (Moment.le_leaving (t := ⟨w', maker⟩) hkept).world.itself_le⟩
        catches := by
          rintro x ⟨⟩ u s k' n hu hs hk
          exact (hcaught u s k' n hu hs.behind hs.apart hk).weaken fun _ => Or.inl
        fails := by rintro e ⟨⟩ }
    | error e =>
      rw [herror e w' hrun]
      refine ⟨maker, ?_⟩
      exact {
        le := hle.trans (h.le.trans (Moment.le_leaving fun _ _ hx => hx))
        sound := h.sound.leaving hk' (fun _ _ hx => hx) (fun _ _ hx => Or.inl hx) horderly.leave
        steady := hsteady fun _ => rfl
        result := by rintro x ⟨⟩
        catches := by rintro x ⟨⟩
        fails := by
          rintro _ ⟨⟩ s k' n hn hs hknows hstep hk
          cases n with
          | zero => exact Or.inl rfl
          | succ n =>
            rw [Discreet.import_eq]
            have hunloaded := Shadow.InStep.unloaded hs hk hloaded
            have hfind' := (hstep.find_eq hs hk name).trans hfind
            have hbehind : (s.entering k' name t.world.births).Behind (t.entering k name) :=
              (hs.mono hle).entering hk hunloaded (Library.not_mem_of_find hfind')
                (Nat.lt_succ_self _) (if_neg (Nat.lt_irrefl _))
            exact (h.fails e rfl _ _ n (Nat.le_of_succ_le_succ hn) hbehind
              (Shadow.knows_entering hk (hs.has hk).1) (hstep.entering hs hk)
              (Counterparts.ofModule_entering hk)).leaving hunloaded hfind' }

/-- **The import of a module is followed.** -/
theorem follows_import (hk : t.world.Has (.resolver k))
    (heval : ∀ tree, Follows (.module k name) d (t.entering k name)
      (Eval.eval d (.ofRoot (some k)) ⟨{ birth := t.world.births }, tree⟩)
        (.ofModule k t.world.births tree)
      (fun p n => Discreet.eval n p.1 p.2) .ofValue) :
    Follows o (d + 1) t (Eval.load (d + 1) k name >>= Eval.required name) (.ofResolver k)
      (fun k' n => Discreet.load n k' name >>= Eval.required name) .ofValue := by
  cases hloaded : (t.world.resolver k).loaded.lookup name with
  | some v => exact follows_import_loaded hloaded
  | none =>
    by_cases hfind : ∃ tree, t.world.library.find (t.world.resolver k) name = .module tree
    · obtain ⟨tree, hfind⟩ := hfind
      exact follows_import_start hk hloaded hfind (heval tree)
    · exact follows_import_failure hloaded fun tree h => hfind ⟨tree, h⟩

end Imports

/-- **The reading of a field is followed.** -/
theorem follows_force {a : Nat} {l : Label} (ha : t.world.Has (.record a))
    (heval : ∀ r i, t.world.records[a]? = some r → (t.world.row a).access l = .start i →
      Follows (.field a l) d (t.setCell a l .inProgress) (Eval.eval d (r.env a) i) (.ofField r a i)
        (fun p n => Discreet.eval n p.1 p.2) .ofValue) :
    Follows o (d + 1) t (Eval.force (d + 1) a l) (.ofAddress a) (fun a' n => Discreet.force n a' l)
      .ofValue := by
  cases hl : (t.world.row a).access l with
  | missing => exact follows_force_missing ha hl
  | circular => exact follows_force_circular hl
  | ready v => exact follows_force_ready hl
  | start i =>
    obtain ⟨r, hr⟩ := World.exists_of_has ha
    exact follows_force_start hr hl (heval r i hr hl)

/-! ## Values of one kind or another -/

theorem Value.Matches.handled? {β : Matching} {v v' : Value} {handlers handlers' : Row Code}
    (h : v'.Matches β v) (hhandlers : Row.Matches (Code.Matches β) handlers' handlers) :
    Option.Rel (fun p q => p.1.Matches β q.1 ∧ p.2.Matches β q.2) (v'.handled? handlers')
      (v.handled? handlers) := by
  have hlike := h.like.handled? hhandlers
  generalize v'.handled? handlers' = r', v.handled? handlers = r at hlike ⊢
  cases hlike with
  | none => exact .none
  | some hpq => exact .some ⟨hpq.1, hpq.2.matches⟩

theorem Value.Matches.holder? {β : Matching} {w w' : World} {v v' : Value} (h : v'.Matches β v)
    (hw : World.Alike β w' w) (l : Label) :
    Option.Rel (fun a' a => β (.record a') (.record a)) (v'.holder? w' l) (v.holder? w l) :=
  h.like.holder? l fun a' a ha => by rw [Bool.eq_iff_iff, Row.has_iff, Row.has_iff, hw a' a ha]

theorem eq_none_of_rel {α γ : Type} {S : α → γ → Prop} {x : Option α}
    (h : Option.Rel S x none) : x = none := by
  cases h
  rfl

theorem exists_of_rel {α γ : Type} {S : α → γ → Prop} {x : Option α} {y : γ}
    (h : Option.Rel S x (some y)) :
    ∃ z, x = some z ∧ S z y := by
  cases h with
  | some h => exact ⟨_, rfl, h⟩

/-- **What is there or not** is there or not on the other side, and shadows follow what is done in
either case. -/
theorem follows_elim {α ι κ : Type} {m : Evaluating α} {f : κ → Evaluating α} {R : Counterparts ι}
    {B : ι → Nat → Evaluating α} {F : ι → Nat → κ → Evaluating α} {V : α → Counterparts α}
    {x : Option κ} {x' : ι → Option κ} (T : κ → Counterparts κ)
    (hself : Option.Rel (fun k a => (T a).rel t.world.itself k) x x)
    (hx : ∀ β i, R.rel β i → Option.Rel (fun k a => (T a).rel β k) (x' i) x)
    (hnone : Follows o d t m R B V)
    (hsome : ∀ a, (T a).rel t.world.itself a → Follows o d t (f a) (R.both (T a))
      (fun p n => F p.1 n p.2) V) :
    Follows o d t (x.elim m f) R (fun i n => (x' i).elim (B i n) (F i n)) V := by
  cases x with
  | none =>
    refine hnone.reindex fun β i n hi => ⟨i, hi, ?_⟩
    rw [eq_none_of_rel (hx β i hi)]
    rfl
  | some a =>
    have ha : (T a).rel t.world.itself a := by
      cases hself with
      | some h => exact h
    refine (hsome a ha).reindex fun β i n hi => ?_
    obtain ⟨k, hk, hmatches⟩ := exists_of_rel (hx β i hi)
    exact ⟨(i, k), ⟨hi, hmatches⟩, by rw [hk]; rfl⟩

/-- What is done with one value is done with a single argument. -/
theorem Follows.single {x : Value} {m : Evaluating Value} {B : List Value → Nat → Evaluating Value}
    {C : Value → Nat → Evaluating Value} (h : Follows o d t m (.ofValue x) C .ofValue)
    (hB : ∀ x' n, B [x'] n = C x' n) : Follows o d t m (.list .ofValue [x]) B .ofValue :=
  h.reindex fun β args n hargs => by
    obtain _ | ⟨hx, _ | _⟩ := hargs
    exact ⟨_, hx, hB _ n⟩

/-! ## Levels -/

namespace Eval

/-- What shadows follow within some levels. -/
structure Pursued (d : Nat) : Prop where
  eval : ∀ {o t env code}, Env.Matches t.world.itself env env → code.Matches t.world.itself code →
    Follows o d t (eval d env code) ((Counterparts.ofEnv env).both (.ofCode code))
      (fun p n => Discreet.eval n p.1 p.2) .ofValue
  apply : ∀ {o t fn arg}, fn.Matches t.world.itself fn → arg.Matches t.world.itself arg →
    Follows o d t (apply d fn arg) ((Counterparts.ofValue fn).both (.ofValue arg))
      (fun p n => Discreet.apply n p.1 p.2) .ofValue
  operate : ∀ {o t args} (op : Operator), Value.AllMatch t.world.itself args args →
    Follows o d t (operate d op args) (.list .ofValue args)
      (fun args' n => Discreet.operate n op args') .ofValue
  field : ∀ {o t v} (l : Label), v.Matches t.world.itself v →
    Follows o d t (field d v l) (.ofValue v) (fun v' n => Discreet.field n v' l) .ofValue
  force : ∀ {o a} {t : Moment} (l : Label), t.world.Has (.record a) →
    Follows o d t (force d a l) (.ofAddress a) (fun a' n => Discreet.force n a' l) .ofValue
  load : ∀ {o k} {t : Moment} (name : String), t.world.Has (.resolver k) →
    Follows o d t (load d k name >>= required name) (.ofResolver k)
      (fun k' n => Discreet.load n k' name >>= required name) .ofValue

theorem pursued_zero : Pursued 0 where
  eval _ _ := follows_tooDeep fun _ => rfl
  apply _ _ := follows_tooDeep fun _ => rfl
  operate _ _ := follows_tooDeep fun _ => rfl
  field _ _ := follows_tooDeep fun _ => rfl
  force _ _ := follows_tooDeep fun _ => rfl
  load _ _ := follows_tooDeep fun _ => rfl

/-! ### Expressions -/

section Expressions

variable {env : Env} {here : Origin} {e : Expr}

/-- The evaluation of an expression depends on the scope and on where the expression stands. -/
theorem follows_eval {m : Evaluating Value} {C : Env × Origin → Nat → Evaluating Value}
    (h : Follows o d t m ((Counterparts.ofEnv env).both (.ofOrigin here)) C .ofValue)
    (hm : eval (d + 1) env ⟨here, e⟩ = m)
    (hC : ∀ env' here' n, Discreet.eval (n + 1) env' ⟨here', e⟩ = C (env', here') n) :
    Follows o (d + 1) t (eval (d + 1) env ⟨here, e⟩)
      ((Counterparts.ofEnv env).both (.ofCode ⟨here, e⟩))
      (fun p n => Discreet.eval n p.1 p.2) .ofValue :=
  h.deeper hm (fun _ => rfl) fun β p n hp => by
    obtain ⟨env', here', e'⟩ := p
    obtain ⟨henv, hhere, rfl⟩ := hp
    exact ⟨(env', here'), ⟨henv, hhere⟩, hC env' here' n⟩

/-- A part of an expression is followed where it stands. -/
theorem Pursued.part (h : Pursued d) (henv : Env.Matches t.world.itself env env)
    (hhere : here.Matches t.world.itself here) (i : Nat) (e : Expr) :
    Follows o d t (Eval.eval d env ⟨here.part i, e⟩)
      ((Counterparts.ofEnv env).both (.ofOrigin here))
      (fun p n => Discreet.eval n p.1 ⟨p.2.part i, e⟩) .ofValue :=
  (h.eval henv ⟨hhere.part i, rfl⟩).reindex
    fun _ p _ hp => ⟨(p.1, ⟨p.2.part i, e⟩), ⟨hp.1, hp.2.part i, rfl⟩, rfl⟩

theorem Pursued.follows_application (h : Pursued d) (henv : Env.Matches t.world.itself env env)
    (hhere : here.Matches t.world.itself here) (fn arg : Expr) :
    Follows o d t
      (do
        let fn ← Eval.eval d env ⟨here.part 0, fn⟩
        let arg ← Eval.eval d env ⟨here.part 1, arg⟩
        Eval.apply d fn arg)
      ((Counterparts.ofEnv env).both (.ofOrigin here))
      (fun p n => do
        let fn ← Discreet.eval n p.1 ⟨p.2.part 0, fn⟩
        let arg ← Discreet.eval n p.1 ⟨p.2.part 1, arg⟩
        Discreet.apply n fn arg)
      .ofValue := by
  refine (h.part henv hhere 0 fn).bind fun t₁ f ht hf =>
    Follows.bind (V := .ofValue) ?_ fun t₂ x ht₂ hx => ?_
  · exact (h.part (henv.mono ht.world.itself_le) (hhere.mono ht.world.itself_le) 1 arg).reindex
      fun β p n hp => ⟨p.1, hp.1, rfl⟩
  · exact (h.apply (hf.mono ht₂.world.itself_le) hx).reindex
      fun β p n hp => ⟨(p.1.2, p.2), ⟨hp.1.2, hp.2⟩, rfl⟩

theorem Pursued.follows_list (h : Pursued d) (henv : Env.Matches t.world.itself env env)
    (hhere : here.Matches t.world.itself here) (elts : List Expr) :
    Follows o d t
      (do
        let items ← (Code.parts here elts).mapM (Eval.eval d env)
        return .list (← World.birth) items)
      ((Counterparts.ofEnv env).both (.ofOrigin here))
      (fun p n => do
        let items ← (Code.parts p.2 elts).mapM (Discreet.eval n p.1)
        return .list (← World.birth) items)
      .ofValue := by
  have hparts := Code.matches_parts hhere elts
  refine Follows.bind (V := .list .ofValue) ?_ fun t₁ items ht hitems =>
    follows_birth.bind fun t₂ b ht₂ hb => ?_
  · exact (follows_mapM (E := .ofCode) (R := .ofEnv env)
      (F := fun env' n c => Discreet.eval n env' c)
      (fun c hc => List.forall₂_same.mp hparts c hc) fun t₁ c ht _ hself =>
        h.eval (henv.mono ht.world.itself_le) hself).reindex
      fun β p n hp => ⟨(p.1, Code.parts p.2 elts), ⟨hp.1, Code.matches_parts hp.2 elts⟩, rfl⟩
  · exact follows_pure (Value.matches_list hb (Value.AllMatch.mono hitems ht₂.world.itself_le))
      fun β p hp => Value.matches_list hp.2 hp.1.2

theorem Pursued.follows_bindIn (h : Pursued d) (henv : Env.Matches t.world.itself env env)
    (hhere : here.Matches t.world.itself here) (p : Pattern) (bound body : Expr) :
    Follows o d t
      (do
        let v ← Eval.eval d env ⟨here.part 0, bound⟩
        let bindings ← collectWith (Eval.field d) [] p v
        Eval.eval d (env.extend bindings) ⟨here.part 1, body⟩)
      ((Counterparts.ofEnv env).both (.ofOrigin here))
      (fun q n => do
        let v ← Discreet.eval n q.1 ⟨q.2.part 0, bound⟩
        let bindings ← collectWith (Discreet.field n) [] p v
        Discreet.eval n (q.1.extend bindings) ⟨q.2.part 1, body⟩)
      .ofValue := by
  refine (h.part henv hhere 0 bound).bind fun t₁ v ht hv => Follows.bind (V := .ofBindings) ?_
    fun t₂ bs ht₂ hbs => ?_
  · exact (follows_collectWith (fun t v l hv => h.field l hv) p .nil hv).reindex
      fun β q n hq => ⟨([], q.2), ⟨.nil, hq.2⟩, rfl⟩
  · have hle := (ht.trans ht₂).world.itself_le
    exact (h.part ((henv.mono hle).extend hbs) (hhere.mono hle) 1 body).reindex
      fun β q n hq => ⟨(q.1.1.1.extend q.2, q.1.1.2), ⟨hq.1.1.1.extend hq.2, hq.1.1.2⟩, rfl⟩

theorem Pursued.eval_succ (h : Pursued d) (henv : Env.Matches t.world.itself env env)
    (hhere : here.Matches t.world.itself here) :
    Follows o (d + 1) t (Eval.eval (d + 1) env ⟨here, e⟩)
      ((Counterparts.ofEnv env).both (.ofCode ⟨here, e⟩))
      (fun p n => Discreet.eval n p.1 p.2) .ofValue := by
  cases e with
  | number n =>
    cases n with
    | int i =>
      exact follows_eval (C := fun p _ => return .int p.2 i)
        (follows_pure (Value.Matches.int hhere) fun _ _ hp => .int hp.2) rfl
        fun _ _ _ => rfl
    | real x =>
      exact follows_eval (C := fun p _ => return .real p.2 x)
        (follows_pure (Value.Matches.real hhere) fun _ _ hp => .real hp.2) rfl
        fun _ _ _ => rfl
  | char c =>
    exact follows_eval (C := fun p _ => return .text p.2 [c.toNat])
      (follows_pure (Value.Matches.text hhere) fun _ _ hp => .text hp.2) rfl
      fun _ _ _ => rfl
  | var x =>
    refine follows_eval (C := fun p _ => (p.1.fetch? x).elim (throw (.unboundName x)) pure)
      (follows_elim .ofValue (henv.fetch? x) (fun β p hp => hp.1.fetch? x)
        (follows_throw _) fun v hv =>
        follows_pure hv fun β p hp => hp.2) ?_ fun env' _ _ => ?_
    · rw [eval_succ, evalBy]
      cases env.fetch? x <;> rfl
    · rw [Discreet.eval_succ, evalBy]
      cases env'.fetch? x <;> rfl
  | op op =>
    exact follows_eval (C := fun _ _ => return .operator op)
      (follows_pure Value.Matches.operator fun _ _ _ => .operator) rfl
      fun _ _ _ => rfl
  | lambda p body =>
    refine follows_eval (C := fun q _ => do
      return .closure (← World.birth) q.1 p ⟨q.2.part 0, body⟩) ?_ rfl
      fun _ _ _ => rfl
    exact follows_birth.bind fun t₁ b ht hb => follows_pure
      (Value.matches_closure hb (henv.mono ht.world.itself_le)
        ⟨(hhere.mono ht.world.itself_le).part 0, rfl⟩)
      fun β q hq => Value.matches_closure hq.2 hq.1.1 ⟨hq.1.2.part 0, rfl⟩
  | apply fn arg =>
    exact follows_eval (h.follows_application henv hhere fn arg) rfl fun _ _ _ => rfl
  | list elts =>
    exact follows_eval (h.follows_list henv hhere elts) rfl fun _ _ _ => rfl
  | record fields =>
    exact follows_eval (C := fun p _ => World.allocate ⟨p.1, true, .ofRow (Code.fields p.2 fields)⟩)
      (follows_allocate henv (Code.matches_fields hhere fields) (fun _ _ hp => hp.1)
        fun _ _ hp => Code.matches_fields hp.2 fields) rfl fun _ _ _ => rfl
  | tuple items =>
    exact follows_eval
      (C := fun p _ => World.allocate ⟨p.1, false, .ofRow (Code.fields p.2 (Row.positional items))⟩)
      (follows_allocate henv (Code.matches_fields hhere _) (fun _ _ hp => hp.1)
        fun _ _ hp => Code.matches_fields hp.2 _) rfl fun _ _ _ => rfl
  | dispatch handlers =>
    refine follows_eval (C := fun p _ => do
      return .dispatcher (← World.birth) p.1 (Code.fields p.2 handlers)) ?_ rfl
      fun _ _ _ => rfl
    exact follows_birth.bind fun t₁ b ht hb => follows_pure
      (Value.matches_dispatcher hb (henv.mono ht.world.itself_le)
        (Code.matches_fields (hhere.mono ht.world.itself_le) handlers))
      fun β p hp => Value.matches_dispatcher hp.2 hp.1.1 (Code.matches_fields hp.1.2 handlers)
  | tag l =>
    refine follows_eval (C := fun p _ => do return .tagger (← World.birth) ⟨l, p.2.part 0⟩) ?_
      rfl fun _ _ _ => rfl
    exact follows_birth.bind fun t₁ b ht hb => follows_pure
      (Value.Matches.tagger hb ⟨rfl, (hhere.mono ht.world.itself_le).part 0⟩)
      fun β p hp => .tagger hp.2 ⟨rfl, hp.1.2.part 0⟩
  | load name =>
    refine follows_eval (C := fun p n => p.1.root.elim (throw (.importFailed name)) fun k =>
        Discreet.load n k name >>= required name)
      (follows_elim .ofResolver henv.root (fun β p hp => hp.1.root) (follows_throw _)
        fun k hk => (h.load name hk.2).reindex fun β p n hp => ⟨p.2, hp.2, rfl⟩) ?_
          fun env' _ _ => ?_
    · rw [eval_succ, evalBy]
      cases env.root <;> rfl
    · rw [Discreet.eval_succ, evalBy]
      cases env'.root <;> rfl
  | ascribe ty e =>
    exact follows_eval (h.part henv hhere 0 e) rfl fun _ _ _ => rfl
  | bindIn p bound body =>
    exact follows_eval (h.follows_bindIn henv hhere p bound body) rfl
      fun _ _ _ => rfl

end Expressions

/-! ### Application -/

theorem Pursued.follows_closure (h : Pursued d) {env : Env} {p : Pattern} {code : Code}
    {arg : Value}
    (henv : Env.Matches t.world.itself env env) (hcode : code.Matches t.world.itself code)
    (harg : arg.Matches t.world.itself arg) :
    Follows o d t
      (do
        let bindings ← collectWith (Eval.field d) [] p arg
        Eval.eval d (env.extend bindings) code)
      (((Counterparts.ofEnv env).both (.ofCode code)).both (.ofValue arg))
      (fun q n => do
        let bindings ← collectWith (Discreet.field n) [] p q.2
        Discreet.eval n (q.1.1.extend bindings) q.1.2)
      .ofValue := by
  refine Follows.bind (V := .ofBindings) ?_ fun t₁ bs ht hbs => ?_
  · exact (follows_collectWith (fun t v l hv => h.field l hv) p .nil harg).reindex
      fun β q n hq => ⟨([], q.2), ⟨.nil, hq.2⟩, rfl⟩
  · exact (h.eval ((henv.mono ht.world.itself_le).extend hbs)
      (hcode.mono ht.world.itself_le)).reindex
      fun β q n hq => ⟨(q.1.1.1.extend q.2, q.1.1.2), ⟨hq.1.1.1.extend hq.2, hq.1.1.2⟩, rfl⟩

theorem Pursued.follows_dispatch (h : Pursued d) {env : Env} {handlers : Row Code} {arg : Value}
    (henv : Env.Matches t.world.itself env env)
    (hhandlers : Row.Matches (Code.Matches t.world.itself) handlers handlers)
    (harg : arg.Matches t.world.itself arg) :
    Follows o d t ((arg.handled? handlers).elim (World.failWith .unhandledTag arg)
        fun c => do Eval.apply d (← Eval.eval d env c.1) c.2)
      (((Counterparts.ofEnv env).both (.ofHandlers handlers)).both (.ofValue arg))
      (fun p n => (p.2.handled? p.1.2).elim (Discreet.failWith .unhandledTag p.2)
        fun c => do Discreet.apply n (← Discreet.eval n p.1.1 c.1) c.2) .ofValue := by
  refine follows_elim (fun c => (Counterparts.ofCode c.1).both (.ofValue c.2))
    (harg.handled? hhandlers)
    (fun β p hp => Value.Matches.handled? hp.2 hp.1.2) (follows_failWith harg fun _ _ hp => hp.2)
      fun c hc => ?_
  refine Follows.bind (V := .ofValue) ?_ fun t₁ f ht hf => ?_
  · exact (h.eval henv hc.1).reindex fun β q n hq => ⟨(q.1.1.1, q.2.1), ⟨hq.1.1.1, hq.2.1⟩, rfl⟩
  · exact (h.apply hf (hc.2.mono ht.world.itself_le)).reindex
      fun β q n hq => ⟨(q.2, q.1.2.2), ⟨hq.2, hq.1.2.2⟩, rfl⟩

theorem Pursued.apply_succ (h : Pursued d) {fn arg : Value} (hfn : fn.Matches t.world.itself fn)
    (harg : arg.Matches t.world.itself arg) :
    Follows o (d + 1) t (Eval.apply (d + 1) fn arg) ((Counterparts.ofValue fn).both (.ofValue arg))
      (fun p n => Discreet.apply n p.1 p.2) .ofValue := by
  have hzero : ∀ p : Value × Value, Discreet.apply 0 p.1 p.2 = throw .tooDeep := fun _ => rfl
  by_cases hproc : fn.isProcedure = true
  case neg =>
    exact Follows.deeper (S := .ofValue fn) (C := fun fn' _ => Discreet.failWith .notAProcedure fn')
      (follows_failWith hfn fun _ _ h => h) (applyBy_not_procedure hproc arg) hzero fun β p n hp =>
        ⟨p.1, hp.1, applyBy_not_procedure (Value.Matches.isProcedure_eq hp.1 ▸ hproc) p.2⟩
  -- Whatever matches a function is one of the same kind, and the same clause applies it.
  cases hfn with
  | @closure _ _ env _ p code _ _ hroot hnames hvalues hcode =>
    refine (h.follows_closure ⟨hroot, hnames, hvalues⟩ hcode harg).deeper rfl hzero
      fun β q n hq => ?_
    obtain ⟨fn', arg'⟩ := q
    obtain ⟨hfn', harg'⟩ := hq
    cases hfn' with
    | @closure _ _ env' _ _ code' _ _ hroot' hnames' hvalues' hcode' =>
      exact ⟨((env', code'), arg'), ⟨⟨⟨hroot', hnames', hvalues'⟩, hcode'⟩, harg'⟩, rfl⟩
  | @tagger _ _ tag _ _ ht =>
    refine Follows.deeper (S := (Counterparts.ofTag tag).both (.ofValue arg))
      (C := fun p _ => do return .tagged (← World.birth) p.1 p.2) ?_ rfl hzero fun β p n hp => ?_
    · exact follows_birth.bind fun t₁ b ht₁ hb => follows_pure
        (Value.Matches.tagged hb (ht.mono ht₁.world.itself_le) (harg.mono ht₁.world.itself_le))
        fun β p hp => .tagged hp.2 hp.1.1 hp.1.2
    · obtain ⟨fn', arg'⟩ := p
      obtain ⟨hfn', harg'⟩ := hp
      cases hfn' with
      | @tagger _ _ tag' _ _ ht' => exact ⟨(tag', arg'), ⟨ht', harg'⟩, rfl⟩
  | @dispatcher own _ env _ handlers _ _ hroot hnames hvalues hhandlers =>
    refine (h.follows_dispatch ⟨hroot, hnames, hvalues⟩ hhandlers harg).deeper
      (applyBy_dispatcher own env handlers arg) hzero
      fun β q n hq => ?_
    obtain ⟨fn', arg'⟩ := q
    obtain ⟨hfn', harg'⟩ := hq
    cases hfn' with
    | @dispatcher own' _ env' _ handlers' _ _ hroot' hnames' hvalues' hhandlers' =>
      exact ⟨((env', handlers'), arg'), ⟨⟨⟨hroot', hnames', hvalues'⟩, hhandlers'⟩, harg'⟩,
        applyBy_dispatcher own' env' handlers' arg'⟩
  | @operator op =>
    refine Follows.deeper (S := .list .ofValue [arg])
      (C := fun args n => refusing op (Discreet.operate n op args))
      ((h.operate op (.cons harg .nil)).refusing op) rfl hzero fun β p n hp => ?_
    obtain ⟨fn', arg'⟩ := p
    obtain ⟨hfn', harg'⟩ := hp
    cases hfn'
    exact ⟨[arg'], .cons harg' .nil, rfl⟩
  | @waiting _ _ op args _ _ hlen hargs =>
    have hargs := Value.allMatch_of_zip hlen hargs
    refine Follows.deeper (S := .list .ofValue (args ++ [arg]))
      (C := fun args n => refusing op (Discreet.operate n op args))
      ((h.operate op (List.rel_append hargs (.cons harg .nil))).refusing op) rfl hzero
      fun β p n hp => ?_
    obtain ⟨fn', arg'⟩ := p
    obtain ⟨hfn', harg'⟩ := hp
    cases hfn' with
    | @waiting _ _ _ args' _ _ hlen' hargs' =>
      exact ⟨args' ++ [arg'], List.rel_append (Value.allMatch_of_zip hlen' hargs')
        (.cons harg' .nil),
        rfl⟩
  | _ => cases hproc

/-! ### Operators -/

theorem Pursued.follows_map (h : Pursued d) {fn xs : Value} (hfn : fn.Matches t.world.itself fn)
    (hxs : xs.Matches t.world.itself xs) :
    Follows o d t
      (do
        let items ← (← entries xs).mapM (Eval.apply d fn)
        return .list (← World.birth) items)
      ((Counterparts.ofValue fn).both (.ofValue xs))
      (fun p n => do
        let items ← (← entries p.2).mapM (Discreet.apply n p.1)
        return .list (← World.birth) items)
      .ofValue := by
  refine Follows.bind (V := .list .ofValue) ?_ fun t₁ items ht hitems =>
    Follows.bind (V := .list .ofValue) ?_ fun t₂ ys ht₂ hys =>
      follows_birth.bind fun t₃ b ht₃ hb => ?_
  · exact (follows_entries hxs).reindex fun β p n hp => ⟨p.2, hp.2, rfl⟩
  · exact (follows_mapM (E := .ofValue) (R := .ofValue fn)
      (F := fun fn' n x => Discreet.apply n fn' x)
      (fun x hx => List.forall₂_same.mp hitems x hx) fun t₂ x ht₂ _ hx =>
        h.apply (hfn.mono (ht.trans ht₂).world.itself_le) hx).reindex
      fun β p n hp => ⟨(p.1.1, p.2), ⟨hp.1.1, hp.2⟩, rfl⟩
  · exact follows_pure (Value.matches_list hb (Value.AllMatch.mono hys ht₃.world.itself_le))
      fun β p hp => Value.matches_list hp.2 hp.1.2

theorem Pursued.follows_filter (h : Pursued d) {fn xs : Value} (hfn : fn.Matches t.world.itself fn)
    (hxs : xs.Matches t.world.itself xs) :
    Follows o d t
      (do
        let items ← (← entries xs).filterM fun x => do verdictOf .plain (← Eval.apply d fn x)
        return .list (← World.birth) items)
      ((Counterparts.ofValue fn).both (.ofValue xs))
      (fun p n => do
        let items ← (← entries p.2).filterM fun x => do
          verdictOf Discreet.host (← Discreet.apply n p.1 x)
        return .list (← World.birth) items)
      .ofValue := by
  refine Follows.bind (V := .list .ofValue) ?_ fun t₁ items ht hitems =>
    Follows.bind (V := .list .ofValue) ?_ fun t₂ ys ht₂ hys =>
      follows_birth.bind fun t₃ b ht₃ hb => ?_
  · exact (follows_entries hxs).reindex fun β p n hp => ⟨p.2, hp.2, rfl⟩
  · exact (follows_filterM (E := .ofValue) (R := .ofValue fn)
      (F := fun fn' n x => do verdictOf Discreet.host (← Discreet.apply n fn' x))
      (fun x hx => List.forall₂_same.mp hitems x hx) fun t₂ x ht₂ _ hx =>
        Follows.bind (h.apply (hfn.mono (ht.trans ht₂).world.itself_le) hx) fun t₃ v ht₃ hv =>
          (follows_verdictOf hv).reindex fun β p n hp => ⟨p.2, hp.2, rfl⟩).reindex
      fun β p n hp => ⟨(p.1.1, p.2), ⟨hp.1.1, hp.2⟩, rfl⟩
  · exact follows_pure (Value.matches_list hb (Value.AllMatch.mono hys ht₃.world.itself_le))
      fun β p hp => Value.matches_list hp.2 hp.1.2

theorem Pursued.follows_fold (h : Pursued d) {fn start xs : Value}
    (hfn : fn.Matches t.world.itself fn)
    (hstart : start.Matches t.world.itself start) (hxs : xs.Matches t.world.itself xs) :
    Follows o d t
      (do
        let items ← entries xs
        items.foldlM (fun acc x => do Eval.apply d (← Eval.apply d fn acc) x) start)
      ((Counterparts.ofValue fn).both ((Counterparts.ofValue start).both (.ofValue xs)))
      (fun p n => do
        let items ← entries p.2.2
        items.foldlM (fun acc x => do Discreet.apply n (← Discreet.apply n p.1 acc) x) p.2.1)
      .ofValue := by
  have hstep : ∀ (t₁ : Moment) (acc x : Value), t.Le t₁ → acc.Matches t₁.world.itself acc →
      x.Matches t₁.world.itself x → Follows o d t₁ (do Eval.apply d (← Eval.apply d fn acc) x)
        ((Counterparts.ofValue fn).both ((Counterparts.ofValue acc).both (.ofValue x)))
        (fun p n => do Discreet.apply n (← Discreet.apply n p.1 p.2.1) p.2.2) .ofValue :=
          fun t₁ acc x ht hacc hx => by
    refine Follows.bind (V := .ofValue) ?_ fun t₂ f ht₂ hf => ?_
    · exact (h.apply (hfn.mono ht.world.itself_le) hacc).reindex
        fun β p n hp => ⟨(p.1, p.2.1), ⟨hp.1, hp.2.1⟩, rfl⟩
    · exact (h.apply hf (hx.mono ht₂.world.itself_le)).reindex
        fun β p n hp => ⟨(p.2, p.1.2.2), ⟨hp.2, hp.1.2.2⟩, rfl⟩
  refine Follows.bind (V := .list .ofValue) ?_ fun t₁ items ht hitems => ?_
  · exact (follows_entries hxs).reindex fun β p n hp => ⟨p.2.2, hp.2.2, rfl⟩
  · exact (follows_foldlM (V := .ofValue) (E := .ofValue) (R := .ofValue fn)
      (F := fun fn' n acc x => do Discreet.apply n (← Discreet.apply n fn' acc) x)
      (fun x hx => List.forall₂_same.mp hitems x hx) (hstart.mono ht.world.itself_le)
      fun t₂ acc x ht₂ _ hacc hx => hstep t₂ acc x (ht.trans ht₂) hacc hx).reindex
      fun β p n hp => ⟨(p.1.1, p.1.2.1, p.2), ⟨hp.1.1, hp.1.2.1, hp.2⟩, rfl⟩

/-- What is made of one value that matches. -/
theorem follows_unary {x : Value} {f : Origin → Value → Except Fault Value}
    (hx : x.Matches t.world.itself x)
    (hf : ∀ {β : Matching} {p p' x x'}, Origin.Matches β p p' → Value.Matches β x x' →
      Value.Made β (f p x) (f p' x')) :
    Follows o d t (do World.faulty (f (← World.birth) x)) (.ofValue x)
      (fun x' _ => do World.faulty (f (← World.birth) x')) .ofValue :=
  follows_birth.bind fun _ _ ht hp => follows_faulty (hf hp (hx.mono ht.world.itself_le))
    fun _ _ _ hq => hf hq.2 hq.1

theorem Pursued.follows_binary (h : Pursued d) {pair : Value} (op : Operator)
    (hpair : pair.Matches t.world.itself pair) :
    Follows o d t
      (do
        let x ← Eval.field d pair "0"
        let y ← Eval.field d pair "1"
        calculate .plain (Eval.force d) op x y)
      (.ofValue pair)
      (fun pair' n => do
        let x ← Discreet.field n pair' "0"
        let y ← Discreet.field n pair' "1"
        calculate Discreet.host (Discreet.force n) op x y)
      .ofValue := by
  refine Follows.bind (h.field "0" hpair) fun t₁ x ht hx =>
    Follows.bind (V := .ofValue) ?_ fun t₂ y ht₂ hy => ?_
  · exact (h.field "1" (hpair.mono ht.world.itself_le)).reindex fun β p n hp => ⟨p.1, hp.1, rfl⟩
  · exact (follows_calculate (fun _ _ l ha => h.force l ha) op
      (hx.mono ht₂.world.itself_le) hy).reindex
      fun β p n hp => ⟨(p.1.2, p.2), ⟨hp.1.2, hp.2⟩, rfl⟩

/-- **Operators are followed.** -/
theorem Pursued.follows_operateBy (h : Pursued d) (op : Operator) {args : List Value}
    (hargs : Value.AllMatch t.world.itself args args) :
    Follows o d t (operateBy .plain (within .plain d) op args) (.list .ofValue args)
      (fun args' n => operateBy Discreet.host (within Discreet.host n) op args') .ofValue := by
  have hself {x : Value} (h : Value.AllMatch t.world.itself [x] [x]) :
      x.Matches t.world.itself x := by
    obtain _ | ⟨hx, _⟩ := h
    exact hx
  rcases Nat.lt_trichotomy args.length (arity op) with hlt | heq | hgt
  · rw [operateBy_of_lt hlt]
    refine Follows.reindex (S := .list .ofValue args) (C := fun args' _ => do
      return .waiting (← World.birth) op args') ?_ fun β args' n hargs' => ⟨args', hargs', ?_⟩
    · exact follows_birth.bind fun t₁ b ht hb => follows_pure
        (Value.matches_waiting hb (hargs.mono ht.world.itself_le)) fun β p hp =>
          Value.matches_waiting hp.2 hp.1
    · exact operateBy_of_lt (hargs'.length_eq ▸ hlt)
  · cases op with
    | map =>
      obtain ⟨fn, xs, rfl⟩ := List.length_eq_two.mp heq
      obtain _ | ⟨hfn, _ | ⟨hxs, _⟩⟩ := hargs
      refine (h.follows_map hfn hxs).reindex fun β args' n hargs' => ?_
      obtain _ | ⟨hfn', _ | ⟨hxs', _ | _⟩⟩ := hargs'
      exact ⟨(_, _), ⟨hfn', hxs'⟩, rfl⟩
    | filter =>
      obtain ⟨fn, xs, rfl⟩ := List.length_eq_two.mp heq
      obtain _ | ⟨hfn, _ | ⟨hxs, _⟩⟩ := hargs
      refine (h.follows_filter hfn hxs).reindex fun β args' n hargs' => ?_
      obtain _ | ⟨hfn', _ | ⟨hxs', _ | _⟩⟩ := hargs'
      exact ⟨(_, _), ⟨hfn', hxs'⟩, rfl⟩
    | fold =>
      obtain ⟨fn, start, xs, rfl⟩ := List.length_eq_three.mp heq
      obtain _ | ⟨hfn, _ | ⟨hstart, _ | ⟨hxs, _⟩⟩⟩ := hargs
      refine (h.follows_fold hfn hstart hxs).reindex fun β args' n hargs' => ?_
      obtain _ | ⟨hfn', _ | ⟨hstart', _ | ⟨hxs', _ | _⟩⟩⟩ := hargs'
      exact ⟨(_, _, _), ⟨hfn', hstart', hxs'⟩, rfl⟩
    | size =>
      obtain ⟨x, rfl⟩ := List.length_eq_one_iff.mp heq
      exact (follows_sizeOf (hself hargs)).single fun _ _ => rfl
    | countUp =>
      obtain ⟨x, rfl⟩ := List.length_eq_one_iff.mp heq
      refine (Follows.bind (V := .same) follows_room fun t₁ room ht _ => ?_ : Follows o d t (do
        World.faulty (x.countUp (← World.room) (← World.birth))) (.ofValue x) (fun x' _ => do
        World.faulty (x'.countUp (← World.room) (← World.birth))) .ofValue).single fun _ _ => rfl
      exact (follows_unary ((hself hargs).mono ht.world.itself_le)
        (Value.made_countUp room)).reindex
        fun β q n hq => ⟨q.1, hq.1, by rw [show q.2 = room from hq.2]⟩
    | ord =>
      obtain ⟨x, rfl⟩ := List.length_eq_one_iff.mp heq
      exact (follows_unary (hself hargs) Value.made_ord).single fun _ _ => rfl
    | chr =>
      obtain ⟨x, rfl⟩ := List.length_eq_one_iff.mp heq
      exact (follows_unary (hself hargs) Value.made_chr).single fun _ _ => rfl
    | _ =>
      obtain ⟨x, rfl⟩ := List.length_eq_one_iff.mp heq
      exact (h.follows_binary _ (hself hargs)).single fun _ _ => rfl
  · rw [operateBy_of_gt hgt]
    exact (follows_throw _).reindex (S := .same ()) fun β args' n hargs' =>
      ⟨(), rfl, operateBy_of_gt (hargs'.length_eq ▸ hgt)⟩

/-! ### All together -/

theorem Pursued.operate_succ (h : Pursued d) (op : Operator) {args : List Value}
    (hargs : Value.AllMatch t.world.itself args args) :
    Follows o (d + 1) t (Eval.operate (d + 1) op args) (.list .ofValue args)
      (fun args' n => Discreet.operate n op args') .ofValue :=
  (h.follows_operateBy op hargs).deeper rfl (fun _ => rfl) fun _ args' _ hargs' =>
    ⟨args', hargs', rfl⟩

theorem Pursued.field_succ (h : Pursued d) {v : Value} (l : Label)
    (hv : v.Matches t.world.itself v) :
    Follows o (d + 1) t (Eval.field (d + 1) v l) (.ofValue v) (fun v' n => Discreet.field n v' l)
      .ofValue := by
  -- Whoever reads the field later finds the record has the label, or has it not, as it is now.
  have hholder {u : Moment} {s : Shadow} {v' : Value} (hu : t.Le u) (hs : s.Behind u)
      (hv' : v'.Matches s.matching v) : Option.Rel (fun a' a => s.matching (.record a') (.record a))
        (v'.holder? s.world l) (v.holder? t.world l) := by
    have hlater := hv.holder? hu.world.alike l
    have hshadow := hv'.holder? hs.alike l
    generalize v.holder? u.world l = r, v.holder? t.world l = r₀ at hlater hshadow ⊢
    cases hlater with
    | none => exact hshadow
    | some ha => exact Thing.record.inj ha.1 ▸ hshadow
  cases hl : v.holder? t.world l with
  | none =>
    have hfail : Follows o d t (World.failWith (.missingField l) v) (.ofValue v)
        (fun v' _ => Discreet.failWith (.missingField l) v') .ofValue :=
          follows_failWith hv fun _ _ hv' => hv'
    refine hfail.via (by rw [Eval.field_succ, run_fieldBy rfl, hl]; rfl)
      fun u s v' n hu hs hv' => ?_
    cases n with
    | zero => exact Or.inl ⟨s.world, rfl⟩
    | succ n =>
      have hnone := eq_none_of_rel (hl ▸ hholder hu hs hv')
      exact Or.inr ⟨v', n, hv', Nat.le_of_succ_le_succ, by
        rw [Discreet.field_succ, run_fieldBy rfl, hnone]; rfl⟩
  | some a =>
    have hself := hv.holder? (World.Precedes.refl t.world).alike l
    rw [hl] at hself
    have ha : t.world.Has (.record a) := (Option.rel_some_some.mp hself).2
    refine (h.force l ha).via (by rw [Eval.field_succ, run_fieldBy rfl, hl]; rfl)
      fun u s v' n hu hs hv' => ?_
    cases n with
    | zero => exact Or.inl ⟨s.world, rfl⟩
    | succ n =>
      obtain ⟨a', ha', hmatches⟩ := exists_of_rel (hl ▸ hholder hu hs hv')
      exact Or.inr ⟨a', n, hmatches, Nat.le_of_succ_le_succ, by
        rw [Discreet.field_succ, run_fieldBy rfl, ha']; rfl⟩

theorem Pursued.force_succ (h : Pursued d) {a : Nat} (l : Label) (ha : t.world.Has (.record a)) :
    Follows o (d + 1) t (Eval.force (d + 1) a l) (.ofAddress a)
      (fun a' n => Discreet.force n a' l) .ofValue :=
  Follows.of_sound fun hsound => follows_force ha fun r i hr hl => by
    have hmatches := hsound.whole.records a r hr
    have hle : t.world.itself ≤ (t.setCell a l .inProgress).world.itself :=
      (World.precedes_setCell (by rw [hl]; rintro v ⟨⟩) _).itself_le
    rw [World.row_of_getElem? hr] at hl
    exact h.eval ((hmatches.env ⟨rfl, ha⟩).mono hle) ((hmatches.initializer hl hl).mono hle)

theorem Pursued.load_succ (h : Pursued d) {k : Nat} (name : String)
    (hk : t.world.Has (.resolver k)) :
    Follows o (d + 1) t (Eval.load (d + 1) k name >>= required name) (.ofResolver k)
      (fun k' n => Discreet.load n k' name >>= required name) .ofValue :=
  follows_import hk fun tree => by
    have hk' := (World.precedes_entering _ k name).has _ hk
    exact h.eval (Env.Matches.ofRoot (.some ⟨rfl, hk'⟩))
      ⟨⟨⟨rfl, Nat.lt_succ_self _⟩, rfl, rfl⟩, rfl⟩

/-- **Whatever is evaluated is followed**, with any number of levels. -/
theorem pursued (d : Nat) : Pursued d := by
  induction d with
  | zero => exact pursued_zero
  | succ d ih =>
    exact ⟨fun henv hcode => ih.eval_succ henv hcode.origin, ih.apply_succ,
      fun op => ih.operate_succ op,
      ih.field_succ, ih.force_succ, ih.load_succ⟩

end Eval

end RowLang
