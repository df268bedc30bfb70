import RowLang.Proofs.Eval.Operators
import RowLang.Proofs.Eval.Store

/-!
# Proofs/Eval/Sound — what has a tree does not go wrong

An expression that has a tree in some context evaluates to a value of that tree, in every scope
whose names stand for values of the trees of the context, or it fails in a way that no type could
have prevented.  Evaluation, application, operators, reading a field and computing it call one
another with one level less to go, so all five are shown not to go wrong together, by induction on
the levels (`Eval.Sound`).
-/

namespace RowLang

/-! ## Scopes -/

variable {M : StoreType}

/-- A frame gets one more name. -/
theorem Env.HasTrees.cons {env : Env} {b : List (String × Value)} {Γ : TreeContext}
    {n : String} {v : Value} {x : Tree} (h : Env.HasTrees M (env.extend b) Γ)
    (hv : v.HasTree M x) : Env.HasTrees M (env.extend ((n, v) :: b)) ((n, x) :: Γ) := by
  intro k y hk
  rw [Row.lookup_cons_eq] at hk
  rw [Scope.fetch?_extend, Row.lookup_cons_eq]
  by_cases he : k = n
  · rw [if_pos he] at hk ⊢
    exact ⟨v, rfl, Option.some.inj hk ▸ hv⟩
  · rw [if_neg he] at hk ⊢
    rw [← Scope.fetch?_extend]
    exact h k y hk

namespace Eval

/-! ## Patterns -/

/-- Reading a field of what has one does not go wrong. -/
def ReadsFields (field : Value → Label → Evaluating Value) : Prop :=
  ∀ M v x l t, v.HasTree M x → x.HasField .record l t → Runs M (field v l) fun M' w =>
    w.HasTree M' t

/-- **A pattern takes apart what has its shape**, and binds its names to what they are. -/
theorem runs_collectWith {field : Value → Label → Evaluating Value} (hfield : ReadsFields field)
    (p : Pattern) : ∀ {M : StoreType} {env : Env} {b : List (String × Value)}
      {Γ Γ' : TreeContext} {v : Value} {x : Tree}, Env.HasTrees M (env.extend b) Γ →
        p.Binds Γ x Γ' → v.HasTree M x → Runs M (collectWith field b p v)
          fun M' bindings' => Env.HasTrees M' (env.extend bindings') Γ' := by
  induction p using Pattern.inductOn with
  | name n =>
    intro M env bindings Γ Γ' v x henv hp hv
    rw [Pattern.Binds] at hp
    subst hp
    exact runs_pure (henv.cons hv)
  | wildcard =>
    intro M env bindings Γ Γ' v x henv hp _
    rw [Pattern.Binds] at hp
    subst hp
    exact runs_pure henv
  | row fields ih =>
    intro M env bindings Γ Γ' v x henv hp hv
    rw [Pattern.Binds] at hp
    rw [collectWith]
    induction fields generalizing M bindings Γ with
    | nil =>
      rw [Pattern.BindsFields] at hp
      subst hp
      exact runs_pure henv
    | cons q fields ihf =>
      obtain ⟨t, Γ₁, ht, hq, hfields⟩ := hp
      rw [collectWith.collectFields]
      refine (hfield M v x q.1 t hv ht).bind fun M₁ w hM₁ hw => ?_
      refine (ih q List.mem_cons_self (henv.mono hM₁) hq hw).bind fun M₂ _ hM₂ h => ?_
      exact ihf (fun p hp => ih p (List.mem_cons_of_mem _ hp)) h hfields (hv.mono (hM₁.trans hM₂))

/-! ## One level -/

/-- **Nothing goes wrong within some levels.** -/
structure Sound (depth : Nat) : Prop where
  eval : ∀ {M env Γ c x}, Env.HasTrees M env Γ → c.expr.HasTree Γ x →
    Runs M (eval depth env c) fun M' v => v.HasTree M' x
  apply : ∀ {M fn arg a b}, fn.HasTree M (.arrow a b) → arg.HasTree M a →
    Runs M (apply depth fn arg) fun M' v => v.HasTree M' b
  operate : ∀ {M o v t x}, o.HasTree (.arrows t x) → v.length ≤ arity o →
    List.Forall₂ (Value.HasTree M) v t →
    Runs M (operate depth o v) fun M' v => v.HasTree M' x
  field : ReadsFields (field depth)
  force : ∀ {M a f l t}, M a = some f → f l = some t →
    Runs M (force depth a l) fun M' v => v.HasTree M' t

theorem sound_zero : Sound 0 where
  eval _ _ := runs_throw trivial
  apply _ _ := runs_throw trivial
  operate _ _ _ := runs_throw trivial
  field _ _ _ _ _ _ _ := runs_throw trivial
  force _ _ := runs_throw trivial

theorem lasting_hasTree (x : Tree) : Lasting fun M v => Value.HasTree M v x :=
  fun _ _ _ h hM => h.mono hM

variable {depth : Nat} {env : Env} {Γ : TreeContext}

/-- Expressions of one tree, evaluated one after the other. -/
theorem Sound.evalParts (h : Sound depth) {here : Origin} {elts : List Expr} {a : Tree}
    (henv : Env.HasTrees M env Γ) (helts : ∀ e ∈ elts, e.HasTree Γ a) :
    Runs M ((Code.parts here elts).mapM (Eval.eval depth env))
      fun M' items => ∀ v ∈ items, v.HasTree M' a :=
  runs_mapM (lasting_hasTree a) fun _ hc _ hM =>
    h.eval (henv.mono hM) (helts _ (Code.expr_mem_of_mem_parts hc))

/-- The handler of a label is there. -/
theorem exists_handler {here : Origin} {handlers : Row Expr} {f : Label → Option Tree} {res : Tree}
    (hlabels : ∀ l, (f l).isSome ↔ l ∈ Row.labels handlers)
    (hh : ∀ p ∈ handlers, ∀ x, f p.1 = some x → p.2.HasTree Γ (.arrow x res)) {l : Label} {t : Tree}
    (hl : f l = some t) : ∃ code, Row.get? (Code.fields here handlers) l = some code ∧
      code.expr.HasTree Γ (.arrow t res) := by
  have hmem : l ∈ Row.labels (Code.fields here handlers) := by
    rw [Code.labels_fields, ← hlabels, hl]
    rfl
  obtain ⟨code, hcode⟩ := Option.isSome_iff_exists.mp (Row.lookup_isSome_iff.mpr hmem)
  exact ⟨code, hcode, hh _ (Code.exists_of_mem_fields (Row.mem_of_lookup hcode)) t hl⟩

/-- An expression that has a tree has a value of it. -/
theorem Sound.eval_succ (h : Sound depth) {code : Code} {x : Tree} (henv : Env.HasTrees M env Γ)
    (hcode : code.expr.HasTree Γ x) :
    Runs M (Eval.eval (depth + 1) env code) fun M' v => v.HasTree M' x := by
  obtain ⟨here, e⟩ := code
  cases hcode with
  | @number _ n =>
    cases n with
    | int i => exact runs_pure .int
    | real x => exact runs_pure .real
  | char => exact runs_pure .text
  | var hx =>
    obtain ⟨v, hv, ht⟩ := henv _ _ hx
    rw [Eval.eval_succ, evalBy, hv]
    exact runs_pure ht
  | op ho => exact runs_pure (.operator ho)
  | lambda hp hbody => exact runs_birth fun _ => runs_pure (Value.hasTree_closure henv hp hbody)
  | apply hfn harg =>
    rw [Eval.eval_succ, evalBy]
    refine (h.eval (c := ⟨_, _⟩) henv hfn).bind fun M₁ fn hM₁ hfn => ?_
    refine (h.eval (c := ⟨_, _⟩) (henv.mono hM₁) harg).bind fun M₂ arg hM₂ harg => ?_
    exact h.apply (hfn.mono hM₂) harg
  | list helts =>
    rw [Eval.eval_succ, evalBy]
    exact (h.evalParts henv helts).bind fun M₁ items _ hitems =>
      runs_birth fun _ => runs_pure (.list hitems)
  | record f hlabels hfields =>
    -- Its fields see the record itself, at the address that it gets.
    refine runs_allocate fun M' a hM ha => StoredRecord.sound_ofRow ?_
      (Env.HasTrees.cons (b := []) (henv.mono hM) (.record ha)) fun p hp y hy => ?_
    · simpa using hlabels
    · exact hfields _ (Code.exists_of_mem_fields hp) y hy
  | tuple f hlabels hitems =>
    refine runs_allocate fun M' a hM _ => StoredRecord.sound_ofRow ?_ (henv.mono hM)
      fun p hp y hy => ?_
    · simpa using hlabels
    · exact hitems _ (Code.exists_of_mem_fields hp) y hy
  | dispatch f hlabels hhandlers =>
    exact runs_birth fun _ => runs_pure
      (Value.hasTree_dispatcher henv fun l t hl => exists_handler hlabels hhandlers hl)
  | tag hf => exact runs_birth fun _ => runs_pure (.tagger hf)
  | bindIn hbound hp hbody =>
    rw [Eval.eval_succ, evalBy]
    refine (h.eval (c := ⟨_, _⟩) henv hbound).bind fun M₁ v hM₁ hv => ?_
    refine (runs_collectWith h.field _ (b := []) (henv.mono hM₁) hp hv).bind
      fun M₂ bindings _ hbindings => ?_
    exact h.eval (c := ⟨_, _⟩) hbindings hbody

theorem one_le_arity (o : Operator) : 1 ≤ arity o := by cases o <;> decide

/-- A function applied to what it takes gives what it gives. -/
theorem Sound.apply_succ (h : Sound depth) {fn arg : Value} {a b : Tree}
    (hfn : fn.HasTree M (.arrow a b)) (harg : arg.HasTree M a) :
    Runs M (Eval.apply (depth + 1) fn arg) fun M' v => v.HasTree M' b := by
  generalize hx : Tree.arrow a b = x at hfn
  cases hfn with
  | int | real | text | list | record => cases congrFun hx 1
  | tagged hf => exact absurd hx.symm hf.ne_arrow
  | operator ho =>
    subst hx
    exact (h.operate (v := [arg]) (t := [a]) ho (one_le_arity _) (.cons harg .nil)).refusing
  | waiting trees ho hlen harity hargs =>
    subst hx
    refine (h.operate (t := trees ++ [a]) ?_ ?_ ?_).refusing
    · rwa [Tree.arrows, List.foldr_append]
    · rw [List.length_append]
      exact harity
    · refine List.rel_append ?_ (.cons harg .nil)
      exact List.forall₂_iff_zip.mpr ⟨hlen, fun hp => hargs _ hp⟩
  | tagger hf =>
    obtain ⟨rfl, rfl⟩ := Tree.arrow_inj hx
    exact runs_birth fun _ => runs_pure (.tagged hf harg)
  | closure values hfetch ht hp hbody =>
    obtain ⟨rfl, rfl⟩ := Tree.arrow_inj hx
    rw [Eval.apply_succ, applyBy]
    refine (runs_collectWith h.field _ (b := [])
      (Value.hasTrees_iff.mpr ⟨values, hfetch, ht⟩) hp harg).bind fun M₁ bindings _ hbindings => ?_
    exact h.eval hbindings hbody
  | dispatcher values hfetch ht hh =>
    obtain ⟨rfl, rfl⟩ := Tree.arrow_inj hx
    obtain ⟨o, ⟨l, place⟩, payload, t, rfl, hl, hpayload⟩ := harg.exists_tagged
    obtain ⟨code, hcode, htyped⟩ := hh l t hl
    rw [Eval.apply_succ, applyBy, hcode]
    refine (h.eval (Value.hasTrees_iff.mpr ⟨values, hfetch, ht⟩) htyped).bind
      fun M₁ fn hM₁ hfn => ?_
    exact h.apply hfn (hpayload.mono hM₁)

/-- A binary operator applied to a pair. -/
theorem Sound.operands (h : Sound depth) {o : Operator} {pair : Value} {p x : Tree}
    (ho : o.HasTree (.arrow p x)) (hpair : pair.HasTree M p) (hp : ∃ a b, p = .pair a b) :
    Runs M (do
      let v ← Eval.field depth pair "0"
      let w ← Eval.field depth pair "1"
      calculate .plain (Eval.force depth) o v w) fun M' v => v.HasTree M' x := by
  obtain ⟨a, b, rfl⟩ := hp
  refine (h.field M pair _ "0" a hpair (Tree.hasField_closed.mpr rfl)).bind fun M₁ v hM₁ hv => ?_
  refine (h.field M₁ pair _ "1" b (hpair.mono hM₁) (Tree.hasField_closed.mpr rfl)).bind
    fun M₂ w hM₂ hw => ?_
  exact runs_calculate ho (hv.mono hM₂) hw

section Arguments

variable {α β : Type} {R : α → β → Prop} {xs : List α} {ys : List β}

private theorem exists_one (h : List.Forall₂ R xs ys) (hlen : xs.length = 1) :
    ∃ x y, xs = [x] ∧ ys = [y] ∧ R x y := by
  obtain ⟨x, rfl⟩ := List.length_eq_one_iff.mp hlen
  obtain ⟨y, rfl⟩ := List.length_eq_one_iff.mp (h.length_eq ▸ hlen)
  cases h with
  | cons h _ => exact ⟨x, y, rfl, rfl, h⟩

private theorem exists_two (h : List.Forall₂ R xs ys) (hlen : xs.length = 2) :
    ∃ x x' y y', xs = [x, x'] ∧ ys = [y, y'] ∧ R x y ∧ R x' y' := by
  cases h with
  | nil => cases hlen
  | cons h hs =>
    obtain ⟨x', y', rfl, rfl, h'⟩ := exists_one hs (Nat.succ.inj hlen)
    exact ⟨_, x', _, y', rfl, rfl, h, h'⟩

private theorem exists_three (h : List.Forall₂ R xs ys) (hlen : xs.length = 3) :
    ∃ x x' x'' y y' y'', xs = [x, x', x''] ∧ ys = [y, y', y''] ∧ R x y ∧ R x' y' ∧ R x'' y'' := by
  cases h with
  | nil => cases hlen
  | cons h hs =>
    obtain ⟨x', x'', y', y'', rfl, rfl, h', h''⟩ := exists_two hs (Nat.succ.inj hlen)
    exact ⟨_, x', x'', _, y', y'', rfl, rfl, h, h', h''⟩

end Arguments

/-- An operator that has all its arguments gives what it gives. -/
theorem Sound.operate_full (h : Sound depth) {o : Operator} {args : List Value} {trees : List Tree}
    {x : Tree} (ho : o.HasTree (.arrows trees x)) (hfull : args.length = arity o)
    (hargs : List.Forall₂ (Value.HasTree M) args trees) :
    Runs M (Eval.operate (depth + 1) o args) fun M' v => v.HasTree M' x := by
  cases o with
  | map =>
    obtain ⟨fn, xs, t, u, rfl, rfl, hfn, hxs⟩ := exists_two hargs hfull
    obtain ⟨a, b, ho⟩ := ho
    obtain ⟨rfl, ho₁⟩ := Tree.arrow_inj ho
    obtain ⟨rfl, rfl⟩ := Tree.arrow_inj ho₁
    refine (runs_entries hxs).bind fun M₁ items hM₁ hitems => ?_
    refine (runs_mapM (lasting_hasTree b) fun w hw M' hM => ?_).bind fun M₂ ys _ hys =>
      runs_birth fun _ => runs_pure (.list hys)
    exact h.apply (hfn.mono (hM₁.trans hM)) ((hitems w hw).mono hM)
  | filter =>
    obtain ⟨fn, xs, t, u, rfl, rfl, hfn, hxs⟩ := exists_two hargs hfull
    obtain ⟨a, ho⟩ := ho
    obtain ⟨rfl, ho₁⟩ := Tree.arrow_inj ho
    obtain ⟨rfl, rfl⟩ := Tree.arrow_inj ho₁
    refine (runs_entries hxs).bind fun M₁ items hM₁ hitems => ?_
    refine (runs_filterM hitems fun w hw M' hM => ?_).bind fun M₂ ys hM₂ hys =>
      runs_birth fun _ => runs_pure (.list fun w hw => (hys w hw).mono hM₂)
    exact (h.apply (hfn.mono (hM₁.trans hM)) ((hitems w hw).mono hM)).bind fun _ _ _ hv =>
      runs_verdictOf hv
  | fold =>
    obtain ⟨fn, start, xs, t, u, v, rfl, rfl, hfn, hstart, hxs⟩ := exists_three hargs hfull
    obtain ⟨a, b, ho⟩ := ho
    obtain ⟨rfl, ho₁⟩ := Tree.arrow_inj ho
    obtain ⟨rfl, ho₂⟩ := Tree.arrow_inj ho₁
    obtain ⟨rfl, rfl⟩ := Tree.arrow_inj ho₂
    refine (runs_entries hxs).bind fun M₁ items hM₁ hitems => ?_
    refine runs_foldlM (hstart.mono hM₁) fun w hw M' acc hM hacc => ?_
    refine (h.apply (hfn.mono (hM₁.trans hM)) hacc).bind fun M₂ g hM₂ hg => ?_
    exact h.apply hg ((hitems w hw).mono (hM.trans hM₂))
  | size =>
    obtain ⟨v, t, rfl, rfl, hv⟩ := exists_one hargs hfull
    obtain ⟨a, ho⟩ := ho
    obtain ⟨rfl, rfl⟩ := Tree.arrow_inj ho
    exact runs_sizeOf hv
  | countUp =>
    obtain ⟨v, t, rfl, rfl, hv⟩ := exists_one hargs hfull
    obtain ⟨rfl, rfl⟩ := Tree.arrow_inj ho
    exact runs_room fun _ => runs_birth fun _ => runs_faulty (yields_countUp hv)
  | ord =>
    obtain ⟨v, t, rfl, rfl, hv⟩ := exists_one hargs hfull
    obtain ⟨rfl, rfl⟩ := Tree.arrow_inj ho
    exact runs_birth fun _ => runs_faulty (yields_ord hv)
  | chr =>
    obtain ⟨v, t, rfl, rfl, hv⟩ := exists_one hargs hfull
    obtain ⟨rfl, rfl⟩ := Tree.arrow_inj ho
    exact runs_birth fun _ => runs_faulty (yields_chr hv)
  | append =>
    obtain ⟨v, t, rfl, rfl, hv⟩ := exists_one hargs hfull
    refine h.operands ho hv ?_
    obtain ⟨a, ho⟩ := ho
    exact ⟨_, _, (Tree.arrow_inj ho).1⟩
  | plus | minus | times | divide | modulo | eq | lt =>
    obtain ⟨v, t, rfl, rfl, hv⟩ := exists_one hargs hfull
    exact h.operands ho hv ⟨_, _, (Tree.arrow_inj ho).1⟩

/-- An operator that lacks arguments waits for them. -/
theorem Sound.operate_succ (h : Sound depth) {o : Operator} {args : List Value} {trees : List Tree}
    {x : Tree} (ho : o.HasTree (.arrows trees x)) (harity : args.length ≤ arity o)
    (hargs : List.Forall₂ (Value.HasTree M) args trees) :
    Runs M (Eval.operate (depth + 1) o args) fun M' v => v.HasTree M' x := by
  by_cases hlt : args.length < arity o
  · rw [Eval.operate_succ]
    unfold operateBy
    rw [if_pos hlt]
    obtain ⟨hlen, hzip⟩ := List.forall₂_iff_zip.mp hargs
    exact runs_birth fun _ => runs_pure (.waiting trees ho hlen hlt fun _ hp => hzip hp)
  · exact h.operate_full ho (by omega) hargs

/-- What is known of a record. -/
theorem row_of_sound {w : World} {a : Nat} {f : Label → Option Tree} (hw : w.Sound M)
    (ha : M a = some f) :
    ∃ r, w.records[a]? = some r ∧ w.row a = r.row ∧ r.Sound M a f := by
  obtain ⟨r, hr, hsound⟩ := hw.records a f ha
  exact ⟨r, hr, by rw [World.row, hr]; rfl, hsound⟩

/-- A field is read of what has it. -/
theorem Sound.field_succ (h : Sound depth) : ReadsFields (Eval.field (depth + 1)) := by
  intro M v x l t hv hl
  obtain ⟨a, f, rfl, ha, hf⟩ := hv.exists_record hl
  refine runs_get fun w hw => ?_
  obtain ⟨r, -, hrow, hr⟩ := row_of_sound hw ha
  have hhas : Row.has (w.row a) l = true := by
    rw [hrow, Row.has_iff, ← hr.labels l, hf]
    rfl
  rw [if_pos hhas]
  exact h.force ha hf

/-- **A field is computed at most once at a time**, and its value has its tree. -/
theorem Sound.force_succ (h : Sound depth) {a : Nat} {f : Label → Option Tree}
    {l : Label} {t : Tree} (ha : M a = some f) (hl : f l = some t) :
    Runs M (Eval.force (depth + 1) a l) fun M' v => v.HasTree M' t := by
  intro w hw
  obtain ⟨r, hr, hrow, hsound⟩ := row_of_sound hw ha
  have hmem : l ∈ Row.labels r.row := (hsound.labels l).mp (by rw [hl]; rfl)
  rw [Eval.force_succ, forceBy, Host.plainly_plain, Run.run_bind, Run.run_get]
  dsimp only
  rw [hrow]
  cases haccess : LazyRow.access r.row l with
  | missing => exact absurd haccess (LazyRow.access_ne_missing hmem)
  | circular => exact (trivial : Failure.Benign (.selfReferentialField l))
  | ready v =>
    obtain ⟨i, hslot⟩ := LazyRow.mem_of_access_ready haccess
    exact ⟨M, .refl M, hw, hsound.computed _ hslot v t hl rfl⟩
  | start initializer =>
    obtain ⟨Γ, henv, htyped⟩ := hsound.typed
    have hcode : initializer.expr.HasTree Γ t := htyped _ (LazyRow.mem_of_access_start haccess) t hl
    dsimp only
    rw [Run.run_bind, Run.run_get]
    dsimp only
    rw [hr]
    refine Runs.bind (runs_setCell ha fun v x hv => by cases hv) (fun M₁ _ hM₁ _ => ?_) w hw
    refine (h.eval (henv.mono hM₁) hcode).orElse.bind fun M₂ v hM₂ hv => ?_
    refine (runs_setCell (hM₂ _ _ (hM₁ _ _ ha)) fun u x hu hx => ?_).bind fun M₃ _ hM₃ _ =>
      runs_pure (hv.mono hM₃)
    cases hu
    rw [hl] at hx
    exact Option.some.inj hx ▸ hv

/-! ## All levels -/

/-- **Nothing goes wrong within any number of levels.** -/
theorem sound (depth : Nat) : Sound depth := by
  induction depth with
  | zero => exact sound_zero
  | succ depth ih =>
    exact ⟨ih.eval_succ, ih.apply_succ, ih.operate_succ, ih.field_succ, ih.force_succ⟩

end Eval

end RowLang
