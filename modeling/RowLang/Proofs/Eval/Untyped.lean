import RowLang.Proofs.Eval.Lockstep
import RowLang.Session

/-!
# Proofs/Eval/Untyped — evaluation ignores types

Code that is the same up to types is evaluated in lockstep: an ascription takes one level and does
nothing else. So a program and its erasure come to the same text, or fail alike, or both go on for
ever, as long as no `%` shows the code of a function.
-/

namespace RowLang

variable {own : Origin → Origin → Prop} {v v' x x' y y' : Value} {d : Nat}

/-! ## What operators look at -/

theorem tracks_verdictOf (h : Agree own v v') :
    Tracks own Eq (Eval.verdictOf .plain v) fun _ => Eval.verdictOf .plain v' := by
  rw [verdictOf_eq, verdictOf_eq, ← h.verdict?_eq]
  cases v.verdict? with
  | none => exact tracks_failWith (fun _ _ => rfl) h
  | some b => exact tracks_pure rfl

theorem tracks_entries (h : Agree own v v') :
    Tracks own (Value.AllLike (.upToTypes own)) (Eval.entries v) fun _ => Eval.entries v' := by
  cases h with
  | list _ hlen hitems => exact tracks_pure (Value.allMatch_of_zip hlen hitems)
  | @text _ _ codes _ =>
    refine tracks_birth.bind fun p p' _ =>
      tracks_pure (List.forall₂_iff_get.mpr ⟨by simp, fun i hi hi' => ?_⟩)
    simp only [List.get_eq_getElem, List.getElem_mapIdx]
    exact .text trivial
  | @record a _ ha =>
    cases (show a = _ from ha)
    refine tracks_get fun w w' hw => tracks_pure ?_
    refine List.rel_map ?_ (hw.record a).row
    rintro ⟨l, s⟩ ⟨l', s'⟩ ⟨rfl, -⟩
    exact .text trivial
  | tuple _ hlen hitems => exact tracks_pure (Value.allMatch_of_zip hlen hitems)
  | tagged _ _ hx => exact tracks_pure (.cons (.text trivial) (.cons hx .nil))
  | _ => exact tracks_throw rfl

theorem tracks_sizeOf (h : Agree own v v') : Tracks own (Agree own) (Eval.sizeOf v) fun _ =>
    Eval.sizeOf v' := by
  refine tracks_birth.bind fun p p' _ => ?_
  cases h with
  | list _ hlen _ =>
    dsimp only
    rw [hlen]
    exact tracks_pure (.int trivial)
  | text _ => exact tracks_pure (.int trivial)
  | @record a _ ha =>
    cases (show a = _ from ha)
    refine tracks_get fun w w' hw => ?_
    rw [Row.length_eq_of_labels (hw.labels a)]
    exact tracks_pure (.int trivial)
  | tuple _ hlen _ =>
    simp only [Value.tupleItems?, hlen]
    exact tracks_pure (.int trivial)
  | tagged _ _ _ => exact tracks_pure (.int trivial)
  | _ => exact tracks_throw rfl

/-- **The result of a binary operator.** -/
theorem tracks_calculate (hown : ToldApart own) {lookup : Nat → Label → Evaluating Value}
    {lookup' : Nat → Nat → Label → Evaluating Value} {op : Operator} (hop : op ≠ .modulo)
    (hx : Agree own x x') (hy : Agree own y y') :
    Tracks own (Agree own) (Eval.calculate .plain lookup op x y)
      fun k => Eval.calculate .plain (lookup' k) op x' y' := by
  unfold Eval.calculate
  refine tracks_birth.bind fun p p' hp => ?_
  cases op with
  | modulo => exact absurd rfl hop
  | plus | append => exact tracks_faulty (Value.like_add hp.fresh hx hy)
  | minus => exact tracks_faulty (Value.like_subtract hp.fresh hx hy)
  | times =>
    refine tracks_room.bind fun room _ hroom => ?_
    subst hroom
    exact tracks_faulty (Value.like_multiply room hp.fresh hx hy)
  | divide => exact tracks_faulty (Value.like_divide hp.fresh hx hy)
  | eq =>
    dsimp only
    rw [hx.equal_eq hown.lawful hy]
    exact tracks_pure (.tagged trivial trivial (.record rfl))
  | lt =>
    refine (tracks_faulty (.of_eq (hx.less_eq hown.lawful hy))).bind fun b _ hb => ?_
    subst hb
    exact tracks_pure (.tagged trivial trivial (.record rfl))
  | _ =>
    dsimp only
    rw [hx.kind_eq, hy.kind_eq]
    exact tracks_throw rfl

/-- **The bindings of a pattern.** -/
theorem tracks_collectWith {field : Value → Label → Evaluating Value}
    {field' : Nat → Value → Label → Evaluating Value}
    (h : ∀ {v v'} l, Agree own v v' → Tracks own (Agree own) (field v l) fun k => field' k v' l)
    (p : Pattern) {bs bs' : List (String × Value)} (hbs : Row.Matches (Agree own) bs bs')
    (hv : Agree own v v') :
    Tracks own (Row.Matches (Agree own)) (Eval.collectWith field bs p v)
      fun k => Eval.collectWith (field' k) bs' p v' := by
  induction p using Pattern.inductOn generalizing bs bs' v v' with
  | name n =>
    simp only [Eval.collectWith]
    exact tracks_pure (.cons ⟨rfl, hv⟩ hbs)
  | wildcard =>
    simp only [Eval.collectWith]
    exact tracks_pure hbs
  | row fields ih =>
    simp only [Eval.collectWith]
    induction fields generalizing bs bs' with
    | nil =>
      simp only [Eval.collectWith.collectFields]
      exact tracks_pure hbs
    | cons q fields ihfields =>
      simp only [Eval.collectWith.collectFields]
      exact (h q.1 hv).bind fun _ _ hx => (ih q List.mem_cons_self hbs hx).bind fun _ _ hbs =>
        ihfields (fun r hr => ih r (List.mem_cons_of_mem _ hr)) hbs

/-- What is made of one value. -/
theorem tracks_unary {f : Origin → Value → Except Fault Value}
    (hf : ∀ {p p'}, Born own p p' → Value.MadeLike (.upToTypes own) (f p x) (f p' x')) :
    Tracks own (Agree own) (do World.faulty (f (← World.birth) x))
      fun _ => (do World.faulty (f (← World.birth) x')) :=
  tracks_birth.bind fun _ _ hp => tracks_faulty (hf hp)

theorem Value.Like.holder?_eq {w w' : World} (h : Agree own v v') (hw : w.Like own w') (l : Label) :
    v.holder? w l = v'.holder? w' l := by
  have hlike : Option.Rel Eq (v.holder? w l) (v'.holder? w' l) := h.holder? l fun a a' ha => by
    cases (show a = a' from ha)
    rw [Bool.eq_iff_iff, Row.has_iff, Row.has_iff, hw.labels a]
  generalize v.holder? w l = r, v'.holder? w' l = r' at hlike
  cases hlike with
  | none => rfl
  | some ha => exact congrArg some ha

/-! ## Functions that call one another -/

namespace Eval

/-- What is tracked when it is called. -/
structure Together (own : Origin → Origin → Prop) (go : Callees World) : Prop where
  eval : ∀ {env env' c c'}, Env.Like (.upToTypes own) env env' → c.UpToTypes own c' →
    Tracks own (Agree own) (go.eval env c) fun k => eval k env' c'
  apply : ∀ {f f' x x'}, Agree own f f' → Agree own x x' →
    Tracks own (Agree own) (go.apply f x) fun k => apply k f' x'
  operate : ∀ {op args args'}, op ≠ .modulo → Value.AllLike (.upToTypes own) args args' →
    Tracks own (Agree own) (go.operate op args) fun k => operate k op args'
  field : ∀ {v v'} l, Agree own v v' → Tracks own (Agree own) (go.field v l) fun k => field k v' l
  force : ∀ a l, Tracks own (Agree own) (go.force a l) fun k => force k a l
  load : ∀ n name, Tracks own (Option.Rel (Agree own)) (go.load n name) fun k => load k n name
  document : ∀ {v v'} path, Agree own v v' →
    Tracks own Eq (go.document path v) fun k => document k path v'

namespace Together

variable {go : Callees World}

theorem none : Together own .none where
  eval _ _ := tracks_tooDeep
  apply _ _ := tracks_tooDeep
  operate _ _ := tracks_tooDeep
  field _ _ := tracks_tooDeep
  force _ _ := tracks_tooDeep
  load _ _ := tracks_tooDeep
  document _ _ := tracks_tooDeep

/-- **An expression is evaluated**: an ascription takes one level, and every other form does the
same on both sides. -/
theorem evalBy (h : Together own go) {env env' : Env} (henv : Env.Like (.upToTypes own) env env')
    {c c' : Code} (hc : c.UpToTypes own c') :
    Tracks own (Agree own) (Eval.evalBy .plain go env c) fun k => Eval.eval k env' c' := by
  induction hc with
  | ascribeLeft _ hc _ =>
    rw [Eval.evalBy]
    exact h.eval henv hc
  | ascribeRight _ _ ih =>
    refine Tracks.deeper ?_
    simp only [Eval.eval_succ, Eval.evalBy]
    exact ih
  | ascribe hc _ =>
    refine Tracks.deeper ?_
    simp only [Eval.eval_succ, Eval.evalBy]
    exact h.eval henv hc
  | @number _ _ n ho =>
    refine Tracks.deeper ?_
    cases n with
    | int i =>
      simp only [Eval.eval_succ, Eval.evalBy]
      exact tracks_pure (.int trivial)
    | real x =>
      simp only [Eval.eval_succ, Eval.evalBy]
      exact tracks_pure (.real trivial fun hx => ho (congrArg _ hx))
  | char =>
    refine Tracks.deeper ?_
    simp only [Eval.eval_succ, Eval.evalBy]
    exact tracks_pure (.text trivial)
  | @var _ _ x =>
    have hfetch := henv.fetch? x
    refine Tracks.deeper ?_
    simp only [Eval.eval_succ, Eval.evalBy]
    generalize env.fetch? x = r, env'.fetch? x = r' at hfetch
    cases hfetch with
    | none => exact tracks_throw rfl
    | some hv => exact tracks_pure hv
  | op hp =>
    refine Tracks.deeper ?_
    simp only [Eval.eval_succ, Eval.evalBy]
    exact tracks_pure (.operator hp)
  | lambda hbody _ =>
    refine Tracks.deeper ?_
    simp only [Eval.eval_succ, Eval.evalBy]
    exact tracks_birth.bind fun _ _ hp =>
      tracks_pure (.closure hp.fresh.own henv.root henv.names henv.values hbody)
  | apply hf hx _ _ =>
    refine Tracks.deeper ?_
    simp only [Eval.eval_succ, Eval.evalBy]
    exact (h.eval henv hf).bind fun _ _ hf => (h.eval henv hx).bind fun _ _ hx => h.apply hf hx
  | list hlen hes _ =>
    refine Tracks.deeper ?_
    simp only [Eval.eval_succ, Eval.evalBy]
    exact (tracks_mapM (fun _ _ hc => h.eval henv hc) (Code.upToTypes_parts hlen hes)).bind
      fun _ _ hvs => tracks_birth.bind fun _ _ _ => tracks_pure (Value.like_list trivial hvs)
  | record hlabels hfields _ =>
    refine Tracks.deeper ?_
    simp only [Eval.eval_succ, Eval.evalBy]
    exact tracks_allocate ⟨henv, rfl, LazyRow.like_ofRow (Code.upToTypes_fields hlabels hfields)⟩
  | tuple hlen hes _ =>
    refine Tracks.deeper ?_
    simp only [Eval.eval_succ, Eval.evalBy]
    exact tracks_allocate ⟨henv, rfl, LazyRow.like_ofRow (Code.upToTypes_positional hlen hes)⟩
  | dispatch hlabels hhandlers _ =>
    refine Tracks.deeper ?_
    simp only [Eval.eval_succ, Eval.evalBy]
    exact tracks_birth.bind fun _ _ hp => tracks_pure
      (.dispatcher hp.fresh.own henv.root henv.names henv.values
        (Code.upToTypes_fields hlabels hhandlers))
  | tag =>
    refine Tracks.deeper ?_
    simp only [Eval.eval_succ, Eval.evalBy]
    exact tracks_birth.bind fun _ _ hp => tracks_pure (.tagger hp.fresh.own trivial)
  | @load _ _ name =>
    have hroot := henv.root
    refine Tracks.deeper ?_
    simp only [Eval.eval_succ, Eval.evalBy]
    generalize env.root = r, env'.root = r' at hroot
    cases hroot with
    | none => exact tracks_throw rfl
    | @some n n' hn =>
      cases (show n = n' from hn)
      refine (h.load n name).bind fun q q' hq => ?_
      cases hq with
      | none => exact tracks_throw rfl
      | some hv => exact tracks_pure hv
  | bindIn hb he _ _ =>
    refine Tracks.deeper ?_
    simp only [Eval.eval_succ, Eval.evalBy]
    exact (h.eval henv hb).bind fun _ _ hv =>
      (tracks_collectWith h.field _ .nil hv).bind fun _ _ hbs =>
      h.eval (henv.extend hbs) he

/-- **A function is applied.** -/
theorem applyBy (h : Together own go) {f f' : Value} (hf : Agree own f f') (hx : Agree own x x') :
    Tracks own (Agree own) (Eval.applyBy .plain go f x) fun k => Eval.apply k f' x' := by
  refine Tracks.deeper ?_
  by_cases hproc : f.isProcedure = true
  case neg =>
    simp only [Eval.apply_succ, applyBy_not_procedure hproc,
      applyBy_not_procedure (hf.isProcedure_eq ▸ hproc)]
    exact tracks_failWith (fun _ _ => rfl) hf
  cases hf with
  | closure _ hroot hnames hvalues hcode =>
    have henv : Env.Like (.upToTypes own) _ _ := ⟨hroot, hnames, hvalues⟩
    simp only [Eval.apply_succ, Eval.applyBy]
    exact (tracks_collectWith h.field _ .nil hx).bind fun _ _ hbs => h.eval (henv.extend hbs) hcode
  | tagger _ _ =>
    simp only [Eval.apply_succ, Eval.applyBy]
    exact tracks_birth.bind fun _ _ _ => tracks_pure (.tagged trivial trivial hx)
  | dispatcher _ hroot hnames hvalues hhandlers =>
    have henv : Env.Like (.upToTypes own) _ _ := ⟨hroot, hnames, hvalues⟩
    have hhandled := hx.handled? hhandlers
    simp only [Eval.apply_succ, applyBy_dispatcher]
    generalize x.handled? _ = q, x'.handled? _ = q' at hhandled
    cases hhandled with
    | none => exact tracks_failWith (fun _ _ => rfl) hx
    | some hpq => exact (h.eval henv hpq.1).bind fun _ _ hg => h.apply hg hpq.2
  | operator hop =>
    simp only [Eval.apply_succ, Eval.applyBy]
    exact (h.operate hop (.cons hx .nil)).refusing _
  | waiting _ hop hlen hargs =>
    simp only [Eval.apply_succ, Eval.applyBy]
    exact (h.operate hop
      (List.rel_append (Value.allMatch_of_zip hlen hargs) (.cons hx .nil))).refusing _
  | _ => cases hproc

/-! ### Operators -/

theorem map (h : Together own go) {f f' : Value} (hf : Agree own f f') (hx : Agree own x x') :
    Tracks own (Agree own) (do
      let items ← (← entries x).mapM (go.apply f)
      return .list (← World.birth) items) fun k => do
      let items ← (← entries x').mapM (Eval.apply k f')
      return .list (← World.birth) items :=
  (tracks_entries hx).bind fun _ _ hitems => (tracks_mapM (fun _ _ hx => h.apply hf hx) hitems).bind
    fun _ _ hys => tracks_birth.bind fun _ _ _ => tracks_pure (Value.like_list trivial hys)

theorem filter (h : Together own go) {f f' : Value} (hf : Agree own f f') (hx : Agree own x x') :
    Tracks own (Agree own) (do
      let items ← (← entries x).filterM fun x => do verdictOf .plain (← go.apply f x)
      return .list (← World.birth) items) fun k => do
      let items ← (← entries x').filterM fun x => do verdictOf .plain (← Eval.apply k f' x)
      return .list (← World.birth) items :=
  (tracks_entries hx).bind fun _ _ hitems =>
    (tracks_filterM (R := Agree own)
      (fun _ _ hx => (h.apply hf hx).bind fun _ _ hv => tracks_verdictOf hv)
      hitems).bind fun _ _ hys =>
      tracks_birth.bind fun _ _ _ => tracks_pure (Value.like_list trivial hys)

theorem fold (h : Together own go) {f f' : Value} (hf : Agree own f f') (hx : Agree own x x')
    (hy : Agree own y y') : Tracks own (Agree own) (do
      let items ← entries y
      items.foldlM (fun acc x => do go.apply (← go.apply f acc) x) x) fun k => (do
      let items ← entries y'
      items.foldlM (fun acc x => do Eval.apply k (← Eval.apply k f' acc) x) x') :=
  (tracks_entries hy).bind fun _ _ hitems =>
    tracks_foldlM (V := Agree own) (R := Agree own)
      (fun _ _ _ _ hb hx => (h.apply hf hb).bind fun _ _ hg => h.apply hg hx) hitems hx

/-- **An operator is applied to some arguments.** -/
theorem operateBy (hown : ToldApart own) (h : Together own go) {op : Operator} (hop : op ≠ .modulo)
    {args args' : List Value} (hargs : Value.AllLike (.upToTypes own) args args') :
    Tracks own (Agree own) (Eval.operateBy .plain go op args) fun k => Eval.operate k op args' := by
  have hlen := hargs.length_eq
  refine Tracks.deeper ?_
  rcases Nat.lt_trichotomy args.length (arity op) with hlt | heq | hgt
  · simp only [operate_succ, operateBy_of_lt hlt, operateBy_of_lt (hlen ▸ hlt)]
    exact tracks_birth.bind fun _ _ hp => tracks_pure (Value.like_waiting hp.fresh.own hop hargs)
  · cases op with
    | map =>
      obtain ⟨f, x, rfl⟩ := List.length_eq_two.mp heq
      obtain _ | ⟨hf, _ | ⟨hx, _ | _⟩⟩ := hargs
      exact h.map hf hx
    | filter =>
      obtain ⟨f, x, rfl⟩ := List.length_eq_two.mp heq
      obtain _ | ⟨hf, _ | ⟨hx, _ | _⟩⟩ := hargs
      exact h.filter hf hx
    | fold =>
      obtain ⟨f, x, y, rfl⟩ := List.length_eq_three.mp heq
      obtain _ | ⟨hf, _ | ⟨hx, _ | ⟨hy, _ | _⟩⟩⟩ := hargs
      exact h.fold hf hx hy
    | size =>
      obtain ⟨x, rfl⟩ := List.length_eq_one_iff.mp heq
      obtain _ | ⟨hx, _ | _⟩ := hargs
      exact tracks_sizeOf hx
    | countUp =>
      obtain ⟨x, rfl⟩ := List.length_eq_one_iff.mp heq
      obtain _ | ⟨hx, _ | _⟩ := hargs
      refine tracks_room.bind fun room _ hroom => ?_
      subst hroom
      exact tracks_unary fun hp => Value.like_countUp room (fun _ => trivial) hp.fresh hx
    | ord =>
      obtain ⟨x, rfl⟩ := List.length_eq_one_iff.mp heq
      obtain _ | ⟨hx, _ | _⟩ := hargs
      exact tracks_unary fun hp => Value.like_ord hp.fresh hx
    | chr =>
      obtain ⟨x, rfl⟩ := List.length_eq_one_iff.mp heq
      obtain _ | ⟨hx, _ | _⟩ := hargs
      exact tracks_unary fun hp => Value.like_chr hp.fresh hx
    | _ =>
      obtain ⟨x, rfl⟩ := List.length_eq_one_iff.mp heq
      obtain _ | ⟨hx, _ | _⟩ := hargs
      exact (h.field "0" hx).bind fun _ _ hy => (h.field "1" hx).bind fun _ _ hz =>
        tracks_calculate hown hop hy hz
  · simp only [operate_succ, operateBy_of_gt hgt, operateBy_of_gt (hlen ▸ hgt)]
    exact tracks_throw rfl

/-! ### Fields and modules -/

theorem fieldBy (h : Together own go) (l : Label) (hv : Agree own v v') :
    Tracks own (Agree own) (Eval.fieldBy .plain go v l) fun k => Eval.field k v' l := by
  refine Tracks.deeper (Tracks.look fun w w' hw => ?_)
  refine ⟨_, _, run_fieldBy rfl v l w, fun k => run_fieldBy rfl v' l w', ?_⟩
  rw [← hv.holder?_eq hw l]
  cases v.holder? w l with
  | none => exact tracks_failWith (fun _ _ => rfl) hv
  | some a => exact h.force a l

/-- **A field is read.** -/
theorem forceBy (h : Together own go) (a : Nat) (l : Label) :
    Tracks own (Agree own) (Eval.forceBy .plain go a l) fun k => Eval.force k a l := by
  refine Tracks.deeper ?_
  simp only [force_succ, Eval.forceBy, Host.plainly_plain]
  refine tracks_get fun w w' hw => ?_
  have haccess := LazyRow.access_like (hw.row a) l
  generalize (w.row a).access l = q, (w'.row a).access l = q' at haccess
  cases haccess with
  | missing | circular => exact tracks_throw rfl
  | ready hv => exact tracks_pure hv
  | start hi =>
    refine tracks_get fun u u' hu => (tracks_setCell a l .inProgress).bind fun _ _ _ => ?_
    refine ((h.eval ((hu.record a).env a) hi).passing (fun _ _ => rfl) fun _ _ => rfl).bind
      fun _ _ hv => ?_
    exact (tracks_setCell a l (.ready hv)).bind fun _ _ _ => tracks_pure hv

/-- **A module is read and computed.** -/
theorem fetching (h : Together own go) {lib : Library} (n : Nat) (name : String)
    (hlib : ∀ {source tree}, lib.source name = .ok (some source) →
      Expr.parse source.toList = .ok tree → tree.Without .modulo) :
    Tracks own (Option.Rel (Agree own)) (Eval.fetching .plain go lib n name)
      fun k => Eval.fetching .plain (within .plain k) lib n name := by
  unfold Eval.fetching
  cases hsource : lib.source name with
  | error f => exact tracks_throw rfl
  | ok found =>
    cases found with
    | none => exact (tracks_post _).bind fun _ _ _ => tracks_pure .none
    | some source =>
      refine (tracks_modify fun w w' hw => hw.trace _ _).bind fun _ _ _ => ?_
      cases hparse : Expr.parse source.toList with
      | error e =>
        cases e with
        | halted why =>
          cases why with
          | fault f => exact tracks_throw rfl
          | endless => exact tracks_tooDeep
        | _ => exact (tracks_post _).bind fun _ _ _ => tracks_pure .none
      | ok tree =>
        refine (tracks_updateResolver n fun _ _ hr => hr.enter name).bind fun _ _ _ =>
          tracks_birth.bind fun p p' hp => ?_
        have hcode : Code.UpToTypes own ⟨p, tree⟩ ⟨p', tree⟩ :=
          hp.same ▸ Code.upToTypes_self (hlib hsource hparse) hp.own
        refine ((h.eval (Env.Like.ofRoot (.some rfl)) hcode).passing
          (fun _ _ => rfl) fun _ _ => rfl).bind
          fun v v' hv => ?_
        exact (tracks_updateResolver n fun _ _ hr => (hr.keep name hv).leave).bind
          fun _ _ _ => tracks_pure (.some hv)

/-- **A module is loaded.** -/
theorem resolving (h : Together own go) (n : Nat) (name : String) :
    Tracks own (Option.Rel (Agree own)) (Eval.resolving .plain go n name) fun k =>
      Eval.load k n name := by
  refine Tracks.deeper ?_
  simp only [load_succ, Eval.resolving, Host.plainly_plain]
  refine tracks_get fun w w' hw => ?_
  have hr : (w.resolvers[n]?.getD default).Like own (w'.resolvers[n]?.getD default) := hw.resolver n
  generalize w.resolvers[n]?.getD default = r, w'.resolvers[n]?.getD default = r' at hr
  have hloaded := hr.loaded name
  have hcycle : r'.cycleFrom name = r.cycleFrom name := by
    rw [Resolver.cycleFrom, Resolver.cycleFrom, hr.construction]
  rw [← hw.library, ← hr.construction, hcycle]
  generalize r.loaded.lookup name = q, r'.loaded.lookup name = q' at hloaded
  cases hloaded with
  | some hv => exact tracks_pure (.some hv)
  | none =>
    cases r.construction.contains name with
    | true => exact (tracks_post _).bind fun _ _ _ => tracks_pure .none
    | false => exact h.fetching n name hw.modules

/-! ### Documents -/

/-- **A value is written.** -/
theorem documentBy (h : Together own go) (path : List Nat) (hv : Agree own v v') :
    Tracks own Eq (Eval.documentBy .plain go path v) fun k => Eval.document k path v' := by
  refine Tracks.deeper ?_
  simp only [document_succ]
  cases hplain : v.plain? with
  | some doc =>
    simp only [documentBy_plain hplain, documentBy_plain (hv.plain?_eq ▸ hplain)]
    exact tracks_pure rfl
  | none =>
    cases hv with
    | tagged _ _ hx =>
      simp only [Eval.documentBy]
      exact (h.document path hx).bind fun _ _ hdoc => tracks_pure (hdoc ▸ rfl)
    | list _ hlen hitems =>
      simp only [Eval.documentBy]
      refine (tracks_mapM (fun _ _ hx => h.document path hx)
        (Value.allMatch_of_zip hlen hitems)).bind
        fun _ _ hdocs => ?_
      rw [List.forall₂_eq_eq_eq] at hdocs
      exact tracks_pure (hdocs ▸ rfl)
    | @record a _ ha =>
      cases (show a = _ from ha)
      simp only [Eval.documentBy, Host.plainly_plain]
      cases path.contains a with
      | true => exact tracks_pure rfl
      | false =>
        refine tracks_get fun w w' hw => ?_
        rw [hw.labels a]
        refine (tracks_mapM (R := Eq) (V := Eq) (fun l _ hl => ?_)
          (List.forall₂_eq_eq_eq ▸ rfl)).bind
          fun _ _ hdocs => ?_
        · subst hl
          exact (h.force a l).bind fun _ _ hv => (h.document (a :: path) hv).bind fun _ _ hdoc =>
            tracks_pure (hdoc ▸ rfl)
        · rw [List.forall₂_eq_eq_eq] at hdocs
          exact tracks_pure (hdocs ▸ rfl)
    | _ => cases hplain

end Together

/-- **Code that is the same up to types is evaluated in lockstep**, with any number of levels. -/
theorem together (hown : ToldApart own) (d : Nat) : Together own (within .plain d) := by
  induction d with
  | zero => exact .none
  | succ d ih =>
    exact {
      eval := fun henv hc => ih.evalBy henv hc
      apply := ih.applyBy
      operate := fun hop hargs => ih.operateBy hown hop hargs
      field := ih.fieldBy
      force := ih.forceBy
      load := ih.resolving
      document := ih.documentBy }

/-! ## Texts -/

/-- The value of code, as text, with a number of levels. -/
def textOf (d : Nat) (env : Env) (c : Code) : Evaluating String := do
  let v ← eval d env c
  World.faulty (← document d [] v).toText

theorem tracks_textOf (hown : ToldApart own) (d : Nat) {env env' : Env}
    (henv : Env.Like (.upToTypes own) env env') {c c' : Code} (hc : c.UpToTypes own c') :
    Tracks own Eq (textOf d env c) fun k => textOf k env' c' :=
  ((together hown d).eval henv hc).bind fun _ _ hv =>
    ((together hown d).document [] hv).bind fun _ _ hdoc =>
    tracks_faulty (.of_eq (congrArg Document.toText hdoc))

end Eval

/-! ## Endings -/

/-- How an evaluation ends that is followed as deep as it goes. -/
inductive Ending where
  | text (s : String)
  | failure (e : Failure)
  | endless

/-- The ending that a result shows. -/
def Ending.ofResult : Except Failure String → Ending
  | .ok s => text s
  | .error .tooDeep => endless
  | .error e => failure e.undescribed

/-- **An evaluation ends so**: with one text, or with one failure up to the description of a value,
whenever it is followed deep enough; or it is too deep, however deep it is followed. -/
def EndsAs (r : Nat → Except Failure String) : Ending → Prop
  | .text s => ∃ n, ∀ k, n ≤ k → r k = .ok s
  | .failure f => f ≠ .tooDeep ∧ ∃ n, ∀ k, n ≤ k → ∃ e, r k = .error e ∧ e.undescribed = f
  | .endless => ∀ k, r k = .error .tooDeep

namespace Ending

variable {e : Failure} {q : Except Failure String}

theorem ofResult_error (h : e ≠ .tooDeep) : ofResult (.error e) = failure e.undescribed := by
  cases e <;> first | rfl | exact absurd rfl h

theorem undescribed_eq_tooDeep (h : e.undescribed = .tooDeep) : e = .tooDeep := by
  cases e <;> first | rfl | cases h

theorem eq_tooDeep_of_endless (h : ofResult q = endless) : q = .error .tooDeep := by
  cases q with
  | ok s => cases h
  | error e =>
    by_contra hne
    rw [ofResult_error fun he => hne (he ▸ rfl)] at h
    cases h

end Ending

section Endings

variable {r : Nat → Except Failure String} {o o' : Ending}

/-- What is followed deep enough shows how it ends. -/
theorem EndsAs.eventually (h : EndsAs r o) : ∃ n, ∀ k, n ≤ k → Ending.ofResult (r k) = o := by
  cases o with
  | text s =>
    obtain ⟨n, hn⟩ := h
    exact ⟨n, fun k hk => by rw [hn k hk]; rfl⟩
  | failure f =>
    obtain ⟨hf, n, hn⟩ := h
    refine ⟨n, fun k hk => ?_⟩
    obtain ⟨e, he, rfl⟩ := hn k hk
    have hne : e ≠ .tooDeep := by
      rintro rfl
      exact hf rfl
    rw [he, Ending.ofResult_error hne]
  | endless => exact ⟨0, fun k _ => by rw [h k]; rfl⟩

/-- **An evaluation ends in one way only.** -/
theorem EndsAs.unique (h : EndsAs r o) (h' : EndsAs r o') : o = o' := by
  obtain ⟨n, hn⟩ := h.eventually
  obtain ⟨n', hn'⟩ := h'.eventually
  rw [← hn (max n n') (le_max_left n n'), hn' (max n n') (le_max_right n n')]

variable {M N : Nat → Evaluating String} {m : Evaluating String} {w w' : World}

/-- What is not too deep shows how those end that track it. -/
theorem Tracks.endsAs (h : Tracks own Eq m N) (hw : w.Like own w')
    (hdeep : (m.run w).1 ≠ .error .tooDeep) :
    EndsAs (fun k => ((N k).run w').1) (.ofResult (m.run w).1) := by
  rcases h w w' hw with h | ⟨n, q, hq, hend⟩
  · exact absurd h hdeep
  revert hdeep hend
  rcases m.run w with ⟨x, u⟩
  intro hdeep hend
  cases hend with
  | ok hxy _ =>
    cases hxy
    exact ⟨n, fun k hk => congrArg Prod.fst (hq k hk)⟩
  | @error e e' _ _ he =>
    have hne : e ≠ .tooDeep := fun h => hdeep (h ▸ rfl)
    rw [Ending.ofResult_error hne]
    exact ⟨fun hf => hne (Ending.undescribed_eq_tooDeep hf), n, fun k hk =>
      ⟨e', congrArg Prod.fst (hq k hk), he.symm⟩⟩

/-- **What tracks each other ends alike.** -/
theorem exists_ending {own₁ own₂ own₃ : Origin → Origin → Prop} (h₁ : ∀ d, Tracks own₁ Eq (M d) M)
    (h₂ : ∀ d, Tracks own₂ Eq (M d) N) (h₃ : ∀ d, Tracks own₃ Eq (N d) M) (hw₁ : w.Like own₁ w)
    (hw₂ : w.Like own₂ w) (hw₃ : w.Like own₃ w) :
    ∃ o, EndsAs (fun k => ((M k).run w).1) o ∧ EndsAs (fun k => ((N k).run w).1) o := by
  by_cases hdeep : ∀ d, ((M d).run w).1 = .error .tooDeep
  · refine ⟨.endless, hdeep, fun d => ?_⟩
    by_contra hd
    have hends := (h₃ d).endsAs hw₃ hd
    exact hd (Ending.eq_tooDeep_of_endless (EndsAs.unique hends hdeep))
  · obtain ⟨d, hd⟩ := not_forall.mp hdeep
    exact ⟨_, (h₁ d).endsAs hw₁ hd, (h₂ d).endsAs hw₂ hd⟩

end Endings

/-! ## Programs -/

/-- **Everything in a world is of that world, and an operator stands nowhere in it**, nor in a
module that can be loaded. -/
structure World.Without (p : Operator) (w : World) : Prop where
  scope : ∀ r ∈ w.records, r.scope.Matches w.itself r.scope ∧ Env.Without p r.scope
  initializer : ∀ r ∈ w.records, ∀ f ∈ r.row,
    f.2.initializer.Matches w.itself f.2.initializer ∧ f.2.initializer.expr.Without p
  ready : ∀ r ∈ w.records, ∀ f ∈ r.row, ∀ v, f.2.cell = .ready v →
    v.Matches w.itself v ∧ v.Without p
  loaded : ∀ r ∈ w.resolvers, ∀ name v, r.loaded.lookup name = some v →
    v.Matches w.itself v ∧ v.Without p
  modules : ∀ {name source tree}, w.library.source name = .ok (some source) →
    Expr.parse source.toList = .ok tree → tree.Without p

/-- **A world without `%` is like itself when a program has been read**, if all that was not read
then is known by its origin. -/
theorem World.Without.like {w : World} (h : w.Without .modulo)
    (hown : ∀ p : Origin, p.birth ≠ w.births → own p p) :
    World.Like own { w with births := w.births + 1 } { w with births := w.births + 1 } := by
  have hold (p : Origin) (hp : w.itself (.birth p.birth) (.birth p.birth)) : own p p :=
    hown p (Nat.ne_of_lt hp.2)
  exact {
    size := rfl
    records := fun a => by
      dsimp only
      cases hr : w.records[a]? with
      | none => exact .none
      | some r =>
        have hmem := Array.mem_of_getElem? hr
        refine .some ⟨(h.scope r hmem).2.like (h.scope r hmem).1 hold, rfl,
          List.forall₂_same.mpr fun f hf =>
          ⟨rfl, ?_, ?_⟩⟩
        · exact (h.initializer r hmem f hf).1.upToTypes (h.initializer r hmem f hf).2 hold
        · have hready := h.ready r hmem f hf
          revert hready
          cases f.2.cell with
          | absent => exact fun _ => .absent
          | inProgress => exact fun _ => .inProgress
          | ready v => exact fun hready => .ready ((hready v rfl).2.like (hready v rfl).1 hold)
    births := rfl
    fresh := fun p hp => hown p (Nat.ne_of_gt hp)
    library := rfl
    room := rfl
    modules := h.modules
    resolvers := fun k => by
      dsimp only
      cases hr : w.resolvers[k]? with
      | none => exact .none
      | some r =>
        refine .some ⟨fun name => ?_, rfl⟩
        have hloaded := h.loaded r (Array.mem_of_getElem? hr) name
        revert hloaded
        cases r.loaded.lookup name with
        | none => exact fun _ => .none
        | some v => exact fun hloaded => .some ((hloaded v rfl).2.like (hloaded v rfl).1 hold)
    report := rfl }

namespace Eval

/-- The value of a program in a scope, as text, with a number of levels. -/
def textWithin (d : Nat) (env : Env) (e : Expr) : Evaluating String := do
  textOf d env ⟨← World.birth, e⟩

/-- A session asks for the value of a program with its own number of levels. -/
theorem valueText_eq (root : ImportRoot) (e : Expr) :
    Session.valueText root e = textWithin depthLimit (.ofRoot root) e := rfl

/-- **Evaluation ignores types**: a program and its erasure come to the same text, or fail alike, or
both go on for ever, if `%` stands nowhere and the types of the program have texts. -/
theorem erased_ends_alike {w : World} {env : Env} {e : Expr} (hw : w.Without .modulo)
    (henv : env.Matches w.itself env) (hclear : env.Without .modulo) (he : e.Without .modulo)
    (ht : e.unranked? = none) :
    ∃ o, EndsAs (fun d => ((textWithin d env e).run w).1) o ∧
      EndsAs (fun d => ((textWithin d env e.erased).run w).1) o := by
  have hscope {own : Origin → Origin → Prop} (hown : ∀ p : Origin, p.birth ≠ w.births → own p p) :
      Env.Like (.upToTypes own) env env := hclear.like henv fun p hp => hown p (Nat.ne_of_lt hp.2)
  have hnumber (p : Origin) (hp : p.birth ≠ w.births) : e.SameNumber w.births p p :=
    Or.inl ⟨rfl, hp⟩
  have hsame := e.toldApart_sameNumber w.births
  have hcode := Code.upToTypes_sameNumber (b := w.births) he ht
  refine exists_ending (w := { w with births := w.births + 1 })
    (M := fun d => textOf d env ⟨{ birth := w.births }, e⟩)
    (N := fun d => textOf d env ⟨{ birth := w.births }, e.erased⟩) (fun d => ?_) (fun d => ?_)
      (fun d => ?_)
    (hw.like fun _ _ => rfl) (hw.like hnumber)
    (show World.Like (flip (e.SameNumber w.births)) _ _ from hw.like fun p hp => hnumber p hp)
  · exact tracks_textOf toldApart_eq d (hscope fun _ _ => rfl)
      (Code.upToTypes_self he fun _ _ => rfl)
  · exact tracks_textOf hsame d (hscope hnumber) hcode
  · exact tracks_textOf hsame.flip d (hscope fun p hp => hnumber p hp) hcode.symm

end Eval

namespace Session

/-- A library of one function, which has an ascription in it. -/
def counter : Library := { definitions := [("next", "x => N : x + 1")] }

/-- A session has seen nothing but its library. -/
theorem without_ofLibrary {lib : Library} {p : Operator}
    (h : ∀ {name source tree}, lib.source name = .ok (some source) →
      Expr.parse source.toList = .ok tree → tree.Without p) : World.Without p
        (ofLibrary lib).world where
  scope r hr := by
    obtain rfl : r = ⟨.ofRoot none, false, []⟩ := by simpa [ofLibrary] using hr
    exact ⟨.ofRoot .none, fun _ _ h => by cases h⟩
  initializer r hr f hf := by
    obtain rfl : r = ⟨.ofRoot none, false, []⟩ := by simpa [ofLibrary] using hr
    cases hf
  ready r hr f hf := by
    obtain rfl : r = ⟨.ofRoot none, false, []⟩ := by simpa [ofLibrary] using hr
    cases hf
  loaded r hr name v hv := by
    obtain rfl : r = {} := by simpa [ofLibrary] using hr
    cases hv
  modules := h

/-- A program with an ascription of its own. -/
def counting : Expr :=
  .ascribe .number (.apply (.load "next") (.ascribe .number (.number (.int 4))))

/-- The program and its erasure count on from four, both with the function that the library has
typed. -/
theorem erased_ends_alike_counting :
    World.Without .modulo (ofLibrary counter).world ∧ counting.Without .modulo ∧
      counting.unranked? = none ∧
    counting.erased = .apply (.load "next") (.number (.int 4)) ∧
    ∃ o, EndsAs (fun d =>
      ((Eval.textWithin d (.ofRoot (some 0)) counting).run (ofLibrary counter).world).1) o ∧
      EndsAs (fun d => ((Eval.textWithin d (.ofRoot (some 0)) counting.erased).run
        (ofLibrary counter).world).1) o := by
  have hparse : Expr.parse "x => N : x + 1".toList = .ok (.lambda (.name "x") (.ascribe .number
      (.apply (.op .plus) (.tuple [.var "x", .number (.int 1)])))) := rfl
  have hworld : World.Without .modulo (ofLibrary counter).world := by
    refine without_ofLibrary fun {name source tree} hsource htree => ?_
    have hnext : source = "x => N : x + 1" := by
      by_cases hname : name = "next"
      · subst hname
        exact (Option.some.inj (Except.ok.inj hsource)).symm
      · have hnone : counter.source name = .ok none := by
          simp [Library.source, counter, hname]
        cases hnone.symm.trans hsource
    rw [hnext] at htree
    cases hparse.symm.trans htree
    exact ⟨Operator.noConfusion, trivial, trivial, trivial⟩
  have hcounting : counting.Without .modulo := ⟨trivial, trivial⟩
  have henv : Env.Matches (ofLibrary counter).world.itself (.ofRoot (some 0)) (.ofRoot (some 0)) :=
    .ofRoot (.some ⟨rfl, Nat.one_pos⟩)
  have hclear : Env.Without .modulo (.ofRoot (some 0)) := fun _ _ h => by cases h
  exact ⟨hworld, hcounting, rfl, rfl, Eval.erased_ends_alike hworld henv hclear hcounting rfl⟩

/-- A library of one function, which writes its argument into a text. -/
def writer : Library := { definitions := [("shown", "v => ('%' + 's') % v")] }

/-- The ascription in a function is seen by a module that writes the function into a text. -/
theorem ascription_seen :
    (∃ e, Expr.parse "(import shown) (x => N : x)".toList = .ok e ∧ e.Without .modulo ∧
      Expr.parse "(import shown) (x => x)".toList = .ok e.erased) ∧
    ((evaluate "(import shown) (x => N : x)").run (ofLibrary writer)).1.toOption.map (·.text)
      = some "\"<closure x => N : x>\"" ∧
    ((evaluate "(import shown) (x => x)").run (ofLibrary writer)).1.toOption.map (·.text)
      = some "\"<closure x => x>\"" := by
  refine ⟨⟨.apply (.load "shown") (.lambda (.name "x") (.ascribe .number (.var "x"))), rfl, ?_,
    rfl⟩, ?_, ?_⟩
  · exact ⟨trivial, trivial⟩
  · decide +kernel
  · decide +kernel

end Session

end RowLang
