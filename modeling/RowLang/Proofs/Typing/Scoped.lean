import RowLang.Proofs.Expr.Tidy
import RowLang.Proofs.Row.Lookup
import RowLang.Proofs.Run
import RowLang.Typing.Infer

/-!
# Proofs/Typing/Scoped — what has a type has its names bound

An expression is scoped in some names when each of its variables is one of them, or bound on the way
to it (`Expr.Scoped`): by the pattern of a lambda or of a binding, and in the fields of a record
there is `this`. The walk over an expression stops at an unbound name, whatever it is answered
before; so the expression is scoped if the walk comes to an end (`Expr.scoped_of_infer`).
-/

namespace RowLang

variable {α β : Type}

/-! ## Scoped expressions -/

/-- **Each variable is bound**, by the expression itself or outside of it. -/
inductive Expr.Scoped : List String → Expr → Prop
  | number {names n} : Scoped names (.number n)
  | char {names c} : Scoped names (.char c)
  | var {names x} : x ∈ names → Scoped names (.var x)
  | op {names o} : Scoped names (.op o)
  | lambda {names p body} : Scoped (p.names ++ names) body → Scoped names (.lambda p body)
  | apply {names fn arg} : Scoped names fn → Scoped names arg → Scoped names (.apply fn arg)
  | list {names elts} : (∀ e ∈ elts, Scoped names e) → Scoped names (.list elts)
  | record {names fields} : (∀ f ∈ fields, Scoped ("this" :: names) f.2) →
    Scoped names (.record fields)
  | tuple {names items} : (∀ e ∈ items, Scoped names e) → Scoped names (.tuple items)
  | dispatch {names handlers} : (∀ f ∈ handlers, Scoped names f.2) →
    Scoped names (.dispatch handlers)
  | tag {names l} : Scoped names (.tag l)
  | load {names name} : Scoped names (.load name)
  | ascribe {names declared e} : Scoped names e → Scoped names (.ascribe declared e)
  | bindIn {names p bound body} : Scoped names bound → Scoped (p.names ++ names) body →
      Scoped names (.bindIn p bound body)

/-- The names of a pattern are bound in front of others. -/
theorem Pattern.names_append_subset (p : Pattern) {names names' : List String}
    (h : names ⊆ names') :
    p.names ++ names ⊆ p.names ++ names' := fun _ hx =>
  List.mem_append.mpr ((List.mem_append.mp hx).imp id (h ·))

/-- More names may be bound. -/
theorem Expr.Scoped.mono {names : List String} {e : Expr} (h : e.Scoped names) :
    ∀ {names' : List String}, names ⊆ names' → e.Scoped names' := by
  induction h with
  | number => exact fun _ => .number
  | char => exact fun _ => .char
  | var hx => exact fun hsub => .var (hsub hx)
  | op => exact fun _ => .op
  | @lambda _ p _ _ ih => exact fun hsub => .lambda (ih (p.names_append_subset hsub))
  | apply _ _ ihfn iharg => exact fun hsub => .apply (ihfn hsub) (iharg hsub)
  | list _ ih => exact fun hsub => .list fun e he => ih e he hsub
  | record _ ih => exact fun hsub => .record fun f hf => ih f hf (List.cons_subset_cons _ hsub)
  | tuple _ ih => exact fun hsub => .tuple fun e he => ih e he hsub
  | dispatch _ ih => exact fun hsub => .dispatch fun f hf => ih f hf hsub
  | tag => exact fun _ => .tag
  | load => exact fun _ => .load
  | ascribe _ ih => exact fun hsub => .ascribe (ih hsub)
  | @bindIn _ p _ _ _ _ ihbound ihbody =>
    exact fun hsub => .bindIn (ihbound hsub) (ihbody (p.names_append_subset hsub))

/-! ## Deductions -/

namespace Deduction

/-- **Whatever it is answered**, a deduction comes to something of which `P` holds, or to an unbound
name. -/
def Ensures (P : α → Prop) : Deduction α → Prop
  | done x => P x
  | unbound _ => True
  | fresh next => ∀ n, (next n).Ensures P
  | replace _ _ next => ∀ t, (next t).Ensures P
  | agree _ _ next => next.Ensures P

variable {P : α → Prop} {Q : β → Prop}

theorem Ensures.bind {d : Deduction α} {f : α → Deduction β} (h : d.Ensures P)
    (hf : ∀ x, P x → (f x).Ensures Q) : (d >>= f).Ensures Q := by
  show (d.bind f).Ensures Q
  induction d with
  | done x => exact hf x h
  | unbound name => trivial
  | fresh next ih => exact fun n => ih n (h n)
  | replace _ _ next ih => exact fun t => ih t (h t)
  | agree this that next ih => exact ih h

theorem Ensures.weaken {P' : α → Prop} {d : Deduction α} (h : d.Ensures P) (hP : ∀ x, P x → P' x) :
    d.Ensures P' := by
  induction d with
  | done x => exact hP x h
  | unbound name => trivial
  | fresh next ih => exact fun n => ih n (h n)
  | replace _ _ next ih => exact fun t => ih t (h t)
  | agree this that next ih => exact ih h

theorem ensures_freshVar : freshVar.Ensures fun _ => True := fun _ => trivial

theorem ensures_demand (this that : Ty) : (demand this that).Ensures fun _ => True := trivial

theorem ensures_instantiate (t : Ty) : (instantiate t).Ensures fun _ => True := by
  have hunder : ∀ t σ, (instantiateUnder σ t).Ensures fun _ => True := by
    intro t
    induction t using Ty.inductOn with
    | bind binder n body ih =>
      intro σ
      cases binder with
      | forAll => exact fun v => ih _
      | mu => exact fun _ => trivial
    | _ => exact fun _ _ => trivial
  exact hunder t []

/-- What comes to an end when it is run is as is ensured. -/
theorem Ensures.of_run {d : Deduction α} {budget : Nat} {s s' : Solver} {x : α} (h : d.Ensures P)
    (hrun : (Solver.run budget d).run s = (.ok x, s')) : P x := by
  induction d generalizing s with
  | done y =>
    cases hrun
    exact h
  | unbound name => cases hrun
  | fresh next ih =>
    obtain ⟨n, mid, -, hnext⟩ := Run.run_bind_eq_ok.mp hrun
    exact ih n (h n) hnext
  | replace _ _ next ih =>
    obtain ⟨t, mid, -, hnext⟩ := Run.run_bind_eq_ok.mp hrun
    exact ih t (h t) hnext
  | agree this that next ih =>
    obtain ⟨_, mid, -, hnext⟩ := Run.run_bind_eq_ok.mp hrun
    exact ih h hnext

end Deduction

/-! ## The walk -/

/-- The names that a context has types for. -/
def Context.names (ctx : Context) : List String := ctx.map Prod.fst

theorem Context.mem_names_of_lookup {ctx : Context} {x : String} {t : Ty}
    (h : ctx.lookup x = some t) :
    x ∈ ctx.names := List.mem_map_of_mem (Row.mem_of_lookup h)

namespace Pattern

open Deduction

/-- The context that a pattern makes has no names but those of the pattern and those from before. -/
theorem ensures_deduce (p : Pattern) : ∀ ctx : Context,
    (p.deduce ctx).Ensures fun r => r.1.names ⊆ p.names ++ ctx.names := by
  induction p using inductOn with
  | name x =>
    intro ctx
    rw [deduce]
    exact ensures_freshVar.bind fun t _ => List.Subset.refl _
  | wildcard =>
    intro ctx
    rw [deduce]
    exact ensures_freshVar.bind fun t _ => List.Subset.refl _
  | row fields ih =>
    intro ctx
    rw [deduce]
    refine Ensures.bind (P := fun r => r.1.names ⊆ namesOfFields fields ++ ctx.names) ?_ fun r hr =>
      ensures_freshVar.bind fun t _ => hr
    induction fields generalizing ctx with
    | nil => exact List.Subset.refl _
    | cons p fields ihf =>
      rw [deduceFields]
      refine (ih p List.mem_cons_self ctx).bind fun r hr => ?_
      refine (ihf (fun q hq => ih q (List.mem_cons_of_mem _ hq)) r.1).bind fun r' hr' => ?_
      intro x hx
      have hx' := List.mem_append.mp (hr' hx)
      rw [namesOfFields, List.append_assoc, List.mem_append, List.mem_append]
      rcases hx' with hfields | hx'
      · exact Or.inr (Or.inl hfields)
      · exact (List.mem_append.mp (hr hx')).imp id Or.inr

theorem ensures_deduceBinding (p : Pattern) (ctx : Context) (t : Ty) :
    (p.deduceBinding ctx t).Ensures fun inner => inner.names ⊆ p.names ++ ctx.names := by
  cases p with
  | name x => exact List.Subset.refl _
  | wildcard => exact List.Subset.refl _
  | row fields =>
    exact (ensures_deduce (row fields) ctx).bind fun r hr => (ensures_demand _ _).bind fun _ _ => hr

end Pattern

namespace Expr

open Deduction

private theorem ensures_deduceElements {ctx : Context} {elts : List Expr}
    (ih : ∀ e ∈ elts, (e.deduce ctx).Ensures fun _ => e.Scoped ctx.names) (elt : Ty) :
    (deduceElements ctx elt elts).Ensures fun _ => ∀ e ∈ elts, e.Scoped ctx.names := by
  induction elts with
  | nil => exact fun _ h => absurd h List.not_mem_nil
  | cons e es ihs =>
    rw [deduceElements]
    refine (ih e List.mem_cons_self).bind fun t he => (ensures_demand _ _).bind fun _ _ => ?_
    exact (ihs fun e he => ih e (List.mem_cons_of_mem _ he)).weaken fun _ hes =>
      List.forall_mem_cons.mpr ⟨he, hes⟩

private theorem ensures_deduceItems {ctx : Context} {items : List Expr}
    (ih : ∀ e ∈ items, (e.deduce ctx).Ensures fun _ => e.Scoped ctx.names) :
    (deduceItems ctx items).Ensures fun _ => ∀ e ∈ items, e.Scoped ctx.names := by
  induction items with
  | nil => exact fun _ h => absurd h List.not_mem_nil
  | cons e es ihs =>
    rw [deduceItems]
    refine (ih e List.mem_cons_self).bind fun t he => ?_
    exact (ihs fun e he => ih e (List.mem_cons_of_mem _ he)).bind fun _ hes =>
      List.forall_mem_cons.mpr ⟨he, hes⟩

private theorem ensures_deduceFields {ctx : Context} {fields : Row Expr}
    (ih : ∀ f ∈ fields, (f.2.deduce ctx).Ensures fun _ => f.2.Scoped ctx.names) :
    (deduceFields ctx fields).Ensures fun _ => ∀ f ∈ fields, f.2.Scoped ctx.names := by
  induction fields with
  | nil => exact fun _ h => absurd h List.not_mem_nil
  | cons f fields ihs =>
    rw [deduceFields]
    refine (ih f List.mem_cons_self).bind fun t hf => ?_
    exact (ihs fun f hf => ih f (List.mem_cons_of_mem _ hf)).bind fun _ hfields =>
      List.forall_mem_cons.mpr ⟨hf, hfields⟩

private theorem ensures_deduceHandlers {ctx : Context} {handlers : Row Expr}
    (ih : ∀ f ∈ handlers, (f.2.deduce ctx).Ensures fun _ => f.2.Scoped ctx.names) (res : Ty) :
    (deduceHandlers ctx res handlers).Ensures fun _ => ∀ f ∈ handlers, f.2.Scoped ctx.names := by
  induction handlers with
  | nil => exact fun _ h => absurd h List.not_mem_nil
  | cons f handlers ihs =>
    rw [deduceHandlers]
    refine ensures_freshVar.bind fun arg _ => (ih f List.mem_cons_self).bind fun t hf =>
      (ensures_demand _ _).bind fun _ _ => ?_
    exact (ihs fun f hf => ih f (List.mem_cons_of_mem _ hf)).bind fun _ hhandlers =>
      List.forall_mem_cons.mpr ⟨hf, hhandlers⟩

/-- **A walk that comes to an end has found each variable in its context.** -/
theorem ensures_deduce (e : Expr) : ∀ ctx : Context,
    (e.deduce ctx).Ensures fun _ => e.Scoped ctx.names := by
  induction e using inductOn with
  | number n => exact fun _ => Scoped.number
  | char c => exact fun _ => Scoped.char
  | var x =>
    intro ctx
    rw [deduce]
    cases hx : List.lookup x ctx with
    | none => trivial
    | some t =>
      exact (ensures_instantiate t).weaken fun _ _ => .var (Context.mem_names_of_lookup hx)
  | op o => exact fun _ => (ensures_instantiate _).weaken fun _ _ => .op
  | lambda p body ih =>
    intro ctx
    rw [deduce]
    exact (p.ensures_deduce ctx).bind fun r hr => (ih r.1).bind fun _ hbody =>
      .lambda (hbody.mono hr)
  | apply fn arg ihfn iharg =>
    intro ctx
    rw [deduce]
    exact (ihfn ctx).bind fun _ hfn => (iharg ctx).bind fun _ harg =>
      ensures_freshVar.bind fun _ _ =>
      (ensures_demand _ _).bind fun _ _ => .apply hfn harg
  | list elts ih =>
    intro ctx
    rw [deduce]
    exact ensures_freshVar.bind fun elt _ =>
      (ensures_deduceElements (fun e he => ih e he ctx) elt).bind fun _ helts => .list helts
  | record fields ih =>
    intro ctx
    rw [deduce]
    refine ensures_freshVar.bind fun this _ => ?_
    exact (ensures_deduceFields fun f hf => ih f hf (("this", this) :: ctx)).bind fun _ hfields =>
      (ensures_demand _ _).bind fun _ _ => .record hfields
  | tuple items ih =>
    intro ctx
    rw [deduce]
    exact (ensures_deduceItems fun e he => ih e he ctx).bind fun _ hitems => .tuple hitems
  | dispatch handlers ih =>
    intro ctx
    rw [deduce]
    exact ensures_freshVar.bind fun res _ =>
      (ensures_deduceHandlers (fun f hf => ih f hf ctx) res).bind fun _ hhandlers =>
        .dispatch hhandlers
  | tag l => exact fun _ => ensures_freshVar.bind fun _ _ => ensures_freshVar.bind fun _ _ => .tag
  | load name => exact fun _ => ensures_freshVar.weaken fun _ _ => .load
  | ascribe declared e ih =>
    intro ctx
    rw [deduce]
    exact (ih ctx).bind fun _ he => (ensures_instantiate _).bind fun _ _ =>
      (ensures_demand _ _).bind fun _ _ => .ascribe he
  | bindIn p bound body ihbound ihbody =>
    intro ctx
    rw [deduce]
    exact (ihbound ctx).bind fun t hbound =>
      (p.ensures_deduceBinding ctx t).bind fun inner hinner =>
      (ihbody inner).weaken fun _ hbody => .bindIn hbound (hbody.mono hinner)

/-- **An expression that has a type is scoped**: all its variables are bound in it. -/
theorem scoped_of_infer {e : Expr} {budget : Nat} {s s' : Solver} {t : Ty}
    (h : (Solver.infer budget e).run s = (.ok t, s')) : e.Scoped [] :=
  (ensures_deduce e []).of_run h

end Expr

end RowLang
