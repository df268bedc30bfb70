import RowLang.Proofs.Row.Sorted
import RowLang.Proofs.Typing.Judgement
import RowLang.Proofs.Typing.Setting

/-!
# Proofs/Typing/Safe — what a walk finds

The walk over a tidy expression without declared types is safe, and finds a good type for something
whole.  If the expression loads no module, it has the tree of that type by the rules of typing, for
all trees of the variables that satisfy what the walk demands (`Expr.safe_deduce`).
-/

namespace RowLang

open Ty

/-! ## Rows of good types -/

theorem good_closed {K : Census} {k : RowKind} {types : Row Ty} (htidy : Row.Tidy types)
    (hL : Row.domain types ⊆ K.labels) (hgood : ∀ p ∈ types, p.2.Good K .whole) :
    (Ty.row k types k.end).Good K .whole :=
  good_row.mpr ⟨trivial, htidy, hL, hgood, good_end K k _⟩

theorem good_open {K : Census} {k : RowKind} {types : Row Ty} {tail : Ty} (htidy : Row.Tidy types)
    (hL : Row.domain types ⊆ K.labels) (hgood : ∀ p ∈ types, p.2.Good K .whole)
    (htail : tail.Good K (.tail k (K.labels \ Row.domain types))) :
    (Ty.row k types tail).Good K .whole :=
  good_row.mpr ⟨trivial, htidy, hL, hgood, htail⟩

/-- Types of good fields, under the labels of a row. -/
def GoodTypes {α : Type} (fields : Row α) (K : Census) (types : Row Ty) : Prop :=
  Row.labels types = Row.labels fields ∧ ∀ p ∈ types, p.2.Good K .whole

theorem GoodTypes.mono {α : Type} {fields : Row α} {K K' : Census} {types : Row Ty}
    (h : GoodTypes fields K types) (hK : K.Le K') : GoodTypes fields K' types :=
  ⟨h.1, fun p hp => (h.2 p hp).mono hK⟩

theorem GoodTypes.cons {α : Type} {fields : Row α} {K : Census} {types : Row Ty} {l : Label} {x : α}
    {t : Ty} (ht : t.Good K .whole) (h : GoodTypes fields K types) :
    GoodTypes ((l, x) :: fields) K ((l, t) :: types) :=
  ⟨by rw [Row.labels_cons, Row.labels_cons, h.1], fun q hq =>
    (List.mem_cons.mp hq).elim (fun he => he ▸ ht) (h.2 q)⟩

theorem GoodTypes.domain_eq {α : Type} {fields : Row α} {K : Census} {types : Row Ty}
    (h : GoodTypes fields K types) : Row.domain types = Row.domain fields := by
  rw [Row.domain, h.1, Row.domain]

/-- The types of the names in scope are good. -/
def GoodContext (K : Census) (ctx : Context) : Prop := ∀ p ∈ ctx, p.2.Good K .whole

theorem GoodContext.mono {K K' : Census} {ctx : Context} (h : GoodContext K ctx) (hK : K.Le K') :
    GoodContext K' ctx := fun p hp => (h p hp).mono hK

theorem GoodContext.cons {K : Census} {ctx : Context} {x : String} {t : Ty} (h : GoodContext K ctx)
    (ht : t.Good K .whole) : GoodContext K ((x, t) :: ctx) := fun p hp =>
  (List.mem_cons.mp hp).elim (fun he => he ▸ ht) (h p)

/-! ## Trees of rows and contexts -/

/-- The trees of the names in scope. -/
def treesOf (ρ : Nat → Tree) (ctx : Context) : TreeContext := ctx.map fun p => (p.1, p.2.tree ρ)

theorem lookup_treesOf (ρ : Nat → Tree) (ctx : Context) (x : String) :
    (treesOf ρ ctx).lookup x = (ctx.lookup x).map (Ty.tree ρ) := by
  induction ctx with
  | nil => rfl
  | cons p ctx ih =>
    rw [treesOf, List.map_cons, Row.lookup_cons_eq, Row.lookup_cons_eq]
    split
    · rfl
    · exact ih

theorem tree_closed (ρ : Nat → Tree) (k : RowKind) (types : Row Ty) :
    (Ty.row k types k.end).tree ρ = .closed k (treeOfField ρ types) := by
  cases k <;> rfl

/-- The trees of types that match a row. -/
theorem isSome_treeOfField_iff {α : Type} {R : α → Ty → Prop} {fields : Row α} {types : Row Ty}
    (h : Row.Matched R fields types) (ρ : Nat → Tree) (l : Label) :
    (treeOfField ρ types l).isSome ↔ l ∈ Row.labels fields := by
  rw [treeOfField_eq, Option.isSome_map, Row.lookup_isSome_iff, h.labels_eq]

theorem of_treeOfField {α : Type} {R : α → Tree → Prop} {fields : Row α} {types : Row Ty}
    {ρ : Nat → Tree} (h : Row.Matched (fun a t => R a (t.tree ρ)) fields types)
    (hd : Row.Distinct fields) {p : Label × α} {x : Tree} (hp : p ∈ fields)
    (hx : treeOfField ρ types p.1 = some x) : R p.2 x := by
  rw [treeOfField_eq, Option.map_eq_some_iff] at hx
  obtain ⟨t, ht, rfl⟩ := hx
  exact h.of_lookup hd hp ht

/-! ## Patterns -/

namespace Pattern

/-- What a pattern finds in a context: a good context and a good type, and the one is what the
pattern binds when it is matched with the other. -/
structure Found (ctx : Context) (p : Pattern) (S : Setting) (r : Context × Ty) : Prop where
  context : GoodContext S.toCensus r.1
  good : r.2.Good S.toCensus .whole
  binds : ∀ ρ, S.Solved ρ → p.Binds (treesOf ρ ctx) (r.2.tree ρ) (treesOf ρ r.1)

/-- What the fields of a pattern find. -/
structure FoundFields (ctx : Context) (fields : Row Pattern) (S : Setting) (r : Context × Row Ty) :
    Prop where
  context : GoodContext S.toCensus r.1
  good : GoodTypes fields S.toCensus r.2
  binds : ∀ ρ, S.Solved ρ → ∀ x, (∀ q ∈ r.2, Tree.HasField .record x q.1 (q.2.tree ρ)) →
    BindsFields (treesOf ρ ctx) fields x (treesOf ρ r.1)

theorem safe_deduceFields {fields : Row Pattern} (htidy : TidyFields fields)
    (ih : ∀ p ∈ fields, p.2.Tidy → ∀ {ctx S}, p.2.labels ⊆ S.labels → GoodContext S.toCensus ctx →
      Deduction.Safe (Found ctx p.2) (p.2.deduce ctx) S) :
    ∀ {ctx S}, labelsOfFields fields ⊆ S.labels → GoodContext S.toCensus ctx →
      Deduction.Safe (FoundFields ctx fields) (deduceFields ctx fields) S := by
  induction fields with
  | nil => exact fun _ hctx => ⟨hctx, ⟨rfl, by simp⟩, fun _ _ _ _ => rfl⟩
  | cons p fields ihf =>
    intro ctx S hL hctx
    obtain ⟨hp, hfields⟩ := htidy
    rw [labelsOfFields] at hL
    rw [deduceFields]
    refine (ih p List.mem_cons_self hp (Finset.union_subset_left hL) hctx).bind ?_
    rintro S₁ ⟨ctx₁, t⟩ hle₁ h₁
    refine (ihf hfields (fun q hq => ih q (List.mem_cons_of_mem _ hq))
      (hle₁.labels ▸ Finset.union_subset_right hL) h₁.context).bind ?_
    rintro S₂ ⟨ctx₂, types⟩ hle₂ h₂
    refine ⟨h₂.context, h₂.good.cons (h₁.good.mono hle₂.census), fun ρ hρ x hx => ?_⟩
    exact ⟨t.tree ρ, treesOf ρ ctx₁, hx (p.1, t) List.mem_cons_self, h₁.binds ρ (hle₂.solved hρ),
      h₂.binds ρ hρ x fun q hq => hx q (List.mem_cons_of_mem _ hq)⟩

/-- **A pattern asks for nothing, and finds a good type.** -/
theorem safe_deduce {p : Pattern} (hp : p.Tidy) : ∀ {ctx S}, p.labels ⊆ S.labels →
    GoodContext S.toCensus ctx → Deduction.Safe (Found ctx p) (p.deduce ctx) S := by
  induction p using inductOn with
  | name x =>
    intro ctx S _ hctx
    rw [deduce]
    exact Deduction.safe_fresh .whole fun S₁ n hle hn =>
      ⟨(hctx.mono hle.census).cons hn, hn, fun _ _ => rfl⟩
  | wildcard =>
    intro ctx S _ hctx
    rw [deduce]
    exact Deduction.safe_fresh .whole fun S₁ n hle hn => ⟨hctx.mono hle.census, hn, fun _ _ => rfl⟩
  | row fields ih =>
    intro ctx S hL hctx
    rw [labels] at hL
    rw [deduce]
    refine (safe_deduceFields hp.2 ih (Finset.union_subset_right hL) hctx).bind ?_
    rintro S₁ ⟨ctx₁, types⟩ hle₁ h₁
    refine Deduction.safe_fresh (.tail .record (S₁.labels \ Row.domain types))
      fun S₂ n hle₂ hn => ?_
    have htypes := h₁.good.mono hle₂.census
    have htidy := hp.1.of_labels_eq htypes.1
    have hgood : (Ty.row .record types (var n)).Good S₂.toCensus .whole := by
      refine good_open htidy ?_ htypes.2 (by rwa [hle₂.labels])
      rw [htypes.domain_eq, hle₂.labels, hle₁.labels]
      exact Finset.union_subset_left hL
    refine ⟨h₁.context.mono hle₂.census, hgood, fun ρ hρ => ?_⟩
    exact h₁.binds ρ (hle₂.solved hρ) _ fun q hq =>
      hasField_of_good hgood hρ.placed (htidy.distinct.lookup_of_mem hq)

/-- What a binding finds: a good context, which the pattern makes of something of the type. -/
structure FoundBinding (ctx : Context) (p : Pattern) (t : Ty) (S : Setting) (inner : Context) :
    Prop where
  context : GoodContext S.toCensus inner
  binds : ∀ ρ, S.Solved ρ → p.Binds (treesOf ρ ctx) (t.tree ρ) (treesOf ρ inner)

/-- A pattern bound to something of a good type. -/
theorem safe_deduceBinding {p : Pattern} (hp : p.Tidy) {ctx : Context} {S : Setting} {t : Ty}
    (hL : p.labels ⊆ S.labels) (hctx : GoodContext S.toCensus ctx) (ht : t.Good S.toCensus .whole) :
    Deduction.Safe (FoundBinding ctx p t) (p.deduceBinding ctx t) S := by
  cases p with
  | name x => exact ⟨hctx.cons ht, fun _ _ => rfl⟩
  | wildcard => exact ⟨hctx, fun _ _ => rfl⟩
  | row fields =>
    rw [deduceBinding]
    refine (safe_deduce hp hL hctx).bind ?_
    rintro S₁ ⟨ctx₁, shape⟩ hle₁ h₁
    refine Deduction.safe_demand h₁.good (ht.mono hle₁.census) fun S₂ hle₂ heq =>
      ⟨h₁.context.mono hle₂.census, fun ρ hρ => ?_⟩
    rw [← heq ρ hρ]
    exact h₁.binds ρ (hle₂.solved hρ)

end Pattern

/-! ## Operators -/

namespace Operator

/-- The labels in the types of the operators. -/
def labels : Finset Label := {"0", "1", "false", "true"}

theorem good_pairType {K : Census} (hop : labels ⊆ K.labels) {a b : Ty} (ha : a.Good K .whole)
    (hb : b.Good K .whole) : (pairType a b).Good K .whole := by
  refine good_closed (Row.tidy_positional [a, b]) (.trans ?_ hop) fun p hp => ?_
  · exact fun l hl => (show ∀ l ∈ ["0", "1"], l ∈ labels by decide) l (Row.mem_domain.mp hl)
  · simp only [Row.positional, Row.positionalFrom, List.mem_cons, List.not_mem_nil, or_false] at hp
    rcases hp with rfl | rfl
    exacts [ha, hb]

theorem good_verdict {K : Census} (hop : labels ⊆ K.labels) : verdict.Good K .whole := by
  have hempty : (Ty.closedRecord []).Good K .whole :=
    good_closed Row.tidy_nil (Finset.empty_subset _) (by simp)
  refine good_closed ⟨by simp [Row.Distinct], ?_⟩ (.trans ?_ hop) fun p hp => ?_
  · simp only [Row.labels_cons, Row.labels_nil, List.mem_cons, List.not_mem_nil, or_false]
    rintro l (rfl | rfl) <;> decide
  · exact fun l hl => (show ∀ l ∈ ["false", "true"], l ∈ labels by decide) l (Row.mem_domain.mp hl)
  · simp only [List.mem_cons, List.not_mem_nil, or_false] at hp
    rcases hp with rfl | rfl <;> exact hempty

theorem good_number (K : Census) : Ty.number.Good K .whole := ⟨rfl, by simp [free]⟩

theorem good_char (K : Census) : Ty.char.Good K .whole := ⟨rfl, by simp [free]⟩

theorem good_function {K : Census} {a b : Ty} (ha : a.Good K .whole) (hb : b.Good K .whole) :
    (Ty.arrow a b).Good K .whole := good_arrow.mpr ⟨rfl, ha, hb⟩

theorem good_listOf {K : Census} {a : Ty} (ha : a.Good K .whole) : (Ty.list a).Good K .whole :=
  good_list.mpr ⟨rfl, ha⟩

/-- What an operator finds: a good type, which is one of its own. -/
structure Found (o : Operator) (S : Setting) (t : Ty) : Prop where
  good : t.Good S.toCensus .whole
  typed : ∀ ρ, o.HasTree (t.tree ρ)

/-- **The types of operators are good**, whatever their quantifiers come to stand for. -/
theorem safe_scheme {S : Setting} (hop : labels ⊆ S.labels) (o : Operator) :
    Deduction.Safe (Found o) (Deduction.instantiate o.scheme) S := by
  have hnone : ∀ {σ : Subst} {t : Ty}, t.binders = [] → t.CatchesNone σ :=
    fun h q hq => by simp [h] at hq
  cases o with
  | plus | minus | times | divide | modulo =>
    exact ⟨hnone rfl, good_function (good_pairType hop (good_number _) (good_number _))
      (good_number _),
      fun _ => rfl⟩
  | eq | lt =>
    exact ⟨hnone rfl, good_function (good_pairType hop (good_number _) (good_number _))
      (good_verdict hop),
      fun _ => rfl⟩
  | ord => exact ⟨hnone rfl, good_function (good_char _) (good_number _), fun _ => rfl⟩
  | chr => exact ⟨hnone rfl, good_function (good_number _) (good_char _), fun _ => rfl⟩
  | countUp =>
    exact ⟨hnone rfl, good_function (good_number _) (good_listOf (good_number _)), fun _ => rfl⟩
  | append =>
    refine ⟨.whole, fun S₁ n hle hn hr => ?_⟩
    have ha : (var n).Good S₁.toCensus .whole := hr ▸ good_var hn
    exact ⟨hnone rfl,
      good_function (good_pairType (hle.labels ▸ hop) (good_listOf ha) (good_listOf ha))
      (good_listOf ha), fun ρ => ⟨ρ n, rfl⟩⟩
  | size =>
    refine ⟨.whole, fun S₁ n hle hn hr => ?_⟩
    have ha : (var n).Good S₁.toCensus .whole := hr ▸ good_var hn
    exact ⟨hnone rfl, good_function (good_listOf ha) (good_number _), fun ρ => ⟨ρ n, rfl⟩⟩
  | map =>
    refine ⟨.whole, fun S₁ n hle hn hr => ⟨.whole, fun S₂ m hle' hm hr' => ?_⟩⟩
    have ha : (var n).Good S₂.toCensus .whole :=
      Good.mono (K := S₁.toCensus) (hr ▸ good_var hn) hle'.census
    have hb : (var m).Good S₂.toCensus .whole := hr' ▸ good_var hm
    exact ⟨hnone rfl, good_function (good_function ha hb)
      (good_function (good_listOf ha) (good_listOf hb)),
      fun ρ => ⟨ρ n, ρ m, rfl⟩⟩
  | filter =>
    refine ⟨.whole, fun S₁ n hle hn hr => ?_⟩
    have ha : (var n).Good S₁.toCensus .whole := hr ▸ good_var hn
    exact ⟨hnone rfl, good_function (good_function ha (good_verdict (hle.labels ▸ hop)))
      (good_function (good_listOf ha) (good_listOf ha)), fun ρ => ⟨ρ n, rfl⟩⟩
  | fold =>
    refine ⟨.whole, fun S₁ n hle hn hr => ⟨.whole, fun S₂ m hle' hm hr' => ?_⟩⟩
    have ha : (var n).Good S₂.toCensus .whole :=
      Good.mono (K := S₁.toCensus) (hr ▸ good_var hn) hle'.census
    have hb : (var m).Good S₂.toCensus .whole := hr' ▸ good_var hm
    exact ⟨hnone rfl, good_function (good_function hb (good_function ha hb))
      (good_function hb (good_function (good_listOf ha) hb)), fun ρ => ⟨ρ n, ρ m, rfl⟩⟩

end Operator

/-! ## Expressions -/

namespace Expr

/-- What the walk over an expression finds: a good type, and the expression has its tree. -/
structure Found (ctx : Context) (e : Expr) (S : Setting) (t : Ty) : Prop where
  good : t.Good S.toCensus .whole
  typed : e.Selfcontained → ∀ ρ, S.Solved ρ → e.HasTree (treesOf ρ ctx) (t.tree ρ)

/-- What the walk over some fields finds: good types, and the values of the fields have their trees.
-/
structure FoundFields (ctx : Context) (fields : Row Expr) (S : Setting)
    (types : Row Ty) : Prop where
  good : GoodTypes fields S.toCensus types
  typed : SelfcontainedFields fields → ∀ ρ, S.Solved ρ →
    Row.Matched (fun e t => e.HasTree (treesOf ρ ctx) (t.tree ρ)) fields types

/-- What the walk over handlers finds: good types of what they take, to give all the same. -/
structure FoundHandlers (ctx : Context) (res : Ty) (handlers : Row Expr) (S : Setting)
    (types : Row Ty) : Prop where
  good : GoodTypes handlers S.toCensus types
  typed : SelfcontainedFields handlers → ∀ ρ, S.Solved ρ →
    Row.Matched (fun e t => e.HasTree (treesOf ρ ctx) (.arrow (t.tree ρ) (res.tree ρ)))
      handlers types

/-- What the walk over items finds: good types, one by one. -/
structure FoundItems (ctx : Context) (items : List Expr) (S : Setting) (ts : List Ty) : Prop where
  length_eq : ts.length = items.length
  good : ∀ t ∈ ts, t.Good S.toCensus .whole
  typed : SelfcontainedAll items → ∀ ρ, S.Solved ρ →
    List.Forall₂ (fun e t => e.HasTree (treesOf ρ ctx) (t.tree ρ)) items ts

/-- What the walk over elements finds out: they have the tree of the type that all of them shall
have. -/
def FoundElements (ctx : Context) (elt : Ty) (elts : List Expr) (S : Setting) : Prop :=
  SelfcontainedAll elts → ∀ ρ, S.Solved ρ → ∀ e ∈ elts, e.HasTree (treesOf ρ ctx) (elt.tree ρ)

/-- The walk over an expression asks for good equalities and finds a good type. -/
private def SafelyTyped (e : Expr) : Prop :=
  e.Tidy → e.Unascribed → ∀ {ctx : Context} {S : Setting}, e.labels ⊆ S.labels →
    Operator.labels ⊆ S.labels → GoodContext S.toCensus ctx →
      Deduction.Safe (Found ctx e) (e.deduce ctx) S

private theorem safe_deduceElements {elts : List Expr} (ih : ∀ e ∈ elts, SafelyTyped e)
    (htidy : TidyAll elts) (hun : UnascribedAll elts) :
    ∀ {ctx S elt}, labelsOfAll elts ⊆ S.labels → Operator.labels ⊆ S.labels →
      GoodContext S.toCensus ctx → elt.Good S.toCensus .whole →
        Deduction.Safe (fun S _ => FoundElements ctx elt elts S)
          (deduceElements ctx elt elts) S := by
  induction elts with
  | nil => exact fun _ _ _ _ _ _ _ => by simp
  | cons e es ihs =>
    intro ctx S elt hL hop hctx helt
    rw [labelsOfAll] at hL
    rw [deduceElements]
    refine (ih e List.mem_cons_self htidy.1 hun.1 (Finset.union_subset_left hL) hop hctx).bind
      fun S₁ t hle₁ h₁ => ?_
    refine Deduction.safe_demand (helt.mono hle₁.census) h₁.good fun S₂ hle₂ heq => ?_
    have hle := hle₁.trans hle₂
    refine (ihs (fun e he => ih e (List.mem_cons_of_mem _ he)) htidy.2 hun.2
      (hle.labels ▸ Finset.union_subset_right hL) (hle.labels ▸ hop) (hctx.mono hle.census)
      (helt.mono hle.census)).weaken fun S₃ _ hle₃ h₃ hself ρ hρ d hd => ?_
    rcases List.mem_cons.mp hd with rfl | hd
    · rw [heq ρ (hle₃.solved hρ)]
      exact h₁.typed hself.1 ρ ((hle₂.trans hle₃).solved hρ)
    · exact h₃ hself.2 ρ hρ d hd

private theorem safe_deduceItems {items : List Expr} (ih : ∀ e ∈ items, SafelyTyped e)
    (htidy : TidyAll items) (hun : UnascribedAll items) :
    ∀ {ctx S}, labelsOfAll items ⊆ S.labels → Operator.labels ⊆ S.labels →
      GoodContext S.toCensus ctx →
        Deduction.Safe (FoundItems ctx items) (deduceItems ctx items) S := by
  induction items with
  | nil => exact fun _ _ _ => ⟨rfl, by simp, fun _ _ _ => .nil⟩
  | cons e es ihs =>
    intro ctx S hL hop hctx
    rw [labelsOfAll] at hL
    rw [deduceItems]
    refine (ih e List.mem_cons_self htidy.1 hun.1 (Finset.union_subset_left hL) hop hctx).bind
      fun S₁ t hle₁ h₁ => ?_
    refine (ihs (fun e he => ih e (List.mem_cons_of_mem _ he)) htidy.2 hun.2
      (hle₁.labels ▸ Finset.union_subset_right hL) (hle₁.labels ▸ hop)
      (hctx.mono hle₁.census)).bind fun S₂ ts hle₂ h₂ => ?_
    refine ⟨congrArg Nat.succ h₂.length_eq, fun u hu => ?_, fun hself ρ hρ => ?_⟩
    · exact (List.mem_cons.mp hu).elim (fun he => he ▸ h₁.good.mono hle₂.census) (h₂.good u)
    · exact .cons (h₁.typed hself.1 ρ (hle₂.solved hρ)) (h₂.typed hself.2 ρ hρ)

private theorem safe_deduceFields {fields : Row Expr} (ih : ∀ f ∈ fields, SafelyTyped f.2)
    (htidy : TidyFields fields) (hun : UnascribedFields fields) :
    ∀ {ctx S}, labelsOfFields fields ⊆ S.labels → Operator.labels ⊆ S.labels →
      GoodContext S.toCensus ctx →
        Deduction.Safe (FoundFields ctx fields) (deduceFields ctx fields) S := by
  induction fields with
  | nil => exact fun _ _ _ => ⟨⟨rfl, by simp⟩, fun _ _ _ => Row.matched_nil⟩
  | cons f fields ihs =>
    intro ctx S hL hop hctx
    rw [labelsOfFields] at hL
    rw [deduceFields]
    refine (ih f List.mem_cons_self htidy.1 hun.1 (Finset.union_subset_left hL) hop hctx).bind
      fun S₁ t hle₁ h₁ => ?_
    refine (ihs (fun f hf => ih f (List.mem_cons_of_mem _ hf)) htidy.2 hun.2
      (hle₁.labels ▸ Finset.union_subset_right hL) (hle₁.labels ▸ hop)
      (hctx.mono hle₁.census)).bind fun S₂ types hle₂ h₂ => ?_
    exact ⟨h₂.good.cons (h₁.good.mono hle₂.census), fun hself ρ hρ =>
      Row.matched_cons (h₁.typed hself.1 ρ (hle₂.solved hρ)) (h₂.typed hself.2 ρ hρ)⟩

private theorem safe_deduceHandlers {handlers : Row Expr} (ih : ∀ f ∈ handlers, SafelyTyped f.2)
    (htidy : TidyFields handlers) (hun : UnascribedFields handlers) :
    ∀ {ctx S res}, labelsOfFields handlers ⊆ S.labels → Operator.labels ⊆ S.labels →
      GoodContext S.toCensus ctx → res.Good S.toCensus .whole →
        Deduction.Safe (FoundHandlers ctx res handlers) (deduceHandlers ctx res handlers) S := by
  induction handlers with
  | nil => exact fun _ _ _ _ => ⟨⟨rfl, by simp⟩, fun _ _ _ => Row.matched_nil⟩
  | cons f handlers ihs =>
    intro ctx S res hL hop hctx hres
    rw [labelsOfFields] at hL
    rw [deduceHandlers]
    refine Deduction.safe_fresh .whole fun S₁ n hle₁ harg => ?_
    refine (ih f List.mem_cons_self htidy.1 hun.1 (hle₁.labels ▸ Finset.union_subset_left hL)
      (hle₁.labels ▸ hop) (hctx.mono hle₁.census)).bind fun S₂ t hle₂ h₂ => ?_
    have hle := hle₁.trans hle₂
    refine Deduction.safe_demand h₂.good (good_arrow.mpr ⟨rfl, harg.mono hle₂.census,
      hres.mono hle.census⟩) fun S₃ hle₃ heq => ?_
    have hle' := hle.trans hle₃
    refine (ihs (fun f hf => ih f (List.mem_cons_of_mem _ hf)) htidy.2 hun.2
      (hle'.labels ▸ Finset.union_subset_right hL) (hle'.labels ▸ hop) (hctx.mono hle'.census)
      (hres.mono hle'.census)).bind fun S₄ types hle₄ h₄ => ?_
    refine ⟨h₄.good.cons (harg.mono ((hle₂.trans hle₃).trans hle₄).census), fun hself ρ hρ =>
      Row.matched_cons ?_ (h₄.typed hself.2 ρ hρ)⟩
    have htree := h₂.typed hself.1 ρ ((hle₃.trans hle₄).solved hρ)
    rwa [heq ρ (hle₄.solved hρ)] at htree

private theorem safelyTyped (e : Expr) : SafelyTyped e := by
  induction e using inductOn with
  | number n => exact fun _ _ _ S _ _ _ => ⟨Operator.good_number _, fun _ _ _ => .number⟩
  | char c => exact fun _ _ _ S _ _ _ => ⟨Operator.good_char _, fun _ _ _ => .char⟩
  | var x =>
    intro _ _ ctx S _ _ hctx
    rw [deduce]
    cases hx : List.lookup x ctx with
    | none => trivial
    | some t =>
      have ht := hctx _ (Row.mem_of_lookup hx)
      exact Deduction.safe_instantiate ht ⟨ht, fun _ ρ _ => .var (by rw [lookup_treesOf, hx]; rfl)⟩
  | op o =>
    intro _ _ ctx S _ hop _
    exact (Operator.safe_scheme hop o).weaken fun _ _ _ h => ⟨h.good, fun _ ρ _ => .op (h.typed ρ)⟩
  | lambda p body ih =>
    intro htidy hun ctx S hL hop hctx
    rw [labels] at hL
    rw [deduce]
    refine (p.safe_deduce htidy.1 (Finset.union_subset_left hL) hctx).bind ?_
    rintro S₁ ⟨inner, arg⟩ hle₁ h₁
    refine (ih htidy.2 hun (hle₁.labels ▸ Finset.union_subset_right hL) (hle₁.labels ▸ hop)
      h₁.context).bind fun S₂ res hle₂ h₂ => ?_
    exact ⟨good_arrow.mpr ⟨rfl, h₁.good.mono hle₂.census, h₂.good⟩, fun hself ρ hρ =>
      .lambda (h₁.binds ρ (hle₂.solved hρ)) (h₂.typed hself ρ hρ)⟩
  | apply fn arg ihfn iharg =>
    intro htidy hun ctx S hL hop hctx
    rw [labels] at hL
    rw [deduce]
    refine (ihfn htidy.1 hun.1 (Finset.union_subset_left hL) hop hctx).bind fun S₁ f hle₁ h₁ => ?_
    refine (iharg htidy.2 hun.2 (hle₁.labels ▸ Finset.union_subset_right hL) (hle₁.labels ▸ hop)
      (hctx.mono hle₁.census)).bind fun S₂ a hle₂ h₂ => ?_
    refine Deduction.safe_fresh .whole fun S₃ n hle₃ hres => ?_
    refine Deduction.safe_demand (h₁.good.mono (hle₂.trans hle₃).census)
      (good_arrow.mpr ⟨rfl, h₂.good.mono hle₃.census, hres⟩) fun S₄ hle₄ heq =>
        ⟨hres.mono hle₄.census, fun hself ρ hρ => ?_⟩
    have hfn := h₁.typed hself.1 ρ (((hle₂.trans hle₃).trans hle₄).solved hρ)
    rw [heq ρ hρ] at hfn
    exact .apply hfn (h₂.typed hself.2 ρ ((hle₃.trans hle₄).solved hρ))
  | list elts ih =>
    intro htidy hun ctx S hL hop hctx
    rw [labels] at hL
    rw [deduce]
    refine Deduction.safe_fresh .whole fun S₁ n hle₁ helt => ?_
    refine (safe_deduceElements ih htidy hun (hle₁.labels ▸ hL) (hle₁.labels ▸ hop)
      (hctx.mono hle₁.census) helt).bind fun S₂ _ hle₂ h₂ => ?_
    exact ⟨good_list.mpr ⟨rfl, helt.mono hle₂.census⟩, fun hself ρ hρ => .list (h₂ hself ρ hρ)⟩
  | record fields ih =>
    intro htidy hun ctx S hL hop hctx
    rw [labels] at hL
    rw [deduce]
    refine Deduction.safe_fresh .whole fun S₁ n hle₁ hthis => ?_
    refine (safe_deduceFields ih htidy.2 hun (hle₁.labels ▸ Finset.union_subset_right hL)
      (hle₁.labels ▸ hop) ((hctx.mono hle₁.census).cons hthis)).bind fun S₂ types hle₂ h₂ => ?_
    have hrecord : (Ty.closedRecord types).Good S₂.toCensus .whole := by
      refine good_closed (htidy.1.of_labels_eq h₂.good.1) ?_ h₂.good.2
      rw [h₂.good.domain_eq, (hle₁.trans hle₂).labels]
      exact Finset.union_subset_left hL
    refine Deduction.safe_demand (hthis.mono hle₂.census) hrecord fun S₃ hle₃ heq =>
      ⟨hrecord.mono hle₃.census, fun hself ρ hρ => ?_⟩
    have htyped := h₂.typed hself ρ (hle₃.solved hρ)
    have hclosed : (Ty.closedRecord types).tree ρ = .closed .record (treeOfField ρ types) :=
      tree_closed ρ .record types
    -- The record is known to its fields by the tree that it has.
    have hctx' : treesOf ρ (("this", Ty.var n) :: ctx)
        = ("this", .closed .record (treeOfField ρ types)) :: treesOf ρ ctx := by
      rw [← hclosed, ← heq ρ hρ]
      rfl
    rw [hclosed]
    refine .record _ (isSome_treeOfField_iff htyped ρ) fun p hp x hx => ?_
    rw [hctx'] at htyped
    exact of_treeOfField htyped htidy.1.distinct hp hx
  | tuple items ih =>
    intro htidy hun ctx S hL hop hctx
    rw [labels] at hL
    rw [deduce]
    refine (safe_deduceItems ih htidy hun (Finset.union_subset_right hL) hop hctx).bind
      fun S₁ ts hle₁ h₁ => ?_
    have hdom : Row.domain (Row.positional ts) = Row.domain (Row.positional items) := by
      rw [Row.domain, Row.domain, Row.labels_positional, Row.labels_positional, h₁.length_eq]
    refine ⟨good_closed (Row.tidy_positional ts) ?_ fun p hp =>
      h₁.good _ (Row.mem_of_mem_positional hp), fun hself ρ hρ => ?_⟩
    · rw [hdom, hle₁.labels]
      exact Finset.union_subset_left hL
    · have htyped := Row.matched_positional (h₁.typed hself ρ hρ)
      show HasTree _ _ ((Ty.row .record _ RowKind.record.end).tree ρ)
      rw [tree_closed]
      exact .tuple _ (isSome_treeOfField_iff htyped ρ) fun p hp x hx =>
        of_treeOfField htyped (Row.tidy_positional items).distinct hp hx
  | dispatch handlers ih =>
    intro htidy hun ctx S hL hop hctx
    rw [labels] at hL
    rw [deduce]
    refine Deduction.safe_fresh .whole fun S₁ n hle₁ hres => ?_
    refine (safe_deduceHandlers ih htidy.2 hun (hle₁.labels ▸ Finset.union_subset_right hL)
      (hle₁.labels ▸ hop) (hctx.mono hle₁.census) hres).bind fun S₂ types hle₂ h₂ => ?_
    refine ⟨good_arrow.mpr ⟨rfl, good_closed (htidy.1.of_labels_eq h₂.good.1) ?_ h₂.good.2,
      hres.mono hle₂.census⟩, fun hself ρ hρ => ?_⟩
    · rw [h₂.good.domain_eq, (hle₁.trans hle₂).labels]
      exact Finset.union_subset_left hL
    · have htyped := h₂.typed hself ρ hρ
      show HasTree _ _ (.arrow ((Ty.row .variant types RowKind.variant.end).tree ρ) _)
      rw [tree_closed]
      exact .dispatch _ (isSome_treeOfField_iff htyped ρ) fun p hp x hx =>
        of_treeOfField (R := fun e x => HasTree _ e (.arrow x _)) htyped htidy.1.distinct hp hx
  | tag l =>
    intro htidy _ ctx S hL _ _
    rw [labels] at hL
    rw [deduce]
    refine Deduction.safe_fresh .whole fun S₁ n hle₁ hpayload => ?_
    refine Deduction.safe_fresh (.tail .variant (S.labels \ {l})) fun S₂ m hle₂ htail => ?_
    have hlabels := (hle₁.trans hle₂).labels
    have hgood : (Ty.row .variant [(l, Ty.var n)] (Ty.var m)).Good S₂.toCensus .whole := by
      refine good_open (Row.tidy_single htidy _) ?_ (fun p hp => ?_) ?_
      · rw [hlabels]
        exact hL
      · rw [List.mem_singleton.mp hp]
        exact hpayload.mono hle₂.census
      · rw [hlabels]
        exact htail
    exact ⟨good_arrow.mpr ⟨rfl, hpayload.mono hle₂.census, hgood⟩, fun _ ρ hρ =>
      .tag (hasField_of_good hgood hρ.placed (by rw [Row.lookup_single, if_pos rfl]))⟩
  | load name =>
    intro _ _ ctx S _ _ _
    rw [deduce]
    exact ⟨.whole, fun S₁ n _ hn hr => ⟨hr ▸ good_var hn, fun hself => hself.elim⟩⟩
  | ascribe declared e ih => exact fun _ hun => hun.elim
  | bindIn p bound body ihbound ihbody =>
    intro htidy hun ctx S hL hop hctx
    rw [labels] at hL
    rw [deduce]
    refine (ihbound htidy.2.1 hun.1
      (Finset.union_subset_left (Finset.union_subset_right hL)) hop hctx).bind
      fun S₁ t hle₁ h₁ => ?_
    refine (p.safe_deduceBinding htidy.1 (hle₁.labels ▸ Finset.union_subset_left hL)
      (hctx.mono hle₁.census) h₁.good).bind fun S₂ inner hle₂ h₂ => ?_
    have hle := hle₁.trans hle₂
    exact (ihbody htidy.2.2 hun.2
      (hle.labels ▸ Finset.union_subset_right (Finset.union_subset_right hL)) (hle.labels ▸ hop)
      h₂.context).weaken fun S₃ res hle₃ h₃ => ⟨h₃.good, fun hself ρ hρ =>
        .bindIn (h₁.typed hself.1 ρ ((hle₂.trans hle₃).solved hρ)) (h₂.binds ρ (hle₃.solved hρ))
          (h₃.typed hself.2 ρ hρ)⟩

/-- **A tidy expression without declared types asks for good equalities only**, and has the type
that the walk finds. -/
theorem safe_deduce {e : Expr} (htidy : e.Tidy) (hun : e.Unascribed) {S : Setting}
    (hL : e.labels ⊆ S.labels) (hop : Operator.labels ⊆ S.labels) :
    Deduction.Safe (Found [] e) (e.deduce []) S :=
  safelyTyped e htidy hun hL hop fun _ h => absurd h List.not_mem_nil

end Expr

end RowLang
