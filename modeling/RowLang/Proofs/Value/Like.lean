import RowLang.Proofs.Value.Matched

/-!
# Proofs/Value/Like — values that operators do not tell apart

Two values may differ in where they came about, in the code of their functions and in how records
are numbered, and still be alike (`Value.Like`).  What an operator compares of identity are records,
functions and undefined reals.  If those are told apart alike (`Likeness.Lawful`), no operator tells
values apart that are alike: it makes of them results that are, or refuses them for the same fault.
-/

namespace RowLang

/-- **Results match**: values that do, or the same failure. -/
inductive ResultsMatch {ε α : Type} (R : α → α → Prop) : Except ε α → Except ε α → Prop
  | ok {x y : α} : R x y → ResultsMatch R (.ok x) (.ok y)
  | error (e : ε) : ResultsMatch R (.error e) (.error e)

/-- What goes on alike from results that match has results that match. -/
theorem ResultsMatch.bind {ε α γ : Type} {R : α → α → Prop} {S : γ → γ → Prop} {r r' : Except ε α}
    {f f' : α → Except ε γ} (h : ResultsMatch R r r')
    (hf : ∀ x y, R x y → ResultsMatch S (f x) (f' y)) :
    ResultsMatch S (r >>= f) (r' >>= f') := by
  cases h with
  | ok hx => exact hf _ _ hx
  | error e => exact .error e

/-- The same result goes on alike. -/
theorem ResultsMatch.bind_same {ε α γ : Type} {S : γ → γ → Prop} (r : Except ε α)
    {f f' : α → Except ε γ} (hf : ∀ x, ResultsMatch S (f x) (f' x)) :
    ResultsMatch S (r >>= f) (r >>= f') := by
  cases r with
  | ok x => exact hf x
  | error e => exact .error e

/-- Less may be said of the results. -/
theorem ResultsMatch.imp {ε α : Type} {R S : α → α → Prop} {r r' : Except ε α}
    (h : ResultsMatch R r r') (hS : ∀ x y, R x y → S x y) : ResultsMatch S r r' := by
  cases h with
  | ok hx => exact .ok (hS _ _ hx)
  | error e => exact .error e

theorem ResultsMatch.of_eq {ε α : Type} {r r' : Except ε α}
    (h : r = r') : ResultsMatch Eq r r' := by
  subst h
  cases r with
  | ok x => exact .ok rfl
  | error e => exact .error e

/-- How values may differ that are alike. -/
structure Likeness where
  /-- Origins of what has a content. -/
  plain : Origin → Origin → Prop
  /-- Origins of what is known by its origin alone. -/
  own : Origin → Origin → Prop
  code : Code → Code → Prop
  address : Nat → Nat → Prop
  resolver : Nat → Nat → Prop
  /-- Which operators there are. -/
  operator : Operator → Prop

/-- **Identity is alike**: what is compared of it is told apart on both sides or on neither. -/
structure Likeness.Lawful (A : Likeness) : Prop where
  own : ∀ {o o' p p'}, A.own o o' → A.own p p' → (o = p ↔ o' = p')
  address : ∀ {a a' b b'}, A.address a a' → A.address b b' → (a = b ↔ a' = b')

/-- Origins of something new. -/
structure Likeness.Fresh (A : Likeness) (o o' : Origin) : Prop where
  plain : A.plain o o'
  own : A.own o o'

/-- **Values are alike.** -/
inductive Value.Like (A : Likeness) : Value → Value → Prop
  | int {o o' i} : A.plain o o' → Like A (.int o i) (.int o' i)
  | real {o o' x} : A.plain o o' → (x = .undefined → A.own o o') → Like A (.real o x) (.real o' x)
  | text {o o' codes} : A.plain o o' → Like A (.text o codes) (.text o' codes)
  | list {o o' xs ys} : A.plain o o' → xs.length = ys.length → (∀ p ∈ xs.zip ys, Like A p.1 p.2) →
      Like A (.list o xs) (.list o' ys)
  | tuple {o o' xs ys} : A.plain o o' → xs.length = ys.length → (∀ p ∈ xs.zip ys, Like A p.1 p.2) →
      Like A (.tuple o xs) (.tuple o' ys)
  | tagged {o o' l q q' x y} : A.plain o o' → A.plain q q' → Like A x y →
      Like A (.tagged o ⟨l, q⟩ x) (.tagged o' ⟨l, q'⟩ y)
  | record {a a'} : A.address a a' → Like A (.record a) (.record a')
  | operator {op} : A.operator op → Like A (.operator op) (.operator op)
  | waiting {o o' op xs ys} : A.own o o' → A.operator op → xs.length = ys.length →
      (∀ p ∈ xs.zip ys, Like A p.1 p.2) → Like A (.waiting o op xs) (.waiting o' op ys)
  | tagger {o o' l q q'} : A.own o o' → A.plain q q' →
    Like A (.tagger o ⟨l, q⟩) (.tagger o' ⟨l, q'⟩)
  | closure {o o' env env' p code code'} : A.own o o' → Option.Rel A.resolver env.root env'.root →
      (∀ x, (env.fetch? x).isSome = (env'.fetch? x).isSome) →
      (∀ x v v', env.fetch? x = some v → env'.fetch? x = some v' → Like A v v') →
      A.code code code' → Like A (.closure o env p code) (.closure o' env' p code')
  | dispatcher {o o' env env' hs hs'} : A.own o o' → Option.Rel A.resolver env.root env'.root →
      (∀ x, (env.fetch? x).isSome = (env'.fetch? x).isSome) →
      (∀ x v v', env.fetch? x = some v → env'.fetch? x = some v' → Like A v v') →
      Row.Matches A.code hs hs' → Like A (.dispatcher o env hs) (.dispatcher o' env' hs')

/-- **Scopes are alike**: they bind the same names, to values that are alike. -/
structure Env.Like (A : Likeness) (env env' : Env) : Prop where
  root : Option.Rel A.resolver env.root env'.root
  names : ∀ x, (env.fetch? x).isSome = (env'.fetch? x).isSome
  values : ∀ x v v', env.fetch? x = some v → env'.fetch? x = some v' → v.Like A v'

variable {A : Likeness}

namespace Env.Like

variable {env env' : Env}

/-- Alike scopes have alike values under each name. -/
theorem fetch? (h : Env.Like A env env') (x : String) :
    Option.Rel (Value.Like A) (env.fetch? x) (env'.fetch? x) := by
  have hnames := h.names x
  have hvalues := h.values x
  cases hv : env.fetch? x with
  | none =>
    cases hv' : env'.fetch? x with
    | none => exact .none
    | some v' => simp [hv, hv'] at hnames
  | some v =>
    cases hv' : env'.fetch? x with
    | none => simp [hv, hv'] at hnames
    | some v' => exact .some (hvalues v v' hv hv')

/-- Scopes are alike if all that can be fetched from them is. -/
theorem of_fetch? (hroot : Option.Rel A.resolver env.root env'.root)
    (h : ∀ x, Option.Rel (Value.Like A) (env.fetch? x) (env'.fetch? x)) : Env.Like A env env' where
  root := hroot
  names x := by
    have := h x
    generalize env.fetch? x = r at this
    generalize env'.fetch? x = r' at this
    cases this <;> rfl
  values x v v' hv hv' := by
    have := h x
    rw [hv, hv'] at this
    exact Option.rel_some_some.mp this

/-- Scopes stay alike when alike values are bound in them. -/
theorem extend (h : Env.Like A env env') {bs bs' : List (String × Value)}
    (hbs : Row.Matches (Value.Like A) bs bs') : Env.Like A (env.extend bs) (env'.extend bs') := by
  refine .of_fetch? ?_ fun x => ?_
  · rw [Scope.root_extend, Scope.root_extend]
    exact h.root
  · rw [Scope.fetch?_extend, Scope.fetch?_extend]
    have hlookup := Row.Matches.lookup hbs x
    have hfetch := h.fetch? x
    generalize List.lookup x bs = r at hlookup ⊢
    generalize List.lookup x bs' = r' at hlookup ⊢
    cases hlookup with
    | some hv => exact .some hv
    | none => exact hfetch

theorem ofRoot {k k' : ImportRoot} (h : Option.Rel A.resolver k k') :
    Env.Like A (.ofRoot k) (.ofRoot k') := .of_fetch? h fun _ => .none

end Env.Like

namespace Value

/-- Values are alike one by one. -/
abbrev AllLike (A : Likeness) : List Value → List Value → Prop := List.Forall₂ (Like A)

/-- Results of operators that are alike. -/
abbrev MadeLike (A : Likeness) : Except Fault Value → Except Fault Value → Prop :=
  ResultsMatch (Like A)

variable {o o' : Origin} {x x' y y' : Value}

/-- Lists of alike values are alike. -/
theorem like_list {xs ys : List Value} (ho : A.plain o o') (h : AllLike A xs ys) :
    (list o xs).Like A (list o' ys) := .list ho (zip_of_allMatch h).1 (zip_of_allMatch h).2

theorem like_tuple {xs ys : List Value} (ho : A.plain o o') (h : AllLike A xs ys) :
    (tuple o xs).Like A (tuple o' ys) := .tuple ho (zip_of_allMatch h).1 (zip_of_allMatch h).2

/-- So are operators that wait for more arguments. -/
theorem like_waiting {op : Operator} {xs ys : List Value} (ho : A.own o o') (hop : A.operator op)
    (h : AllLike A xs ys) : (waiting o op xs).Like A (waiting o' op ys) :=
  .waiting ho hop (zip_of_allMatch h).1 (zip_of_allMatch h).2

/-- Alike values are of one kind. -/
theorem Like.kind_eq (h : x.Like A x') : x.kind = x'.kind := by cases h <;> rfl

theorem Like.isProcedure_eq (h : x.Like A x') : x.isProcedure = x'.isProcedure := by cases h <;> rfl

/-- Alike values are one number, or none is. -/
theorem Like.number?_eq (h : x.Like A x') : x.number? = x'.number? := by cases h <;> rfl

/-- What counts as a tuple has entries that are alike. -/
theorem Like.tupleItems? (h : x.Like A x') :
    Option.Rel (AllLike A) x.tupleItems? x'.tupleItems? := by
  cases h with
  | tuple _ hlen hitems => exact .some (allMatch_of_zip hlen hitems)
  | tagged _ hq hx => exact .some (.cons (.text hq) (.cons hx .nil))
  | _ => exact .none

/-! ## Equality and order -/

/-- Lists are compared alike if their items are. -/
theorem sameAll_eq {xs xs' ys ys' : List Value}
    (h : List.Forall₂ (fun x x' => ∀ y y', Like A y y' → same x y = same x' y') xs xs')
    (hys : AllLike A ys ys') : sameAll xs ys = sameAll xs' ys' := by
  induction h generalizing ys ys' with
  | nil => cases hys <;> rfl
  | cons hx _ ih =>
    cases hys with
    | nil => rfl
    | cons hy hys => rw [sameAll, sameAll, hx _ _ hy, ih hys]

/-- A tagged value is compared with the pair of its label and its payload. -/
theorem same_tagged_tuple {t t' p p' : Origin} {l : Label} {ys ys' : List Value}
    (hx : ∀ y y', Like A y y' → same x y = same x' y') (hys : AllLike A ys ys') :
    same (tagged o ⟨l, t⟩ x) (tuple p ys) = same (tagged o' ⟨l, t'⟩ x') (tuple p' ys') := by
  cases hys with
  | nil => rfl
  | cons hs hys =>
    cases hys with
    | nil => cases hs <;> rfl
    | cons hy hys =>
      cases hys with
      | nil => cases hs <;> simp [same, hx _ _ hy]
      | cons _ _ => cases hs <;> rfl

/-- A tuple is compared with a tagged value if it is the pair of a text and something. -/
theorem same_tuple_tagged {t t' p p' : Origin} {l : Label} {xs xs' : List Value}
    (hxs : List.Forall₂ (fun x x' => Like A x x' ∧ ∀ y y',
      Like A y y' → same x y = same x' y') xs xs')
    (hy : y.Like A y') :
    same (tuple o xs) (tagged p ⟨l, t⟩ y) = same (tuple o' xs') (tagged p' ⟨l, t'⟩ y') := by
  cases hxs with
  | nil => rfl
  | cons hs hxs =>
    cases hxs with
    | nil => cases hs.1 <;> rfl
    | cons hx hxs =>
      cases hxs with
      | nil => cases hs.1 <;> simp [same, hx.2 _ _ hy]
      | cons _ _ => cases hs.1 <;> rfl

/-- **Equality does not tell values apart that are alike.** -/
theorem Like.same_eq (hA : A.Lawful) (hx : x.Like A x') (hy : y.Like A y') :
    same x y = same x' y' := by
  induction hx generalizing y y' with
  | int _ => cases hy <;> rfl
  | @real o o' r _ ho =>
    cases hy with
    | @real p p' r' _ hp =>
      cases r <;> cases r' <;> first | rfl | simp only [same, hA.own (ho rfl) (hp rfl)]
    | _ => cases r <;> rfl
  | text _ => cases hy <;> rfl
  | list _ hlen _ ih =>
    cases hy with
    | list _ hlen' hitems' =>
      exact sameAll_eq (allMatch_of_zip hlen fun p hp y y' hy => ih p hp hy)
        (allMatch_of_zip hlen' hitems')
    | _ => rfl
  | tuple _ hlen hitems ih =>
    cases hy with
    | tuple _ hlen' hitems' =>
      exact sameAll_eq (allMatch_of_zip hlen fun p hp y y' hy => ih p hp hy)
        (allMatch_of_zip hlen' hitems')
    | tagged _ _ hy =>
      exact same_tuple_tagged
        (allMatch_of_zip hlen fun p hp => ⟨hitems p hp, fun y y' hy => ih p hp hy⟩) hy
    | _ => rfl
  | tagged _ _ hx ih =>
    cases hy with
    | tuple _ hlen' hitems' =>
      exact same_tagged_tuple (fun y y' hy => ih hy) (allMatch_of_zip hlen' hitems')
    | tagged _ _ hy =>
      simp only [same, ih hy]
    | _ => rfl
  | @record a a' ha =>
    cases hy with
    | @record b b' hb =>
      simp only [same, hA.address ha hb]
    | _ => rfl
  | operator _ => cases hy <;> rfl
  | waiting ho _ _ _ _ =>
    cases hy with
    | waiting hp _ _ _ => simp only [same, hA.own ho hp]
    | _ => rfl
  | tagger ho _ =>
    cases hy with
    | tagger hp _ => simp only [same, hA.own ho hp]
    | _ => rfl
  | closure ho _ _ _ _ _ =>
    cases hy with
    | closure hp _ _ _ _ => simp only [same, hA.own ho hp]
    | _ => rfl
  | dispatcher ho _ _ _ _ _ =>
    cases hy with
    | dispatcher hp _ _ _ _ => simp only [same, hA.own ho hp]
    | _ => rfl

/-- **Alike values are equal to the same ones.** -/
theorem Like.equal_eq (hA : A.Lawful) (hx : x.Like A x') (hy : y.Like A y') :
    equal x y = equal x' y' := by
  have hsame := hx.same_eq hA hy
  cases hx with
  | @real _ _ r _ _ => cases r <;> first | rfl | exact hsame
  | _ => exact hsame

/-- What a tagged value compares with its label. -/
theorem Like.isLabel_eq (hx : x.Like A x') (l : Label) : isLabel l x = isLabel l x' := by
  cases hx <;> rfl

theorem Like.orderLabel_eq (hx : x.Like A x') (symbol : String) (l : Label) :
    orderLabel symbol l x = orderLabel symbol l x' := by
  cases hx <;> rfl

/-- Lists are ordered alike if their items are. -/
theorem orderAll_eq (hA : A.Lawful) {flipped : Bool} {xs xs' ys ys' : List Value}
    (h : List.Forall₂ (fun x x' => Like A x x' ∧
      ∀ flipped y y', Like A y y' → order flipped x y = order flipped x' y') xs xs')
    (hys : AllLike A ys ys') : orderAll flipped xs ys = orderAll flipped xs' ys' := by
  induction h generalizing ys ys' with
  | nil => cases hys <;> rfl
  | cons hx _ ih =>
    cases hys with
    | nil => rfl
    | cons hy hys => rw [orderAll, orderAll, hx.1.same_eq hA hy, ih hys, hx.2 _ _ _ hy]

/-- The order of a tagged value and a tuple. -/
theorem order_tagged_tuple (hA : A.Lawful) {flipped : Bool} {t t' p p' : Origin} {l : Label}
    {ys ys' : List Value} (hx : x.Like A x')
    (ih : ∀ flipped y y', Like A y y' → order flipped x y = order flipped x' y')
    (hys : AllLike A ys ys') :
    order flipped (tagged o ⟨l, t⟩ x) (tuple p ys) = order flipped (tagged o' ⟨l, t'⟩ x')
      (tuple p' ys') := by
  cases hys with
  | nil => rfl
  | cons hs hys =>
    cases hys with
    | nil => rw [order, order, hs.isLabel_eq, hs.orderLabel_eq]
    | cons hy hys =>
      rw [order, order, hs.isLabel_eq, hs.orderLabel_eq, hx.same_eq hA hy, ih _ _ _ hy]
      cases hys <;> rfl

/-- The order of a tuple and a tagged value. -/
theorem order_tuple_tagged (hA : A.Lawful) {flipped : Bool} {t t' p p' : Origin} {l : Label}
    {xs xs' : List Value} (hxs : List.Forall₂ (fun x x' => Like A x x' ∧
      ∀ flipped y y', Like A y y' → order flipped x y = order flipped x' y') xs xs')
    (hy : y.Like A y') :
    order flipped (tuple o xs) (tagged p ⟨l, t⟩ y) = order flipped (tuple o' xs')
      (tagged p' ⟨l, t'⟩ y') := by
  cases hxs with
  | nil => rfl
  | cons hs hxs =>
    cases hxs with
    | nil => rw [order, order, hs.1.isLabel_eq, hs.1.orderLabel_eq]
    | cons hx hxs =>
      rw [order, order, hs.1.isLabel_eq, hs.1.orderLabel_eq, hx.1.same_eq hA hy, hx.2 _ _ _ hy]
      cases hxs <;> rfl

/-- **Order does not tell values apart that are alike.** -/
theorem Like.order_eq (hA : A.Lawful) {flipped : Bool} (hx : x.Like A x') (hy : y.Like A y') :
    order flipped x y = order flipped x' y' := by
  induction hx generalizing y y' flipped with
  | list _ hlen hitems ih =>
    cases hy with
    | list _ hlen' hitems' =>
      exact orderAll_eq hA (allMatch_of_zip hlen fun p hp => ⟨hitems p hp, fun _ y y' hy =>
        ih p hp hy⟩) (allMatch_of_zip hlen' hitems')
    | _ => simp only [order, incomparable, kind]
  | tuple _ hlen hitems ih =>
    cases hy with
    | tuple _ hlen' hitems' =>
      exact orderAll_eq hA (allMatch_of_zip hlen fun p hp => ⟨hitems p hp, fun _ y y' hy =>
        ih p hp hy⟩) (allMatch_of_zip hlen' hitems')
    | tagged _ _ hy =>
      exact order_tuple_tagged hA (allMatch_of_zip hlen fun p hp => ⟨hitems p hp, fun _ y y' hy =>
        ih p hp hy⟩) hy
    | _ => simp only [order, incomparable, kind]
  | tagged _ _ hx ih =>
    cases hy with
    | tuple _ hlen' hitems' =>
      exact order_tagged_tuple hA hx (fun _ y y' hy => ih hy) (allMatch_of_zip hlen' hitems')
    | tagged _ _ hy =>
      rw [order, order, hx.same_eq hA hy, ih hy]
    | _ => simp only [order, incomparable, kind]
  | _ => cases hy <;> simp only [order, incomparable, kind]

/-- **Alike values are less than the same ones.** -/
theorem Like.less_eq (hA : A.Lawful) (hx : x.Like A x') (hy : y.Like A y') :
    less x y = less x' y' := by
  rw [less, less, hx.order_eq hA hy]

/-! ## Arithmetic -/

/-- Arithmetic looks at numbers only. -/
theorem like_calculate (ho : A.Fresh o o') {onInts onInts' : Int → Int → Except Fault Value}
    {onReals : Binary64 → Binary64 → Except Fault Binary64}
    (h : ∀ i j, MadeLike A (onInts i j) (onInts' i j)) (m n : Numeral) :
    MadeLike A (calculate o onInts onReals m n) (calculate o' onInts' onReals m n) := by
  have hreal (r : Except Fault Binary64) : MadeLike A (do return real o (← r))
    (do return real o' (← r)) :=
    .bind_same r fun _ => .ok (.real ho.plain fun _ => ho.own)
  cases m with
  | int i =>
    cases n with
    | int j => exact h i j
    | real b => exact .bind_same _ fun _ => hreal _
  | real a =>
    cases n with
    | int j => exact .bind_same _ fun _ => hreal _
    | real b => exact hreal _

theorem like_unless {a : Prop} [Decidable a] (f : Fault) {r r' : Except Fault Value}
    (h : MadeLike A r r') :
    MadeLike A (if a then .error f else r) (if a then .error f else r') := by
  split
  · exact .error f
  · exact h

/-- A complaint about operands tells their kinds only. -/
theorem like_unsupported (hx : x.Like A x') (hy : y.Like A y') (symbol : String) :
    MadeLike A (.error (.unsupported symbol x.kind y.kind))
      (.error (.unsupported symbol x'.kind y'.kind)) := by
  rw [hx.kind_eq, hy.kind_eq]
  exact .error _

theorem plain_getD {left left' : Option Origin} (h : Option.Rel A.plain left left')
    (ho : A.Fresh o o') : A.plain (left.getD o) (left'.getD o') := by
  cases h with
  | some h => exact h
  | none => exact ho.plain

/-- A list that is joined came about where it is joined, or where the only part of it did. -/
theorem plain_joinedOrigin (ho : A.Fresh o o') {α : Type} {xs xs' ys ys' : List α}
    (hxs : xs.isEmpty = xs'.isEmpty) (hys : ys.isEmpty = ys'.isEmpty)
    {left left' right right' : Option Origin} (hleft : Option.Rel A.plain left left')
    (hright : Option.Rel A.plain right right') :
    A.plain (joinedOrigin o xs ys left right) (joinedOrigin o' xs' ys' left' right') := by
  rw [joinedOrigin, joinedOrigin, hxs, hys]
  split
  · exact plain_getD hright ho
  · split
    · exact plain_getD hleft ho
    · exact ho.plain

theorem Like.tupleOrigin? (hx : x.Like A x') :
    Option.Rel A.plain x.tupleOrigin? x'.tupleOrigin? := by
  cases hx with
  | tuple ho _ _ => exact .some ho
  | _ => exact .none

theorem AllLike.isEmpty_eq {xs ys : List Value}
    (h : AllLike A xs ys) : xs.isEmpty = ys.isEmpty := by
  cases h <;> rfl

/-- What counts as a tuple is joined with what does. -/
theorem join_of_tupleItems {xs : List Value} (h : x.tupleItems? = some xs) (o : Origin)
    (y : Value) :
    join o x y = y.tupleItems?.elim (.error (.cannotConcatenate "tuple" y.kind)) fun ys =>
      .ok (tuple (joinedOrigin o xs ys x.tupleOrigin? y.tupleOrigin?) (xs ++ ys)) := by
  cases x with
  | tuple | tagged =>
    cases h
    cases y <;> rfl
  | _ => cases h

theorem like_joinTuples (ho : A.Fresh o o') (hx : x.Like A x') (hy : y.Like A y')
    {xs xs' : List Value} (hxs : x.tupleItems? = some xs) (hxs' : x'.tupleItems? = some xs') :
    MadeLike A (join o x y) (join o' x' y') := by
  have hitems : AllLike A xs xs' := Option.rel_some_some.mp (hxs ▸ hxs' ▸ hx.tupleItems?)
  have hys := hy.tupleItems?
  rw [join_of_tupleItems hxs, join_of_tupleItems hxs', hy.kind_eq]
  generalize y.tupleItems? = ys at hys ⊢
  generalize y'.tupleItems? = ys' at hys ⊢
  cases hys with
  | none => exact .error _
  | some hys =>
    exact .ok (like_tuple (plain_joinedOrigin ho hitems.isEmpty_eq hys.isEmpty_eq hx.tupleOrigin?
      hy.tupleOrigin?) (List.rel_append hitems hys))

/-- Lists, texts and tuples are joined alike. -/
theorem like_join (ho : A.Fresh o o') (hx : x.Like A x') (hy : y.Like A y') :
    MadeLike A (join o x y) (join o' x' y') := by
  have htuples := @like_joinTuples A o o' x x' y y' ho hx hy
  have hfail := like_unsupported hx hy "+"
  cases hx with
  | text hp =>
    cases hy with
    | text hq => exact .ok (.text (plain_joinedOrigin ho rfl rfl (.some hp) (.some hq)))
    | _ => exact .error _
  | list _ hlen hitems =>
    cases hy with
    | list _ hlen' hitems' =>
      exact .ok (like_list ho.plain (List.rel_append (allMatch_of_zip hlen hitems)
        (allMatch_of_zip hlen' hitems')))
    | _ => exact .error _
  | tuple => exact htuples rfl rfl
  | tagged => exact htuples rfl rfl
  | _ => exact hfail

/-- **Addition makes alike values of alike ones**, and so do the other operations. -/
theorem like_add (ho : A.Fresh o o') (hx : x.Like A x') (hy : y.Like A y') :
    MadeLike A (x.add o y) (x'.add o' y') := by
  unfold add
  rw [hx.number?_eq, hy.number?_eq]
  split
  · exact like_calculate ho (fun _ _ => .ok (.int ho.plain)) _ _
  · exact like_join ho hx hy

theorem like_subtract (ho : A.Fresh o o') (hx : x.Like A x') (hy : y.Like A y') :
    MadeLike A (x.subtract o y) (x'.subtract o' y') := by
  unfold subtract
  rw [hx.number?_eq, hy.number?_eq]
  split
  · exact like_calculate ho (fun _ _ => .ok (.int ho.plain)) _ _
  · exact like_unsupported hx hy "-"

theorem like_divide (ho : A.Fresh o o') (hx : x.Like A x') (hy : y.Like A y') :
    MadeLike A (x.divide o y) (x'.divide o' y') := by
  unfold divide
  rw [hx.number?_eq, hy.number?_eq]
  split
  · refine like_calculate ho (fun i j => like_unless _ ?_) _ _
    split
    · exact .ok (.real ho.plain fun _ => ho.own)
    · exact .error _
  · exact like_unsupported hx hy "/"

/-- A remainder may be its own dividend. -/
theorem plain_remainderOrigin (ho : A.Fresh o o') (hx : x.Like A x') (i j : Int) :
    A.plain (remainderOrigin o x i j) (remainderOrigin o' x' i j) := by
  unfold remainderOrigin
  cases hx with
  | int hp =>
    dsimp only
    split
    · exact hp
    · exact ho.plain
  | _ => exact ho.plain

theorem like_remainder (ho : A.Fresh o o') (hx : x.Like A x') (hy : y.Like A y') :
    MadeLike A (x.remainder o y) (x'.remainder o' y') := by
  unfold remainder
  rw [hx.number?_eq, hy.number?_eq]
  split
  · exact like_calculate ho
      (fun i j => like_unless _ (.ok (.int (plain_remainderOrigin ho hx i j)))) _ _
  · exact like_unsupported hx hy "%"

/-! ## Repeating -/

/-- A list is repeated item by item. -/
theorem allLike_repeated {xs ys : List Value} (h : AllLike A xs ys) (n : Int) :
    AllLike A (repeated xs n) (repeated ys n) := by
  rw [repeated, repeated]
  refine List.rel_flatten ?_
  induction n.toNat with
  | zero => exact .nil
  | succ k ih => exact .cons h ih

theorem plain_repeatedOrigin (ho : A.Fresh o o') {own own' : Option Origin}
    (h : Option.Rel A.plain own own') (n : Int) :
    A.plain (repeatedOrigin o own n) (repeatedOrigin o' own' n) := by
  unfold repeatedOrigin
  split
  · exact plain_getD h ho
  · exact ho.plain

/-- Lists, texts and tuples are repeated alike, as far as there is room. -/
theorem like_repeat? (room : Nat) (ho : A.Fresh o o') (hx : x.Like A x') (hy : y.Like A y') :
    Option.Rel (MadeLike A) (repeat? room o x y) (repeat? room o' x' y') := by
  have htuple {xs xs' : List Value} (n : Int) (h : AllLike A xs xs') :
      (tuple (repeatedOrigin o x.tupleOrigin? n) (repeated xs n)).Like A
        (tuple (repeatedOrigin o' x'.tupleOrigin? n) (repeated xs' n)) :=
    like_tuple (plain_repeatedOrigin ho hx.tupleOrigin? n) (allLike_repeated h n)
  have hitems := hx.tupleItems?
  unfold repeat?
  cases hy with
  | int _ =>
    cases hx with
    | text hp =>
      exact .some (like_unless _ (like_unless _ (like_unless _ (.ok (.text
        (plain_repeatedOrigin ho (.some hp) _))))))
    | list _ hlen hxs =>
      dsimp only
      rw [hlen]
      exact .some (like_unless _ (like_unless _ (like_unless _ (.ok (like_list ho.plain
        (allLike_repeated (allMatch_of_zip hlen hxs) _))))))
    | tuple _ hlen hxs =>
      simp only [Value.tupleItems?, Option.map_some, hlen]
      exact .some (like_unless _ (like_unless _ (like_unless _ (.ok
        (htuple _ (allMatch_of_zip hlen hxs))))))
    | tagged =>
      exact .some (like_unless _ (like_unless _ (like_unless _ (.ok
        (htuple _ (Option.rel_some_some.mp hitems))))))
    | _ => exact .none
  | _ =>
    cases hx with
    | text | list | tuple | tagged => exact .some (.error _)
    | _ => exact .none

theorem like_multiply (room : Nat) (ho : A.Fresh o o') (hx : x.Like A x') (hy : y.Like A y') :
    MadeLike A (x.multiply room o y) (x'.multiply room o' y') := by
  have hleft := like_repeat? room ho hx hy
  have hright := like_repeat? room ho hy hx
  have hnone := like_unsupported hx hy "*"
  unfold multiply
  rw [hx.number?_eq, hy.number?_eq]
  split
  · exact like_calculate ho (fun _ _ => .ok (.int ho.plain)) _ _
  generalize repeat? room o x y = r at hleft ⊢
  generalize repeat? room o' x' y' = r' at hleft ⊢
  generalize repeat? room o y x = s at hright ⊢
  generalize repeat? room o' y' x' = s' at hright ⊢
  cases hleft with
  | some h => exact h
  | none =>
    cases hright with
    | some h => exact h
    | none => exact hnone

/-! ## Sizes, counts and characters -/

theorem Like.toInt_eq (hx : x.Like A x') : x.toInt = x'.toInt := by
  cases hx with
  | @real _ _ r _ _ => cases r <;> rfl
  | _ => rfl

/-- Numbers that are counted up to have places of their own. -/
theorem like_countUp (room : Nat) (hpart : ∀ i, A.plain (o.part i) (o'.part i)) (ho : A.Fresh o o')
    (hx : x.Like A x') : MadeLike A (x.countUp room o) (x'.countUp room o') := by
  rw [countUp, countUp, hx.toInt_eq]
  refine .bind_same _ fun n => like_unless _ (like_unless _ (.ok (like_list ho.plain ?_)))
  exact List.forall₂_map_left_iff.mpr (List.forall₂_map_right_iff.mpr
    (List.forall₂_same.mpr fun i _ => .int (hpart i)))

theorem like_ord (ho : A.Fresh o o') (hx : x.Like A x') : MadeLike A (x.ord o) (x'.ord o') := by
  cases hx with
  | @text _ _ codes _ =>
    cases codes with
    | nil => exact .error _
    | cons c codes =>
      cases codes with
      | nil => exact .ok (.int ho.plain)
      | cons d codes => exact .error _
  | _ => exact .error _

theorem like_chr (ho : A.Fresh o o') (hx : x.Like A x') : MadeLike A (x.chr o) (x'.chr o') := by
  rw [chr, chr, hx.toInt_eq]
  exact .bind_same _ fun n => like_unless _ (like_unless _ (.ok (.text ho.plain)))

end Value

/-!
## Values that match

Values that match are alike but for the numbers of things (`Likeness.ofMatching`).  A matching that
is one-to-one keeps what operators compare of identity, so each operator makes of values that match
results that match.
-/

section Matching

variable {β : Matching}

/-- Alike but for the numbers of things. -/
def Likeness.ofMatching (β : Matching) : Likeness where
  plain := Origin.Matches β
  own := Origin.Matches β
  code := Code.Matches β
  address a a' := β (.record a) (.record a')
  resolver k k' := β (.resolver k) (.resolver k')
  operator _ := True

/-- **Values that match are told apart alike** if nothing has two counterparts. -/
theorem Likeness.lawful_ofMatching (hβ : β.Unique) : (ofMatching β).Lawful where
  own h h' := h.eq_iff hβ h'
  address {a a' b b'} h h' := by
    constructor
    · rintro rfl
      exact Thing.record.inj (hβ.right h h')
    · rintro rfl
      exact Thing.record.inj (hβ.left h h')

theorem Origin.Matches.fresh {o o' : Origin}
    (h : o.Matches β o') : (Likeness.ofMatching β).Fresh o o' := ⟨h, h⟩

namespace Value

/-- Results of operators that match. -/
abbrev Made (β : Matching) : Except Fault Value → Except Fault Value → Prop :=
  ResultsMatch (Matches β)

variable {o o' : Origin} {x x' y y' : Value}

/-- Values that match are alike in all that they are. -/
theorem Matches.like (h : x.Matches β x') : x.Like (.ofMatching β) x' := by
  induction h with
  | int ho => exact .int ho
  | real ho => exact .real ho fun _ => ho
  | text ho => exact .text ho
  | list ho hlen _ ih => exact .list ho hlen ih
  | tuple ho hlen _ ih => exact .tuple ho hlen ih
  | @tagged _ _ t t' _ _ ho ht _ ih =>
    obtain ⟨l, q⟩ := t
    obtain ⟨l', q'⟩ := t'
    obtain rfl : l = l' := ht.label
    exact .tagged ho ht.origin ih
  | record ha => exact .record ha
  | operator => exact .operator trivial
  | waiting ho hlen _ ih => exact .waiting ho trivial hlen ih
  | @tagger _ _ t t' ho ht =>
    obtain ⟨l, q⟩ := t
    obtain ⟨l', q'⟩ := t'
    obtain rfl : l = l' := ht.label
    exact .tagger ho ht.origin
  | closure ho hroot hnames _ hcode ih => exact .closure ho hroot hnames ih hcode
  | dispatcher ho hroot hnames _ hhs ih => exact .dispatcher ho hroot hnames ih hhs

theorem Like.matches (h : x.Like (.ofMatching β) x') : x.Matches β x' := by
  induction h with
  | int ho => exact .int ho
  | real ho _ => exact .real ho
  | text ho => exact .text ho
  | list ho hlen _ ih => exact .list ho hlen ih
  | tuple ho hlen _ ih => exact .tuple ho hlen ih
  | tagged ho hq _ ih => exact .tagged ho ⟨rfl, hq⟩ ih
  | record ha => exact .record ha
  | operator _ => exact .operator
  | waiting ho _ hlen _ ih => exact .waiting ho hlen ih
  | tagger ho hq => exact .tagger ho ⟨rfl, hq⟩
  | closure ho hroot hnames _ hcode ih => exact .closure ho hroot hnames ih hcode
  | dispatcher ho hroot hnames _ hhs ih => exact .dispatcher ho hroot hnames ih hhs

/-- What is made alike of values that match, matches. -/
theorem MadeLike.made {r r' : Except Fault Value}
    (h : MadeLike (.ofMatching β) r r') : Made β r r' :=
  h.imp fun _ _ => Like.matches

theorem AllMatch.isEmpty_eq {xs ys : List Value}
    (h : AllMatch β xs ys) : xs.isEmpty = ys.isEmpty := by
  cases h <;> rfl

theorem matches_getD {left left' : Option Origin} (h : Option.Rel (Origin.Matches β) left left')
    (ho : o.Matches β o') : (left.getD o).Matches β (left'.getD o') := by
  cases h with
  | some h => exact h
  | none => exact ho

/-- Values that match are equal to the same ones. -/
theorem Matches.equal_eq (hβ : β.Unique) (hx : x.Matches β x') (hy : y.Matches β y') :
    equal x y = equal x' y' := hx.like.equal_eq (Likeness.lawful_ofMatching hβ) hy.like

theorem Matches.less_eq (hβ : β.Unique) (hx : x.Matches β x') (hy : y.Matches β y') :
    less x y = less x' y' := hx.like.less_eq (Likeness.lawful_ofMatching hβ) hy.like

theorem Matches.toInt_eq (hx : x.Matches β x') : x.toInt = x'.toInt := hx.like.toInt_eq

/-- Sums of values that match, match, and so it is with the other operations. -/
theorem made_add (ho : o.Matches β o') (hx : x.Matches β x') (hy : y.Matches β y') :
    Made β (x.add o y) (x'.add o' y') := MadeLike.made (like_add ho.fresh hx.like hy.like)

theorem made_subtract (ho : o.Matches β o') (hx : x.Matches β x') (hy : y.Matches β y') :
    Made β (x.subtract o y) (x'.subtract o' y') :=
  MadeLike.made (like_subtract ho.fresh hx.like hy.like)

theorem made_multiply (room : Nat) (ho : o.Matches β o') (hx : x.Matches β x')
    (hy : y.Matches β y') :
    Made β (x.multiply room o y) (x'.multiply room o' y') :=
  MadeLike.made (like_multiply room ho.fresh hx.like hy.like)

theorem made_divide (ho : o.Matches β o') (hx : x.Matches β x') (hy : y.Matches β y') :
    Made β (x.divide o y) (x'.divide o' y') := MadeLike.made (like_divide ho.fresh hx.like hy.like)

theorem made_remainder (ho : o.Matches β o') (hx : x.Matches β x') (hy : y.Matches β y') :
    Made β (x.remainder o y) (x'.remainder o' y') :=
  MadeLike.made (like_remainder ho.fresh hx.like hy.like)

theorem made_countUp (room : Nat) (ho : o.Matches β o') (hx : x.Matches β x') :
    Made β (x.countUp room o) (x'.countUp room o') :=
  MadeLike.made (like_countUp room (fun i => ho.part i) ho.fresh hx.like)

theorem made_ord (ho : o.Matches β o') (hx : x.Matches β x') : Made β (x.ord o) (x'.ord o') :=
  MadeLike.made (like_ord ho.fresh hx.like)

theorem made_chr (ho : o.Matches β o') (hx : x.Matches β x') : Made β (x.chr o) (x'.chr o') :=
  MadeLike.made (like_chr ho.fresh hx.like)

end Value

end Matching

end RowLang
