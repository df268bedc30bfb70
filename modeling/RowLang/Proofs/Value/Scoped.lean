import RowLang.Proofs.Typing.Scoped
import RowLang.Value.Arith

/-!
# Proofs/Value/Scoped — values whose code has its names bound

A value is scoped when the scope of each function in it binds the names in which the code of the
function is scoped, to scoped values, and loads no modules; of records it has only some addresses,
`K` (`Value.Scoped`).  What operators make of scoped values is scoped.
-/

namespace RowLang

/-- **The code in a value has its names bound**, and the records in it are at addresses of `K`. -/
inductive Value.Scoped (K : Nat → Prop) : Value → Prop
  | int {o i} : Scoped K (.int o i)
  | real {o x} : Scoped K (.real o x)
  | text {o codes} : Scoped K (.text o codes)
  | list {o items} : (∀ v ∈ items, Scoped K v) → Scoped K (.list o items)
  | tuple {o items} : (∀ v ∈ items, Scoped K v) → Scoped K (.tuple o items)
  | tagged {o tag payload} : Scoped K payload → Scoped K (.tagged o tag payload)
  | record {a} : K a → Scoped K (.record a)
  | operator {o} : Scoped K (.operator o)
  | waiting {origin o args} : (∀ v ∈ args, Scoped K v) → Scoped K (.waiting origin o args)
  | tagger {o tag} : Scoped K (.tagger o tag)
  | closure {o env p code names} (values : String → Value) : env.root = none →
      (∀ x ∈ names, env.fetch? x = some (values x)) → (∀ x ∈ names, Scoped K (values x)) →
      code.expr.Scoped (p.names ++ names) → Scoped K (.closure o env p code)
  | dispatcher {o env handlers names} (values : String → Value) : env.root = none →
      (∀ x ∈ names, env.fetch? x = some (values x)) → (∀ x ∈ names, Scoped K (values x)) →
      (∀ p ∈ handlers, p.2.expr.Scoped names) → Scoped K (.dispatcher o env handlers)

/-- A scope binds names to scoped values, and imports nothing. -/
structure Env.Provides (K : Nat → Prop) (env : Env) (names : List String) : Prop where
  root : env.root = none
  values : ∀ x ∈ names, ∃ v, env.fetch? x = some v ∧ v.Scoped K

variable {K : Nat → Prop}

/-- The outermost scope provides no names. -/
theorem Env.provides_ofRoot : Env.Provides K (.ofRoot none) [] :=
  ⟨rfl, fun _ h => absurd h List.not_mem_nil⟩

/-- A scope provides fewer names as well. -/
theorem Env.Provides.mono {env : Env} {names names' : List String} (h : Env.Provides K env names)
    (hsub : names' ⊆ names) : Env.Provides K env names' :=
  ⟨h.root, fun x hx => h.values x (hsub hx)⟩

/-- A frame gets one more name. -/
theorem Env.Provides.cons {env : Env} {b : List (String × Value)} {names : List String} {x : String}
    {v : Value} (h : Env.Provides K (env.extend b) names) (hv : v.Scoped K) :
    Env.Provides K (env.extend ((x, v) :: b)) (x :: names) where
  root := by
    have := h.root
    rwa [Scope.root_extend] at this ⊢
  values y hy := by
    rw [Scope.fetch?_extend, Row.lookup_cons_eq]
    by_cases he : y = x
    · rw [if_pos he]
      exact ⟨v, rfl, hv⟩
    · rw [if_neg he, ← Scope.fetch?_extend]
      exact h.values y (List.mem_of_ne_of_mem he hy)

/-- A scope provides names by a value for each of them. -/
theorem Env.provides_iff {env : Env} {names : List String} : Env.Provides K env names ↔
    env.root = none ∧ ∃ values : String → Value, (∀ x ∈ names, env.fetch? x = some (values x)) ∧
      ∀ x ∈ names, (values x).Scoped K := by
  constructor
  · intro h
    refine ⟨h.root, fun x => (env.fetch? x).getD default, fun x hx => ?_, fun x hx => ?_⟩
    · obtain ⟨v, hv, -⟩ := h.values x hx
      simp [hv]
    · obtain ⟨v, hv, hscoped⟩ := h.values x hx
      simpa [hv] using hscoped
  · rintro ⟨hroot, values, hfetch, hscoped⟩
    exact ⟨hroot, fun x hx => ⟨values x, hfetch x hx, hscoped x hx⟩⟩

namespace Value

/-- A function is scoped if its scope provides the names of its code. -/
theorem scoped_closure {o : Origin} {env : Env} {p : Pattern} {code : Code} {names : List String}
    (h : Env.Provides K env names) (hcode : code.expr.Scoped (p.names ++ names)) :
    (closure o env p code).Scoped K := by
  obtain ⟨hroot, values, hfetch, hscoped⟩ := Env.provides_iff.mp h
  exact .closure values hroot hfetch hscoped hcode

/-- So is a row of handlers. -/
theorem scoped_dispatcher {o : Origin} {env : Env} {handlers : Row Code} {names : List String}
    (h : Env.Provides K env names) (hhandlers : ∀ p ∈ handlers, p.2.expr.Scoped names) :
    (dispatcher o env handlers).Scoped K := by
  obtain ⟨hroot, values, hfetch, hscoped⟩ := Env.provides_iff.mp h
  exact .dispatcher values hroot hfetch hscoped hhandlers

/-- A verdict holds no record but the empty one. -/
theorem scoped_verdict (o : Origin) (b : Bool) (h : K sharedEmpty) : (verdict o b).Scoped K :=
  .tagged (.record h)

/-- Whatever counts as a tuple has scoped entries. -/
theorem Scoped.tupleItems {v : Value} {items : List Value} (h : v.Scoped K)
    (hitems : v.tupleItems? = some items) : ∀ u ∈ items, u.Scoped K := by
  cases h with
  | tuple h =>
    cases hitems
    exact h
  | tagged h =>
    cases hitems
    exact List.forall_mem_cons.mpr ⟨.text, List.forall_mem_singleton.mpr h⟩
  | _ => cases hitems

/-! ## Operators -/

/-- What comes out of an operation, if anything does, is scoped. -/
def MakesScoped (K : Nat → Prop) (r : Except Fault Value) : Prop := ∀ v, r = .ok v → v.Scoped K

theorem makes_ok {v : Value} (h : v.Scoped K) : MakesScoped K (.ok v) := fun _ hv => by
  cases hv
  exact h

theorem makes_error (f : Fault) : MakesScoped K (.error f) := fun _ hv => by cases hv

/-- What is made of any result is scoped if it is so of each one. -/
theorem makes_bind {α : Type} {r : Except Fault α} {f : α → Except Fault Value}
    (h : ∀ x, MakesScoped K (f x)) : MakesScoped K (r >>= f) := by
  cases r with
  | ok x => exact h x
  | error e => exact makes_error e

/-- Something may stand in the way. -/
theorem makes_unless {a : Prop} [Decidable a] {f : Fault} {r : Except Fault Value}
    (h : MakesScoped K r) : MakesScoped K (if a then .error f else r) := by
  split
  · exact makes_error f
  · exact h

/-- A calculation on numbers makes something scoped if it does so on integers. -/
theorem makes_calculate {origin : Origin} {onInts : Int → Int → Except Fault Value}
    {onReals : Binary64 → Binary64 → Except Fault Binary64}
    (h : ∀ i j, MakesScoped K (onInts i j)) (m n : Numeral) :
    MakesScoped K (calculate origin onInts onReals m n) := by
  cases m with
  | int i =>
    cases n with
    | int j => exact h i j
    | real y => exact makes_bind fun _ => makes_bind fun _ => makes_ok .real
  | real x =>
    cases n with
    | int j => exact makes_bind fun _ => makes_bind fun _ => makes_ok .real
    | real y => exact makes_bind fun _ => makes_ok .real

variable {x y : Value}

/-- **Joining makes scoped values of scoped ones.** -/
theorem makes_join (origin : Origin) (hx : x.Scoped K) (hy : y.Scoped K) :
    MakesScoped K (join origin x y) := by
  unfold join
  split
  · exact makes_ok .text
  · exact makes_error _
  · cases hx with
    | list hxs => cases hy with
      | list hys => exact makes_ok (.list fun v hv => (List.mem_append.mp hv).elim (hxs v) (hys v))
  · exact makes_error _
  · split
    case h_1 xs ys hxs hys =>
      exact makes_ok (.tuple fun v hv =>
        (List.mem_append.mp hv).elim (hx.tupleItems hxs v) (hy.tupleItems hys v))
    case h_2 => exact makes_error _
    case h_3 => exact makes_error _

theorem makes_add (origin : Origin) (hx : x.Scoped K) (hy : y.Scoped K) :
    MakesScoped K (x.add origin y) := by
  unfold add
  split
  · exact makes_calculate (fun _ _ => makes_ok .int) _ _
  · exact makes_join origin hx hy

theorem makes_subtract (origin : Origin) : MakesScoped K (x.subtract origin y) := by
  unfold subtract
  split
  · exact makes_calculate (fun _ _ => makes_ok .int) _ _
  · exact makes_error _

theorem makes_divide (origin : Origin) : MakesScoped K (x.divide origin y) := by
  unfold divide
  split
  · refine makes_calculate (fun i j => makes_unless ?_) _ _
    split
    · exact makes_ok .real
    · exact makes_error _
  · exact makes_error _

/-- Repeating adds no items. -/
theorem mem_of_mem_repeated {α : Type} {xs : List α} {n : Int} {z : α} (h : z ∈ repeated xs n) :
    z ∈ xs := by
  obtain ⟨ys, hys, hz⟩ := List.mem_flatten.mp h
  rwa [List.eq_of_mem_replicate hys] at hz

theorem makes_repeat (room : Nat) (origin : Origin) (hx : x.Scoped K) {r : Except Fault Value}
    (h : repeat? room origin x y = some r) : MakesScoped K r := by
  unfold repeat? at h
  dsimp only at h
  cases y with
  | int o n =>
    split at h
    · cases h
      exact makes_unless (makes_unless (makes_unless (makes_ok .text)))
    · cases h
      cases hx with
      | list hxs =>
        exact makes_unless (makes_unless (makes_unless (makes_ok (.list fun v hv =>
          hxs v (mem_of_mem_repeated hv)))))
    · obtain ⟨xs, hxs, rfl⟩ := Option.map_eq_some_iff.mp h
      exact makes_unless (makes_unless (makes_unless (makes_ok (.tuple fun v hv =>
        hx.tupleItems hxs v (mem_of_mem_repeated hv)))))
  | _ =>
    split at h
    · cases h
      exact makes_error _
    · cases h
      exact makes_error _
    · obtain ⟨xs, -, rfl⟩ := Option.map_eq_some_iff.mp h
      exact makes_error _

/-- Multiplying repeats, or makes numbers. -/
theorem makes_multiply (room : Nat) (origin : Origin) (hx : x.Scoped K) (hy : y.Scoped K) :
    MakesScoped K (x.multiply room origin y) := by
  unfold multiply
  split
  · exact makes_calculate (fun _ _ => makes_ok .int) _ _
  · split
    case h_1 r _ hr => exact makes_repeat room origin hx hr
    case h_2 r _ hr => exact makes_repeat room origin hy hr
    case h_3 => exact makes_error _

theorem makes_remainder (origin : Origin) : MakesScoped K (x.remainder origin y) := by
  unfold remainder
  split
  · exact makes_calculate (fun _ _ => makes_unless (makes_ok .int)) _ _
  · exact makes_error _

theorem makes_countUp (room : Nat) (origin : Origin) : MakesScoped K (x.countUp room origin) := by
  refine makes_bind fun n => makes_unless (makes_unless (makes_ok (.list fun v hv => ?_)))
  obtain ⟨i, -, rfl⟩ := List.mem_map.mp hv
  exact .int

theorem makes_ord (origin : Origin) : MakesScoped K (x.ord origin) := by
  unfold ord
  split
  · exact makes_ok .int
  · exact makes_error _
  · exact makes_error _

theorem makes_chr (origin : Origin) : MakesScoped K (x.chr origin) :=
  makes_bind fun _ => makes_unless (makes_unless (makes_ok .text))

end Value

end RowLang
