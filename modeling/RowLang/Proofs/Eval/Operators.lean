import RowLang.Proofs.Eval.Runs

/-!
# Proofs/Eval/Operators — operators applied to what they are for

On numbers, characters and lists an operator yields what its type says, or a fault that no type
could have prevented.
-/

namespace RowLang.Eval

open Value

variable {M : StoreType} {α : Type}

/-- Something of a tree, or a fault that no type could have prevented. -/
def YieldsTree (M : StoreType) (r : Except Fault Value) (x : Tree) : Prop :=
  Yields (fun v => v.HasTree M x) r

/-- What goes on from a yield yields what it yields from each one. -/
theorem yields_bind {P : α → Prop} {β : Type} {Q : β → Prop} {r : Except Fault α}
    {f : α → Except Fault β} (h : Yields P r) (hf : ∀ x, P x → Yields Q (f x)) :
    Yields Q (r >>= f) := by
  cases r with
  | ok x => exact hf x h
  | error e => exact h

/-! ## Numbers -/

theorem yields_toReal (i : Int) : Yields (fun _ => True) (Value.toReal i) := by
  unfold Value.toReal
  split
  · trivial
  · exact yields_error (by decide)

/-- A calculation on two numbers gives a number if it does on integers, and no wrong type is told of
reals. -/
theorem yields_calculate {origin : Origin} {onInts : Int → Int → Except Fault Value}
    {onReals : Binary64 → Binary64 → Except Fault Binary64}
    (hints : ∀ i j, YieldsTree M (onInts i j) (.leaf .number))
    (hreals : ∀ a b, Yields (fun _ => True) (onReals a b)) (m n : Numeral) :
    YieldsTree M (Value.calculate origin onInts onReals m n) (.leaf .number) := by
  cases m with
  | int i =>
    cases n with
    | int j => exact hints i j
    | real b =>
      exact yields_bind (yields_toReal i) fun a _ => yields_bind (hreals a b) fun _ _ => .real
  | real a =>
    cases n with
    | int j =>
      exact yields_bind (yields_toReal j) fun b _ => yields_bind (hreals a b) fun _ _ => .real
    | real b => exact yields_bind (hreals a b) fun _ _ => .real

/-- Calculations that have no exceptions. -/
private theorem yields_exact {origin : Origin} (g : Int → Int → Int)
    (g' : Binary64 → Binary64 → Binary64) (m n : Numeral) :
    YieldsTree M (Value.calculate origin (fun i j => .ok (int origin (g i j)))
      (fun a b => .ok (g' a b)) m n) (.leaf .number) := by
  refine yields_calculate ?_ ?_ m n
  exacts [fun _ _ => HasTree.int, fun _ _ => trivial]

/-- **Numbers add up to a number**, and so it is with the other operations. -/
theorem yields_add {origin : Origin} {x y : Value} (hx : x.HasTree M (.leaf .number))
    (hy : y.HasTree M (.leaf .number)) : YieldsTree M (x.add origin y) (.leaf .number) := by
  obtain ⟨m, hm⟩ := hx.exists_number
  obtain ⟨n, hn⟩ := hy.exists_number
  simp only [Value.add, hm, hn]
  exact yields_exact _ _ m n

theorem yields_subtract {origin : Origin} {x y : Value} (hx : x.HasTree M (.leaf .number))
    (hy : y.HasTree M (.leaf .number)) : YieldsTree M (x.subtract origin y) (.leaf .number) := by
  obtain ⟨m, hm⟩ := hx.exists_number
  obtain ⟨n, hn⟩ := hy.exists_number
  simp only [Value.subtract, hm, hn]
  exact yields_exact _ _ m n

theorem yields_multiply {room : Nat} {origin : Origin} {x y : Value}
    (hx : x.HasTree M (.leaf .number)) (hy : y.HasTree M (.leaf .number)) :
    YieldsTree M (x.multiply room origin y) (.leaf .number) := by
  obtain ⟨m, hm⟩ := hx.exists_number
  obtain ⟨n, hn⟩ := hy.exists_number
  simp only [Value.multiply, hm, hn]
  exact yields_exact _ _ m n

/-- A calculation on reals that zero has no part in. -/
private theorem yields_unless_zero {b r : Binary64} {f : Fault} (h : f.category ≠ .wrongType) :
    Yields (fun _ => True) (if b.isZero then .error f else .ok r : Except Fault Binary64) := by
  split
  · exact h
  · trivial

theorem yields_divide {origin : Origin} {x y : Value} (hx : x.HasTree M (.leaf .number))
    (hy : y.HasTree M (.leaf .number)) : YieldsTree M (x.divide origin y) (.leaf .number) := by
  obtain ⟨m, hm⟩ := hx.exists_number
  obtain ⟨n, hn⟩ := hy.exists_number
  simp only [Value.divide, hm, hn]
  refine yields_calculate (fun i j => ?_) (fun _ _ => yields_unless_zero (by decide)) m n
  split
  · exact yields_error (by decide)
  · split
    · exact HasTree.real
    · exact yields_error (by decide)

theorem yields_remainder {origin : Origin} {x y : Value} (hx : x.HasTree M (.leaf .number))
    (hy : y.HasTree M (.leaf .number)) : YieldsTree M (x.remainder origin y) (.leaf .number) := by
  obtain ⟨m, hm⟩ := hx.exists_number
  obtain ⟨n, hn⟩ := hy.exists_number
  simp only [Value.remainder, hm, hn]
  refine yields_calculate (fun i j => ?_) (fun _ _ => yields_unless_zero (by decide)) m n
  split
  · exact yields_error (by decide)
  · exact HasTree.int

/-- Numbers have an order, or an undefined one among them. -/
theorem yields_less {x y : Value} (hx : x.HasTree M (.leaf .number))
    (hy : y.HasTree M (.leaf .number)) : Yields (fun _ => True) (x.less y) := by
  obtain ⟨m, hm⟩ := hx.exists_number
  obtain ⟨n, hn⟩ := hy.exists_number
  cases x <;> simp [Value.number?] at hm <;> cases y <;> simp [Value.number?] at hn <;> trivial

theorem yields_toInt {x : Value} (hx : x.HasTree M (.leaf .number)) :
    Yields (fun _ => True) x.toInt := by
  obtain ⟨m, hm⟩ := hx.exists_number
  cases x <;> simp [Value.number?] at hm
  case int => trivial
  case real o x =>
    cases x with
    | undefined | infinite => exact yields_error (by decide)
    | _ => trivial

/-- Counting up yields a list of numbers. -/
theorem yields_countUp {room : Nat} {origin : Origin} {x : Value}
    (hx : x.HasTree M (.leaf .number)) :
    YieldsTree M (x.countUp room origin) (.list (.leaf .number)) := by
  refine yields_bind (yields_toInt hx) fun n _ => ?_
  split
  · exact yields_error (by decide)
  split
  · exact yields_error (by decide)
  refine HasTree.list fun v hv => ?_
  obtain ⟨i, -, rfl⟩ := List.mem_map.mp hv
  exact .int

theorem yields_chr {origin : Origin} {x : Value} (hx : x.HasTree M (.leaf .number)) :
    YieldsTree M (x.chr origin) (.leaf .char) := by
  refine yields_bind (yields_toInt hx) fun n _ => ?_
  split
  · exact yields_error (by decide)
  split
  · exact yields_error (by decide)
  exact HasTree.text

theorem yields_ord {origin : Origin} {x : Value} (hx : x.HasTree M (.leaf .char)) :
    YieldsTree M (x.ord origin) (.leaf .number) := by
  obtain ⟨o, c, rfl⟩ := hx.exists_char
  exact HasTree.int

/-! ## Lists and verdicts -/

/-- Lists of one type are joined to a list of it. -/
theorem yields_append {origin : Origin} {x y : Value} {a : Tree} (hx : x.HasTree M (.list a))
    (hy : y.HasTree M (.list a)) : YieldsTree M (x.add origin y) (.list a) := by
  obtain ⟨o, xs, rfl, hxs⟩ := hx.exists_list
  obtain ⟨o', ys, rfl, hys⟩ := hy.exists_list
  exact HasTree.list fun v hv => (List.mem_append.mp hv).elim (hxs v) (hys v)

/-- A verdict has its tree wherever the empty record that verdicts share is known. -/
theorem hasTree_verdict {origin : Origin} {b : Bool}
    (hshared : M sharedEmpty = some fun _ => none) : (verdict origin b).HasTree M .verdict := by
  have hempty : (record sharedEmpty).HasTree M .emptyRecord := .record hshared
  cases b with
  | true => exact .tagged (Tree.hasField_closed.mpr rfl) hempty
  | false => exact .tagged (Tree.hasField_closed.mpr rfl) hempty

/-- A verdict can be read. -/
theorem runs_verdictOf {v : Value} (h : v.HasTree M .verdict) :
    Runs M (verdictOf .plain v) fun _ _ => True := by
  obtain ⟨o, ⟨l, place⟩, payload, t, rfl, hl, -⟩ := h.exists_tagged
  have hlabel : l = "false" ∨ l = "true" := by
    by_contra hne
    rw [not_or] at hne
    simp [hne.1, hne.2] at hl
  rcases hlabel with rfl | rfl <;> exact runs_pure trivial

/-- A list has items of its type. -/
theorem runs_entries {v : Value} {a : Tree} (h : v.HasTree M (.list a)) :
    Runs M (entries v) fun M' items => ∀ w ∈ items, w.HasTree M' a := by
  obtain ⟨o, items, rfl, hitems⟩ := h.exists_list
  exact runs_pure hitems

theorem runs_sizeOf {v : Value} {a : Tree} (h : v.HasTree M (.list a)) :
    Runs M (sizeOf v) fun M' n => n.HasTree M' (.leaf .number) := by
  obtain ⟨o, items, rfl, -⟩ := h.exists_list
  exact runs_birth fun _ => runs_pure .int

/-! ## Binary operators -/

/-- A pair of types has two parts. -/
theorem pair_inj {a b c d : Tree} (h : Tree.pair a b = Tree.pair c d) : a = c ∧ b = d := by
  have hfields := Tree.closed_inj h
  exact ⟨Option.some.inj (congrFun hfields "0"), Option.some.inj (congrFun hfields "1")⟩

/-- **A binary operator calculates with what it is for.** -/
theorem runs_calculate {lookup : Nat → Label → Evaluating Value} {o : Operator} {a b t : Tree}
    {x y : Value} (ho : o.HasTree (.arrow (.pair a b) t)) (hx : x.HasTree M a)
    (hy : y.HasTree M b) :
    Runs M (calculate .plain lookup o x y) fun M' v => v.HasTree M' t := by
  refine runs_birth fun origin => ?_
  cases o with
  | plus =>
    obtain ⟨hab, rfl⟩ := Tree.arrow_inj ho
    obtain ⟨rfl, rfl⟩ := pair_inj hab
    exact runs_faulty (yields_add hx hy)
  | minus =>
    obtain ⟨hab, rfl⟩ := Tree.arrow_inj ho
    obtain ⟨rfl, rfl⟩ := pair_inj hab
    exact runs_faulty (yields_subtract hx hy)
  | times =>
    obtain ⟨hab, rfl⟩ := Tree.arrow_inj ho
    obtain ⟨rfl, rfl⟩ := pair_inj hab
    exact runs_room fun _ => runs_faulty (yields_multiply hx hy)
  | divide =>
    obtain ⟨hab, rfl⟩ := Tree.arrow_inj ho
    obtain ⟨rfl, rfl⟩ := pair_inj hab
    exact runs_faulty (yields_divide hx hy)
  | modulo =>
    obtain ⟨hab, rfl⟩ := Tree.arrow_inj ho
    obtain ⟨rfl, rfl⟩ := pair_inj hab
    -- Only a text is filled in, and a number is none.
    obtain ⟨m, hm⟩ := hx.exists_number
    cases x <;> simp [Value.number?] at hm <;> exact runs_faulty (yields_remainder hx hy)
  | append =>
    obtain ⟨e, ho⟩ := ho
    obtain ⟨hab, rfl⟩ := Tree.arrow_inj ho
    obtain ⟨rfl, rfl⟩ := pair_inj hab
    exact runs_faulty (yields_append hx hy)
  | eq =>
    obtain ⟨hab, rfl⟩ := Tree.arrow_inj ho
    exact runs_of_shared fun hshared => runs_pure (hasTree_verdict hshared)
  | lt =>
    obtain ⟨hab, rfl⟩ := Tree.arrow_inj ho
    obtain ⟨rfl, rfl⟩ := pair_inj hab
    have hless : Runs M (World.faulty _) fun _ _ => True := runs_faulty (yields_less hx hy)
    exact hless.bind fun M' _ _ _ => runs_of_shared fun hshared =>
      runs_pure (hasTree_verdict hshared)
  | ord | chr | countUp => cases congrFun (Tree.arrow_inj ho).1 1
  | size =>
    obtain ⟨e, ho⟩ := ho
    cases congrFun (Tree.arrow_inj ho).1 1
  | filter =>
    obtain ⟨e, ho⟩ := ho
    cases congrFun (Tree.arrow_inj ho).1 1
  | map | fold =>
    obtain ⟨e, e', ho⟩ := ho
    cases congrFun (Tree.arrow_inj ho).1 1

end RowLang.Eval
