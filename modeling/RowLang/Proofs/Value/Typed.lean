import RowLang.Eval.Basic
import RowLang.Proofs.Typing.Judgement

/-!
# Proofs/Value/Typed — the trees that a value has

A value has a tree relative to what the store holds (`StoreType`): a record has the closed row of
the fields that its address is known to have, and a function the tree of an arrow when its body has
a tree in its scope.  What a value of some tree can be is read off what the tree shows first
(`Shows`).
-/

namespace RowLang

/-- What the store holds: the fields of the records at some addresses. -/
abbrev StoreType := Nat → Option (Label → Option Tree)

/-- More records are known. -/
def StoreType.Le (M M' : StoreType) : Prop := ∀ a f, M a = some f → M' a = some f

theorem StoreType.Le.refl (M : StoreType) : M.Le M := fun _ _ h => h

theorem StoreType.Le.trans {M M' M'' : StoreType} (h : M.Le M') (h' : M'.Le M'') : M.Le M'' :=
  fun a f ha => h' a f (h a f ha)

/-- The tree of a function of several arguments, one after the other. -/
def Tree.arrows (args : List Tree) (res : Tree) : Tree := args.foldr Tree.arrow res

open RowLang.Tree in
/-- **A value has a tree.** -/
inductive Value.HasTree (M : StoreType) : Value → Tree → Prop
  | int {o i} : HasTree M (.int o i) (leaf .number)
  | real {o x} : HasTree M (.real o x) (leaf .number)
  | text {o c} : HasTree M (.text o [c]) (leaf .char)
  | list {o items a} : (∀ v ∈ items, HasTree M v a) → HasTree M (.list o items) (Tree.list a)
  | tagged {o tag payload x t} : x.HasField .variant tag.label t → HasTree M payload t →
      HasTree M (.tagged o tag payload) x
  | record {a f} : M a = some f → HasTree M (.record a) (closed .record f)
  | operator {o x} : o.HasTree x → HasTree M (.operator o) x
  | waiting {origin o args x} (trees : List Tree) : o.HasTree (arrows trees x) →
      args.length = trees.length → args.length < Eval.arity o →
      (∀ p ∈ args.zip trees, HasTree M p.1 p.2) → HasTree M (.waiting origin o args) x
  | tagger {o tag payload x} : x.HasField .variant tag.label payload →
      HasTree M (.tagger o tag) (arrow payload x)
  | closure {o env p code Γ Γ' a b} (values : String → Value) :
      (∀ n x, Γ.lookup n = some x → env.fetch? n = some (values n)) →
      (∀ n x, Γ.lookup n = some x → HasTree M (values n) x) →
      p.Binds Γ a Γ' → code.expr.HasTree Γ' b → HasTree M (.closure o env p code) (arrow a b)
  | dispatcher {o env handlers Γ f res} (values : String → Value) :
      (∀ n x, Γ.lookup n = some x → env.fetch? n = some (values n)) →
      (∀ n x, Γ.lookup n = some x → HasTree M (values n) x) →
      (∀ l t, f l = some t → ∃ code, Row.get? handlers l = some code ∧
        code.expr.HasTree Γ (arrow t res)) →
      HasTree M (.dispatcher o env handlers) (arrow (closed .variant f) res)

/-- Every name of a context stands for a value of its tree. -/
def Env.HasTrees (M : StoreType) (env : Env) (Γ : TreeContext) : Prop :=
  ∀ n x, Γ.lookup n = some x → ∃ v, env.fetch? n = some v ∧ v.HasTree M x

namespace Value

variable {M M' : StoreType} {v : Value} {x : Tree}

/-- **What is known of a value stays known** when more records are. -/
theorem HasTree.mono (h : v.HasTree M x) (hM : M.Le M') : v.HasTree M' x := by
  induction h with
  | int => exact .int
  | real => exact .real
  | text => exact .text
  | list _ ih => exact .list ih
  | tagged hf _ ih => exact .tagged hf ih
  | record ha => exact .record (hM _ _ ha)
  | operator ho => exact .operator ho
  | waiting trees ho hlen harity _ ih => exact .waiting trees ho hlen harity ih
  | tagger hf => exact .tagger hf
  | closure values hfetch _ hp hbody ih => exact .closure values hfetch ih hp hbody
  | dispatcher values hfetch _ hh ih => exact .dispatcher values hfetch ih hh

/-! ## Functions and their scopes -/

theorem hasTrees_iff {env : Env} {Γ : TreeContext} : Env.HasTrees M env Γ ↔
    ∃ values : String → Value, (∀ n x, Γ.lookup n = some x → env.fetch? n = some (values n)) ∧
      ∀ n x, Γ.lookup n = some x → (values n).HasTree M x := by
  constructor
  · intro h
    refine ⟨fun n => (env.fetch? n).getD default, fun n x hx => ?_, fun n x hx => ?_⟩
    · obtain ⟨v, hv, -⟩ := h n x hx
      simp [hv]
    · obtain ⟨v, hv, ht⟩ := h n x hx
      simpa [hv] using ht
  · rintro ⟨values, hfetch, ht⟩ n x hx
    exact ⟨values n, hfetch n x hx, ht n x hx⟩

theorem hasTree_closure {o : Origin} {env : Env} {p : Pattern} {code : Code} {Γ Γ' : TreeContext}
    {a b : Tree} (henv : Env.HasTrees M env Γ) (hp : p.Binds Γ a Γ')
    (hbody : code.expr.HasTree Γ' b) : (closure o env p code).HasTree M (.arrow a b) := by
  obtain ⟨values, hfetch, ht⟩ := hasTrees_iff.mp henv
  exact .closure values hfetch ht hp hbody

theorem hasTree_dispatcher {o : Origin} {env : Env} {handlers : Row Code} {Γ : TreeContext}
    {f : Label → Option Tree} {res : Tree} (henv : Env.HasTrees M env Γ)
    (hh : ∀ l t, f l = some t → ∃ code, Row.get? handlers l = some code ∧
      code.expr.HasTree Γ (.arrow t res)) :
    (dispatcher o env handlers).HasTree M (.arrow (.closed .variant f) res) := by
  obtain ⟨values, hfetch, ht⟩ := hasTrees_iff.mp henv
  exact .dispatcher values hfetch ht hh

/-! ## What a value of some tree is -/

/-- What a value shows of its tree first. -/
@[grind] def Shows : Value → Shape → Prop
  | int .., s | real .., s => s = .number
  | text .., s => s = .char
  | list .., s => ∃ t, s = .list t
  | tuple .., _ => False
  | tagged .., s => ∃ inner rest, s = .row .variant inner rest
  | record _, s => ∃ inner rest, s = .row .record inner rest
  | _, s => ∃ a b, s = .arrow a b

/-- An operator that has not all its arguments yet is a function. -/
theorem shows_of_lt_arity {o : Operator} {trees : List Tree}
    (h : o.HasTree (.arrows trees x)) (hlt : trees.length < Eval.arity o) :
    ∃ a b, x 1 = .arrow a b := by
  have hshape : ∀ {y a b : Tree}, Tree.arrow a b = .arrow y x → x = b := fun he =>
    (Tree.arrow_inj he).2.symm
  cases o with
  | map =>
    obtain ⟨a, b, he⟩ := h
    match trees, hlt with
    | [], _ => exact ⟨_, _, congrFun he 1⟩
    | [y], _ => exact ⟨_, _, congrFun (hshape he.symm) 1⟩
  | filter =>
    obtain ⟨a, he⟩ := h
    match trees, hlt with
    | [], _ => exact ⟨_, _, congrFun he 1⟩
    | [y], _ => exact ⟨_, _, congrFun (hshape he.symm) 1⟩
  | fold =>
    obtain ⟨a, b, he⟩ := h
    match trees, hlt with
    | [], _ => exact ⟨_, _, congrFun he 1⟩
    | [y], _ => exact ⟨_, _, congrFun (hshape he.symm) 1⟩
    | [y, z], _ => exact ⟨_, _, congrFun (hshape (Tree.arrow_inj he.symm).2) 1⟩
  | append | size =>
    obtain ⟨a, he⟩ := h
    match trees, hlt with
    | [], _ => exact ⟨_, _, congrFun he 1⟩
  | _ =>
    match trees, hlt with
    | [], _ => exact ⟨_, _, congrFun h 1⟩

theorem HasTree.shows (h : v.HasTree M x) : v.Shows (x 1) := by
  cases h with
  | int | real | text => rfl
  | list => exact ⟨_, rfl⟩
  | tagged hf _ =>
    obtain ⟨inner, rest, hx, -⟩ := hf 0
    exact ⟨inner, rest, hx⟩
  | record => exact ⟨_, _, rfl⟩
  | @operator o x ho =>
    have harity : ([] : List Tree).length < Eval.arity o := by cases o <;> decide
    exact shows_of_lt_arity ho harity
  | waiting trees ho hlen harity _ => exact shows_of_lt_arity ho (hlen ▸ harity)
  | tagger | closure | dispatcher => exact ⟨_, _, rfl⟩

theorem HasTree.exists_number (h : v.HasTree M (.leaf .number)) : ∃ m, v.number? = some m := by
  have hs := h.shows
  cases v <;> simp [Shows, Tree.leaf] at hs
  · exact ⟨_, rfl⟩
  · exact ⟨_, rfl⟩

theorem HasTree.exists_char (h : v.HasTree M (.leaf .char)) : ∃ o c, v = Value.text o [c] := by
  have hs := h.shows
  cases v <;> simp [Shows, Tree.leaf] at hs
  generalize Tree.leaf .char = x at h
  cases h
  exact ⟨_, _, rfl⟩

theorem HasTree.exists_list {a : Tree} (h : v.HasTree M (.list a)) :
    ∃ o items, v = Value.list o items ∧ ∀ w ∈ items, w.HasTree M a := by
  have hs := h.shows
  cases v <;> simp [Shows, Tree.list] at hs
  generalize hx : Tree.list a = x at h
  cases h with
  | list hitems => exact ⟨_, _, rfl, Tree.list_inj hx ▸ hitems⟩

theorem HasTree.exists_record {l : Label} {t : Tree} (h : v.HasTree M x)
    (hf : x.HasField .record l t) : ∃ a f, v = Value.record a ∧ M a = some f ∧ f l = some t := by
  have hs := h.shows
  obtain ⟨inner, rest, hx, -⟩ := hf 0
  rw [hx] at hs
  cases v <;> simp [Shows] at hs
  cases h with
  | record ha => exact ⟨_, _, rfl, ha, Tree.hasField_closed.mp hf⟩

theorem HasTree.exists_tagged {f : Label → Option Tree} (h : v.HasTree M (.closed .variant f)) :
    ∃ o tag payload t, v = Value.tagged o tag payload ∧ f tag.label = some t ∧
      payload.HasTree M t := by
  have hs := h.shows
  obtain ⟨rest, hx⟩ := Tree.closed_succ .variant f 0
  rw [hx] at hs
  cases v <;> simp [Shows] at hs
  generalize hy : Tree.closed .variant f = y at h
  cases h with
  | tagged hf hp => exact ⟨_, _, _, _, rfl, Tree.hasField_closed.mp (hy ▸ hf), hp⟩

end Value

end RowLang
