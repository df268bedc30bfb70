/-!
# Scope — names in a chain of frames

A scope is a chain of small frames, innermost first, over a root that binds no name and holds what
all of them share.  Extending a scope never disturbs the one it extends.
-/

namespace RowLang

/-- Frames of names with values, over a root of type `ρ`. -/
structure Scope (ρ α : Type) where
  root : ρ
  frames : List (List (String × α))
  deriving Repr, Inhabited

namespace Scope

variable {ρ α : Type}

/-- The scope that binds nothing. -/
def ofRoot (root : ρ) : Scope ρ α := ⟨root, []⟩

/-- The scope with one more frame; a frame without names is not added. -/
def extend (s : Scope ρ α) (bindings : List (String × α)) : Scope ρ α :=
  if bindings.isEmpty then s else { s with frames := bindings :: s.frames }

/-- The value of a name, from the innermost frame that has it. -/
def fetch? (s : Scope ρ α) (name : String) : Option α :=
  s.frames.findSome? fun frame => frame.lookup name

@[simp] theorem extend_nil (s : Scope ρ α) : s.extend [] = s := rfl

@[simp] theorem root_extend (s : Scope ρ α) (bs : List (String × α)) :
    (s.extend bs).root = s.root := by
  unfold extend
  split <;> rfl

/-- **A name of the new frame hides the same name further out.** -/
theorem fetch?_extend (s : Scope ρ α) (bs : List (String × α)) (name : String) :
    (s.extend bs).fetch? name = (bs.lookup name).or (s.fetch? name) := by
  cases bs with
  | nil => rfl
  | cons b bs =>
    simp only [extend, List.isEmpty_cons, Bool.false_eq_true, ↓reduceIte, fetch?,
      List.findSome?_cons]
    cases List.lookup name (b :: bs) <;> rfl

end Scope

end RowLang
