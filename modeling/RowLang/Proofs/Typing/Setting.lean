import RowLang.Proofs.Ty.Placed
import RowLang.Typing.Infer

/-!
# Proofs/Typing/Setting — what one knows in the course of a walk

When a walk over an expression has come to some point, variables are known, and equalities that the
trees which they stand for shall satisfy have been demanded (`Setting`).  A deduction is `Safe` when
every equality that it demands is one of good types in one place, whatever the solver comes to know
meanwhile, provided each fresh variable gets the role that the deduction has for it; and what it
finds may be judged by all trees that satisfy what is demanded by then (`Solved`).
-/

namespace RowLang

open Ty

/-- What one knows at some point: the variables, and what their trees shall satisfy. -/
structure Setting extends Census where
  holds : (Nat → Tree) → Prop

namespace Setting

variable {S S' S'' : Setting} {ρ : Nat → Tree}

/-- One knows more. -/
structure Le (S S' : Setting) : Prop where
  census : S.toCensus.Le S'.toCensus
  holds : ∀ ρ, S'.holds ρ → S.holds ρ

theorem Le.refl (S : Setting) : S.Le S := ⟨.refl _, fun _ h => h⟩

theorem Le.trans (h : S.Le S') (h' : S'.Le S'') : S.Le S'' :=
  ⟨h.census.trans h'.census, fun ρ hρ => h.holds ρ (h'.holds ρ hρ)⟩

theorem Le.labels (h : S.Le S') : S'.labels = S.labels := h.census.labels

/-- Trees that keep to their places and satisfy all that one knows. -/
structure Solved (S : Setting) (ρ : Nat → Tree) : Prop where
  holds : S.holds ρ
  placed : PlacedAll S.toCensus ρ

theorem Le.solved (h : S.Le S') (hρ : S'.Solved ρ) : S.Solved ρ :=
  ⟨h.holds ρ hρ.holds, fun v hv => h.census.role v (Or.inl hv) ▸ hρ.placed v (h.census.free v hv)⟩

end Setting

namespace Deduction

variable {α β : Type} {S : Setting} {post : Setting → α → Prop} {post' : Setting → β → Prop}

/-- Every demand is one of good types in one place, and what is found satisfies `post`. -/
def Safe (post : Setting → α → Prop) : Deduction α → Setting → Prop
  | done x, S => post S x
  | unbound _, _ => True
  | fresh next, S => ∃ r, ∀ S' n, S.Le S' → S'.free n → S'.role n = r → Safe post (next n) S'
  | replace σ t next, S => t.CatchesNone σ ∧ Safe post (next (t.substitute σ)) S
  | agree s t next, S => (∃ r, s.Good S.toCensus r ∧ t.Good S.toCensus r) ∧
      ∀ S', S.Le S' → (∀ ρ, S'.Solved ρ → s.tree ρ = t.tree ρ) → Safe post next S'

/-- One safe deduction after another. -/
theorem Safe.bind {d : Deduction α} {f : α → Deduction β} : ∀ {S}, d.Safe post S →
    (∀ S' x, S.Le S' → post S' x → (f x).Safe post' S') → Safe post' (d >>= f) S := by
  show ∀ {S}, d.Safe post S → _ → Safe post' (d.bind f) S
  induction d with
  | done x => exact fun {S} h hf => hf S x (.refl S) h
  | unbound name => exact fun _ _ => trivial
  | fresh next ih =>
    rintro S ⟨r, h⟩ hf
    exact ⟨r, fun S' n hle hn hr => ih n (h S' n hle hn hr) fun S'' x hle' =>
      hf S'' x (hle.trans hle')⟩
  | replace σ t next ih => exact fun h hf => ⟨h.1, ih _ h.2 hf⟩
  | agree s t next ih =>
    rintro S ⟨hgood, h⟩ hf
    exact ⟨hgood, fun S' hle heq => ih (h S' hle heq) fun S'' x hle' => hf S'' x (hle.trans hle')⟩

/-- What a safe deduction finds satisfies all that follows from what it was to satisfy. -/
theorem Safe.weaken {post' : Setting → α → Prop} {d : Deduction α} : ∀ {S}, d.Safe post S →
    (∀ S' x, S.Le S' → post S' x → post' S' x) → d.Safe post' S := by
  induction d with
  | done x => exact fun {S} h hpost => hpost S x (.refl S) h
  | unbound name => exact fun _ _ => trivial
  | fresh next ih =>
    rintro S ⟨r, h⟩ hpost
    exact ⟨r, fun S' n hle hn hr => ih n (h S' n hle hn hr) fun S'' x hle' =>
      hpost S'' x (hle.trans hle')⟩
  | replace σ t next ih => exact fun h hpost => ⟨h.1, ih _ h.2 hpost⟩
  | agree s t next ih =>
    rintro S ⟨hgood, h⟩ hpost
    exact ⟨hgood, fun S' hle heq => ih (h S' hle heq) fun S'' x hle' => hpost S'' x
      (hle.trans hle')⟩

/-- A fresh variable may have any role. -/
theorem safe_fresh {f : Ty → Deduction β} (r : Role)
    (h : ∀ S' n, S.Le S' → (var n).Good S'.toCensus r → (f (var n)).Safe post' S') :
    Safe post' (freshVar >>= f) S :=
  ⟨r, fun S' n hle hn hr => h S' n hle (hr ▸ good_var hn)⟩

theorem safe_demand {s t : Ty} {r : Role} {f : Unit → Deduction β} (hs : s.Good S.toCensus r)
    (ht : t.Good S.toCensus r)
    (h : ∀ S', S.Le S' → (∀ ρ, S'.Solved ρ → s.tree ρ = t.tree ρ) → (f ()).Safe post' S') :
    Safe post' (demand s t >>= f) S := ⟨⟨r, hs, ht⟩, h⟩

/-- Good types have no quantifiers to strip, and nothing is replaced in them. -/
theorem safe_instantiate {post : Setting → Ty → Prop} {t : Ty} (h : t.Good S.toCensus .whole)
    (ht : post S t) :
    Safe post (instantiate t) S := by
  have hdone : Safe post (replace [] t done) S :=
    ⟨fun _ _ _ _ hu => by simp at hu, (substitute_nil t).symm ▸ ht⟩
  cases t with
  | bind b n body =>
    cases b with
    | forAll => exact h.fits.elim
    | mu => exact hdone
  | _ => exact hdone

end Deduction

end RowLang
