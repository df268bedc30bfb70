import RowLang.Proofs.Ty.Likeness

/-!
# Proofs/Ty/Good — types that a solver works with

A type is `Good` for a role when it fits it and its free variables are those that may yet become any
type, so that no binder can catch one.  Flattening, unfolding and substitution of good types give
good types, and their parts are good.
-/

namespace RowLang.Ty

variable {K K' : Census} {r : Role}

theorem Fits.mono {t : Ty} (h : Fits K r t) (hK : K.Le K') : Fits K' r t :=
  h.transfer hK.labels fun v hv =>
    ⟨hK.role v (hv.elim h.known_of_mem fun hb => Or.inr (h.bound_of_mem hb)), hK.free v, hK.bound v⟩

/-- A type in its place, with no variable but those that may become any type. -/
structure Good (K : Census) (r : Role) (t : Ty) : Prop where
  fits : Fits K r t
  closed : ∀ v ∈ t.free, K.free v

theorem Good.mono {t : Ty} (h : t.Good K r) (hK : K.Le K') : t.Good K' r :=
  ⟨h.fits.mono hK, fun v hv => hK.free v (h.closed v hv)⟩

theorem Good.tidy {t : Ty} (h : t.Good K r) : t.Tidy := h.fits.tidy

theorem good_var {n : Nat} (h : K.free n) : (var n).Good K (K.role n) :=
  ⟨⟨rfl, Or.inl h⟩, fun v hv => by rw [free_var, List.mem_singleton] at hv; exact hv ▸ h⟩

theorem good_end (K : Census) (k : RowKind) (room : Finset Label) :
    k.end.Good K (.tail k room) :=
  ⟨fits_end K k room, by cases k <;> simp [RowKind.end, free]⟩

theorem good_arrow {a b : Ty} : (arrow a b).Good K r ↔
    r = .whole ∧ a.Good K .whole ∧ b.Good K .whole := by
  constructor
  · intro h
    exact ⟨h.fits.1, ⟨h.fits.2.1, fun v hv => h.closed v (mem_free_arrow.mpr (Or.inl hv))⟩,
      h.fits.2.2, fun v hv => h.closed v (mem_free_arrow.mpr (Or.inr hv))⟩
  · rintro ⟨hr, ha, hb⟩
    exact ⟨⟨hr, ha.fits, hb.fits⟩, fun v hv => (mem_free_arrow.mp hv).elim (ha.closed v)
      (hb.closed v)⟩

theorem good_list {t : Ty} : (list t).Good K r ↔ r = .whole ∧ t.Good K .whole := by
  constructor
  · intro h
    exact ⟨h.fits.1, h.fits.2, fun v hv => h.closed v (by rwa [free_list])⟩
  · rintro ⟨hr, ht⟩
    exact ⟨⟨hr, ht.fits⟩, fun v hv => ht.closed v (by rwa [free_list] at hv)⟩

theorem good_row {k : RowKind} {fields : Row Ty} {tail : Ty} : (row k fields tail).Good K r ↔
    r.Admits k fields ∧ Row.Tidy fields ∧ Row.domain fields ⊆ r.room K.labels ∧
      (∀ p ∈ fields, p.2.Good K .whole) ∧ tail.Good K (r.behind K.labels k fields) := by
  constructor
  · intro h
    obtain ⟨hadm, htidy, hroom, hf, ht⟩ := fits_row.mp h.fits
    exact ⟨hadm, htidy, hroom,
      fun p hp => ⟨hf p hp, fun v hv => h.closed v (mem_free_row.mpr (Or.inr ⟨p, hp, hv⟩))⟩,
      ht, fun v hv => h.closed v (mem_free_row.mpr (Or.inl hv))⟩
  · rintro ⟨hadm, htidy, hroom, hf, ht⟩
    exact ⟨fits_row.mpr ⟨hadm, htidy, hroom, fun p hp => (hf p hp).fits, ht.fits⟩, fun v hv =>
      (mem_free_row.mp hv).elim (ht.closed v) fun ⟨p, hp, hv⟩ => (hf p hp).closed v hv⟩

theorem Good.flatten {t : Ty} (h : t.Good K r) : t.flatten.Good K r :=
  ⟨h.fits.flatten, fun v hv => h.closed v (mem_free_flatten hv)⟩

theorem Alike.good {s t : Ty} (h : Alike s t) (hs : s.Good K r) (ht : t.Good K r') :
    t.Good K r := ⟨h.fits hs.fits, ht.closed⟩

/-- No binder of a type in its place catches a variable of good types. -/
theorem Fits.catchesNone {t : Ty} (h : Fits K r t) {σ : Subst}
    (hσ : ∀ v u, σ.lookup v = some u → ∀ w ∈ u.free, K.free w) : t.CatchesNone σ :=
  fun q hq v u hu hmem => K.disjoint q (hσ v u hu q hmem) (h.bound_of_mem hq)

/-- **Unfolding keeps a type in its place.** -/
theorem Good.unfold {p : Nat} {body : Ty} (h : (bind .mu p body).Good K r) :
    (unfold p body).Good K r := by
  obtain ⟨hrole, hbound, hbody, -⟩ := h.fits
  have hlookup : ∀ {v u}, List.lookup v [(p, bind .mu p body)] = some u →
      v = p ∧ u = bind .mu p body := by
    intro v u hu
    rw [Row.lookup_single] at hu
    split at hu
    case isTrue hv => exact ⟨hv, (Option.some.inj hu).symm⟩
    case isFalse => simp at hu
  constructor
  · refine hbody.substitute (hbody.catchesNone fun v u hu => ?_)
      (fun v u hu => ?_) fun v u hu _ => ?_
    · rw [(hlookup hu).2]
      exact h.closed
    · rw [(hlookup hu).1, (hlookup hu).2, hrole]
      exact h.fits
    · rw [(hlookup hu).1, (hlookup hu).2, hrole]
      exact ⟨fun w hw hfree => h.fits.rank_lt_of_mem_heads (by simp) hw hfree,
        fun k => by cases k <;> simp [RowKind.end]⟩
  · intro v hv
    rcases mem_free_substitute hv with ⟨hv, hnone⟩ | ⟨u₀, u, _, hu, hv⟩
    · refine h.closed v (mem_free_bind.mpr ⟨hv, fun he => ?_⟩)
      rw [Row.lookup_single, if_pos he] at hnone
      simp at hnone
    · rw [(hlookup hu).2] at hv
      exact h.closed v hv

/-- **A good recursive type has the tree of its unfolding.** -/
theorem Good.tree_unfold {p : Nat} {body : Ty} (h : (bind .mu p body).Good K r)
    (ρ : Nat → Tree) : (Ty.unfold p body).tree ρ = (bind .mu p body).tree ρ := by
  obtain ⟨_, _, hbody, hp, -⟩ := h.fits
  exact Ty.tree_unfold hp
    (fun q hq hmem => K.disjoint q (h.closed q hmem) (hbody.bound_of_mem hq)) ρ

/-- **Substitution of good types for the variables that may become any type.** -/
theorem Good.substitute {t : Ty} (h : t.Good K r) {σ : Subst}
    (hσ : ∀ v u, σ.lookup v = some u → K.free v ∧ u.Good K (K.role v)) :
    (t.substitute σ).Good K r := by
  constructor
  · exact h.fits.substitute (h.fits.catchesNone fun v u hu => (hσ v u hu).2.closed)
      (fun v u hu => (hσ v u hu).2.fits) fun v u hu hb => absurd hb (K.disjoint v (hσ v u hu).1)
  · intro v hv
    rcases mem_free_substitute hv with ⟨hv, _⟩ | ⟨u₀, u, _, hu, hv⟩
    · exact h.closed v hv
    · exact (hσ u₀ u hu).2.closed v hv

/-- A good type that does not hold a variable has no need of it. -/
theorem Good.retire {t : Ty} {n : Nat} (h : t.Good K r) (hn : n ∉ t.free) :
    t.Good (K.retire n) r :=
  ⟨h.fits.transfer (show (K.retire n).labels = K.labels from rfl) fun v hv =>
      ⟨rfl, fun hf => ⟨fun he => by
        subst he
        exact hv.elim hn fun hb => K.disjoint v hf (h.fits.bound_of_mem hb), hf⟩, Or.inr⟩,
    fun v hv => ⟨fun he => hn (he ▸ hv), h.closed v hv⟩⟩

/-- A tail that stands in front of nothing else has its room for good. -/
theorem Fits.tail_unique {t : Ty} {k : RowKind} {room room' : Finset Label}
    (h : Fits K (.tail k room) t) (h' : Fits K (.tail k room') t) (hend : t ≠ k.end)
    (hrow : ∀ k' fields tail, t ≠ row k' fields tail) : room = room' := by
  cases t with
  | number | char | arrow | list => simp [Fits] at h
  | unit => obtain ⟨_, he⟩ := h; cases he; exact absurd rfl hend
  | empty => obtain ⟨_, he⟩ := h; cases he; exact absurd rfl hend
  | var n =>
    have := h.1.symm.trans h'.1
    simpa using this
  | row k' fields tail => exact absurd rfl (hrow _ _ _)
  | bind b p body =>
    cases b with
    | forAll => exact h.elim
    | mu =>
      have := h.1.symm.trans h'.1
      simpa using this

end RowLang.Ty
