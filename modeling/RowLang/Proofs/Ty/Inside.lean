import RowLang.Proofs.Ty.Variables
import Mathlib.Data.Set.Finite.Lattice
import Mathlib.Logic.Relation
import Mathlib.Tactic.Choose

/-!
# Proofs/Ty/Inside — all that occurs in a type

Unfolded again and again a type shows only finitely many others, as long as no variable of it is
both free and bound (`finite_enclosed`): each of them is a part of the type with the binders around
it put in.  So it is whether the tails of rows are counted (`Encloses`) or not (`Occurs`).
-/

namespace RowLang.Ty

/-- What is directly inside a type, and what a recursive type unfolds to. -/
inductive Part : Ty → Ty → Prop
  | arg (a b : Ty) : Part (arrow a b) a
  | res (a b : Ty) : Part (arrow a b) b
  | elt (t : Ty) : Part (list t) t
  | field {k : RowKind} {fields : Row Ty} {tail : Ty} {p : Label × Ty} (h : p ∈ fields) :
      Part (row k fields tail) p.2
  | unfolded (n : Nat) (body : Ty) : Part (bind .mu n body) (unfold n body)

/-- One type occurs in another, unfolded as often as it takes. -/
abbrev Occurs (t u : Ty) : Prop := Relation.ReflTransGen Part t u

/-- What is directly inside a type, the tail of a row included. -/
inductive Encloses : Ty → Ty → Prop
  | part {t u : Ty} (h : Part t u) : Encloses t u
  | tail (k : RowKind) (fields : Row Ty) (tail : Ty) : Encloses (row k fields tail) tail

/-! ## Free and bound -/

/-- Some variables are kept for the binders of a type: the bound ones are among them, and the free
ones are not. -/
structure Reserved (V : Set Nat) (t : Ty) : Prop where
  free : ∀ v ∈ t.free, v ∉ V
  bound : ∀ v ∈ t.binders, v ∈ V

variable {V : Set Nat} {t u : Ty}

theorem lookup_single_eq_some {n v : Nat} {s u : Ty}
    (h : [(n, s)].lookup v = some u) : v = n ∧ u = s := by
  rw [Row.lookup_single] at h
  split at h <;> cases h
  exact ⟨‹_›, rfl⟩

theorem Reserved.unfold {n : Nat} {body : Ty} (h : Reserved V (bind .mu n body)) :
    Reserved V (unfold n body) := by
  constructor
  · intro v hv
    rcases mem_free_substitute hv with ⟨hv, hnone⟩ | ⟨w, s, -, hs, hv⟩
    · refine h.free v (mem_free_bind.mpr ⟨hv, fun he => ?_⟩)
      rw [Row.lookup_single, if_pos he] at hnone
      cases hnone
    · exact h.free v ((lookup_single_eq_some hs).2 ▸ hv)
  · intro v hv
    rcases mem_binders_substitute hv with hv | ⟨w, s, hs, hv⟩
    · exact h.bound v (mem_binders_bind.mpr (Or.inr hv))
    · exact h.bound v ((lookup_single_eq_some hs).2 ▸ hv)

/-- What is kept for the binders of a type is kept for those of what is inside. -/
theorem Encloses.reserved (h : Encloses t u) (ht : Reserved V t) : Reserved V u := by
  cases h with
  | tail k fields tail =>
    exact ⟨fun v hv => ht.free v (mem_free_row.mpr (Or.inl hv)),
      fun v hv => ht.bound v (mem_binders_row.mpr (Or.inl hv))⟩
  | part h =>
    cases h with
    | arg a b =>
      exact ⟨fun v hv => ht.free v (mem_free_arrow.mpr (Or.inl hv)),
        fun v hv => ht.bound v (mem_binders_arrow.mpr (Or.inl hv))⟩
    | res a b =>
      exact ⟨fun v hv => ht.free v (mem_free_arrow.mpr (Or.inr hv)),
        fun v hv => ht.bound v (mem_binders_arrow.mpr (Or.inr hv))⟩
    | elt t => exact ⟨ht.free, ht.bound⟩
    | field hp =>
      exact ⟨fun v hv => ht.free v (mem_free_row.mpr (Or.inr ⟨_, hp, hv⟩)),
        fun v hv => ht.bound v (mem_binders_row.mpr (Or.inr ⟨_, hp, hv⟩))⟩
    | unfolded n body => exact ht.unfold

/-! ## Finitely many types -/

/-- What is put in for bound variables has none of them free. -/
def PutsIn (V : Set Nat) (θ : Subst) : Prop :=
  ∀ v u, θ.lookup v = some u → v ∈ V ∧ ∀ w ∈ u.free, w ∉ V

/-- The parts of a type with the binders around it put in, of which there are finitely many. -/
private theorem exists_parts {t : Ty} : ∀ {θ : Subst}, PutsIn V θ →
    (∀ v ∈ t.free, θ.lookup v = none → v ∉ V) → (∀ v ∈ t.binders, v ∈ V) →
    ∃ G : Set Ty, G.Finite ∧ t.substitute θ ∈ G ∧ ∀ u ∈ G, (∃ v, θ.lookup v = some u) ∨
      ∀ w, Encloses u w → w ∈ G ∨ ∃ v, θ.lookup v = some w := by
  have hleaf : ∀ {θ : Subst} {u : Ty}, (∀ w, ¬ Encloses u w) → ∃ G : Set Ty, G.Finite ∧ u ∈ G ∧
      ∀ u ∈ G, (∃ v, θ.lookup v = some u) ∨ ∀ w, Encloses u w → w ∈ G ∨ ∃ v, θ.lookup v = some w :=
    fun {θ u} hu => ⟨{u}, Set.finite_singleton u, rfl, by
      rintro _ rfl
      exact Or.inr fun w hw => absurd hw (hu w)⟩
  induction t using Ty.inductOn with
  | number | char | unit | empty =>
    intro θ _ _ _
    rw [Ty.substitute]
    exact hleaf (by rintro w (h | h); cases h)
  | var n =>
    intro θ _ _ _
    rw [Ty.substitute]
    cases hn : List.lookup n θ with
    | none => exact hleaf (by rintro w (h | h); cases h)
    | some u => exact ⟨{u}, Set.finite_singleton u, rfl, by rintro _ rfl; exact Or.inl ⟨n, hn⟩⟩
  | arrow a b iha ihb =>
    intro θ hθ hfree hbound
    obtain ⟨G, hG, ha, hparts⟩ := iha hθ (fun v hv => hfree v (mem_free_arrow.mpr (Or.inl hv)))
      fun v hv => hbound v (mem_binders_arrow.mpr (Or.inl hv))
    obtain ⟨G', hG', hb, hparts'⟩ := ihb hθ (fun v hv => hfree v (mem_free_arrow.mpr (Or.inr hv)))
      fun v hv => hbound v (mem_binders_arrow.mpr (Or.inr hv))
    refine ⟨insert ((arrow a b).substitute θ) (G ∪ G'), (hG.union hG').insert _,
      Set.mem_insert _ _, ?_⟩
    rintro u (rfl | hu | hu)
    · refine Or.inr fun w hw => Or.inl (Or.inr ?_)
      rw [Ty.substitute] at hw
      obtain h | h := hw
      cases h
      exacts [Or.inl ha, Or.inr hb]
    · exact (hparts u hu).imp id fun h w hw => (h w hw).imp (fun h => Or.inr (Or.inl h)) id
    · exact (hparts' u hu).imp id fun h w hw => (h w hw).imp (fun h => Or.inr (Or.inr h)) id
  | list t ih =>
    intro θ hθ hfree hbound
    obtain ⟨G, hG, ht, hparts⟩ := ih hθ hfree hbound
    refine ⟨insert ((list t).substitute θ) G, hG.insert _, Set.mem_insert _ _, ?_⟩
    rintro u (rfl | hu)
    · refine Or.inr fun w hw => Or.inl (Or.inr ?_)
      rw [Ty.substitute] at hw
      obtain h | h := hw
      cases h
      exact ht
    · exact (hparts u hu).imp id fun h w hw => (h w hw).imp Or.inr id
  | row k fields tail ihf iht =>
    intro θ hθ hfree hbound
    have hfield :=
      fun p hp => ihf p hp hθ (fun v hv => hfree v (mem_free_row.mpr (Or.inr ⟨p, hp, hv⟩)))
      fun v hv => hbound v (mem_binders_row.mpr (Or.inr ⟨p, hp, hv⟩))
    choose! G hG using hfield
    obtain ⟨G', hG', htail, hparts'⟩ := iht hθ (fun v hv => hfree v (mem_free_row.mpr (Or.inl hv)))
      fun v hv => hbound v (mem_binders_row.mpr (Or.inl hv))
    refine ⟨insert ((row k fields tail).substitute θ) ((⋃ p ∈ {p | p ∈ fields}, G p) ∪ G'),
      (((List.finite_toSet fields).biUnion fun p hp => (hG p hp).1).union hG').insert _,
      Set.mem_insert _ _, ?_⟩
    rintro u (rfl | hu | hu)
    · refine Or.inr fun w hw => Or.inl (Or.inr ?_)
      rw [Ty.substitute, substituteFields_eq_map] at hw
      obtain h | h := hw
      · obtain ⟨q, hq, rfl⟩ : ∃ q ∈ Row.mapValues (Ty.substitute θ) fields, q.2 = w := by
          cases h
          case field h => exact ⟨_, h, rfl⟩
        obtain ⟨p, hp, rfl⟩ := Row.mem_mapValues.mp hq
        exact Or.inl (Set.mem_biUnion hp (hG p hp).2.1)
      · exact Or.inr htail
    · obtain ⟨p, hp, hu⟩ := Set.mem_iUnion₂.mp hu
      exact ((hG p hp).2.2 u hu).imp id fun h w hw =>
        (h w hw).imp (fun h => Or.inr (Or.inl (Set.mem_biUnion hp h))) id
    · exact (hparts' u hu).imp id fun h w hw => (h w hw).imp (fun h => Or.inr (Or.inr h)) id
  | bind b n body ih =>
    intro θ hθ hfree hbound
    cases b with
    | forAll =>
      rw [Ty.substitute]
      exact hleaf (by rintro w (h | h); cases h)
    | mu =>
      -- Inside the body the variable stands for the whole type.
      have hreserved : ∀ v ∈ ((bind .mu n body).substitute θ).free, v ∉ V := fun v hv => by
        rcases mem_free_substitute hv with ⟨hv, hnone⟩ | ⟨u, s, -, hs, hv⟩
        · exact hfree v hv hnone
        · exact (hθ u s hs).2 v hv
      generalize hB : (bind .mu n body).substitute θ = B at hreserved
      have hn : n ∈ V := hbound n (mem_binders_bind.mpr (Or.inl rfl))
      have hlookup : ∀ v, ((n, B) :: θ).lookup v = if v = n then some B else θ.lookup v :=
        fun v => Row.lookup_cons_eq v n B θ
      obtain ⟨G, hG, hbody, hparts⟩ := ih (θ := (n, B) :: θ) (fun v u hu => by
          rw [hlookup] at hu
          split at hu
          case isTrue he => exact ⟨he ▸ hn, Option.some.inj hu ▸ hreserved⟩
          case isFalse => exact hθ v u hu) (fun v hv hnone => by
          rw [hlookup] at hnone
          split at hnone
          case isTrue => cases hnone
          case isFalse hne => exact hfree v (mem_free_bind.mpr ⟨hv, hne⟩) hnone)
        fun v hv => hbound v (mem_binders_bind.mpr (Or.inr hv))
      have hcases : ∀ {u}, (∃ v, ((n, B) :: θ).lookup v = some u) → u = B ∨
        ∃ v, θ.lookup v = some u := by
        rintro u ⟨v, hv⟩
        rw [hlookup] at hv
        split at hv
        · exact Or.inl (Option.some.inj hv).symm
        · exact Or.inr ⟨v, hv⟩
      have hunfold : ∀ w, Encloses B w → w = body.substitute ((n, B) :: θ) := by
        intro w hw
        rw [← hB, Ty.substitute] at hw
        obtain h | h := hw
        cases h
        rw [Ty.unfold, ← Ty.substitute, hB]
        refine substitute_substitute fun v => ?_
        rw [lookup_filter_ne, hlookup, Row.lookup_single]
        by_cases hv : v = n
        · simp [hv]
        · cases hu : List.lookup v θ with
          | none => simp [hv]
          | some u =>
            refine Or.inl ⟨u, by simp [hv], fun w hw => ?_, by simp [hv]⟩
            rw [Row.lookup_single, if_neg]
            rintro rfl
            exact (hθ v u hu).2 w hw hn
      refine ⟨insert B G, hG.insert _, Set.mem_insert _ _, ?_⟩
      rintro u (rfl | hu)
      · exact Or.inr fun w hw => Or.inl (Or.inr (hunfold w hw ▸ hbody))
      · rcases hparts u hu with hval | h
        · rcases hcases hval with rfl | hval
          · exact Or.inr fun w hw => Or.inl (Or.inr (hunfold w hw ▸ hbody))
          · exact Or.inl hval
        · refine Or.inr fun w hw => (h w hw).elim (fun h => Or.inl (Or.inr h)) fun hval => ?_
          exact (hcases hval).imp (fun he => Or.inl he) id

/-- **Finitely many types are inside a type**, at any depth. -/
theorem finite_enclosed (h : Reserved V t) : {u | Relation.ReflTransGen Encloses t u}.Finite := by
  obtain ⟨G, hG, ht, hparts⟩ := exists_parts (t := t) (θ := []) (V := V) (by simp [PutsIn])
    (fun v hv _ => h.free v hv) h.bound
  rw [substitute_nil] at ht
  refine hG.subset fun u hu => ?_
  induction hu with
  | refl => exact ht
  | tail _ hin ih => exact ((hparts _ ih).resolve_left (by simp) _ hin).resolve_right (by simp)

/-- **Finitely many types occur in a closed type.** -/
theorem finite_occurs (h : t.free = []) : {u | Occurs t u}.Finite := by
  have hreserved : Reserved Set.univ t := ⟨by simp [h], fun _ _ => trivial⟩
  exact (finite_enclosed hreserved).subset fun _ hu => hu.lift id fun _ _ => .part

end RowLang.Ty
