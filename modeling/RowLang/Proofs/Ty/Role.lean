import RowLang.Proofs.Ty.Meaning
import RowLang.Proofs.Ty.Reading
import Mathlib.Data.Finset.Card
import Mathlib.Data.Finset.SDiff

/-!
# Proofs/Ty/Role — the place that a type may take

A type stands for something whole or for the rest of a row, and the rest of a row may only have
labels that the row does not have yet: its `room`.  Every variable has one role for good (`Census`),
and a type fits a role (`Fits`) when all its variables are where their roles allow them.  What fits
a role goes on to fit it under substitution, flattening and unfolding; along a chain of rests the
room shrinks, so that no type stands in front of itself (`rank_lt_of_mem_heads`).
-/

namespace RowLang

theorem Row.tidy_sorted_iff {α : Type} {r : Row α} : Row.Tidy (Row.sorted r) ↔ r.Tidy := by
  have hperm := Row.labels_sorted_perm r
  exact ⟨fun h => ⟨hperm.nodup_iff.mp h.distinct, fun l hl => h.plain l (hperm.mem_iff.mpr hl)⟩,
    fun h => ⟨hperm.nodup_iff.mpr h.distinct, fun l hl => h.plain l (hperm.mem_iff.mp hl)⟩⟩

/-- The place that a type takes. -/
inductive Role where
  | whole
  /-- The rest of a row of a kind, with labels of the room only. -/
  | tail (kind : RowKind) (room : Finset Label)

namespace Role

/-- The labels that a row in this place may have, if there are `labels` in all. -/
def room (labels : Finset Label) : Role → Finset Label
  | whole => labels
  | tail _ room => room

/-- The kind of row that something is the rest of. -/
def kind? : Role → Option RowKind
  | whole => none
  | tail k _ => some k

/-- How many rests may follow one after the other. -/
def rank (labels : Finset Label) : Role → Nat
  | whole => labels.card + 1
  | tail _ room => room.card

/-- Whether fields of a kind may come next: a rest without fields is no row. -/
def Admits (k : RowKind) (fields : Row Ty) : Role → Prop
  | whole => True
  | tail k' _ => k' = k ∧ fields ≠ []

/-- The role of what stands behind some fields. -/
def behind (labels : Finset Label) (r : Role) (k : RowKind) (fields : Row Ty) : Role :=
  .tail k (r.room labels \ Row.domain fields)

theorem admits_mapValues {k : RowKind} {fields : Row Ty} {r : Role} {f : Ty → Ty} :
    r.Admits k (Row.mapValues f fields) ↔ r.Admits k fields := by
  cases r with
  | whole => rfl
  | tail => simp [Admits, Row.mapValues]

theorem admits_sorted {k : RowKind} {fields : Row Ty} {r : Role} :
    r.Admits k (Row.sorted fields) ↔ r.Admits k fields := by
  cases r with
  | whole => rfl
  | tail => simp [Admits, Row.sorted_eq_nil]

theorem behind_mapValues (labels : Finset Label) (r : Role) (k : RowKind) (fields : Row Ty)
    (f : Ty → Ty) : r.behind labels k (Row.mapValues f fields) = r.behind labels k fields := by
  rw [behind, Row.domain_mapValues, behind]

/-- Behind two chunks of a row is what is behind both. -/
theorem behind_behind {labels : Finset Label} {r : Role} {k k' : RowKind} {fields inner : Row Ty}
    {both : Row Ty} (h : Row.domain both = Row.domain fields ∪ Row.domain inner) :
    (r.behind labels k fields).behind labels k' inner = r.behind labels k' both := by
  have hroom : (r.room labels \ Row.domain fields) \ Row.domain inner
      = r.room labels \ (Row.domain fields ∪ Row.domain inner) := sdiff_sdiff_left
  rw [behind, behind, behind, room, hroom, h]

/-- Behind fields there is less room than before them. -/
theorem rank_behind_lt {labels : Finset Label} {r : Role} {k : RowKind} {fields : Row Ty}
    (h : r.Admits k fields) (hroom : Row.domain fields ⊆ r.room labels) :
    (r.behind labels k fields).rank labels < r.rank labels := by
  cases r with
  | whole => exact Nat.lt_succ_of_le (Finset.card_le_card Finset.sdiff_subset)
  | tail k' room =>
    obtain ⟨p, ps, rfl⟩ := List.exists_cons_of_ne_nil h.2
    refine Finset.card_lt_card (Finset.sdiff_ssubset hroom ⟨p.1, ?_⟩)
    rw [Row.domain_cons]
    exact Finset.mem_insert_self _ _

end Role

/-- What is known of the variables: their roles, those that may yet become any type (`free`), and
those that stand with a binder (`bound`).  Where nothing is the rest of a row, the numbers of the
variables need not be those that a solver gives (`numbered`). -/
structure Census where
  labels : Finset Label
  role : Nat → Role
  free : Nat → Prop
  bound : Nat → Prop
  disjoint : ∀ v, free v → ¬ bound v
  numbered : Prop
  whole : ¬ numbered → ∀ v, role v = .whole

namespace Census

/-- A variable that one knows of. -/
def Known (K : Census) (v : Nat) : Prop := K.free v ∨ K.bound v

/-- One knows more of the variables, and nothing else of those that one knew. -/
structure Le (K K' : Census) : Prop where
  labels : K'.labels = K.labels
  role : ∀ v, K.Known v → K'.role v = K.role v
  free : ∀ v, K.free v → K'.free v
  bound : ∀ v, K.bound v → K'.bound v
  numbered : K'.numbered ↔ K.numbered

theorem Le.refl (K : Census) : K.Le K :=
  ⟨rfl, fun _ _ => rfl, fun _ h => h, fun _ h => h, Iff.rfl⟩

theorem Le.known {K K' : Census} (h : K.Le K') {v : Nat} (hv : K.Known v) : K'.Known v :=
  hv.imp (h.free v) (h.bound v)

theorem Le.trans {K K' K'' : Census} (h : K.Le K') (h' : K'.Le K'') : K.Le K'' where
  labels := h'.labels.trans h.labels
  role v hv := (h'.role v (h.known hv)).trans (h.role v hv)
  free v hv := h'.free v (h.free v hv)
  bound v hv := h'.bound v (h.bound v hv)
  numbered := h'.numbered.trans h.numbered

variable (K : Census)

/-- One more variable that may become any type. -/
def addFree (n : Nat) (r : Role) (hn : ¬ K.bound n) (hnum : K.numbered) : Census where
  labels := K.labels
  role := Function.update K.role n r
  free v := v = n ∨ K.free v
  bound := K.bound
  disjoint v hv := hv.elim (fun he => he ▸ hn) (K.disjoint v)
  numbered := K.numbered
  whole h := absurd hnum h

/-- One more variable that stands with a binder. -/
def addBound (n : Nat) (r : Role) (hn : ¬ K.free n) (hnum : K.numbered) : Census where
  labels := K.labels
  role := Function.update K.role n r
  free := K.free
  bound v := v = n ∨ K.bound v
  disjoint v hv hb := hb.elim (fun he => hn (he ▸ hv)) (K.disjoint v hv)
  numbered := K.numbered
  whole h := absurd hnum h

/-- One variable may not become any type any more: it is kept for a binder. -/
def retire (n : Nat) : Census where
  labels := K.labels
  role := K.role
  free v := v ≠ n ∧ K.free v
  bound v := v = n ∨ K.bound v
  disjoint v hv hb := hb.elim hv.1 (K.disjoint v hv.2)
  numbered := K.numbered
  whole := K.whole

variable {K}

theorem le_addFree {n : Nat} {r : Role} {hn : ¬ K.bound n} {hnum : K.numbered}
    (hnew : ¬ K.Known n) : K.Le (K.addFree n r hn hnum) where
  labels := rfl
  role v hv := by
    have hne : v ≠ n := fun he => hnew (he ▸ hv)
    simp [addFree, hne]
  free _ := Or.inr
  bound _ h := h
  numbered := Iff.rfl

theorem le_addBound {n : Nat} {r : Role} {hn : ¬ K.free n} {hnum : K.numbered}
    (hnew : ¬ K.Known n) : K.Le (K.addBound n r hn hnum) where
  labels := rfl
  role v hv := by
    have hne : v ≠ n := fun he => hnew (he ▸ hv)
    simp [addBound, hne]
  free _ h := h
  bound _ := Or.inr
  numbered := Iff.rfl

end Census

namespace Ty

mutual

/-- A type may take a place. -/
@[grind] def Fits (K : Census) : Role → Ty → Prop
  | r, number => r = .whole
  | r, char => r = .whole
  | r, unit => ∃ room, r = .tail .record room
  | r, empty => ∃ room, r = .tail .variant room
  | r, var n => K.role n = r ∧ K.Known n
  | r, arrow a b => r = .whole ∧ Fits K .whole a ∧ Fits K .whole b
  | r, list t => r = .whole ∧ Fits K .whole t
  | r, row k fields tail => r.Admits k fields ∧ Row.Tidy fields ∧
      Row.domain fields ⊆ r.room K.labels ∧ FieldsFit K fields ∧
      Fits K (r.behind K.labels k fields) tail
  | r, bind .mu p body => K.role p = r ∧ K.bound p ∧ Fits K r body ∧ p ∉ body.heads ∧
      (∀ v ∈ body.heads, K.free v → (K.role v).rank K.labels < r.rank K.labels) ∧
      ∀ k, body ≠ RowKind.end k
  | _, bind .forAll _ _ => False

/-- The types of the fields stand for something whole. -/
def FieldsFit (K : Census) : List (Label × Ty) → Prop
  | [] => True
  | (_, t) :: fields => Fits K .whole t ∧ FieldsFit K fields

end

variable {K K' : Census} {r : Role}

theorem fieldsFit_iff {fields : Row Ty} : FieldsFit K fields ↔ ∀ p ∈ fields, Fits K .whole p.2 := by
  induction fields with
  | nil => simp [FieldsFit]
  | cons p fields ih => simp [FieldsFit, ih]

theorem fits_row {k : RowKind} {fields : Row Ty} {tail : Ty} :
    Fits K r (row k fields tail) ↔ r.Admits k fields ∧ Row.Tidy fields ∧
      Row.domain fields ⊆ r.room K.labels ∧ (∀ p ∈ fields, Fits K .whole p.2) ∧
      Fits K (r.behind K.labels k fields) tail := by
  rw [Fits, fieldsFit_iff]

theorem fits_end (K : Census) (k : RowKind) (room : Finset Label) :
    Fits K (.tail k room) k.end := by cases k <;> exact ⟨room, rfl⟩

theorem Fits.tidy {t : Ty} : ∀ {r}, Fits K r t → t.Tidy := by
  induction t using Ty.inductOn with
  | number | char | unit | empty | var => intro r _; simp [Tidy]
  | arrow a b iha ihb => intro r h; exact ⟨iha h.2.1, ihb h.2.2⟩
  | list t ih => intro r h; exact ih h.2
  | row k fields tail ihf iht =>
    intro r h
    obtain ⟨_, htidy, _, hf, ht⟩ := fits_row.mp h
    exact tidy_row.mpr ⟨htidy, fun p hp => ihf p hp (hf p hp), iht ht⟩
  | bind b p body ih =>
    intro r h
    cases b with
    | mu => exact ih h.2.2.1
    | forAll => exact h.elim

theorem Fits.bound_of_mem {t : Ty} {q : Nat} : ∀ {r}, Fits K r t → q ∈ t.binders → K.bound q := by
  induction t using Ty.inductOn with
  | number | char | unit | empty | var => intro r _ hq; simp [binders] at hq
  | arrow a b iha ihb =>
    intro r h hq
    exact (mem_binders_arrow.mp hq).elim (iha h.2.1) (ihb h.2.2)
  | list t ih => intro r h hq; exact ih h.2 hq
  | row k fields tail ihf iht =>
    intro r h hq
    obtain ⟨_, _, _, hf, ht⟩ := fits_row.mp h
    rcases mem_binders_row.mp hq with hq | ⟨p, hp, hq⟩
    · exact iht ht hq
    · exact ihf p hp (hf p hp) hq
  | bind b p body ih =>
    intro r h hq
    cases b with
    | mu => exact (mem_binders_bind.mp hq).elim (fun he => he ▸ h.2.1) (ih h.2.2.1)
    | forAll => exact h.elim

theorem Fits.known_of_mem {t : Ty} {v : Nat} :
    ∀ {r}, Fits K r t → v ∈ t.free → K.Known v := by
  induction t using Ty.inductOn with
  | number | char | unit | empty => intro r _ hv; simp [free] at hv
  | var n => intro r h hv; rw [free_var, List.mem_singleton] at hv; exact hv ▸ h.2
  | arrow a b iha ihb =>
    intro r h hv
    exact (mem_free_arrow.mp hv).elim (iha h.2.1) (ihb h.2.2)
  | list t ih => intro r h hv; exact ih h.2 (by simpa using hv)
  | row k fields tail ihf iht =>
    intro r h hv
    obtain ⟨_, _, _, hf, ht⟩ := fits_row.mp h
    rcases mem_free_row.mp hv with hv | ⟨p, hp, hv⟩
    · exact iht ht hv
    · exact ihf p hp (hf p hp) hv
  | bind b p body ih =>
    intro r h hv
    cases b with
    | mu => exact ih h.2.2.1 (mem_free_bind.mp hv).1
    | forAll => exact h.elim

/-! ## What stands in front -/

/-- What stands in front of a type has no more room than its place. -/
theorem Fits.rank_le_of_mem_heads {t : Ty} {v : Nat} :
    ∀ {r}, Fits K r t → v ∈ t.heads → (K.role v).rank K.labels ≤ r.rank K.labels := by
  induction t using Ty.inductOn with
  | number | char | unit | empty | arrow | list => intro r _ hv; simp [heads] at hv
  | var n =>
    intro r h hv
    rw [heads_var, List.mem_singleton] at hv
    rw [hv, h.1]
  | row k fields tail _ iht =>
    intro r h hv
    obtain ⟨hadm, _, hroom, _, ht⟩ := fits_row.mp h
    exact (iht ht hv).trans (Role.rank_behind_lt hadm hroom).le
  | bind b p body ih =>
    intro r h hv
    cases b with
    | mu => exact ih h.2.2.1 (mem_heads_mu.mp hv).1
    | forAll => exact h.elim

/-- **What may yet become any type stands in front of nothing but itself.** -/
theorem Fits.rank_lt_of_mem_heads {t : Ty} {v : Nat} (h : Fits K r t) (hvar : ∀ n, t ≠ var n)
    (hv : v ∈ t.heads) (hfree : K.free v) : (K.role v).rank K.labels < r.rank K.labels := by
  cases t with
  | number | char | unit | empty | arrow | list => simp [heads] at hv
  | var n => exact absurd rfl (hvar n)
  | row k fields tail =>
    obtain ⟨hadm, _, hroom, _, ht⟩ := fits_row.mp h
    exact (ht.rank_le_of_mem_heads hv).trans_lt (Role.rank_behind_lt hadm hroom)
  | bind b p body =>
    cases b with
    | mu => exact h.2.2.2.2.1 v (mem_heads_mu.mp hv).1 hfree
    | forAll => exact h.elim

/-! ## Another census -/

/-- What one knows of a type depends on its own variables only. -/
theorem Fits.transfer {t : Ty} (hlabels : K'.labels = K.labels) :
    ∀ {r}, Fits K r t → (∀ v, v ∈ t.free ∨ v ∈ t.binders →
      K'.role v = K.role v ∧ (K.free v → K'.free v) ∧ (K.bound v → K'.bound v)) → Fits K' r t := by
  induction t using Ty.inductOn with
  | number | char => intro r h _; simpa only [Fits] using h
  | unit | empty => intro r h _; simpa only [Fits] using h
  | var n =>
    intro r h hv
    obtain ⟨hrole, hf, hb⟩ := hv n (Or.inl (by simp))
    exact ⟨hrole.trans h.1, h.2.imp hf hb⟩
  | arrow a b iha ihb =>
    intro r h hv
    exact ⟨h.1, iha h.2.1 fun v hm => hv v (hm.imp (fun hm => mem_free_arrow.mpr (Or.inl hm))
        fun hm => mem_binders_arrow.mpr (Or.inl hm)),
      ihb h.2.2 fun v hm => hv v (hm.imp (fun hm => mem_free_arrow.mpr (Or.inr hm))
        fun hm => mem_binders_arrow.mpr (Or.inr hm))⟩
  | list t ih => intro r h hv; exact ⟨h.1, ih h.2 fun v hm => hv v (by simpa [binders] using hm)⟩
  | row k fields tail ihf iht =>
    intro r h hv
    obtain ⟨hadm, htidy, hroom, hf, ht⟩ := fits_row.mp h
    refine fits_row.mpr ⟨hadm, htidy, hlabels ▸ hroom, fun p hp => ?_, hlabels ▸ ?_⟩
    · exact ihf p hp (hf p hp) fun v hm => hv v
        (hm.imp (fun hm => mem_free_row.mpr (Or.inr ⟨p, hp, hm⟩))
          fun hm => mem_binders_row.mpr (Or.inr ⟨p, hp, hm⟩))
    · exact iht ht fun v hm => hv v (hm.imp (fun hm => mem_free_row.mpr (Or.inl hm))
          fun hm => mem_binders_row.mpr (Or.inl hm))
  | bind b p body ih =>
    intro r h hv
    cases b with
    | forAll => exact h.elim
    | mu =>
      obtain ⟨hrole, hbound, hbody, hp, hrank, hne⟩ := h
      have hown := hv p (Or.inr (mem_binders_bind.mpr (Or.inl rfl)))
      have hin : ∀ v, v ∈ body.free ∨ v ∈ body.binders →
          K'.role v = K.role v ∧ (K.free v → K'.free v) ∧ (K.bound v → K'.bound v) := by
        intro v hm
        by_cases he : v = p
        · exact he ▸ hown
        · exact hv v (hm.imp (fun hm => mem_free_bind.mpr ⟨hm, he⟩)
            fun hm => mem_binders_bind.mpr (Or.inr hm))
      refine ⟨hown.1.trans hrole, hown.2.2 hbound, ih hbody hin, hp, fun v hm hfree => ?_, hne⟩
      have hmem := mem_free_of_mem_heads hm
      obtain ⟨hr, _, hb⟩ := hin v (Or.inl hmem)
      have hfree' : K.free v := (hbody.known_of_mem hmem).resolve_right
        fun hbv => K'.disjoint v hfree (hb hbv)
      rw [hr, hlabels]
      exact hrank v hm hfree'

/-! ## Substitution -/

theorem substitute_ne_end {t : Ty} {σ : Subst} {k : RowKind} (h : t ≠ k.end)
    (hσ : ∀ v, t = var v → σ.lookup v ≠ some k.end) : t.substitute σ ≠ k.end := by
  cases t with
  | var v =>
    rw [Ty.substitute]
    cases hv : List.lookup v σ with
    | none => exact h
    | some u => exact fun he => hσ v rfl (by rw [hv]; exact congrArg some he)
  | _ => cases k <;> first | exact h | (rw [Ty.substitute]; simp [RowKind.end])

/-- **Substitution keeps a type in its place.** A bound variable may only be replaced by what has
less in front than it has room, and by no marker. -/
theorem Fits.substitute {t : Ty} : ∀ {r} {σ : Subst}, Fits K r t → t.CatchesNone σ →
    (∀ v u, σ.lookup v = some u → Fits K (K.role v) u) →
    (∀ v u, σ.lookup v = some u → K.bound v →
      (∀ w ∈ u.heads, K.free w → (K.role w).rank K.labels < (K.role v).rank K.labels) ∧
        ∀ k, u ≠ RowKind.end k) →
    Fits K r (t.substitute σ) := by
  induction t using Ty.inductOn with
  | number | char => intro r σ h _ _ _; simpa only [Ty.substitute, Fits] using h
  | unit | empty => intro r σ h _ _ _; simpa only [Ty.substitute, Fits] using h
  | var n =>
    intro r σ h _ hσ _
    rw [Ty.substitute]
    cases hn : List.lookup n σ with
    | none => exact h
    | some u => exact h.1 ▸ hσ n u hn
  | arrow a b iha ihb =>
    intro r σ h hc hσ hrank
    rw [Ty.substitute]
    exact ⟨h.1, iha h.2.1 (fun q hq => hc q (mem_binders_arrow.mpr (Or.inl hq))) hσ hrank,
      ihb h.2.2 (fun q hq => hc q (mem_binders_arrow.mpr (Or.inr hq))) hσ hrank⟩
  | list t ih =>
    intro r σ h hc hσ hrank
    rw [Ty.substitute]
    exact ⟨h.1, ih h.2 hc hσ hrank⟩
  | row k fields tail ihf iht =>
    intro r σ h hc hσ hrank
    obtain ⟨hadm, htidy, hroom, hf, ht⟩ := fits_row.mp h
    rw [Ty.substitute, substituteFields_eq_map]
    refine fits_row.mpr ⟨Role.admits_mapValues.mpr hadm, htidy.mapValues _,
      by rwa [Row.domain_mapValues], fun q hq => ?_, ?_⟩
    · obtain ⟨p, hp, rfl⟩ := Row.mem_mapValues.mp hq
      exact ihf p hp (hf p hp)
        (fun q hq => hc q (mem_binders_row.mpr (Or.inr ⟨p, hp, hq⟩))) hσ hrank
    · rw [Role.behind_mapValues]
      exact iht ht (fun q hq => hc q (mem_binders_row.mpr (Or.inl hq))) hσ hrank
  | bind b p body ih =>
    intro r σ h hc hσ hrank
    cases b with
    | forAll => exact h.elim
    | mu =>
      obtain ⟨hrole, hbound, hbody, hp, hheads, hne⟩ := h
      have hmem : ∀ {v u}, (σ.filter (·.1 ≠ p)).lookup v = some u → σ.lookup v = some u := by
        intro v u hu
        rw [lookup_filter_ne] at hu
        split at hu
        · simp at hu
        · exact hu
      rw [Ty.substitute]
      refine ⟨hrole, hbound, ih hbody (fun q hq v u hu =>
          hc q (mem_binders_bind.mpr (Or.inr hq)) v u (hmem hu)) (fun v u hu => hσ v u (hmem hu))
        fun v u hu => hrank v u (hmem hu), fun hin => ?_, fun v hv hfree => ?_, fun k => ?_⟩
      · rcases mem_heads_substitute hin with ⟨hin, _⟩ | ⟨u₀, u, _, hu, hin⟩
        · exact hp hin
        · exact hc p (mem_binders_bind.mpr (Or.inl rfl)) u₀ u (hmem hu) (mem_free_of_mem_heads hin)
      · rcases mem_heads_substitute hv with ⟨hv, _⟩ | ⟨u₀, u, hu₀, hu, hv⟩
        · exact hheads v hv hfree
        · rcases hbody.known_of_mem (mem_free_of_mem_heads hu₀) with hf | hb
          · exact ((hσ u₀ u (hmem hu)).rank_le_of_mem_heads hv).trans_lt (hheads u₀ hu₀ hf)
          · exact ((hrank u₀ u (hmem hu) hb).1 v hv hfree).trans_le
              (hbody.rank_le_of_mem_heads hu₀)
      · -- A body that is a variable stands for what is bound, since no other has its room.
        refine substitute_ne_end (hne k) fun v he hu => ?_
        subst he
        rcases hbody.2 with hf | hb
        · exact absurd (hheads v (by simp) hf) (by rw [hbody.1]; exact Nat.lt_irrefl _)
        · exact (hrank v k.end (hmem hu) hb).2 k rfl

/-! ## Flattening -/

theorem Fits.prependRow {k : RowKind} {fields : Row Ty} {tail : Ty}
    (h : Fits K r (row k fields tail)) : Fits K r (prependRow k fields tail) := by
  cases tail with
  | row k' inner rest =>
    rw [Ty.prependRow]
    split
    case isFalse => exact h
    case isTrue hk =>
      subst hk
      obtain ⟨hadm, htidy, hroom, hf, ht⟩ := fits_row.mp h
      obtain ⟨hadm', htidy', hroom', hf', ht'⟩ := fits_row.mp ht
      have hdom := Row.domain_setAll fields inner
      rw [Row.union_eq_setAll]
      refine fits_row.mpr ⟨?_, htidy.setAll htidy', ?_, fun p hp => ?_, ?_⟩
      · cases r with
        | whole => trivial
        | tail k'' room =>
          refine ⟨hadm.1, fun hnil => hadm'.2 ?_⟩
          have hempty : Row.domain fields ∪ Row.domain inner = ∅ := by rw [← hdom, hnil]; rfl
          have hinner := (Finset.union_eq_empty.mp hempty).2
          rwa [Row.domain, List.toFinset_eq_empty_iff, Row.labels, List.map_eq_nil_iff] at hinner
      · rw [hdom]
        exact Finset.union_subset hroom (hroom'.trans Finset.sdiff_subset)
      · exact (Row.mem_setAll hp).elim (hf' p) (hf p)
      · rw [← Role.behind_behind hdom]
        exact ht'
  | _ => exact h

theorem eq_end_of_flatten {t : Ty} {k : RowKind} (h : t.flatten = k.end) : t = k.end := by
  cases t with
  | row k' fields tail =>
    rw [Ty.flatten] at h
    unfold Ty.prependRow at h
    split at h
    · split at h <;> cases k <;> cases h
    · cases k <;> cases h
  | _ => cases k <;> first | rfl | (rw [Ty.flatten] at h; cases h)

/-- **Flattening keeps a type in its place.** -/
theorem Fits.flatten {t : Ty} : ∀ {r}, Fits K r t → Fits K r t.flatten := by
  induction t using Ty.inductOn with
  | number | char | unit | empty | var => intro r h; rwa [Ty.flatten]
  | arrow a b iha ihb => intro r h; rw [Ty.flatten]; exact ⟨h.1, iha h.2.1, ihb h.2.2⟩
  | list t ih => intro r h; rw [Ty.flatten]; exact ⟨h.1, ih h.2⟩
  | bind b p body ih =>
    intro r h
    rw [Ty.flatten]
    cases b with
    | forAll => exact h.elim
    | mu =>
      obtain ⟨hrole, hbound, hbody, hp, hheads, hne⟩ := h
      exact ⟨hrole, hbound, ih hbody, by rwa [heads_flatten], by rwa [heads_flatten],
        fun k he => hne k (eq_end_of_flatten he)⟩
  | row k fields tail ihf iht =>
    intro r h
    obtain ⟨hadm, htidy, hroom, hf, ht⟩ := fits_row.mp h
    rw [Ty.flatten, flattenFields_eq_map]
    refine Fits.prependRow (fits_row.mpr ⟨Role.admits_mapValues.mpr hadm, htidy.mapValues _,
      by rwa [Row.domain_mapValues], fun q hq => ?_, ?_⟩)
    · obtain ⟨p, hp, rfl⟩ := Row.mem_mapValues.mp hq
      exact ihf p hp (hf p hp)
    · rw [Role.behind_mapValues]
      exact iht ht

/-! ## Fields in order -/

@[simp] theorem heads_ordered (t : Ty) : t.ordered.heads = t.heads := by
  induction t using inductOn with
  | number | char | unit | empty | var | arrow | list => simp [ordered, heads]
  | row k fields tail _ iht => exact iht
  | bind b n body ih => cases b <;> simp [ordered, heads, ih]

/-- **The order of fields has nothing to do with the place of a type.** -/
theorem fits_ordered {t : Ty} : ∀ {r}, Fits K r t.ordered ↔ Fits K r t := by
  induction t using Ty.inductOn with
  | number | char | unit | empty | var => intro r; rw [ordered] <;> simp
  | arrow a b iha ihb => intro r; rw [ordered, Fits, Fits, iha, ihb]
  | list t ih => intro r; rw [ordered, Fits, Fits, ih]
  | bind b p body ih =>
    intro r
    cases b with
    | forAll => rfl
    | mu =>
      have hne : (∀ k, body.ordered ≠ RowKind.end k) ↔ ∀ k, body ≠ RowKind.end k :=
        forall_congr' fun k => by rw [← isEnd_iff.ne, isEnd_ordered, isEnd_iff.ne]
      rw [ordered, Fits, Fits, ih, heads_ordered, hne]
  | row k fields tail ihf iht =>
    intro r
    have hdom : Row.domain (Row.sorted fields) = Row.domain fields :=
      List.toFinset_eq_of_perm _ _ (Row.labels_sorted_perm fields)
    have hfields : (∀ q ∈ Row.mapValues ordered (Row.sorted fields), Fits K .whole q.2)
        ↔ ∀ p ∈ fields, Fits K .whole p.2 := by
      constructor
      · exact fun h p hp => (ihf p hp).mp
          (h _ (Row.mem_mapValues.mpr ⟨p, Row.mem_sorted.mpr hp, rfl⟩))
      · intro h q hq
        obtain ⟨p, hp, rfl⟩ := Row.mem_mapValues.mp hq
        exact (ihf p (Row.mem_sorted.mp hp)).mpr (h p (Row.mem_sorted.mp hp))
    rw [ordered_row, fits_row, fits_row, hfields, Role.behind_mapValues, Role.admits_mapValues,
      Role.admits_sorted, Row.tidy_mapValues_iff, Row.tidy_sorted_iff, Row.domain_mapValues, iht,
      Role.behind, Role.behind, hdom]

/-- The order of fields has nothing to do with the tree of a type. -/
theorem tree_ordered {t : Ty} (h : t.Tidy) : ∀ ρ, t.ordered.tree ρ = t.tree ρ := by
  induction t using inductOn with
  | number | char | unit | empty | var => intro ρ; rw [ordered] <;> simp
  | arrow a b iha ihb => intro ρ; rw [ordered, tree, tree, iha h.1, ihb h.2]
  | list t ih => intro ρ; rw [ordered, tree, tree, ih h]
  | bind b n body ih =>
    intro ρ
    cases b with
    | mu => rw [ordered, tree, tree, funext fun x => ih h (Function.update ρ n x)]
    | forAll => rw [ordered, tree, tree, ih h]
  | row k fields tail ihf iht =>
    intro ρ
    obtain ⟨hd, hf, ht⟩ := tidy_row.mp h
    rw [ordered_row, tree, tree, iht ht]
    congr 1
    funext l
    rw [treeOfField_eq, treeOfField_eq, Row.lookup_mapValues, Row.lookup_sorted hd.distinct]
    cases hl : List.lookup l fields with
    | none => rfl
    | some t =>
      have hmem := Row.mem_of_lookup hl
      exact congrArg some (ihf _ hmem (hf _ hmem) ρ)

end Ty

end RowLang
