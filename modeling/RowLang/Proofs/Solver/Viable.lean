import RowLang.Proofs.Solver.Live
import RowLang.Proofs.Ty.EachRow
import RowLang.Proofs.Ty.Means

/-!
# Proofs/Solver/Viable — equalities that have a solution go on having one

What is asked for is `Viable` when the variables stand for figures under which each equality has two
sides that can stand for one figure.  Each step of a comparison keeps that: parts of one figure are
one figure, the shared tail of two rows can stand for what is behind the fields of both
(`viable_of_splits`), and binders may be opened (`openBinders_viable`).  Two types that can stand
for one figure clash only if one of them is a row without fields (`bare_of_clash`).  So a comparison
comes upon no other mismatch, and what it posts is viable again (`Course.viable`).
-/

namespace RowLang

open Ty Figure

/-- A row without fields. -/
def Ty.Bare : Ty → Prop
  | row _ fields _ => fields = []
  | _ => False

/-- Not to find a type because of a limit, or over a row without fields. -/
def TypeFailure.GivesUp : TypeFailure → Prop
  | .tooDeep | .tooManyPasses | .endlessUnfolding _ => True
  | .mismatch s t => s.Bare ∨ t.Bare
  | .unbound _ | .unwritable _ => False

instance (t : Ty) : Decidable t.Bare :=
  match t with
  | .row _ fields _ => decidable_of_iff (fields.isEmpty = true) List.isEmpty_iff
  | .number | .char | .unit | .empty | .var _ | .arrow .. | .list _ | .bind .. => isFalse id

instance (f : TypeFailure) : Decidable f.GivesUp :=
  match f with
  | .tooDeep | .tooManyPasses | .endlessUnfolding _ => isTrue trivial
  | .mismatch s t => inferInstanceAs (Decidable (s.Bare ∨ t.Bare))
  | .unbound _ | .unwritable _ => isFalse id

/-- A figure with this root begins like a type. -/
def Ty.Begins : Ty → Root → Prop
  | number, .number => True
  | char, .char => True
  | unit, .unit => True
  | empty, .empty => True
  | arrow _ _, .arrow => True
  | list _, .list => True
  | row k _ _, .row k' _ => k = k'
  | _, _ => False

theorem Ty.Full.not_bare {t : Ty} (h : t.Full) : ¬ t.Bare := by
  cases t with
  | row k fields tail => exact (full_row.mp h).1
  | _ => exact id

/-- **A type with structure can only stand for a figure that begins like it**, unless it is a row
without fields. -/
theorem Ty.Means.begins {t : Ty} {ρ : Nat → Figure} {x : Figure} (h : t.Means ρ x)
    (hbare : ¬ t.Bare) (hvar : ∀ n, t ≠ .var n) (hbind : ∀ b n body, t ≠ .bind b n body) :
    t.Begins x.root := by
  cases t with
  | number | char | unit | empty => cases h; trivial
  | var n => exact absurd rfl (hvar n)
  | bind b n body => exact absurd rfl (hbind b n body)
  | arrow a b => obtain ⟨y, z, rfl, -⟩ := h; trivial
  | list t => obtain ⟨y, rfl, -⟩ := h; trivial
  | row k fields tail =>
    obtain ⟨f, y, rfl, hf, -⟩ := means_row.mp h
    obtain ⟨p, ps, rfl⟩ := List.exists_cons_of_ne_nil hbare
    obtain ⟨fields, rest, hrow⟩ := exists_front_eq_row (k := k) (s := y) (l := p.1)
      (hf.isSome_iff.mpr List.mem_cons_self)
    rw [hrow]
    rfl

namespace Solver

/-! ## Clashes -/

theorem outcome_eq_clash {s t : Ty} (h : outcome s t = .clash) :
    (∀ n, s ≠ .var n) ∧ (∀ n, t ≠ .var n) ∧ (∀ b n body, s ≠ .bind b n body) ∧
      ∀ b n body, t ≠ .bind b n body := by
  refine ⟨?_, ?_, ?_, ?_⟩
  · rintro n rfl
    cases t with
    | var m => rw [outcome] at h; split at h <;> cases h
    | _ => cases h
  · rintro n rfl
    cases s with
    | var m => rw [outcome] at h; split at h <;> cases h
    | _ => cases h
  · rintro b n body rfl
    cases t <;> cases h
  · rintro b n body rfl
    cases s <;> cases h

/-- Types that begin like one figure do not clash. -/
theorem outcome_ne_clash {s t : Ty} {r : Root} (hs : s.Begins r) (ht : t.Begins r) :
    outcome s t ≠ .clash := by
  cases s <;> cases r <;> first
    | exact hs.elim
    | (cases t <;> first
        | exact ht.elim
        | simp_all [Begins, outcome])

/-- **A clash of types that can stand for one figure is about a row without fields.** -/
theorem bare_of_clash {s t : Ty} {ρ : Nat → Figure} {x : Figure} (h : outcome s t = .clash)
    (hs : s.Means ρ x) (ht : t.Means ρ x) : s.Bare ∨ t.Bare := by
  obtain ⟨hvar, hvar', hbind, hbind'⟩ := outcome_eq_clash h
  by_contra hbare
  rw [not_or] at hbare
  exact outcome_ne_clash (hs.begins hbare.1 hvar hbind) (ht.begins hbare.2 hvar' hbind') h

variable {bare : Prop} {gone gone' : Nat → Prop} {c c' : Nat} {ρ ρ' : Nat → Figure} {x : Figure}

/-! ## Types in play -/

/-- A type of live variables whose binders are gone.  Unless rows may be bare, each has a field. -/
structure Fair (bare : Prop) (gone : Nat → Prop) (c : Nat) (t : Ty) : Prop where
  live : AllLive gone c t
  bound : ∀ q ∈ t.binders, gone q
  full : bare ∨ t.Full

theorem Fair.mono {t : Ty} (h : Fair bare gone c t) (hc : c ≤ c') : Fair bare gone c' t :=
  ⟨h.live.mono hc, h.bound, h.full⟩

theorem Fair.flatten {t : Ty} (h : Fair bare gone c t) : Fair bare gone c t.flatten :=
  ⟨h.live.flatten, fun q hq => h.bound q (mem_binders_flatten hq), h.full.imp_right Full.flatten⟩

theorem fair_var {n : Nat} (h : Live gone c n) : Fair bare gone c (.var n) :=
  ⟨allLive_var.mpr h, by simp [binders], Or.inr trivial⟩

theorem fair_arrow {a b : Ty} (h : Fair bare gone c (.arrow a b)) :
    Fair bare gone c a ∧ Fair bare gone c b := by
  obtain ⟨ha, hb⟩ := allLive_arrow.mp h.live
  exact ⟨⟨ha, fun q hq => h.bound q (mem_binders_arrow.mpr (Or.inl hq)), h.full.imp_right (·.1)⟩,
    ⟨hb, fun q hq => h.bound q (mem_binders_arrow.mpr (Or.inr hq)), h.full.imp_right (·.2)⟩⟩

theorem fair_list {t : Ty} (h : Fair bare gone c (.list t)) : Fair bare gone c t :=
  ⟨allLive_list.mp h.live, h.bound, h.full⟩

theorem fair_row {k : RowKind} {fields : Row Ty} {tail : Ty}
    (h : Fair bare gone c (.row k fields tail)) :
    Fair bare gone c tail ∧ ∀ p ∈ fields, Fair bare gone c p.2 := by
  obtain ⟨ht, hf⟩ := allLive_row.mp h.live
  refine ⟨⟨ht, fun q hq => h.bound q (mem_binders_row.mpr (Or.inl hq)),
    h.full.imp_right fun h => (full_row.mp h).2.2⟩, fun p hp => ⟨hf p hp, fun q hq => ?_, ?_⟩⟩
  · exact h.bound q (mem_binders_row.mpr (Or.inr ⟨p, hp, hq⟩))
  · exact h.full.imp_right fun h => (full_row.mp h).2.1 p hp

theorem Fair.row {k : RowKind} {fields : Row Ty} {tail : Ty} (hne : bare ∨ fields ≠ [])
    (hf : ∀ p ∈ fields, Fair bare gone c p.2) (ht : Fair bare gone c tail) :
    Fair bare gone c (.row k fields tail) := by
  refine ⟨allLive_row.mpr ⟨ht.live, fun p hp => (hf p hp).live⟩, fun q hq => ?_, ?_⟩
  · rcases mem_binders_row.mp hq with hq | ⟨p, hp, hq⟩
    exacts [ht.bound q hq, (hf p hp).bound q hq]
  · by_cases hbare : bare
    · exact Or.inl hbare
    · exact Or.inr (full_row.mpr
        ⟨hne.resolve_left hbare, fun p hp => (hf p hp).full.resolve_left hbare,
          ht.full.resolve_left hbare⟩)

/-- Some fields of a row in front of another tail. -/
theorem Fair.difference {k : RowKind} {fields others : Row Ty} {tail tail' : Ty}
    (h : Fair bare gone c (.row k fields tail)) (hne : Row.difference id fields others ≠ [])
    (ht : Fair bare gone c tail') :
    Fair bare gone c (.row k (Row.difference id fields others) tail') :=
  .row (Or.inr hne) (fun p hp => (fair_row h).2 p (Row.mem_difference.mp hp).1) ht

/-- Variables replaced by types in play. -/
theorem Fair.substituteAll {σ : Subst} {t : Ty}
    (hlive : ∀ v ∈ t.free, σ.lookup v = none → Live gone c v)
    (hbound : ∀ q ∈ t.binders, gone q) (hfull : bare ∨ t.Full)
    (hσ : ∀ v u, σ.lookup v = some u → Fair bare gone c u) : Fair bare gone c (t.substitute σ) := by
  refine ⟨fun v hv => ?_, fun q hq => ?_, ?_⟩
  · rcases mem_free_substitute hv with ⟨hv, hnone⟩ | ⟨w, u, -, hu, hv⟩
    exacts [hlive v hv hnone, (hσ w u hu).live v hv]
  · rcases mem_binders_substitute hq with hq | ⟨w, u, hu, hq⟩
    exacts [hbound q hq, (hσ w u hu).bound q hq]
  · by_cases hbare : bare
    · exact Or.inl hbare
    · exact Or.inr ((hfull.resolve_left hbare).substitute fun v u hu =>
        (hσ v u hu).full.resolve_left hbare)

/-- A variable replaced by a type in play. -/
theorem Fair.substitute {n : Nat} {s t : Ty} (hlive : ∀ v ∈ t.free, v ≠ n → Live gone c v)
    (hbound : ∀ q ∈ t.binders, gone q) (hfull : bare ∨ t.Full) (hs : Fair bare gone c s) :
    Fair bare gone c (t.substitute [(n, s)]) := by
  refine .substituteAll (fun v hv hnone => ?_) hbound hfull fun v u hu => ?_
  · rw [Row.lookup_single] at hnone
    split at hnone
    case isTrue => cases hnone
    case isFalse hn => exact hlive v hv hn
  · rw [Row.lookup_single] at hu
    split at hu
    case isTrue => exact Option.some.inj hu ▸ hs
    case isFalse => cases hu

/-! ## Tasks -/

/-- The figures of the variables let two types be one. -/
def CanAgree (ρ : Nat → Figure) (s t : Ty) : Prop := ∃ x, s.flatten.Means ρ x ∧ t.flatten.Means ρ x

/-- Each tail can stand for the fields that only the other's row has in front of one rest. -/
def CanMeet (ρ : Nat → Figure) (k : RowKind) (fields : Row Ty) (tail : Ty) (others : Row Ty)
    (tail' : Ty) : Prop :=
  ∃ f g r, r.Canonical ∧ FieldsMean ρ fields f ∧ FieldsMean ρ others g ∧ Lacks k r f ∧ Lacks k r g ∧
    tail.Means ρ (front k g r) ∧ tail'.Means ρ (front k f r)

/-- **What is asked for has a solution.** -/
def Viable (bare : Prop) (gone : Nat → Prop) (c : Nat) (ρ : Nat → Figure) : Task → Prop
  | .agree s t => (Fair bare gone c s ∧ Fair bare gone c t) ∧ CanAgree ρ s t
  | .meet k fields tail others tail' =>
    (Fair bare gone c (.row k fields tail) ∧ Fair bare gone c (.row k others tail')) ∧
      CanMeet ρ k fields tail others tail'

theorem viable_agree {s t : Ty} (hρ : ∀ n, (ρ n).Canonical) (hs : Fair bare gone c s)
    (ht : Fair bare gone c t) (hx : s.Means ρ x) (hx' : t.Means ρ x) :
    Viable bare gone c ρ (.agree s t) := ⟨⟨hs, ht⟩, x, hx.flatten hρ, hx'.flatten hρ⟩

/-- Numbering more variables changes nothing. -/
theorem Viable.mono {task : Task} (h : Viable bare gone c ρ task) (hc : c ≤ c')
    (hρ : ∀ v < c, ρ v = ρ' v) : Viable bare gone c' ρ' task := by
  have hkept : ∀ {t : Ty}, AllLive gone c t → ∀ v ∈ t.free, ρ v = ρ' v :=
    fun h v hv => hρ v (h v hv).1
  cases task with
  | agree s t =>
    obtain ⟨⟨hs, ht⟩, x, hx, hx'⟩ := h
    exact ⟨⟨hs.mono hc, ht.mono hc⟩, x, hx.congr (hkept hs.flatten.live),
      hx'.congr (hkept ht.flatten.live)⟩
  | meet k fields tail others tail' =>
    obtain ⟨⟨hs, ht⟩, f, g, r, hr, hf, hg, hlacks, hlacks', hx, hx'⟩ := h
    obtain ⟨htail, hfields⟩ := fair_row hs
    obtain ⟨htail', hothers⟩ := fair_row ht
    exact ⟨⟨hs.mono hc, ht.mono hc⟩, f, g, r, hr, hf.congr fun p hp => hkept (hfields p hp).live,
      hg.congr fun p hp => hkept (hothers p hp).live, hlacks, hlacks', hx.congr (hkept htail.live),
      hx'.congr (hkept htail'.live)⟩

/-- **An equality that has a solution asks for what has one.** -/
theorem viable_of_splits {s t : Ty} {tasks : List Task} (h : Splits s t tasks)
    (hρ : ∀ n, (ρ n).Canonical) (hs : Fair bare gone c s) (ht : Fair bare gone c t)
    (hx : s.Means ρ x) (hx' : t.Means ρ x) : ∀ task ∈ tasks, Viable bare gone c ρ task := by
  cases h with
  | same => simp
  | arrow a b c d =>
    obtain ⟨ha, hb⟩ := fair_arrow hs
    obtain ⟨hc, hd⟩ := fair_arrow ht
    obtain ⟨y, z, rfl, hay, hbz⟩ := hx
    obtain ⟨y', z', he, hcy, hdz⟩ := hx'
    obtain ⟨rfl, rfl⟩ := arrow_inj he
    simp only [List.mem_cons, List.not_mem_nil, or_false]
    rintro task (rfl | rfl)
    exacts [viable_agree hρ ha hc hay hcy, viable_agree hρ hb hd hbz hdz]
  | list s t =>
    obtain ⟨y, rfl, hy⟩ := hx
    obtain ⟨y', he, hy'⟩ := hx'
    obtain rfl := list_inj he
    simp only [List.mem_cons, List.not_mem_nil, or_false]
    rintro task rfl
    exact viable_agree hρ (fair_list hs) (fair_list ht) hy hy'
  | row k fields others tail tail' =>
    obtain ⟨htail, hfields⟩ := fair_row hs
    obtain ⟨htail', hothers⟩ := fair_row ht
    obtain ⟨f, y, rfl, hf, hy, hlacks⟩ := means_row.mp hx
    obtain ⟨g, z, he, hg, hz, hlacks'⟩ := means_row.mp hx'
    have hcy := hy.canonical hρ
    have hcz := hz.canonical hρ
    have hsub : ∀ {fields others : Row Ty} {f g : Label → Option Figure}, FieldsMean ρ fields f →
        FieldsMean ρ others g → Row.domain fields ⊆ Row.domain others →
          ∀ l, (f l).isSome → (g l).isSome := fun hf hg hsub l hl => by
      rw [hf.isSome_iff, ← Row.mem_domain] at hl
      exact hg.isSome_iff.mpr (Row.mem_domain.mp (hsub hl))
    intro task hmem
    rcases List.mem_append.mp hmem with hmem | hmem
    · obtain ⟨l, s, t, hl, hl', rfl⟩ := mem_sharedTasks hmem
      have hl' := Row.mem_of_lookup hl'
      obtain ⟨u, hu, hsu⟩ := hf.some _ hl
      obtain ⟨u', hu', htu⟩ := hg.some _ hl'
      have hsame := eq_of_front_eq hlacks hlacks' he (l := l) (by rw [hu, Option.isSome_some])
        (by rw [hu', Option.isSome_some])
      rw [hu, hu'] at hsame
      cases hsame
      exact viable_agree hρ (hfields _ hl) (hothers _ hl') hsu htu
    · rcases tailTasks_cases k fields others tail tail' with ⟨hdom, heq⟩ | ⟨hdiff, hdom, heq⟩ |
          ⟨hdiff, hdom, heq⟩ | ⟨hdiff, hdiff', heq⟩ <;>
        (rw [heq, List.mem_singleton] at hmem; rw [hmem])
      · have hyz := front_inj hcy hcz hlacks hlacks' he fun l =>
          ⟨hsub hf hg (hdom ▸ Finset.Subset.refl _) l, hsub hg hf (hdom ▸ Finset.Subset.refl _) l⟩
        exact viable_agree hρ htail htail' hy (hyz ▸ hz)
      · have hrest := eq_front_beside hcy hcz hlacks hlacks' he (hsub hg hf hdom)
        exact viable_agree hρ htail' (hs.difference hdiff htail) hz
          (means_row.mpr ⟨_, y, hrest, hf.difference hg, hy, hlacks.beside g⟩)
      · have hrest := eq_front_beside hcz hcy hlacks' hlacks he.symm (hsub hf hg hdom)
        exact viable_agree hρ htail (ht.difference hdiff htail') hy
          (means_row.mpr ⟨_, z, hrest, hg.difference hf, hz, hlacks'.beside f⟩)
      · obtain ⟨r, hr, rfl, rfl, hrf, hrg⟩ := exists_shared hcy hcz hlacks hlacks' he
        exact ⟨⟨hs.difference hdiff htail, ht.difference hdiff' htail'⟩, _, _, r, hr,
          hf.difference hg, hg.difference hf, hrf.beside g, hrg.beside f, hy, hz⟩

/-- **The shared tail can stand for what is behind the fields of both rows.** -/
theorem viable_of_meet {k : RowKind} {fields others : Row Ty} {tail tail' : Ty}
    (h : Viable bare gone c ρ (.meet k fields tail others tail')) (hρ : ∀ n, (ρ n).Canonical)
    (hpast : ∀ v, gone v → v < c) : ∃ r : Figure, r.Canonical ∧
      Viable bare gone (c + 1) (Function.update ρ c r) (.agree tail' (.row k fields (.var c))) ∧
      Viable bare gone (c + 1) (Function.update ρ c r) (.agree tail (.row k others (.var c))) := by
  obtain ⟨⟨hs, ht⟩, f, g, r, hr, hf, hg, hlacks, hlacks', hx, hx'⟩ := h
  obtain ⟨htail, hfields⟩ := fair_row hs
  obtain ⟨htail', hothers⟩ := fair_row ht
  have hle := Nat.le_succ c
  have hupdate := canonical_update hρ hr c
  have hkept : ∀ {t : Ty}, AllLive gone c t → ∀ v ∈ t.free, ρ v = Function.update ρ c r v :=
    fun h v hv => (Function.update_of_ne (Nat.ne_of_lt (h v hv).1) r ρ).symm
  have hshared : Fair bare gone (c + 1) (.var c) :=
    fair_var (live_fresh hpast (Nat.le_refl c) (Nat.lt_succ_self c))
  have hrow : ∀ {fields : Row Ty} {tail : Ty} {f : Label → Option Figure},
      Fair bare gone c (.row k fields tail) → FieldsMean ρ fields f → Lacks k r f →
        Fair bare gone (c + 1) (.row k fields (.var c)) ∧
          (Ty.row k fields (.var c)).Means (Function.update ρ c r) (front k f r) := by
    intro fields tail f hfair hf hlacks
    have hfields := (fair_row hfair).2
    refine ⟨.row (hfair.full.imp_right fun h => (full_row.mp h).1)
      (fun p hp => (hfields p hp).mono hle) hshared, means_row.mpr ⟨f, r, rfl, ?_, ?_, hlacks⟩⟩
    · exact hf.congr fun p hp => hkept (hfields p hp).live
    · exact means_var.mpr (Function.update_self c r ρ).symm
  obtain ⟨hthis, hthis'⟩ := hrow hs hf hlacks
  obtain ⟨hthat, hthat'⟩ := hrow ht hg hlacks'
  exact ⟨r, hr, viable_agree hupdate (htail'.mono hle) hthis (hx'.congr (hkept htail'.live)) hthis',
    viable_agree hupdate (htail.mono hle) hthat (hx.congr (hkept htail.live)) hthat'⟩

/-! ## Pending equations -/

/-- **The pending equations have a solution.** -/
structure PendingViable (bare : Prop) (gone : Nat → Prop) (ρ : Nat → Figure)
    (st : Solver) : Prop where
  canonical : ∀ n, (ρ n).Canonical
  past : ∀ v, gone v → v < st.counter
  equation : ∀ e ∈ st.pending, Live gone st.counter e.var ∧ Fair bare gone st.counter e.type ∧
    e.type.Means ρ (ρ e.var)

theorem PendingViable.noting {st : Solver} (h : PendingViable bare gone ρ st) (key : String) :
    PendingViable bare gone ρ (st.noting key) := ⟨h.canonical, h.past, h.equation⟩

theorem PendingViable.posting {st : Solver} {n : Nat} {t : Ty} (h : PendingViable bare gone ρ st)
    (hn : Live gone st.counter n) (ht : Fair bare gone st.counter t) (hx : t.Means ρ (ρ n)) :
    PendingViable bare gone ρ (st.posting n t) := by
  refine ⟨h.canonical, h.past, fun e he => ?_⟩
  rcases Equation.mem_post he with rfl | he
  · exact ⟨hn, ht, hx⟩
  · exact h.equation e he

/-- A variable is numbered that stands for some figure. -/
theorem PendingViable.counting {st : Solver} (h : PendingViable bare gone ρ st) {r : Figure}
    (hr : r.Canonical) :
    PendingViable bare gone (Function.update ρ st.counter r) st.counting := by
  have hkept : ∀ v < st.counter, Function.update ρ st.counter r v = ρ v := fun v hv =>
    Function.update_of_ne (Nat.ne_of_lt hv) r ρ
  refine ⟨canonical_update h.canonical hr _, fun v hv => (h.past v hv).trans_le (Nat.le_succ _),
    fun e he => ?_⟩
  · obtain ⟨hvar, htype, hx⟩ := h.equation e he
    refine ⟨hvar.mono (Nat.le_succ _), htype.mono (Nat.le_succ _), ?_⟩
    rw [hkept e.var hvar.1]
    exact hx.congr fun v hv => (hkept v (htype.live v hv).1).symm

/-! ## Opening binders -/

variable {b : Binder} {p : Nat} {body : Ty}

/-- The body of a binder in play, with a type in play for the bound variable. -/
theorem Fair.opened (h : Fair bare gone c (.bind b p body)) (hc : c ≤ c') {s : Ty}
    (hs : Fair bare gone c' s) : Fair bare gone c' (body.substitute [(p, s)]).flatten :=
  (Fair.substitute (fun v hv hn => (h.live v (mem_free_bind.mpr ⟨hv, hn⟩)).mono hc)
    (fun q hq => h.bound q (mem_binders_bind.mpr (Or.inr hq))) h.full hs).flatten

/-- **A binder opened keeps what a type can stand for**: for a `forall` the fresh variable does. -/
theorem openBinder_viable {st : Solver} (hst : PendingViable bare gone ρ st)
    (h : Fair bare gone st.counter (.bind b p body)) (hx : (Ty.bind b p body).Means ρ x) :
    ∃ u c ρ', (openBinder b p body).run st = (.ok u, st.numbering c) ∧ st.counter ≤ c ∧
      (∀ v < st.counter, ρ v = ρ' v) ∧ PendingViable bare gone ρ' (st.numbering c) ∧
      Fair bare gone c u ∧ u.Means ρ' x := by
  have hbound : ∀ q ∈ body.binders, gone q :=
    fun q hq => h.bound q (mem_binders_bind.mpr (Or.inr hq))
  have hle := Nat.le_succ st.counter
  cases b with
  | mu =>
    refine ⟨_, st.counter, ρ, rfl, le_rfl, fun _ _ => rfl, hst, h.opened le_rfl h, ?_⟩
    exact (hx.unfold fun q hq hfree => (h.live q hfree).2 (hbound q hq)).flatten hst.canonical
  | forAll =>
    obtain ⟨y, hy, -, hbody⟩ := means_bind.mp hx
    have hfresh : Live gone (st.counter + 1) st.counter :=
      live_fresh hst.past le_rfl (Nat.lt_succ_self _)
    refine ⟨_, st.counter + 1, Function.update ρ st.counter y, rfl, hle,
      fun v hv => (Function.update_of_ne (Nat.ne_of_lt hv) y ρ).symm, hst.counting hy,
      h.opened hle (fair_var hfresh), Means.flatten ?_ (canonical_update hst.canonical hy _)⟩
    refine hbody.substitute (replaces_single ?_ fun v hv hn => ?_)
      (catchesNone_single fun q hq => ?_)
    · rw [means_var, Function.update_self, Function.update_self]
    · rw [Function.update_of_ne hn, Function.update_of_ne]
      exact Nat.ne_of_lt (h.live v (mem_free_bind.mpr ⟨hv, hn⟩)).1
    · rw [free_var, List.mem_singleton]
      rintro rfl
      exact hfresh.2 (hbound _ hq)

/-- **Opening binders keeps what two types can stand for.** -/
theorem openBinders_viable {key : String} : ∀ {n : Nat} {s t s' t' : Ty} {ρ : Nat → Figure}
    {st mid : Solver}, PendingViable bare gone ρ st → Fair bare gone st.counter s →
      Fair bare gone st.counter t → s.Means ρ x → t.Means ρ x →
      (openBinders key n s t).run st = (.ok (s', t'), mid) →
        ∃ ρ', (∀ v < st.counter, ρ v = ρ' v) ∧ st.counter ≤ mid.counter ∧
          PendingViable bare gone ρ' mid ∧ Viable bare gone mid.counter ρ' (.agree s' t')
  | 0, _, _, _, _, _, _, _, _, _, _, _, _, h => by cases h
  | n + 1, s, t, s', t', ρ, st, mid, hst, hs, ht, hx, hx', h => by
    rw [openBinders_eq] at h
    split at h
    case h_1 => contradiction
    case h_2 hn =>
      cases hn
      obtain ⟨u, c, ρ₁, hrun, hc, hρ₁, hst₁, hu, hux⟩ := openBinder_viable hst hs hx
      rw [Run.run_bind, hrun] at h
      obtain ⟨ρ₂, hρ₂, hc₂, hmid⟩ := openBinders_viable hst₁ hu (ht.mono hc) hux
        (hx'.congr fun v hv => hρ₁ v (ht.live v hv).1) h
      exact ⟨ρ₂, fun v hv => (hρ₁ v hv).trans (hρ₂ v (hv.trans_le hc)), hc.trans hc₂, hmid⟩
    case h_3 hn _ =>
      cases hn
      obtain ⟨u, c, ρ₁, hrun, hc, hρ₁, hst₁, hu, hux⟩ := openBinder_viable hst ht hx'
      rw [Run.run_bind, hrun] at h
      obtain ⟨ρ₂, hρ₂, hc₂, hmid⟩ := openBinders_viable hst₁ (hs.mono hc) hu
        (hx.congr fun v hv => hρ₁ v (hs.live v hv).1) hux h
      exact ⟨ρ₂, fun v hv => (hρ₁ v hv).trans (hρ₂ v (hv.trans_le hc)), hc.trans hc₂, hmid⟩
    case h_4 =>
      cases h
      exact ⟨ρ, fun _ _ => rfl, le_rfl, hst, viable_agree hst.canonical hs ht hx hx'⟩

/-! ## Comparisons -/

/-- A mismatch is about a row without fields. -/
def OnlyBare (bare : Prop) (r : Except TypeFailure Unit) : Prop :=
  ∀ s t, r = .error (.mismatch s t) → bare ∧ (s.Bare ∨ t.Bare)

/-- **Comparisons that have a solution come upon no mismatch but that of a row without fields**, and
what they post has a solution. -/
theorem Course.viable {ts : List Task} {st st' : Solver} {r : Except TypeFailure Unit}
    (h : Course ts st r st') : ∀ {ρ : Nat → Figure}, PendingViable bare gone ρ st →
      (∀ task ∈ ts, Viable bare gone st.counter ρ task) → OnlyBare bare r ∧
        (r = .ok () → ∃ ρ', (∀ v < st.counter, ρ v = ρ' v) ∧ PendingViable bare gone ρ' st') := by
  induction h with
  | nil st => exact fun hst _ => ⟨fun s t h => (by cases h), fun _ => ⟨_, fun _ _ => rfl, hst⟩⟩
  | tooDeep => exact fun _ _ => ⟨fun s t h => (by cases h), fun h => (by cases h)⟩
  | known _ _ ih => exact fun hst hts => ih hst fun task h => hts task (List.mem_cons_of_mem _ h)
  | @defer s t ts n u st r st' hkey hout _ ih =>
    intro ρ hst hts
    obtain ⟨⟨hs, ht⟩, x, hx, hx'⟩ := hts _ List.mem_cons_self
    obtain ⟨-, ⟨hn, hu⟩ | ⟨hn, hu⟩⟩ := outcome_eq_defer hout
    · rw [hn, means_var] at hx
      refine ih ((hst.noting _).posting ?_ (hu ▸ ht.flatten) (hx ▸ hu ▸ hx'))
        fun task h => hts task (List.mem_cons_of_mem _ h)
      exact allLive_var.mp (hn ▸ hs.flatten.live)
    · rw [hn, means_var] at hx'
      refine ih ((hst.noting _).posting ?_ (hu ▸ hs.flatten) (hx' ▸ hu ▸ hx))
        fun task h => hts task (List.mem_cons_of_mem _ h)
      exact allLive_var.mp (hn ▸ ht.flatten.live)
  | clash _ _ hout =>
    intro ρ hst hts
    obtain ⟨⟨hs, ht⟩, x, hx, hx'⟩ := hts _ List.mem_cons_self
    refine ⟨fun s' t' h => ?_, fun h => (by cases h)⟩
    cases h
    have hbare := bare_of_clash hout hx hx'
    refine ⟨?_, hbare⟩
    rcases hbare with hbare | hbare
    exacts [hs.flatten.full.resolve_right fun h => h.not_bare hbare,
      ht.flatten.full.resolve_right fun h => h.not_bare hbare]
  | endless _ _ _ hopen =>
    intro ρ _ _
    refine ⟨fun s' t' h => ?_, fun h => (by cases h)⟩
    cases h
    cases openBinders_error hopen
  | reopen _ _ hopen _ ih =>
    intro ρ hst hts
    obtain ⟨⟨hs, ht⟩, x, hx, hx'⟩ := hts _ List.mem_cons_self
    obtain ⟨ρ₁, hρ₁, hc, hmid, hviable⟩ :=
      openBinders_viable (hst.noting _) hs.flatten ht.flatten hx hx' hopen
    obtain ⟨honly, hend⟩ := ih hmid fun task h => by
      rcases List.mem_cons.mp h with rfl | h
      exacts [hviable, (hts task (List.mem_cons_of_mem _ h)).mono hc hρ₁]
    refine ⟨honly, fun h => ?_⟩
    obtain ⟨ρ', hρ', hst'⟩ := hend h
    exact ⟨ρ', fun v hv => (hρ₁ v hv).trans (hρ' v (hv.trans_le hc)), hst'⟩
  | split _ hout _ ih =>
    intro ρ hst hts
    obtain ⟨⟨hs, ht⟩, x, hx, hx'⟩ := hts _ List.mem_cons_self
    refine ih (hst.noting _) fun task h => ?_
    rcases List.mem_append.mp h with h | h
    · exact viable_of_splits (outcome_eq_split hout) hst.canonical hs.flatten ht.flatten
        hx hx' task h
    · exact hts task (List.mem_cons_of_mem _ h)
  | @meet k fields tail others tail' ts st r st' _ ih =>
    intro ρ hst hts
    obtain ⟨x, hx, hthis, hthat⟩ := viable_of_meet (hts _ List.mem_cons_self) hst.canonical hst.past
    have hkept : ∀ v < st.counter, ρ v = Function.update ρ st.counter x v := fun v hv =>
      (Function.update_of_ne (Nat.ne_of_lt hv) x ρ).symm
    obtain ⟨honly, hok⟩ := ih (hst.counting hx) fun task h => by
      rcases List.mem_cons.mp h with rfl | h
      · exact hthis
      rcases List.mem_cons.mp h with rfl | h
      · exact hthat
      · exact (hts task (List.mem_cons_of_mem _ h)).mono (Nat.le_succ _) hkept
    refine ⟨honly, fun h => ?_⟩
    obtain ⟨ρ', hρ', hst'⟩ := hok h
    exact ⟨ρ', fun v hv => (hkept v hv).trans (hρ' v (Nat.lt_succ_of_lt hv)), hst'⟩

end Solver

end RowLang
