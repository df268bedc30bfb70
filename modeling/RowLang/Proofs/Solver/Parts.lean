import RowLang.Proofs.Solver.Outcome
import RowLang.Proofs.Ty.Good

/-!
# Proofs/Solver/Parts — what an equality comes to is about good types again

The outcome of an equality of two good types in one place defers an equation of a variable with a
good type in that place, opens binders to good types there, or asks for good parts: those of fields
are something whole, and tails take the place behind the fields that are done.
-/

namespace RowLang.Solver

open Ty

variable {K K' : Census} {r : Role}

/-! ## The outcome -/

/-- How an equality of two flat types splits. -/
inductive Splits : Ty → Ty → List Task → Prop
  | same (t : Ty) : Splits t t []
  | arrow (a b c d : Ty) : Splits (.arrow a b) (.arrow c d) [.agree a c, .agree b d]
  | list (s t : Ty) : Splits (.list s) (.list t) [.agree s t]
  | row (k : RowKind) (fields others : Row Ty) (tail tail' : Ty) :
      Splits (.row k fields tail) (.row k others tail')
        (sharedTasks fields others ++ tailTasks k fields others tail tail')

theorem outcome_eq_split {s t : Ty} {tasks : List Task} (h : outcome s t = .split tasks) :
    Splits s t tasks := by
  unfold outcome at h
  split at h
  case h_1 m n =>
    split at h
    case isTrue he => cases h; exact he ▸ .same _
    case isFalse => cases h
  case h_8 k fields tail k' others tail' =>
    split at h
    case isTrue he => cases h; exact he ▸ .row ..
    case isFalse => cases h
  all_goals cases h
  all_goals constructor

theorem outcome_eq_defer {s t u : Ty} {n : Nat} (h : outcome s t = .defer n u) :
    u ≠ .var n ∧ ((s = .var n ∧ t = u) ∨ (t = .var n ∧ s = u)) := by
  unfold outcome at h
  split at h
  case h_1 m n' =>
    split at h
    case isTrue => cases h
    case isFalse hne => cases h; exact ⟨fun he => hne (by simpa using he.symm), Or.inl ⟨rfl, rfl⟩⟩
  case h_2 hne => cases h; exact ⟨hne _, Or.inl ⟨rfl, rfl⟩⟩
  case h_3 hne => cases h; exact ⟨fun he => hne _ he, Or.inr ⟨rfl, rfl⟩⟩
  case h_8 => split at h <;> cases h
  all_goals cases h

theorem outcome_eq_reopen {s t : Ty} (h : outcome s t = .reopen) :
    (∃ b n body, s = .bind b n body) ∨ ∃ b n body, t = .bind b n body := by
  unfold outcome at h
  split at h
  case h_4 => exact Or.inl ⟨_, _, _, rfl⟩
  case h_5 => exact Or.inr ⟨_, _, _, rfl⟩
  case h_1 => split at h <;> cases h
  case h_8 => split at h <;> cases h
  all_goals cases h

/-- A marker is no row. -/
theorem outcome_end_row (k : RowKind) (fields : Row Ty) (tail : Ty) :
    outcome k.end.flatten (Ty.row k fields tail).flatten = .clash := by
  rw [Ty.flatten]
  unfold prependRow
  cases k <;> (split <;> first | rfl | (split <;> rfl))

/-! ## Tails -/

/-- The tail of a flat row is no row of its kind. -/
theorem flatten_tail_ne_row {t : Ty} : ∀ {k fields tail}, t.flatten = .row k fields tail →
    ∀ inner rest, tail ≠ .row k inner rest := by
  induction t using Ty.inductOn with
  | number | char | unit | empty | var | arrow | list | bind =>
    intro k fields tail h
    rw [Ty.flatten] at h
    cases h
  | row k' fs tl _ iht =>
    intro k fields tail h inner rest he
    rw [Ty.flatten] at h
    cases hflat : tl.flatten with
    | row k'' inner' rest' =>
      rw [hflat, prependRow] at h
      split at h
      case isTrue hk =>
        rw [row.injEq] at h
        obtain ⟨rfl, -, rfl⟩ := h
        exact iht hflat inner rest (hk ▸ he)
      case isFalse hk =>
        rw [row.injEq] at h
        obtain ⟨rfl, -, rfl⟩ := h
        exact hk (by cases he; rfl)
    | _ =>
      rw [hflat, prependRow, row.injEq] at h
      · obtain ⟨-, -, rfl⟩ := h
        cases he
      all_goals simp

/-- A good row that is flat has a tail that is no row. -/
theorem tail_ne_row {t tail : Ty} {k : RowKind} {fields : Row Ty}
    (h : t.flatten = .row k fields tail)
    (hgood : t.flatten.Good K r) : ∀ k' inner rest, tail ≠ .row k' inner rest := by
  rintro k' inner rest rfl
  rw [h] at hgood
  obtain ⟨-, -, -, -, ht⟩ := good_row.mp hgood
  obtain ⟨rfl, -⟩ := (good_row.mp ht).1
  exact flatten_tail_ne_row h inner rest rfl

/-- Fields that may stand in a place that has this room. -/
structure GoodFields (K : Census) (room : Finset Label) (fields : Row Ty) : Prop where
  ne_nil : fields ≠ []
  tidy : Row.Tidy fields
  room : Row.domain fields ⊆ room
  good : ∀ p ∈ fields, p.2.Good K .whole

theorem GoodFields.mono {room : Finset Label} {fields : Row Ty} (h : GoodFields K room fields)
    (hK : K.Le K') : GoodFields K' room fields :=
  ⟨h.ne_nil, h.tidy, h.room, fun p hp => (h.good p hp).mono hK⟩

theorem GoodFields.tidy_row {room : Finset Label} {fields : Row Ty} (h : GoodFields K room fields)
    {k : RowKind} {tail : Ty} (ht : tail.Tidy) : (Ty.row k fields tail).Tidy :=
  Ty.tidy_row.mpr ⟨h.tidy, fun p hp => (h.good p hp).tidy, ht⟩

theorem GoodFields.row {room : Finset Label} {fields : Row Ty} (h : GoodFields K room fields)
    {k : RowKind} {tail : Ty} (ht : tail.Good K (.tail k (room \ Row.domain fields))) :
    (Ty.row k fields tail).Good K (.tail k room) :=
  good_row.mpr ⟨⟨rfl, h.ne_nil⟩, h.tidy, h.room, h.good, ht⟩

/-- The fields of one row that another lacks may stand behind the other. -/
theorem goodFields_difference {k : RowKind} {fields others : Row Ty} {tail : Ty}
    (h : (Ty.row k fields tail).Good K r) (hne : Row.difference id fields others ≠ []) :
    GoodFields K (r.room K.labels \ Row.domain others) (Row.difference id fields others) := by
  obtain ⟨-, htidy, hroom, hf, -⟩ := good_row.mp h
  refine ⟨hne, htidy.difference others, ?_, fun p hp => hf p (Row.mem_difference.mp hp).1⟩
  rw [Row.domain_difference]
  exact Finset.sdiff_subset_sdiff hroom (Finset.Subset.refl _)

theorem sdiff_sdiff_difference (room A B : Finset Label) :
    (room \ B) \ (A \ B) = (room \ A) \ (B \ A) := by
  ext l
  simp only [Finset.mem_sdiff]
  tauto

/-- What one row has more than another that has nothing more may stand behind the other. -/
theorem good_rest {k : RowKind} {fields others : Row Ty} {tail : Ty}
    (h : (Ty.row k fields tail).Good K r) (hne : Row.difference id fields others ≠ [])
    (hsub : Row.domain others ⊆ Row.domain fields) :
    (Ty.row k (Row.difference id fields others) tail).Good K (r.behind K.labels k others) := by
  obtain ⟨-, -, -, -, ht⟩ := good_row.mp h
  refine (goodFields_difference h hne).row ?_
  have hroom : (r.room K.labels \ Row.domain others) \ Row.domain (Row.difference id fields others)
      = r.room K.labels \ Row.domain fields := by
    rw [Row.domain_difference, sdiff_sdiff_difference, Finset.sdiff_eq_empty_iff_subset.mpr hsub,
      Finset.sdiff_empty]
  rw [hroom]
  exact ht

/-- **What is left of two rows**: their tails agree, one tail is what the other row has more, or
each tail has what the other row has more. -/
theorem tailTasks_cases (k : RowKind) (fields others : Row Ty) (tail tail' : Ty) :
    (Row.domain fields = Row.domain others ∧
      tailTasks k fields others tail tail' = [.agree tail tail']) ∨
    (Row.difference id fields others ≠ [] ∧ Row.domain others ⊆ Row.domain fields ∧
      tailTasks k fields others tail tail'
        = [.agree tail' (.row k (Row.difference id fields others) tail)]) ∨
    (Row.difference id others fields ≠ [] ∧ Row.domain fields ⊆ Row.domain others ∧
      tailTasks k fields others tail tail'
        = [.agree tail (.row k (Row.difference id others fields) tail')]) ∨
    (Row.difference id fields others ≠ [] ∧ Row.difference id others fields ≠ [] ∧
      tailTasks k fields others tail tail' = [.meet k (Row.difference id fields others) tail
        (Row.difference id others fields) tail']) := by
  rw [tailTasks]
  cases hthis : Row.difference id fields others with
  | nil =>
    have hsub := Row.difference_eq_nil_iff.mp hthis
    cases hthat : Row.difference id others fields with
    | nil => exact Or.inl ⟨hsub.antisymm (Row.difference_eq_nil_iff.mp hthat), rfl⟩
    | cons => exact Or.inr (Or.inr (Or.inl ⟨by simp, hsub, rfl⟩))
  | cons =>
    cases hthat : Row.difference id others fields with
    | nil => exact Or.inr (Or.inl ⟨by simp, Row.difference_eq_nil_iff.mp hthat, rfl⟩)
    | cons => exact Or.inr (Or.inr (Or.inr ⟨by simp, by simp, rfl⟩))

/-! ## Good tasks -/

/-- A task about good types in one place. -/
def GoodTask (K : Census) : Task → Prop
  | .agree s t => ∃ r, s.Good K r ∧ t.Good K r
  | .meet k fields tail others tail' => ∃ room room',
      tail.Good K (.tail k room) ∧ tail'.Good K (.tail k room') ∧
      GoodFields K room' fields ∧ GoodFields K room others ∧
      room' \ Row.domain fields = room \ Row.domain others ∧
      (∀ k' inner rest, tail ≠ .row k' inner rest) ∧ ∀ k' inner rest, tail' ≠ .row k' inner rest

theorem GoodTask.mono {task : Task} (h : GoodTask K task) (hK : K.Le K') : GoodTask K' task := by
  cases task with
  | agree s t =>
    obtain ⟨r, hs, ht⟩ := h
    exact ⟨r, hs.mono hK, ht.mono hK⟩
  | meet k fields tail others tail' =>
    obtain ⟨room, room', ht, ht', hf, ho, hroom, hne, hne'⟩ := h
    exact ⟨room, room', ht.mono hK, ht'.mono hK, hf.mono hK, ho.mono hK, hroom, hne, hne'⟩

theorem mem_sharedTasks {fields others : Row Ty} {task : Task}
    (h : task ∈ sharedTasks fields others) :
    ∃ l s t, (l, s) ∈ fields ∧ others.lookup l = some t ∧ task = .agree s t := by
  simp only [sharedTasks, Row.intersect, List.mem_map, List.mem_filterMap,
    Option.map_eq_some_iff] at h
  obtain ⟨_, ⟨⟨l, s⟩, hp, t, ht, rfl⟩, rfl⟩ := h
  exact ⟨l, s, t, hp, ht, rfl⟩

theorem mem_sharedTasks_of_mem {fields others : Row Ty} {l : Label} {s t : Ty}
    (hs : (l, s) ∈ fields)
    (ht : others.lookup l = some t) : Task.agree s t ∈ sharedTasks fields others := by
  simp only [sharedTasks, Row.intersect, List.mem_map, List.mem_filterMap,
    Option.map_eq_some_iff]
  exact ⟨_, ⟨(l, s), hs, t, ht, rfl⟩, rfl⟩

/-- **An equality of good types defers a good equation.** -/
theorem good_of_defer {s t u : Ty} {n : Nat} (hs : s.Good K r) (ht : t.Good K r)
    (h : outcome s t = .defer n u) : K.free n ∧ u.Good K (K.role n) ∧ u ≠ .var n := by
  obtain ⟨hne, ⟨rfl, rfl⟩ | ⟨rfl, rfl⟩⟩ := outcome_eq_defer h
  · exact ⟨hs.closed n (by simp), hs.fits.1 ▸ ht, hne⟩
  · exact ⟨ht.closed n (by simp), ht.fits.1 ▸ hs, hne⟩

/-- **An equality of good types asks for good tasks.** -/
theorem goodTask_of_split {s t : Ty} {tasks : List Task} (hs : s.Good K r) (ht : t.Good K r)
    (h : outcome s.flatten t.flatten = .split tasks) : ∀ task ∈ tasks, GoodTask K task := by
  have hs' := hs.flatten
  have ht' := ht.flatten
  generalize hsf : s.flatten = s' at *
  generalize htf : t.flatten = t' at *
  cases outcome_eq_split h with
  | same => simp
  | arrow a b c d =>
    obtain ⟨-, ha, hb⟩ := good_arrow.mp hs'
    obtain ⟨-, hc, hd⟩ := good_arrow.mp ht'
    simp only [List.mem_cons, List.not_mem_nil, or_false]
    rintro task (rfl | rfl)
    exacts [⟨_, ha, hc⟩, ⟨_, hb, hd⟩]
  | list s t =>
    simp only [List.mem_cons, List.not_mem_nil, or_false]
    rintro task rfl
    exact ⟨_, (good_list.mp hs').2, (good_list.mp ht').2⟩
  | row k fields others tail tail' =>
    have hne := tail_ne_row hsf (hsf ▸ hs')
    have hne' := tail_ne_row htf (htf ▸ ht')
    obtain ⟨-, -, -, hf, htail⟩ := good_row.mp hs'
    obtain ⟨-, -, -, ho, htail'⟩ := good_row.mp ht'
    intro task hmem
    rcases List.mem_append.mp hmem with hmem | hmem
    · obtain ⟨l, s, t, hl, hl', rfl⟩ := mem_sharedTasks hmem
      exact ⟨_, hf _ hl, ho _ (Row.mem_of_lookup hl')⟩
    · rcases tailTasks_cases k fields others tail tail' with ⟨hdom, heq⟩ | ⟨hdiff, hsub, heq⟩ |
          ⟨hdiff, hsub, heq⟩ | ⟨hdiff, hdiff', heq⟩ <;>
        (rw [heq, List.mem_singleton] at hmem; rw [hmem])
      · rw [Role.behind, hdom] at htail
        exact ⟨_, htail, htail'⟩
      · exact ⟨_, htail', good_rest hs' hdiff hsub⟩
      · exact ⟨_, htail, good_rest ht' hdiff hsub⟩
      · refine ⟨_, _, htail, htail', goodFields_difference hs' hdiff,
          goodFields_difference ht' hdiff', ?_, hne, hne'⟩
        rw [Row.domain_difference, Row.domain_difference, sdiff_sdiff_difference]

/-! ## Opening binders -/

theorem openBinders_left (key : String) (n p : Nat) (body t : Ty) :
    openBinders key (n + 1) (.bind .mu p body) t = openBinders key n (unfold p body).flatten t :=
  rfl

theorem openBinders_right (key : String) (n p : Nat) (body : Ty) {s : Ty}
    (hs : ∀ b n body, s ≠ .bind b n body) :
    openBinders key (n + 1) s (.bind .mu p body) = openBinders key n s (unfold p body).flatten := by
  cases s with
  | bind => exact absurd rfl (hs _ _ _)
  | _ => rfl

theorem openBinders_done (key : String) (n : Nat) {s t : Ty} (hs : ∀ b n body, s ≠ .bind b n body)
    (ht : ∀ b n body, t ≠ .bind b n body) : openBinders key (n + 1) s t = pure (s, t) := by
  cases s with
  | bind => exact absurd rfl (hs _ _ _)
  | _ =>
    cases t with
    | bind => exact absurd rfl (ht _ _ _)
    | _ => rfl

theorem ne_bind_or_mu {t : Ty} (h : t.Good K r) :
    (∀ b n body, t ≠ .bind b n body) ∨ ∃ p body, t = .bind .mu p body := by
  cases t with
  | bind b n body =>
    cases b with
    | mu => exact Or.inr ⟨_, _, rfl⟩
    | forAll => exact h.fits.elim
  | _ => exact Or.inl (by simp)

/-- **Opening binders of good types** changes no state, no place and no tree, and ends without one.
-/
theorem openBinders_good {key : String} : ∀ {n : Nat} {s t s' t' : Ty} {st mid : Solver},
    s.Good K r → t.Good K r → (openBinders key n s t).run st = (.ok (s', t'), mid) →
      mid = st ∧ s'.Good K r ∧ t'.Good K r ∧ (∀ ρ, s'.tree ρ = s.tree ρ) ∧
        (∀ ρ, t'.tree ρ = t.tree ρ) ∧ (∀ b n body, s' ≠ .bind b n body) ∧
        ∀ b n body, t' ≠ .bind b n body
  | 0, _, _, _, _, _, _, _, _, h => by cases h
  | n + 1, s, t, s', t', st, mid, hs, ht, h => by
    have hopen : ∀ {p body}, (Ty.bind .mu p body).Good K r →
        (unfold p body).flatten.Good K r ∧
          ∀ ρ, (unfold p body).flatten.tree ρ = (Ty.bind .mu p body).tree ρ := fun hb =>
      ⟨hb.unfold.flatten, fun ρ => by rw [tree_flatten hb.unfold.tidy, hb.tree_unfold]⟩
    rcases ne_bind_or_mu hs with hs' | ⟨p, body, rfl⟩
    · rcases ne_bind_or_mu ht with ht' | ⟨p, body, rfl⟩
      · rw [openBinders_done key n hs' ht'] at h
        cases h
        exact ⟨rfl, hs, ht, fun _ => rfl, fun _ => rfl, hs', ht'⟩
      · rw [openBinders_right key n p body hs'] at h
        obtain ⟨hgood, htree⟩ := hopen ht
        obtain ⟨hmid, hg, hg', hρ, hρ', hne, hne'⟩ := openBinders_good hs hgood h
        exact ⟨hmid, hg, hg', hρ, fun ρ => (hρ' ρ).trans (htree ρ), hne, hne'⟩
    · rw [openBinders_left] at h
      obtain ⟨hgood, htree⟩ := hopen hs
      obtain ⟨hmid, hg, hg', hρ, hρ', hne, hne'⟩ := openBinders_good hgood ht h
      exact ⟨hmid, hg, hg', fun ρ => (hρ ρ).trans (htree ρ), hρ', hne, hne'⟩

end RowLang.Solver
