import RowLang.Proofs.Solver.Key
import RowLang.Proofs.Solver.Parts
import RowLang.Proofs.Solver.Outcome
import RowLang.Proofs.Solver.Grows
import RowLang.Proofs.Ty.Comparable

/-!
# Proofs/Solver/Verdict — comparing closed types comes to an end

All the types that a comparison of closed types comes to lie in a finite set that is closed under
parts and unfolding (`Universe`), so it can consider only finitely many equalities, each of them
once.  Nested as deep as there are equalities left, it says that the types agree or that they clash
(`Verdict`).  A clash is never wrong, and types of one tree never clash and lose no equality on the
way.
-/

namespace RowLang.Solver

open Ty

/-- A finite set of closed types in which a comparison stays. -/
structure Universe (L : Finset Label) (U : Set Ty) : Prop where
  finite : U.Finite
  ended : ∀ u ∈ U, u.Ended
  good : ∀ u ∈ U, u.Good (closing L) .whole
  stacking : ∀ u ∈ U, u.stacked < maxStacked
  part : ∀ u ∈ U, ∀ v, Part u v → v ∈ U

theorem Universe.anchored {L : Finset Label} {U : Set Ty} (hU : Universe L U) (u : Ty)
    (hu : u ∈ U) :
    u.Anchored :=
  (hU.good u hu).fits.anchored_or_end.resolve_right (by simp [Role.kind?])

/-! ## Verdicts -/

/-- What a comparison may come to that should succeed just if `same`: it changes nothing but the
memo, or it finds a clash, or it is nested too deeply. -/
inductive Verdict (U : Set Ty) (same : Prop) (budget : Nat) (st : Solver) :
    Except TypeFailure Unit × Solver → Prop
  | agreed {st'} : st'.pending = st.pending → (∀ key ∈ st.visited, key ∈ st'.visited) →
      (same → st'.Lost → st.Lost) → Verdict U same budget st (.ok (), st')
  | clashed {s t st'} : ¬ same → Verdict U same budget st (.error (.mismatch s t), st')
  | tooDeep {st'} : budget < unseen U st + 2 → Verdict U same budget st (.error .tooDeep, st')

section

variable {L : Finset Label} {U : Set Ty} {same same' : Prop} {budget : Nat} {st : Solver}

theorem Verdict.weaken {r : Except TypeFailure Unit × Solver} (h : Verdict U same budget st r)
    (himp : same' → same) : Verdict U same' budget st r := by
  cases h with
  | agreed hp hv hl => exact .agreed hp hv fun hs => hl (himp hs)
  | clashed hs => exact .clashed fun hs' => hs (himp hs')
  | tooDeep hb => exact .tooDeep hb

theorem Verdict.of_counting {r : Except TypeFailure Unit × Solver}
    (h : Verdict U same budget st.counting r) : Verdict U same budget st r := by
  cases h with
  | agreed hp hv hl => exact .agreed hp hv hl
  | clashed hs => exact .clashed hs
  | tooDeep hb => exact .tooDeep hb

/-- One comparison after another. -/
theorem Verdict.andThen (hU : Universe L U) {m m' : Solving Unit}
    (h : Verdict U same budget st (m.run st))
    (h' : ∀ st', Verdict U same' budget st' (m'.run st')) :
    Verdict U (same ∧ same') budget st ((m >>= fun _ => m').run st) := by
  rw [Run.run_bind]
  generalize m.run st = r at h
  cases h with
  | clashed hs => exact .clashed fun hboth => hs hboth.1
  | tooDeep hb => exact .tooDeep hb
  | @agreed st₁ hp hv hl =>
    dsimp only
    have h₁ := h' st₁
    generalize m'.run st₁ = r at h₁
    cases h₁ with
    | agreed hp' hv' hl' =>
      exact .agreed (hp'.trans hp) (fun key hkey => hv' key (hv key hkey))
        fun hboth hlost => hl hboth.1 (hl' hboth.2 hlost)
    | clashed hs => exact .clashed fun hboth => hs hboth.2
    | tooDeep hb => exact .tooDeep (hb.trans_le (Nat.add_le_add_right (unseen_le hU.finite hv) 2))

/-- Comparisons one after the other. -/
theorem verdict_forM (hU : Universe L U) {P : Task → Prop} : ∀ {tasks : List Task},
    (∀ task ∈ tasks, ∀ st, Verdict U (P task) budget st ((perform budget task).run st)) →
    ∀ st, Verdict U (∀ task ∈ tasks, P task) budget st ((tasks.forM (perform budget)).run st)
  | [], _, _ => .agreed rfl (fun _ h => h) fun _ h => h
  | task :: _, h, st =>
    (Verdict.andThen hU (h task List.mem_cons_self st)
      (verdict_forM hU fun task hmem => h task (List.mem_cons_of_mem _ hmem))).weaken
      fun hall => ⟨hall task List.mem_cons_self,
        fun task hmem => hall task (List.mem_cons_of_mem _ hmem)⟩

/-! ## Tails -/

theorem lost_noting {key : String} (h : (st.noting key).Lost) : st.Lost ∨
    ∃ k fields tail, fields ≠ [] ∧ (Ty.row k fields tail).Tidy ∧
      key = equalityKey k.end (.row k fields tail) := by
  obtain ⟨k, fields, tail, hne, htidy, hmem⟩ := h
  rcases List.mem_cons.mp hmem with he | hmem
  · exact Or.inr ⟨k, fields, tail, hne, htidy, he.symm⟩
  · exact Or.inl ⟨k, fields, tail, hne, htidy, hmem⟩

/-- What an equality comes to, seen from before it was noted. -/
theorem Verdict.of_noting {key : String} {budget' : Nat} {r : Except TypeFailure Unit × Solver}
    (h : Verdict U same budget (st.noting key) r)
    (hlost : same → ∀ k fields tail, fields ≠ [] → (Ty.row k fields tail).Tidy →
      key ≠ equalityKey k.end (.row k fields tail))
    (hbudget : budget < unseen U (st.noting key) + 2 → budget' < unseen U st + 2) :
    Verdict U same budget' st r := by
  cases h with
  | agreed hp hv hl =>
    refine .agreed hp (fun key hkey => hv key (List.mem_cons_of_mem _ hkey)) fun hs hl' => ?_
    exact (lost_noting (hl hs hl')).resolve_right fun ⟨k, fields, tail, hne, htidy, hkey⟩ =>
      hlost hs k fields tail hne htidy hkey
  | clashed hs => exact .clashed hs
  | tooDeep hb => exact .tooDeep (hbudget hb)

/-- **No equality that holds is lost**: one with the key of a lost equality has an empty row on one
side and fields on the other. -/
theorem key_ne_of_sameTree {s t : Ty} (hs : s.Anchored) (ht : t.Anchored) (hst : s.Tidy)
    (htt : t.Tidy) (hsame : SameTree s t) {k : RowKind} {fields : Row Ty} {tail : Ty}
    (hne : fields ≠ []) (htidy : (Ty.row k fields tail).Tidy) :
    equalityKey s t ≠ equalityKey k.end (.row k fields tail) := by
  intro hkey
  obtain ⟨hstext, httext⟩ := text_eq_of_equalityKey_eq hst (tidy_end k) hkey
  have hshown := shown_eq_of_text_eq htt htidy httext
  rw [ht.shown_eq, shown_row] at hshown
  obtain ⟨fields', tail', rfl, hf, -⟩ := eq_row_of_ordered_eq hshown
  rw [hs.eq_empty_row hst hstext] at hsame
  rw [fields_eq_nil_of_sameTree hsame] at hf
  exact hne (Row.sorted_eq_nil.mp (List.map_eq_nil_iff.mp hf.symm))

theorem end_text_ne {k : RowKind} {fields : Row Ty} {tail : Ty} (hne : fields ≠ [])
    (htidy : (Ty.row k fields tail).Tidy) : k.end.text ≠ (Ty.row k fields tail).text := by
  intro h
  have hshown := shown_eq_of_text_eq (tidy_end k) htidy h
  rw [shown_end, shown_row, row.injEq] at hshown
  exact hne (Row.sorted_eq_nil.mp (List.map_eq_nil_iff.mp hshown.2.1.symm))

/-- Two markers of one kind agree. -/
theorem verdict_end_end (k : RowKind) :
    Verdict U True budget st ((equate budget k.end k.end).run st) := by
  cases budget with
  | zero => exact .tooDeep (Nat.succ_pos _)
  | succ budget =>
    rw [equate_succ]
    split
    · exact .agreed rfl (fun _ h => h) fun _ h => h
    · have hrun : (follow budget (equalityKey k.end k.end) k.end.flatten k.end.flatten
          (outcome k.end.flatten k.end.flatten)) = pure () := by cases k <;> rfl
      rw [hrun]
      refine .agreed rfl (fun _ h => List.mem_cons_of_mem _ h) fun _ hlost => ?_
      refine (lost_noting hlost).resolve_right ?_
      rintro ⟨k', fields, tail, hne, htidy, hkey⟩
      obtain ⟨hk, htext⟩ := text_eq_of_equalityKey_eq (tidy_end k) (tidy_end k') hkey
      obtain rfl := end_text_injective hk
      exact end_text_ne hne htidy htext

/-- A marker agrees with no row, whatever is said. -/
theorem verdict_end_row (k : RowKind) (fields : Row Ty) (tail : Ty) :
    Verdict U False budget st ((equate budget k.end (.row k fields tail)).run st) := by
  cases budget with
  | zero => exact .tooDeep (Nat.succ_pos _)
  | succ budget =>
    rw [equate_succ]
    split
    · exact .agreed rfl (fun _ h => h) fun h => h.elim
    · rw [outcome_end_row]
      exact .clashed id

/-! ## Opening binders -/

/-- **Binders of closed types come to an end**: each one opened leaves one less in front. -/
theorem Universe.openBinders (hU : Universe L U) {key : String} : ∀ {n : Nat} {s t : Ty},
    s ∈ U → t ∈ U → s.stacked + t.stacked < n → ∃ s' ∈ U, ∃ t' ∈ U,
      (Solver.openBinders key n s t).run st = (.ok (s', t'), st)
  | 0, _, _, _, _, h => absurd h (Nat.not_lt_zero _)
  | n + 1, s, t, hs, ht, h => by
    have hopen : ∀ {p body}, Ty.bind .mu p body ∈ U → unfold p body ∈ U ∧
        (unfold p body).flatten = unfold p body ∧
        (unfold p body).stacked + 1 = (Ty.bind .mu p body).stacked := fun hb =>
      have hin := hU.part _ hb _ (.unfolded _ _)
      ⟨hin, (hU.ended _ hin).flatten_eq, stacked_unfold (hU.ended _ hb)⟩
    rcases ne_bind_or_mu (hU.good s hs) with hs' | ⟨p, body, rfl⟩
    · rcases ne_bind_or_mu (hU.good t ht) with ht' | ⟨p, body, rfl⟩
      · rw [openBinders_done key n hs' ht']
        exact ⟨s, hs, t, ht, rfl⟩
      · obtain ⟨hin, hflat, hstack⟩ := hopen ht
        rw [openBinders_right key n p body hs', hflat]
        exact hU.openBinders hs hin (by omega)
    · obtain ⟨hin, hflat, hstack⟩ := hopen hs
      rw [openBinders_left, hflat]
      exact hU.openBinders hin ht (by omega)

/-! ## Clashes -/

/-- **Types that clash have different trees.** -/
theorem not_sameTree_of_clash {s t : Ty} (hs : s.Ended) (ht : t.Ended)
    (h : outcome s t = .clash) : ¬ SameTree s t := by
  intro hsame
  have hrow : ∀ (k : RowKind) fields, ∃ inner rest,
      (Ty.row k fields k.end).tree selves 1 = .row k inner rest := fun k fields => by
    obtain ⟨inner, rest, he, -⟩ := Shape.exists_inFront_eq k
      (fun l => (treeOfField selves fields l).map (· 0)) (k.end.tree selves 1)
    exact ⟨inner, rest, by rw [tree]; exact he⟩
  have hshape : s.tree selves 1 = t.tree selves 1 := congrFun hsame 1
  cases s with
  | unit | empty => exact hs
  | var m =>
    cases t with
    | var n => rw [outcome] at h; split at h <;> cases h
    | _ => simp [outcome] at h
  | bind => cases t <;> simp [outcome] at h
  | row k fields tail =>
    obtain ⟨-, rfl⟩ := ended_row.mp hs
    obtain ⟨inner, rest, he⟩ := hrow k fields
    rw [he] at hshape
    cases t with
    | unit | empty => exact ht
    | var | bind => simp [outcome] at h
    | row k' others tail' =>
      obtain ⟨-, rfl⟩ := ended_row.mp ht
      obtain ⟨inner', rest', he'⟩ := hrow k' others
      rw [he', Shape.row.injEq] at hshape
      simp [outcome, hshape.1] at h
    | _ => simp [tree, Tree.leaf, Tree.arrow, Tree.list] at hshape
  | _ =>
    cases t with
    | unit | empty => exact ht
    | var | bind => simp [outcome] at h
    | row k' others tail' =>
      obtain ⟨-, rfl⟩ := ended_row.mp ht
      obtain ⟨inner', rest', he'⟩ := hrow k' others
      rw [he'] at hshape
      simp [tree, Tree.leaf, Tree.arrow, Tree.list] at hshape
    | _ => simp_all [outcome, tree, Tree.leaf, Tree.arrow, Tree.list]

/-! ## The comparison -/

/-- What a task asks for holds.  Rows that end never meet in a fresh tail. -/
def Holds : Task → Prop
  | .agree s t => SameTree s t
  | .meet .. => False

theorem isEnd_leaf (k : RowKind) : ∃ s, k.end.tree selves = Tree.leaf s ∧
    ∀ k' inner rest, s ≠ .row k' inner rest := by
  cases k
  · exact ⟨.unit, by simp only [RowKind.end, tree], by simp⟩
  · exact ⟨.empty, by simp only [RowKind.end, tree], by simp⟩

theorem not_sameTree_end_row (k : RowKind) (fields : Row Ty) (tail : Ty) :
    ¬ SameTree k.end (.row k fields tail) := by
  intro h
  obtain ⟨s, hs, hne⟩ := isEnd_leaf k
  obtain ⟨inner, rest, he, -⟩ := Shape.exists_inFront_eq k
    (fun l => (treeOfField selves fields l).map (· 0)) (tail.tree selves 1)
  rw [SameTree, hs, tree] at h
  exact hne k inner rest ((congrFun h 1).trans he)

/-- Closed rows of one tree have types of one tree under each label. -/
theorem map_lookup_eq_of_sameTree {k : RowKind} {fields others : Row Ty}
    (h : SameTree (.row k fields k.end) (.row k others k.end)) (l : Label) :
    (fields.lookup l).map (tree selves) = (others.lookup l).map (tree selves) := by
  obtain ⟨s, hs, hne⟩ := isEnd_leaf k
  rw [SameTree, tree, tree, hs] at h
  rw [← treeOfField_eq, ← treeOfField_eq, Tree.row_leaf_inj hne h]

/-- What the equality of closed rows of one tree asks for holds. -/
theorem holds_of_rows {k : RowKind} {fields others : Row Ty}
    (h : SameTree (.row k fields k.end) (.row k others k.end)) (hd : fields.Distinct) :
    ∀ task ∈ sharedTasks fields others ++ tailTasks k fields others k.end k.end, Holds task := by
  have hlookup := map_lookup_eq_of_sameTree h
  have hdom : Row.domain fields = Row.domain others := by
    ext l
    rw [Row.mem_domain, Row.mem_domain, ← Row.lookup_isSome_iff, ← Row.lookup_isSome_iff,
      ← Option.isSome_map (f := tree selves), hlookup l, Option.isSome_map]
  intro task hmem
  rcases List.mem_append.mp hmem with hmem | hmem
  · obtain ⟨l, s, t, hs, ht, rfl⟩ := mem_sharedTasks hmem
    have := hlookup l
    rw [hd.lookup_of_mem hs, ht, Option.map_some, Option.map_some, Option.some.injEq] at this
    exact this
  · rw [tailTasks, Row.difference_eq_nil_iff.mpr hdom.subset,
      Row.difference_eq_nil_iff.mpr hdom.superset, List.mem_singleton] at hmem
    rw [hmem]
    rfl

/-- What a comparison goes on with. -/
theorem verdict_perform {budget : Nat} (ih : ∀ {st s t}, s ∈ U → t ∈ U →
      Verdict U (SameTree s t) budget st ((equate budget s t).run st)) (hU : Universe L U)
    {s t : Ty} (hs : s ∈ U) (ht : t ∈ U) {tasks : List Task} (h : Splits s t tasks) :
    ∀ task ∈ tasks, ∀ st, Verdict U (Holds task) budget st ((perform budget task).run st) := by
  cases h with
  | same => simp
  | arrow a b c d =>
    simp only [List.mem_cons, List.not_mem_nil, or_false]
    rintro task (rfl | rfl) st
    · exact ih (hU.part _ hs _ (.arg _ _)) (hU.part _ ht _ (.arg _ _))
    · exact ih (hU.part _ hs _ (.res _ _)) (hU.part _ ht _ (.res _ _))
  | list s t =>
    simp only [List.mem_cons, List.not_mem_nil, or_false]
    rintro task rfl st
    exact ih (hU.part _ hs _ (.elt _)) (hU.part _ ht _ (.elt _))
  | row k fields others tail tail' =>
    obtain ⟨-, rfl⟩ := ended_row.mp (hU.ended _ hs)
    obtain ⟨-, rfl⟩ := ended_row.mp (hU.ended _ ht)
    intro task hmem st
    rcases List.mem_append.mp hmem with hmem | hmem
    · obtain ⟨l, s, t, hl, hl', rfl⟩ := mem_sharedTasks hmem
      exact ih (hU.part _ hs _ (.field hl)) (hU.part _ ht _ (.field (Row.mem_of_lookup hl')))
    · rcases tailTasks_cases k fields others k.end k.end with ⟨-, heq⟩ | ⟨-, -, heq⟩ |
          ⟨-, -, heq⟩ | ⟨-, -, heq⟩ <;>
        (rw [heq, List.mem_singleton] at hmem; rw [hmem])
      · exact (verdict_end_end k).weaken fun _ => trivial
      · exact (verdict_end_row k _ _).weaken (not_sameTree_end_row k _ _)
      · exact (verdict_end_row k _ _).weaken (not_sameTree_end_row k _ _)
      · rw [perform_meet, Run.run_bind, Run.run_fresh]
        exact ((verdict_end_row k _ _).andThen hU fun st' =>
          verdict_end_row k _ _).of_counting.weaken
          fun (h : False) => h.elim

/-- What the equality of types of the set comes to, once it is noted. -/
theorem verdict_follow {budget : Nat} (ih : ∀ {st s t}, s ∈ U → t ∈ U →
      Verdict U (SameTree s t) budget st ((equate budget s t).run st)) (hU : Universe L U)
    {s t : Ty} (hs : s ∈ U) (ht : t ∈ U) (key : String) :
    Verdict U (SameTree s t) budget st ((follow budget key s t (outcome s t)).run st) := by
  cases hout : outcome s t with
  | defer n u =>
    obtain ⟨hfree, -⟩ := good_of_defer (hU.good s hs) (hU.good t ht) hout
    exact hfree.elim
  | clash => exact .clashed (not_sameTree_of_clash (hU.ended s hs) (hU.ended t ht) hout)
  | reopen =>
    have hstack : s.stacked + t.stacked < maxUnfoldings := by
      have := hU.stacking s hs
      have := hU.stacking t ht
      rw [maxStacked] at *
      rw [maxUnfoldings]
      omega
    obtain ⟨s', hs', t', ht', hrun⟩ := @Universe.openBinders _ _ st hU key _ _ _ hs ht hstack
    obtain ⟨-, -, -, htree, htree', -⟩ := openBinders_good (hU.good s hs) (hU.good t ht) hrun
    rw [follow_reopen, Run.run_bind, hrun]
    refine (ih hs' ht').weaken fun hsame => ?_
    rw [SameTree, htree, htree', hsame]
  | split tasks =>
    have hsplits := outcome_eq_split hout
    refine (verdict_forM hU (verdict_perform ih hU hs ht hsplits) st).weaken fun hsame => ?_
    cases hsplits with
    | same => simp
    | arrow a b c d =>
      rw [SameTree, tree, tree] at hsame
      obtain ⟨hac, hbd⟩ := Tree.arrow_inj hsame
      simp only [List.mem_cons, List.not_mem_nil, or_false]
      rintro task (rfl | rfl)
      exacts [hac, hbd]
    | list s t =>
      rw [SameTree, tree, tree] at hsame
      simp only [List.mem_cons, List.not_mem_nil, or_false]
      rintro task rfl
      exact Tree.list_inj hsame
    | row k fields others tail tail' =>
      obtain ⟨-, rfl⟩ := ended_row.mp (hU.ended _ hs)
      obtain ⟨-, rfl⟩ := ended_row.mp (hU.ended _ ht)
      exact holds_of_rows hsame (tidy_row.mp (hU.good _ hs).tidy).1.distinct

/-- **Comparing closed types comes to an end**, and it is right about those that agree. -/
theorem Universe.verdict (hU : Universe L U) : ∀ {budget : Nat} {st : Solver} {s t : Ty},
    s ∈ U → t ∈ U → Verdict U (SameTree s t) budget st ((equate budget s t).run st)
  | 0, _, _, _, _, _ => .tooDeep (Nat.succ_pos _)
  | budget + 1, st, s, t, hs, ht => by
    rw [equate_succ]
    split
    case isTrue => exact .agreed rfl (fun _ h => h) fun _ h => h
    case isFalse hkey =>
      have hkey : equalityKey s t ∉ st.visited := fun h => hkey (List.contains_iff_mem.mpr h)
      rw [(hU.ended s hs).flatten_eq, (hU.ended t ht).flatten_eq]
      refine (verdict_follow hU.verdict hU hs ht _).of_noting (fun hsame k fields tail =>
        key_ne_of_sameTree (hU.anchored s hs) (hU.anchored t ht) (hU.good s hs).tidy
          (hU.good t ht).tidy hsame) fun hbudget => ?_
      have := unseen_noting_lt hU.finite hs ht hkey
      omega

end

end RowLang.Solver
