import RowLang.Proofs.Solver.Parallel

/-!
# Proofs/Solver/Equivariant — solving has nothing to do with the numbers of variables

Comparisons of types, rounds of elimination and whole runs of rounds are parallel to the same with
the variables under other numbers.  Each is taken apart as the solver takes it apart, with one lemma
for each step.
-/

namespace RowLang.Solver

open Ty

variable {P : Nat → Prop} {ρ : Nat → Nat} {c : Nat}

/-! ## Proper parts -/

/-- A task about proper types. -/
def ProperTask (P : Nat → Prop) (c : Nat) : Task → Prop
  | .agree s t => Proper P c s ∧ Proper P c t
  | .meet k fields tail others tail' =>
    Proper P c (.row k fields tail) ∧ Proper P c (.row k others tail')

theorem ProperTask.mono {c c' : Nat} {task : Task} (hc : c ≤ c') (h : ProperTask P c task) :
    ProperTask P c' task := by
  cases task <;> exact ⟨h.1.mono hc, h.2.mono hc⟩

theorem proper_var {n : Nat} (hP : P n) (hlt : n < c) : Proper P c (.var n) := ⟨trivial, hP, hlt⟩

/-- One variable replaced by a proper type. -/
theorem Proper.substitute_single {t u : Ty} {n : Nat} (ht : Proper P c t) (hu : Proper P c u) :
    Proper P c (t.substitute [(n, u)]) :=
  ht.substitute fun v w hw => by
    rw [Row.lookup_single] at hw
    split at hw <;> cases hw
    exact hu

theorem proper_difference {k : RowKind} {fields others : Row Ty} {tail tail' : Ty}
    (h : Proper P c (.row k fields tail)) (ht : Proper P c tail') :
    Proper P c (.row k (Row.difference id fields others) tail') := by
  obtain ⟨hd, hf, -⟩ := proper_row.mp h
  exact proper_row.mpr ⟨hd.difference others, fun p hp => hf p (Row.mem_difference.mp hp).1, ht⟩

/-- What is asked of proper equations when a variable is replaced. -/
theorem properTask_replacing {n : Nat} {t : Ty} (ht : Proper P c t) {es : List Equation}
    (hes : ∀ e ∈ es, ProperEquation P c e) {task : Task} (h : task ∈ replacingAll n t es) :
    ProperTask P c task := by
  obtain ⟨e, he, rfl⟩ := List.mem_map.mp h
  have he := hes e (List.mem_of_mem_filter he)
  exact ⟨(proper_var he.var he.lt).substitute_single ht, he.type.substitute_single ht⟩

/-- **What two proper types come to is about proper types.** -/
theorem properTask_of_split {s t : Ty} {tasks : List Task} (hs : Proper P c s) (ht : Proper P c t)
    (h : outcome s t = .split tasks) : ∀ task ∈ tasks, ProperTask P c task := by
  cases outcome_eq_split h with
  | same => simp
  | arrow a b c d =>
    simp only [List.mem_cons, List.not_mem_nil, or_false]
    rintro task (rfl | rfl)
    exacts [⟨⟨hs.tidy.1, hs.numbers.1⟩, ht.tidy.1, ht.numbers.1⟩,
      ⟨⟨hs.tidy.2, hs.numbers.2⟩, ht.tidy.2, ht.numbers.2⟩]
  | list s t =>
    simp only [List.mem_cons, List.not_mem_nil, or_false]
    rintro task rfl
    exact ⟨⟨hs.tidy, hs.numbers⟩, ht.tidy, ht.numbers⟩
  | row k fields others tail tail' =>
    obtain ⟨-, hf, htail⟩ := proper_row.mp hs
    obtain ⟨-, ho, htail'⟩ := proper_row.mp ht
    intro task hmem
    rcases List.mem_append.mp hmem with hmem | hmem
    · obtain ⟨l, s, t, hl, hl', rfl⟩ := mem_sharedTasks hmem
      exact ⟨hf _ hl, ho _ (Row.mem_of_lookup hl')⟩
    · rcases tailTasks_cases k fields others tail tail' with ⟨-, heq⟩ | ⟨-, -, heq⟩ | ⟨-, -, heq⟩ |
          ⟨-, -, heq⟩ <;>
        (rw [heq, List.mem_singleton] at hmem; rw [hmem])
      exacts [⟨htail, htail'⟩, ⟨htail', proper_difference hs htail⟩,
        ⟨htail, proper_difference ht htail'⟩,
        ⟨proper_difference hs htail, proper_difference ht htail'⟩]

/-! ## Comparisons -/

/-- What the one finds is proper, and the other finds it renamed. -/
def Renamed (P : Nat → Prop) (ρ : Nat → Nat) (c : Nat) (t t' : Ty) : Prop :=
  t' = t.rename ρ ∧ Proper P c t

private theorem parallel_perform {budget : Nat} (h : ∀ {c : Nat} {s t : Ty}, Proper P c s →
      Proper P c t → Parallel P ρ c Whatever (equate budget s t)
        (equate budget (s.rename ρ) (t.rename ρ))) (c : Nat) (task : Task)
    (htask : ProperTask P c task) :
    Parallel P ρ c Whatever (perform budget task) (perform budget (task.rename ρ)) := by
  cases task with
  | agree s t => exact h htask.1 htask.2
  | meet k fields tail others tail' =>
    obtain ⟨hd, hf, ht⟩ := proper_row.mp htask.1
    obtain ⟨hd', ho, ht'⟩ := proper_row.mp htask.2
    refine parallel_fresh.bind fun c₁ n n' hc hn => ?_
    obtain ⟨rfl, hP, hlt⟩ := hn
    have hvar : Proper P c₁ (.var n) := proper_var hP hlt
    have hrow : ∀ {fs : Row Ty}, Row.Tidy fs → (∀ p ∈ fs, Proper P c p.2) →
        Proper P c₁ (.row k fs (.var n)) := fun hd hf =>
      proper_row.mpr ⟨hd, fun p hp => (hf p hp).mono hc, hvar⟩
    have hleft := h (ht'.mono hc) (hrow hd hf)
    have hright := h (ht.mono hc) (hrow hd' ho)
    rw [rename_row] at hleft hright
    refine hleft.bind fun c₂ _ _ hc' _ st st' hst hle => hright st st' hst (hc'.trans hle)

section

variable (hρ : KeepsApart P ρ)
include hρ

theorem parallel_openBinder {b : Binder} {n : Nat} {body : Ty} (h : Proper P c (.bind b n body)) :
    Parallel P ρ c (Renamed P ρ) (openBinder b n body) (openBinder b (ρ n) (body.rename ρ)) := by
  have hbody : Proper P c body := ⟨h.tidy, h.numbers.2⟩
  have hkey : ∀ u : Ty, ∀ p ∈ [(n, u)], P p.1 := fun u p hp => by
    rw [List.mem_singleton.mp hp]
    exact h.numbers.1.1
  cases b with
  | mu =>
    rw [openBinder_mu, openBinder_mu]
    refine parallel_pure fun c' hc => ⟨?_, ((hbody.mono hc).substitute_single (h.mono hc)).flatten⟩
    rw [unfold, unfold, ← flatten_rename, ← substitute_rename hρ hbody.apart (hkey _)]
    rfl
  | forAll =>
    refine parallel_fresh.bind fun c' v v' hc hv => ?_
    obtain ⟨rfl, hP, hlt⟩ := hv
    refine parallel_pure fun c'' hc' => ⟨?_, ((hbody.mono (hc.trans hc')).substitute_single
      (proper_var hP (hlt.trans_le hc'))).flatten⟩
    rw [← flatten_rename, ← substitute_rename hρ hbody.apart (hkey _)]
    rfl

theorem parallel_openBinders (key key' : String) : ∀ (n : Nat) {c : Nat} {s t : Ty}, Proper P c s →
    Proper P c t → Parallel P ρ c (fun c' p p' => Renamed P ρ c' p.1 p'.1 ∧ Renamed P ρ c' p.2 p'.2)
      (openBinders key n s t) (openBinders key' n (s.rename ρ) (t.rename ρ))
  | 0, _, _, _, _, _ => parallel_throw (.endlessUnfolding key key')
  | n + 1, c, s, t, hs, ht => by
    cases s with
    | bind b v body =>
      refine (parallel_openBinder hρ hs).bind fun c' x x' hc hx => ?_
      obtain ⟨rfl, hx⟩ := hx
      exact parallel_openBinders key key' n hx (ht.mono hc)
    | _ =>
      cases t with
      | bind b v body =>
        refine (parallel_openBinder hρ ht).bind fun c' x x' hc hx => ?_
        obtain ⟨rfl, hx⟩ := hx
        exact parallel_openBinders key key' n (hs.mono hc) hx
      | _ => exact parallel_pure fun c' hc => ⟨⟨rfl, hs.mono hc⟩, rfl, ht.mono hc⟩

/-- **Comparisons go alike under other numbers.** -/
theorem parallel_equate : ∀ (budget : Nat) {c : Nat} {s t : Ty}, Proper P c s → Proper P c t →
    Parallel P ρ c Whatever (equate budget s t) (equate budget (s.rename ρ) (t.rename ρ))
  | 0, _, _, _, _, _ => by
    exact parallel_throw .tooDeep
  | budget + 1, c, s, t, hs, ht => by
    intro st st' hst hc
    have hs := hs.mono hc
    have ht := ht.mono hc
    have hmem := hst.mem_visited_iff hρ hs ht
    rw [equate_succ, equate_succ, flatten_rename, flatten_rename,
      outcome_rename hρ hs.flatten.apart ht.flatten.apart]
    by_cases hkey : equalityKey s t ∈ st.visited
    · rw [if_pos (List.contains_iff_mem.mpr hkey),
        if_pos (List.contains_iff_mem.mpr (hmem.mpr hkey))]
      exact ⟨hst, le_rfl, trivial⟩
    rw [if_neg fun h => hkey (List.contains_iff_mem.mp h),
      if_neg fun h => hkey (hmem.mp (List.contains_iff_mem.mp h))]
    have hnoted := hst.noting hs ht
    cases hout : outcome s.flatten t.flatten with
    | defer n u =>
      obtain ⟨-, hcase⟩ := outcome_eq_defer hout
      have hnu : Proper P st.counter (.var n) ∧ Proper P st.counter u := by
        rcases hcase with ⟨hn, hu⟩ | ⟨hn, hu⟩
        · exact ⟨hn ▸ hs.flatten, hu ▸ ht.flatten⟩
        · exact ⟨hn ▸ ht.flatten, hu ▸ hs.flatten⟩
      exact ⟨hnoted.posting hρ hnu.1.numbers.1 hnu.1.numbers.2 hnu.2, le_rfl, trivial⟩
    | reopen =>
      rw [Outcome.rename, follow_reopen, follow_reopen]
      refine Parallel.bind (parallel_openBinders hρ _ _ maxUnfoldings hs.flatten ht.flatten)
        (fun c' p p' _ hp => ?_) _ _ hnoted le_rfl
      obtain ⟨⟨_, hproper₁⟩, _, hproper₂⟩ := hp
      obtain ⟨x, y⟩ := p
      obtain ⟨x', y'⟩ := p'
      subst_vars
      exact parallel_equate budget hproper₁ hproper₂
    | clash => exact .mismatch hs.flatten.apart ht.flatten.apart
    | split tasks =>
      exact Parallel.forM (ProperTask P) ProperTask.mono (parallel_perform (parallel_equate budget))
        (properTask_of_split hs.flatten ht.flatten hout) _ _ hnoted le_rfl

/-! ## Rounds -/

theorem parallel_closeOver {n : Nat} {t : Ty} (hn : P n ∧ n < c) (ht : Proper P c t) :
    Parallel P ρ c (Renamed P ρ) (closeOver n t) (closeOver (ρ n) (t.rename ρ)) := by
  have hmem := mem_free_rename hρ ht.apart hn.1
  rw [closeOver_eq, closeOver_eq]
  by_cases hfree : n ∈ t.free
  · rw [if_pos (List.contains_iff_mem.mpr hfree),
      if_pos (List.contains_iff_mem.mpr (hmem.mpr hfree))]
    refine parallel_fresh.bind fun c' p p' hc hp => ?_
    obtain ⟨rfl, hP, hlt⟩ := hp
    refine parallel_pure fun c'' hc' => ⟨?_, ?_⟩
    · rw [Ty.rename, ← substitute_rename hρ ht.apart fun q hq => by
        rw [List.mem_singleton.mp hq]
        exact hn.1]
      rfl
    · have hbody : Proper P c'' (t.substitute [(n, .var p)]) :=
        (ht.mono (hc.trans hc')).substitute_single (proper_var hP (hlt.trans_le hc'))
      exact ⟨hbody.tidy, ⟨hP, hlt.trans_le hc'⟩, hbody.numbers⟩
  · rw [if_neg fun h => hfree (List.contains_iff_mem.mp h),
      if_neg fun h => hfree (hmem.mp (List.contains_iff_mem.mp h))]
    exact parallel_pure fun c' hc => ⟨rfl, ht.mono hc⟩

theorem isTrivial_renamed {e : Equation} (he : ProperEquation P c e) :
    (renamed ρ e).isTrivial = e.isTrivial := by
  have hover := he.type.apart
  show Equation.isTrivial (.of (ρ e.var) (e.type.rename ρ)) = _
  rw [Equation.isTrivial, Equation.isTrivial, Equation.of]
  cases htype : e.type with
  | var n =>
    rw [htype] at hover
    exact decide_eq_decide.mpr ⟨hρ _ _ hover he.var, congrArg ρ⟩
  | _ => rfl

theorem firstBinding_renamed {es : List Equation} (hes : ∀ e ∈ es, ProperEquation P c e) :
    firstBinding (es.map (renamed ρ))
      = (firstBinding es).map fun p => (renamed ρ p.1, p.2.map (renamed ρ)) := by
  induction es with
  | nil => rfl
  | cons e es ih =>
    rw [List.map_cons, firstBinding, firstBinding, isTrivial_renamed hρ (hes e List.mem_cons_self),
      ih fun d hd => hes d (List.mem_cons_of_mem _ hd)]
    split <;> rfl

theorem replacingAll_renamed {n : Nat} {t : Ty} (hn : P n) {es : List Equation}
    (hes : ∀ e ∈ es, ProperEquation P c e) :
    replacingAll (ρ n) (t.rename ρ) (es.map (renamed ρ))
      = (replacingAll n t es).map (Task.rename ρ) := by
  have hkey : ∀ p ∈ [(n, t)], P p.1 := fun p hp => by
    rw [List.mem_singleton.mp hp]
    exact hn
  rw [replacingAll, replacingAll, List.filter_map, List.map_map, List.map_map]
  have hfilter : es.filter ((fun d : Equation => !d.isTrivial) ∘ renamed ρ)
      = es.filter fun d => !d.isTrivial :=
    List.filter_congr fun e he => by rw [Function.comp_apply, isTrivial_renamed hρ (hes e he)]
  rw [hfilter]
  refine List.map_congr_left fun e he => ?_
  have he := hes e (List.mem_of_mem_filter he)
  have hvar : (Ty.var e.var).Over P := he.var
  show Task.agree ((Ty.var e.var).rename ρ |>.substitute (renameSubst ρ [(n, t)]))
    ((e.type.rename ρ).substitute (renameSubst ρ [(n, t)])) = _
  rw [substitute_rename hρ hvar hkey, substitute_rename hρ he.type.apart hkey]
  rfl

end

section

variable (hρ : KeepsApart P ρ)
include hρ

theorem parallel_pass (budget : Nat) {pending : List Equation}
    (hes : ∀ e ∈ pending, ProperEquation P c e) :
    Parallel P ρ c Whatever (pass budget pending) (pass budget (pending.map (renamed ρ))) := by
  have hupdate : ∀ {c : Nat} {σ σ' : Subst}, Parallel P ρ c Whatever
      (modify fun st => st.updating σ) (modify fun st => st.updating σ') :=
    parallel_modify (fun _ => ⟨rfl, rfl, rfl⟩) fun _ => ⟨rfl, rfl, rfl⟩
  rw [pass_eq, pass_eq, firstBinding_renamed hρ hes]
  cases hfirst : firstBinding pending with
  | none => exact hupdate
  | some found =>
    obtain ⟨e, others⟩ := found
    obtain ⟨hmem, hothers⟩ := mem_of_firstBinding hfirst
    have he := hes e hmem
    simp only [Option.map_some]
    refine (parallel_closeOver hρ ⟨he.var, he.lt⟩ he.type).bind fun c₁ t t' hc₁ ht => ?_
    obtain ⟨rfl, ht⟩ := ht
    refine (parallel_note _ _).bind fun c₂ _ _ hc₂ _ => ?_
    have htasks := Parallel.forM (P := P) (ρ := ρ) (ProperTask P) ProperTask.mono
      (parallel_perform (parallel_equate hρ budget)) (l := replacingAll e.var t others)
      (c := c₂) fun task htask => properTask_replacing (ht.mono hc₂) (fun d hd =>
        (hes d (hothers d hd)).mono (hc₁.trans hc₂)) htask
    rw [← replacingAll_renamed hρ he.var fun d hd => hes d (hothers d hd)] at htasks
    rw [forM_replacingAll, forM_replacingAll] at htasks
    exact htasks.bind fun _ _ _ _ _ => hupdate

/-- **Rounds go alike under other numbers.** -/
theorem parallel_solveStep (budget : Nat) :
    Parallel P ρ c Whatever (solveStep budget) (solveStep budget) := by
  intro st st' hst hc
  have hpass := parallel_pass hρ budget hst.proper _ _ hst.emptied le_rfl
  rw [run_solveStep, run_solveStep, hst.pending]
  cases hr : (pass budget st.pending).run st.emptied with
  | mk r mid =>
    cases hr' : (pass budget (st.pending.map (renamed ρ))).run st'.emptied with
    | mk r' mid' =>
      rw [hr, hr'] at hpass
      cases r with
      | ok _ => cases r' with
        | ok _ => exact hpass
        | error e' => exact hpass.elim
      | error e => cases r' with
        | ok _ => exact hpass.elim
        | error e' => cases hpass <;> constructor <;> assumption

end

end RowLang.Solver
