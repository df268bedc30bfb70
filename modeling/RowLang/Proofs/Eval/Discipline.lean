import RowLang.Proofs.Eval.Closed
import RowLang.Proofs.Eval.Observed
import RowLang.Proofs.Run
import RowLang.Proofs.Resolver

/-!
# Proofs/Eval/Discipline — what imports do to their resolver

A resolver is called again while it computes a module, also for fields of modules that were loaded
long ago, and each computation may fail at any point.  Whatever happens, the modules under
construction are those that are being computed, outermost first, and the loaded modules are those
that have been computed to the end; each call leaves what is under construction as it was
(`Call.Disciplined`).  All of that is one law of evaluation, `Observed.discipline`.
-/

namespace RowLang

/-- The resolver of a number; an unknown number has a new one. -/
def World.resolver (w : World) (n : Nat) : Resolver := w.resolvers[n]?.getD default

/-- The names that belong to a resolver. -/
def namesOf (n : Nat) (l : List (Nat × String)) : List String :=
  l.filterMap fun p => if p.1 = n then some p.2 else none

theorem mem_namesOf {n : Nat} {l : List (Nat × String)} {name : String} :
    name ∈ namesOf n l ↔ (n, name) ∈ l := by
  rw [namesOf, List.mem_filterMap]
  constructor
  · rintro ⟨⟨k, x⟩, hmem, h⟩
    split at h
    case isTrue hk =>
      cases h
      exact hk ▸ hmem
    case isFalse => cases h
  · exact fun h => ⟨_, h, if_pos rfl⟩

theorem namesOf_append (n : Nat) (l l' : List (Nat × String)) :
    namesOf n (l ++ l') = namesOf n l ++ namesOf n l' := List.filterMap_append

theorem namesOf_cons_self (n : Nat) (name : String) (l : List (Nat × String)) :
    namesOf n ((n, name) :: l) = name :: namesOf n l := by simp [namesOf]

theorem namesOf_cons_of_ne {n k : Nat} (h : k ≠ n) (name : String) (l : List (Nat × String)) :
    namesOf n ((k, name) :: l) = namesOf n l := by simp [namesOf, h]

/-- **A disciplined call**: it finds the resolver in order and leaves it so, with the same modules
under construction as before, which are those that are being computed; a module that has been
computed has its value, and a cycle is told of just if the module is being computed. -/
structure Call.Disciplined (c : Call) : Prop where
  before : (c.before.resolver c.resolver).Orderly
  after : (c.after.resolver c.resolver).Orderly
  construction : (c.before.resolver c.resolver).construction = namesOf c.resolver c.underway
  restored : (c.after.resolver c.resolver).construction =
    (c.before.resolver c.resolver).construction
  again : ∀ v, ((c.resolver, c.name), v) ∈ c.computed → c.result = .ok (some v) ∧ c.after = c.before
  cycle : (c.after.report = c.before.report.post (.cyclicImport c.name
        ((c.before.resolver c.resolver).cycleFrom c.name)) ∧
      c.result = if c.after.report.isFull then .error .tooManyIssues else .ok none) ↔
    (c.resolver, c.name) ∈ c.underway

/-- **A genuine call**: the evaluator itself comes to the same, with the same world to begin with,
within some number of levels. -/
def Call.Genuine (c : Call) : Prop :=
  ∃ depth, (Eval.load depth c.resolver c.name).run c.before = (c.result, c.after)

/-- **What holds of a resolver at any time.** -/
structure Observed.Orderly (n : Nat) (o : Observed) : Prop where
  present : n < o.world.resolvers.size
  resolver : (o.world.resolver n).Orderly
  construction : (o.world.resolver n).construction = namesOf n o.underway
  sources : ∀ name ∈ (o.world.resolver n).construction, name ∈ o.world.library.modules
  loaded : ∀ name v, (o.world.resolver n).loaded.lookup name = some v ↔ ((n, name), v) ∈ o.computed
  once : (namesOf n (o.computed.map (·.1))).Nodup
  nests : ∀ lib underway, (lib, underway) ∈ o.nests → (namesOf n underway).length ≤ lib.modules.card
  calls : ∀ c ∈ o.calls, c.resolver = n → c.Disciplined
  genuine : ∀ c ∈ o.calls, c.resolver = n → c.Genuine
  answers : ∀ c ∈ o.calls, c.resolver = n → ∀ v, c.result = .ok (some v) →
    ((n, c.name), v) ∈ o.computed

/-- An issue does not tell of a cycle without modules. -/
def Issue.Sensible (i : Issue) : Prop := ∀ name, i ≠ .cyclicImport name []

theorem Issue.sensible_of_length {i : Issue} (h : i.footer.length ≠ 2) : i.Sensible := by
  rintro name rfl
  exact h rfl

theorem Issue.sensible_noSuchModule (name : String) (folder : Option String) :
    (Issue.noSuchModule name folder).Sensible := sensible_of_length (Nat.one_lt_two.ne)

theorem Issue.sensible_brokenModule (name source message : String) (offset : Option Nat)
    (hint : Option String) : (brokenModule name source message offset hint).Sensible :=
  sensible_of_length (by
    rw [brokenModule, hintFooter.eq_def]
    split
    · simp
    · split <;> simp)

theorem Issue.sensible_cyclicImport {name : String} {cycle : List String} (h : cycle ≠ []) :
    (cyclicImport name cycle).Sensible :=
  sensible_of_length (by
    have := List.length_pos_iff.mpr h
    simp only [cyclicImport, List.length_cons, List.length_map, List.length_append, List.length_nil]
    omega)

/-- **How time goes by for a resolver**: what is underway comes to its end, and sensible issues are
posted. -/
structure Observed.Advances (n : Nat) (o o' : Observed) : Prop where
  underway : o'.underway = o.underway
  library : o'.world.library = o.world.library
  construction : (o'.world.resolver n).construction = (o.world.resolver n).construction
  issues : ∃ more, o'.world.report.issues = o.world.report.issues ++ more ∧ ∀ i ∈ more, i.Sensible

namespace Observed

open Law

/-- **The law of resolving.** -/
def discipline (n : Nat) : Law Failure Observed where
  holds := Orderly n
  step := Advances n
  refl _ := ⟨rfl, rfl, rfl, [], by simp⟩
  trans h h' := by
    obtain ⟨more, hmore, hsensible⟩ := h.issues
    obtain ⟨more', hmore', hsensible'⟩ := h'.issues
    refine ⟨h'.underway.trans h.underway, h'.library.trans h.library,
      h'.construction.trans h.construction, more ++ more', ?_, ?_⟩
    · rw [hmore', hmore, List.append_assoc]
    · exact List.forall_mem_append.mpr ⟨hsensible, hsensible'⟩

variable {n k : Nat} {name : String} {α β : Type} {o o' : Observed}

/-- An operation keeps the law of resolving, whatever it gives. -/
abbrev Abides (n : Nat) (m : Observing α) : Prop := (discipline n).Keeps m fun _ => True

theorem ends_of {s s' : Observed} (h : s'.Orderly n) (hs : s.Advances n s') (r : Except Failure α) :
    (discipline n).Ends s (fun _ => True) (r, s') := by
  cases r with
  | ok x => exact ⟨h, hs, trivial⟩
  | error e => exact ⟨h, hs, trivial⟩

theorem ends_iff {s : Observed} {r : Except Failure α × Observed} :
    (discipline n).Ends s (fun _ => True) r ↔ r.2.Orderly n ∧ s.Advances n r.2 := by
  refine ⟨fun h => ?_, fun h => ends_of h.1 h.2 r.1⟩
  rcases r with ⟨r, s'⟩
  cases r with
  | ok x => exact ⟨h.1, h.2.1⟩
  | error e => exact ⟨h.1, h.2.1⟩

theorem abides_pure (x : α) : Abides n (pure x) := keeps_pure trivial

theorem abides_throw (e : Failure) : Abides n (throw e : Observing α) := keeps_throw trivial

/-! ## Operations without imports -/

/-- The law of operations that have nothing to do with modules. -/
def quietness : Law Failure World where
  holds _ := True
  step w w' := w'.resolvers = w.resolvers ∧ w'.library = w.library ∧ w'.report = w.report
  refl _ := ⟨rfl, rfl, rfl⟩
  trans h h' := ⟨h'.1.trans h.1, h'.2.1.trans h.2.1, h'.2.2.trans h.2.2⟩

/-- An operation that has nothing to do with modules. -/
abbrev Quiet (m : Evaluating α) : Prop := quietness.Keeps m fun _ => True

theorem quiet_modifyGet {f : World → α × World}
    (h : ∀ w, (f w).2.resolvers = w.resolvers ∧ (f w).2.library =
      w.library ∧ (f w).2.report = w.report) :
    Quiet (modifyGet f) := keeps_modifyGet fun w _ => ⟨trivial, h w, trivial⟩

theorem quiet_birth : Quiet World.birth := quiet_modifyGet fun _ => ⟨rfl, rfl, rfl⟩

theorem closed_quiet : Eval.Closed fun m => Quiet m where
  pure _ := keeps_pure trivial
  bind h hf := h.bind fun x _ => hf x
  throw _ := keeps_throw trivial
  look h := keeps_get fun w _ => h w
  birth := quiet_birth

/-- What is not changed for a resolver stays in order. -/
theorem Orderly.of_world {w : World} (h : o.Orderly n) (hres : w.resolvers = o.world.resolvers)
    (hlib : w.library = o.world.library) : Orderly n { o with world := w } where
  present := hres ▸ h.present
  resolver := by simpa only [World.resolver, hres] using h.resolver
  construction := by simpa only [World.resolver, hres] using h.construction
  sources := by simpa only [World.resolver, hres, hlib] using h.sources
  loaded := by simpa only [World.resolver, hres] using h.loaded
  once := h.once
  nests := h.nests
  calls := h.calls
  genuine := h.genuine
  answers := h.answers

theorem abides_plainly {m : Evaluating α} (h : Quiet m) : Abides n (host.plainly m) :=
  fun o ho => by
  have hm := h o.world trivial
  have hrun : (host.plainly m).run o = ((m.run o.world).1, { o with world := (m.run o.world).2 }) :=
    rfl
  rw [hrun]
  revert hm
  rcases m.run o.world with ⟨r, w⟩
  intro hm
  have hstep : w.resolvers = o.world.resolvers ∧ w.library = o.world.library ∧
      w.report = o.world.report := by
    cases r with
    | ok x => exact hm.2.1
    | error e => exact hm.2.1
  refine ends_of (s := o) (ho.of_world hstep.1 hstep.2.1) ⟨rfl, hstep.2.1, ?_, [], ?_, by simp⟩ r
  · simp only [World.resolver, hstep.1]
  · simp only [hstep.2.2, List.append_nil]

theorem closedIn_abides (n : Nat) : Eval.ClosedIn host fun m => Abides n m where
  pure := abides_pure
  bind h hf := h.bind fun x _ => hf x
  throw _ := abides_throw _
  birth := abides_plainly quiet_birth
  room := abides_plainly closed_quiet.room
  failWith hmake v := abides_plainly (closed_quiet.failWith hmake v)
  written conversion v := abides_plainly (closed_quiet.written conversion v)

/-- What posting comes to. -/
theorem run_post (i : Issue) (o : Observed) : (host.plainly (World.post i)).run o
    = ((if (o.world.report.post i).isFull then .error .tooManyIssues else .ok ()),
      { o with world := { o.world with report := o.world.report.post i } }) := by
  have hrun : (World.post i).run o.world
      = ((if (o.world.report.post i).isFull then .error .tooManyIssues else .ok ()),
        { o.world with report := o.world.report.post i }) := by
    rw [World.post, Run.run_bind, Run.run_modify]
    dsimp only
    rw [Run.run_bind, Run.run_get]
    dsimp only
    split <;> rfl
  exact Prod.ext (congrArg (·.1) hrun) (congrArg (fun r => { o with world := r.2 }) hrun)

theorem run_refusal (i : Issue) (o : Observed) :
    (do host.plainly (World.post i); return none : Observing (Option Value)).run o
      = ((if (o.world.report.post i).isFull then .error .tooManyIssues else .ok none),
        { o with world := { o.world with report := o.world.report.post i } }) := by
  rw [Run.run_bind, run_post]
  by_cases hfull : (o.world.report.post i).isFull
  · rw [if_pos hfull, if_pos hfull]
  · rw [if_neg hfull, if_neg hfull]
    rfl

/-- A sensible issue is posted. -/
theorem abides_post {i : Issue} (h : i.Sensible) : Abides n (host.plainly (World.post i)) :=
  fun o ho => by
  rw [run_post]
  exact ends_iff.mpr ⟨ho.of_world rfl rfl, rfl, rfl, rfl, [i], rfl, by simpa using h⟩

/-! ## Modules -/

/-- One resolver is changed. -/
theorem resolver_of_modify {w w' : World} {f : Resolver → Resolver}
    (h : w'.resolvers = w.resolvers.modify k f) (hn : n < w.resolvers.size) :
    w'.resolver n = if k = n then f (w.resolver n) else w.resolver n := by
  simp only [World.resolver, h, Array.getElem?_modify, Array.getElem?_eq_getElem hn]
  split <;> rfl

/-- A module whose computation may begin is not known to the resolver. -/
structure Fresh (n : Nat) (name : String) (o : Observed) : Prop where
  unloaded : (o.world.resolver n).loaded.lookup name = none
  unentered : name ∉ (o.world.resolver n).construction
  known : name ∈ o.world.library.modules

/-- What is under construction is no more than there are modules. -/
theorem length_construction_le {r : Resolver} {lib : Library} (h : r.Orderly)
    (hsources : ∀ x ∈ r.construction, x ∈ lib.modules) : r.construction.length ≤
      lib.modules.card := by
  rw [← List.toFinset_card_of_nodup h.nodup]
  exact Finset.card_le_card fun x hx => hsources x (List.mem_toFinset.mp hx)

/-- A module is under construction from now on. -/
def entered (o : Observed) (k : Nat) (name : String) : Observed :=
  { o with
    world := { o.world with
      resolvers := o.world.resolvers.modify k (·.enter name)
      births := o.world.births + 1 } }

/-- What the evaluation of a module begins with. -/
def inside (o : Observed) (k : Nat) (name : String) : Observed := (o.entered k name).begin k name

theorem resolver_inside (h : n < o.world.resolvers.size) : (o.inside k name).world.resolver n
    = if k = n then (o.world.resolver n).enter name else o.world.resolver n :=
  resolver_of_modify (f := (·.enter name)) rfl h

/-- **The computation of a module begins.** -/
theorem Orderly.inside (h : o.Orderly n) (hfresh : k = n → Fresh n name o) :
    (o.inside k name).Orderly n := by
  have hresolver := @resolver_inside _ k name _ h.present
  generalize hw : (o.inside k name).world = w at hresolver
  have horderly : (w.resolver n).Orderly := by
    rw [hresolver]
    split
    case isTrue hk => exact h.resolver.enter (hfresh hk).unloaded (hfresh hk).unentered
    case isFalse => exact h.resolver
  have hconstruction : (w.resolver n).construction = namesOf n (o.underway ++ [(k, name)]) := by
    rw [hresolver, namesOf_append, ← h.construction]
    split
    case isTrue hk => rw [hk, namesOf_cons_self, Resolver.enter]; rfl
    case isFalse hk => rw [namesOf_cons_of_ne hk, namesOf, List.filterMap_nil, List.append_nil]
  have hsources : ∀ x ∈ (w.resolver n).construction, x ∈ w.library.modules := by
    rw [hresolver, ← hw]
    split
    case isTrue hk =>
      exact List.forall_mem_append.mpr ⟨h.sources, List.forall_mem_singleton.mpr (hfresh hk).known⟩
    case isFalse => exact h.sources
  have hloaded : (w.resolver n).loaded = (o.world.resolver n).loaded := by
    rw [hresolver]
    split <;> rfl
  exact {
    present := Array.size_modify.symm ▸ h.present
    resolver := hw ▸ horderly
    construction := hw ▸ hconstruction
    sources := hw ▸ hsources
    loaded := fun x v => by
      rw [hw, hloaded]
      exact h.loaded x v
    once := h.once
    nests := fun lib underway hmem => by
      rcases List.mem_cons.mp hmem with heq | hmem
      · obtain ⟨rfl, rfl⟩ := Prod.mk.inj heq
        exact (congrArg List.length hconstruction).symm.trans_le
          (length_construction_le horderly (hw ▸ hsources))
      · exact h.nests lib underway hmem
    calls := h.calls
    genuine := h.genuine
    answers := h.answers }

/-- **The computation of a module ends**, when the latest module under construction is left. -/
theorem Orderly.ending (h : o.Orderly n) (h' : o'.Orderly n)
    (hstep : Advances n (o.inside k name) o')
    {f : Resolver → Resolver} (hf : ∀ r, (f r).construction = r.construction.dropLast)
    (horderly : k = n → (f (o'.world.resolver n)).Orderly) {computed}
    (hloaded : ∀ x v,
      (if k = n then f (o'.world.resolver n) else o'.world.resolver n).loaded.lookup x
      = some v ↔ ((n, x), v) ∈ computed)
    (honce : (namesOf n (computed.map (·.1))).Nodup) (hsub : o'.computed ⊆ computed) :
    let last : Observed := { o' with
      world := { o'.world with resolvers := o'.world.resolvers.modify k f }
      underway := o.underway
      computed }
    last.Orderly n ∧ o.Advances n last := by
  intro last
  have hbefore : ((o.inside k name).world.resolver n).construction
      = if k = n then (o.world.resolver n).construction ++ [name] else
        (o.world.resolver n).construction := by
    rw [resolver_inside h.present]
    split <;> rfl
  have hresolver : last.world.resolver n
      = if k = n then f (o'.world.resolver n) else o'.world.resolver n :=
        resolver_of_modify rfl h'.present
  have hconstruction : (last.world.resolver n).construction =
    (o.world.resolver n).construction := by
    have hmid := hstep.construction.trans hbefore
    rw [hresolver]
    split
    case isTrue hk => rw [hf, hmid, if_pos hk, List.dropLast_concat]
    case isFalse hk => rw [hmid, if_neg hk]
  refine ⟨?_, rfl, hstep.library, hconstruction, hstep.issues⟩
  exact {
    present := by
      show n < (o'.world.resolvers.modify k f).size
      rw [Array.size_modify]
      exact h'.present
    resolver := by
      rw [hresolver]
      split
      case isTrue hk => exact horderly hk
      case isFalse => exact h'.resolver
    construction := hconstruction.trans h.construction
    sources := fun x hx => by
      show x ∈ o'.world.library.modules
      rw [hstep.library]
      exact h.sources x (hconstruction ▸ hx)
    loaded := hresolver ▸ hloaded
    once := honce
    nests := h'.nests
    calls := h'.calls
    genuine := h'.genuine
    answers := fun c hc hn v hv => hsub (h'.answers c hc hn v hv) }

/-- What a call for a module comes to that it computes: a value that it gives is that of the module.
-/
def Yields (n k : Nat) (name : String) (o : Observed)
    (r : Except Failure (Option Value) × Observed) : Prop :=
  (discipline n).Ends o (fun _ => True) r ∧
    (k = n → ∀ v, r.1 = .ok (some v) → ((n, name), v) ∈ r.2.computed)

section

variable {go : Eval.Callees Observed}

theorem run_keeping (go : Eval.Callees Observed) (k : Nat) (name : String) (tree : Expr)
    (o : Observed) :
    (Eval.keeping host go k name tree).run o =
      match (go.eval (.ofRoot (some k)) ⟨{ birth := o.world.births }, tree⟩).run
        (o.inside k name) with
      | (.ok v, o') =>
        (.ok (some v), { o' with
          world := { o'.world with
            resolvers := o'.world.resolvers.modify k fun r => (r.keep name v).leave }
          underway := o.underway
          computed := ((k, name), v) :: o'.computed })
      | (.error e, o') =>
        (.error e, { o' with
          world := { o'.world with resolvers := o'.world.resolvers.modify k (·.leave) }
          underway := o.underway }) := by
  generalize hcode : (⟨{ birth := o.world.births }, tree⟩ : Code) = code
  rcases hrun : (go.eval (.ofRoot (some k)) code).run (o.inside k name) with ⟨r, o'⟩
  have hstart : (Eval.keeping host go k name tree).run o =
      (tryCatch (computing k name (go.eval (.ofRoot (some k)) code)) (fun e => do
          plainly (World.updateResolver k (·.leave))
          throw e) >>= fun v => do
        plainly (World.updateResolver k fun r => (r.keep name v).leave)
        return some v).run (o.entered k name) := hcode ▸ rfl
  have hcomputing : (computing k name (go.eval (.ofRoot (some k)) code)).run (o.entered k name)
      = (o.entered k name).finish k name (r, o') := congrArg _ hrun
  rw [hstart, Run.run_bind, Run.run_tryCatch, hcomputing]
  cases r <;> rfl

/-- **What a module is computed to is kept**, and nothing of a computation that fails. -/
theorem yields_keeping (h : ∀ env code, Abides n (go.eval env code)) (ho : o.Orderly n)
    (hfresh : k = n → Fresh n name o) (tree : Expr) :
    Yields n k name o ((Eval.keeping host go k name tree).run o) := by
  have hrun := ends_iff.mp
    (h (.ofRoot (some k)) ⟨{ birth := o.world.births }, tree⟩ _ (ho.inside hfresh))
  rw [run_keeping]
  revert hrun
  rcases (go.eval (.ofRoot (some k)) ⟨{ birth := o.world.births }, tree⟩).run
    (o.inside k name) with ⟨r, o'⟩
  rintro ⟨ho', hstep⟩
  dsimp only at ho' hstep
  cases r with
  | error e =>
    obtain ⟨horderly, hadvances⟩ := ho.ending ho' hstep (f := (·.leave)) (fun _ => rfl)
      (fun _ => ho'.resolver.leave) (fun x v => by split <;> exact ho'.loaded x v) ho'.once
      (List.Subset.refl _)
    exact ⟨⟨horderly, hadvances, trivial⟩, fun _ _ hv => nomatch hv⟩
  | ok v =>
    have hmid (hk : k = n) : (o'.world.resolver n).construction
        = (o.world.resolver n).construction ++ [name] := by
      rw [hstep.construction, resolver_inside ho.present, if_pos hk, Resolver.enter]
    have hunloaded (hk : k = n) : (o'.world.resolver n).loaded.lookup name = none :=
      ho'.resolver.unloaded name (by simp [hmid hk])
    have hnew (hk : k = n) (u : Value) : ((n, name), u) ∉ o'.computed := fun hu =>
      absurd ((ho'.loaded name u).mpr hu) (by simp [hunloaded hk])
    have hloaded (x : String) (u : Value) :
        (if k = n then ((o'.world.resolver n).keep name v).leave else
          o'.world.resolver n).loaded.lookup x
          = some u ↔ ((n, x), u) ∈ ((k, name), v) :: o'.computed := by
      rw [List.mem_cons]
      by_cases hk : k = n
      · rw [if_pos hk]
        show ((o'.world.resolver n).keep name v).loaded.lookup x = some u ↔ _
        rw [Resolver.lookup_keep, hk]
        by_cases hx : x = name
        · simp [hx, hnew hk, eq_comm]
        · simp [hx, ho'.loaded]
      · rw [if_neg hk, ho'.loaded]
        simp [Ne.symm hk]
    have honce : (namesOf n ((((k, name), v) :: o'.computed).map (·.1))).Nodup := by
      rw [List.map_cons]
      by_cases hk : k = n
      · rw [hk, namesOf_cons_self, List.nodup_cons, mem_namesOf]
        refine ⟨fun hmem => ?_, ho'.once⟩
        obtain ⟨⟨key, u⟩, hu, rfl⟩ := List.mem_map.mp hmem
        exact hnew hk u hu
      · rw [namesOf_cons_of_ne hk]
        exact ho'.once
    obtain ⟨horderly, hadvances⟩ := ho.ending ho' hstep (f := fun r => (r.keep name v).leave)
      (fun _ => rfl) (fun hk => ho'.resolver.keep_leave (hmid hk)) hloaded honce
        (List.subset_cons_self _ _)
    exact ⟨⟨horderly, hadvances, trivial⟩, fun hk u hu => by
      cases hu
      exact hk ▸ List.mem_cons_self⟩

theorem Yields.after {r : Except Failure (Option Value) × Observed} (h : Yields n k name o' r)
    (hstep : o.Advances n o') : Yields n k name o r :=
  ⟨h.1.after hstep, h.2⟩

/-- Without a value there is nothing to keep. -/
theorem yields_of_abides {m : Observing (Option Value)} (h : Abides n m) (ho : o.Orderly n)
    (hnone : ∀ v, (m.run o).1 ≠ .ok (some v)) : Yields n k name o (m.run o) :=
  ⟨h o ho, fun _ v hv => absurd hv (hnone v)⟩

theorem yields_refusal {i : Issue} (h : i.Sensible) (ho : o.Orderly n) :
    Yields n k name o
      ((do host.plainly (World.post i); return none : Observing (Option Value)).run o) := by
  refine yields_of_abides ((abides_post h).bind fun _ _ => abides_pure _) ho fun v hv => ?_
  rw [run_refusal] at hv
  dsimp only at hv
  split at hv <;> cases hv

/-- **A module that the resolver does not know** is looked for, and computed if it is there. -/
theorem yields_fetching (h : ∀ env code, Abides n (go.eval env code)) (ho : o.Orderly n)
    (hunloaded : k = n → (o.world.resolver n).loaded.lookup name = none)
    (hunentered : k = n → name ∉ (o.world.resolver n).construction) :
    Yields n k name o ((Eval.fetching host go o.world.library k name).run o) := by
  rw [Eval.fetching]
  split
  case h_1 => exact yields_of_abides (abides_throw _) ho fun v hv => by cases hv
  case h_2 => exact yields_refusal (Issue.sensible_noSuchModule _ _) ho
  case h_3 source hsource =>
    let traced : Observed :=
      { o with world := { o.world with trace := ("Loading " ++ name) :: o.world.trace } }
    have htraced : traced.Orderly n := ho.of_world rfl rfl
    have hstep : o.Advances n traced := ⟨rfl, rfl, rfl, [], (List.append_nil _).symm, by simp⟩
    suffices htail : Yields n k name traced _ from htail.after hstep
    rw [Run.run_bind, run_plainly, Run.run_modify]
    dsimp only
    split
    · exact yields_of_abides (abides_throw _) htraced fun v hv => by cases hv
    · exact yields_of_abides (abides_throw _) htraced fun v hv => by cases hv
    · exact yields_refusal (Issue.sensible_brokenModule _ _ _ _ _) htraced
    · exact yields_keeping h htraced
        (fun hk => ⟨hunloaded hk, hunentered hk, Library.mem_modules hsource⟩) _

/-- **The three answers of a resolver**: a module that is loaded, a cycle, and whatever comes of
looking for the module. -/
theorem run_resolving (go : Eval.Callees Observed) (k : Nat) (name : String) (o : Observed) :
    (∃ v, (o.world.resolver k).loaded.lookup name = some v ∧
      (Eval.resolving host go k name).run o = (.ok (some v), o)) ∨
    ((o.world.resolver k).loaded.lookup name = none ∧ name ∈ (o.world.resolver k).construction ∧
      let report := o.world.report.post (.cyclicImport name ((o.world.resolver k).cycleFrom name))
      (Eval.resolving host go k name).run o =
        ((if report.isFull then .error .tooManyIssues else .ok none),
        { o with world := { o.world with report } })) ∨
    ((o.world.resolver k).loaded.lookup name = none ∧ name ∉ (o.world.resolver k).construction ∧
      (Eval.resolving host go k name).run o =
        (Eval.fetching host go o.world.library k name).run o) := by
  have hresolver : o.world.resolvers[k]?.getD default = o.world.resolver k := rfl
  rw [Eval.resolving, run_look]
  simp only [hresolver]
  cases hloaded : (o.world.resolver k).loaded.lookup name with
  | some v => exact Or.inl ⟨v, rfl, rfl⟩
  | none =>
    refine Or.inr ?_
    dsimp only
    by_cases hname : name ∈ (o.world.resolver k).construction
    · refine Or.inl ⟨rfl, hname, ?_⟩
      rw [if_pos (List.contains_iff_mem.mpr hname), run_refusal]
    · exact Or.inr ⟨rfl, hname, by rw [if_neg (mt List.contains_iff_mem.mp hname)]⟩

/-- The call of a resolver, from its begin and its end. -/
def callOf (k : Nat) (name : String) (o : Observed)
    (r : Except Failure (Option Value) × Observed) : Call :=
  ⟨k, name, o.underway, o.computed, o.world, r.1, r.2.world⟩

theorem yields_resolving (h : ∀ env code, Abides n (go.eval env code)) (ho : o.Orderly n) :
    Yields n k name o ((Eval.resolving host go k name).run o) := by
  obtain ⟨v, hloaded, hrun⟩ | ⟨-, hname, hrun⟩ | ⟨hloaded, hname, hrun⟩ :=
    run_resolving go k name o <;> rw [hrun]
  · exact ⟨ends_iff.mpr ⟨ho, (discipline n).refl o⟩, fun hk u hu => by
      cases hu
      exact (ho.loaded name v).mp (hk ▸ hloaded)⟩
  · refine ⟨ends_iff.mpr ⟨ho.of_world rfl rfl, rfl, rfl, rfl, _, rfl, ?_⟩, fun _ v hv => ?_⟩
    · exact List.forall_mem_singleton.mpr
        (Issue.sensible_cyclicImport (Resolver.cycleFrom_ne_nil hname))
    · dsimp only at hv
      split at hv <;> cases hv
  · exact yields_fetching h ho (fun hk => hk ▸ hloaded) fun hk => hk ▸ hname

/-- **Each call of a resolver is disciplined.** -/
theorem disciplined_resolving (h : ∀ env code, Abides n (go.eval env code)) (ho : o.Orderly n) :
    (callOf n name o ((Eval.resolving host go n name).run o)).Disciplined := by
  have hends := ends_iff.mp (@yields_resolving n n name _ _ h ho).1
  have hunderway : (n, name) ∈ o.underway ↔ name ∈ (o.world.resolver n).construction := by
    rw [ho.construction, mem_namesOf]
  refine ⟨ho.resolver, hends.1.resolver, ho.construction, hends.2.construction, fun v hv => ?_, ?_⟩
  · have hloaded := (ho.loaded name v).mpr hv
    obtain ⟨u, hu, hrun⟩ | ⟨hnone, -⟩ | ⟨hnone, -⟩ := run_resolving go n name o
    · rw [hrun]
      exact ⟨congrArg (Except.ok ∘ some) (Option.some.inj (hu.symm.trans hloaded)), rfl⟩
    · cases hloaded.symm.trans hnone
    · cases hloaded.symm.trans hnone
  · refine Iff.trans ?_ hunderway.symm
    by_cases hname : name ∈ (o.world.resolver n).construction
    · refine iff_of_true ?_ hname
      obtain ⟨u, hu, -⟩ | ⟨-, -, hrun⟩ | ⟨-, hnot, -⟩ := run_resolving go n name o
      · cases hu.symm.trans (ho.resolver.unloaded name hname)
      · rw [hrun]
        exact ⟨rfl, rfl⟩
      · exact absurd hname hnot
    · -- The issue would be of a cycle without modules.
      refine iff_of_false (fun hcycle => ?_) hname
      obtain ⟨more, hmore, hsensible⟩ := hends.2.issues
      have hissues : o.world.report.issues ++ more = o.world.report.issues ++ [_] :=
        hmore.symm.trans (congrArg Report.issues hcycle.1)
      obtain rfl := List.append_cancel_left hissues
      refine hsensible _ (List.mem_singleton_self _) name ?_
      show Issue.cyclicImport name ((o.world.resolver n).cycleFrom name) = _
      rw [Resolver.cycleFrom_eq_nil hname]

/-- **A call keeps the law of resolving**, and is one that the evaluator makes. -/
theorem abides_calling (h : ∀ env code, Abides n (go.eval env code))
    (herases : ErasesCallees go (Eval.within .plain depth)) (k : Nat) (name : String) :
    Abides n (calling k name (Eval.resolving host go k name)) := fun o ho => by
  have hyields := @yields_resolving n k name _ _ h ho
  have hends := ends_iff.mp hyields.1
  have hrun : (calling k name (Eval.resolving host go k name)).run o
      = (((Eval.resolving host go k name).run o).1, { ((Eval.resolving host go k name).run o).2 with
        calls := callOf k name o ((Eval.resolving host go k name).run o)
          :: ((Eval.resolving host go k name).run o).2.calls }) := rfl
  have hcall (hk : k = n) :
      (callOf k name o ((Eval.resolving host go k name).run o)).Disciplined := by
    subst hk
    exact disciplined_resolving h ho
  have hgenuine : (callOf k name o ((Eval.resolving host go k name).run o)).Genuine :=
    ⟨depth + 1, Prod.ext (herases.resolving k name o).1.symm (herases.resolving k name o).2.symm⟩
  rw [hrun]
  revert hyields hends hcall hgenuine
  rcases (Eval.resolving host go k name).run o with ⟨r, o'⟩
  rintro ⟨-, hvalue⟩ ⟨horderly, hadvances⟩ hcall hgenuine
  refine ends_iff.mpr ⟨{ horderly with calls := ?_, genuine := ?_, answers := ?_ },
    hadvances.underway, hadvances.library, hadvances.construction, hadvances.issues⟩
  · exact List.forall_mem_cons.mpr ⟨hcall, horderly.calls⟩
  · exact List.forall_mem_cons.mpr ⟨fun _ => hgenuine, horderly.genuine⟩
  · exact List.forall_mem_cons.mpr ⟨fun hk => hvalue hk, horderly.answers⟩

end

end Observed

end RowLang
