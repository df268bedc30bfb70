import RowLang.Proofs.Eval.Forcing

/-!
# Proofs/Eval/Loading — modules are loaded over again

A module that is imported for the first time is computed like a field.  A shadow that imports a
module which has been loaded long ago loads it then, from the same text.  Why there is no module
depends only on the library and on what is under construction, so that it is told side by side in
the same issue.
-/

namespace RowLang

variable {s : Shadow} {t u : Moment} {w w' : World} {k k' : Nat} {name : String} {v v' : Value}

/-! ## What is found of a module -/

/-- What looking for a module comes to. -/
inductive Found where
  | module (tree : Expr)
  /-- An issue says why there is none. -/
  | reported (i : Issue)
  | failed (e : Failure)

/-- What is found of a module that is not loaded. -/
def Library.find (lib : Library) (r : Resolver) (name : String) : Found :=
  if r.construction.contains name then .reported (.cyclicImport name (r.cycleFrom name))
  else
    match lib.source name with
    | .error f => .failed (.bare f)
    | .ok none => .reported (.noSuchModule name (lib.folder.map (·.path)))
    | .ok (some source) =>
      match Expr.parse source.toList with
      | .error (.halted (.fault f)) => .failed (.bare f)
      | .error (.halted .endless) => .failed .tooDeep
      | .error e =>
        let hint := match e with
          | .stuck remainder _ => Grammar.hint? remainder
          | _ => none
        .reported (.brokenModule name source e.message e.offset? hint)
      | .ok tree => .module tree

theorem Library.find_congr {r r' : Resolver} (h : r.construction = r'.construction) (lib : Library)
    (name : String) : lib.find r name = lib.find r' name := by
  simp only [find, Resolver.cycleFrom, h]

theorem Library.find_of_not_mem {r r' : Resolver} (h : name ∉ r.construction)
    (h' : name ∉ r'.construction) (lib : Library) : lib.find r name = lib.find r' name := by
  rw [← List.contains_iff_mem] at h h'
  rw [find, find, if_neg h, if_neg h']

/-- What is under construction is not found. -/
theorem Library.not_mem_of_find {lib : Library} {r : Resolver} {tree : Expr}
    (h : lib.find r name = .module tree) :
    name ∉ r.construction := by
  intro hname
  rw [← List.contains_iff_mem] at hname
  rw [find, if_pos hname] at h
  cases h

/-- The failure of an import that finds no module. -/
def Found.failure (report : Report) (name : String) : Found → Failure
  | .reported i => if (report.post i).isFull then .tooManyIssues else .importFailed name
  | .failed e => e
  | .module _ => .importFailed name

/-- The report when nothing has been found. -/
def Found.report (report : Report) : Found → Report
  | .reported i => report.post i
  | _ => report

/-- The import of a module. -/
def Eval.importBy (go : Eval.Callees World) (k : Nat) (name : String) : Evaluating Value :=
  resolving .plain go k name >>= required name

theorem import_eq (depth k : Nat) (name : String) :
    Eval.load (depth + 1) k name >>= Eval.required name
      = Eval.importBy (Eval.within .plain depth) k name := rfl

/-- A module is imported discreetly as in the world by itself. -/
theorem Discreet.import_eq (depth k : Nat) (name : String) :
    load (depth + 1) k name >>= Eval.required name
      = Eval.importBy (Eval.within host depth) k name := rfl

section Runs

variable {go : Eval.Callees World}

theorem run_importBy_loaded (h : (w.resolver k).loaded.lookup name = some v) :
    (Eval.importBy go k name).run w = (.ok v, w) := by
  have h : (w.resolvers[k]?.getD default).loaded.lookup name = some v := h
  rw [Eval.importBy, Eval.resolving, Host.plainly_plain, Run.run_bind, Run.run_bind, Run.run_get]
  simp only [h]
  rfl

/-- An issue that says why there is no module. -/
theorem run_post (i : Issue) :
    ((do Host.plain.plainly (World.post i); return none) >>= Eval.required name).run w
      = (.error (Found.failure w.report name (.reported i)),
        { w with report := w.report.post i }) := by
  simp only [Host.plainly_plain, World.post, Run.run_bind, Run.run_modify, Run.run_get,
    Found.failure]
  cases h : (w.report.post i).isFull <;> rfl

variable (go) in
/-- **No module is found**: the import fails, and only the report has changed. -/
theorem run_importBy_failure (hloaded : (w.resolver k).loaded.lookup name = none)
    (h : ∀ tree, w.library.find (w.resolver k) name ≠ .module tree) : ∃ trace,
    (Eval.importBy go k name).run w =
      (.error ((w.library.find (w.resolver k) name).failure w.report name),
      { w with trace, report := (w.library.find (w.resolver k) name).report w.report }) := by
  have hloaded : (w.resolvers[k]?.getD default).loaded.lookup name = none := hloaded
  rw [Eval.importBy, Eval.resolving, Host.plainly_plain]
  by_cases hname : (w.resolver k).construction.contains name = true
  · have hfind : w.library.find (w.resolver k) name
        = .reported (.cyclicImport name ((w.resolver k).cycleFrom name)) := if_pos hname
    have hname : (w.resolvers[k]?.getD default).construction.contains name = true := hname
    refine ⟨w.trace, ?_⟩
    rw [hfind, Run.run_bind, Run.run_bind, Run.run_get]
    simp only [hloaded, hname, if_true]
    rw [← Run.run_bind]
    exact run_post _
  have hname' : ¬ (w.resolvers[k]?.getD default).construction.contains name = true := hname
  rw [Library.find, if_neg hname] at h ⊢
  rw [Run.run_bind, Run.run_bind, Run.run_get]
  simp only [hloaded, hname', Bool.false_eq_true, if_false]
  rw [← Run.run_bind]
  cases hsource : w.library.source name with
  | error f =>
    refine ⟨w.trace, ?_⟩
    rw [Eval.fetching, hsource]
    rfl
  | ok found =>
    cases found with
    | none =>
      refine ⟨w.trace, ?_⟩
      rw [Eval.fetching, hsource]
      exact run_post _
    | some source =>
      refine ⟨("Loading " ++ name) :: w.trace, ?_⟩
      rw [hsource] at h
      rw [Eval.fetching, hsource]
      simp only [Host.plainly_plain, bind_assoc]
      rw [Run.run_bind, Run.run_modify]
      cases hparse : Expr.parse source.toList with
      | ok tree =>
        simp only [hparse] at h
        exact absurd rfl (h tree)
      | error e =>
        cases e with
        | halted why => cases why <;> rfl
        | _ => exact run_post _

variable (go) in
/-- **A module is found and computed**: it is kept, or left again. -/
theorem run_importBy_module {tree : Expr} (hloaded : (w.resolver k).loaded.lookup name = none)
    (h : w.library.find (w.resolver k) name = .module tree) :
    (∀ v w', (go.eval (.ofRoot (some k)) ⟨{ birth := w.births }, tree⟩).run (w.entering k name)
        = (.ok v, w') →
      (Eval.importBy go k name).run w = (.ok v,
        { w' with resolvers := w'.resolvers.modify k fun r => (r.keep name v).leave })) ∧
    ∀ e w', (go.eval (.ofRoot (some k)) ⟨{ birth := w.births }, tree⟩).run (w.entering k name)
        = (.error e, w') →
      (Eval.importBy go k name).run w = (.error e,
        { w' with resolvers := w'.resolvers.modify k (·.leave) }) := by
  have hloaded : (w.resolvers[k]?.getD default).loaded.lookup name = none := hloaded
  unfold Library.find at h
  split at h
  · cases h
  rename_i hname
  have hname : ¬ (w.resolvers[k]?.getD default).construction.contains name = true := hname
  split at h
  · cases h
  · cases h
  rename_i source hsource
  split at h
  · cases h
  · cases h
  · cases h
  rename_i hparse
  cases h
  have hstart : (Eval.importBy go k name).run w = (tryCatch
      (go.eval (.ofRoot (some k)) ⟨{ birth := w.births }, tree⟩) (fun e => do
        World.updateResolver k (·.leave)
        throw e) >>= fun v => do
      World.updateResolver k fun r => (r.keep name v).leave
      return v).run (w.entering k name) := by
    rw [Eval.importBy, Eval.resolving, Host.plainly_plain, Run.run_bind, Run.run_bind, Run.run_get]
    simp only [hloaded, hname, Bool.false_eq_true, if_false]
    rw [Eval.fetching, hsource, ← Run.run_bind]
    simp only [Host.plainly_plain, bind_assoc, hparse, Eval.keeping]
    rfl
  rw [hstart, Run.run_bind, Run.run_tryCatch]
  constructor
  · intro v w' hrun
    rw [hrun]
    rfl
  · intro e w' hrun
    rw [hrun]
    rfl

end Runs

/-! ## Modules under construction -/

/-- What has been loaded when a module is under construction is not forgotten when it is kept. -/
theorem lookup_keep_leave {r : Resolver} (h : r.Orderly) {names : List String}
    (hcon : r.construction = names ++ [name])
    {other : String} {x : Value} (hx : r.loaded.lookup other = some x) :
    ((r.keep name v).leave).loaded.lookup other = some x := by
  refine (Resolver.lookup_keep _ _ _ _).trans ?_
  split
  case isTrue hother =>
    rw [hother, h.unloaded name
      (hcon ▸ List.mem_append_right _ (List.mem_singleton_self name))] at hx
    cases hx
  case isFalse => exact hx

/-- The moment at which a module begins to be computed. -/
def Moment.entering (t : Moment) (k : Nat) (name : String) : Moment :=
  t.made (.module k name) (t.world.entering k name)

namespace Shadow

variable {n : Nat} {names : List String}

/-- A shadow in which a module is under construction, but not its code. -/
def opened (s : Shadow) (k' : Nat) (name : String) : Shadow :=
  ⟨{ s.world with
      trace := ("Loading " ++ name) :: s.world.trace
      resolvers := s.world.resolvers.modify k' (·.enter name) }, s.matching⟩

/-- A shadow in which a module begins to be computed, whose code is a given birth elsewhere. -/
def entering (s : Shadow) (k' : Nat) (name : String) (n : Nat) : Shadow :=
  (s.opened k' name).meet (s.world.entering k' name) (.birth s.world.births) (.birth n)

theorem resolver_opened (hk : s.world.Has (.resolver k'))
    (m : Nat) : (s.opened k' name).world.resolver m
    = if k' = m then (s.world.resolver m).enter name else s.world.resolver m :=
  World.resolver_modify (f := (·.enter name)) hk rfl m

theorem loaded_opened (hk : s.world.Has (.resolver k')) (m : Nat) :
    ((s.opened k' name).world.resolver m).loaded = (s.world.resolver m).loaded := by
  rw [resolver_opened hk]
  split <;> rfl

theorem Knows.opened {m : Maker} (h : s.Knows m) (hk : s.world.Has (.resolver k')) :
    (s.opened k' name).Knows m := by
  cases m with
  | program => trivial
  | field a l => exact h
  | module m other =>
    obtain ⟨m', hm, hknown⟩ := h
    refine ⟨m', hm, hknown.imp (fun hother => ?_) fun hloaded => ?_⟩
    · rw [resolver_opened hk]
      split
      · exact List.mem_append_left _ hother
      · exact hother
    · rwa [loaded_opened hk]

theorem Behind.opened (h : s.Behind u) (hk : s.world.Has (.resolver k'))
    (hloaded : (s.world.resolver k').loaded.lookup name = none)
    (hname : name ∉ (s.world.resolver k').construction) : (s.opened k' name).Behind u where
  unique := h.unique
  has hxy := ⟨(World.precedes_modify (f := (·.enter name)) 0 _ fun _ _ h => h).has _ (h.has hxy).1,
    (h.has hxy).2⟩
  before := h.before
  shared := h.shared
  records := h.records
  ready := h.ready
  loaded hm hv := by
    rw [loaded_opened hk] at hv
    exact h.loaded hm hv
  library := h.library
  room := h.room
  orderly m := by
    rw [resolver_opened hk]
    split
    case isTrue hkm => exact hkm ▸ (h.orderly k').enter hloaded hname
    case isFalse => exact h.orderly m
  knows hxy := (h.knows hxy).opened hk

/-- What has not begun to be loaded is not known. -/
theorem Behind.not_knows_module (h : s.Behind u) (hk : s.matching (.resolver k') (.resolver k))
    (hloaded : (s.world.resolver k').loaded.lookup name = none)
    (hname : name ∉ (s.world.resolver k').construction) : ¬ s.Knows (.module k name) := by
  rintro ⟨m', hm, hknown⟩
  cases h.unique.left hk hm
  rcases hknown with hname' | ⟨v, hv⟩
  · exact hname hname'
  · cases hloaded.symm.trans hv

/-- **A module begins to be computed** in a shadow. -/
theorem Behind.entering (h : s.Behind u) (hk : s.matching (.resolver k') (.resolver k))
    (hloaded : (s.world.resolver k').loaded.lookup name = none)
    (hname : name ∉ (s.world.resolver k').construction) (hn : u.world.Has (.birth n))
    (hmaker : u.maker (.birth n) = .module k name) : (s.entering k' name n).Behind u := by
  have hhas := (h.has hk).1
  have hunknown := h.not_knows_module hk hloaded hname
  suffices hmeet : (s.opened k' name).Advances (s.entering k' name n) u fun _ =>
    True from hmeet.behind
  refine (h.opened hhas hloaded hname).meet (adds_birth _) hn (fun x hx => ?_) ?_
    trivial fun ha => by cases ha
  · exact hunknown (hmaker ▸ h.knows hx)
  · rw [hmaker]
    refine ⟨k', hk, Or.inl ?_⟩
    rw [resolver_opened hhas, if_pos rfl]
    exact List.mem_append_right _ (List.mem_singleton_self name)

theorem Knows.entering {m : Maker} (h : s.Knows m) (hk : s.world.Has (.resolver k')) :
    (s.entering k' name n).Knows m :=
  have hopened : (s.opened k' name).Knows m := h.opened hk
  hopened.mono (fun _ _ => Or.inl) (adds_birth _).world (adds_birth _).steady

theorem knows_entering (hk : s.matching (.resolver k') (.resolver k))
    (hhas : s.world.Has (.resolver k')) :
    (s.entering k' name n).Knows (.module k name) := by
  refine ⟨k', Or.inl hk, Or.inl ?_⟩
  show name ∈ ((s.world.entering k' name).resolver k').construction
  rw [World.resolver_entering hhas, if_pos rfl]
  exact List.mem_append_right _ (List.mem_singleton_self name)

/-- Only a birth is met when a module begins to be computed. -/
theorem matching_entering {x y : Thing} (h : (s.entering k' name n).matching x y)
    (hy : y ≠ .birth n) :
    s.matching x y := h.resolve_right fun h => hy h.2

/-- What is being loaded side by side has not been loaded. -/
theorem Apart.entering (h : s.Apart w) (hs : s.matching.Unique)
    (hk : s.matching (.resolver k') (.resolver k))
    (hhas : s.world.Has (.resolver k')) (hloaded : (w.resolver k).loaded.lookup name = none) :
    (s.entering k' name n).Apart w where
  fields ha hcirc := h.fields (matching_entering ha (by rintro ⟨⟩)) hcirc
  modules {m' m other} hm hother := by
    have hm := matching_entering hm (by rintro ⟨⟩)
    have hother : other ∈ ((s.world.entering k' name).resolver m').construction := hother
    rw [World.resolver_entering hhas] at hother
    split at hother
    case isTrue hkm =>
      subst hkm
      cases hs.right hk hm
      rcases List.mem_append.mp hother with hother | hother
      · exact h.modules hk hother
      · rw [List.mem_singleton.mp hother]
        exact hloaded
    case isFalse => exact h.modules hm hother

/-- A module begins to be computed side by side. -/
theorem InStep.entering (h : s.InStep t.world) (hs : s.Behind t)
    (hk : s.matching (.resolver k') (.resolver k)) :
    (s.entering k' name t.world.births).InStep (t.world.entering k name) where
  started hcirc := by
    obtain ⟨a', ha, hcirc'⟩ := h.started hcirc
    exact ⟨a', Or.inl ha, hcirc'⟩
  running ha hcirc := h.running (matching_entering ha (by rintro ⟨⟩)) hcirc
  construction {m' m} hm := by
    have hm := matching_entering hm (by rintro ⟨⟩)
    show ((s.world.entering k' name).resolver m').construction = _
    rw [World.resolver_entering (hs.has hk).1, World.resolver_entering (hs.has hk).2]
    have hiff : k' = m' ↔ k = m := by
      constructor
      · rintro rfl
        exact Thing.resolver.inj (hs.unique.right hk hm)
      · rintro rfl
        exact Thing.resolver.inj (hs.unique.left hk hm)
    by_cases hkm : k = m
    · rw [if_pos (hiff.mpr hkm), if_pos hkm, Resolver.enter, Resolver.enter, h.construction hm]
    · rw [if_neg fun h => hkm (hiff.mp h), if_neg hkm]
      exact h.construction hm
  report := h.report

/-! ## Modules that have been computed -/

/-- A shadow in which the latest module under construction is kept. -/
def keeping (s : Shadow) (k' : Nat) (name : String) (v' : Value) : Shadow :=
  ⟨{ s.world with resolvers := s.world.resolvers.modify k' fun r => (r.keep name v').leave },
    s.matching⟩

theorem resolver_keeping (hk : s.world.Has (.resolver k'))
    (m : Nat) : (s.keeping k' name v').world.resolver m
    = if k' = m then ((s.world.resolver m).keep name v').leave else s.world.resolver m :=
  World.resolver_modify (f := fun r => (r.keep name v').leave) hk rfl m

/-- What a shadow has loaded when a module has been kept. -/
theorem loaded_keeping (hk : s.world.Has (.resolver k')) (m : Nat) (other : String) :
    ((s.keeping k' name v').world.resolver m).loaded.lookup other
      = if k' = m ∧ other = name then some v' else (s.world.resolver m).loaded.lookup other := by
  rw [resolver_keeping hk]
  by_cases hkm : k' = m
  · simp only [hkm, if_true, true_and]
    exact Resolver.lookup_keep _ _ _ _
  · simp only [hkm, if_false, false_and]

/-- What was known when a module was under construction is known when it is kept. -/
theorem Knows.keeping {m : Maker} (h : s.Knows m) (hk : s.world.Has (.resolver k'))
    (hcon : (s.world.resolver k').construction = names ++ [name]) :
    (s.keeping k' name v').Knows m := by
  cases m with
  | program => trivial
  | field a l => exact h
  | module m other =>
    obtain ⟨m', hm, hknown⟩ := h
    by_cases hother : k' = m' ∧ other = name
    · exact ⟨m', hm, Or.inr ⟨v', by rw [loaded_keeping hk, if_pos hother]⟩⟩
    · refine ⟨m', hm, hknown.imp (fun hmem => ?_) fun hloaded => ?_⟩
      · rw [resolver_keeping hk]
        split
        case isTrue hkm =>
          subst hkm
          rw [hcon, List.mem_append] at hmem
          have hmem : other ∈ names :=
            hmem.resolve_right fun h => hother ⟨rfl, List.mem_singleton.mp h⟩
          show other ∈ ((s.world.resolver k').construction).dropLast
          rwa [hcon, List.dropLast_concat]
        case isFalse => exact hmem
      · rwa [loaded_keeping hk, if_neg hother]

/-- **A module comes to be loaded** in a shadow. -/
theorem Behind.keeping (h : s.Behind u) (hk : s.matching (.resolver k') (.resolver k))
    (hcon : (s.world.resolver k').construction = names ++ [name])
    (hv : (u.world.resolver k).loaded.lookup name = some v) (hmatches : v'.Matches s.matching v) :
    (s.keeping k' name v').Behind u := by
  have hhas := (h.has hk).1
  exact {
    unique := h.unique
    has := fun hxy => ⟨World.has_modify_iff.mpr (h.has hxy).1, (h.has hxy).2⟩
    before := h.before
    shared := h.shared
    records := h.records
    ready := h.ready
    loaded := fun {m' m other x} hm hx => by
      rw [loaded_keeping hhas] at hx
      split at hx
      case isTrue hother =>
        obtain ⟨rfl, rfl⟩ := hother
        cases h.unique.right hk hm
        cases hx
        exact ⟨v, hv, hmatches⟩
      case isFalse => exact h.loaded hm hx
    library := h.library
    room := h.room
    orderly := fun m => by
      rw [resolver_keeping hhas]
      split
      case isTrue hkm => exact hkm ▸ (h.orderly k').keep_leave hcon
      case isFalse => exact h.orderly m
    knows := fun hxy => (h.knows hxy).keeping hhas hcon }

section Compute

variable {go : Eval.Callees World} {tree : Expr}

/-- **A shadow that catches up with the computation of a module** catches up with the module. -/
theorem Catches.keeping {new new' : Thing → Prop} (hs : s.Behind u)
    (hk : s.matching (.resolver k') (.resolver k))
    (hloaded : (s.world.resolver k').loaded.lookup name = none)
    (hfind : s.world.library.find (s.world.resolver k') name = .module tree)
    (hv : (u.world.resolver k).loaded.lookup name = some v) (hnew : ∀ y, new y → new' y)
    (hbirth : new' (.birth n))
    (h : (s.entering k' name n).Catches u new (.ofValue v)
      ((go.eval (.ofRoot (some k')) ⟨{ birth := s.world.births }, tree⟩).run
        (s.world.entering k' name))) :
    s.Catches u new' (.ofValue v) ((Eval.importBy go k' name).run s.world) := by
  obtain ⟨hok, herror⟩ := run_importBy_module go hloaded hfind
  have hhas := (hs.has hk).1
  revert h
  cases hrun : (go.eval (.ofRoot (some k')) ⟨{ birth := s.world.births }, tree⟩).run
      (s.world.entering k' name) with
  | mk q w' =>
    intro h
    cases q with
    | error e =>
      rw [herror e w' hrun]
      exact h
    | ok x =>
      rw [hok x w' hrun]
      obtain ⟨β, hadv, hx⟩ := h
      have hcon : (w'.resolver k').construction = (s.world.resolver k').construction ++ [name] := by
        rw [hadv.steady.construction k']
        show ((s.world.entering k' name).resolver k').construction = _
        rw [World.resolver_entering hhas, if_pos rfl]
        rfl
      have hhas' : w'.Has (.resolver k') := (hadv.behind.has (hadv.matching _ _ (Or.inl hk))).1
      refine ⟨β, ?_, hx⟩
      exact {
        matching := fun _ _ hxy => hadv.matching _ _ (Or.inl hxy)
        new := fun hxy => by
          rcases hadv.new hxy with (hxy | ⟨rfl, rfl⟩) | ⟨hx, hy⟩
          · exact Or.inl hxy
          · exact Or.inr ⟨Nat.lt_irrefl _, hbirth⟩
          · exact Or.inr ⟨fun hx' => hx ((World.precedes_entering _ k' name).has _ hx'), hnew _ hy⟩
        resolvers := fun hm => matching_entering (hadv.resolvers hm) (by rintro ⟨⟩)
        world := (World.precedes_entering _ k' name).trans
          (hadv.world.trans (World.precedes_modify (k := k') 0 w'.trace fun _ _ =>
            lookup_keep_leave (hadv.behind.orderly k') hcon))
        steady := World.steady_of_loading hhas hadv.steady hhas' fun _ => rfl
        report := hadv.report
        behind := hadv.behind.keeping (hadv.matching _ _ (Or.inl hk)) hcon hv hx }

end Compute

end Shadow

/-- What fails alike when it is computed leaves a module alike. -/
theorem FailsAlike.leaving {go : Eval.Callees World} {tree : Expr} {e : Failure}
    (h : FailsAlike e w ((go.eval (.ofRoot (some k')) ⟨{ birth := s.world.births }, tree⟩).run
      (s.world.entering k' name)))
    (hloaded : (s.world.resolver k').loaded.lookup name = none)
    (hfind : s.world.library.find (s.world.resolver k') name = .module tree) :
    FailsAlike e { w with resolvers := w.resolvers.modify k (·.leave) }
      ((Eval.importBy go k' name).run s.world) := by
  obtain ⟨-, herror⟩ := run_importBy_module go hloaded hfind
  revert h
  cases hrun : (go.eval (.ofRoot (some k')) ⟨{ birth := s.world.births }, tree⟩).run
      (s.world.entering k' name) with
  | mk q w' =>
    intro h
    cases q with
    | ok x => exact h.elim
    | error e' =>
      rw [herror e' w' hrun]
      exact h

/-! ## Sound moments -/

section Sound

variable {f : Resolver → Resolver}

/-- A world that differs in what does not count as time. -/
theorem World.Whole.of_eq (h : w.Whole) (hrecords : w'.records = w.records)
    (hbirths : w.births ≤ w'.births)
    (hresolvers : w'.resolvers = w.resolvers) (hlibrary : w'.library = w.library)
    (hmachine : w'.machine = w.machine) : w'.Whole := by
  have hpre := World.precedes_of_eq hrecords hbirths hresolvers hlibrary hmachine
  have hle := hpre.itself_le
  exact {
    before := hpre.has _ h.before
    shared := hpre.has _ h.shared
    records := fun a r hr => (h.records a r (hrecords ▸ hr)).mono hle
    ready := fun hv => by
      rw [World.row, hrecords, ← World.row] at hv
      exact (h.ready hv).mono hle
    loaded := fun hv => by
      rw [World.resolver, hresolvers, ← World.resolver] at hv
      exact (h.loaded hv).mono hle
    orderly := fun k => by
      rw [World.resolver, hresolvers, ← World.resolver]
      exact h.orderly k }

/-- A world in which one resolver is changed. -/
theorem World.Whole.modify (h : w.Whole) (hk : w.Has (.resolver k)) (births : Nat)
    (trace : List String) (hkept : ∀ other x, (w.resolver k).loaded.lookup other = some x →
      (f (w.resolver k)).loaded.lookup other = some x)
    (hloaded : ∀ other x, (f (w.resolver k)).loaded.lookup other = some x → x.Matches w.itself x)
    (horderly : (f (w.resolver k)).Orderly) :
    World.Whole
      { w with resolvers := w.resolvers.modify k f, births := w.births + births, trace } := by
  have hpre := World.precedes_modify (f := f) births trace hkept
  have hle := hpre.itself_le
  have hresolver (n : Nat) :
      World.resolver
          { w with resolvers := w.resolvers.modify k f, births := w.births + births, trace } n
        = if k = n then f (w.resolver n) else w.resolver n :=
    World.resolver_modify (f := f) hk rfl n
  exact {
    before := hpre.has _ h.before
    shared := h.shared
    records := fun a r hr => (h.records a r hr).mono hle
    ready := fun hv => (h.ready hv).mono hle
    loaded := fun {n other x} hx => by
      rw [hresolver] at hx
      split at hx
      case isTrue hkn => exact (hloaded other x (hkn ▸ hx)).mono hle
      case isFalse => exact (h.loaded hx).mono hle
    orderly := fun n => by
      rw [hresolver]
      split
      case isTrue hkn => exact hkn ▸ horderly
      case isFalse => exact h.orderly n }

theorem Moment.le_entering (t : Moment) (k : Nat) (name : String) : t.Le (t.entering k name) :=
  Moment.le_made (World.precedes_entering t.world k name) _

theorem Moment.Sound.entering (h : t.Sound) (hk : t.world.Has (.resolver k))
    (hloaded : (t.world.resolver k).loaded.lookup name = none)
    (hname : name ∉ (t.world.resolver k).construction) : (t.entering k name).Sound :=
  h.later (Moment.le_entering t k name)
    (h.whole.modify hk 1 _ (fun _ _ hx => hx) (fun _ _ hx => h.whole.loaded hx)
      ((h.whole.orderly k).enter hloaded hname)) (fun hv => hv) fun {m other x} hx => by
    have hx : ((t.world.entering k name).resolver m).loaded.lookup other = some x := hx
    rw [World.resolver_entering hk] at hx
    split at hx <;> exact hx

/-- The moment at which the latest module under construction is left. -/
def Moment.leaving (t : Moment) (k : Nat) (f : Resolver → Resolver) : Moment :=
  ⟨{ t.world with resolvers := t.world.resolvers.modify k f }, t.maker⟩

theorem Moment.le_leaving
    (hkept : ∀ other x, (t.world.resolver k).loaded.lookup other = some x →
      (f (t.world.resolver k)).loaded.lookup other = some x) : t.Le (t.leaving k f) :=
  ⟨World.precedes_modify 0 t.world.trace hkept, fun _ _ => rfl⟩

theorem Moment.resolver_leaving (hk : t.world.Has (.resolver k)) (n : Nat) :
    (t.leaving k f).world.resolver n = if k = n then f (t.world.resolver n) else
      t.world.resolver n :=
  World.resolver_modify (f := f) hk rfl n

/-- **A sound moment at which a module is left**, with a value that every shadow can catch up with
or without one. -/
theorem Moment.Sound.leaving (h : t.Sound) (hk : t.world.Has (.resolver k))
    (hkept : ∀ other x, (t.world.resolver k).loaded.lookup other = some x →
      (f (t.world.resolver k)).loaded.lookup other = some x)
    (hloaded : ∀ other x, (f (t.world.resolver k)).loaded.lookup other = some x →
      (t.world.resolver k).loaded.lookup other = some x ∨
        x.Matches t.world.itself x ∧ (t.leaving k f).CaughtModule k other x)
    (horderly : (f (t.world.resolver k)).Orderly) : (t.leaving k f).Sound where
  whole := h.whole.modify hk 0 t.world.trace hkept
    (fun other x hx => (hloaded other x hx).elim h.whole.loaded And.left) horderly
  fields hv := (h.fields hv).mono (Moment.le_leaving hkept)
  modules {n other x} hx := by
    rw [Moment.resolver_leaving hk] at hx
    split at hx
    case isTrue hkn =>
      subst hkn
      rcases hloaded other x hx with hx | ⟨-, hcaught⟩
      · exact (h.modules hx).mono (Moment.le_leaving hkept)
      · exact hcaught
    case isFalse => exact (h.modules hx).mono (Moment.le_leaving hkept)

end Sound

/-! ## Modules that have been loaded -/

/-- What depends on a resolver and a birth when a module begins to be computed. -/
abbrev Counterparts.ofModule (k n : Nat) (tree : Expr) : Counterparts (Env × Code) :=
  (ofEnv (.ofRoot (some k))).both (ofCode ⟨{ birth := n }, tree⟩)

section Loaded

variable {d : Nat} {tree : Expr} {t₂ : Moment}

theorem Counterparts.ofModule_entering {n : Nat} (hk : s.matching (.resolver k') (.resolver k)) :
    (ofModule k n tree).rel (s.entering k' name n).matching
      (.ofRoot (some k'), ⟨{ birth := s.world.births }, tree⟩) :=
  ⟨Env.Matches.ofRoot (.some (Or.inl hk)), ⟨Or.inr ⟨rfl, rfl⟩, rfl, rfl⟩, rfl⟩

/-- The module that is under construction when its computation ends. -/
theorem construction_of_computed {r : Except Failure Value}
    {B : Env × Code → Nat → Evaluating Value} (hk : t.world.Has (.resolver k))
    (h : Followed (.module k name) d (t.entering k name) r t₂ (.ofModule k t.world.births tree)
      B .ofValue) :
    (t₂.world.resolver k).construction = (t.world.resolver k).construction ++ [name] := by
  rw [h.steady.construction k]
  show ((t.world.entering k name).resolver k).construction = _
  rw [World.resolver_entering hk, if_pos rfl]
  rfl

/-- **What has been loaded can be loaded over again.** -/
theorem caughtModule_of_computed (hk : t.world.Has (.resolver k))
    (hfind : t.world.library.find (t.world.resolver k) name = .module tree)
    (h : Followed (.module k name) d (t.entering k name) (.ok v) t₂
      (.ofModule k t.world.births tree) (fun p n => Discreet.eval n p.1 p.2) .ofValue) :
    (t₂.leaving k fun r => (r.keep name v).leave).CaughtModule k name v := by
  have hcon := construction_of_computed hk h
  have hk₂ : t₂.world.Has (.resolver k) :=
    h.le.world.has _ ((World.precedes_entering _ k name).has _ hk)
  have hunloaded : (t₂.world.resolver k).loaded.lookup name = none :=
    (h.sound.whole.orderly k).unloaded name
      (hcon ▸ List.mem_append_right _ (List.mem_singleton_self name))
  have hle : t₂.Le (t₂.leaving k fun r => (r.keep name v).leave) :=
    Moment.le_leaving fun _ _ => lookup_keep_leave (h.sound.whole.orderly k) hcon
  have hkept : ((t₂.leaving k fun r => (r.keep name v).leave).world.resolver k).loaded.lookup name =
    some v := by
    rw [Moment.resolver_leaving hk₂, if_pos rfl]
    exact (Resolver.lookup_keep _ _ _ _).trans (if_pos rfl)
  intro u s k' n hu hs hapart hk'
  have htu : (t.entering k name).Le u := h.le.trans (hle.trans hu)
  have hn : (t.entering k name).world.Has (.birth t.world.births) := Nat.lt_succ_self _
  have hmaker : u.maker (.birth t.world.births) = .module k name :=
    (htu.maker _ hn).trans (if_neg (Nat.lt_irrefl _))
  cases n with
  | zero =>
    rw [Discreet.load]
    exact rfl
  | succ n =>
    rw [Discreet.import_eq]
    have hv := hu.world.loaded _ _ _ hkept
    cases hloaded : (s.world.resolver k').loaded.lookup name with
    | some v' =>
      rw [run_importBy_loaded hloaded]
      obtain ⟨x, hx, hmatches⟩ := hs.loaded hk' hloaded
      cases hx.symm.trans hv
      exact ⟨s.matching, .refl hs, hmatches⟩
    | none =>
      have hname : name ∉ (s.world.resolver k').construction := fun hname => by
        cases (hapart.modules hk' hname).symm.trans hkept
      have hfind' : s.world.library.find (s.world.resolver k') name = .module tree := by
        rw [hs.library, htu.world.library, ← hfind]
        exact Library.find_of_not_mem hname (Library.not_mem_of_find hfind) _
      have hunknown := hs.not_knows_module hk' hloaded hname
      have hhas := (hs.has hk').1
      have hpoised : (s.entering k' name t.world.births).Poised (.module k name)
        (t.entering k name) t₂.world u := {
        behind := hs.entering hk' hloaded hname (htu.world.has _ hn) hmaker
        own := by
          rintro x y (hxy | ⟨-, rfl⟩) hy
          · exact absurd (hy ▸ hs.knows hxy) hunknown
          · exact hn
        knows := Shadow.knows_entering hk' hhas
        apart := (hapart.mono hle.world).entering hs.unique hk' hhas hunloaded }
      refine (h.catches v rfl u _ _ n (hle.trans hu) hpoised
        (Counterparts.ofModule_entering hk')).keeping hs hk'
        hloaded hfind' hv (fun y hy => ?_) ?_
      · rcases hy with hy | ⟨hy, -⟩
        · exact fun hknows => hy (hknows.entering hhas)
        · rw [Shadow.Unknown, hy]
          exact hunknown
      · rw [Shadow.Unknown, hmaker]
        exact hunknown

end Loaded

/-! ## Imports are followed -/

section Imports

variable {o : Maker} {d : Nat} {tree : Expr}

/-- A module that has been loaded may have to be loaded over again. -/
theorem follows_import_loaded (hloaded : (t.world.resolver k).loaded.lookup name = some v) :
    Follows o (d + 1) t (Eval.load (d + 1) k name >>= Eval.required name) (.ofResolver k)
      (fun k' n => Discreet.load n k' name >>= Eval.required name) .ofValue := by
  intro hsound
  rw [import_eq, run_importBy_loaded hloaded]
  refine ⟨t.maker, .refl t, hsound, .refl _, fun x hx => ?_, fun x hx u s k' n hu hs hk => ?_,
    fun e he => by cases he⟩
  · cases hx
    exact ⟨rfl, hsound.whole.loaded hloaded⟩
  · cases hx
    exact (hsound.modules hloaded u s k' n hu hs.behind hs.apart hk).weaken fun _ => Or.inl

/-- Side by side a module is loaded if it is. -/
theorem Shadow.InStep.unloaded (hs : s.Behind t) (hk : s.matching (.resolver k') (.resolver k))
    (hloaded : (t.world.resolver k).loaded.lookup name = none) :
    (s.world.resolver k').loaded.lookup name = none := by
  rw [Option.eq_none_iff_forall_ne_some]
  intro v' hv'
  obtain ⟨v, hv, -⟩ := hs.loaded hk hv'
  cases hloaded.symm.trans hv

/-- Side by side the same is found of a module. -/
theorem Shadow.InStep.find_eq (h : s.InStep t.world) (hs : s.Behind t)
    (hk : s.matching (.resolver k') (.resolver k)) (name : String) :
    s.world.library.find (s.world.resolver k') name = t.world.library.find
      (t.world.resolver k) name := by
  rw [hs.library]
  exact Library.find_congr (h.construction hk) _ _

/-- That there is no module is told side by side. -/
theorem follows_import_failure (hloaded : (t.world.resolver k).loaded.lookup name = none)
    (hfind : ∀ tree, t.world.library.find (t.world.resolver k) name ≠ .module tree) :
    Follows o (d + 1) t (Eval.load (d + 1) k name >>= Eval.required name) (.ofResolver k)
      (fun k' n => Discreet.load n k' name >>= Eval.required name) .ofValue := by
  intro hsound
  obtain ⟨trace, hrun⟩ := run_importBy_failure (Eval.within .plain d) hloaded hfind
  rw [import_eq, hrun]
  have hpre : t.world.Precedes { t.world with
      trace, report := (t.world.library.find (t.world.resolver k) name).report t.world.report } :=
    World.precedes_of_eq rfl le_rfl rfl rfl rfl
  refine ⟨t.maker, ⟨hpre, fun _ _ => rfl⟩, hsound.later ⟨hpre, fun _ _ => rfl⟩ ?_ (fun hv => hv)
    (fun hv => hv),
    World.steady_of_eq rfl rfl, (by rintro x ⟨⟩), (by rintro x ⟨⟩),
      fun e he s k' n hn hs hknows hstep hk => ?_⟩
  · exact hsound.whole.of_eq rfl le_rfl rfl rfl rfl
  · cases he
    cases n with
    | zero =>
      rw [Discreet.load]
      exact Or.inl rfl
    | succ n =>
      have hfind_eq := hstep.find_eq hs hk name
      obtain ⟨trace', hrun'⟩ := run_importBy_failure (Eval.within Discreet.host n)
        (Shadow.InStep.unloaded hs hk hloaded) fun tree => hfind_eq ▸ hfind tree
      rw [Discreet.import_eq, hrun', hfind_eq, hstep.report]
      exact Or.inr ⟨rfl, rfl⟩

end Imports

end RowLang
