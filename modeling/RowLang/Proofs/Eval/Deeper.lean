import RowLang.Proofs.Eval.Clauses
import RowLang.Proofs.Eval.Loading

/-!
# Proofs/Eval/Deeper — what is computed is computed alike with more levels

Evaluation that needs more levels than it has fails, and nothing recovers from a failure.  So a
computation that comes to a result comes to the same result, in the same world, with more levels to
go; and nothing that was computed before is taken back on the way.  Both are said at once, of a
computation and the one with a level more (`Eval.Persists`); `Eval.run_force_of_le` and
`Eval.precedes_of_force` are what they come to for a field.
-/

namespace RowLang

/-! ## What a result comes from -/

section Runs

variable {go : Eval.Callees World} {w w' : World} {a k : Nat} {l : Label} {name : String}
  {v : Value}

/-- **A field that is read with success** has been computed, or it is computed then. -/
theorem exists_of_run_forceBy (h : (Eval.forceBy .plain go a l).run w = (.ok v, w')) :
    ((w.row a).access l = .ready v ∧ w' = w) ∨
      ∃ i r mid, (w.row a).access l = .start i ∧ w.records[a]? = some r ∧
        (go.eval (r.env a) i).run (w.setCell a l .inProgress) = (.ok v, mid) ∧
          w' = mid.setCell a l (.ready v) := by
  cases hl : (w.row a).access l with
  | missing =>
    rw [run_forceBy_missing hl] at h
    cases h
  | circular =>
    rw [run_forceBy_circular hl] at h
    cases h
  | ready u =>
    rw [run_forceBy_ready hl] at h
    cases h
    exact Or.inl ⟨rfl, rfl⟩
  | start i =>
    obtain ⟨r, hr, -⟩ := World.exists_of_access hl (by rintro ⟨⟩)
    obtain ⟨hok, herror⟩ := run_forceBy_start go hl hr
    cases hrun : (go.eval (r.env a) i).run (w.setCell a l .inProgress) with
    | mk q mid =>
      cases q with
      | error e =>
        rw [herror e mid hrun] at h
        cases h
      | ok u =>
        rw [hok u mid hrun] at h
        cases h
        exact Or.inr ⟨i, r, mid, rfl, hr, hrun, rfl⟩

/-- **A module that is imported with success** has been loaded, or it is loaded then. -/
theorem exists_of_run_importBy (h : (Eval.importBy go k name).run w = (.ok v, w')) :
    ((w.resolver k).loaded.lookup name = some v ∧ w' = w) ∨
      (w.resolver k).loaded.lookup name = none ∧ ∃ tree mid,
        w.library.find (w.resolver k) name = .module tree ∧
        (go.eval (.ofRoot (some k)) ⟨{ birth := w.births }, tree⟩).run (w.entering k name) =
          (.ok v, mid) ∧
          w' = { mid with resolvers := mid.resolvers.modify k fun r => (r.keep name v).leave } := by
  cases hloaded : (w.resolver k).loaded.lookup name with
  | some u =>
    rw [run_importBy_loaded hloaded] at h
    cases h
    exact Or.inl ⟨rfl, rfl⟩
  | none =>
    by_cases hfind : ∃ tree, w.library.find (w.resolver k) name = .module tree
    · obtain ⟨tree, hfind⟩ := hfind
      obtain ⟨hok, herror⟩ := run_importBy_module go hloaded hfind
      cases hrun : (go.eval (.ofRoot (some k)) ⟨{ birth := w.births }, tree⟩).run
        (w.entering k name) with
      | mk q mid =>
        cases q with
        | error e =>
          rw [herror e mid hrun] at h
          cases h
        | ok u =>
          rw [hok u mid hrun] at h
          cases h
          exact Or.inr ⟨rfl, tree, mid, hfind, hrun, rfl⟩
    · obtain ⟨trace, hrun⟩ := run_importBy_failure go hloaded (not_exists.mp hfind)
      rw [hrun] at h
      cases h

end Runs

namespace Eval

variable {α β : Type} {m m' : Evaluating α}

/-- **A computation persists** in another one: what it comes to with success the other one comes to
as well, and nothing is taken back on the way. -/
def Persists (m m' : Evaluating α) : Prop :=
  ∀ w x w', m.run w = (.ok x, w') → m'.run w = (.ok x, w') ∧ w.Precedes w'

theorem persists_throw (e : Failure) : Persists (throw e) m' := fun _ _ _ h => nomatch h

theorem Persists.bind {f f' : α → Evaluating β} (h : Persists m m')
    (hf : ∀ x, Persists (f x) (f' x)) :
    Persists (m >>= f) (m' >>= f') := fun w y w' hrun => by
  obtain ⟨x, mid, hm, hx⟩ := Run.run_bind_eq_ok.mp hrun
  obtain ⟨hm', hmid⟩ := h w x mid hm
  obtain ⟨hx', hw'⟩ := hf x mid y w' hx
  exact ⟨Run.run_bind_eq_ok.mpr ⟨x, mid, hm', hx'⟩, hmid.trans hw'⟩

/-- Operators persist in themselves, applying functions and computing fields aside. -/
theorem closed_persists : Closed fun m => Persists m m where
  pure x w y w' h := by
    cases h
    exact ⟨rfl, .refl w⟩
  bind := Persists.bind
  throw _ := persists_throw _
  look {_ f} h := fun w x w' hrun => h w w x w' hrun
  birth w x w' h := by
    cases h
    exact ⟨rfl, World.precedes_of_eq rfl (Nat.le_succ _) rfl rfl rfl⟩

theorem persists_pure (x : α) : Persists (pure x) (pure x) := closed_persists.pure x

/-- What is done depends on the world. -/
theorem persists_get {f f' : World → Evaluating α} (h : ∀ w, Persists (f w) (f' w)) :
    Persists (get >>= f) (get >>= f') := fun w x w' hrun => h w w x w' hrun

/-- A refusal is no success. -/
theorem Persists.refusing (h : Persists m m') (o : Operator) :
    Persists (Eval.refusing o m) (Eval.refusing o m') := fun w x w' hrun => by
  rw [Eval.refusing, Run.run_tryCatch] at hrun ⊢
  split at hrun
  case h_1 y mid hm =>
    cases hrun
    obtain ⟨hm', hw⟩ := h w x w' hm
    rw [hm']
    exact ⟨rfl, hw⟩
  case h_2 => split at hrun <;> cases hrun

/-! ## Lists and patterns -/

theorem persists_mapM {f f' : α → Evaluating β} (h : ∀ x, Persists (f x) (f' x)) :
    ∀ xs : List α, Persists (xs.mapM f) (xs.mapM f')
  | [] => by
    rw [List.mapM_nil, List.mapM_nil]
    exact persists_pure _
  | x :: xs => by
    rw [List.mapM_cons, List.mapM_cons]
    exact (h x).bind fun _ => (persists_mapM h xs).bind fun _ => persists_pure _

private theorem persists_filterAuxM {f f' : α → Evaluating Bool} (h : ∀ x, Persists (f x) (f' x)) :
    ∀ xs acc : List α, Persists (List.filterAuxM f xs acc) (List.filterAuxM f' xs acc)
  | [], _ => by
    rw [List.filterAuxM, List.filterAuxM]
    exact persists_pure _
  | x :: xs, _ => by
    rw [List.filterAuxM, List.filterAuxM]
    exact (h x).bind fun _ => persists_filterAuxM h xs _

theorem persists_filterM {f f' : α → Evaluating Bool} (h : ∀ x, Persists (f x) (f' x))
    (xs : List α) :
    Persists (xs.filterM f) (xs.filterM f') :=
  (persists_filterAuxM h xs []).bind fun _ => persists_pure _

theorem persists_foldlM {f f' : β → α → Evaluating β} (h : ∀ y x, Persists (f y x) (f' y x)) :
    ∀ (xs : List α) (y : β), Persists (xs.foldlM f y) (xs.foldlM f' y)
  | [], y => by
    rw [List.foldlM_nil, List.foldlM_nil]
    exact persists_pure y
  | x :: xs, y => by
    rw [List.foldlM_cons, List.foldlM_cons]
    exact (h y x).bind fun z => persists_foldlM h xs z

theorem persists_collectWith {field field' : Value → Label → Evaluating Value}
    (h : ∀ v l, Persists (field v l) (field' v l)) (p : Pattern) :
    ∀ b v, Persists (collectWith field b p v) (collectWith field' b p v) := by
  induction p using Pattern.inductOn with
  | name x => exact fun _ _ => persists_pure _
  | wildcard => exact fun _ _ => persists_pure _
  | row fields ih =>
    intro b v
    rw [collectWith, collectWith]
    induction fields generalizing b with
    | nil =>
      rw [collectWith.collectFields, collectWith.collectFields]
      exact persists_pure _
    | cons p fields ihf =>
      rw [collectWith.collectFields, collectWith.collectFields]
      exact (h v p.1).bind fun u => (ih p List.mem_cons_self b u).bind fun b' =>
        ihf (fun q hq => ih q (List.mem_cons_of_mem _ hq)) b'

/-! ## Values in a text -/

section Format

variable {find find' : List Nat → Option (Evaluating Value)}
  {lookup lookup' : Nat → Label → Evaluating Value}

/-- What is found under a key persists in what is found there with more levels. -/
def FoundAlike (find find' : List Nat → Option (Evaluating Value)) : Prop :=
  ∀ codes, Option.Rel Persists (find codes) (find' codes)

theorem FoundAlike.isNone_eq (h : FoundAlike find find') (codes : List Nat) :
    (find codes).isNone = (find' codes).isNone := by
  have hcodes := h codes
  generalize find codes = r, find' codes = r' at hcodes
  cases hcodes <;> rfl

theorem persists_supplyOf (h : FoundAlike find find') (key : Text.Key) (supply : Format.Supply) :
    Persists (Format.supplyOf find key supply) (Format.supplyOf find' key supply) := by
  cases key with
  | none => exact persists_pure _
  | unfinished =>
    rw [Format.supplyOf, Format.supplyOf, h.isNone_eq]
    split <;> exact persists_throw _
  | named codes =>
    rw [Format.supplyOf, Format.supplyOf]
    have hcodes := h codes
    generalize find codes = r, find' codes = r' at hcodes
    cases hcodes with
    | none => exact persists_throw _
    | some hm => exact hm.bind fun _ => persists_pure _

theorem persists_fillAll (h : FoundAlike find find') (total fuel : Nat) :
    ∀ (supply : Format.Supply) (s : List Nat),
      Persists (Format.fillAll .plain find total fuel supply s)
        (Format.fillAll .plain find' total fuel supply s) := by
  induction fuel with
  | zero => exact fun _ _ => persists_pure _
  | succ fuel ih =>
    intro supply s
    unfold Format.fillAll
    split
    · exact persists_pure _
    · exact (ih _ _).bind fun _ => persists_pure _
    · exact (persists_supplyOf h _ _).bind fun _ =>
        (closed_persists.inWorld.fill _ _ _).bind fun _ =>
        (ih _ _).bind fun _ => persists_pure _
    · exact (ih _ _).bind fun _ => persists_pure _

theorem foundAlike_lookupIn (h : ∀ a l, Persists (lookup a l) (lookup' a l)) (v : Value) :
    FoundAlike (Format.lookupIn lookup v) (Format.lookupIn lookup' v) := by
  intro key
  cases v with
  | list => exact .some (persists_throw _)
  | record a =>
    rw [Format.lookupIn, Format.lookupIn]
    cases Value.characters? key with
    | none => exact .some (persists_throw _)
    | some cs => exact .some (h a _)
  | _ => exact .none

theorem persists_format (h : ∀ a l, Persists (lookup a l) (lookup' a l)) (own fresh : Origin)
    (s : List Nat) (v : Value) : Persists (Format.format .plain lookup own fresh s v)
      (Format.format .plain lookup' own fresh s v) := by
  have hfind := foundAlike_lookupIn h v
  refine (persists_fillAll hfind _ _ _ _).bind fun (pieces, supply) => ?_
  dsimp only
  rw [hfind.isNone_eq]
  split
  · exact (persists_throw _).bind fun _ => persists_pure _
  · exact persists_pure _

theorem persists_calculate (h : ∀ a l, Persists (lookup a l) (lookup' a l)) (o : Operator)
    (x y : Value) :
    Persists (calculate .plain lookup o x y) (calculate .plain lookup' o x y) := by
  refine closed_persists.birth.bind fun origin => ?_
  cases o with
  | modulo =>
    cases x with
    | text own s => exact persists_format h _ _ _ _
    | _ => exact closed_persists.faulty _
  | eq => exact persists_pure _
  | lt => exact (closed_persists.faulty _).bind fun _ => persists_pure _
  | times => exact closed_persists.room.bind fun _ => closed_persists.faulty _
  | plus | append | minus | divide => exact closed_persists.faulty _
  | _ => exact persists_throw _

end Format

/-! ## Fields and modules -/

section Runs

variable {go go' : Callees World}

/-- A field persists if its computation does. -/
theorem persists_forceBy (h : ∀ env c, Persists (go.eval env c) (go'.eval env c)) (a : Nat)
    (l : Label) :
    Persists (Eval.forceBy .plain go a l) (Eval.forceBy .plain go' a l) := fun w v w' hrun => by
  rcases exists_of_run_forceBy hrun with ⟨hl, rfl⟩ | ⟨i, r, mid, hl, hr, hcompute, rfl⟩
  · exact ⟨run_forceBy_ready hl, .refl w'⟩
  · have hready : ∀ v, (w.row a).access l ≠ .ready v := fun v hv => by cases hv.symm.trans hl
    obtain ⟨hcompute', hmid⟩ := h _ _ _ _ _ hcompute
    exact ⟨(run_forceBy_start go' hl hr).1 v mid hcompute',
      ((World.precedes_setCell hready _).trans hmid).setCell hready _⟩

/-- A module persists if its computation does. -/
theorem persists_importBy (h : ∀ env c, Persists (go.eval env c) (go'.eval env c)) (k : Nat)
    (name : String) : Persists (Eval.importBy go k name) (Eval.importBy go' k name) :=
  fun w v w' hrun => by
    rcases exists_of_run_importBy hrun with ⟨hl, rfl⟩ | ⟨hl, tree, mid, hfind, hcompute, rfl⟩
    · exact ⟨run_importBy_loaded hl, .refl w'⟩
    · obtain ⟨hcompute', hmid⟩ := h _ _ _ _ _ hcompute
      have hentering := World.precedes_entering w k name
      refine ⟨(run_importBy_module go' hl hfind).1 v mid hcompute',
        (hentering.trans hmid).modify fun other u hu => ?_⟩
      refine (Resolver.lookup_keep _ _ _ _).trans ?_
      split
      case isTrue hother => cases hl.symm.trans (hother ▸ hu)
      case isFalse => exact (hentering.trans hmid).loaded k other u hu

end Runs

/-! ## Levels -/

/-- What persists with one level more. -/
structure Deeper (go go' : Callees World) : Prop where
  eval : ∀ env c, Persists (go.eval env c) (go'.eval env c)
  apply : ∀ fn arg, Persists (go.apply fn arg) (go'.apply fn arg)
  operate : ∀ o args, Persists (go.operate o args) (go'.operate o args)
  field : ∀ v l, Persists (go.field v l) (go'.field v l)
  force : ∀ a l, Persists (go.force a l) (go'.force a l)
  required : ∀ k name, Persists (go.load k name >>= Eval.required name)
    (go'.load k name >>= Eval.required name)

namespace Deeper

variable {go go' : Callees World}

theorem none : Deeper .none go' where
  eval _ _ := persists_throw _
  apply _ _ := persists_throw _
  operate _ _ := persists_throw _
  field _ _ := persists_throw _
  force _ _ := persists_throw _
  required _ _ := persists_throw .tooDeep

theorem evalBy (h : Deeper go go') (env : Env) (c : Code) :
    Persists (Eval.evalBy .plain go env c) (Eval.evalBy .plain go' env c) := by
  have hallocate (r : StoredRecord) : Persists (World.allocate r) (World.allocate r) :=
    fun w _ _ hrun => by
    cases hrun
    exact ⟨rfl, World.precedes_push w r⟩
  obtain ⟨here, e⟩ := c
  cases e with
  | number n =>
    cases n with
    | int i => exact persists_pure _
    | real x => exact persists_pure _
  | char c => exact persists_pure _
  | var x =>
    rw [Eval.evalBy, Eval.evalBy]
    cases env.fetch? x with
    | some v => exact persists_pure v
    | none => exact persists_throw _
  | op o => exact persists_pure _
  | lambda p body => exact closed_persists.birth.bind fun _ => persists_pure _
  | apply fn arg => exact (h.eval _ _).bind fun _ => (h.eval _ _).bind fun _ => h.apply _ _
  | list elts =>
    exact (persists_mapM (h.eval env) _).bind fun _ => closed_persists.birth.bind fun _ =>
      persists_pure _
  | record fields => exact hallocate _
  | tuple items => exact hallocate _
  | dispatch handlers => exact closed_persists.birth.bind fun _ => persists_pure _
  | tag l => exact closed_persists.birth.bind fun _ => persists_pure _
  | load name =>
    rw [Eval.evalBy, Eval.evalBy]
    cases env.root with
    | none => exact persists_throw _
    | some k => exact h.required k name
  | ascribe t e => exact h.eval _ _
  | bindIn p bound body =>
    exact (h.eval _ _).bind fun v => (persists_collectWith h.field p _ v).bind fun _ => h.eval _ _

theorem applyBy (h : Deeper go go') (fn arg : Value) :
    Persists (Eval.applyBy .plain go fn arg) (Eval.applyBy .plain go' fn arg) := by
  have hfail {make : String → Failure} (hmake : ∀ shown, (make shown).Plain) (v : Value) :
      Persists (World.failWith make v : Evaluating Value) (World.failWith make v) :=
    closed_persists.failWith hmake v
  by_cases hfn : fn.isProcedure = true
  case neg =>
    rw [applyBy_not_procedure hfn, applyBy_not_procedure hfn]
    exact hfail (by exact fun _ => trivial) _
  cases fn with
  | closure own env p body => exact (persists_collectWith h.field p _ arg).bind fun _ => h.eval _ _
  | tagger own tag => exact closed_persists.birth.bind fun _ => persists_pure _
  | dispatcher own env handlers =>
    rw [applyBy_dispatcher, applyBy_dispatcher]
    cases arg.handled? handlers with
    | some c => exact (h.eval _ _).bind fun fn => h.apply fn _
    | none => exact hfail (by exact fun _ => trivial) _
  | operator o => exact (h.operate _ _).refusing o
  | waiting own o args => exact (h.operate _ _).refusing o
  | _ => cases hfn

theorem operateBy (h : Deeper go go') (o : Operator) (args : List Value) :
    Persists (Eval.operateBy .plain go o args) (Eval.operateBy .plain go' o args) := by
  unfold Eval.operateBy
  split
  · exact closed_persists.birth.bind fun _ => persists_pure _
  split
  · exact (closed_persists.entries _).bind fun items =>
      (persists_mapM (h.apply _) items).bind fun _ =>
      closed_persists.birth.bind fun _ => persists_pure _
  · exact (closed_persists.entries _).bind fun items => (persists_filterM (fun x =>
      (h.apply _ x).bind fun v => closed_persists.inWorld.verdictOf v) items).bind fun _ =>
        closed_persists.birth.bind fun _ => persists_pure _
  · exact (closed_persists.entries _).bind fun items =>
      persists_foldlM (fun acc x => (h.apply _ acc).bind fun fn => h.apply fn x) items _
  · exact closed_persists.sizeOf _
  · exact closed_persists.room.bind fun _ => closed_persists.birth.bind fun _ =>
      closed_persists.faulty _
  · exact closed_persists.birth.bind fun _ => closed_persists.faulty _
  · exact closed_persists.birth.bind fun _ => closed_persists.faulty _
  · exact (h.field _ _).bind fun x => (h.field _ _).bind fun y => persists_calculate h.force _ x y
  · exact persists_throw _

theorem fieldBy (h : Deeper go go') (v : Value) (l : Label) :
    Persists (Eval.fieldBy .plain go v l) (Eval.fieldBy .plain go' v l) := by
  have hfail : Persists (World.failWith (.missingField l) v : Evaluating Value)
      (World.failWith (.missingField l) v) := closed_persists.failWith (by exact fun _ => trivial) v
  cases v with
  | record a =>
    rw [Eval.fieldBy, Eval.fieldBy]
    refine persists_get fun w => ?_
    split
    · exact h.force a l
    · exact hfail
  | _ => exact hfail

end Deeper

/-- **Evaluation persists with one level more.** -/
theorem deeper (depth : Nat) : Deeper (within .plain depth) (within .plain (depth + 1)) := by
  induction depth with
  | zero => exact .none
  | succ depth ih =>
    exact ⟨ih.evalBy, ih.applyBy, ih.operateBy, ih.fieldBy, persists_forceBy ih.eval,
      persists_importBy ih.eval⟩

variable {depth : Nat}

/-! ## Reading a field -/

section Force

variable {w w' : World} {a n : Nat} {l : Label} {v : Value}

/-- **A field that is read with success is read alike with more levels.** -/
theorem run_force_of_le (h : (force depth a l).run w = (.ok v, w')) (hn : depth ≤ n) :
    (force n a l).run w = (.ok v, w') := by
  induction hn with
  | refl => exact h
  | step _ ih => exact ((deeper _).force a l _ _ _ ih).1

/-- A field that is read with success is there. -/
theorem mem_labels_of_force (h : (force depth a l).run w = (.ok v, w')) :
    l ∈ Row.labels (w.row a) := by
  refine LazyRow.access_ne_missing_iff.mp fun hl => ?_
  cases depth with
  | zero => cases h
  | succ depth =>
    rw [force_eq, run_forceBy_missing hl] at h
    cases h

/-- What is read with success does not depend on the number of levels. -/
theorem force_unique {v' : Value} {w'' : World} (h : (force depth a l).run w = (.ok v, w'))
    (h' : (force n a l).run w = (.ok v', w'')) : v = v' ∧ w' = w'' := by
  have hmax := (run_force_of_le h (Nat.le_max_left depth n)).symm.trans
    (run_force_of_le h' (Nat.le_max_right depth n))
  cases hmax
  exact ⟨rfl, rfl⟩

/-- **Reading a field takes nothing back.** -/
theorem precedes_of_force (h : (force depth a l).run w = (.ok v, w')) : w.Precedes w' :=
  ((deeper depth).force a l _ _ _ h).2

/-- A field that has been read is computed. -/
theorem ready_of_force
    (h : (force depth a l).run w = (.ok v, w')) : (w'.row a).access l = .ready v := by
  cases depth with
  | zero => cases h
  | succ depth =>
    rw [force_eq] at h
    rcases exists_of_run_forceBy h with ⟨hl, rfl⟩ | ⟨i, r, mid, hl, hr, hcompute, rfl⟩
    · exact hl
    · have hstart : (w.setCell a l .inProgress).Precedes mid :=
        ((deeper depth).eval _ _ _ _ _ hcompute).2
      have hlabels := hstart.labels_eq (World.has_setCell_iff.mpr (World.has_of_getElem? hr))
      rw [World.row_setCell, if_pos rfl, LazyRow.labels_setCell] at hlabels
      exact (World.access_setCell_self (hlabels ▸ LazyRow.mem_labels_of_access_start hl) _).2.1 v
        rfl

end Force

end Eval

end RowLang
