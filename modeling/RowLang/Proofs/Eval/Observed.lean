import RowLang.Proofs.Expr.Tidy
import RowLang.Proofs.Run
import RowLang.Session

/-!
# Proofs/Eval/Observed — evaluation with a list of its imports

Evaluation once more, with lists of what becomes of its imports: of the calls of a resolver, each
with the world that it found and the world that it left, and of the modules that are computed
meanwhile.  Without the lists this is evaluation itself (`Erases`), so that whatever is said of them
is said of the imports of an evaluation.
-/

namespace RowLang

/-- A call of a resolver for a module. -/
structure Call where
  resolver : Nat
  name : String
  /-- What was underway and what had been computed when the call began. -/
  underway : List (Nat × String)
  computed : List ((Nat × String) × Value)
  before : World
  result : Except Failure (Option Value)
  after : World

/-- A world, and what was observed. -/
structure Observed where
  world : World
  /-- The calls that have ended, latest first. -/
  calls : List Call := []
  /-- The modules that are being computed, outermost first, each with the resolver that it is for.
  -/
  underway : List (Nat × String) := []
  /-- The modules that have been computed to the end, latest first. -/
  computed : List ((Nat × String) × Value) := []
  /-- What was underway whenever the computation of a module had begun, and the library then. -/
  nests : List (Library × List (Nat × String)) := []

/-- Evaluation that is observed. -/
abbrev Observing (α : Type) := ExceptT Failure (StateM Observed) α

namespace Observed

variable {α β : Type}

/-- An operation without imports. -/
def plainly (m : Evaluating α) : Observing α :=
  ExceptT.mk fun o => ((m.run o.world).1, { o with world := (m.run o.world).2 })

/-- The call of a resolver. -/
def calling (n : Nat) (name : String) (m : Observing (Option Value)) : Observing (Option Value) :=
  ExceptT.mk fun o =>
    let (r, o') := m.run o
    (r, { o' with calls := ⟨n, name, o.underway, o.computed, o.world, r, o'.world⟩ :: o'.calls })

/-- The computation of a module begins. -/
def begin (o : Observed) (n : Nat) (name : String) : Observed :=
  let underway := o.underway ++ [(n, name)]
  { o with underway, nests := (o.world.library, underway) :: o.nests }

/-- The computation of a module ends. -/
def finish (o : Observed) (n : Nat) (name : String) :
    Except Failure Value × Observed → Except Failure Value × Observed
  | (.ok v, o') =>
    (.ok v, { o' with underway := o.underway, computed := ((n, name), v) :: o'.computed })
  | (.error e, o') => (.error e, { o' with underway := o.underway })

/-- The computation of a module. -/
def computing (n : Nat) (name : String) (m : Observing Value) : Observing Value :=
  ExceptT.mk fun o => o.finish n name (m.run (o.begin n name))

/-- **The world, with what is observed.** -/
def host : Host Observed where
  plainly := plainly
  failWith make v := plainly (World.failWith make v)
  written conversion v := plainly (Format.written conversion v)
  calling := calling
  computing := computing

theorem run_plainly (m : Evaluating α) (o : Observed) :
    (host.plainly m).run o = ((m.run o.world).1, { o with world := (m.run o.world).2 }) := rfl

theorem run_look (f : World → Observing α) (o : Observed) :
    (host.plainly get >>= f).run o = (f o.world).run o := rfl

/-! ## Evaluation -/

section Evaluation

variable (depth : Nat)

/-- The value of an expression in a scope. -/
def eval : Env → Code → Observing Value := (Eval.within host depth).eval

/-- A function applied to an argument. -/
def apply : Value → Value → Observing Value := (Eval.within host depth).apply

/-- An operator applied to the arguments that it has so far. -/
def operate : Operator → List Value → Observing Value := (Eval.within host depth).operate

/-- A field of a value. -/
def field : Value → Label → Observing Value := (Eval.within host depth).field

/-- The value of a field of a record, computed if need be. -/
def force : Nat → Label → Observing Value := (Eval.within host depth).force

/-- The value of a module.  When no level is left, the resolver is not called. -/
def load : Nat → String → Observing (Option Value) := (Eval.within host depth).load

/-- A value as a document, inside the records of `path`. -/
def document : List Nat → Value → Observing Document := (Eval.within host depth).document

end Evaluation

/-- The value of a program, as text. -/
def valueText : ImportRoot → Expr → Observing String := Session.valueTextBy host

/-! ## Nothing else is observed -/

/-- **The same operation without the list.** -/
def Erases (m' : Observing α) (m : Evaluating α) : Prop :=
  ∀ o, (m'.run o).1 = (m.run o.world).1 ∧ (m'.run o).2.world = (m.run o.world).2

theorem erases_plainly (m : Evaluating α) : Erases (plainly m) m := fun _ => ⟨rfl, rfl⟩

theorem erases_pure (x : α) : Erases (pure x) (pure x) := fun _ => ⟨rfl, rfl⟩

theorem erases_throw (e : Failure) : Erases (throw e : Observing α) (throw e) := fun _ => ⟨rfl, rfl⟩

theorem Erases.bind {m' : Observing α} {m : Evaluating α} {f' : α → Observing β}
    {f : α → Evaluating β}
    (h : Erases m' m) (hf : ∀ x, Erases (f' x) (f x)) : Erases (m' >>= f') (m >>= f) := by
  intro o
  have hm := h o
  rw [Run.run_bind, Run.run_bind]
  revert hm
  rcases m'.run o with ⟨r', o'⟩
  rcases m.run o.world with ⟨r, w⟩
  rintro ⟨rfl, rfl⟩
  cases r' with
  | ok x => exact hf x o'
  | error e => exact ⟨rfl, rfl⟩

theorem Erases.tryCatch {m' : Observing α} {m : Evaluating α} {f' : Failure → Observing α}
    {f : Failure → Evaluating α} (h : Erases m' m) (hf : ∀ e, Erases (f' e) (f e)) :
    Erases (tryCatch m' f') (tryCatch m f) := by
  intro o
  have hm := h o
  rw [Run.run_tryCatch, Run.run_tryCatch]
  revert hm
  rcases m'.run o with ⟨r', o'⟩
  rcases m.run o.world with ⟨r, w⟩
  rintro ⟨rfl, rfl⟩
  cases r' with
  | ok x => exact ⟨rfl, rfl⟩
  | error e => exact hf e o'

theorem Erases.look_bind {f' : World → Observing α} {f : World → Evaluating α}
    (hf : ∀ w, Erases (f' w) (f w)) : Erases (plainly get >>= f') (get >>= f) :=
  fun o => hf o.world o

theorem erases_faulty (r : Except Fault α) : Erases (World.faulty r) (World.faulty r) := by
  cases r with
  | ok x => exact erases_pure x
  | error f => exact erases_throw _

theorem Erases.calling {n : Nat} {name : String} {m' : Observing (Option Value)}
    {m : Evaluating (Option Value)} (h : Erases m' m) : Erases (calling n name m') m := h

theorem Erases.computing {n : Nat} {name : String} {m' : Observing Value} {m : Evaluating Value}
    (h : Erases m' m) : Erases (computing n name m') m := fun o => by
  have hfinish : ∀ p, (o.finish n name p).1 = p.1 ∧ (o.finish n name p).2.world = p.2.world := by
    rintro ⟨r, o'⟩
    cases r <;> exact ⟨rfl, rfl⟩
  have hm := h (o.begin n name)
  exact ⟨(hfinish _).1.trans hm.1, (hfinish _).2.trans hm.2⟩

theorem Erases.mapM {f' : α → Observing β} {f : α → Evaluating β} (h : ∀ x, Erases (f' x) (f x)) :
    ∀ xs : List α, Erases (xs.mapM f') (xs.mapM f)
  | [] => by
    rw [List.mapM_nil, List.mapM_nil]
    exact erases_pure _
  | x :: xs => by
    rw [List.mapM_cons, List.mapM_cons]
    exact (h x).bind fun _ => (mapM h xs).bind fun _ => erases_pure _

private theorem Erases.filterAuxM {f' : α → Observing Bool} {f : α → Evaluating Bool}
    (h : ∀ x, Erases (f' x) (f x)) :
    ∀ xs acc : List α, Erases (List.filterAuxM f' xs acc) (List.filterAuxM f xs acc)
  | [], _ => by
    rw [List.filterAuxM, List.filterAuxM]
    exact erases_pure _
  | x :: xs, acc => by
    rw [List.filterAuxM, List.filterAuxM]
    exact (h x).bind fun _ => filterAuxM h xs _

theorem Erases.filterM {f' : α → Observing Bool} {f : α → Evaluating Bool}
    (h : ∀ x, Erases (f' x) (f x)) (xs : List α) : Erases (xs.filterM f') (xs.filterM f) :=
  (Erases.filterAuxM h xs []).bind fun _ => erases_pure _

theorem Erases.foldlM {f' : β → α → Observing β} {f : β → α → Evaluating β}
    (h : ∀ y x, Erases (f' y x) (f y x)) : ∀ (xs : List α) (y : β),
      Erases (xs.foldlM f' y) (xs.foldlM f y)
  | [], y => by
    rw [List.foldlM_nil, List.foldlM_nil]
    exact erases_pure _
  | x :: xs, y => by
    rw [List.foldlM_cons, List.foldlM_cons]
    exact (h y x).bind fun z => foldlM h xs z

theorem Erases.refusing {o : Operator} {m' : Observing α} {m : Evaluating α} (h : Erases m' m) :
    Erases (Eval.refusing o m') (Eval.refusing o m) := h.tryCatch fun e => by
  cases e with
  | bare fault =>
    cases fault with
    | outOfMemory => exact erases_throw _
    | _ => exact erases_throw _
  | _ => exact erases_throw _

/-! ### Values in a text -/

/-- The same values are found under the same keys. -/
def ErasesFinding (find' : List Nat → Option (Observing Value))
    (find : List Nat → Option (Evaluating Value)) : Prop :=
  ∀ codes, (find' codes = none ∧ find codes = none) ∨
    ∃ m' m, find' codes = some m' ∧ find codes = some m ∧ Erases m' m

section Format

variable {find' : List Nat → Option (Observing Value)} {find : List Nat → Option (Evaluating Value)}
  {lookup' : Nat → Label → Observing Value} {lookup : Nat → Label → Evaluating Value}

theorem ErasesFinding.isNone_eq (h : ErasesFinding find' find) (codes : List Nat) :
    (find' codes).isNone = (find codes).isNone := by
  obtain ⟨hf', hf⟩ | ⟨m', m, hf', hf, -⟩ := h codes <;> rw [hf', hf] <;> rfl

theorem erases_supplyOf (h : ErasesFinding find' find) (key : Text.Key) (supply : Format.Supply) :
    Erases (Format.supplyOf find' key supply) (Format.supplyOf find key supply) := by
  cases key with
  | none => exact erases_pure _
  | unfinished =>
    rw [Format.supplyOf, Format.supplyOf, h.isNone_eq]
    split <;> exact erases_throw _
  | named codes =>
    rw [Format.supplyOf, Format.supplyOf]
    obtain ⟨hf', hf⟩ | ⟨m', m, hf', hf, hm⟩ := h codes
    · rw [hf', hf]
      exact erases_throw _
    · rw [hf', hf]
      exact hm.bind fun _ => erases_pure _

theorem erases_convert (room : Nat) (d : Text.Directive) (index : Nat) (left : Bool) (width : Nat)
    (precision : Option Nat) (c : Nat) (v : Value) :
    Erases (Format.convert host room d index left width precision c v)
      (Format.convert .plain room d index left width precision c v) := by
  unfold Format.convert
  dsimp only
  split
  · exact (erases_plainly _).bind fun _ => erases_pure _
  split
  · exact (erases_faulty _).bind fun _ => erases_pure _
  split
  · exact (erases_faulty _).bind fun _ => erases_pure _
  split
  · exact (erases_faulty _).bind fun _ => erases_pure _
  split
  · exact (erases_faulty _).bind fun _ => erases_pure _
  · exact erases_throw _

theorem erases_fill (d : Text.Directive) (index : Nat) (s : Format.Supply) :
    Erases (Format.fill host d index s) (Format.fill .plain d index s) := by
  refine (erases_plainly _).bind fun room => (erases_faulty _).bind fun (left, width, s) =>
    (erases_faulty _).bind fun (precision, s) => ?_
  dsimp only
  unfold Format.fillSized
  split
  · exact erases_throw _
  · exact (erases_faulty _).bind fun (v, s) =>
      Erases.bind (erases_convert _ _ _ _ _ _ _ v) fun _ => erases_pure _

theorem erases_fillAll (h : ErasesFinding find' find) (total fuel : Nat) :
    ∀ (supply : Format.Supply) (s : List Nat),
      Erases (Format.fillAll host find' total fuel supply s)
        (Format.fillAll .plain find total fuel supply s) := by
  induction fuel with
  | zero => exact fun _ _ => erases_pure _
  | succ fuel ih =>
    intro supply s
    unfold Format.fillAll
    split
    · exact erases_pure _
    · exact (ih _ _).bind fun _ => erases_pure _
    · exact (erases_supplyOf h _ _).bind fun _ => (erases_fill _ _ _).bind fun _ =>
        (ih _ _).bind fun _ => erases_pure _
    · exact (ih _ _).bind fun _ => erases_pure _

theorem erases_lookupIn (h : ∀ a l, Erases (lookup' a l) (lookup a l)) (v : Value) :
    ErasesFinding (Format.lookupIn lookup' v) (Format.lookupIn lookup v) := by
  intro key
  cases v with
  | list => exact Or.inr ⟨_, _, rfl, rfl, erases_throw _⟩
  | record a =>
    rw [Format.lookupIn, Format.lookupIn]
    cases Value.characters? key with
    | none => exact Or.inr ⟨_, _, rfl, rfl, erases_throw _⟩
    | some cs => exact Or.inr ⟨_, _, rfl, rfl, h a _⟩
  | _ => exact Or.inl ⟨rfl, rfl⟩

theorem erases_format (h : ∀ a l, Erases (lookup' a l) (lookup a l)) (own fresh : Origin)
    (s : List Nat) (v : Value) : Erases (Format.format host lookup' own fresh s v)
      (Format.format .plain lookup own fresh s v) := by
  have hfind := erases_lookupIn h v
  refine (erases_fillAll hfind _ _ _ _).bind fun (pieces, supply) => ?_
  dsimp only
  rw [hfind.isNone_eq]
  split
  · exact (erases_throw _).bind fun _ => erases_pure _
  · exact erases_pure _

theorem erases_calculate (h : ∀ a l, Erases (lookup' a l) (lookup a l)) (o : Operator)
    (x y : Value) :
    Erases (Eval.calculate host lookup' o x y) (Eval.calculate .plain lookup o x y) := by
  refine (erases_plainly _).bind fun origin => ?_
  cases o with
  | modulo =>
    cases x with
    | text own s => exact erases_format h _ _ _ _
    | _ => exact erases_faulty _
  | eq => exact erases_pure _
  | lt => exact (erases_faulty _).bind fun _ => erases_pure _
  | times => exact (erases_plainly _).bind fun _ => erases_faulty _
  | plus | append | minus | divide => exact erases_faulty _
  | _ => exact erases_throw _

end Format

theorem erases_verdictOf (v : Value) :
    Erases (Eval.verdictOf host v) (Eval.verdictOf .plain v) := by
  unfold Eval.verdictOf
  split
  exacts [erases_pure _, erases_pure _, erases_plainly _]

/-! ### Levels -/

theorem erases_collectWith {field' : Value → Label → Observing Value}
    {field : Value → Label → Evaluating Value} (h : ∀ v l, Erases (field' v l) (field v l))
    (p : Pattern) :
    ∀ b v, Erases (Eval.collectWith field' b p v) (Eval.collectWith field b p v) := by
  induction p using Pattern.inductOn with
  | name x => exact fun _ _ => erases_pure _
  | wildcard => exact fun _ _ => erases_pure _
  | row fields ih =>
    intro b v
    rw [Eval.collectWith, Eval.collectWith]
    induction fields generalizing b with
    | nil => exact erases_pure _
    | cons p fields ihf =>
      rw [Eval.collectWith.collectFields, Eval.collectWith.collectFields]
      exact (h v p.1).bind fun u => (ih p List.mem_cons_self b u).bind fun b' =>
        ihf (fun q hq => ih q (List.mem_cons_of_mem _ hq)) b'

/-- The functions of evaluation are what they are without the list. -/
structure ErasesCallees (go' : Eval.Callees Observed) (go : Eval.Callees World) : Prop where
  eval : ∀ env code, Erases (go'.eval env code) (go.eval env code)
  apply : ∀ fn arg, Erases (go'.apply fn arg) (go.apply fn arg)
  operate : ∀ o args, Erases (go'.operate o args) (go.operate o args)
  field : ∀ v l, Erases (go'.field v l) (go.field v l)
  force : ∀ a l, Erases (go'.force a l) (go.force a l)
  load : ∀ n name, Erases (go'.load n name) (go.load n name)
  document : ∀ path v, Erases (go'.document path v) (go.document path v)

namespace ErasesCallees

variable {go' : Eval.Callees Observed} {go : Eval.Callees World}

theorem evalBy (h : ErasesCallees go' go) (env : Env) (code : Code) :
    Erases (Eval.evalBy host go' env code) (Eval.evalBy .plain go env code) := by
  obtain ⟨here, e⟩ := code
  cases e with
  | number n =>
    cases n with
    | int i => exact erases_pure _
    | real x => exact erases_pure _
  | char c => exact erases_pure _
  | var x =>
    rw [Eval.evalBy, Eval.evalBy]
    cases env.fetch? x with
    | some v => exact erases_pure v
    | none => exact erases_throw _
  | op o => exact erases_pure _
  | lambda p body => exact (erases_plainly _).bind fun _ => erases_pure _
  | apply fn arg => exact (h.eval _ _).bind fun _ => (h.eval _ _).bind fun _ => h.apply _ _
  | list elts =>
    exact (Erases.mapM (h.eval env) _).bind fun _ => (erases_plainly _).bind fun _ => erases_pure _
  | record fields => exact erases_plainly _
  | tuple items => exact erases_plainly _
  | dispatch handlers => exact (erases_plainly _).bind fun _ => erases_pure _
  | tag l => exact (erases_plainly _).bind fun _ => erases_pure _
  | load name =>
    rw [Eval.evalBy, Eval.evalBy]
    cases env.root with
    | none => exact erases_throw _
    | some n =>
      refine (h.load n name).bind fun v => ?_
      cases v with
      | some v => exact erases_pure v
      | none => exact erases_throw _
  | ascribe t e => exact h.eval _ _
  | bindIn p bound body =>
    exact (h.eval _ _).bind fun v => (erases_collectWith h.field p _ v).bind fun _ => h.eval _ _

theorem applyBy (h : ErasesCallees go' go) (fn arg : Value) :
    Erases (Eval.applyBy host go' fn arg) (Eval.applyBy .plain go fn arg) := by
  cases fn with
  | closure own env p body => exact (erases_collectWith h.field p _ arg).bind fun _ => h.eval _ _
  | tagger own tag => exact (erases_plainly _).bind fun _ => erases_pure _
  | dispatcher own env handlers =>
    cases arg with
    | tagged own tag payload =>
      rw [Eval.applyBy, Eval.applyBy]
      cases Row.get? handlers tag.label with
      | some handler => exact (h.eval _ _).bind fun fn => h.apply fn _
      | none => exact erases_plainly _
    | _ => exact erases_plainly _
  | operator o => exact (h.operate _ _).refusing
  | waiting own o args => exact (h.operate _ _).refusing
  | _ => exact erases_plainly _

theorem operateBy (h : ErasesCallees go' go) (o : Operator) (args : List Value) :
    Erases (Eval.operateBy host go' o args) (Eval.operateBy .plain go o args) := by
  unfold Eval.operateBy
  split
  · exact (erases_plainly _).bind fun _ => erases_pure _
  split
  · exact (erases_plainly _).bind fun items => (Erases.mapM (h.apply _) items).bind fun _ =>
      (erases_plainly _).bind fun _ => erases_pure _
  · exact (erases_plainly _).bind fun items => (Erases.filterM (fun x =>
      (h.apply _ x).bind fun v => erases_verdictOf v) items).bind fun _ =>
        (erases_plainly _).bind fun _ =>
        erases_pure _
  · exact (erases_plainly _).bind fun items =>
      Erases.foldlM (fun acc x => (h.apply _ acc).bind fun fn => h.apply fn x) items _
  · exact erases_plainly _
  · exact (erases_plainly _).bind fun _ => (erases_plainly _).bind fun _ => erases_faulty _
  · exact (erases_plainly _).bind fun _ => erases_faulty _
  · exact (erases_plainly _).bind fun _ => erases_faulty _
  · exact (h.field _ _).bind fun x => (h.field _ _).bind fun y => erases_calculate h.force _ x y
  · exact erases_throw _

theorem fieldBy (h : ErasesCallees go' go) (v : Value) (l : Label) :
    Erases (Eval.fieldBy host go' v l) (Eval.fieldBy .plain go v l) := by
  cases v with
  | record address =>
    rw [Eval.fieldBy, Eval.fieldBy]
    refine Erases.look_bind fun w => ?_
    split
    · exact h.force _ _
    · exact erases_plainly _
  | _ => exact erases_plainly _

theorem forceBy (h : ErasesCallees go' go) (a : Nat) (l : Label) :
    Erases (Eval.forceBy host go' a l) (Eval.forceBy .plain go a l) := by
  rw [Eval.forceBy, Eval.forceBy]
  refine Erases.look_bind fun w => ?_
  cases (w.row a).access l with
  | missing => exact erases_throw _
  | circular => exact erases_throw _
  | ready v => exact erases_pure v
  | start initializer =>
    refine Erases.look_bind fun w => (erases_plainly _).bind fun _ => Erases.bind ?_ fun v =>
      (erases_plainly _).bind fun _ => erases_pure v
    exact (h.eval _ _).tryCatch fun e => (erases_plainly _).bind fun _ => erases_throw e

theorem fetching (h : ErasesCallees go' go) (lib : Library) (n : Nat) (name : String) :
    Erases (Eval.fetching host go' lib n name) (Eval.fetching .plain go lib n name) := by
  unfold Eval.fetching
  split
  · exact erases_throw _
  · exact (erases_plainly _).bind fun _ => erases_pure _
  refine (erases_plainly _).bind fun _ => ?_
  split
  · exact erases_throw _
  · exact erases_throw _
  · exact (erases_plainly _).bind fun _ => erases_pure _
  · refine (erases_plainly _).bind fun _ => (erases_plainly _).bind fun _ => Erases.bind ?_ fun v =>
      (erases_plainly _).bind fun _ => erases_pure _
    exact (h.eval _ _).computing.tryCatch fun e => (erases_plainly _).bind fun _ => erases_throw e

theorem resolving (h : ErasesCallees go' go) (n : Nat) (name : String) :
    Erases (Eval.resolving host go' n name) (Eval.resolving .plain go n name) := by
  refine Erases.look_bind fun w => ?_
  dsimp only
  split
  · exact erases_pure _
  split
  · exact (erases_plainly _).bind fun _ => erases_pure _
  · exact h.fetching _ _ _

theorem documentBy (h : ErasesCallees go' go) (path : List Nat) (v : Value) :
    Erases (Eval.documentBy host go' path v) (Eval.documentBy .plain go path v) := by
  unfold Eval.documentBy
  split
  · exact (h.document _ _).bind fun _ => erases_pure _
  · exact (Erases.mapM (h.document path) _).bind fun _ => erases_pure _
  · split
    · exact erases_pure _
    refine Erases.look_bind fun w => (Erases.mapM (fun l => ?_) _).bind fun _ => erases_pure _
    exact (h.force _ l).bind fun v => (h.document _ v).bind fun _ => erases_pure _
  · split <;> exact erases_pure _
  · split <;> exact erases_pure _

end ErasesCallees

/-- **Evaluation is what it is without the list**, within any number of levels. -/
theorem erasesCallees (depth : Nat) : ErasesCallees (Eval.within host depth)
    (Eval.within .plain depth) := by
  induction depth with
  | zero =>
    exact ⟨fun _ _ => erases_throw _, fun _ _ => erases_throw _, fun _ _ => erases_throw _,
      fun _ _ => erases_throw _, fun _ _ => erases_throw _, fun _ _ => erases_throw _,
      fun _ _ => erases_throw _⟩
  | succ depth ih =>
    exact ⟨ih.evalBy, ih.applyBy, ih.operateBy, ih.fieldBy, ih.forceBy,
      fun n name => (ih.resolving n name).calling, ih.documentBy⟩

/-- **The text of a program's value is what it is without the list.** -/
theorem erases_valueText (root : ImportRoot) (e : Expr) :
    Erases (valueText root e) (Session.valueText root e) :=
  (erases_plainly _).bind fun _ => ((erasesCallees _).eval _ _).bind fun v =>
    ((erasesCallees _).document _ v).bind fun _ => erases_faulty _

end Observed

end RowLang
