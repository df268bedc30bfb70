import RowLang.Eval.Document
import RowLang.Eval.Format
import RowLang.Expr.Grammar
import RowLang.Grammar.Advice
import RowLang.Value.Compare

/-!
# Eval/Basic — evaluation

Application is strict and fields of records are lazy.  The functions of evaluation call one another
to a bounded depth: what each does is said of the functions that it calls (`Callees`), which have
one level less to go, and evaluation that needs more levels fails as too deep.  Nothing recovers
from a failure; it only empties the cells and leaves the modules that it passes through.
-/

namespace RowLang

namespace Eval

/-- How deep an evaluation is followed. -/
def depthLimit : Nat := 6000

/-- Faults inside an operator are the operator's refusal, unless there is no room left. -/
def refusing {σ α : Type} (o : Operator) (m : Running σ α) : Running σ α :=
  tryCatch m fun e =>
    match e with
    | .bare .outOfMemory => throw (.bare .outOfMemory)
    | .bare fault => throw (.refused o fault)
    | e => throw e

/-- What a value consists of, for the operators that go through it: the entries of a list or tuple,
the characters of a text, the labels of a record as they stand in the program. -/
def entries (v : Value) : Evaluating (List Value) := do
  match v with
  | .list _ items => return items
  | .text _ codes => do
    let origin ← World.birth
    return codes.mapIdx fun i c => .text (origin.part i) [c]
  | .record address =>
    let r := (← get).records[address]?.getD default
    return r.row.map fun (l, cell) =>
      let place := cell.initializer.origin
      Value.ofString (if r.seesItself then place else place.numeral) l
  | v =>
    match v.tupleItems? with
    | some items => return items
    | none => throw (.bare (.notIterable v.kind))

/-- The number of a value's entries. -/
def sizeOf (v : Value) : Evaluating Value := do
  let origin ← World.birth
  match v with
  | .list _ items => return .int origin items.length
  | .text _ codes => return .int origin codes.length
  | .record address => return .int origin ((← get).row address).length
  | v =>
    match v.tupleItems? with
    | some items => return .int origin items.length
    | none => throw (.bare (.noLength v.kind))

/-- How many arguments an operator takes one after the other. -/
def arity : Operator → Nat
  | .map | .filter => 2
  | .fold => 3
  | _ => 1

section Patterns

variable {σ : Type}

/-- The bindings of a pattern, latest first, in front of those made already; `field` reads a field.
-/
def collectWith (field : Value → Label → Running σ Value) (bindings : List (String × Value)) :
    Pattern → Value → Running σ (List (String × Value))
  | .name x, v => return (x, v) :: bindings
  | .wildcard, _ => return bindings
  | .row fields, v => collectFields bindings fields v
where
  /-- The bindings of the fields of a pattern. -/
  collectFields (bindings : List (String × Value)) :
      List (Label × Pattern) → Value → Running σ (List (String × Value))
    | [], _ => return bindings
    | (l, p) :: fields, v => do
      let bindings ← collectWith field bindings p (← field v l)
      collectFields bindings fields v

end Patterns

/-- The functions of evaluation, as they are called one level further down. -/
structure Callees (σ : Type) where
  eval (env : Env) (code : Code) : Running σ Value
  apply (fn arg : Value) : Running σ Value
  operate (o : Operator) (args : List Value) : Running σ Value
  field (v : Value) (l : Label) : Running σ Value
  force (address : Nat) (l : Label) : Running σ Value
  load (n : Nat) (name : String) : Running σ (Option Value)
  document (path : List Nat) (v : Value) : Running σ Document

section Functions

variable {σ : Type} (h : Host σ) (go : Callees σ)

/-! ## Expressions -/

/-- The value of an expression in a scope. -/
def evalBy (env : Env) : Code → Running σ Value
  | ⟨here, e⟩ =>
    match e with
    | .number (.int i) => return .int here i
    | .number (.real x) => return .real here x
    | .char c => return .text here [c.toNat]
    | .var x =>
      match env.fetch? x with
      | some v => return v
      | none => throw (.unboundName x)
    | .op o => return .operator o
    | .lambda p body => return .closure (← h.plainly World.birth) env p ⟨here.part 0, body⟩
    | .apply fn arg => do
      let fn ← go.eval env ⟨here.part 0, fn⟩
      let arg ← go.eval env ⟨here.part 1, arg⟩
      go.apply fn arg
    | .list elts => do
      let items ← (Code.parts here elts).mapM (go.eval env)
      return .list (← h.plainly World.birth) items
    | .record fields => h.plainly (World.allocate ⟨env, true, .ofRow (Code.fields here fields)⟩)
    | .tuple items =>
      h.plainly (World.allocate ⟨env, false, .ofRow (Code.fields here (Row.positional items))⟩)
    | .dispatch handlers =>
      return .dispatcher (← h.plainly World.birth) env (Code.fields here handlers)
    | .tag l => return .tagger (← h.plainly World.birth) ⟨l, here.part 0⟩
    | .load name => do
      match env.root with
      | none => throw (.importFailed name)
      | some n =>
        match ← go.load n name with
        | some v => return v
        | none => throw (.importFailed name)
    | .ascribe _ e => go.eval env ⟨here.part 0, e⟩
    | .bindIn p bound body => do
      let v ← go.eval env ⟨here.part 0, bound⟩
      let bindings ← collectWith go.field [] p v
      go.eval (env.extend bindings) ⟨here.part 1, body⟩

/-! ## Functions -/

/-- A function applied to an argument. -/
def applyBy (fn arg : Value) : Running σ Value :=
  match fn with
  | .closure _ env p body => do
    let bindings ← collectWith go.field [] p arg
    go.eval (env.extend bindings) body
  | .tagger _ tag => return .tagged (← h.plainly World.birth) tag arg
  | .dispatcher _ env handlers =>
    match arg with
    | .tagged _ ⟨l, _⟩ payload =>
      match Row.get? handlers l with
      | some handler => do
        let fn ← go.eval env handler
        go.apply fn payload
      | none => h.failWith .unhandledTag arg
    | arg => h.failWith .unhandledTag arg
  | .operator o => refusing o (go.operate o [arg])
  | .waiting _ o args => refusing o (go.operate o (args ++ [arg]))
  | fn => h.failWith .notAProcedure fn

/-! ## Operators -/

/-- The verdict that a value is. -/
def verdictOf (v : Value) : Running σ Bool :=
  match v with
  | .tagged _ ⟨"true", _⟩ _ => return true
  | .tagged _ ⟨"false", _⟩ _ => return false
  | v => h.failWith .unhandledTag v

/-- The result of a binary operator; `lookup` finds what a record has under a key. -/
def calculate (lookup : Nat → Label → Running σ Value) (o : Operator) (x y : Value) :
    Running σ Value := do
  let origin ← h.plainly World.birth
  match o with
  | .plus | .append => World.faulty (x.add origin y)
  | .minus => World.faulty (x.subtract origin y)
  | .times => do World.faulty (x.multiply (← h.plainly World.room) origin y)
  | .divide => World.faulty (x.divide origin y)
  | .modulo =>
    match x with
    | .text own s => Format.format h lookup own origin s y
    | x => World.faulty (x.remainder origin y)
  | .eq => return .verdict origin (x.equal y)
  | .lt => return .verdict origin (← World.faulty (x.less y))
  | _ => throw (.bare (.unsupported o.spelling x.kind y.kind))

/-- An operator applied to the arguments that it has so far. -/
def operateBy (o : Operator) (args : List Value) : Running σ Value := do
  if args.length < arity o then return .waiting (← h.plainly World.birth) o args
  else
    match o, args with
    | .map, [fn, xs] => do
      let items ← (← h.plainly (entries xs)).mapM (go.apply fn)
      return .list (← h.plainly World.birth) items
    | .filter, [fn, xs] => do
      let items ← (← h.plainly (entries xs)).filterM fun x => do verdictOf h (← go.apply fn x)
      return .list (← h.plainly World.birth) items
    | .fold, [fn, start, xs] => do
      let items ← h.plainly (entries xs)
      items.foldlM (fun acc x => do go.apply (← go.apply fn acc) x) start
    | .size, [x] => h.plainly (sizeOf x)
    | .countUp, [x] => do
      World.faulty (x.countUp (← h.plainly World.room) (← h.plainly World.birth))
    | .ord, [x] => do World.faulty (x.ord (← h.plainly World.birth))
    | .chr, [x] => do World.faulty (x.chr (← h.plainly World.birth))
    | o, [pair] => do
      let x ← go.field pair "0"
      let y ← go.field pair "1"
      calculate h go.force o x y
    | _, _ => throw (.bare (.noLength "Primitive"))

/-! ## Fields -/

/-- A field of a value, which has to be a record that has it. -/
def fieldBy (v : Value) (l : Label) : Running σ Value :=
  match v with
  | .record address => do
    if Row.has ((← h.plainly get).row address) l then go.force address l
    else h.failWith (.missingField l) v
  | v => h.failWith (.missingField l) v

/-- The value of a field of a record, computed if need be. -/
def forceBy (address : Nat) (l : Label) : Running σ Value := do
  match ((← h.plainly get).row address).access l with
  | .missing => throw (.bare (.noKey (Text.quoted l)))
  | .circular => throw (.selfReferentialField l)
  | .ready v => return v
  | .start initializer =>
    let r := ((← h.plainly get).records[address]?).getD default
    let env := if r.seesItself then r.scope.extend [("this", .record address)] else r.scope
    h.plainly (World.updateRow address (·.start l))
    let v ← tryCatch (go.eval env initializer) fun e => do
      h.plainly (World.updateRow address (·.abandon l))
      throw e
    h.plainly (World.updateRow address (·.finish l v))
    return v

/-! ## Modules -/

/-- The value of a module that has been read, which is under construction until then. -/
def keeping (n : Nat) (name : String) (tree : Expr) : Running σ (Option Value) := do
  h.plainly (World.updateResolver n (·.enter name))
  let code : Code := ⟨← h.plainly World.birth, tree⟩
  let v ← tryCatch (h.computing n name (go.eval (.ofRoot (some n)) code)) fun e => do
    h.plainly (World.updateResolver n (·.leave))
    throw e
  h.plainly (World.updateResolver n fun r => (r.keep name v).leave)
  return some v

/-- The value of a module of a library, or nothing when an issue says why there is none. -/
def fetching (lib : Library) (n : Nat) (name : String) : Running σ (Option Value) := do
  match lib.source name with
  | .error f => throw (.bare f)
  | .ok none =>
    h.plainly (World.post (.noSuchModule name (lib.folder.map (·.path))))
    return none
  | .ok (some source) =>
    h.plainly (modify fun w => { w with trace := ("Loading " ++ name) :: w.trace })
    match Expr.parse source.toList with
    | .error (.halted (.fault f)) => throw (.bare f)
    | .error (.halted .endless) => throw .tooDeep
    | .error e =>
      let hint := match e with
        | .stuck remainder _ => Grammar.hint? remainder
        | _ => none
      h.plainly (World.post (.brokenModule name source e.message e.offset? hint))
      return none
    | .ok tree => keeping h go n name tree

/-- The value of a module: of one that is loaded, or else of the library's. -/
def resolving (n : Nat) (name : String) : Running σ (Option Value) := do
  let w ← h.plainly get
  let r := w.resolvers[n]?.getD default
  match r.loaded.lookup name with
  | some v => return some v
  | none =>
    if r.construction.contains name then
      h.plainly (World.post (.cyclicImport name (r.cycleFrom name)))
      return none
    fetching h go w.library n name

/-! ## Documents -/

/-- A value as a document, inside the records of `path`.  A record becomes an object, all its fields
computed; a tagged value the pair of its label and its payload. -/
def documentBy (path : List Nat) (v : Value) : Running σ Document :=
  match v with
  | .tagged _ ⟨l, _⟩ payload => do return .array [.ofString l, ← go.document path payload]
  | .list _ items => do return .array (← items.mapM (go.document path))
  | .record address => do
    if path.contains address then return cycleMarker
    let labels := Row.labels ((← h.plainly get).row address)
    return .object (← labels.mapM fun l => do
      return (l, ← go.document (address :: path) (← go.force address l)))
  | .real _ x =>
    match x.toInt? with
    | some i => return .int i
    | none => return .real x
  | v => if v.isProcedure then return functionMarker else return v.asItIs

/-- All functions of evaluation one level further up. -/
def Callees.next : Callees σ where
  eval := evalBy h go
  apply := applyBy h go
  operate := operateBy h go
  field := fieldBy h go
  force := forceBy h go
  load n name := h.calling n name (resolving h go n name)
  document := documentBy h go

/-- The functions of evaluation when there is no level left. -/
def Callees.none : Callees σ where
  eval _ _ := throw .tooDeep
  apply _ _ := throw .tooDeep
  operate _ _ := throw .tooDeep
  field _ _ := throw .tooDeep
  force _ _ := throw .tooDeep
  load _ _ := throw .tooDeep
  document _ _ := throw .tooDeep

/-- **The functions of evaluation**, with some levels to go. -/
def within : Nat → Callees σ
  | 0 => .none
  | depth + 1 => (within depth).next h

/-- The text of a value. -/
def toTextBy (v : Value) : Running σ String := do
  World.faulty (← go.document [] v).toText

end Functions

/-! ## Evaluation in the world -/

variable (depth : Nat)

/-- The value of an expression in a scope. -/
def eval : Env → Code → Evaluating Value := (within .plain depth).eval

/-- A function applied to an argument. -/
def apply : Value → Value → Evaluating Value := (within .plain depth).apply

/-- An operator applied to the arguments that it has so far. -/
def operate : Operator → List Value → Evaluating Value := (within .plain depth).operate

/-- A field of a value, which has to be a record that has it. -/
def field : Value → Label → Evaluating Value := (within .plain depth).field

/-- The value of a field of a record, computed if need be. -/
def force : Nat → Label → Evaluating Value := (within .plain depth).force

/-- The value of a module, or nothing when an issue says why there is none. -/
def load : Nat → String → Evaluating (Option Value) := (within .plain depth).load

/-- A value as a document, inside the records of `path`. -/
def document : List Nat → Value → Evaluating Document := (within .plain depth).document

/-- The text of a value. -/
def toText : Value → Evaluating String := toTextBy (within .plain depthLimit)

theorem toText_eq (v : Value) :
    toText v = (do World.faulty (← document depthLimit [] v).toText) := rfl

/-! ### What is called in the world, and what the functions do there -/

@[simp] theorem eval_within : (within .plain depth).eval = eval depth := rfl

@[simp] theorem apply_within : (within .plain depth).apply = apply depth := rfl

@[simp] theorem operate_within : (within .plain depth).operate = operate depth := rfl

@[simp] theorem field_within : (within .plain depth).field = field depth := rfl

@[simp] theorem force_within : (within .plain depth).force = force depth := rfl

@[simp] theorem load_within : (within .plain depth).load = load depth := rfl

@[simp] theorem document_within : (within .plain depth).document = document depth := rfl

theorem eval_succ (env : Env) (code : Code) :
    eval (depth + 1) env code = evalBy .plain (within .plain depth) env code := rfl

theorem apply_succ (fn arg : Value) :
    apply (depth + 1) fn arg = applyBy .plain (within .plain depth) fn arg := rfl

theorem operate_succ (o : Operator) (args : List Value) :
    operate (depth + 1) o args = operateBy .plain (within .plain depth) o args := rfl

theorem field_succ (v : Value) (l : Label) :
    field (depth + 1) v l = fieldBy .plain (within .plain depth) v l := rfl

theorem force_succ (address : Nat) (l : Label) :
    force (depth + 1) address l = forceBy .plain (within .plain depth) address l := rfl

theorem load_succ (n : Nat) (name : String) :
    load (depth + 1) n name = resolving .plain (within .plain depth) n name := rfl

theorem document_succ (path : List Nat) (v : Value) :
    document (depth + 1) path v = documentBy .plain (within .plain depth) path v := rfl

end Eval

end RowLang
