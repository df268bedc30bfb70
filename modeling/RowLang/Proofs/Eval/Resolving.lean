import RowLang.Proofs.Eval.Discipline
import RowLang.Proofs.Session.Answers

/-!
# Proofs/Eval/Resolving — programs against one resolver

Evaluation keeps the law of resolving, level by level (`Observed.AbidingCallees`), and so does every
run of programs, one after the other, whatever is done with the values in between
(`Observed.Reached`).  Hence each call of a resolver is disciplined, each module is computed to the
end at most once, and no more modules are computed inside each other than there are
(`Observed.resolver_disciplined`).
-/

namespace RowLang.Observed

open Law

variable {n depth : Nat} {α β : Type} {o : Observed}

/-! ## Operators -/

theorem abides_refusing {op : Operator} {m : Observing α} (h : Abides n m) :
    Abides n (Eval.refusing op m) := by
  refine h.tryCatch fun e _ => ?_
  split <;> exact abides_throw _

theorem abides_collectWith {field : Value → Label → Observing Value}
    (h : ∀ v l, Abides n (field v l))
    (p : Pattern) : ∀ b v, Abides n (Eval.collectWith field b p v) := by
  induction p using Pattern.inductOn with
  | name x => exact fun _ _ => abides_pure _
  | wildcard => exact fun _ _ => abides_pure _
  | row fields ih =>
    intro b v
    rw [Eval.collectWith]
    induction fields generalizing b with
    | nil =>
      rw [Eval.collectWith.collectFields]
      exact abides_pure _
    | cons p fields ihf =>
      rw [Eval.collectWith.collectFields]
      exact (h v p.1).bind fun u _ => (ih p List.mem_cons_self b u).bind fun b' _ =>
        ihf (fun q hq => ih q (List.mem_cons_of_mem _ hq)) b'

/-! ## Levels -/

/-- **The functions of evaluation keep the law of resolving.** -/
structure AbidingCallees (n : Nat) (go : Eval.Callees Observed) : Prop where
  eval : ∀ env code, Abides n (go.eval env code)
  apply : ∀ fn arg, Abides n (go.apply fn arg)
  operate : ∀ op args, Abides n (go.operate op args)
  field : ∀ v l, Abides n (go.field v l)
  force : ∀ a l, Abides n (go.force a l)
  load : ∀ k name, Abides n (go.load k name)
  document : ∀ path v, Abides n (go.document path v)

theorem abidingCallees_none : AbidingCallees n .none where
  eval _ _ := abides_throw _
  apply _ _ := abides_throw _
  operate _ _ := abides_throw _
  field _ _ := abides_throw _
  force _ _ := abides_throw _
  load _ _ := abides_throw _
  document _ _ := abides_throw _

/-- Lists of operations. -/
theorem abides_mapM {f : α → Observing β} (h : ∀ x, Abides n (f x)) (xs : List α) :
    Abides n (xs.mapM f) :=
  (keeps_mapM fun x _ => h x).weaken fun _ _ => trivial

theorem abides_birth : Abides n (host.plainly World.birth) := (closedIn_abides n).birth

theorem abides_look {f : World → Observing α} (h : ∀ w, Abides n (f w)) :
    Abides n (host.plainly get >>= f) := keeps_get fun o _ => h o.world

theorem abides_failWith {make : String → Failure} (hmake : ∀ shown, (make shown).Plain)
    (v : Value) :
    Abides n (host.failWith make v : Observing α) := (closedIn_abides n).failWith hmake v

namespace AbidingCallees

variable {go : Eval.Callees Observed}

theorem evalBy (h : AbidingCallees n go) (env : Env) (code : Code) :
    Abides n (Eval.evalBy host go env code) := by
  have hallocate (r : StoredRecord) : Abides n (host.plainly (World.allocate r)) :=
    abides_plainly (quiet_modifyGet fun _ => ⟨rfl, rfl, rfl⟩)
  obtain ⟨here, e⟩ := code
  cases e with
  | number m =>
    cases m with
    | int i => exact abides_pure _
    | real x => exact abides_pure _
  | char c => exact abides_pure _
  | var x =>
    rw [Eval.evalBy]
    cases env.fetch? x with
    | some v => exact abides_pure v
    | none => exact abides_throw _
  | op o => exact abides_pure _
  | lambda p body => exact abides_birth.bind fun _ _ => abides_pure _
  | apply fn arg =>
    rw [Eval.evalBy]
    exact (h.eval _ _).bind fun _ _ => (h.eval _ _).bind fun _ _ => h.apply _ _
  | list elts =>
    rw [Eval.evalBy]
    exact (abides_mapM (h.eval env) _).bind fun _ _ => abides_birth.bind fun _ _ => abides_pure _
  | record fields => exact hallocate _
  | tuple items => exact hallocate _
  | dispatch handlers => exact abides_birth.bind fun _ _ => abides_pure _
  | tag l => exact abides_birth.bind fun _ _ => abides_pure _
  | load name =>
    rw [Eval.evalBy]
    cases env.root with
    | none => exact abides_throw _
    | some k =>
      refine (h.load k name).bind fun v _ => ?_
      cases v with
      | some v => exact abides_pure v
      | none => exact abides_throw _
  | ascribe t e =>
    rw [Eval.evalBy]
    exact h.eval _ _
  | bindIn p bound body =>
    rw [Eval.evalBy]
    exact (h.eval _ _).bind fun v _ => (abides_collectWith h.field p _ v).bind fun _ _ => h.eval _ _

theorem applyBy (h : AbidingCallees n go) (fn arg : Value) :
    Abides n (Eval.applyBy host go fn arg) := by
  unfold Eval.applyBy
  split
  · exact (abides_collectWith h.field _ _ arg).bind fun _ _ => h.eval _ _
  · exact abides_birth.bind fun _ _ => abides_pure _
  · split
    · split
      · exact (h.eval _ _).bind fun fn _ => h.apply fn _
      · exact abides_failWith (by exact fun _ => trivial) _
    · exact abides_failWith (by exact fun _ => trivial) _
  · exact abides_refusing (h.operate _ _)
  · exact abides_refusing (h.operate _ _)
  · exact abides_failWith (by exact fun _ => trivial) _

theorem operateBy (h : AbidingCallees n go) (op : Operator) (args : List Value) :
    Abides n (Eval.operateBy host go op args) := by
  have hentries (v : Value) : Abides n (host.plainly (Eval.entries v)) :=
    abides_plainly (closed_quiet.entries v)
  have hclosed := closedIn_abides n
  unfold Eval.operateBy
  split
  · exact abides_birth.bind fun _ _ => abides_pure _
  split
  · exact (hentries _).bind fun items _ =>
      (abides_mapM (h.apply _) items).bind fun _ _ => abides_birth.bind fun _ _ => abides_pure _
  · refine (hentries _).bind fun items _ =>
      (keeps_filterM (P := fun _ => True) (fun _ _ => trivial) fun x _ => ?_).bind fun _ _ =>
        abides_birth.bind fun _ _ => abides_pure _
    exact (h.apply _ x).bind fun v _ => hclosed.verdictOf v
  · exact (hentries _).bind fun items _ =>
      keeps_foldlM trivial fun x _ acc _ => (h.apply _ acc).bind fun fn _ => h.apply fn x
  · exact abides_plainly (closed_quiet.sizeOf _)
  · exact hclosed.room.bind fun _ _ => abides_birth.bind fun _ _ => hclosed.faulty _
  · exact abides_birth.bind fun _ _ => hclosed.faulty _
  · exact abides_birth.bind fun _ _ => hclosed.faulty _
  · exact (h.field _ _).bind fun x _ => (h.field _ _).bind fun y _ =>
      hclosed.calculate (fun a l _ => h.force a l) _
  · exact abides_throw _

theorem fieldBy (h : AbidingCallees n go) (v : Value) (l : Label) :
    Abides n (Eval.fieldBy host go v l) := by
  unfold Eval.fieldBy
  split
  · refine abides_look fun w => ?_
    split
    · exact h.force _ _
    · exact abides_failWith (by exact fun _ => trivial) _
  · exact abides_failWith (by exact fun _ => trivial) _

theorem forceBy (h : AbidingCallees n go) (a : Nat) (l : Label) :
    Abides n (Eval.forceBy host go a l) := by
  have hupdate (f : LazyRow Code Value → LazyRow Code Value) :
      Abides n (host.plainly (World.updateRow a f)) :=
    abides_plainly (quiet_modifyGet fun _ => ⟨rfl, rfl, rfl⟩)
  rw [Eval.forceBy]
  refine abides_look fun w => ?_
  split
  · exact abides_throw _
  · exact abides_throw _
  · exact abides_pure _
  · exact abides_look fun w => (hupdate _).bind fun _ _ => ((h.eval _ _).tryCatch fun e _ =>
      (hupdate _).bind fun _ _ => abides_throw e).bind fun v _ => (hupdate _).bind fun _ _ =>
        abides_pure v

theorem documentBy (h : AbidingCallees n go) (path : List Nat) (v : Value) :
    Abides n (Eval.documentBy host go path v) := by
  unfold Eval.documentBy
  split
  · exact (h.document _ _).bind fun _ _ => abides_pure _
  · exact (abides_mapM (h.document path) _).bind fun _ _ => abides_pure _
  · split
    · exact abides_pure _
    · refine abides_look fun w => (abides_mapM (fun l => ?_) _).bind fun _ _ => abides_pure _
      exact (h.force _ l).bind fun v _ => (h.document _ v).bind fun _ _ => abides_pure _
  · split <;> exact abides_pure _
  · split <;> exact abides_pure _

end AbidingCallees

/-- **Evaluation keeps the law of resolving**, within any number of levels. -/
theorem abidingCallees (n depth : Nat) : AbidingCallees n (Eval.within host depth) := by
  induction depth with
  | zero => exact abidingCallees_none
  | succ depth ih =>
    exact ⟨ih.evalBy, ih.applyBy, ih.operateBy, ih.fieldBy, ih.forceBy,
      abides_calling ih.eval (erasesCallees depth), ih.documentBy⟩

theorem abides_valueText (root : ImportRoot) (e : Expr) : Abides n (valueText root e) :=
  abides_birth.bind fun _ _ => ((abidingCallees n _).eval _ _).bind fun v _ =>
    ((abidingCallees n _).document _ v).bind fun _ _ => (closedIn_abides n).faulty _

/-! ## Runs -/

/-- **What a run of programs comes to** with a resolver that is new at first: programs are
evaluated, modules are asked for, fields are read and functions applied, as deep as it may be, and
what else happens in the meantime leaves the resolver alone. -/
inductive Reached (n : Nat) : Observed → Prop
  | start {w : World} : w.resolvers[n]? = some {} → Reached n { world := w }
  | program {o : Observed} (root : ImportRoot) (e : Expr) : Reached n o →
      Reached n ((valueText root e).run o).2
  | module {o : Observed} (depth k : Nat) (name : String) : Reached n o →
      Reached n ((load depth k name).run o).2
  | field {o : Observed} (depth a : Nat) (l : Label) : Reached n o →
      Reached n ((force depth a l).run o).2
  | apply {o : Observed} (depth : Nat) (fn arg : Value) : Reached n o →
      Reached n ((Observed.apply depth fn arg).run o).2
  | meanwhile {o : Observed} {w : World} : Reached n o → w.resolvers[n]? = o.world.resolvers[n]? →
      Reached n { o with world := w }

/-- At the start nothing is loaded, and nothing was observed. -/
theorem orderly_start {w : World} (h : w.resolvers[n]? = some {}) : Orderly n { world := w } := by
  have hresolver : w.resolver n = {} := by rw [World.resolver, h, Option.getD_some]
  obtain ⟨hn, -⟩ := Array.getElem?_eq_some_iff.mp h
  exact {
    present := hn
    resolver := hresolver ▸ Resolver.orderly_new
    construction := by rw [hresolver]; rfl
    sources := by rw [hresolver]; exact fun _ hx => absurd hx List.not_mem_nil
    loaded := fun name v => by
      rw [hresolver]
      exact iff_of_false (fun hv => by cases hv) List.not_mem_nil
    once := List.nodup_nil
    nests := fun _ _ hmem => absurd hmem List.not_mem_nil
    calls := fun _ hc => absurd hc List.not_mem_nil
    genuine := fun _ hc => absurd hc List.not_mem_nil
    answers := fun _ hc => absurd hc List.not_mem_nil }

/-- Between programs no module is under construction, and the library may change. -/
theorem Orderly.meanwhile (h : o.Orderly n) (hidle : o.underway = []) {w : World}
    (hw : w.resolvers[n]? = o.world.resolvers[n]?) : Orderly n { o with world := w } := by
  have hresolver : w.resolver n = o.world.resolver n := congrArg (·.getD default) hw
  have hnone : (w.resolver n).construction = [] := by
    rw [hresolver, h.construction, hidle]
    rfl
  exact {
    present := by
      rw [Array.getElem?_eq_getElem h.present] at hw
      exact (Array.getElem?_eq_some_iff.mp hw).1
    resolver := hresolver ▸ h.resolver
    construction := hresolver ▸ h.construction
    sources := fun x hx => by
      rw [hnone] at hx
      cases hx
    loaded := hresolver ▸ h.loaded
    once := h.once
    nests := h.nests
    calls := h.calls
    genuine := h.genuine
    answers := h.answers }

theorem Reached.orderly (h : Reached n o) : o.Orderly n ∧ o.underway = [] := by
  have hrun {α : Type} {m : Observing α} (hm : Abides n m) {o : Observed}
      (ho : o.Orderly n ∧ o.underway = []) : (m.run o).2.Orderly n ∧ (m.run o).2.underway = [] := by
    obtain ⟨horderly, hadvances⟩ := ends_iff.mp (hm o ho.1)
    exact ⟨horderly, hadvances.underway.trans ho.2⟩
  induction h with
  | start hw => exact ⟨orderly_start hw, rfl⟩
  | program root e _ ih => exact hrun (abides_valueText root e) ih
  | module depth k name _ ih => exact hrun ((abidingCallees n depth).load k name) ih
  | field depth a l _ ih => exact hrun ((abidingCallees n depth).force a l) ih
  | apply depth fn arg _ ih => exact hrun ((abidingCallees n depth).apply fn arg) ih
  | meanwhile _ hw ih => exact ⟨ih.1.meanwhile ih.2 hw, ih.2⟩

/-! ## Sessions -/

/-- A world that a run comes to. -/
def Comes (n : Nat) (w : World) : Prop := ∃ o, Reached n o ∧ o.world = w

theorem Comes.meanwhile {w w' : World} (h : Comes n w)
    (hw : w'.resolvers = w.resolvers) : Comes n w' := by
  obtain ⟨o, ho, rfl⟩ := h
  exact ⟨_, ho.meanwhile (congrArg (·[n]?) hw), rfl⟩

theorem Comes.program {w : World} (h : Comes n w) (root : ImportRoot) (e : Expr) :
    Comes n ((Session.valueText root e).run w).2 := by
  obtain ⟨o, ho, rfl⟩ := h
  exact ⟨_, ho.program root e, (erases_valueText root e o).2⟩

/-- A complaint is about the report alone. -/
theorem comes_complain {s : Session} (h : Comes n s.world) (source : String) (t : Trouble) :
    Comes n ((Session.complain source t).run s).2.world := by
  refine h.meanwhile ?_
  unfold Session.complain Session.post Session.onReport
  simp only [Run.run_bind, Run.run_modify, Run.run_get]
  cases (s.world.report.post (.failure source t.message t.offset? t.hint?)).isFull <;> rfl

/-- **What a session evaluates continues a run**, whatever comes of it. -/
theorem comes_evaluate {s : Session} (h : Comes n s.world) (source : String) :
    Comes n ((Session.evaluate source).run s).2.world := by
  have hclear : (Session.onReport Report.clear).run s = (.ok ⟨⟩, { s with world := s.cleared }) :=
    rfl
  have hcleared : Comes n s.cleared := h.meanwhile rfl
  rw [Session.evaluate, Run.run_bind, hclear]
  refine Session.reading_ends (P := fun r => Comes n r.2.world) (fun e _ => ?_)
    (fun _ _ => hcleared)
    fun t => comes_complain (s := { s with world := s.cleared }) hcleared source t
  simp only [Run.run_bind, Run.run_get, Session.run_onWorld]
  have hvalue := hcleared.program s.resolver e
  revert hvalue
  rcases (Session.valueText s.resolver e).run s.cleared with ⟨r, w⟩
  intro hw
  cases r with
  | ok text => exact hw
  | error failure =>
    have hcomplain (t : Trouble) := comes_complain (s := { s with world := w }) hw source t
    cases failure with
    | bare f => exact hw
    | tooManyIssues => exact hw
    | tooDeep => exact hcomplain _
    | _ => exact hcomplain _

/-! ## The discipline -/

/-- **A resolver is disciplined** in every run of programs: so is each of its calls, a module is
computed to the end at most once, what a call gives is what the module was computed to, and no more
modules are computed inside each other than there are.  The calls are those that the evaluator makes
(`Call.Genuine`), the text of a program is what it is without being observed, and what any session
evaluates continues the run. -/
theorem resolver_disciplined (h : Reached n o) :
    (∀ c ∈ o.calls, c.resolver = n → c.Disciplined ∧ c.Genuine ∧
      ∀ v, c.result = .ok (some v) → ((n, c.name), v) ∈ o.computed) ∧
    (namesOf n (o.computed.map (·.1))).Nodup ∧
    (∀ lib underway, (lib, underway) ∈ o.nests →
      (namesOf n underway).length ≤ lib.modules.card) ∧
    (∀ root e, Erases (valueText root e) (Session.valueText root e)) ∧
    ∀ (s : Session) (source : String), s.world = o.world →
      Comes n ((Session.evaluate source).run s).2.world :=
  have ho := h.orderly.1
  ⟨fun c hc hn => ⟨ho.calls c hc hn, ho.genuine c hc hn, ho.answers c hc hn⟩, ho.once, ho.nests,
    erases_valueText, fun _ source hs => comes_evaluate (hs ▸ ⟨o, h, rfl⟩) source⟩

/-- Two modules that import each other, one of them in a field. -/
def twins : World :=
  { library := { definitions := [("a", "import b"), ("b", "\x7bx: import a\x7d")] },
    resolvers := #[{}] }

/-- What a program that imports one of them comes to. -/
def afterTwins : Observed := ((valueText (some 0) (.load "a")).run { world := twins }).2

/-- Both are computed once, one inside the other, and the field finds its module loaded. -/
theorem resolver_disciplined_twins :
    afterTwins.calls.map (·.name) = ["a", "a", "b"] ∧
    afterTwins.computed.map (·.1) = [(0, "a"), (0, "b")] ∧
    (∀ c ∈ afterTwins.calls, c.resolver = 0 → c.Disciplined ∧ c.Genuine ∧
      ∀ v, c.result = .ok (some v) → ((0, c.name), v) ∈ afterTwins.computed) ∧
    (namesOf 0 (afterTwins.computed.map (·.1))).Nodup ∧
    (∀ lib underway, (lib, underway) ∈ afterTwins.nests →
      (namesOf 0 underway).length ≤ lib.modules.card) ∧
    (∀ root e, Erases (valueText root e) (Session.valueText root e)) ∧
    ∀ (s : Session) (source : String), s.world = afterTwins.world →
      Comes 0 ((Session.evaluate source).run s).2.world :=
  ⟨by decide +kernel, by decide +kernel,
    resolver_disciplined (.program (some 0) (.load "a") (.start (w := twins) rfl))⟩

end RowLang.Observed
