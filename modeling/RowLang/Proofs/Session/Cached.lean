import RowLang.Proofs.Eval.Retold
import RowLang.Proofs.Session.Answers

/-!
# Proofs/Session/Cached — what programs leave behind

A session keeps the modules that it has loaded and the fields that it has computed.  A new session
is a shadow of it, so a program is answered there as it is here, unless it shows what has been
computed or where it is kept: a record that is written into a text, or into the message of a
failure, shows the fields that have been computed by then, and a dispatcher shows its address.
-/

namespace RowLang.Session

variable {lib : Library} {machine machine' : Machine} {s s' : Session} {maker : Thing → Maker}
  {source : String}

/-! ## A world in its own shadow -/

/-- A world as a shadow of later ones. -/
def shadow (w : World) : Shadow := ⟨w, w.itself⟩

/-- A world is a shadow of later ones also where it is run by another machine of the same room. -/
theorem behind_shadow {t u : Moment} (h : t.world.Whole) (htu : t.Le u)
    (hmaker : ∀ x, t.world.Has x → t.maker x = .program)
    (hroom : machine.room = t.world.machine.room) :
    (shadow { t.world with machine }).Behind u where
  unique := t.world.unique_itself
  has := by
    rintro x _ ⟨rfl, hx⟩
    exact ⟨hx, htu.world.has x hx⟩
  before := ⟨rfl, h.before⟩
  shared := ⟨rfl, h.shared⟩
  records := by
    rintro a _ ⟨⟨⟩, ha⟩
    obtain ⟨r, hr⟩ := World.exists_of_has ha
    obtain ⟨r', hr', hkin⟩ := htu.world.records a r hr
    exact ⟨r, r', hr, hr', (h.records a r hr).of_kin hkin⟩
  ready := by
    rintro a _ l v ⟨⟨⟩, ha⟩ hv
    exact ⟨v, htu.world.ready a l v hv, h.ready hv⟩
  loaded := by
    rintro k _ name v ⟨⟨⟩, hk⟩ hv
    exact ⟨v, htu.world.loaded k name v hv, h.loaded hv⟩
  library := htu.world.library.symm
  room := hroom.trans (congrArg Machine.room htu.world.machine.symm)
  orderly := h.orderly
  knows := by
    rintro x _ ⟨rfl, hx⟩
    rw [htu.maker x hx, hmaker x hx]
    trivial

theorem inStep_shadow {w w' : World} (h : w.Steady w') (hreport : w'.report = w.report)
    (machine : Machine) : (shadow { w with machine }).InStep w' where
  started {a l} hl := by
    have hl := (h.circular a l).mp hl
    obtain ⟨r, hr, -⟩ := World.exists_of_access hl (by rintro ⟨⟩)
    exact ⟨a, ⟨rfl, World.has_of_getElem? hr⟩, hl⟩
  running := by
    rintro a _ l ⟨⟨⟩, ha⟩ hl
    exact (h.circular a l).mpr hl
  construction := by
    rintro k _ ⟨⟨⟩, hk⟩
    exact (h.construction k).symm
  report := hreport.symm

/-! ## Sessions -/

/-- A session after some programs. -/
def evaluated (s : Session) (sources : List String) : Session :=
  sources.foldl (fun s source => ((evaluate source).run s).2) s

/-- The moment at which a session begins. -/
def beginning (lib : Library) (machine : Machine) : Moment :=
  ⟨(ofLibrary lib machine).world, fun _ => .program⟩

theorem sound_beginning (lib : Library) (machine : Machine) : (beginning lib machine).Sound := by
  have hrow (a : Nat) : (beginning lib machine).world.row a = [] := by
    cases a <;> rfl
  have hresolver (k : Nat) : (beginning lib machine).world.resolver k = {} := by
    cases k <;> rfl
  have hready {a : Nat} {l : Label} {v : Value} : ((beginning lib machine).world.row a).access l ≠
    .ready v := by
    rw [hrow]
    rintro ⟨⟩
  have hloaded {k : Nat} {name : String} {v : Value} :
      ((beginning lib machine).world.resolver k).loaded.lookup name ≠ some v := by
    rw [hresolver]
    rintro ⟨⟩
  exact {
    whole := {
      before := Nat.lt_succ_self 0
      shared := Nat.lt_succ_self 0
      records := fun a r hr => by
        cases a with
        | zero =>
          cases hr
          exact ⟨Env.Matches.ofRoot .none, rfl, .nil⟩
        | succ a => cases hr
      ready := fun hv => absurd hv hready
      loaded := fun hv => absurd hv hloaded
      orderly := fun k => by
        rw [hresolver]
        exact Resolver.orderly_new }
    fields := fun hv => absurd hv hready
    modules := fun hv => absurd hv hloaded }

/-- **A session on a library that has evaluated programs**: nothing is underway, and what has been
computed can be computed over again. -/
structure Current (lib : Library) (machine : Machine) (s : Session)
    (maker : Thing → Maker) : Prop where
  le : (beginning lib machine).Le ⟨s.world, maker⟩
  sound : Moment.Sound ⟨s.world, maker⟩
  steady : (ofLibrary lib machine).world.Steady s.world
  limit : s.world.report.limit = (ofLibrary lib machine).world.report.limit
  resolver : s.resolver = some 0

theorem current_beginning (lib : Library) (machine : Machine) :
    Current lib machine (ofLibrary lib machine) fun _ => .program where
  le := .refl _
  sound := sound_beginning lib machine
  steady := .refl _
  limit := rfl
  resolver := rfl

/-- What is reported does not count as time. -/
theorem Current.reported (h : Current lib machine s maker) {r : Report}
    (hr : r.limit = s.world.report.limit) :
    Current lib machine { s with world := { s.world with report := r } } maker := by
  have hle : Moment.Le ⟨s.world, maker⟩ ⟨{ s.world with report := r }, maker⟩ :=
    ⟨World.precedes_of_eq rfl le_rfl rfl rfl rfl, fun _ _ => rfl⟩
  exact {
    le := h.le.trans hle
    sound := h.sound.later hle (h.sound.whole.of_eq rfl le_rfl rfl rfl rfl) (fun hv => hv) fun hv =>
      hv
    steady := h.steady.trans (World.steady_of_eq rfl rfl)
    limit := hr.trans h.limit
    resolver := h.resolver }

theorem Current.cleared (h : Current lib machine s maker) :
    Current lib machine { s with world := s.cleared } maker :=
  h.reported rfl

/-- The resolver of a session is its own. -/
theorem Current.imports (h : Current lib machine s maker) :
    ImportRoot.Matches s.world.itself s.resolver s.resolver := by
  rw [h.resolver]
  exact .some ⟨rfl, h.le.world.has (.resolver 0) (Nat.lt_succ_self 0)⟩

/-- **A program leaves a session current**, whatever it comes to. -/
theorem Current.program (h : Current lib machine s maker) (hi : s.world.report.issues = [])
    (e : Expr) :
    ∃ maker', Current lib machine { s with world := ((valueText s.resolver e).run s.world).2 }
      maker' := by
  obtain ⟨maker', hvalue⟩ :=
    follows_valueText (o := .program) (t := ⟨s.world, maker⟩) h.imports e h.sound
  refine ⟨maker', h.le.trans hvalue.le, hvalue.sound, h.steady.trans hvalue.steady, ?_, h.resolver⟩
  refine Eq.trans ?_ h.limit
  cases hrun : (valueText s.resolver e).run s.world with
  | mk r w =>
    cases r with
    | ok text =>
      have hresult := (hvalue.result text (by rw [hrun])).1
      rw [hrun] at hresult
      exact congrArg (·.limit) hresult
    | error failure => exact (of_valueText_eq_error hi hrun).1

theorem Current.complain (h : Current lib machine s maker) (source : String) (t : Trouble) :
    Current lib machine ((Session.complain source t).run s).2 maker := by
  rw [run_complain]
  exact h.reported rfl

/-- **A question leaves a session current.** -/
theorem Current.evaluate (h : Current lib machine s maker) (source : String) :
    ∃ maker', Current lib machine ((Session.evaluate source).run s).2 maker' := by
  have hclear : (onReport Report.clear).run s = (.ok ⟨⟩, { s with world := s.cleared }) := rfl
  rw [Session.evaluate, Run.run_bind, hclear]
  refine reading_ends (P := fun r => ∃ maker', Current lib machine r.2 maker') (fun e _ => ?_)
    (fun _ _ => ⟨maker, h.cleared⟩) fun t => ⟨maker, h.cleared.complain source t⟩
  obtain ⟨maker', hvalue⟩ := h.cleared.program rfl e
  simp only [Run.run_bind, Run.run_get, run_onWorld]
  revert hvalue
  dsimp only
  rcases (valueText s.resolver e).run s.cleared with ⟨r, w⟩
  intro hvalue
  cases r with
  | ok text => exact ⟨maker', hvalue⟩
  | error failure =>
    cases failure with
    | bare f => exact ⟨maker', hvalue⟩
    | tooManyIssues => exact ⟨maker', hvalue⟩
    | tooDeep => exact ⟨maker', hvalue.complain source _⟩
    | _ => exact ⟨maker', hvalue.complain source _⟩

theorem current_evaluated (lib : Library) (machine : Machine) (sources : List String) :
    ∃ maker, Current lib machine ((ofLibrary lib machine).evaluated sources) maker := by
  suffices h : ∀ (s : Session), (∃ maker, Current lib machine s maker) →
    ∃ maker, Current lib machine (s.evaluated sources) maker from
    h _ ⟨_, current_beginning lib machine⟩
  induction sources with
  | nil => exact fun _ h => h
  | cons source sources ih => exact fun s ⟨maker, h⟩ => ih _ (h.evaluate source)

/-! ## Answers -/

/-- What a new session reports at first does not depend on its library and its machine. -/
theorem Current.inStep (h : Current lib machine s maker)
    (hclear : s.world.report = (ofLibrary lib machine).world.report) (machine' : Machine) :
    (shadow (ofLibrary lib machine').world).InStep s.world :=
  inStep_shadow h.steady hclear machine'

/-- **A new session is a shadow of one on the same library**, with as much room. -/
theorem Current.behind (h : Current lib machine s maker) (hroom : machine'.room = machine.room) :
    (shadow (ofLibrary lib machine').world).Behind ⟨s.world, maker⟩ :=
  behind_shadow (sound_beginning lib machine).whole h.le (fun _ _ => rfl) hroom

/-- **A program that is discreet comes to the same here and in a new session.** -/
theorem Current.valueText_eq (h : Current lib machine s maker)
    (hroom : machine'.room = machine.room)
    {e : Expr} (hclear : s.world.report = (ofLibrary lib machine).world.report)
    (hdiscreet : ((Discreet.valueText (some 0) e).run (ofLibrary lib machine').world).1 ≠
      .error .tooDeep) :
    ((valueText s.resolver e).run s.world).1
        = ((Discreet.valueText (some 0) e).run (ofLibrary lib machine').world).1 ∧
      ((valueText s.resolver e).run s.world).2.report
        = ((Discreet.valueText (some 0) e).run (ofLibrary lib machine').world).2.report := by
  obtain ⟨maker', hvalue⟩ :=
    follows_valueText (o := .program) (t := ⟨s.world, maker⟩) h.imports e h.sound
  have hroot : ImportRoot.Matches (ofLibrary lib machine').world.itself (some 0) s.resolver := by
    rw [h.resolver]
    exact .some ⟨rfl, Nat.lt_succ_self 0⟩
  exact hvalue.eq_of_inStep (i := some 0) le_rfl (h.behind hroom) trivial
    (h.inStep hclear machine') hroot
    hdiscreet

/-! ### Answers -/

/-- Answers that are the same, with the same issues. -/
def Same (r r' : Except Escape Answer × Session) : Prop := r.1 = r'.1 ∧ r.2.issues = r'.2.issues

theorem same_complain (h : s.world.report = s'.world.report) (source : String) (t : Trouble) :
    Same ((complain source t).run s) ((complain source t).run s') := by
  rw [run_complain, run_complain]
  exact ⟨by rw [h], congrArg (fun r => (Report.post r _).issues) h⟩

/-- A question about a value depends on what the program comes to. -/
theorem same_evaluate (hreport : s.cleared.report = s'.cleared.report)
    (h : ∀ e, Expr.parse source.toList = .ok e →
      ((valueText s.resolver e).run s.cleared).1 = ((valueText s'.resolver e).run s'.cleared).1 ∧
      ((valueText s.resolver e).run s.cleared).2.report =
        ((valueText s'.resolver e).run s'.cleared).2.report) :
    Same ((evaluate source).run s) ((evaluate source).run s') := by
  have hclear (s : Session) :
      (onReport Report.clear).run s = (.ok ⟨⟩, { s with world := s.cleared }) := rfl
  rw [evaluate, Run.run_bind, hclear, Run.run_bind, hclear]
  unfold reading
  cases he : Expr.parse source.toList with
  | error e =>
    have htold (t : Trouble) : Same ((complain source t).run { s with world := s.cleared })
        ((complain source t).run { s' with world := s'.cleared }) := same_complain hreport source t
    cases e with
    | halted why =>
      cases why with
      | fault f => exact ⟨rfl, congrArg Report.issues hreport⟩
      | endless => exact htold _
    | _ => exact htold _
  | ok e =>
    obtain ⟨hresult, hreport'⟩ := h e he
    simp only [Run.run_bind, Run.run_get, run_onWorld]
    revert hresult hreport'
    rcases (valueText s.resolver e).run s.cleared with ⟨r, w⟩
    rcases (valueText s'.resolver e).run s'.cleared with ⟨r', w'⟩
    rintro rfl hreport'
    have hissues : w.report.issues = w'.report.issues := congrArg Report.issues hreport'
    have htold (t : Trouble) : Same ((complain source t).run { s with world := w })
        ((complain source t).run { s' with world := w' }) := same_complain hreport' source t
    cases r with
    | ok text => exact ⟨rfl, hissues⟩
    | error failure =>
      cases failure with
      | bare f => exact ⟨rfl, hissues⟩
      | tooManyIssues => exact ⟨rfl, hissues⟩
      | tooDeep => exact htold _
      | _ => exact htold _

/-- **A program is answered discreetly** by a new session on a library: its evaluation there nests
no deeper than it is followed, and neither a record with fields nor a dispatcher is written in full,
by a conversion of `%` or in the description of a tuple (`Discreet.host`). -/
def Discreetly (lib : Library) (machine : Machine) (source : String) : Prop :=
  ∀ e, Expr.parse source.toList = .ok e →
    ((Discreet.valueText (some 0) e).run (ofLibrary lib machine).world).1 ≠ .error .tooDeep

/-- **What has been computed before is not seen**: what a new session answers discreetly is
answered, with the same issues, after whatever programs, also where things are kept at other
addresses. -/
theorem evaluated_unseen (lib : Library) (machine machine' : Machine)
    (hroom : machine'.room = machine.room)
    (earlier : List String) (source : String) (h : Discreetly lib machine' source) :
    ((evaluate source).run ((ofLibrary lib machine).evaluated earlier)).1
      = ((evaluate source).run (ofLibrary lib machine')).1 ∧
    ((evaluate source).run ((ofLibrary lib machine).evaluated earlier)).2.issues
      = ((evaluate source).run (ofLibrary lib machine')).2.issues := by
  obtain ⟨maker, hcurrent⟩ := current_evaluated lib machine earlier
  have hreport : ((ofLibrary lib machine).evaluated earlier).cleared.report
      = (ofLibrary lib machine').cleared.report := congrArg (Report.mk []) hcurrent.limit
  refine same_evaluate hreport fun e he => ?_
  have hhere := hcurrent.cleared.valueText_eq (e := e) hroom hreport (h e he)
  have hnew := (current_beginning lib machine').cleared.valueText_eq (e := e) rfl rfl (h e he)
  exact ⟨hhere.1.trans hnew.1.symm, hhere.2.trans hnew.2.symm⟩

/-- A library of one record. -/
def shelf : Library := { definitions := [("m", "\x7bx: 5\x7d")] }

/-- A machine that keeps everything further up. -/
def shifted : Machine := { address := fun o => 4096 + o.birth }

/-- A field of the record is added to, whether it has been computed or not. -/
theorem evaluated_unseen_shelf : shifted.room = ({} : Machine).room ∧
    Discreetly shelf shifted "(import m).x + 1" ∧
    ((evaluate "(import m).x + 1").run ((ofLibrary shelf).evaluated ["(import m).x", "import n"])).1
      = ((evaluate "(import m).x + 1").run (ofLibrary shelf shifted)).1 ∧
    ((evaluate "(import m).x + 1").run
      ((ofLibrary shelf).evaluated ["(import m).x", "import n"])).2.issues
      = ((evaluate "(import m).x + 1").run (ofLibrary shelf shifted)).2.issues := by
  have hparse : Expr.parse "(import m).x + 1".toList = .ok (.apply (.op .plus) (.tuple
      [.apply (.lambda (.row [("x", .name "x")]) (.var "x")) (.load "m"), .number (.int 1)])) := rfl
  have hdiscreet : Discreetly shelf shifted "(import m).x + 1" := fun e he hdeep => by
    cases hparse.symm.trans he
    have hsix : ((Discreet.valueText (some 0) (.apply (.op .plus) (.tuple
        [.apply (.lambda (.row [("x", .name "x")]) (.var "x")) (.load "m"), .number (.int 1)]))).run
          (ofLibrary shelf shifted).world).1.toOption = some "6" := by decide +kernel
    rw [hdeep] at hsix
    cases hsix
  exact ⟨rfl, hdiscreet,
    evaluated_unseen shelf {} shifted rfl ["(import m).x", "import n"] "(import m).x + 1" hdiscreet⟩

/-- A record that is written into a text shows whether its field has been computed. -/
theorem computed_field_seen :
    ((evaluate "('%' + 's') % (import m)").run (ofLibrary shelf)).1.toOption.map (·.text)
      = some "\"\x7bx: ...\x7d\"" ∧
    ((evaluate "('%' + 's') % (import m)").run
      ((ofLibrary shelf).evaluated ["(import m).x"])).1.toOption.map
      (·.text) = some "\"\x7bx: 5\x7d\"" := by
  constructor <;> decide +kernel

end RowLang.Session
