import RowLang.Proofs.Lazy.Order
import RowLang.Proofs.Session.Cached

/-!
# Proofs/Session/Asked — fields as they are of a new record

A record outlives the program that makes it, and its fields may be read in any order, each with
success or without.  What a program then makes of one of them is what it makes of it when the record
is made anew in a new session and nothing else of it is read (`Current.ask_eq`): shadows follow the
making of the record and the question, and take no notice of what is read in between.

  * `read_as_fresh` — **the order of reading does not matter**, for a bare lazy row whose
  initializers never recover
and for the records of a session.
-/

namespace RowLang

/-! ## Questions -/

/-- **A question about a field**: a program that has the value of the field under a name. -/
structure Question where
  label : Label
  name : String
  body : Expr

namespace Question

/-- What the field is. -/
def plain (l : Label) : Question := ⟨l, "it", .var "it"⟩

variable (q : Question) (root : ImportRoot)

/-- What comes of a question about a field of a value, as text. -/
def ask (v : Value) : Evaluating String := do
  let x ← Eval.field Eval.depthLimit v q.label
  let y ← Eval.eval Eval.depthLimit ((Scope.ofRoot root).extend [(q.name, x)])
    ⟨← World.birth, q.body⟩
  Eval.toText y

/-- What comes of a question about a field of what a program makes. -/
def answer (e : Expr) : Evaluating String := do
  q.ask root (← Session.valueOf root e)

end Question

namespace Discreet

/-- The value of a program, with a number of levels. -/
def value (n : Nat) (root : ImportRoot) (e : Expr) : Evaluating Value := do
  eval n (.ofRoot root) ⟨← World.birth, e⟩

/-- What comes of a question about a field of a value, with a number of levels. -/
def ask (n : Nat) (q : Question) (root : ImportRoot) (v : Value) : Evaluating String := do
  let x ← field n v q.label
  let y ← eval n ((Scope.ofRoot root).extend [(q.name, x)]) ⟨← World.birth, q.body⟩
  World.faulty (← document n [] y).toText

/-- What comes of a question about a field of what a program makes. -/
def answer (n : Nat) (q : Question) (root : ImportRoot) (e : Expr) : Evaluating String := do
  ask n q root (← value n root e)

end Discreet

/-! ## Questions are followed -/

section Followed

variable {o : Maker} {t : Moment} {root : ImportRoot}

theorem follows_value (hroot : ImportRoot.Matches t.world.itself root root) (e : Expr) :
    Follows o Eval.depthLimit t (Session.valueOf root e) (.ofImports root)
      (fun root' n => Discreet.value n root' e) .ofValue := by
  refine follows_birth.bind fun t₁ b ht hb => ?_
  have hcode : Code.Matches t₁.world.itself ⟨b, e⟩ ⟨b, e⟩ := ⟨hb, rfl⟩
  exact ((Eval.pursued _).eval (Env.Matches.ofRoot (hroot.mono ht.world.itself_le)) hcode).reindex
    fun β p n hp => ⟨(.ofRoot p.1, ⟨p.2, e⟩), ⟨Env.Matches.ofRoot hp.1, hp.2, rfl⟩, rfl⟩

/-- **A question is followed**, and shadows come to the same text. -/
theorem follows_ask {v : Value} (hroot : ImportRoot.Matches t.world.itself root root)
    (hv : v.Matches t.world.itself v) (q : Question) :
    Follows o Eval.depthLimit t (q.ask root v) ((Counterparts.ofImports root).both (.ofValue v))
      (fun p n => Discreet.ask n q p.1 p.2) .same := by
  refine Follows.bind (V := .ofValue) ?_ fun t₁ x ht hx => follows_birth.bind fun t₂ b ht₂ hb =>
    Follows.bind (V := .ofValue) ?_ fun t₃ y ht₃ hy => ?_
  · exact ((Eval.pursued _).field q.label hv).reindex fun β p n hp => ⟨p.2, hp.2, rfl⟩
  · have hroot := hroot.mono (ht.trans ht₂).world.itself_le
    have henv := (Env.Matches.ofRoot hroot).extend_single (hx.mono ht₂.world.itself_le) q.name
    have hcode : Code.Matches t₂.world.itself ⟨b, q.body⟩ ⟨b, q.body⟩ := ⟨hb, rfl⟩
    exact ((Eval.pursued _).eval henv hcode).reindex
      fun β p n hp => ⟨((Scope.ofRoot p.1.1.1).extend [(q.name, p.1.2)], ⟨p.2, q.body⟩),
        ⟨(Env.Matches.ofRoot hp.1.1.1).extend_single hp.1.2 q.name, hp.2, rfl⟩, rfl⟩
  · exact (follows_toText hy).reindex fun β p n hp => ⟨p.2, hp.2, rfl⟩

theorem follows_answer (hroot : ImportRoot.Matches t.world.itself root root) (q : Question)
    (e : Expr) :
    Follows o Eval.depthLimit t (q.answer root e) (.ofImports root)
      (fun root' n => Discreet.answer n q root' e)
      .same :=
  (follows_value hroot e).bind fun _ _ ht hv => follows_ask (hroot.mono ht.world.itself_le) hv q

end Followed

/-! ## Reads in between -/

/-- The world after the field of a record has been read, with success or without; what was reported
is read. -/
def World.afterRead (w : World) (p : Nat × Label) : World :=
  { ((Eval.force Eval.depthLimit p.1 p.2).run w).2 with report := w.report }

/-- The world after some fields have been read, one after the other. -/
def World.afterReads (w : World) (reads : List (Nat × Label)) : World :=
  reads.foldl World.afterRead w

/-- A later moment with nothing more underway and nothing reported. -/
structure Moment.Rests (t u : Moment) : Prop where
  le : t.Le u
  sound : u.Sound
  steady : t.world.Steady u.world
  report : u.world.report = t.world.report

theorem Moment.Sound.afterRead {t : Moment} (h : t.Sound) (p : Nat × Label) :
    ∃ maker, t.Rests ⟨t.world.afterRead p, maker⟩ := by
  obtain ⟨a, l⟩ := p
  by_cases ha : t.world.Has (.record a)
  case neg =>
    have hrun : (Eval.force Eval.depthLimit a l).run t.world =
        (.error (.bare (.noKey (Text.quoted l))), t.world) := by
      rw [show Eval.depthLimit = 5999 + 1 from rfl, force_eq]
      exact run_forceBy_missing (by rw [World.row_of_not_has ha]; rfl)
    rw [World.afterRead, hrun]
    exact ⟨t.maker, .refl t, h, .refl _, rfl⟩
  case pos =>
    obtain ⟨maker, hforce⟩ := (Eval.pursued Eval.depthLimit).force (o := .program) l ha h
    have hle : Moment.Le ⟨((Eval.force Eval.depthLimit a l).run t.world).2, maker⟩
        ⟨t.world.afterRead (a, l), maker⟩ :=
      ⟨World.precedes_of_eq rfl le_rfl rfl rfl rfl, fun _ _ => rfl⟩
    exact ⟨maker, hforce.le.trans hle,
      hforce.sound.later hle (hforce.sound.whole.of_eq rfl le_rfl rfl rfl rfl)
      (fun hv => hv) fun hv => hv, hforce.steady.trans (World.steady_of_eq rfl rfl), rfl⟩

/-- **Whatever has been read, the world is sound.** -/
theorem Moment.Sound.afterReads {t : Moment} (h : t.Sound) (reads : List (Nat × Label)) :
    ∃ maker, t.Rests ⟨t.world.afterReads reads, maker⟩ := by
  induction reads generalizing t with
  | nil => exact ⟨t.maker, .refl t, h, .refl _, rfl⟩
  | cons p reads ih =>
    obtain ⟨maker, hfirst⟩ := h.afterRead p
    obtain ⟨maker', hrest⟩ := ih hfirst.sound
    exact ⟨maker', hfirst.le.trans hrest.le, hrest.sound, hfirst.steady.trans hrest.steady,
      hrest.report.trans hfirst.report⟩

/-! ## Records old and new -/

namespace Session

variable {lib : Library} {machine machine' : Machine} {s : Session}
  {maker : Thing → Maker} {e : Expr}
  {v : Value} {q : Question}

/-- A question about what a program makes has the answer of discreet evaluation in a new session. -/
theorem Current.answer_eq (h : Current lib machine s maker) (hroom : machine'.room = machine.room)
    (hclear : s.world.report = (ofLibrary lib machine).world.report)
    (hdeep : ((Discreet.answer Eval.depthLimit q (some 0) e).run (ofLibrary lib machine').world).1 ≠
      .error .tooDeep) :
    ((q.answer (some 0) e).run s.world).1 =
      ((Discreet.answer Eval.depthLimit q (some 0) e).run (ofLibrary lib machine').world).1 := by
  have hroot : ImportRoot.Matches s.world.itself (some 0) (some 0) := h.resolver ▸ h.imports
  obtain ⟨maker', hanswer⟩ :=
    follows_answer (o := .program) (t := ⟨s.world, maker⟩) hroot q e h.sound
  exact (hanswer.eq_of_inStep (i := some 0) le_rfl (h.behind hroom) trivial
    (h.inStep hclear machine') (.some ⟨rfl, Nat.lt_succ_self 0⟩) hdeep).1

/-- **Whatever has been read, a field answers like that of a new record**, made in a new session by
discreet evaluation, unless that gives up. -/
theorem Current.ask_eq (h : Current lib machine s maker) (hroom : machine'.room = machine.room)
    (hclear : s.world.report = (ofLibrary lib machine).world.report)
    (hv : ((valueOf (some 0) e).run s.world).1 = .ok v) (reads : List (Nat × Label))
    (hdeep : ((Discreet.answer Eval.depthLimit q (some 0) e).run (ofLibrary lib machine').world).1 ≠
      .error .tooDeep) :
    ((q.ask (some 0) v).run (((valueOf (some 0) e).run s.world).2.afterReads reads)).1 =
      ((Discreet.answer Eval.depthLimit q (some 0) e).run (ofLibrary lib machine').world).1 := by
  have hroot : ImportRoot.Matches s.world.itself (some 0) (some 0) := h.resolver ▸ h.imports
  obtain ⟨maker₁, hvalue⟩ := follows_value (o := .program) (t := ⟨s.world, maker⟩) hroot e h.sound
  have hresult := hvalue.result v hv
  -- The record is made in the new session too.
  have hcaught :=
    hvalue.catches v hv _ (shadow (ofLibrary lib machine').world) (some 0) Eval.depthLimit (.refl _)
    ((h.inStep hclear machine').poised (h.behind hroom) hvalue.le trivial hvalue.steady
      hvalue.sound.whole)
    (.some ⟨rfl, Nat.lt_succ_self 0⟩)
  rw [Discreet.answer, Run.run_bind] at hdeep ⊢
  revert hdeep hcaught
  dsimp only [shadow]
  rcases (Discreet.value Eval.depthLimit (some 0) e).run (ofLibrary lib machine').world with ⟨r, w⟩
  intro hdeep hcaught
  cases r with
  | error f => exact absurd (congrArg Except.error hcaught) hdeep
  | ok v' =>
    obtain ⟨β, hadv, hv'⟩ := hcaught
    -- What is read in between is read in the old world only.
    obtain ⟨maker₂, hrests⟩ := hvalue.sound.afterReads reads
    have hle := (hvalue.le.trans hrests.le).world.itself_le
    obtain ⟨maker₃, hask⟩ := follows_ask (o := .program) (q := q) (hroot.mono hle)
      (hresult.2.mono hrests.le.world.itself_le) hrests.sound
    have hstep : Shadow.InStep ⟨w, β⟩ (((valueOf (some 0) e).run s.world).2.afterReads reads) :=
      (h.inStep hclear machine').advance hadv (hvalue.steady.trans hrests.steady)
        (hrests.report.trans hresult.1)
    exact (hask.eq_of_inStep (i := (some 0, v')) le_rfl (hadv.behind.mono hrests.le) trivial hstep
      ⟨.some (hadv.matching _ _ ⟨rfl, Nat.lt_succ_self 0⟩), hv'⟩ hdeep).1

end Session

/-! ## The order of reading -/

/-- **The order of reading does not matter.** A label of a lazy row is read as it is of a fresh one,
with its value or with its failure, whatever has been read of it before, if no initializer recovers
from a failed read.  And whatever programs a session has evaluated and whatever fields have been
read, a field of a record that a program makes answers each question as in a new session, also where
things are kept at other addresses, if it is answered discreetly there. -/
theorem read_as_fresh :
    (∀ {ε α : Type} [ReadFailure ε] (initializers : Row (Reader ε α)),
      (∀ p ∈ initializers, LazyRow.Strict p.2) → ∀ (before : List Label) (l : Label),
        ((before.mapM LazyRow.read >>= fun _ => LazyRow.read l).run ⟨.ofRow initializers, []⟩).1 =
          ((LazyRow.read l).run ⟨.ofRow initializers, []⟩).1) ∧
    ∀ (lib : Library) (machine machine' : Machine), machine'.room = machine.room →
      ∀ (earlier : List String) (e : Expr) (v : Value) (reads : List (Nat × Label)) (q : Question),
        let made := (Session.valueOf (some 0) e).run
          ((Session.ofLibrary lib machine).evaluated earlier).cleared
        made.1 = .ok v →
        ((Discreet.answer Eval.depthLimit q (some 0) e).run
          (Session.ofLibrary lib machine').world).1
          ≠ .error .tooDeep →
        ((q.ask (some 0) v).run (made.2.afterReads reads)).1 =
          ((q.answer (some 0) e).run (Session.ofLibrary lib machine').world).1 := by
  refine ⟨fun initializers hstrict before l => LazyRow.read_eq_fresh initializers hstrict before l,
    ?_⟩
  intro lib machine machine' hroom earlier e v reads q made hv hdeep
  obtain ⟨maker, hcurrent⟩ := Session.current_evaluated lib machine earlier
  have hclear : ((Session.ofLibrary lib machine).evaluated earlier).cleared.report
      = (Session.ofLibrary lib machine).world.report := congrArg (Report.mk []) hcurrent.limit
  exact (hcurrent.cleared.ask_eq hroom hclear hv reads hdeep).trans
    ((Session.current_beginning lib machine').answer_eq rfl rfl hdeep).symm

/-- How the fields of a record fail on their own account. -/
instance : ReadFailure Failure where
  missing l := .bare (.noKey (Text.quoted l))
  circular := .selfReferentialField

theorem Value.eq_record_of_holder? {w : World} {l : Label} {v : Value} {a : Nat}
    (h : v.holder? w l = some a) :
    v = .record a := by
  unfold Value.holder? at h
  split at h
  · split at h
    · cases h
      rfl
    · cases h
  · cases h

/-- Two labels that need each other, and one that needs neither. -/
def entangled : Row (Reader Failure Nat) :=
  [("a", .read "b" .give), ("b", .read "a" .give), ("c", .give (.ok 5))]

/-- A label of a cycle is read after one that is not in it and one that is, and a field of a module
after itself and after one that the module does not have. -/
theorem read_as_fresh_of_entangled :
    let made := (Session.valueOf (some 0) (.load "m")).run
      ((Session.ofLibrary Session.shelf).evaluated ["import n"]).cleared
    (∀ p ∈ entangled, LazyRow.Strict p.2) ∧
    ((["c", "b"].mapM LazyRow.read >>= fun _ => LazyRow.read "a").run ⟨.ofRow entangled, []⟩).1 =
      ((LazyRow.read "a").run ⟨.ofRow entangled, []⟩).1 ∧
    made.1 = .ok (.record 1) ∧
    Session.shifted.room = ({} : Machine).room ∧
    ((Discreet.answer Eval.depthLimit (.plain "x") (some 0) (.load "m")).run
      (Session.ofLibrary Session.shelf Session.shifted).world).1 ≠ .error .tooDeep ∧
    ((Question.ask (.plain "x") (some 0) (.record 1)).run
      (made.2.afterReads [(1, "x"), (1, "y")])).1 =
      ((Question.answer (.plain "x") (some 0) (.load "m")).run
        (Session.ofLibrary Session.shelf Session.shifted).world).1 := by
  intro made
  have hstrict : ∀ p ∈ entangled, LazyRow.Strict p.2 := by
    simp only [entangled, List.forall_mem_cons, List.not_mem_nil, false_imp_iff,
      implies_true, and_true]
    exact ⟨.read .give fun _ => .give _, .read .give fun _ => .give _, .give _⟩
  have hmade : made.1 = .ok (.record 1) := by
    have hholder : made.1.toOption.bind (Value.holder? made.2 "x") = some 1 := by decide +kernel
    cases h : made.1 with
    | error e =>
      rw [h] at hholder
      cases hholder
    | ok v =>
      rw [h] at hholder
      rw [Value.eq_record_of_holder? hholder]
  have hfive : ((Discreet.answer Eval.depthLimit (.plain "x") (some 0) (.load "m")).run
      (Session.ofLibrary Session.shelf Session.shifted).world).1.toOption = some "5" := by
    decide +kernel
  have hdeep : ((Discreet.answer Eval.depthLimit (.plain "x") (some 0) (.load "m")).run
      (Session.ofLibrary Session.shelf Session.shifted).world).1 ≠ .error .tooDeep := fun hdeep =>
    nomatch hdeep ▸ hfive
  exact ⟨hstrict, read_as_fresh.1 entangled hstrict ["c", "b"] "a", hmade, rfl, hdeep,
    read_as_fresh.2 Session.shelf {} Session.shifted rfl ["import n"] (.load "m") (.record 1)
      [(1, "x"), (1, "y")] (.plain "x") hmade
      hdeep⟩

/-- A field that writes its record into a text shows what has been read before. -/
theorem earlier_read_seen :
    ((Session.evaluate "let r = \x7ba: 1, b: ('%' + 's') % this\x7d; r.b").run
      (Session.ofLibrary {})).1.toOption.map (·.text) = some "\"\x7ba: ..., b: ...\x7d\"" ∧
    ((Session.evaluate "let r = \x7ba: 1, b: ('%' + 's') % this\x7d; r.a; r.b").run
      (Session.ofLibrary {})).1.toOption.map (·.text) = some "\"\x7ba: 1, b: ...\x7d\"" := by
  constructor <;> decide +kernel

end RowLang
