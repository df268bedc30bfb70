import RowLang.Proofs.Eval.Levels
import RowLang.Proofs.Eval.Shadow

/-!
# Proofs/Eval/Following — computations that shadows follow

A computation is followed by another one, which has fewer levels or more, when the other one, run in
any shadow of a later world, catches up with it or gives up; and when the two are run side by side
and the first one fails, the other one fails alike or gives up (`Follows`).  What has been computed
can always be caught up with (`Moment.Sound`), so that a shadow may do it over again when it first
needs it.
-/

namespace RowLang

/-! ## Counterparts -/

/-- What counts as a counterpart of something, when more and more things are matched. -/
structure Counterparts (α : Type) where
  rel : Matching → α → Prop
  mono : ∀ {β β' : Matching} {x}, β ≤ β' → rel β x → rel β' x

namespace Counterparts

variable {α γ : Type}

/-- Counterparts of two things. -/
def both (R : Counterparts α) (S : Counterparts γ) : Counterparts (α × γ) where
  rel β p := R.rel β p.1 ∧ S.rel β p.2
  mono hβ h := ⟨R.mono hβ h.1, S.mono hβ h.2⟩

/-- Counterparts of many things, one by one. -/
def list (E : γ → Counterparts α) (xs : List γ) : Counterparts (List α) where
  rel β ys := List.Forall₂ (fun y x => (E x).rel β y) ys xs
  mono hβ h := h.imp fun _ _ hy => (E _).mono hβ hy

/-- Something that is its own counterpart. -/
def same (x : α) : Counterparts α where
  rel _ y := y = x
  mono _ h := h

/-- Values that match one. -/
def ofValue (v : Value) : Counterparts Value where
  rel β v' := v'.Matches β v
  mono hβ h := h.mono hβ

/-- Scopes that match one. -/
def ofEnv (env : Env) : Counterparts Env where
  rel β env' := Env.Matches β env' env
  mono hβ h := h.mono hβ

/-- Code that matches some. -/
def ofCode (c : Code) : Counterparts Code where
  rel β c' := c'.Matches β c
  mono hβ h := h.mono hβ

/-- Origins that match one. -/
def ofOrigin (o : Origin) : Counterparts Origin where
  rel β o' := o'.Matches β o
  mono hβ h := h.mono hβ

/-- Tags that match one. -/
def ofTag (tag : Tag) : Counterparts Tag where
  rel β tag' := tag'.Matches β tag
  mono hβ h := h.mono hβ

/-- Bindings that match some. -/
def ofBindings (bs : List (String × Value)) : Counterparts (List (String × Value)) where
  rel β bs' := Bindings.Match β bs' bs
  mono hβ h := Row.Matches.mono h fun _ _ hv => hv.mono hβ

/-- Handlers that match some, each by its label. -/
def ofHandlers (handlers : Row Code) : Counterparts (Row Code) where
  rel β handlers' := Row.Matches (Code.Matches β) handlers' handlers
  mono hβ h := Row.Matches.mono h fun _ _ hc => hc.mono hβ

/-- The address that matches one. -/
def ofAddress (a : Nat) : Counterparts Nat where
  rel β a' := β (.record a') (.record a)
  mono hβ h := hβ _ _ h

/-- The resolver that matches one. -/
def ofResolver (k : Nat) : Counterparts Nat where
  rel β k' := β (.resolver k') (.resolver k)
  mono hβ h := hβ _ _ h

end Counterparts

/-! ## Moments that are sound -/

namespace Shadow

variable {α : Type}

/-- **A run in a shadow catches up** with a result, or it gives up. -/
def Catches (s : Shadow) (u : Moment) (new : Thing → Prop) (V : Counterparts α) :
    Except Failure α × World → Prop
  | (.ok x, w) => ∃ β, s.Advances ⟨w, β⟩ u new ∧ V.rel β x
  | (.error e, _) => e = .tooDeep

/-- What a shadow does not know the maker of. -/
def Unknown (s : Shadow) (u : Moment) (y : Thing) : Prop := ¬ s.Knows (u.maker y)

end Shadow

/-- Everything in a world is of that world. -/
structure World.Whole (w : World) : Prop where
  before : w.Has (.birth 0)
  shared : w.Has (.record Value.sharedEmpty)
  records : ∀ (a : Nat) (r : StoredRecord), w.records[a]? = some r → r.Matches w.itself r
  ready : ∀ {a l v}, (w.row a).access l = .ready v → v.Matches w.itself v
  loaded : ∀ {k name v}, (w.resolver k).loaded.lookup name = some v → v.Matches w.itself v
  orderly : ∀ k, (w.resolver k).Orderly

namespace Moment

/-- Every shadow that needs a field which has been computed can compute it over again. -/
def Caught (t : Moment) (a : Nat) (l : Label) (v : Value) : Prop :=
  ∀ (u : Moment) (s : Shadow) (a' n : Nat), t.Le u → s.Behind u → s.Apart t.world →
    s.matching (.record a') (.record a) →
    s.Catches u (s.Unknown u) (.ofValue v) ((Discreet.force n a' l).run s.world)

/-- Every shadow that needs a module which has been loaded can load it over again. -/
def CaughtModule (t : Moment) (k : Nat) (name : String) (v : Value) : Prop :=
  ∀ (u : Moment) (s : Shadow) (k' n : Nat), t.Le u → s.Behind u → s.Apart t.world →
    s.matching (.resolver k') (.resolver k) →
    s.Catches u (s.Unknown u) (.ofValue v)
      ((Discreet.load n k' name >>= Eval.required name).run s.world)

/-- **A sound moment**: what has been computed or loaded can be computed or loaded over again. -/
structure Sound (t : Moment) : Prop where
  whole : t.world.Whole
  fields : ∀ {a l v}, (t.world.row a).access l = .ready v → t.Caught a l v
  modules : ∀ {k name v}, (t.world.resolver k).loaded.lookup name = some v → t.CaughtModule k name v

variable {t u : Moment}

theorem Caught.mono {a : Nat} {l : Label} {v : Value} (h : t.Caught a l v)
    (htu : t.Le u) : u.Caught a l v :=
  fun _ _ _ _ hu hs hapart ha => h _ _ _ _ (htu.trans hu) hs (hapart.mono htu.world) ha

theorem CaughtModule.mono {k : Nat} {name : String} {v : Value} (h : t.CaughtModule k name v)
    (htu : t.Le u) : u.CaughtModule k name v :=
  fun _ _ _ _ hu hs hapart hk => h _ _ _ _ (htu.trans hu) hs (hapart.mono htu.world) hk

end Moment

/-! ## Following -/

/-- **A shadow runs side by side with a world**: the same fields are being computed and the same
modules are under construction in both, and the same issues have been posted. -/
structure Shadow.InStep (s : Shadow) (w : World) : Prop where
  started : ∀ {a l}, (w.row a).access l = .circular →
    ∃ a', s.matching (.record a') (.record a) ∧ (s.world.row a').access l = .circular
  running : ∀ {a' a l}, s.matching (.record a') (.record a) →
    (s.world.row a').access l = .circular →
    (w.row a).access l = .circular
  construction : ∀ {k' k}, s.matching (.resolver k') (.resolver k) →
    (s.world.resolver k').construction = (w.resolver k).construction
  report : s.world.report = w.report

/-- A shadow is where a computation of a maker begins which ends in `w'`. -/
structure Shadow.Poised (s : Shadow) (o : Maker) (t : Moment) (w' : World) (u : Moment) : Prop where
  behind : s.Behind u
  own : ∀ {x y}, s.matching x y → u.maker y = o → t.world.Has y
  knows : s.Knows o
  apart : s.Apart w'

/-- A run fails alike with the same issues, or it gives up. -/
def FailsAlike {α : Type} (e : Failure) (w' : World) : Except Failure α × World → Prop
  | (.ok _, _) => False
  | (.error e', w) => e' = .tooDeep ∨ e' = e ∧ w.report = w'.report

variable {α γ ι : Type}

/-- What comes of a run that shadows follow. -/
structure Followed (o : Maker) (d : Nat) (t : Moment) (r : Except Failure α) (t' : Moment)
    (R : Counterparts ι) (B : ι → Nat → Evaluating α) (V : α → Counterparts α) : Prop where
  le : t.Le t'
  sound : t'.Sound
  steady : t.world.Steady t'.world
  result : ∀ x, r = .ok x → t'.world.report = t.world.report ∧ (V x).rel t'.world.itself x
  catches : ∀ x, r = .ok x → ∀ (u : Moment) (s : Shadow) i n, t'.Le u → s.Poised o t t'.world u →
    R.rel s.matching i → s.Catches u (fun y => s.Unknown u y ∨ u.maker y = o ∧ t'.world.Has y) (V x)
      ((B i n).run s.world)
  fails : ∀ e, r = .error e → ∀ (s : Shadow) i n, n ≤ d → s.Behind t → s.Knows o →
    s.InStep t.world →
    R.rel s.matching i → FailsAlike e t'.world ((B i n).run s.world)

/-- **Shadows follow a computation** that is run at a moment, as a part of what is made in `o`, with
`d` levels: by what `B` is for the counterparts `R`, to results that are counterparts. -/
def Follows (o : Maker) (d : Nat) (t : Moment) (m : Evaluating α) (R : Counterparts ι)
    (B : ι → Nat → Evaluating α) (V : α → Counterparts α) : Prop :=
  t.Sound → ∃ maker, Followed o d t (m.run t.world).1 ⟨(m.run t.world).2, maker⟩ R B V

variable {o : Maker} {d : Nat} {t u : Moment} {m : Evaluating α} {R : Counterparts ι}
  {B : ι → Nat → Evaluating α} {V : α → Counterparts α} {s s' : Shadow}

/-- **Side by side a shadow is still in step** after what has been caught up with. -/
theorem Shadow.InStep.advance {w' : World} {new : Thing → Prop} (h : s.InStep t.world)
    (hs : s.Advances s' u new) (hsteady : t.world.Steady w')
    (hreport : w'.report = t.world.report) :
    s'.InStep w' where
  started {a l} hcirc := by
    obtain ⟨a', ha, hcirc'⟩ := h.started ((hsteady.circular a l).mp hcirc)
    exact ⟨a', hs.matching _ _ ha, (hs.steady.circular a' l).mpr hcirc'⟩
  running {a' a l} ha hcirc := by
    have hcirc := (hs.steady.circular a' l).mp hcirc
    obtain ⟨r, hr, -⟩ := World.exists_of_access hcirc (by rintro ⟨⟩)
    exact (hsteady.circular a l).mpr (h.running (hs.of_has ha (World.has_of_getElem? hr)) hcirc)
  construction {k' k} hk := by
    rw [hs.steady.construction k', hsteady.construction k]
    exact h.construction (hs.resolvers hk)
  report := (hs.report.trans h.report).trans hreport.symm

/-- What is underway side by side has not been done when a run has ended. -/
theorem Shadow.InStep.apart {w' : World} (h : s.InStep t.world) (hsteady : t.world.Steady w')
    (hw' : w'.Whole) : s.Apart w' where
  fields {a' a l} ha hcirc v hv := by
    have := (hsteady.circular a l).mpr (h.running ha hcirc)
    rw [hv] at this
    cases this
  modules {k' k name} hk hname := by
    rw [h.construction hk, ← hsteady.construction k] at hname
    exact (hw'.orderly k).unloaded name hname

/-- A shadow that runs side by side is where the computation begins. -/
theorem Shadow.InStep.poised {w' : World} (h : s.InStep t.world) (hbehind : s.Behind t)
    (htu : t.Le u)
    (hknows : s.Knows o) (hsteady : t.world.Steady w') (hw' : w'.Whole) : s.Poised o t w' u where
  behind := hbehind.mono htu
  own hxy _ := (hbehind.has hxy).2
  knows := hknows
  apart := h.apart hsteady hw'

/-! ### Side by side -/

/-- **Side by side a shadow comes to the same** result with the same issues, unless it gives up. -/
theorem Followed.eq_of_inStep {r : Except Failure α} {t' : Moment} {i : ι} {n : Nat}
    (h : Followed o d t r t' R B .same) (hn : n ≤ d) (hs : s.Behind t) (hknows : s.Knows o)
    (hstep : s.InStep t.world) (hi : R.rel s.matching i)
    (hdeep : ((B i n).run s.world).1 ≠ .error .tooDeep) :
    r = ((B i n).run s.world).1 ∧ t'.world.report = ((B i n).run s.world).2.report := by
  cases r with
  | ok x =>
    have hcaught := h.catches x rfl t' s i n (.refl _)
      (hstep.poised hs h.le hknows h.steady h.sound.whole) hi
    revert hcaught hdeep
    rcases (B i n).run s.world with ⟨q, w⟩
    intro hdeep hcaught
    cases q with
    | ok y =>
      obtain ⟨β, hadv, rfl⟩ := hcaught
      exact ⟨rfl, ((h.result _ rfl).1.trans hstep.report.symm).trans hadv.report.symm⟩
    | error e => exact absurd (congrArg Except.error hcaught) hdeep
  | error e =>
    have halike := h.fails e rfl s i n hn hs hknows hstep hi
    revert halike hdeep
    rcases (B i n).run s.world with ⟨q, w⟩
    intro hdeep halike
    cases q with
    | ok y => exact halike.elim
    | error e' =>
      rcases halike with rfl | ⟨rfl, hreport⟩
      · exact absurd rfl hdeep
      · exact ⟨rfl, hreport.symm⟩

/-! ### Steps in a row -/

theorem FailsAlike.bind {e : Failure} {w : World} {m : Evaluating α} {f : α → Evaluating γ}
    (h : FailsAlike e u.world (m.run w)) : FailsAlike e u.world ((m >>= f).run w) := by
  rw [Run.run_bind]
  revert h
  rcases m.run w with ⟨r, w'⟩
  cases r with
  | ok x => exact False.elim
  | error e' => exact id

/-- A shadow that has caught up with one step is where the next one begins. -/
theorem Shadow.Poised.advance {new : Thing → Prop} {t₁ : Moment} {w : World} (h : s.Poised o t w u)
    (hs : s.Advances s' u new) (ht : t.Le t₁)
    (hnew : ∀ y, new y → s.Unknown u y ∨ u.maker y = o ∧ t₁.world.Has y) : s'.Poised o t₁ w u where
  behind := hs.behind
  own {x y} hxy hy := by
    rcases hs.new hxy with hxy | ⟨-, hy'⟩
    · exact ht.world.has _ (h.own hxy hy)
    · exact (hnew y hy').elim (fun hunknown => absurd (hy ▸ h.knows) hunknown) And.right
  knows := hs.knows h.knows
  apart := hs.apart h.apart

/-- **One step and then another one.** -/
theorem Follows.bind {V₂ : γ → Counterparts γ} {f : α → Evaluating γ}
    {F : ι → Nat → α → Evaluating γ} (h : Follows o d t m R B V)
    (hf : ∀ t₁ x, t.Le t₁ → (V x).rel t₁.world.itself x →
      Follows o d t₁ (f x) (R.both (V x)) (fun p n => F p.1 n p.2) V₂) :
    Follows o d t (m >>= f) R (fun i n => B i n >>= F i n) V₂ := by
  intro hsound
  obtain ⟨maker₁, h₁⟩ := h hsound
  rw [Run.run_bind]
  revert h₁
  rcases m.run t.world with ⟨r, w₁⟩
  intro h₁
  cases r with
  | error e =>
    exact ⟨maker₁, {
      le := h₁.le
      sound := h₁.sound
      steady := h₁.steady
      result := fun _ hx => by cases hx
      catches := fun _ hx => by cases hx
      fails := fun e' he s i n hn hs hknows hstep hi => by
        cases he
        exact FailsAlike.bind (u := ⟨w₁, maker₁⟩) (h₁.fails e rfl s i n hn hs hknows hstep hi) }⟩
  | ok x =>
    have hx := h₁.result x rfl
    obtain ⟨maker₂, h₂⟩ := hf ⟨w₁, maker₁⟩ x h₁.le hx.2 h₁.sound
    dsimp only
    dsimp only at h₁ h₂ hx
    revert h₂
    rcases (f x).run w₁ with ⟨r₂, w₂⟩
    intro h₂
    exact ⟨maker₂, {
      le := h₁.le.trans h₂.le
      sound := h₂.sound
      steady := h₁.steady.trans h₂.steady
      result := fun y hy => ⟨(h₂.result y hy).1.trans hx.1, (h₂.result y hy).2⟩
      catches := fun y hy u s i n hu hs hi => by
        have hpoised : s.Poised o t w₁ u := { hs with apart := hs.apart.mono h₂.le.world }
        have hm := h₁.catches x rfl u s i n (h₂.le.trans hu) hpoised hi
        rw [Run.run_bind]
        revert hm
        rcases (B i n).run s.world with ⟨r', w'⟩
        intro hm
        cases r' with
        | error e => exact hm
        | ok x' =>
          obtain ⟨β, hadv, hx'⟩ := hm
          have hn := h₂.catches y hy u ⟨w', β⟩ (i, x') n hu
            (hs.advance hadv h₁.le fun _ hy => hy) ⟨R.mono hadv.matching hi, hx'⟩
          revert hn
          dsimp only
          rcases (F i n x').run w' with ⟨r'', w''⟩
          intro hn
          cases r'' with
          | error e => exact hn
          | ok y' =>
            obtain ⟨β', hadv', hy'⟩ := hn
            refine ⟨β', (hadv.trans hadv').weaken fun z hz => ?_, hy'⟩
            rcases hz with (hz | hz) | (hz | hz)
            · exact Or.inl hz
            · exact Or.inr ⟨hz.1, h₂.le.world.has _ hz.2⟩
            · exact Or.inl fun hk => hz (hadv.knows hk)
            · exact Or.inr hz
      fails := fun e he s i n hn hs hknows hstep hi => by
        have hm := h₁.catches x rfl ⟨w₁, maker₁⟩ s i n (.refl _)
          (hstep.poised hs h₁.le hknows h₁.steady h₁.sound.whole) hi
        rw [Run.run_bind]
        revert hm
        rcases (B i n).run s.world with ⟨r', w'⟩
        intro hm
        cases r' with
        | error e' => exact Or.inl hm
        | ok x' =>
          obtain ⟨β, hadv, hx'⟩ := hm
          exact h₂.fails e he ⟨w', β⟩ (i, x') n hn hadv.behind (hadv.knows hknows)
            (hstep.advance hadv h₁.steady hx.1) ⟨R.mono hadv.matching hi, hx'⟩ }⟩

/-! ### Steps without effect -/

/-- A computation is followed by what comes to the same. -/
theorem Follows.via {κ : Type} {d₂ : Nat} {m₂ : Evaluating α} {S : Counterparts κ}
    {C : κ → Nat → Evaluating α} (h : Follows o d₂ t m₂ S C V) (hm : m.run t.world = m₂.run t.world)
    (hB : ∀ (u : Moment) (s : Shadow) i n, t.Le u → s.Behind u → R.rel s.matching i →
      (∃ w, (B i n).run s.world = (.error .tooDeep, w)) ∨
      ∃ j n₂, S.rel s.matching j ∧ (n ≤ d → n₂ ≤ d₂) ∧ (B i n).run s.world = (C j n₂).run s.world) :
    Follows o d t m R B V := by
  intro hsound
  obtain ⟨maker, h⟩ := h hsound
  rw [hm]
  refine ⟨maker, h.le, h.sound, h.steady, h.result, fun x hx u s i n hu hs hi => ?_,
    fun e he s i n hn hs hknows hstep hi => ?_⟩
  · obtain ⟨w, hw⟩ | ⟨j, n₂, hj, -, hrun⟩ := hB u s i n (h.le.trans hu) hs.behind hi
    · rw [hw]
      exact rfl
    · rw [hrun]
      exact h.catches x hx u s j n₂ hu hs hj
  · obtain ⟨w, hw⟩ | ⟨j, n₂, hj, hn₂, hrun⟩ := hB t s i n (.refl t) hs hi
    · rw [hw]
      exact Or.inl rfl
    · rw [hrun]
      exact h.fails e he s j n₂ (hn₂ hn) hs hknows hstep hj

/-- **A step that only looks at the world** is followed by one that finds the same there, or gives
up. -/
theorem follows_of_look (hm : (m.run t.world).2 = t.world)
    (hself : ∀ x, (m.run t.world).1 = .ok x → (V x).rel t.world.itself x)
    (hB : ∀ (u : Moment) (s : Shadow) i n, t.Le u → s.Behind u → R.rel s.matching i →
      (∃ w, (B i n).run s.world = (.error .tooDeep, w)) ∨ ((B i n).run s.world).2 = s.world ∧
        ResultsMatch (fun x' x => (V x).rel s.matching x') ((B i n).run s.world).1
          (m.run t.world).1) :
    Follows o d t m R B V := by
  intro hsound
  refine ⟨t.maker, ?_⟩
  rw [hm]
  refine ⟨.refl t, hsound, .refl _, fun x hx => ⟨rfl, hself x hx⟩, fun x hx u s i n hu hs hi => ?_,
    fun e he s i n _ hs _ hstep hi => ?_⟩
  · have h := hB u s i n hu hs.behind hi
    rw [hx] at h
    revert h
    rcases (B i n).run s.world with ⟨r, w⟩
    rintro (⟨w', hw⟩ | ⟨rfl, hr⟩)
    · cases hw
      exact rfl
    · cases hr with
      | ok hx' => exact ⟨s.matching, .refl hs.behind, hx'⟩
  · have h := hB t s i n (.refl t) hs hi
    rw [he] at h
    revert h
    rcases (B i n).run s.world with ⟨r, w⟩
    rintro (⟨w', hw⟩ | ⟨rfl, hr⟩)
    · cases hw
      exact Or.inl rfl
    · cases hr
      exact Or.inr ⟨rfl, hstep.report⟩

/-- What is sound may be made use of. -/
theorem Follows.of_sound (h : t.Sound → Follows o d t m R B V) : Follows o d t m R B V :=
  fun hsound => h hsound hsound

theorem follows_pure {x : α} {y : ι → α} (hx : (V x).rel t.world.itself x)
    (hy : ∀ β i, R.rel β i → (V x).rel β (y i)) :
    Follows o d t (pure x) R (fun i _ => pure (y i)) V :=
  follows_of_look rfl (fun _ he => by cases he; exact hx) fun _ s i _ _ _ hi =>
    Or.inr ⟨rfl, .ok (hy s.matching i hi)⟩

theorem follows_throw (e : Failure) : Follows o d t (throw e) R (fun _ _ => throw e) V :=
  follows_of_look rfl (fun _ he => by cases he) fun _ _ _ _ _ _ _ => Or.inr ⟨rfl, .error e⟩

/-- Without levels nothing is done. -/
theorem follows_tooDeep (hB : ∀ i, B i 0 = throw .tooDeep) :
    Follows o 0 t (throw .tooDeep) R B V := by
  intro hsound
  refine ⟨t.maker, .refl t, hsound, .refl _, fun _ hx => ?_, fun _ hx => ?_,
    fun e he s i n hn _ _ _ _ => ?_⟩
  · cases hx
  · cases hx
  · rw [Nat.le_zero.mp hn, hB]
    exact Or.inl rfl

theorem run_faulty {α : Type} (r : Except Fault α) (w : World) :
    (World.faulty r).run w = (r.mapError .bare, w) := by
  cases r <;> rfl

theorem follows_faulty {r : Except Fault α} {r' : ι → Except Fault α}
    (hself : ResultsMatch (fun x' x => (V x).rel t.world.itself x') r r)
    (hr : ∀ β i, β.Unique → R.rel β i → ResultsMatch (fun x' x => (V x).rel β x') (r' i) r) :
    Follows o d t (World.faulty r) R (fun i _ => World.faulty (r' i)) V := by
  refine follows_of_look (by rw [run_faulty]) (fun x hx => ?_) fun u s i n _ hs hi => ?_
  · rw [run_faulty] at hx
    generalize r = q at hself hx
    cases hself with
    | ok h =>
      cases hx
      exact h
    | error => cases hx
  · have h := hr s.matching i hs.unique hi
    rw [run_faulty, run_faulty]
    refine Or.inr ⟨rfl, ?_⟩
    generalize r' i = q' at h ⊢
    cases h with
    | ok h => exact .ok h
    | error f => exact .error _

/-! ### New things -/

instance (w : World) (x : Thing) : Decidable (w.Has x) :=
  match x with
  | .record a => inferInstanceAs (Decidable (a < w.records.size))
  | .birth n => inferInstanceAs (Decidable (n < w.births))
  | .resolver k => inferInstanceAs (Decidable (k < w.resolvers.size))

/-- The moment of a later world, in which all new things are of one maker. -/
def Moment.made (t : Moment) (o : Maker) (w : World) : Moment :=
  ⟨w, fun x => if t.world.Has x then t.maker x else o⟩

theorem Moment.le_made {w : World} (h : t.world.Precedes w) (o : Maker) : t.Le (t.made o w) :=
  ⟨h, fun _ hx => if_pos hx⟩

/-- **What nothing has been computed or loaded in stays sound.** -/
theorem Moment.Sound.later (h : t.Sound) (hle : t.Le u) (hwhole : u.world.Whole)
    (hready : ∀ {a l v}, (u.world.row a).access l = .ready v → (t.world.row a).access l = .ready v)
    (hloaded : ∀ {k name v}, (u.world.resolver k).loaded.lookup name = some v →
      (t.world.resolver k).loaded.lookup name = some v) : u.Sound where
  whole := hwhole
  fields hv := (h.fields (hready hv)).mono hle
  modules hv := (h.modules (hloaded hv)).mono hle

/-- **A new thing is followed by a new thing.** -/
theorem follows_make {w : World} {x : α} {y : Thing} {f : World → ι → World} {g : World → α}
    {k : World → Thing} (hm : m.run t.world = (.ok x, w)) (hadds : Shadow.Adds t.world w y)
    (hwhole : t.Sound → w.Whole) (hx : (V x).rel w.itself x)
    (hB : ∀ s : World, ∀ i n, (B i n).run s = (.ok (g s), f s i))
    (hadds' : ∀ s i, Shadow.Adds s (f s i) (k s))
    (hV : ∀ (β : Matching) s, β (k s) y → (V x).rel β (g s))
    (hrecord : ∀ (u : Moment) (s : Shadow) i, w.Precedes u.world → R.rel s.matching i →
      ∀ {a' a : Nat}, k s.world = .record a' → y = .record a → ∃ r' r,
      (f s.world i).records[a']? = some r' ∧ u.world.records[a]? = some r ∧
        r'.Matches s.matching r) :
    Follows o d t m R B V := by
  intro hsound
  have hle := Moment.le_made hadds.world o
  refine ⟨(t.made o w).maker, ?_⟩
  rw [hm]
  refine ⟨hle, hsound.later hle (hwhole hsound) hadds.ready fun hv => ?_, hadds.steady,
    fun z hz => ?_,
    fun z hz u s i n hu hs hi => ?_, fun e he => by cases he⟩
  · rwa [World.resolver, hadds.resolvers, ← World.resolver] at hv
  · cases hz
    exact ⟨hadds.report, hx⟩
  · cases hz
    rw [hB]
    have hmaker : u.maker y = o := (hu.maker y hadds.has).trans (if_neg hadds.new)
    refine ⟨_, hs.behind.meet (hadds' s.world i) (hu.world.has y hadds.has)
      (fun z hz => ?_) ?_ ?_ ?_,
      hV _ _ (Or.inr ⟨rfl, rfl⟩)⟩
    · exact hadds.new (hs.own hz hmaker)
    · exact hmaker ▸ hs.knows
    · exact Or.inr ⟨hmaker, hadds.has⟩
    · exact hrecord u s i hu.world hi

end RowLang
