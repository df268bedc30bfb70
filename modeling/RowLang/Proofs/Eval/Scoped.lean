import RowLang.Eval.Document
import RowLang.Proofs.Eval.Loose
import RowLang.Proofs.Run
import RowLang.Proofs.Value.Scoped

/-!
# Proofs/Eval/Scoped — no name is unbound in what has its names bound

The records that an evaluation makes keep code for later, and any evaluation may run some of it,
also one that fails in the end.  So what is kept in the store is scoped before and after each
operation, whatever comes of it (`World.Scoped`), and no operation on scoped things fails at an
unbound name; `Eval.scoping` is that law, and all levels of evaluation keep it
(`Eval.ScopedLevels`).
-/

namespace RowLang

variable {K : Nat → Prop}

/-- The code that a record keeps for later has its names bound, and what is computed is scoped. -/
structure StoredRecord.Scoped (K : Nat → Prop) (address : Nat) (r : StoredRecord) : Prop where
  initializers : ∀ p ∈ r.row, ∃ names,
    Env.Provides K (r.inner address) names ∧ p.2.initializer.expr.Scoped names
  computed : ∀ p ∈ r.row, ∀ v, p.2.cell = .ready v → v.Scoped K

/-- **The records at the addresses of `K` are scoped**; all later ones are among them. -/
structure World.Scoped (K : Nat → Prop) (w : World) : Prop where
  shared : K Value.sharedEmpty
  later : ∀ a, w.records.size ≤ a → K a
  records : ∀ a r, K a → w.records[a]? = some r → r.Scoped K a

/-- A failure at something else than an unbound name. -/
def Failure.Bound (e : Failure) : Prop := ∀ x, e ≠ .unboundName x

theorem Failure.Plain.bound {e : Failure} (h : e.Plain) : e.Bound := fun _ he => by
  subst he
  exact h

theorem StoredRecord.Scoped.setCell {a : Nat} {r : StoredRecord} {l : Label} {c : Cell Value}
    (h : r.Scoped K a) (hc : ∀ v, c = .ready v → v.Scoped K) :
    StoredRecord.Scoped K a { r with row := r.row.setCell l c } where
  initializers p hp := by
    obtain ⟨q, hq, -, hinit, -⟩ := LazyRow.mem_setCell hp
    rw [hinit]
    exact h.initializers q hq
  computed p hp v hv := by
    obtain ⟨q, hq, -, -, hcell | ⟨-, hcell⟩⟩ := LazyRow.mem_setCell hp
    · exact h.computed q hq v (hcell ▸ hv)
    · exact hc v (hcell ▸ hv)

/-- A record of initializers, none of them run. -/
theorem StoredRecord.scoped_ofRow {a : Nat} {scope : Env} {seesItself : Bool} {row : Row Code}
    {names : List String}
    (henv : Env.Provides K (StoredRecord.inner ⟨scope, seesItself, .ofRow row⟩ a) names)
    (hcode : ∀ p ∈ row, p.2.expr.Scoped names) :
    StoredRecord.Scoped K a ⟨scope, seesItself, .ofRow row⟩ where
  initializers p hp := by
    obtain ⟨q, hq, rfl⟩ := LazyRow.mem_ofRow.mp hp
    exact ⟨names, henv, hcode q hq⟩
  computed p hp v hv := by
    obtain ⟨q, -, rfl⟩ := LazyRow.mem_ofRow.mp hp
    cases hv

namespace World.Scoped

variable {w : World}

theorem of_records_eq {w' : World} (h : w.Scoped K) (he : w'.records = w.records) : w'.Scoped K :=
  ⟨h.shared, he ▸ h.later, he ▸ h.records⟩

theorem push {r : StoredRecord} (h : w.Scoped K) (hr : r.Scoped K w.records.size) :
    World.Scoped K { w with records := w.records.push r } where
  shared := h.shared
  later a ha := h.later a (by
    rw [Array.size_push] at ha
    omega)
  records a s ha hs := by
    rw [Array.getElem?_push] at hs
    split at hs
    · subst a
      cases hs
      exact hr
    · exact h.records a s ha hs

theorem setCell {a : Nat} {l : Label} {c : Cell Value} (h : w.Scoped K)
    (hc : ∀ v, c = .ready v → v.Scoped K) : (w.setCell a l c).Scoped K where
  shared := h.shared
  later b hb := h.later b (by rwa [World.setCell, Array.size_modify] at hb)
  records b s hb hs := by
    rw [World.setCell, Array.getElem?_modify] at hs
    split at hs
    · obtain ⟨r, hr, rfl⟩ := Option.map_eq_some_iff.mp hs
      exact (h.records b r hb hr).setCell hc
    · exact h.records b s hb hs

/-- What is in a row of the store is in a scoped record. -/
theorem exists_of_mem_row {a : Nat} {p : Label × Slot Code Value} (h : w.Scoped K) (ha : K a)
    (hp : p ∈ w.row a) : ∃ r, w.records[a]? = some r ∧ r.Scoped K a ∧ p ∈ r.row := by
  cases hr : w.records[a]? with
  | none =>
    rw [World.row, hr] at hp
    cases hp
  | some r =>
    rw [World.row, hr] at hp
    exact ⟨r, rfl, h.records a r ha hr, hp⟩

end World.Scoped

namespace Eval

open Law

/-- **The law of scopes**: the store is scoped, and nothing fails at an unbound name. -/
def scoping (K : Nat → Prop) : Law Failure World where
  holds := World.Scoped K
  failure := Failure.Bound

/-- An operation gives something scoped. -/
abbrev GivesScoped (K : Nat → Prop) (m : Evaluating Value) : Prop :=
  (scoping K).Keeps m (Value.Scoped K)

variable {α β : Type} {post : α → Prop}

theorem keeps_birth : (scoping K).Keeps World.birth fun _ => True :=
  keeps_modifyGet fun _ hw => ⟨hw.of_records_eq rfl, trivial, trivial⟩

theorem gives_allocate {r : StoredRecord} (h : ∀ a, K a → r.Scoped K a) :
    GivesScoped K (World.allocate r) :=
  keeps_modifyGet fun _ hw =>
    have hown := hw.later _ le_rfl
    ⟨hw.push (h _ hown), trivial, .record hown⟩

theorem keeps_setCell {a : Nat} {l : Label} {c : Cell Value} (hc : ∀ v, c = .ready v → v.Scoped K) :
    (scoping K).Keeps (World.updateRow a (·.setCell l c)) fun _ => True :=
  keeps_modifyGet fun _ hw => ⟨hw.setCell hc, trivial, trivial⟩

theorem keeps_faulty {r : Except Fault α} (h : ∀ x, r = .ok x → post x) :
    (scoping K).Keeps (World.faulty r) post := by
  cases r with
  | ok x => exact keeps_pure (h x rfl)
  | error f => exact keeps_throw fun _ he => nomatch he

/-- **The steps of operators keep the law of scopes**, whatever they give. -/
theorem closed_keeps : Closed fun m => (scoping K).Keeps m fun _ => True where
  pure _ := keeps_pure trivial
  bind h hf := h.bind fun x _ => hf x
  throw h := keeps_throw h.bound
  look h := keeps_get fun w _ => h w
  birth := keeps_birth

/-- A failure that tells of a value. -/
theorem keeps_failWith {make : String → Failure} (h : ∀ shown, (make shown).Plain) (v : Value) :
    (scoping K).Keeps (World.failWith make v) post := by
  refine keeps_get fun w _ => ?_
  split
  case h_1 shown _ => exact keeps_throw (h shown).bound
  case h_2 e he => exact keeps_throw (v.fails_describe _ e he).plain.bound

theorem keeps_refusing {o : Operator} {m : Evaluating α} (h : (scoping K).Keeps m post) :
    (scoping K).Keeps (refusing o m) post := by
  refine h.tryCatch fun e he => ?_
  split
  · exact keeps_throw he
  · exact keeps_throw fun _ he => nomatch he
  · exact keeps_throw he

/-! ## Operators -/

theorem keeps_entries {v : Value} (h : v.Scoped K) :
    (scoping K).Keeps (entries v) fun items => ∀ u ∈ items, u.Scoped K := by
  unfold entries
  split
  · cases h with
    | list hitems => exact keeps_pure hitems
  · refine keeps_birth.bind fun o _ => keeps_pure fun u hu => ?_
    obtain ⟨i, hi, rfl⟩ := List.mem_mapIdx.mp hu
    exact .text
  · refine keeps_get fun w _ => keeps_pure fun u hu => ?_
    obtain ⟨p, -, rfl⟩ := List.mem_map.mp hu
    exact .text
  · split
    case h_1 items hitems => exact keeps_pure (h.tupleItems hitems)
    case h_2 => exact keeps_throw fun _ he => nomatch he

theorem gives_sizeOf (v : Value) : GivesScoped K (sizeOf v) := by
  unfold sizeOf
  refine keeps_birth.bind fun o _ => ?_
  split
  · exact keeps_pure .int
  · exact keeps_pure .int
  · exact keeps_get fun _ _ => keeps_pure .int
  · split
    · exact keeps_pure .int
    · exact keeps_throw fun _ he => nomatch he

theorem gives_format {lookup : Nat → Label → Evaluating Value} {v : Value}
    (h : ∀ a l, K a → GivesScoped K (lookup a l)) (hv : v.Scoped K) (own fresh : Origin)
    (s : List Nat) :
    GivesScoped K (Format.format .plain lookup own fresh s v) := by
  have hlookup : ∀ a l, v = .record a → (scoping K).Keeps (lookup a l) fun _ => True := by
    rintro a l rfl
    cases hv with
    | record ha => exact (h a l ha).weaken fun _ _ => trivial
  unfold Format.format
  refine (closed_keeps.inWorld.fillAll
    (fun codes m => closed_keeps.inWorld.lookupIn hlookup) _ _ _ _).bind
    fun (pieces, supply) _ => ?_
  have htext : GivesScoped K
      (pure (if s.contains 0x25 then Format.Piece.together fresh pieces else .text own s)) := by
    split <;> exact keeps_pure .text
  dsimp only
  split
  · exact (closed_keeps.throw (e := .bare .formatTooMany) trivial).bind fun _ _ => htext
  · exact htext

theorem gives_calculate {lookup : Nat → Label → Evaluating Value} {x y : Value}
    (h : ∀ a l, K a → GivesScoped K (lookup a l)) (hx : x.Scoped K) (hy : y.Scoped K)
    (o : Operator) :
    GivesScoped K (calculate .plain lookup o x y) := by
  have hverdict : ∀ b o, GivesScoped K (pure (.verdict o b)) := fun b o w hw =>
    keeps_pure (Value.scoped_verdict o b hw.shared) w hw
  unfold calculate
  refine keeps_birth.bind fun o _ => ?_
  split
  · exact keeps_faulty (Value.makes_add o hx hy)
  · exact keeps_faulty (Value.makes_add o hx hy)
  · exact keeps_faulty (Value.makes_subtract o)
  · exact closed_keeps.room.bind fun room _ => keeps_faulty (Value.makes_multiply room o hx hy)
  · exact keeps_faulty (Value.makes_divide o)
  · split
    · exact gives_format h hy _ _ _
    · exact keeps_faulty (Value.makes_remainder o)
  · exact hverdict _ o
  · exact (keeps_faulty fun _ _ => trivial).bind fun b _ => hverdict b o
  · exact keeps_throw fun _ he => nomatch he

/-! ## Patterns -/

/-- A pattern binds its names to parts of a scoped value, in front of the names bound already. -/
theorem keeps_collectWith {field : Value → Label → Evaluating Value}
    (hfield : ∀ v l, v.Scoped K → GivesScoped K (field v l)) {env : Env} (p : Pattern) :
    ∀ {b : List (String × Value)} {names : List String} {v : Value},
      Env.Provides K (env.extend b) names → v.Scoped K → (scoping K).Keeps (collectWith field b p v)
        fun b' => Env.Provides K (env.extend b') (p.names ++ names) := by
  induction p using Pattern.inductOn with
  | name x => exact fun h hv => keeps_pure (h.cons hv)
  | wildcard => exact fun h _ => keeps_pure h
  | row fields ih =>
    intro b names v h hv
    rw [collectWith]
    induction fields generalizing b names with
    | nil =>
      rw [collectWith.collectFields]
      exact keeps_pure h
    | cons p fields ihf =>
      rw [collectWith.collectFields]
      refine (hfield v p.1 hv).bind fun u hu => (ih p List.mem_cons_self h hu).bind fun b' hb' => ?_
      refine (ihf (fun q hq => ih q (List.mem_cons_of_mem _ hq)) hb').weaken fun b'' hb'' => ?_
      refine hb''.mono fun x hx => ?_
      rw [Pattern.names, Pattern.namesOfFields, List.append_assoc] at hx
      rw [Pattern.names]
      simp only [List.mem_append] at hx ⊢
      rcases hx with hx | hx | hx
      exacts [Or.inr (Or.inl hx), Or.inl hx, Or.inr (Or.inr hx)]

/-! ## Levels -/

/-- **Within some levels, the law of scopes is kept.** -/
structure ScopedLevels (K : Nat → Prop) (depth : Nat) : Prop where
  eval : ∀ {env names code}, Env.Provides K env names → code.expr.Scoped names →
    GivesScoped K (eval depth env code)
  apply : ∀ {fn arg}, fn.Scoped K → arg.Scoped K → GivesScoped K (apply depth fn arg)
  operate : ∀ o {args}, (∀ v ∈ args, v.Scoped K) → GivesScoped K (operate depth o args)
  field : ∀ {v} l, v.Scoped K → GivesScoped K (field depth v l)
  force : ∀ {a} l, K a → GivesScoped K (force depth a l)

theorem scopedLevels_zero : ScopedLevels K 0 where
  eval _ _ := keeps_throw fun _ he => nomatch he
  apply _ _ := keeps_throw fun _ he => nomatch he
  operate _ _ _ := keeps_throw fun _ he => nomatch he
  field _ _ := keeps_throw fun _ he => nomatch he
  force _ _ := keeps_throw fun _ he => nomatch he

variable {depth : Nat}

/-- The fields of an expression are scoped as it is. -/
theorem scoped_of_mem_fields {here : Origin} {fields : Row Expr} {names : List String}
    (h : ∀ f ∈ fields, f.2.Scoped names) {p : Label × Code} (hp : p ∈ Code.fields here fields) :
    p.2.expr.Scoped names := h _ (Code.exists_of_mem_fields hp)

theorem ScopedLevels.eval_succ (h : ScopedLevels K depth) {env : Env} {names : List String}
    {code : Code} (henv : Env.Provides K env names) (hcode : code.expr.Scoped names) :
    GivesScoped K (Eval.eval (depth + 1) env code) := by
  obtain ⟨here, e⟩ := code
  cases hcode with
  | @number _ n =>
    cases n with
    | int i => exact keeps_pure .int
    | real x => exact keeps_pure .real
  | char => exact keeps_pure .text
  | var hx =>
    obtain ⟨v, hv, hscoped⟩ := henv.values _ hx
    rw [Eval.eval_succ, Eval.evalBy, hv]
    exact keeps_pure hscoped
  | op => exact keeps_pure .operator
  | lambda hbody => exact keeps_birth.bind fun _ _ => keeps_pure (Value.scoped_closure henv hbody)
  | apply hfn harg =>
    rw [Eval.eval_succ, Eval.evalBy]
    exact (@h.eval _ _ ⟨_, _⟩ henv hfn).bind fun fn hfn =>
      (@h.eval _ _ ⟨_, _⟩ henv harg).bind fun arg harg => h.apply hfn harg
  | list helts =>
    rw [Eval.eval_succ, Eval.evalBy]
    refine (keeps_mapM fun code hcode => ?_).bind fun items hitems =>
      keeps_birth.bind fun _ _ => keeps_pure (.list hitems)
    exact h.eval henv (helts _ (Code.expr_mem_of_mem_parts hcode))
  | record hfields =>
    -- Its fields see the record itself, at the address that it gets.
    exact gives_allocate fun a ha => StoredRecord.scoped_ofRow
      (Env.Provides.cons (b := []) henv (.record ha)) fun p => scoped_of_mem_fields hfields
  | tuple hitems =>
    refine gives_allocate fun a ha => StoredRecord.scoped_ofRow henv fun p hp => ?_
    exact hitems _ (Row.mem_of_mem_positional (Code.exists_of_mem_fields hp))
  | dispatch hhandlers =>
    exact keeps_birth.bind fun _ _ =>
      keeps_pure (Value.scoped_dispatcher henv fun p => scoped_of_mem_fields hhandlers)
  | tag => exact keeps_birth.bind fun _ _ => keeps_pure .tagger
  | load =>
    rw [Eval.eval_succ, Eval.evalBy, henv.root]
    exact keeps_throw fun _ he => nomatch he
  | ascribe he => exact h.eval henv he
  | bindIn hbound hbody =>
    rw [Eval.eval_succ, Eval.evalBy]
    exact (@h.eval _ _ ⟨_, _⟩ henv hbound).bind fun v hv =>
      (keeps_collectWith (fun _ l => h.field l) _ (b := []) henv hv).bind fun b hb =>
        @h.eval _ _ ⟨_, _⟩ hb hbody

theorem ScopedLevels.apply_succ (h : ScopedLevels K depth) {fn arg : Value} (hfn : fn.Scoped K)
    (harg : arg.Scoped K) : GivesScoped K (Eval.apply (depth + 1) fn arg) := by
  have hfail : ∀ {make : String → Failure} (_ : ∀ shown, (make shown).Plain) (v : Value),
      GivesScoped K (Host.plain.failWith make v) := fun hmake v => keeps_failWith hmake v
  rw [Eval.apply_succ]
  unfold Eval.applyBy
  split
  · cases hfn with
    | closure values hroot hfetch hscoped hcode =>
      exact (keeps_collectWith (fun _ l => h.field l) _ (b := [])
        (Env.provides_iff.mpr ⟨hroot, values, hfetch, hscoped⟩) harg).bind fun b hb =>
          h.eval hb hcode
  · exact keeps_birth.bind fun _ _ => keeps_pure (.tagged harg)
  · split
    · cases hfn with
      | dispatcher values hroot hfetch hscoped hhandlers =>
        cases harg with
        | tagged hpayload =>
          split
          case h_1 handler hhandler =>
            exact (h.eval (Env.provides_iff.mpr ⟨hroot, values, hfetch, hscoped⟩)
              (hhandlers _ (Row.mem_of_lookup hhandler))).bind fun fn hfn => h.apply hfn hpayload
          case h_2 => exact hfail (by exact fun _ => trivial) _
    · exact hfail (by exact fun _ => trivial) _
  · exact keeps_refusing (h.operate _ (List.forall_mem_singleton.mpr harg))
  · cases hfn with
    | waiting hargs =>
      refine keeps_refusing (h.operate _ fun v hv => ?_)
      exact (List.mem_append.mp hv).elim (hargs v) fun hv => List.mem_singleton.mp hv ▸ harg
  · exact hfail (by exact fun _ => trivial) _

theorem ScopedLevels.operate_succ (h : ScopedLevels K depth) (o : Operator) {args : List Value}
    (hargs : ∀ v ∈ args, v.Scoped K) : GivesScoped K (Eval.operate (depth + 1) o args) := by
  rw [Eval.operate_succ]
  unfold Eval.operateBy
  split
  · exact keeps_birth.bind fun _ _ => keeps_pure (.waiting hargs)
  split
  · refine (keeps_entries (hargs _ (by simp))).bind fun items hitems =>
      (keeps_mapM fun x hx => ?_).bind fun ys hys => keeps_birth.bind fun _ _ =>
        keeps_pure (.list hys)
    exact h.apply (hargs _ (by simp)) (hitems x hx)
  · refine (keeps_entries (hargs _ (by simp))).bind fun items hitems =>
      (keeps_filterM hitems fun x hx => ?_).bind fun ys hys => keeps_birth.bind fun _ _ =>
        keeps_pure (.list hys)
    exact (h.apply (hargs _ (by simp)) (hitems x hx)).bind fun v _ =>
      closed_keeps.inWorld.verdictOf v
  · refine (keeps_entries (hargs _ (by simp))).bind fun items hitems =>
      keeps_foldlM (hargs _ (by simp)) fun x hx acc hacc => ?_
    exact (h.apply (hargs _ (by simp)) hacc).bind fun fn hfn => h.apply hfn (hitems x hx)
  · exact gives_sizeOf _
  · exact closed_keeps.room.bind fun room _ => keeps_birth.bind fun o _ =>
      keeps_faulty (Value.makes_countUp room o)
  · exact keeps_birth.bind fun o _ => keeps_faulty (Value.makes_ord o)
  · exact keeps_birth.bind fun o _ => keeps_faulty (Value.makes_chr o)
  · exact (h.field "0" (hargs _ (by simp))).bind fun x hx =>
      (h.field "1" (hargs _ (by simp))).bind fun y hy =>
        gives_calculate (fun _ l ha => h.force l ha) hx hy _
  · exact keeps_throw fun _ he => nomatch he

theorem ScopedLevels.field_succ (h : ScopedLevels K depth) {v : Value} (l : Label)
    (hv : v.Scoped K) :
    GivesScoped K (Eval.field (depth + 1) v l) := by
  have hfail : ∀ v, GivesScoped K (Host.plain.failWith (.missingField l) v) := fun v =>
    keeps_failWith (by exact fun _ => trivial) v
  rw [Eval.field_succ]
  unfold Eval.fieldBy
  split
  · cases hv with
    | record ha =>
      refine keeps_get fun w _ => ?_
      split
      · exact h.force l ha
      · exact hfail _
  · exact hfail _

/-- **What is computed of a record is scoped**, and an initializer that fails leaves the record so.
-/
theorem ScopedLevels.force_succ (h : ScopedLevels K depth) {a : Nat} (l : Label) (ha : K a) :
    GivesScoped K (Eval.force (depth + 1) a l) := by
  intro w hw
  rw [Eval.force_succ, Eval.forceBy, Host.plainly_plain, Run.run_bind, Run.run_get]
  dsimp only
  cases haccess : (w.row a).access l with
  | missing => exact keeps_throw (fun _ he => nomatch he) w hw
  | circular => exact keeps_throw (fun _ he => nomatch he) w hw
  | ready v =>
    obtain ⟨i, hslot⟩ := LazyRow.mem_of_access_ready haccess
    obtain ⟨r, -, hscoped, hmem⟩ := hw.exists_of_mem_row ha hslot
    exact keeps_pure (hscoped.computed _ hmem v rfl) w hw
  | start initializer =>
    obtain ⟨r, hr, hscoped, hmem⟩ := hw.exists_of_mem_row ha (LazyRow.mem_of_access_start haccess)
    obtain ⟨names, henv, hcode⟩ := hscoped.initializers _ hmem
    dsimp only
    rw [Run.run_bind, Run.run_get]
    dsimp only
    rw [hr]
    refine ((keeps_setCell (c := .inProgress) fun v hv => nomatch hv).bind fun _ _ => Keeps.bind
      (Keeps.tryCatch
      (h.eval henv hcode) fun e he => ?_) fun v hv => ?_) w hw
    · exact (keeps_setCell (c := .absent) fun v hv => nomatch hv).bind fun _ _ => keeps_throw he
    · exact (keeps_setCell fun u hu => by cases hu; exact hv).bind fun _ _ => keeps_pure hv

/-- **Evaluation keeps the law of scopes**, within any number of levels. -/
theorem scopedLevels (depth : Nat) : ScopedLevels K depth := by
  induction depth with
  | zero => exact scopedLevels_zero
  | succ depth ih =>
    exact ⟨ih.eval_succ, ih.apply_succ, ih.operate_succ, ih.field_succ, ih.force_succ⟩

end Eval

end RowLang
