import RowLang.Proofs.Solver.Assembled
import RowLang.Proofs.Solver.Logged
import RowLang.Proofs.Ty.Chain
import RowLang.Proofs.Typing.Solution

/-!
# Proofs/Typing/Lossless — no label is lost by flattening

All that is flattened while a program is typed is good, so that no label occurs in two rows of one
chain, and no replacement of variables captures one.  `Keeps` says that an operation of the logged
solver, from a state about which a census knows all, does only such things and leaves such a state,
even where it fails; each operation keeps the state, and hence every query does
(`flattens_lossless`).
-/

namespace RowLang.Solver

open Ty

/-- A type that is flattened without a loss: no label occurs in two rows of one chain, and
flattening puts the fields one behind the other. -/
def Lossless (t : Ty) : Prop := t.Unshadowed ∧ t.flatten = t.joined

theorem lossless_of_good {K : Census} {r : Role} {t : Ty} (h : t.Good K r) : Lossless t :=
  ⟨h.fits.unshadowed, flatten_eq_joined h.tidy h.fits.unshadowed⟩

/-- What is put in for a variable that may become any type. -/
theorem good_lookup_single {K : Census} {n : Nat} {t : Ty} (hn : K.free n)
    (ht : t.Good K (K.role n)) (v : Nat)
    (u : Ty) (hu : List.lookup v [(n, t)] = some u) : K.free v ∧ u.Good K (K.role v) := by
  rw [Row.lookup_single] at hu
  split at hu
  case isTrue hv =>
    cases hu
    exact hv ▸ ⟨hn, ht⟩
  case isFalse => cases hu

/-- A state about which a census knows all, the type under study included. -/
structure Orderly (K : Census) (st : Solver) : Prop extends Kept K st where
  numbered : K.numbered
  lastType : ∀ t, st.lastType = some t → t.Good K .whole

namespace Logged

variable {α β : Type} {K : Census} {r : Role}

/-- Nothing on the account is a loss or a capture. -/
structure Clean (l : Logged) : Prop where
  flattened : ∀ t ∈ l.flattened, Lossless t
  replaced : ∀ p ∈ l.replaced, p.2.CatchesNone p.1

/-- From a state about which `K` knows all, an operation loses and captures nothing, leaves a state
about which a census that knows more knows all, and finds what satisfies `post`. -/
def Keeps (K : Census) (w : Working Logged α) (post : Census → α → Prop) : Prop :=
  ∀ l : Logged, Orderly K l.solver → l.Clean → (w.run l).2.Clean ∧ ∃ K', K.Le K' ∧
    Orderly K' (w.run l).2.solver ∧ ∀ x, (w.run l).1 = .ok x → post K' x

variable {post : Census → α → Prop} {Q : Census → β → Prop}

theorem keeps_pure {x : α} (h : post K x) : Keeps K (pure x) post := fun _ hl hclean =>
  ⟨hclean, K, .refl K, hl, fun _ hx => by cases hx; exact h⟩

theorem keeps_throw (e : TypeFailure) : Keeps K (throw e) post := fun _ hl hclean =>
  ⟨hclean, K, .refl K, hl, fun _ hx => by cases hx⟩

theorem Keeps.bind {w : Working Logged α} {f : α → Working Logged β} (h : Keeps K w post)
    (hf : ∀ K' x, K.Le K' → post K' x → Keeps K' (f x) Q) : Keeps K (w >>= f) Q := by
  intro l hl hclean
  obtain ⟨hclean', K', hle, hl', hx⟩ := h l hl hclean
  rw [Run.run_bind]
  cases hrun : w.run l with
  | mk result mid =>
    rw [hrun] at hclean' hl' hx
    cases result with
    | error e => exact ⟨hclean', K', hle, hl', fun _ hx => by cases hx⟩
    | ok x =>
      obtain ⟨hclean'', K'', hle', hl'', hy⟩ := hf K' x hle (hx x rfl) mid hl' hclean'
      exact ⟨hclean'', K'', hle.trans hle', hl'', hy⟩

/-- What depends on the state of the solver. -/
theorem Keeps.get_bind {f : Solver → Working Logged β}
    (hf : ∀ st, Orderly K st → Keeps K (f st) Q) : Keeps K (manner.plainly get >>= f) Q :=
  fun l hl hclean => hf l.solver hl l hl hclean

theorem Keeps.tryCatch {w : Working Logged α} {f : TypeFailure → Working Logged α}
    (h : Keeps K w post)
    (hf : ∀ K' e, K.Le K' → Keeps K' (f e) post) : Keeps K (tryCatch w f) post := by
  intro l hl hclean
  obtain ⟨hclean', K', hle, hl', hx⟩ := h l hl hclean
  rw [Run.run_tryCatch]
  cases hrun : w.run l with
  | mk result mid =>
    rw [hrun] at hclean' hl' hx
    cases result with
    | ok x => exact ⟨hclean', K', hle, hl', hx⟩
    | error e =>
      obtain ⟨hclean'', K'', hle', hl'', hy⟩ := hf K' e hle mid hl' hclean'
      exact ⟨hclean'', K'', hle.trans hle', hl'', hy⟩

theorem Keeps.forM {w : β → Working Logged Unit} {xs : List β} (good : Census → β → Prop)
    (hmono : ∀ {K K' x}, K.Le K' → good K x → good K' x)
    (h : ∀ K x, good K x → Keeps K (w x) fun _ _ => True) (hxs : ∀ x ∈ xs, good K x) :
    Keeps K (xs.forM w) fun _ _ => True := by
  induction xs generalizing K with
  | nil => exact keeps_pure trivial
  | cons x xs ih =>
    exact (h K x (hxs x List.mem_cons_self)).bind fun K' _ hle _ =>
      ih fun y hy => hmono hle (hxs y (List.mem_cons_of_mem _ hy))

/-- An operation that does nothing to types. -/
theorem keeps_plainly {m : Solving α} (h : ∀ st, Orderly K st → ∃ K', K.Le K' ∧
    Orderly K' (m.run st).2 ∧ ∀ x, (m.run st).1 = .ok x → post K' x) :
    Keeps K (manner.plainly m) post :=
  fun l hl hclean => ⟨⟨hclean.flattened, hclean.replaced⟩, h l.solver hl⟩

theorem keeps_modify {f : Solver → Solver} (h : ∀ st, Orderly K st → Orderly K (f st)) :
    Keeps K (manner.plainly (modify f)) fun _ _ => True :=
  keeps_plainly fun st hst => ⟨K, .refl K, h st hst, fun _ _ => trivial⟩

/-- **A good type is flattened without a loss.** -/
theorem Keeps.flatten {t : Ty} {f : Ty → Working Logged β} (h : t.Good K r)
    (hf : Keeps K (f t.flatten) Q) : Keeps K (manner.flatten t >>= f) Q :=
  fun l hl hclean => hf { l with flattened := t :: l.flattened } hl
    ⟨List.forall_mem_cons.mpr ⟨lossless_of_good h, hclean.flattened⟩, hclean.replaced⟩

/-- **Where no binder has a variable of what is put in, none is captured.** -/
theorem Keeps.substitute {σ : Subst} {t : Ty} {f : Ty → Working Logged β} (h : t.CatchesNone σ)
    (hf : Keeps K (f (t.substitute σ)) Q) : Keeps K (manner.substitute σ t >>= f) Q :=
  fun l hl hclean => hf { l with replaced := (σ, t) :: l.replaced } hl
    ⟨hclean.flattened, List.forall_mem_cons.mpr ⟨h, hclean.replaced⟩⟩

/-- A good type catches nothing of good types that are put in. -/
theorem catchesNone_of_good {σ : Subst} {t : Ty} (h : t.Good K r)
    (hσ : ∀ v u, σ.lookup v = some u → K.free v ∧ u.Good K (K.role v)) : t.CatchesNone σ :=
  h.fits.catchesNone fun v u hu => (hσ v u hu).2.closed

/-- A fresh variable may have any role. -/
theorem keeps_fresh (r : Role) :
    Keeps K (manner.plainly fresh) fun K' n => K'.free n ∧ K'.role n = r := by
  refine keeps_plainly fun st hst => ?_
  have hnew := hst.not_known hst.numbered
  have hle : K.Le (K.addFree st.counter r (fun hb => hnew (Or.inr hb)) hst.numbered) :=
    Census.le_addFree hnew
  refine ⟨_, hle, ⟨hst.toKept.counting hst.numbered hnew, hst.numbered,
    fun t ht => (hst.lastType t ht).mono hle⟩, fun n hn => ?_⟩
  cases hn
  exact ⟨Or.inl rfl, by simp [Census.addFree]⟩

/-- A fresh variable may stand with a binder in a place of any role. -/
theorem keeps_placeholder (r : Role) : Keeps K (manner.plainly fresh) fun K' p =>
    K'.bound p ∧ K'.role p = r ∧ ¬ K.Known p ∧ ∀ v, K'.free v → K.free v := by
  refine keeps_plainly fun st hst => ?_
  have hnew := hst.not_known hst.numbered
  have hle : K.Le (K.addBound st.counter r (fun hf => hnew (Or.inl hf)) hst.numbered) :=
    Census.le_addBound hnew
  refine ⟨_, hle, ⟨hst.toKept.countingBound hst.numbered hnew, hst.numbered,
    fun t ht => (hst.lastType t ht).mono hle⟩, fun p hp => ?_⟩
  cases hp
  exact ⟨Or.inl rfl, by simp [Census.addBound], hnew, fun v h => h⟩

/-! ## Comparisons -/

/-- A good recursive type catches nothing of itself. -/
theorem catchesNone_unfold {p : Nat} {body : Ty} (h : (Ty.bind .mu p body).Good K r) :
    body.CatchesNone [(p, .bind .mu p body)] :=
  catchesNone_single fun q hq hmem => K.disjoint q (h.closed q hmem) (h.fits.2.2.1.bound_of_mem hq)

theorem keeps_openBinder {p : Nat} {body : Ty} (h : (Ty.bind .mu p body).Good K r) :
    Keeps K (openBinderBy manner .mu p body) fun K' t => t.Good K' r := by
  refine .substitute (catchesNone_unfold h) ?_
  rw [← bind_pure (manner.flatten _)]
  exact .flatten h.unfold (keeps_pure h.unfold.flatten)

theorem keeps_openBinders (key : String) : ∀ (n : Nat) {K : Census} {s t : Ty}, s.Good K r →
    t.Good K r → Keeps K (openBindersBy manner key n s t) fun K' p => p.1.Good K' r ∧ p.2.Good K' r
  | 0, _, _, _, _, _ => keeps_throw _
  | n + 1, K, s, t, hs, ht => by
    rcases ne_bind_or_mu hs with hs' | ⟨p, body, rfl⟩
    · rcases ne_bind_or_mu ht with ht' | ⟨p, body, rfl⟩
      · cases s with
        | bind => exact absurd rfl (hs' _ _ _)
        | _ =>
          cases t with
          | bind => exact absurd rfl (ht' _ _ _)
          | _ => exact keeps_pure ⟨hs, ht⟩
      · cases s with
        | bind => exact absurd rfl (hs' _ _ _)
        | _ =>
          exact (keeps_openBinder ht).bind fun K' t' hle ht' =>
            keeps_openBinders key n (hs.mono hle) ht'
    · exact (keeps_openBinder hs).bind fun K' s' hle hs' =>
        keeps_openBinders key n hs' (ht.mono hle)

/-- Comparisons of good types. -/
def Comparing (compare : Ty → Ty → Working Logged Unit) : Prop :=
  ∀ {K : Census} {r : Role} {s t : Ty}, s.Good K r → t.Good K r →
    Keeps K (compare s t) fun _ _ => True

theorem keeps_perform {compare : Ty → Ty → Working Logged Unit} (h : Comparing compare)
    (K : Census) (task : Task) (htask : GoodTask K task) :
    Keeps K (performBy manner compare task) fun _ _ => True := by
  cases task with
  | agree s t =>
    obtain ⟨r, hs, ht⟩ := htask
    exact h hs ht
  | meet k fields tail others tail' =>
    obtain ⟨room, room₁, ht, ht', hf, ho, hroom, -, -⟩ := htask
    -- The fresh variable stands behind both rows, whose labels leave the same room.
    refine (keeps_fresh (.tail k (room₁ \ Row.domain fields))).bind fun K₁ n hle hn => ?_
    have hvar : (Ty.var n).Good K₁ (.tail k (room₁ \ Row.domain fields)) := hn.2 ▸ good_var hn.1
    refine (h (ht'.mono hle) ((hf.mono hle).row hvar)).bind fun K₂ _ hle' _ => ?_
    exact h ((ht.mono hle).mono hle') (((ho.mono hle).row (hroom ▸ hvar)).mono hle')

/-- **Comparisons of good types lose and capture nothing.** -/
theorem keeps_equate : ∀ (budget : Nat) {K : Census} {r : Role} {s t : Ty}, s.Good K r →
    t.Good K r →
    Keeps K (equateBy manner budget s t) fun _ _ => True
  | 0, _, _, _, _, _, _ => keeps_throw _
  | budget + 1, K, r, s, t, hs, ht => by
    refine Keeps.get_bind fun st _ => ?_
    split
    case isTrue => exact keeps_pure trivial
    refine (keeps_modify fun st hst => ⟨hst.toKept.noting _, hst.numbered, hst.lastType⟩).bind
      fun K₁ _ hle₁ _ => ?_
    have hs₁ := hs.mono hle₁
    have ht₁ := ht.mono hle₁
    refine .flatten hs₁ (.flatten ht₁ ?_)
    cases hout : outcome s.flatten t.flatten with
    | defer n u =>
      obtain ⟨hfree, hu, hne⟩ := good_of_defer hs₁.flatten ht₁.flatten hout
      exact keeps_modify fun st hst => ⟨hst.toKept.posting hfree hu hne, hst.numbered, hst.lastType⟩
    | reopen =>
      exact (keeps_openBinders _ _ hs₁.flatten ht₁.flatten).bind fun _ p _ hp =>
        keeps_equate budget hp.1 hp.2
    | clash => exact keeps_throw _
    | split tasks =>
      exact Keeps.forM GoodTask (fun hle h => h.mono hle) (keeps_perform (keeps_equate budget))
        (goodTask_of_split hs₁ ht₁ hout)

/-- **Safe deductions lose and capture nothing** when they are run. -/
theorem keeps_run {post : Setting → α → Prop} (budget : Nat) {d : Deduction α} : ∀ {S : Setting},
    d.Safe post S → Keeps S.toCensus (runBy manner budget d) fun K x =>
      ∃ S', S'.toCensus = K ∧ post S' x := by
  induction d with
  | done x => exact fun {S} h => keeps_pure ⟨S, rfl, h⟩
  | unbound name => exact fun _ => keeps_throw _
  | fresh next ih =>
    rintro S ⟨r, h⟩
    exact (keeps_fresh r).bind fun K n hle hn =>
      ih n (S := ⟨K, S.holds⟩) (h ⟨K, S.holds⟩ n ⟨hle, fun _ h => h⟩ hn.1 hn.2)
  | replace σ t next ih => exact fun h => .substitute h.1 (ih _ h.2)
  | agree s t next ih =>
    rintro S ⟨⟨r, hs, ht⟩, h⟩
    have hdemand : Keeps S.toCensus (demandBy manner budget s t) fun _ _ => True := by
      rw [demandBy]
      cases s.unranked?.or t.unranked? with
      | some why => exact keeps_throw _
      | none => exact keeps_equate budget hs ht
    refine hdemand.bind fun K _ hle _ => ?_
    exact ih (S := ⟨K, fun ρ => S.holds ρ ∧ s.tree ρ = t.tree ρ⟩)
      (h _ ⟨hle, fun _ h => h.1⟩ fun _ h => h.holds.2)

/-! ## Rounds -/

theorem keeps_update {σ : Subst}
    (hσ : ∀ v u, σ.lookup v = some u → K.free v ∧ u.Good K (K.role v)) :
    Keeps K (updateBy manner σ) fun _ _ => True := by
  refine Keeps.get_bind fun st hst => ?_
  cases hlast : st.lastType with
  | none => exact keeps_pure trivial
  | some t =>
    have ht := hst.lastType t hlast
    refine .substitute (catchesNone_of_good ht hσ) (.flatten (ht.substitute hσ) (keeps_modify
      fun st' hst' => ⟨⟨hst'.pending, hst'.numbers, hst'.seen⟩, hst'.numbered, fun _ h => ?_⟩))
    cases h
    exact (ht.substitute hσ).flatten

theorem keeps_closeOver {n : Nat} {type : Ty} (hn : K.free n) (htype : type.Good K (K.role n))
    (hne : type ≠ .var n) :
    Keeps K (closeOverBy manner n type) fun K' t => K'.free n ∧ t.Good K' (K'.role n) := by
  rw [closeOverBy]
  split
  case isFalse => exact keeps_pure ⟨hn, htype⟩
  case isTrue hmem =>
    refine (keeps_placeholder (K.role n)).bind fun K' p hle hp => ?_
    obtain ⟨hbound, hrole, hnew, hfree⟩ := hp
    refine .substitute (catchesNone_single fun q hq hp => hnew (Or.inr ?_)) (keeps_pure
      ⟨hle.free n hn, hle.role n (Or.inl hn) ▸
        (good_mu hle hnew hfree hbound hrole hn htype hne (List.contains_iff_mem.mp hmem)).1⟩)
    rw [free_var, List.mem_singleton] at hp
    exact hp ▸ htype.fits.bound_of_mem hq

/-- An equation and what is bound in it are good. -/
structure Replaceable (K : Census) (n : Nat) (t : Ty) (e : Equation) : Prop where
  free : K.free n
  good : t.Good K (K.role n)
  equation : GoodEquation K e

theorem Replaceable.mono {K' : Census} {n : Nat} {t : Ty} {e : Equation} (h : Replaceable K n t e)
    (hle : K.Le K') : Replaceable K' n t e :=
  ⟨hle.free n h.free, hle.role n (Or.inl h.free) ▸ h.good.mono hle, h.equation.mono hle⟩

/-- An equation is looked at in the light of what is bound. -/
theorem keeps_replacing (budget : Nat) {n : Nat} {t : Ty} {e : Equation} (h : Replaceable K n t e) :
    Keeps K (do
      let this ← manner.substitute [(n, t)] (.var e.var)
      let that ← manner.substitute [(n, t)] e.type
      equateBy manner budget this that) fun _ _ => True :=
  have hvar := good_var h.equation.free
  have hσ := good_lookup_single h.free h.good
  .substitute (catchesNone_of_good hvar hσ) (.substitute (catchesNone_of_good h.equation.good hσ)
    (keeps_equate budget (hvar.substitute hσ) (h.equation.good.substitute hσ)))

theorem keeps_note (line : String) : Keeps K (manner.plainly (note line)) fun _ _ => True :=
  keeps_modify (f := fun st => st.saying line) fun _ hst => ⟨⟨hst.pending, hst.numbers,
    fun key hkey => List.mem_cons_of_mem _ (hst.seen key hkey)⟩, hst.numbered, hst.lastType⟩

/-- **A pass over good equations loses and captures nothing.** -/
theorem keeps_pass (budget : Nat) {pending : List Equation}
    (h : ∀ e ∈ pending, GoodEquation K e) :
    Keeps K (passBy manner budget pending) fun _ _ => True := by
  rw [passBy]
  cases pending with
  | nil => exact keeps_update (by simp)
  | cons e others =>
    obtain ⟨hfirst, hothers⟩ := firstBinding_eq fun d hd => (h d hd).nontrivial
    rw [hfirst]
    dsimp only
    rw [hothers]
    have he := h e List.mem_cons_self
    refine (keeps_closeOver he.free he.good he.nontrivial).bind fun K₁ t hle₁ ht => ?_
    refine (keeps_note _).bind fun K₂ _ hle₂ _ => ?_
    have hall : ∀ d ∈ e :: others, Replaceable K₂ e.var t d := fun d hd =>
      ⟨hle₂.free _ ht.1, hle₂.role _ (Or.inl ht.1) ▸ ht.2.mono hle₂, ((h d hd).mono hle₁).mono hle₂⟩
    refine (Keeps.forM (Replaceable · e.var t) (fun hle h => h.mono hle)
      (fun _ _ => keeps_replacing budget) fun d hd => hall d (List.mem_cons_of_mem _ hd)).bind
      fun K₃ _ hle₃ _ => ?_
    have hbound := (hall e List.mem_cons_self).mono hle₃
    exact keeps_update (good_lookup_single hbound.free hbound.good)

/-- **A round loses and captures nothing**, however it ends. -/
theorem keeps_solveStep (budget : Nat) : Keeps K (solveStepBy manner budget) fun _ _ => True := by
  refine Keeps.get_bind fun st hst => ?_
  refine (keeps_modify (f := emptied) fun st' hst' => ⟨⟨by simp [emptied], hst'.numbers,
    by simp [emptied]⟩, hst'.numbered, hst'.lastType⟩).bind fun K₁ _ hle _ => ?_
  have hpending : ∀ e ∈ st.pending, GoodEquation K₁ e := fun e he => (hst.pending e he).mono hle
  refine (keeps_pass budget hpending).tryCatch fun K₂ e hle' => ?_
  cases e with
  | tooDeep => exact keeps_throw _
  | _ =>
    exact (keeps_modify (f := fun st' => st'.restoring st.pending) fun st' hst' =>
      ⟨⟨fun e he => (hpending e he).mono hle', hst'.numbers, hst'.seen⟩, hst'.numbered,
        hst'.lastType⟩).bind fun _ _ _ _ => keeps_throw _

/-! ## Queries -/

/-- Rounds of elimination one after the other, however they end, each with its own budget. -/
def rounds : List Nat → Working Logged Unit
  | [] => return
  | budget :: budgets => do
    tryCatch (solveStepBy manner budget) fun _ => return
    rounds budgets

/-- A program is typed as far as it goes, and rounds of elimination follow. -/
def query (budget : Nat) (e : Expr) (budgets : List Nat) : Working Logged Unit := do
  tryCatch (do
    let raw ← inferBy manner budget e
    manner.plainly (modify fun st => st.studying raw)) fun _ => return
  rounds budgets

end Logged

/-- The state after a program is typed as far as it goes. -/
def afterInfer (budget : Nat) (e : Expr) : Solver :=
  match (infer budget e).run {} with
  | (.ok raw, st) => st.studying raw
  | (.error _, st) => st

/-- The state after rounds of elimination, however they end. -/
def afterRounds (st : Solver) (budgets : List Nat) : Solver :=
  budgets.foldl (fun st budget => ((solveStep budget).run st).2) st

namespace Logged

theorem run_rounds : ∀ (budgets : List Nat) (l : Logged), ∃ l',
    (rounds budgets).run l = (.ok (), l') ∧
    l'.solver = afterRounds l.solver budgets
  | [], l => ⟨l, rfl, rfl⟩
  | budget :: budgets, l => by
    obtain ⟨mid, hstep, hmid⟩ := erases_solveStep budget l
    obtain ⟨l', hrest, hl'⟩ := run_rounds budgets mid
    refine ⟨l', ?_, by rw [hl', hmid]; rfl⟩
    rw [rounds, Run.run_bind, Run.run_tryCatch, hstep]
    cases hr : ((solveStep budget).run l.solver).1 with
    | ok _ => exact hrest
    | error e => exact hrest

/-- **A query leaves the state that it leaves without the account.** -/
theorem run_query (budget : Nat) (e : Expr) (budgets : List Nat) : ∃ l,
    (query budget e budgets).run ⟨{}, [], []⟩ = (.ok (), l) ∧
      l.solver = afterRounds (afterInfer budget e) budgets := by
  obtain ⟨mid, hinfer, hmid⟩ := erases_infer budget e ⟨{}, [], []⟩
  rw [query, Run.run_bind, Run.run_tryCatch, Run.run_bind, hinfer]
  rw [afterInfer]
  cases hr : (infer budget e).run {} with
  | mk result st =>
    obtain rfl : mid.solver = st := hmid.trans (congrArg Prod.snd hr)
    cases result with
    | ok raw => exact run_rounds budgets { mid with solver := mid.solver.studying raw }
    | error f => exact run_rounds budgets mid

theorem keeps_rounds : ∀ (budgets : List Nat) {K : Census}, Keeps K (rounds budgets) fun _ _ => True
  | [], _ => keeps_pure trivial
  | budget :: budgets, _ =>
    ((keeps_solveStep budget).tryCatch fun _ _ _ => keeps_pure trivial).bind
      fun _ _ _ _ => keeps_rounds budgets

theorem keeps_query (budget : Nat) {e : Expr} {S : Setting} (h : (e.deduce []).Safe (e.Found []) S)
    (budgets : List Nat) : Keeps S.toCensus (query budget e budgets) fun _ _ => True := by
  refine Keeps.bind (Keeps.tryCatch ((keeps_run budget h).bind (Q := fun _ _ => True) ?_)
    fun _ _ _ => keeps_pure trivial) fun _ _ _ _ => keeps_rounds budgets
  rintro K' raw hle ⟨S', rfl, hfound⟩
  refine keeps_modify fun st hst => ⟨⟨hst.pending, hst.numbers, hst.seen⟩, hst.numbered, ?_⟩
  intro t ht
  cases ht
  exact hfound.good

/-- What a query about a program without declared types does to types loses and captures nothing. -/
theorem clean_query (budget : Nat) {e : Expr} {S : Setting} (h : (e.deduce []).Safe (e.Found []) S)
    (hS : Orderly S.toCensus {}) (budgets : List Nat) :
    ((query budget e budgets).run ⟨{}, [], []⟩).2.Clean :=
  (keeps_query budget h budgets ⟨{}, [], []⟩ hS ⟨by simp, by simp⟩).1

/-- **No label is ever lost by flattening**: of all that a query about a program without declared
types flattens, whatever comes of it, no type has a label in two rows of one chain. -/
theorem flattens_lossless {budget : Nat} {e : Expr} (htidy : e.Tidy) (hun : e.Unascribed)
    (budgets : List Nat) : ∃ l, (query budget e budgets).run ⟨{}, [], []⟩ = (.ok (), l) ∧
      l.solver = afterRounds (afterInfer budget e) budgets ∧
      ∀ t ∈ l.flattened, t.Unshadowed ∧ t.flatten = t.joined := by
  obtain ⟨l, hrun, hsolver⟩ := run_query budget e budgets
  have hsafe := Expr.safe_deduce (S := beginning (e.labels ∪ Operator.labels)) htidy hun
    Finset.subset_union_left Finset.subset_union_right
  have hclean := clean_query budget hsafe
    ⟨kept_beginning _, trivial, fun t ht => by cases ht⟩ budgets
  rw [hrun] at hclean
  exact ⟨l, hrun, hsolver, hclean.flattened⟩

/-- A field taken of a record that has another one behind it. -/
def firstOfTwo : Expr :=
  .project (.record [("x", .number (.int 1)), ("y", .number (.int 2))]) "x"

/-- The tail of what is taken has the other field. -/
theorem flattens_lossless_of_project : ∃ l,
    (query depthLimit firstOfTwo [depthLimit]).run ⟨{}, [], []⟩ = (.ok (), l) ∧
      l.solver = afterRounds (afterInfer depthLimit firstOfTwo) [depthLimit] ∧
      ∀ t ∈ l.flattened, t.Unshadowed ∧ t.flatten = t.joined := by
  have hx : Label.Plain "x" := by decide
  have hfields : Row.Tidy [("x", Expr.number (.int 1)), ("y", .number (.int 2))] := by
    refine ⟨by simp [Row.Distinct], fun l hl => ?_⟩
    simp only [Row.labels_cons, Row.labels_nil, List.mem_cons, List.not_mem_nil, or_false] at hl
    rcases hl with rfl | rfl <;> decide
  exact flattens_lossless (e := firstOfTwo)
    ⟨⟨⟨Row.tidy_single hx _, trivial, trivial⟩, trivial⟩, hfields, trivial, trivial, trivial⟩
    ⟨trivial, trivial, trivial, trivial⟩ [depthLimit]

end Logged

end RowLang.Solver
