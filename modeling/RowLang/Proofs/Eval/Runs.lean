import RowLang.Proofs.Run
import RowLang.Proofs.Value.Typed

/-!
# Proofs/Eval/Runs — computations that do not go wrong

A world is sound when every record that is known is there, with initializers and computed values of
the trees of its fields (`World.Sound`).  A computation `Runs` when in every sound world it ends in
one, in which no less is known and its result is what it shall be, or fails in a way that no type
could have prevented (`Failure.Benign`).
-/

namespace RowLang

/-- A failure that no type could have prevented. -/
def Failure.Benign : Failure → Prop
  | .unboundName _ | .notAProcedure _ | .missingField .. | .unhandledTag _ => False
  | .refused _ f | .bare f => f.category ≠ .wrongType
  | _ => True

/-- The scope that the fields of a record are evaluated in. -/
def StoredRecord.inner (r : StoredRecord) (address : Nat) : Env :=
  if r.seesItself then r.scope.extend [("this", .record address)] else r.scope

/-- A record in the store has the fields that it is known to have. -/
structure StoredRecord.Sound (M : StoreType) (address : Nat) (f : Label → Option Tree)
    (r : StoredRecord) : Prop where
  labels : ∀ l, (f l).isSome ↔ l ∈ Row.labels r.row
  typed : ∃ Γ, Env.HasTrees M (r.inner address) Γ ∧
    ∀ p ∈ r.row, ∀ x, f p.1 = some x → p.2.initializer.expr.HasTree Γ x
  computed : ∀ p ∈ r.row, ∀ v x, f p.1 = some x → p.2.cell = .ready v → v.HasTree M x

/-- **A sound world**: every record that is known is there and sound, and the empty record that all
verdicts share is known. -/
structure World.Sound (M : StoreType) (w : World) : Prop where
  records : ∀ a f, M a = some f → ∃ r, w.records[a]? = some r ∧ r.Sound M a f
  shared : M Value.sharedEmpty = some fun _ => none

theorem Env.HasTrees.mono {M M' : StoreType} {env : Env} {Γ : TreeContext}
    (h : Env.HasTrees M env Γ) (hM : M.Le M') : Env.HasTrees M' env Γ := fun n x hx => by
  obtain ⟨v, hv, ht⟩ := h n x hx
  exact ⟨v, hv, ht.mono hM⟩

theorem StoredRecord.Sound.mono {M M' : StoreType} {a : Nat} {f : Label → Option Tree}
    {r : StoredRecord} (h : r.Sound M a f) (hM : M.Le M') : r.Sound M' a f where
  labels := h.labels
  typed := by
    obtain ⟨Γ, henv, ht⟩ := h.typed
    exact ⟨Γ, henv.mono hM, ht⟩
  computed p hp v x hx hv := (h.computed p hp v x hx hv).mono hM

/-- All that matters of a world is its records. -/
theorem World.Sound.of_records_eq {M : StoreType} {w w' : World} (h : w.Sound M)
    (he : w'.records = w.records) : w'.Sound M :=
  ⟨fun a f ha => he ▸ h.records a f ha, h.shared⟩

namespace Eval

variable {α β : Type} {M : StoreType} {post post' : StoreType → α → Prop}
  {post₂ : StoreType → β → Prop}

/-- What is the outcome of a computation that does not go wrong. -/
def Outcome (M : StoreType) (post : StoreType → α → Prop) : Except Failure α × World → Prop
  | (.ok x, w) => ∃ M', M.Le M' ∧ w.Sound M' ∧ post M' x
  | (.error e, _) => e.Benign

/-- **A computation does not go wrong** where the store holds what it is known to hold. -/
def Runs (M : StoreType) (m : Evaluating α) (post : StoreType → α → Prop) : Prop :=
  ∀ w : World, w.Sound M → Outcome M post (m.run w)

theorem runs_pure {x : α} (h : post M x) : Runs M (pure x) post := fun _ hw => ⟨M, .refl M, hw, h⟩

theorem runs_throw {e : Failure} (h : e.Benign) : Runs M (throw e) post := fun _ _ => h

theorem Runs.bind {m : Evaluating α} {f : α → Evaluating β} (h : Runs M m post)
    (hf : ∀ M' x, M.Le M' → post M' x → Runs M' (f x) post₂) : Runs M (m >>= f) post₂ := by
  intro w hw
  have hm := h w hw
  rw [Run.run_bind]
  split
  case h_1 x w' hrun =>
    rw [hrun] at hm
    obtain ⟨M', hM, hw', hx⟩ := hm
    have hn := hf M' x hM hx w' hw'
    revert hn
    rcases (f x).run w' with ⟨r, w''⟩
    cases r with
    | error e => exact id
    | ok y => exact fun ⟨M'', hM', hw'', hy⟩ => ⟨M'', hM.trans hM', hw'', hy⟩
  case h_2 e w' hrun =>
    rw [hrun] at hm
    exact hm

/-- A computation that looks at the world first. -/
theorem runs_get {f : World → Evaluating β} (h : ∀ w : World, w.Sound M → Runs M (f w) post₂) :
    Runs M (get >>= f) post₂ := fun w hw => h w hw w hw

/-- The empty record is known in every sound world. -/
theorem runs_of_shared {m : Evaluating α}
    (h : M Value.sharedEmpty = some (fun _ => none) → Runs M m post) : Runs M m post :=
  fun w hw => h hw.shared w hw

theorem runs_birth {f : Origin → Evaluating β} (h : ∀ o, Runs M (f o) post₂) :
    Runs M (World.birth >>= f) post₂ :=
  have hbirth : Runs M World.birth fun M' _ => M' = M := fun _ hw =>
    ⟨M, .refl M, hw.of_records_eq rfl, rfl⟩
  hbirth.bind fun _ o _ hM => hM ▸ h o

/-- How much room there is does not matter. -/
theorem runs_room {f : Nat → Evaluating β} (h : ∀ n, Runs M (f n) post₂) :
    Runs M (World.room >>= f) post₂ := fun w hw => h w.machine.room w hw

/-- A result that is what it shall be, or a fault that no type could have prevented. -/
def Yields (P : α → Prop) : Except Fault α → Prop
  | .ok x => P x
  | .error f => f.category ≠ .wrongType

theorem yields_error {P : α → Prop} {f : Fault} (h : f.category ≠ .wrongType) :
    Yields P (.error f) := h

theorem runs_faulty {r : Except Fault α} (h : Yields (post M) r) :
    Runs M (World.faulty r) post := by
  cases r with
  | ok x => exact runs_pure h
  | error f => exact runs_throw h

/-- The faults of an operator are told as its own. -/
theorem Runs.refusing {o : Operator} {m : Evaluating α} (h : Runs M m post) :
    Runs M (refusing o m) post := by
  intro w hw
  have hm := h w hw
  rw [Eval.refusing, Run.run_tryCatch]
  split
  case h_1 x w' hrun => rwa [hrun] at hm
  case h_2 e w' hrun =>
    rw [hrun] at hm
    split <;> exact hm

/-! ## Lists -/

/-- A property of values that stays when more records are known. -/
def Lasting (P : StoreType → α → Prop) : Prop := ∀ M M' x, P M x → M.Le M' → P M' x

theorem runs_mapM {P : StoreType → β → Prop} (hP : Lasting P) {f : α → Evaluating β} :
    ∀ {xs : List α} {M}, (∀ x ∈ xs, ∀ M', M.Le M' → Runs M' (f x) P) →
      Runs M (xs.mapM f) fun M' ys => ∀ y ∈ ys, P M' y
  | [], M, _ => by
    rw [List.mapM_nil]
    exact runs_pure (by simp)
  | x :: xs, M, h => by
    rw [List.mapM_cons]
    refine (h x List.mem_cons_self M (.refl M)).bind fun M₁ y hM₁ hy => ?_
    refine (runs_mapM hP fun x hx M' hM' => h x (List.mem_cons_of_mem _ hx) M'
      (hM₁.trans hM')).bind fun M₂ ys hM₂ hys => runs_pure fun z hz => ?_
    rcases List.mem_cons.mp hz with rfl | hz
    · exact hP M₁ M₂ z hy hM₂
    · exact hys z hz

private theorem runs_filterAuxM {f : α → Evaluating Bool} {Q : α → Prop} :
    ∀ {xs acc : List α} {M}, (∀ x ∈ acc, Q x) → (∀ x ∈ xs, Q x) →
      (∀ x ∈ xs, ∀ M', M.Le M' → Runs M' (f x) fun _ _ => True) →
      Runs M (List.filterAuxM f xs acc) fun _ ys => ∀ y ∈ ys, Q y
  | [], acc, M, hacc, _, _ => by
    rw [List.filterAuxM]
    exact runs_pure hacc
  | x :: xs, acc, M, hacc, hxs, h => by
    rw [List.filterAuxM]
    refine (h x List.mem_cons_self M (.refl M)).bind fun M₁ b hM₁ _ => ?_
    refine runs_filterAuxM ?_ (fun y hy => hxs y (List.mem_cons_of_mem _ hy))
      fun y hy M' hM' => h y (List.mem_cons_of_mem _ hy) M' (hM₁.trans hM')
    cases b with
    | false => exact hacc
    | true =>
      intro y hy
      rcases List.mem_cons.mp hy with rfl | hy
      · exact hxs y List.mem_cons_self
      · exact hacc y hy

/-- What is filtered has the properties that all had before. -/
theorem runs_filterM {f : α → Evaluating Bool} {Q : α → Prop} {xs : List α} (hxs : ∀ x ∈ xs, Q x)
    (h : ∀ x ∈ xs, ∀ M', M.Le M' → Runs M' (f x) fun _ _ => True) :
    Runs M (xs.filterM f) fun _ ys => ∀ y ∈ ys, Q y := by
  rw [List.filterM]
  refine (runs_filterAuxM (by simp) hxs h).bind fun M' ys _ hys => runs_pure fun y hy => ?_
  exact hys y (List.mem_reverse.mp hy)

theorem runs_foldlM {P : StoreType → β → Prop} {f : β → α → Evaluating β} :
    ∀ {xs : List α} {M y}, P M y → (∀ x ∈ xs, ∀ M' y, M.Le M' → P M' y → Runs M' (f y x) P) →
      Runs M (xs.foldlM f y) P
  | [], M, y, hy, _ => by
    rw [List.foldlM_nil]
    exact runs_pure hy
  | x :: xs, M, y, hy, h => by
    rw [List.foldlM_cons]
    exact (h x List.mem_cons_self M y (.refl M) hy).bind fun M₁ z hM₁ hz =>
      runs_foldlM hz fun x hx M' y hM' => h x (List.mem_cons_of_mem _ hx) M' y (hM₁.trans hM')

end Eval

end RowLang
