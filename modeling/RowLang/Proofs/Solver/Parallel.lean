import RowLang.Proofs.Solver.Parts
import RowLang.Proofs.Solver.Key
import RowLang.Proofs.Solver.Round
import RowLang.Proofs.Ty.Rename

/-!
# Proofs/Solver/Parallel — two solvers side by side, with other numbers for the variables

A solver does the same with its variables under other numbers, as long as no two get one number.
Two states go `Alongside` each other when all that the one has seen and has pending the other has
under the other numbers, and fresh variables get numbers that correspond; two operations are
`Parallel` when from such states they both fail or both come to such states.  Every operation of the
solver is parallel to itself with its types renamed.
-/

namespace RowLang.Solver

open Ty

variable {P : Nat → Prop} {ρ : Nat → Nat} {α β γ δ : Type}

/-- A type with readable labels whose variables are below a bound and among those that are kept
apart. -/
structure Proper (P : Nat → Prop) (c : Nat) (t : Ty) : Prop where
  tidy : t.Tidy
  numbers : t.Over fun n => P n ∧ n < c

theorem Proper.mono {c c' : Nat} {t : Ty} (h : Proper P c t) (hc : c ≤ c') : Proper P c' t :=
  ⟨h.tidy, h.numbers.mono fun _ hn => ⟨hn.1, hn.2.trans_le hc⟩⟩

theorem Proper.apart {c : Nat} {t : Ty} (h : Proper P c t) : t.Over P :=
  h.numbers.mono fun _ hn => hn.1

theorem Proper.lt_of_mem_free {c : Nat} {t : Ty} (h : Proper P c t) : ∀ v ∈ t.free, v < c :=
  fun _ hv => (h.numbers.of_mem_free hv).2

theorem Proper.lt_of_mem_binders {c : Nat} {t : Ty} (h : Proper P c t) : ∀ q ∈ t.binders, q < c :=
  fun _ hq => (h.numbers.of_mem_binders hq).2

theorem Proper.flatten {c : Nat} {t : Ty} (h : Proper P c t) : Proper P c t.flatten :=
  ⟨h.tidy.flatten, h.numbers.flatten⟩

theorem Proper.substitute {c : Nat} {t : Ty} (h : Proper P c t) {σ : Subst}
    (hσ : ∀ v u, σ.lookup v = some u → Proper P c u) : Proper P c (t.substitute σ) :=
  ⟨h.tidy.substitute fun v u hu => (hσ v u hu).tidy,
    h.numbers.substitute fun v u hu => (hσ v u hu).numbers⟩

theorem proper_row {c : Nat} {k : RowKind} {fields : Row Ty} {tail : Ty} :
    Proper P c (.row k fields tail) ↔
      Row.Tidy fields ∧ (∀ p ∈ fields, Proper P c p.2) ∧ Proper P c tail := by
  constructor
  · intro h
    obtain ⟨hd, hf, ht⟩ := tidy_row.mp h.tidy
    obtain ⟨hof, hot⟩ := over_row.mp h.numbers
    exact ⟨hd, fun p hp => ⟨hf p hp, hof p hp⟩, ht, hot⟩
  · rintro ⟨hd, hf, ht⟩
    exact ⟨tidy_row.mpr ⟨hd, fun p hp => (hf p hp).tidy, ht.tidy⟩,
      over_row.mpr ⟨fun p hp => (hf p hp).numbers, ht.numbers⟩⟩

/-- The equation of the variables under other numbers. -/
def renamed (ρ : Nat → Nat) (e : Equation) : Equation := .of (ρ e.var) (e.type.rename ρ)

theorem renamed_eq_self {e : Equation} (hvar : ρ e.var = e.var) (htype : e.type.rename ρ = e.type) :
    renamed ρ e = e := by
  rw [renamed, hvar, htype]
  obtain ⟨n, t, key, hkey⟩ := e
  subst hkey
  rfl

/-- An equation of a variable below a bound and a proper type. -/
structure ProperEquation (P : Nat → Prop) (c : Nat) (e : Equation) : Prop where
  var : P e.var
  lt : e.var < c
  type : Proper P c e.type

theorem ProperEquation.mono {c c' : Nat} {e : Equation} (h : ProperEquation P c e) (hc : c ≤ c') :
    ProperEquation P c' e := ⟨h.var, h.lt.trans_le hc, h.type.mono hc⟩

/-! ## States and operations -/

/-- **Two states side by side.** -/
structure Alongside (P : Nat → Prop) (ρ : Nat → Nat) (st st' : Solver) : Prop where
  visited : ∃ seen : List (Ty × Ty),
    (∀ p ∈ seen, Proper P st.counter p.1 ∧ Proper P st.counter p.2) ∧
      st.visited = seen.map (fun p => equalityKey p.1 p.2) ∧
      st'.visited = seen.map fun p => equalityKey (p.1.rename ρ) (p.2.rename ρ)
  proper : ∀ e ∈ st.pending, ProperEquation P st.counter e
  pending : st'.pending = st.pending.map (renamed ρ)
  fresh : ∀ n, st.counter ≤ n → P n ∧ ρ n + st.counter = n + st'.counter

/-- The same failure under other numbers.  What is said of an endless unfolding need not be the
same. -/
inductive SameFailure (P : Nat → Prop) (ρ : Nat → Nat) : TypeFailure → TypeFailure → Prop
  | unbound (name) : SameFailure P ρ (.unbound name) (.unbound name)
  | mismatch {s t} (hs : s.Over P) (ht : t.Over P) :
    SameFailure P ρ (.mismatch s t) (.mismatch (s.rename ρ) (t.rename ρ))
  | unwritable (why) : SameFailure P ρ (.unwritable why) (.unwritable why)
  | endlessUnfolding (key key') : SameFailure P ρ (.endlessUnfolding key) (.endlessUnfolding key')
  | tooManyPasses : SameFailure P ρ .tooManyPasses .tooManyPasses
  | tooDeep : SameFailure P ρ .tooDeep .tooDeep

/-- Both have failed for the same reason, or both have come to states side by side. -/
def Ends (P : Nat → Prop) (ρ : Nat → Nat) (c : Nat) (post : Nat → α → β → Prop) :
    Except TypeFailure α × Solver → Except TypeFailure β × Solver → Prop
  | (.ok x, st), (.ok y, st') => Alongside P ρ st st' ∧ c ≤ st.counter ∧ post st.counter x y
  | (.error e, _), (.error e', _) => SameFailure P ρ e e'
  | _, _ => False

theorem Ends.weaken {c c' : Nat} {post : Nat → α → β → Prop} {r : Except TypeFailure α × Solver}
    {r' : Except TypeFailure β × Solver} (h : Ends P ρ c' post r r') (hc : c ≤ c') :
    Ends P ρ c post r r' := by
  obtain ⟨x | x, st⟩ := r <;> obtain ⟨y | y, st'⟩ := r'
  · exact h
  · exact h.elim
  · exact h.elim
  · exact ⟨h.1, hc.trans h.2.1, h.2.2⟩

/-- **Two operations side by side**, on states whose variables are numbered up to `c` at least. -/
def Parallel (P : Nat → Prop) (ρ : Nat → Nat) (c : Nat) (post : Nat → α → β → Prop) (m : Solving α)
    (m' : Solving β) : Prop :=
  ∀ st st', Alongside P ρ st st' → c ≤ st.counter → Ends P ρ st.counter post (m.run st) (m'.run st')

/-- Nothing is to be shown of what is found. -/
def Whatever (_ : Nat) (_ : α) (_ : β) : Prop := True

variable {c : Nat} {post : Nat → α → β → Prop} {post' : Nat → γ → δ → Prop}

theorem parallel_pure {x : α} {y : β} (h : ∀ c', c ≤ c' → post c' x y) :
    Parallel P ρ c post (pure x) (pure y) := fun _ _ hst hc => ⟨hst, le_rfl, h _ hc⟩

theorem parallel_throw {e e' : TypeFailure} (h : SameFailure P ρ e e') :
    Parallel P ρ c post (throw e) (throw e') := fun _ _ _ _ => h

theorem Parallel.bind {m : Solving α} {m' : Solving β} {f : α → Solving γ} {f' : β → Solving δ}
    (h : Parallel P ρ c post m m')
    (hf : ∀ c' x y, c ≤ c' → post c' x y → Parallel P ρ c' post' (f x) (f' y)) :
    Parallel P ρ c post' (m >>= f) (m' >>= f') := by
  intro st st' hst hc
  have hm := h st st' hst hc
  rw [Run.run_bind, Run.run_bind]
  cases hr : m.run st with
  | mk r mid =>
    cases hr' : m'.run st' with
    | mk r' mid' =>
      rw [hr, hr'] at hm
      cases r with
      | error e => cases r' with
        | error e' => exact hm
        | ok y => exact hm.elim
      | ok x => cases r' with
        | error e' => exact hm.elim
        | ok y =>
          obtain ⟨hmid, hle, hxy⟩ := hm
          exact (hf mid.counter x y (hc.trans hle) hxy mid mid' hmid le_rfl).weaken hle

theorem Parallel.forM {f : γ → Solving Unit} {g : γ → γ} {l : List γ} (good : Nat → γ → Prop)
    (hmono : ∀ {c c' x}, c ≤ c' → good c x → good c' x)
    (h : ∀ c x, good c x → Parallel P ρ c Whatever (f x) (f (g x))) :
    ∀ {c}, (∀ x ∈ l, good c x) → Parallel P ρ c Whatever (l.forM f) ((l.map g).forM f) := by
  induction l with
  | nil => exact fun _ => parallel_pure fun _ _ => trivial
  | cons x xs ih =>
    intro c hxs
    exact (h c x (hxs x List.mem_cons_self)).bind fun c' _ _ hc _ =>
      ih fun y hy => hmono hc (hxs y (List.mem_cons_of_mem _ hy))

/-- A change that touches neither the variables nor the equations. -/
theorem parallel_modify {f f' : Solver → Solver}
    (hf : ∀ st, (f st).counter = st.counter ∧ (f st).visited = st.visited ∧
      (f st).pending = st.pending)
    (hf' : ∀ st, (f' st).counter = st.counter ∧ (f' st).visited = st.visited ∧
      (f' st).pending = st.pending) : Parallel P ρ c Whatever (modify f) (modify f') := by
  intro st st' hst _
  obtain ⟨hcount, hseen, hpending⟩ := hf st
  obtain ⟨hcount', hseen', hpending'⟩ := hf' st'
  refine ⟨⟨?_, ?_, ?_, ?_⟩, hcount.ge, trivial⟩
  · rw [hcount, hseen, hseen']
    exact hst.visited
  · rw [hcount, hpending]
    exact hst.proper
  · rw [hpending, hpending']
    exact hst.pending
  · rw [hcount, hcount']
    exact hst.fresh

theorem parallel_note (line line' : String) : Parallel P ρ c Whatever (note line) (note line') :=
  parallel_modify (fun _ => ⟨rfl, rfl, rfl⟩) fun _ => ⟨rfl, rfl, rfl⟩

/-- **Fresh variables correspond.** -/
theorem parallel_fresh :
    Parallel P ρ c (fun c' n n' => n' = ρ n ∧ P n ∧ n < c') fresh fresh := by
  intro st st' hst _
  obtain ⟨hP, hnumber⟩ := hst.fresh st.counter le_rfl
  obtain ⟨seen, hproper, hseen, hseen'⟩ := hst.visited
  have hle : st.counter ≤ st.counter + 1 := Nat.le_succ _
  refine ⟨⟨⟨seen, fun p hp => ⟨(hproper p hp).1.mono hle, (hproper p hp).2.mono hle⟩,
    hseen, hseen'⟩,
    fun e he => (hst.proper e he).mono hle, hst.pending, fun n hn => ?_⟩, hle, ?_, hP,
      Nat.lt_succ_self _⟩
  · obtain ⟨hPn, hn'⟩ := hst.fresh n (Nat.le_of_succ_le hn)
    exact ⟨hPn, by show ρ n + (st.counter + 1) = n + (st'.counter + 1); omega⟩
  · omega

/-! ## Keys -/

section

variable (hρ : KeepsApart P ρ)
include hρ

theorem equalityKey_rename_iff {c c' : Nat} {s t s' t' : Ty} (hs : Proper P c s) (ht : Proper P c t)
    (hs' : Proper P c' s') (ht' : Proper P c' t') :
    equalityKey (s.rename ρ) (t.rename ρ) = equalityKey (s'.rename ρ) (t'.rename ρ) ↔
      equalityKey s t = equalityKey s' t' := by
  have hleft := text_rename_iff hρ hs.tidy hs'.tidy hs.apart hs'.apart
  have hright := text_rename_iff hρ ht.tidy ht'.tidy ht.apart ht'.apart
  constructor
  · intro h
    obtain ⟨h₁, h₂⟩ := text_eq_of_equalityKey_eq hs.tidy.rename hs'.tidy.rename h
    rw [equalityKey, equalityKey, hleft.mp h₁, hright.mp h₂]
  · intro h
    obtain ⟨h₁, h₂⟩ := text_eq_of_equalityKey_eq hs.tidy hs'.tidy h
    rw [equalityKey, equalityKey, hleft.mpr h₁, hright.mpr h₂]

theorem key_renamed_iff {c c' : Nat} {d e : Equation} (hd : ProperEquation P c d)
    (he : ProperEquation P c' e) : (renamed ρ d).key = (renamed ρ e).key ↔ d.key = e.key := by
  have htext := text_rename_iff hρ hd.type.tidy he.type.tidy hd.type.apart he.type.apart
  constructor
  · intro h
    obtain ⟨h₁, h₂⟩ := Equation.text_eq_of_key_eq h
    rw [d.key_eq, e.key_eq, hρ _ _ hd.var he.var h₁, htext.mp h₂]
  · intro h
    obtain ⟨h₁, h₂⟩ := Equation.text_eq_of_key_eq h
    rw [(renamed ρ d).key_eq, (renamed ρ e).key_eq]
    show String.ofList (ownName (ρ d.var)) ++ " = " ++ (d.type.rename ρ).text
      = String.ofList (ownName (ρ e.var)) ++ " = " ++ (e.type.rename ρ).text
    rw [h₁, htext.mpr h₂]

theorem post_renamed {c : Nat} {ds : List Equation} {e : Equation}
    (hds : ∀ d ∈ ds, ProperEquation P c d) (he : ProperEquation P c e) :
    Equation.post (ds.map (renamed ρ)) (renamed ρ e) = (Equation.post ds e).map (renamed ρ) := by
  induction ds with
  | nil => rfl
  | cons d ds ih =>
    have ih := ih fun d' hd' => hds d' (List.mem_cons_of_mem _ hd')
    have hkey := key_renamed_iff hρ (hds d List.mem_cons_self) he
    rw [List.map_cons, Equation.post, Equation.post]
    split
    case isTrue h => rw [if_pos (hkey.mp h), List.map_cons]
    case isFalse h => rw [if_neg fun h' => h (hkey.mpr h'), List.map_cons, ih]

/-- **The memo of the one state has an equality just when that of the other has it renamed.** -/
theorem Alongside.mem_visited_iff {st st' : Solver} (h : Alongside P ρ st st') {s t : Ty}
    (hs : Proper P st.counter s) (ht : Proper P st.counter t) :
    equalityKey (s.rename ρ) (t.rename ρ) ∈ st'.visited ↔ equalityKey s t ∈ st.visited := by
  obtain ⟨seen, hproper, hseen, hseen'⟩ := h.visited
  rw [hseen, hseen', List.mem_map, List.mem_map]
  exact exists_congr fun p => and_congr_right fun hp =>
    equalityKey_rename_iff hρ (hproper p hp).1 (hproper p hp).2 hs ht

theorem Alongside.posting {st st' : Solver} (h : Alongside P ρ st st') {n : Nat} {t : Ty} (hn : P n)
    (hlt : n < st.counter) (ht : Proper P st.counter t) :
    Alongside P ρ (st.posting n t) (st'.posting (ρ n) (t.rename ρ)) where
  visited := h.visited
  proper e he := by
    rcases Equation.mem_post he with rfl | he
    · exact ⟨hn, hlt, ht⟩
    · exact h.proper e he
  pending := by
    show Equation.post st'.pending (renamed ρ (.of n t)) = _
    rw [h.pending, post_renamed hρ h.proper (c := st.counter) ⟨hn, hlt, ht⟩]
    rfl
  fresh := h.fresh

end

theorem Alongside.noting {st st' : Solver} (h : Alongside P ρ st st') {s t : Ty}
    (hs : Proper P st.counter s) (ht : Proper P st.counter t) :
    Alongside P ρ (st.noting (equalityKey s t))
      (st'.noting (equalityKey (s.rename ρ) (t.rename ρ))) where
  visited := by
    obtain ⟨seen, hproper, hseen, hseen'⟩ := h.visited
    refine ⟨(s, t) :: seen, fun p hp => ?_, congrArg (_ :: ·) hseen, congrArg (_ :: ·) hseen'⟩
    rcases List.mem_cons.mp hp with rfl | hp
    · exact ⟨hs, ht⟩
    · exact hproper p hp
  proper := h.proper
  pending := h.pending
  fresh := h.fresh

theorem Alongside.emptied {st st' : Solver} (h : Alongside P ρ st st') :
    Alongside P ρ st.emptied st'.emptied where
  visited := ⟨[], by simp, rfl, rfl⟩
  proper e he := by cases he
  pending := rfl
  fresh := h.fresh

/-! ## Outcomes -/

/-- A task with its variables under other numbers. -/
def Task.rename (ρ : Nat → Nat) : Task → Task
  | .agree s t => .agree (s.rename ρ) (t.rename ρ)
  | .meet k fields tail others tail' =>
    .meet k (Row.mapValues (Ty.rename ρ) fields) (tail.rename ρ)
      (Row.mapValues (Ty.rename ρ) others) (tail'.rename ρ)

/-- An outcome with its variables under other numbers. -/
def Outcome.rename (ρ : Nat → Nat) : Outcome → Outcome
  | .defer n t => .defer (ρ n) (t.rename ρ)
  | .reopen => .reopen
  | .clash => .clash
  | .split tasks => .split (tasks.map (Task.rename ρ))

theorem sharedTasks_cons (p : Label × Ty) (fields others : Row Ty) :
    sharedTasks (p :: fields) others
      = ((others.lookup p.1).map fun t => .agree p.2 t).toList ++ sharedTasks fields others := by
  rw [sharedTasks, Row.intersect, List.filterMap_cons, Row.get?]
  cases List.lookup p.1 others <;> rfl

theorem sharedTasks_rename (fields others : Row Ty) :
    sharedTasks (Row.mapValues (Ty.rename ρ) fields) (Row.mapValues (Ty.rename ρ) others)
      = (sharedTasks fields others).map (Task.rename ρ) := by
  induction fields with
  | nil => rfl
  | cons p fields ih =>
    rw [show Row.mapValues (Ty.rename ρ) (p :: fields)
        = (p.1, p.2.rename ρ) :: Row.mapValues (Ty.rename ρ) fields from rfl,
      sharedTasks_cons, sharedTasks_cons, ih, List.map_append, Row.lookup_mapValues]
    cases List.lookup p.1 others <;> rfl

theorem tailTasks_rename (k : RowKind) (fields others : Row Ty) (tail tail' : Ty) :
    tailTasks k (Row.mapValues (Ty.rename ρ) fields) (Row.mapValues (Ty.rename ρ) others)
      (tail.rename ρ) (tail'.rename ρ)
      = (tailTasks k fields others tail tail').map (Task.rename ρ) := by
  rw [tailTasks, tailTasks, Row.difference_mapValues, Row.difference_mapValues]
  cases hthis : Row.difference id fields others with
  | nil =>
    cases hthat : Row.difference id others fields with
    | nil => rfl
    | cons q qs => simp [Row.mapValues, Task.rename, rename_row]
  | cons p ps =>
    cases hthat : Row.difference id others fields with
    | nil => simp [Row.mapValues, Task.rename, rename_row]
    | cons q qs => simp [Row.mapValues, Task.rename]

/-- **What two types come to commutes with a renaming** that keeps their variables apart. -/
theorem outcome_rename (hρ : KeepsApart P ρ) {s t : Ty} (hs : s.Over P) (ht : t.Over P) :
    outcome (s.rename ρ) (t.rename ρ) = (outcome s t).rename ρ := by
  cases s with
  | var m =>
    cases t with
    | var n =>
      show (if ρ m = ρ n then _ else _) = Outcome.rename ρ (if m = n then _ else _)
      by_cases h : m = n
      · rw [if_pos h, if_pos (congrArg ρ h)]
        rfl
      · rw [if_neg h, if_neg fun h' => h (hρ _ _ hs ht h')]
        rfl
    | _ => rfl
  | row k fields tail =>
    cases t with
    | row k' others tail' =>
      rw [rename_row, rename_row]
      show (if k = k' then _ else _) = Outcome.rename ρ (if k = k' then _ else _)
      split
      · rw [sharedTasks_rename, tailTasks_rename, ← List.map_append]
        rfl
      · rfl
    | _ => rfl
  | _ =>
    cases t with
    | _ => rfl

end RowLang.Solver
