import RowLang.Solver.Basic

/-!
# Proofs/Run — operations that change a state and may fail

What the steps of an operation come to when it is run against a state, and the laws that operations
keep. Solving and evaluation are both of this kind: a failure leaves the state as it was when it
failed.
-/

namespace RowLang.Run

variable {ε σ α β : Type}

/-- One operation and then another one. -/
theorem run_bind (m : ExceptT ε (StateM σ) α) (f : α → ExceptT ε (StateM σ) β) (st : σ) :
    (m >>= f).run st = match m.run st with
      | (.ok x, st') => (f x).run st'
      | (.error e, st') => (.error e, st') := by
  show (ExceptT.bindCont f (m.run st).1) (m.run st).2 = _
  rcases m.run st with ⟨r, mid⟩
  cases r <;> rfl

/-- **What succeeds has steps that succeed.** -/
theorem run_bind_eq_ok {m : ExceptT ε (StateM σ) α} {f : α → ExceptT ε (StateM σ) β} {st st' : σ}
    {y : β} : (m >>= f).run st = (.ok y, st') ↔
      ∃ x mid, m.run st = (.ok x, mid) ∧ (f x).run mid = (.ok y, st') := by
  rw [run_bind]
  constructor
  · intro h
    cases hm : m.run st with
    | mk r mid =>
      rw [hm] at h
      cases r with
      | ok x => exact ⟨x, mid, rfl, h⟩
      | error e => cases h
  · rintro ⟨x, mid, hm, hf⟩
    rw [hm]
    exact hf

@[simp] theorem run_pure (x : α) (st : σ) :
    (pure x : ExceptT ε (StateM σ) α).run st = (.ok x, st) := rfl

@[simp] theorem run_throw (e : ε) (st : σ) :
    (throw e : ExceptT ε (StateM σ) α).run st = (.error e, st) := rfl

@[simp] theorem run_get (st : σ) : (get : ExceptT ε (StateM σ) σ).run st = (.ok st, st) := rfl

@[simp] theorem run_modify (f : σ → σ) (st : σ) :
    (modify f : ExceptT ε (StateM σ) PUnit).run st = (.ok ⟨⟩, f st) := rfl

@[simp] theorem run_fresh (st : Solver) :
    Solver.fresh.run st = (.ok st.counter, { st with counter := st.counter + 1 }) := rfl

/-- What succeeds is not caught. -/
theorem run_tryCatch (m : ExceptT ε (StateM σ) α) (f : ε → ExceptT ε (StateM σ) α) (st : σ) :
    (tryCatch m f).run st = match m.run st with
      | (.ok x, st') => (.ok x, st')
      | (.error e, st') => (f e).run st' := by
  simp only [tryCatch, tryCatchThe, MonadExceptOf.tryCatch, ExceptT.tryCatch, ExceptT.run_mk]
  rcases h : m.run st with ⟨r, mid⟩
  have hm : m st = (r, mid) := h
  simp only [bind, StateT.bind, hm]
  cases r <;> rfl

end RowLang.Run

/-!
## Laws that operations keep

A `Law` says what holds of the state before and after each operation, how a state may go on to a
later one, and how an operation may fail.  It is kept by an operation when all of that is so from
every state of which the law holds, and when the result, if there is one, is what it shall be
(`Law.Keeps`).
-/

namespace RowLang

/-- A law of operations that change a state and may fail. -/
structure Law (ε σ : Type) where
  /-- What holds of the state. -/
  holds : σ → Prop
  /-- How a state goes on to a later one. -/
  step : σ → σ → Prop := fun _ _ => True
  /-- How an operation fails. -/
  failure : ε → Prop := fun _ => True
  refl : ∀ s, step s s := by exact fun _ => trivial
  trans : ∀ {s s' s''}, step s s' → step s' s'' → step s s'' := by exact fun _ _ => trivial

namespace Law

variable {ε σ α β : Type} {L : Law ε σ} {post post' : α → Prop} {Q : β → Prop}

/-- What an operation comes to that keeps a law. -/
def Ends (L : Law ε σ) (s : σ) (post : α → Prop) : Except ε α × σ → Prop
  | (.ok x, s') => L.holds s' ∧ L.step s s' ∧ post x
  | (.error e, s') => L.holds s' ∧ L.step s s' ∧ L.failure e

/-- **An operation keeps a law.** -/
def Keeps (L : Law ε σ) (m : ExceptT ε (StateM σ) α) (post : α → Prop) : Prop :=
  ∀ s, L.holds s → L.Ends s post (m.run s)

theorem Ends.holds {s : σ} {r : Except ε α × σ} (h : L.Ends s post r) : L.holds r.2 := by
  rcases r with ⟨r, s'⟩
  cases r with
  | ok x => exact h.1
  | error e => exact h.1

theorem Ends.failure {s : σ} {r : Except ε α × σ} {e : ε} (h : L.Ends s post r)
    (he : r.1 = .error e) :
    L.failure e := by
  rcases r with ⟨r, s'⟩
  subst he
  exact h.2.2

theorem keeps_pure {x : α} (h : post x) : L.Keeps (pure x) post := fun s hs => ⟨hs, L.refl s, h⟩

theorem keeps_throw {e : ε} (h : L.failure e) : L.Keeps (throw e) post :=
  fun s hs => ⟨hs, L.refl s, h⟩

/-- What is kept after a step is kept. -/
theorem Ends.after {s s' : σ} {r : Except ε α × σ} (h : L.Ends s' post r) (hs : L.step s s') :
    L.Ends s post r := by
  rcases r with ⟨r, s''⟩
  cases r with
  | ok x => exact ⟨h.1, L.trans hs h.2.1, h.2.2⟩
  | error e => exact ⟨h.1, L.trans hs h.2.1, h.2.2⟩

theorem Keeps.bind {m : ExceptT ε (StateM σ) α} {f : α → ExceptT ε (StateM σ) β}
    (h : L.Keeps m post) (hf : ∀ x, post x → L.Keeps (f x) Q) : L.Keeps (m >>= f) Q := by
  intro s hs
  have hm := h s hs
  rw [Run.run_bind]
  split
  case h_1 x s' hrun =>
    rw [hrun] at hm
    exact (hf x hm.2.2 s' hm.1).after hm.2.1
  case h_2 e s' hrun =>
    rw [hrun] at hm
    exact hm

theorem Keeps.weaken {m : ExceptT ε (StateM σ) α} (h : L.Keeps m post)
    (hpost : ∀ x, post x → post' x) :
    L.Keeps m post' := by
  rw [← bind_pure m]
  exact h.bind fun x hx => keeps_pure (hpost x hx)

/-- An operation that looks at the state first. -/
theorem keeps_get {f : σ → ExceptT ε (StateM σ) β} (h : ∀ s, L.holds s → L.Keeps (f s) Q) :
    L.Keeps (get >>= f) Q := fun s hs => h s hs s hs

/-- An operation that changes the state only. -/
theorem keeps_modifyGet {f : σ → α × σ}
    (h : ∀ s, L.holds s → L.holds (f s).2 ∧ L.step s (f s).2 ∧ post (f s).1) :
    L.Keeps (modifyGet f) post := fun s hs => h s hs

/-- What is caught goes on as it may. -/
theorem Keeps.tryCatch {m : ExceptT ε (StateM σ) α} {handler : ε → ExceptT ε (StateM σ) α}
    (h : L.Keeps m post) (hhandler : ∀ e, L.failure e → L.Keeps (handler e) post) :
    L.Keeps (tryCatch m handler) post := by
  intro s hs
  have hm := h s hs
  rw [Run.run_tryCatch]
  split
  case h_1 x s' hrun => rwa [hrun] at hm
  case h_2 e s' hrun =>
    rw [hrun] at hm
    exact (hhandler e hm.2.2 s' hm.1).after hm.2.1

/-! ### Lists -/

theorem keeps_mapM {f : α → ExceptT ε (StateM σ) β} :
    ∀ {xs : List α}, (∀ x ∈ xs, L.Keeps (f x) Q) → L.Keeps (xs.mapM f) fun ys => ∀ y ∈ ys, Q y
  | [], _ => by
    rw [List.mapM_nil]
    exact keeps_pure fun _ h => absurd h List.not_mem_nil
  | x :: xs, h => by
    rw [List.mapM_cons]
    exact (h x List.mem_cons_self).bind fun y hy =>
      (keeps_mapM fun x hx => h x (List.mem_cons_of_mem _ hx)).bind fun ys hys =>
        keeps_pure (List.forall_mem_cons.mpr ⟨hy, hys⟩)

private theorem keeps_filterAuxM {f : α → ExceptT ε (StateM σ) Bool} :
    ∀ {xs acc : List α}, (∀ x ∈ acc, post x) → (∀ x ∈ xs, post x) →
      (∀ x ∈ xs, L.Keeps (f x) fun _ => True) →
      L.Keeps (List.filterAuxM f xs acc) fun ys => ∀ y ∈ ys, post y
  | [], acc, hacc, _, _ => by
    rw [List.filterAuxM]
    exact keeps_pure hacc
  | x :: xs, acc, hacc, hxs, h => by
    rw [List.filterAuxM]
    refine (h x List.mem_cons_self).bind fun b _ => ?_
    refine keeps_filterAuxM ?_ (fun y hy => hxs y (List.mem_cons_of_mem _ hy))
      fun y hy => h y (List.mem_cons_of_mem _ hy)
    cases b with
    | false => exact hacc
    | true => exact List.forall_mem_cons.mpr ⟨hxs x List.mem_cons_self, hacc⟩

/-- What is filtered has the properties that all had before. -/
theorem keeps_filterM {P : α → Prop} {f : α → ExceptT ε (StateM σ) Bool} {xs : List α}
    (hxs : ∀ x ∈ xs, P x) (h : ∀ x ∈ xs, L.Keeps (f x) fun _ => True) :
    L.Keeps (xs.filterM f) fun ys => ∀ y ∈ ys, P y := by
  rw [List.filterM]
  exact (keeps_filterAuxM (by simp) hxs h).bind fun ys hys =>
    keeps_pure fun y hy => hys y (List.mem_reverse.mp hy)

theorem keeps_foldlM {f : β → α → ExceptT ε (StateM σ) β} :
    ∀ {xs : List α} {y : β}, Q y → (∀ x ∈ xs, ∀ y, Q y → L.Keeps (f y x) Q) →
      L.Keeps (xs.foldlM f y) Q
  | [], y, hy, _ => by
    rw [List.foldlM_nil]
    exact keeps_pure hy
  | x :: xs, y, hy, h => by
    rw [List.foldlM_cons]
    exact (h x List.mem_cons_self y hy).bind fun z hz =>
      keeps_foldlM hz fun x hx => h x (List.mem_cons_of_mem _ hx)

end Law

end RowLang
