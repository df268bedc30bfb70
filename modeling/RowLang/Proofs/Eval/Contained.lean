import RowLang.Eval.Basic
import RowLang.Proofs.Eval.Store
import RowLang.Proofs.Run

/-!
# Proofs/Eval/Contained — what evaluation leaves as it was, and how it fails

An evaluation that succeeds has reported nothing and taken back nothing: the records have the labels
that they had, and what was computed stays computed (`World.Keeps`).  One that fails has reported
one issue at most.  A computation is `Contained` when it is so in all worlds that keep what a given
one has, and its bare faults, those that no operator takes the blame for, are of a given sort.
-/

namespace RowLang

/-! ## What stays -/

/-- What a world has, a later one has. -/
structure World.Keeps (w w' : World) : Prop where
  report : w'.report = w.report
  labels : ∀ a, ∀ l ∈ Row.labels (w.row a), l ∈ Row.labels (w'.row a)
  ready : ∀ a l v, (w.row a).access l = .ready v → (w'.row a).access l = .ready v

namespace World

variable {w w' w'' : World} {a : Nat} {l : Label}

theorem Keeps.refl (w : World) : w.Keeps w := ⟨rfl, fun _ _ h => h, fun _ _ _ h => h⟩

theorem Keeps.trans (h : w.Keeps w') (h' : w'.Keeps w'') : w.Keeps w'' where
  report := h'.report.trans h.report
  labels b k hk := h'.labels b k (h.labels b k hk)
  ready b k v hv := h'.ready b k v (h.ready b k v hv)

/-- Only the records and the report count. -/
theorem Keeps.of_records_eq (h : w.Keeps w') (hrecords : w''.records = w'.records)
    (hreport : w''.report = w'.report) : w.Keeps w'' where
  report := hreport.trans h.report
  labels b k hk := by
    rw [row, hrecords]
    exact h.labels b k hk
  ready b k v hv := by
    rw [row, hrecords]
    exact h.ready b k v hv

/-- A new record stands behind the others. -/
theorem keeps_push (w : World) (r : StoredRecord) :
    w.Keeps { w with records := w.records.push r } := by
  have hrow : ∀ b, b < w.records.size → World.row { w with records := w.records.push r } b =
    w.row b := by
    intro b hb
    simp only [row, Array.getElem?_push_lt hb, Array.getElem?_eq_getElem hb]
  have hnone : ∀ b, ¬ b < w.records.size → w.row b = [] := by
    intro b hb
    rw [row, Array.getElem?_eq_none (Nat.le_of_not_lt hb)]
    rfl
  refine ⟨rfl, fun b k hk => ?_, fun b k v hv => ?_⟩ <;> by_cases hb : b < w.records.size
  · rwa [hrow b hb]
  · rw [hnone b hb] at hk
    cases hk
  · rwa [hrow b hb]
  · rw [hnone b hb] at hv
    cases hv

end World

/-! ## Cells -/

namespace World

variable {w w' : World} {a : Nat} {l : Label} {c : Cell Value}

/-- The world with another cell for a field. -/
def setCell (w : World) (a : Nat) (l : Label) (c : Cell Value) : World :=
  { w with records := w.records.modify a fun r => { r with row := r.row.setCell l c } }

@[simp] theorem report_setCell : (w.setCell a l c).report = w.report := rfl

theorem row_setCell (w : World) (a : Nat) (l : Label) (c : Cell Value) (b : Nat) :
    (w.setCell a l c).row b = if a = b then (w.row b).setCell l c else w.row b := by
  rw [row, setCell, Array.getElem?_modify]
  split
  · subst a
    cases h : w.records[b]? <;> simp [row, h, LazyRow.setCell]
  · rfl

/-- **A cell may be changed whose value was not computed before.** -/
theorem Keeps.setCell (h : w.Keeps w') (hl : ∀ v, (w.row a).access l ≠ .ready v) :
    w.Keeps (w'.setCell a l c) where
  report := h.report
  labels b k hk := by
    have := h.labels b k hk
    rw [row_setCell]
    split
    · rwa [LazyRow.labels_setCell]
    · exact this
  ready b k v hv := by
    have := h.ready b k v hv
    rw [row_setCell]
    split
    case isFalse => exact this
    case isTrue he =>
      subst he
      rwa [LazyRow.access_setCell_of_ne]
      rintro rfl
      exact hl v hv

end World

/-! ## How evaluation fails -/

/-- A failure with a bare fault of some sort, or with an issue too many for a limit. -/
def Failure.Within (Q : Fault → Prop) (limit : Nat) : Failure → Prop
  | .bare f => Q f
  | .tooManyIssues => limit = 1
  | _ => True

theorem Failure.Within.mono {Q Q' : Fault → Prop} {limit : Nat} {e : Failure} (h : e.Within Q limit)
    (hQ : ∀ f, Q f → Q' f) : e.Within Q' limit := by
  cases e with
  | bare f => exact hQ f h
  | _ => exact h

namespace Eval

variable {α β : Type} {Q Q' : Fault → Prop} {w : World} {post post' : World → α → Prop}
  {post₂ : World → β → Prop}

/-- What an evaluation comes to that leaves the world as it was, or reports one issue and fails. -/
def Ends (Q : Fault → Prop) (w : World) (post : World → α → Prop) : Except Failure α × World → Prop
  | (.ok x, w') => w.Keeps w' ∧ post w' x
  | (.error e, w') =>
    w'.report.limit = w.report.limit ∧ w'.report.issues.length ≤ 1 ∧ e.Within Q w.report.limit

/-- **An evaluation leaves things as they were** in all worlds that keep what a given one has. -/
def Contained (Q : Fault → Prop) (w : World) (m : Evaluating α) (post : World → α → Prop) : Prop :=
  ∀ w' : World, w.Keeps w' → w'.report.issues = [] → Ends Q w' post (m.run w')

theorem contained_pure {x : α} (h : ∀ w', w.Keeps w' → post w' x) : Contained Q w (pure x) post :=
  fun w' hw _ => ⟨.refl w', h w' hw⟩

theorem contained_throw {e : Failure} (h : ∀ limit, e.Within Q limit) :
    Contained Q w (throw e : Evaluating α) post := fun _ _ hi => ⟨rfl, by simp [hi], h _⟩

theorem Contained.bind {m : Evaluating α} {f : α → Evaluating β} (h : Contained Q w m post)
    (hf : ∀ w' x, w.Keeps w' → post w' x → Contained Q w' (f x) post₂) :
    Contained Q w (m >>= f) post₂ := by
  intro w₀ hw hi
  have hm := h w₀ hw hi
  rw [Run.run_bind]
  split
  case h_1 x w₁ hrun =>
    rw [hrun] at hm
    obtain ⟨hkeeps, hx⟩ := hm
    have hn := hf w₁ x (hw.trans hkeeps) hx w₁ (.refl w₁) (hkeeps.report ▸ hi)
    revert hn
    rcases (f x).run w₁ with ⟨r, w₂⟩
    cases r with
    | error e => exact fun ⟨hlimit, hissues, he⟩ =>
        ⟨hlimit.trans (congrArg _ hkeeps.report), hissues, hkeeps.report ▸ he⟩
    | ok y => exact fun ⟨hkeeps', hy⟩ => ⟨hkeeps.trans hkeeps', hy⟩
  case h_2 e w₁ hrun =>
    rw [hrun] at hm
    exact hm

theorem Contained.weaken {m : Evaluating α} (h : Contained Q w m post) (hQ : ∀ f, Q f → Q' f)
    (hpost : ∀ w' x, w.Keeps w' → post w' x → post' w' x) : Contained Q' w m post' := by
  intro w₀ hw hi
  have hm := h w₀ hw hi
  revert hm
  rcases m.run w₀ with ⟨r, w₁⟩
  cases r with
  | error e => exact fun ⟨hlimit, hissues, he⟩ => ⟨hlimit, hissues, he.mono hQ⟩
  | ok x => exact fun ⟨hkeeps, hx⟩ => ⟨hkeeps, hpost w₁ x (hw.trans hkeeps) hx⟩

/-- A computation that looks at the world first. -/
theorem contained_get {f : World → Evaluating β}
    (h : ∀ w', w.Keeps w' → Contained Q w' (f w') post₂) :
    Contained Q w (get >>= f) post₂ := fun w' hw hi => h w' hw w' (.refl w') hi

/-- A change of what does not count. -/
theorem contained_modifyGet {f : World → α × World} (h : ∀ w : World, w.Keeps (f w).2) :
    Contained Q w (modifyGet f : Evaluating α) fun _ _ => True := fun w' _ _ => ⟨h w', trivial⟩

theorem contained_birth : Contained Q w World.birth fun _ _ => True :=
  contained_modifyGet fun w => (World.Keeps.refl w).of_records_eq rfl rfl

theorem contained_allocate (r : StoredRecord) : Contained Q w (World.allocate r) fun _ _ => True :=
  contained_modifyGet fun w => World.keeps_push w r

/-- One issue, and then a failure. -/
theorem contained_post {i : Issue} {e : Failure} (h : ∀ limit, e.Within Q limit) :
    Contained Q w (World.post i >>= fun _ => throw e : Evaluating α) post := by
  intro w' _ hi
  have hlength : (w'.report.post i).issues.length = 1 := by simp [hi]
  rw [World.post, Run.run_bind, Run.run_bind, Run.run_modify]
  dsimp only
  rw [Run.run_bind, Run.run_get]
  dsimp only
  split
  case h_1 x w'' hrun =>
    split at hrun <;> cases hrun
    exact ⟨rfl, hlength.le, h _⟩
  case h_2 e' w'' hrun =>
    split at hrun <;> cases hrun
    case isTrue hfull =>
      rw [Report.isFull, decide_eq_true_iff] at hfull
      exact ⟨rfl, hlength.le, hfull ▸ hlength⟩

/-! ## Lists -/

/-- A property of values that stays in later worlds. -/
def Durable (post : World → α → Prop) : Prop := ∀ w w' x, post w x → w.Keeps w' → post w' x

theorem durable_true : Durable fun (_ : World) (_ : α) => True := fun _ _ _ _ _ => trivial

theorem contained_mapM (hpost : Durable post₂) {f : α → Evaluating β} :
    ∀ {xs : List α} {w}, (∀ x ∈ xs, ∀ w', w.Keeps w' → Contained Q w' (f x) post₂) →
      Contained Q w (xs.mapM f) fun w' ys => ∀ y ∈ ys, post₂ w' y
  | [], w, _ => by
    rw [List.mapM_nil]
    exact contained_pure (by simp)
  | x :: xs, w, h => by
    rw [List.mapM_cons]
    refine (h x List.mem_cons_self w (.refl w)).bind fun w₁ y hw₁ hy => ?_
    refine (contained_mapM hpost fun x hx w' hw' => h x (List.mem_cons_of_mem _ hx) w'
      (hw₁.trans hw')).bind fun w₂ ys hw₂ hys => contained_pure fun w₃ hw₃ z hz => ?_
    rcases List.mem_cons.mp hz with rfl | hz
    · exact hpost w₁ w₃ z hy (hw₂.trans hw₃)
    · exact hpost w₂ w₃ z (hys z hz) hw₃

private theorem contained_filterAuxM {f : α → Evaluating Bool} :
    ∀ {xs acc : List α} {w}, (∀ x w, Contained Q w (f x) fun _ _ => True) →
      Contained Q w (List.filterAuxM f xs acc) fun _ _ => True
  | [], _, _, _ => by
    rw [List.filterAuxM]
    exact contained_pure fun _ _ => trivial
  | x :: _, _, w, h => by
    rw [List.filterAuxM]
    exact (h x w).bind fun _ _ _ _ => contained_filterAuxM h

theorem contained_filterM {f : α → Evaluating Bool} {xs : List α}
    (h : ∀ x w, Contained Q w (f x) fun _ _ => True) :
    Contained Q w (xs.filterM f) fun _ _ => True := by
  rw [List.filterM]
  exact (contained_filterAuxM h).bind fun _ _ _ _ => contained_pure fun _ _ => trivial

theorem contained_foldlM {f : β → α → Evaluating β}
    (h : ∀ y x w, Contained Q w (f y x) fun _ _ => True) :
    ∀ {xs : List α} {y : β} {w}, Contained Q w (xs.foldlM f y) fun _ _ => True
  | [], _, _ => by
    rw [List.foldlM_nil]
    exact contained_pure fun _ _ => trivial
  | x :: _, y, w => by
    rw [List.foldlM_cons]
    exact (h y x w).bind fun _ _ _ _ => contained_foldlM h

/-- Cleaning up after a failure does not hide it. -/
theorem Contained.orElse {m : Evaluating α} (h : Contained Q w m post) (cleanUp : World → World)
    (hclean : ∀ w, (cleanUp w).report = w.report) :
    Contained Q w (tryCatch m fun e => do modify cleanUp; throw e) post := by
  intro w₀ hw hi
  have hm := h w₀ hw hi
  rw [Run.run_tryCatch]
  split
  case h_1 x w₁ hrun => rwa [hrun] at hm
  case h_2 e w₁ hrun =>
    rw [hrun] at hm
    obtain ⟨hlimit, hissues, he⟩ := hm
    exact ⟨(congrArg Report.limit (hclean w₁)).trans hlimit,
      (congrArg (·.issues.length) (hclean w₁)).trans_le hissues, he⟩

/-- **No fault comes out of an operator bare** but that there is no room left. -/
theorem Contained.refusing {o : Operator} {m : Evaluating α} (h : Contained Q' w m post)
    (hQ : Q .outOfMemory) : Contained Q w (Eval.refusing o m) post := by
  intro w₀ hw hi
  have hm := h w₀ hw hi
  rw [Eval.refusing, Run.run_tryCatch]
  split
  case h_1 x w₁ hrun => rwa [hrun] at hm
  case h_2 e w₁ hrun =>
    rw [hrun] at hm
    obtain ⟨hlimit, hissues, he⟩ := hm
    split
    · exact ⟨hlimit, hissues, hQ⟩
    · exact ⟨hlimit, hissues, trivial⟩
    · cases e with
      | bare f => exact absurd rfl (‹∀ fault, Failure.bare f = .bare fault → False› f)
      | _ => exact ⟨hlimit, hissues, he⟩

end Eval

end RowLang
