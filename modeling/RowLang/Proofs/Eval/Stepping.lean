import RowLang.Proofs.Eval.Following

/-!
# Proofs/Eval/Stepping — what is followed step by step

Births and new records are followed, and so is what goes through a list, takes a value apart by a
pattern or puts its faults down to an operator, if shadows follow each step of it.
-/

namespace RowLang

variable {α δ ι κ : Type} {o : Maker} {d : Nat} {t : Moment} {m : Evaluating α} {R : Counterparts ι}
  {S : Counterparts κ} {B : ι → Nat → Evaluating α} {C : κ → Nat → Evaluating α}
  {V : α → Counterparts α}

/-! ## Other counterparts -/

/-- What is done with counterparts of something may be done with those of something else. -/
theorem Follows.reindex (h : Follows o d t m S C V)
    (hB : ∀ β i n, R.rel β i → ∃ j, S.rel β j ∧ B i n = C j n) : Follows o d t m R B V :=
  h.via rfl fun _ s i n _ _ hi => by
    obtain ⟨j, hj, hrun⟩ := hB s.matching i n hi
    exact Or.inr ⟨j, n, hj, id, by rw [hrun]⟩

/-- **One level is used up.** -/
theorem Follows.deeper {m₂ : Evaluating α} (h : Follows o d t m₂ S C V) (hm : m = m₂)
    (hzero : ∀ i, B i 0 = throw .tooDeep)
    (hsucc : ∀ β i n, R.rel β i → ∃ j, S.rel β j ∧ B i (n + 1) = C j n) :
    Follows o (d + 1) t m R B V :=
  h.via (by rw [hm]) fun _ s i n _ _ hi => by
    cases n with
    | zero => exact Or.inl ⟨s.world, by rw [hzero]; rfl⟩
    | succ n =>
      obtain ⟨j, hj, hrun⟩ := hsucc s.matching i n hi
      exact Or.inr ⟨j, n, hj, Nat.le_of_succ_le_succ, by rw [hrun]⟩

/-! ## New things -/

/-- **A birth.** -/
theorem follows_birth :
    Follows o d t World.birth R (fun _ _ => World.birth) Counterparts.ofOrigin := by
  refine follows_make (y := .birth t.world.births)
    (f := fun w _ => { w with births := w.births + 1 })
    (g := fun w => { birth := w.births }) (k := fun w => .birth w.births) rfl (Shadow.adds_birth _)
    (fun h => ?_) ⟨⟨rfl, Nat.lt_succ_self _⟩, rfl, rfl⟩ (fun _ _ _ => rfl)
      (fun w _ => Shadow.adds_birth w)
    (fun β w h => ⟨h, rfl, rfl⟩) fun _ _ _ _ _ _ _ h => by cases h
  have hle := (Shadow.adds_birth t.world).world.itself_le
  exact {
    before := hle _ _ ⟨rfl, h.whole.before⟩ |>.2
    shared := h.whole.shared
    records := fun a r hr => (h.whole.records a r hr).mono hle
    ready := fun hv => (h.whole.ready hv).mono hle
    loaded := fun hv => (h.whole.loaded hv).mono hle
    orderly := h.whole.orderly }

/-- **A record of fields that have not been computed.** -/
theorem follows_allocate {env : Env} {b : Bool} {row : Row Code} {env' : ι → Env}
    {row' : ι → Row Code} (henv : env.Matches t.world.itself env)
    (hrow : Row.Matches (Code.Matches t.world.itself) row row)
    (henv' : ∀ β i, R.rel β i → (env' i).Matches β env)
    (hrow' : ∀ β i, R.rel β i → Row.Matches (Code.Matches β) (row' i) row) :
    Follows o d t (World.allocate ⟨env, b, .ofRow row⟩) R
      (fun i _ => World.allocate ⟨env' i, b, .ofRow (row' i)⟩) Counterparts.ofValue := by
  have hadds (w : World) (env : Env) (row : Row Code) :=
    Shadow.adds_record w (r := ⟨env, b, .ofRow row⟩)
    (LazyRow.access_ofRow_ne_circular row) (LazyRow.access_ofRow_ne_ready row)
  have hmatches {β : Matching} {e e' : Env} {q q' : Row Code} (he : e.Matches β e')
      (hq : Row.Matches (Code.Matches β) q q') :
      StoredRecord.Matches β ⟨e, b, .ofRow q⟩ ⟨e', b, .ofRow q'⟩ :=
    ⟨he, rfl, by rwa [StoredRecord.fields_ofRow, StoredRecord.fields_ofRow]⟩
  refine follows_make (y := .record t.world.records.size)
    (f := fun w i => { w with records := w.records.push ⟨env' i, b, .ofRow (row' i)⟩ })
    (g := fun w => .record w.records.size) (k := fun w => .record w.records.size) rfl
    (hadds t.world env row) (fun h => ?_) (.record ⟨rfl, (hadds t.world env row).has⟩)
      (fun _ _ _ => rfl)
    (fun w i => hadds w (env' i) (row' i)) (fun β w h => .record h)
      fun u s i hu hi a' a ha' ha => ?_
  · have hle := (hadds t.world env row).world.itself_le
    exact {
      before := h.whole.before
      shared := hle _ _ ⟨rfl, h.whole.shared⟩ |>.2
      records := fun a r hr => by
        rw [World.getElem?_push] at hr
        split at hr
        · cases hr
          exact hmatches (henv.mono hle) (hrow.mono fun _ _ hc => hc.mono hle)
        · exact (h.whole.records a r hr).mono hle
      ready := fun hv => (h.whole.ready ((hadds t.world env row).ready hv)).mono hle
      loaded := fun hv => (h.whole.loaded hv).mono hle
      orderly := h.whole.orderly }
  · cases ha'
    cases ha
    obtain ⟨r, hr, hkin⟩ := hu.records _ _ (by rw [World.getElem?_push, if_pos rfl])
    exact ⟨_, r, by rw [World.getElem?_push, if_pos rfl], hr,
      (hmatches (henv' _ _ hi) (hrow' _ _ hi)).of_kin hkin⟩

/-- **The room that there is.** -/
theorem follows_room : Follows o d t World.room R (fun _ _ => World.room) .same := by
  refine follows_of_look rfl (fun _ _ => rfl) fun u s i n hu hs _ => Or.inr ⟨rfl, ?_⟩
  have hroom : s.world.machine.room = t.world.machine.room :=
    hs.room.trans (congrArg Machine.room hu.world.machine)
  exact .of_eq (congrArg Except.ok hroom)

/-! ## Lists -/

section Lists

variable {E : δ → Counterparts δ}

/-- **What is done with each of some things.** -/
theorem follows_mapM {f : δ → Evaluating α} {F : ι → Nat → δ → Evaluating α} {xs : List δ}
    (hxs : ∀ x ∈ xs, (E x).rel t.world.itself x)
    (h : ∀ t₁ x, t.Le t₁ → x ∈ xs → (E x).rel t₁.world.itself x →
      Follows o d t₁ (f x) (R.both (E x)) (fun p n => F p.1 n p.2) V) :
    Follows o d t (xs.mapM f) (R.both (.list E xs)) (fun p n => p.2.mapM (F p.1 n)) (.list V) := by
  induction xs generalizing t with
  | nil =>
    refine Follows.reindex (S := R) (C := fun _ _ => return []) ?_ fun β p n hp => ?_
    · exact follows_pure List.Forall₂.nil fun _ _ _ => List.Forall₂.nil
    · obtain ⟨i, ys⟩ := p
      obtain ⟨hi, hys⟩ := hp
      cases hys
      exact ⟨i, hi, rfl⟩
  | cons x xs ih =>
    have hx := hxs x List.mem_cons_self
    rw [List.mapM_cons]
    refine Follows.reindex (S := R.both ((E x).both (.list E xs))) (C := fun p n => do
      let z ← F p.1 n p.2.1
      let zs ← p.2.2.mapM (F p.1 n)
      return z :: zs) ?_ fun β p n hp => ?_
    · refine Follows.bind (V := V) ?_ fun t₁ z ht hz =>
        Follows.bind (V := .list V) ?_ fun t₂ zs ht₂ hzs => ?_
      · exact (h t x (.refl t) List.mem_cons_self hx).reindex
          fun β p n hp => ⟨(p.1, p.2.1), ⟨hp.1, hp.2.1⟩, rfl⟩
      · exact (ih (t := t₁) (fun y hy => (E y).mono ht.world.itself_le
          (hxs y (List.mem_cons_of_mem x hy))) fun t₂ y ht₂ hy hself =>
            h t₂ y (ht.trans ht₂) (List.mem_cons_of_mem x hy) hself).reindex
          fun β p n hp => ⟨(p.1.1, p.1.2.2), ⟨hp.1.1, hp.1.2.2⟩, rfl⟩
      · exact follows_pure (List.Forall₂.cons ((V z).mono ht₂.world.itself_le hz) hzs)
          fun β p hp => List.Forall₂.cons hp.1.2 hp.2
    · obtain ⟨i, ys⟩ := p
      obtain ⟨hi, hys⟩ := hp
      cases hys with
      | cons hy hys => exact ⟨(i, _, _), ⟨hi, hy, hys⟩, by rw [List.mapM_cons]⟩

theorem follows_filterAuxM {f : δ → Evaluating Bool} {F : ι → Nat → δ → Evaluating Bool}
    {xs acc : List δ} (hxs : ∀ x ∈ xs, (E x).rel t.world.itself x)
    (hacc : (Counterparts.list E acc).rel t.world.itself acc)
    (h : ∀ t₁ x, t.Le t₁ → x ∈ xs → (E x).rel t₁.world.itself x →
      Follows o d t₁ (f x) (R.both (E x)) (fun p n => F p.1 n p.2) .same) :
    Follows o d t (xs.filterAuxM f acc) (R.both ((Counterparts.list E xs).both (.list E acc)))
      (fun p n => p.2.1.filterAuxM (F p.1 n) p.2.2) (.list E) := by
  induction xs generalizing t acc with
  | nil =>
    refine Follows.reindex (S := R.both (.list E acc)) (C := fun p _ => return p.2) ?_
      fun β p n hp => ?_
    · exact follows_pure hacc fun _ _ hp => hp.2
    · obtain ⟨i, ys, zs⟩ := p
      obtain ⟨hi, hys, hzs⟩ := hp
      cases hys
      exact ⟨(i, zs), ⟨hi, hzs⟩, rfl⟩
  | cons x xs ih =>
    have hx := hxs x List.mem_cons_self
    rw [List.filterAuxM]
    refine Follows.reindex (S := (R.both (E x)).both ((Counterparts.list E xs).both (.list E acc)))
      (C := fun p n => do
        let b ← F p.1.1 n p.1.2
        p.2.1.filterAuxM (F p.1.1 n) (cond b (p.1.2 :: p.2.2) p.2.2)) ?_ fun β p n hp => ?_
    · refine Follows.bind (V := .same) ?_ fun t₁ b ht _ => ?_
      · exact (h t x (.refl t) List.mem_cons_self hx).reindex fun β p n hp => ⟨p.1, hp.1, rfl⟩
      · have hacc₁ := (Counterparts.list E acc).mono ht.world.itself_le hacc
        have hx₁ := (E x).mono ht.world.itself_le hx
        have hacc₂ : (Counterparts.list E (cond b (x :: acc) acc)).rel t₁.world.itself
            (cond b (x :: acc) acc) := by
          cases b with
          | true => exact List.Forall₂.cons hx₁ hacc₁
          | false => exact hacc₁
        refine (ih (t := t₁)
          (fun y hy => (E y).mono ht.world.itself_le (hxs y (List.mem_cons_of_mem x hy))) hacc₂
          fun t₂ y ht₂ hy hself => h t₂ y (ht.trans ht₂) (List.mem_cons_of_mem x hy) hself).reindex
          fun β p n hp => ?_
        obtain ⟨⟨⟨i, y⟩, ys, zs⟩, b'⟩ := p
        obtain ⟨⟨⟨hi, hy⟩, hys, hzs⟩, hb⟩ := hp
        cases hb
        refine ⟨(i, ys, cond b' (y :: zs) zs), ⟨hi, hys, ?_⟩, rfl⟩
        cases b' with
        | true => exact List.Forall₂.cons hy hzs
        | false => exact hzs
    · obtain ⟨i, ys, zs⟩ := p
      obtain ⟨hi, hys, hzs⟩ := hp
      cases hys with
      | cons hy hys => exact ⟨((i, _), _, zs), ⟨⟨hi, hy⟩, hys, hzs⟩, by rw [List.filterAuxM]⟩

/-- **Some things, filtered.** -/
theorem follows_filterM {f : δ → Evaluating Bool} {F : ι → Nat → δ → Evaluating Bool} {xs : List δ}
    (hxs : ∀ x ∈ xs, (E x).rel t.world.itself x)
    (h : ∀ t₁ x, t.Le t₁ → x ∈ xs → (E x).rel t₁.world.itself x →
      Follows o d t₁ (f x) (R.both (E x)) (fun p n => F p.1 n p.2) .same) :
    Follows o d t (xs.filterM f) (R.both (.list E xs)) (fun p n => p.2.filterM (F p.1 n))
      (.list E) := by
  simp only [List.filterM]
  refine Follows.bind (V := .list E) ?_ fun t₁ ys ht hys => ?_
  · exact (follows_filterAuxM hxs List.Forall₂.nil h).reindex
      fun β p n hp => ⟨(p.1, p.2, []), ⟨hp.1, hp.2, List.Forall₂.nil⟩, rfl⟩
  · exact follows_pure (List.rel_reverse hys) fun β p hp => List.rel_reverse hp.2

/-- **Some things, folded.** -/
theorem follows_foldlM {f : α → δ → Evaluating α} {F : ι → Nat → α → δ → Evaluating α}
    {xs : List δ} {a : α}
    (hxs : ∀ x ∈ xs, (E x).rel t.world.itself x) (ha : (V a).rel t.world.itself a)
    (h : ∀ t₁ b x, t.Le t₁ → x ∈ xs → (V b).rel t₁.world.itself b → (E x).rel t₁.world.itself x →
      Follows o d t₁ (f b x) (R.both ((V b).both (E x))) (fun p n => F p.1 n p.2.1 p.2.2) V) :
    Follows o d t (xs.foldlM f a) (R.both ((V a).both (.list E xs)))
      (fun p n => p.2.2.foldlM (F p.1 n) p.2.1) V := by
  induction xs generalizing t a with
  | nil =>
    refine Follows.reindex (S := R.both (V a)) (C := fun p _ => return p.2) ?_ fun β p n hp => ?_
    · exact follows_pure ha fun _ _ hp => hp.2
    · obtain ⟨i, b, ys⟩ := p
      obtain ⟨hi, hb, hys⟩ := hp
      cases hys
      exact ⟨(i, b), ⟨hi, hb⟩, rfl⟩
  | cons x xs ih =>
    have hx := hxs x List.mem_cons_self
    rw [List.foldlM_cons]
    refine Follows.reindex (S := (R.both ((V a).both (E x))).both (.list E xs)) (C := fun p n => do
      let b ← F p.1.1 n p.1.2.1 p.1.2.2
      p.2.foldlM (F p.1.1 n) b) ?_ fun β p n hp => ?_
    · refine Follows.bind (V := V) ?_ fun t₁ b ht hb => ?_
      · exact (h t a x (.refl t) List.mem_cons_self ha hx).reindex fun β p n hp => ⟨p.1, hp.1, rfl⟩
      · exact (ih (t := t₁) (fun y hy => (E y).mono ht.world.itself_le
          (hxs y (List.mem_cons_of_mem x hy))) hb fun t₂ c y ht₂ hy hc hself =>
            h t₂ c y (ht.trans ht₂) (List.mem_cons_of_mem x hy) hc hself).reindex
          fun β p n hp => ⟨(p.1.1.1, p.2, p.1.2), ⟨hp.1.1.1, hp.2, hp.1.2⟩, rfl⟩
    · obtain ⟨i, b, ys⟩ := p
      obtain ⟨hi, hb, hys⟩ := hp
      cases hys with
      | cons hy hys => exact ⟨((i, b, _), _), ⟨⟨hi, hb, hy⟩, hys⟩, by rw [List.foldlM_cons]⟩

end Lists

/-! ## Faults put down to an operator -/

/-- A failure put down to an operator, if it is a fault. -/
def Failure.putDown (op : Operator) : Failure → Failure
  | .bare .outOfMemory => .bare .outOfMemory
  | .bare fault => .refused op fault
  | e => e

theorem run_refusing (op : Operator) (m : Evaluating α) (w : World) :
    (Eval.refusing op m).run w = ((m.run w).1.mapError (Failure.putDown op), (m.run w).2) := by
  rw [Eval.refusing, Run.run_tryCatch]
  rcases m.run w with ⟨r, w'⟩
  cases r with
  | ok x => rfl
  | error e =>
    cases e with
    | bare fault => cases fault <;> rfl
    | _ => rfl

/-- **What an operator refuses.** -/
theorem Follows.refusing (h : Follows o d t m R B V) (op : Operator) :
    Follows o d t (Eval.refusing op m) R (fun i n => Eval.refusing op (B i n)) V := by
  intro hsound
  obtain ⟨maker, h⟩ := h hsound
  rw [run_refusing]
  have hok {r : Except Failure α} {x : α} (hx : r.mapError (Failure.putDown op) = .ok x) :
      r = .ok x := by
    cases r with
    | ok y => exact hx
    | error e => cases hx
  refine ⟨maker, h.le, h.sound, h.steady, fun x hx => h.result x (hok hx),
    fun x hx u s i n hu hs hi => ?_,
    fun e he s i n hn hs hknows hstep hi => ?_⟩
  · have hcatches := h.catches x (hok hx) u s i n hu hs hi
    rw [run_refusing]
    revert hcatches
    rcases (B i n).run s.world with ⟨r, w⟩
    intro hcatches
    cases r with
    | ok y => exact hcatches
    | error e =>
      cases (show e = .tooDeep from hcatches)
      exact rfl
  · have hfails := h.fails
    revert he hfails
    rcases m.run t.world with ⟨r, w'⟩
    intro he hfails
    cases r with
    | ok y => cases he
    | error e₁ =>
      cases he
      have hfails := hfails e₁ rfl s i n hn hs hknows hstep hi
      rw [run_refusing]
      revert hfails
      rcases (B i n).run s.world with ⟨r, w⟩
      intro hfails
      cases r with
      | ok y => exact hfails.elim
      | error e₂ =>
        rcases hfails with rfl | ⟨rfl, hreport⟩
        · exact Or.inl rfl
        · exact Or.inr ⟨rfl, hreport⟩

/-! ## Patterns -/

/-- **The bindings of a pattern**, if shadows follow the reading of each field. -/
theorem follows_collectWith {field : Value → Label → Evaluating Value}
    {field' : Nat → Value → Label → Evaluating Value}
    (h : ∀ t v l, v.Matches t.world.itself v →
      Follows o d t (field v l) (.ofValue v) (fun v' n => field' n v' l) .ofValue)
    (p : Pattern) {bindings : List (String × Value)} {v : Value}
    (hbindings : Bindings.Match t.world.itself bindings bindings)
    (hv : v.Matches t.world.itself v) :
    Follows o d t (Eval.collectWith field bindings p v)
      ((Counterparts.ofBindings bindings).both (.ofValue v))
      (fun i n => Eval.collectWith (field' n) i.1 p i.2) .ofBindings := by
  induction p using Pattern.inductOn generalizing t bindings v with
  | name x =>
    simp only [Eval.collectWith]
    exact follows_pure (List.Forall₂.cons ⟨rfl, hv⟩ hbindings) fun _ _ hi =>
      List.Forall₂.cons ⟨rfl, hi.2⟩ hi.1
  | wildcard =>
    simp only [Eval.collectWith]
    exact follows_pure hbindings fun _ _ hi => hi.1
  | row fields ih =>
    simp only [Eval.collectWith]
    induction fields generalizing t bindings with
    | nil =>
      simp only [Eval.collectWith.collectFields]
      exact follows_pure hbindings fun _ _ hi => hi.1
    | cons q fields ihfields =>
      simp only [Eval.collectWith.collectFields]
      refine Follows.bind (V := .ofValue) ?_ fun t₁ x ht hx => Follows.bind (V := .ofBindings) ?_
        fun t₂ bs ht₂ hbs => ?_
      · exact (h t v q.1 hv).reindex fun β p n hp => ⟨p.2, hp.2, rfl⟩
      · exact (ih q List.mem_cons_self (t := t₁)
          (hbindings.mono fun _ _ hy => hy.mono ht.world.itself_le) hx).reindex
          fun β p n hp => ⟨(p.1.1, p.2), ⟨hp.1.1, hp.2⟩, rfl⟩
      · exact (ihfields (fun r hr => ih r (List.mem_cons_of_mem _ hr)) (t := t₂) hbs
          (hv.mono (ht.trans ht₂).world.itself_le)).reindex
          fun β p n hp => ⟨(p.2, p.1.1.2), ⟨hp.2, hp.1.1.2⟩, rfl⟩

end RowLang
