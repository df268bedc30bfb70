import RowLang.Proofs.Eval.Alike

/-!
# Proofs/Eval/Filled — texts that values are filled in
-/

namespace RowLang

open RowLang.Format

variable {β : Matching} {v v' : Value}

/-! ## Supplies -/

/-- Supplies of values that match. -/
inductive Format.Supply.Matches (β : Matching) : Supply → Supply → Prop
  | several {xs ys : List Value} : Value.AllMatch β xs ys → Matches β (.several xs) (.several ys)
  | single {x y : Value} : x.Matches β y → Matches β (.single x) (.single y)
  | used : Matches β .used .used

/-- Pieces of the same text, of origins that match. -/
structure Format.Piece.Matches (β : Matching) (p p' : Piece) : Prop where
  codes : p.codes = p'.codes
  origin? : Option.Rel (Origin.Matches β) p.origin? p'.origin?

section Matching

variable {β' : Matching} {x x' : Supply}

theorem Format.Supply.Matches.mono (h : x.Matches β x') (hβ : β ≤ β') : x.Matches β' x' := by
  cases h with
  | several h => exact .several (h.mono hβ)
  | single h => exact .single (h.mono hβ)
  | used => exact .used

theorem Format.Piece.Matches.mono {p p' : Piece} (h : p.Matches β p')
    (hβ : β ≤ β') : p.Matches β' p' where
  codes := h.codes
  origin? := by
    have := h.origin?
    generalize p.origin? = q at this
    generalize p'.origin? = q' at this
    cases this with
    | some h => exact .some (h.mono hβ)
    | none => exact .none

theorem Format.Piece.Matches.place {p p' : Piece} (h : p.Matches β p') (dir : Text.Directive)
    (left : Bool) (width : Nat) (precision : Option Nat) :
    (p.place dir left width precision).Matches β (p'.place dir left width precision) := by
  obtain ⟨codes, origin⟩ := p
  obtain ⟨codes', origin'⟩ := p'
  obtain ⟨rfl, horigin⟩ := h
  refine ⟨rfl, ?_⟩
  unfold Piece.place
  dsimp only
  split_ifs
  · exact horigin
  · exact .none

theorem Format.Supply.matches_ofValue (h : v.Matches β v') :
    (Supply.ofValue v).Matches β (.ofValue v') := by
  have hitems := h.tupleItems?
  unfold ofValue
  generalize v.tupleItems? = xs at hitems
  generalize v'.tupleItems? = xs' at hitems
  cases hitems with
  | some hitems => exact .several hitems
  | none => exact .single h

theorem Format.Supply.Matches.isUsed_eq (h : x.Matches β x') : x.isUsed = x'.isUsed := by
  cases h with
  | several h => exact h.isEmpty_eq
  | _ => rfl

/-- The next values match. -/
theorem Format.Supply.Matches.next (h : x.Matches β x') :
    ResultsMatch (fun p q => p.1.Matches β q.1 ∧ p.2.Matches β q.2) x.next x'.next := by
  cases h with
  | several h =>
    cases h with
    | nil => exact .error _
    | cons h hs => exact .ok ⟨h, .several hs⟩
  | single h => exact .ok ⟨h, .used⟩
  | used => exact .error _

/-- What the width of a directive comes to. -/
theorem Format.Supply.Matches.resolveWidth (h : x.Matches β x') (room : Nat) (d : Text.Directive) :
    ResultsMatch (fun p q => p.1 = q.1 ∧ p.2.1 = q.2.1 ∧ p.2.2.Matches β q.2.2)
      (resolveWidth room d x) (resolveWidth room d x') := by
  unfold Format.resolveWidth
  split
  · exact .ok ⟨rfl, rfl, h⟩
  · split
    · exact .error _
    · exact .ok ⟨rfl, rfl, h⟩
  · exact .error _
  · refine h.next.bind fun p q hpq => ?_
    obtain ⟨v, s⟩ := p
    obtain ⟨v', s'⟩ := q
    obtain ⟨hv, hs⟩ := hpq
    cases hv with
    | @int _ _ i _ =>
      dsimp only
      split
      · exact .ok ⟨rfl, rfl, hs⟩
      · exact .error _
    | _ => exact .error _

/-- What the precision of a directive comes to. -/
theorem Format.Supply.Matches.resolvePrecision (h : x.Matches β x') (d : Text.Directive) :
    ResultsMatch (fun p q => p.1 = q.1 ∧ p.2.Matches β q.2) (resolvePrecision d x)
      (resolvePrecision d x') := by
  unfold Format.resolvePrecision
  split
  · exact .ok ⟨rfl, h⟩
  · exact .ok ⟨rfl, h⟩
  · exact .error _
  · refine h.next.bind fun p q hpq => ?_
    obtain ⟨v, s⟩ := p
    obtain ⟨v', s'⟩ := q
    obtain ⟨hv, hs⟩ := hpq
    cases hv with
    | @int _ _ i _ =>
      dsimp only
      split
      · exact .ok ⟨rfl, hs⟩
      · exact .error _
    | _ => exact .error _

end Matching

/-! ## Numbers in a text -/

namespace Value.Matches

theorem decimal_eq (h : v.Matches β v') (room : Nat) (c : Char) (precision : Option Nat) :
    decimal room c precision v = decimal room c precision v' := by
  have hinteger : integerOf c v = integerOf c v' := by
    have htoInt := h.toInt_eq
    cases h with
    | real _ => exact htoInt
    | _ => rfl
  rw [decimal, decimal, hinteger]

theorem based_eq (h : v.Matches β v') (room : Nat) (c : Char) (alternate : Bool)
    (precision : Option Nat) :
    based room c alternate precision v = based room c alternate precision v' := by
  cases h <;> rfl

theorem formatReal_eq (h : v.Matches β v') (c : Char) (alternate : Bool) (precision : Option Nat) :
    Format.real c alternate precision v = Format.real c alternate precision v' := by
  unfold Format.real
  rw [h.number?_eq, h.kind_eq]

theorem characterOf_eq (h : v.Matches β v') : characterOf v = characterOf v' := by
  cases h with
  | @text _ _ codes _ => rcases codes with _ | ⟨c, _ | ⟨d, codes⟩⟩ <;> rfl
  | _ => rfl

end Value.Matches

namespace Counterparts

/-- Supplies that match one. -/
def ofSupply (s : Supply) : Counterparts Supply where
  rel β s' := s'.Matches β s
  mono hβ h := h.mono hβ

/-- Pieces that match one. -/
def ofPiece (p : Piece) : Counterparts Piece where
  rel β p' := p'.Matches β p
  mono hβ h := h.mono hβ

end Counterparts

/-! ## Directives -/

variable {ι : Type} {o : Maker} {d : Nat} {t : Moment} {R : Counterparts ι}

theorem run_full (v : Value) (w : World) :
    (World.full v).run w = (Value.fullChars w Value.showDepth v, w) := by
  simp only [World.full, Run.run_bind, Run.run_get]
  cases Value.fullChars w Value.showDepth v <;> rfl

theorem snd_written (c : Char) (v : Value) (w : World) : ((Format.written c v).run w).2 = w := by
  unfold Format.written
  split
  · rfl
  all_goals
    rw [Run.run_bind, run_full]
    cases Value.fullChars w Value.showDepth v <;> rfl

/-- What is written of values that are alike in full. -/
theorem Value.Matches.written {w w' : World} (h : v.Matches β v')
    (hv : fullChars w showDepth v = fullChars w' showDepth v') (c : Char) :
    ResultsMatch (Piece.Matches β) ((Format.written c v).run w).1
      ((Format.written c v').run w').1 := by
  have hfull (f : List Char → List Nat) :
      ResultsMatch (Piece.Matches β)
        ((do return ⟨f (← World.full v), none⟩ : Evaluating Piece).run w).1
        ((do return ⟨f (← World.full v'), none⟩ : Evaluating Piece).run w').1 := by
    rw [Run.run_bind, Run.run_bind, run_full, run_full, hv]
    cases fullChars w' showDepth v' with
    | ok cs => exact .ok ⟨rfl, .none⟩
    | error e => exact .error e
  by_cases hs : c = 's'
  · subst hs
    cases h with
    | text ho => exact .ok ⟨rfl, .some ho⟩
    | _ => exact hfull codes
  · by_cases ha : c = 'a'
    · subst ha
      cases h <;> exact hfull fun cs => codes (asciiOnly cs)
    · have hother (v : Value) : Format.written c v = do return ⟨codes (← World.full v), none⟩ := by
        unfold Format.written
        split
        · exact absurd rfl hs
        · exact absurd rfl ha
        · rfl
      rw [hother, hother]
      exact hfull codes

/-- **What is written of a value.** -/
theorem follows_written (hv : v.Matches t.world.itself v) (c : Char) :
    Follows o d t (Format.written c v) (.ofValue v) (fun v' _ => Discreet.written c v')
      .ofPiece := by
  refine follows_of_look (snd_written c v t.world) (fun x hx => ?_) fun u s v' n hu hs hv' => ?_
  · have hself : ResultsMatch (Piece.Matches t.world.itself) ((Format.written c v).run t.world).1
        ((Format.written c v).run t.world).1 := hv.written rfl c
    rw [hx] at hself
    cases hself with
    | ok h => exact h
  · have hv' : v'.Matches s.matching v := hv'
    rw [Discreet.written, Discreet.run_guarded]
    split
    case isTrue hreticent =>
      refine Or.inr ⟨snd_written c v' s.world, hv'.written ?_ c⟩
      rw [hv'.fullChars_eq hs.alike hreticent,
        hv.fullChars_eq hu.world.alike ((hv'.reticent_eq hs.alike).symm.trans hreticent)]
    case isFalse => exact Or.inl ⟨_, rfl⟩

/-- A piece that is made of what comes to the same of values that match. -/
theorem follows_piece {α : Type} {x : Except Fault α} {x' : Value → Except Fault α}
    (h : ∀ β v', v'.Matches β v → x' v' = x) (f : α → List Nat) :
    Follows o d t (do return ⟨f (← World.faulty x), none⟩) (.ofValue v)
      (fun v' _ => do return ⟨f (← World.faulty (x' v')), none⟩) .ofPiece := by
  have hself : ResultsMatch (fun y z => y = z) x x := .of_eq rfl
  refine Follows.bind (V := .same) ?_ fun t₁ y _ _ =>
    follows_pure ⟨rfl, .none⟩ fun β q hq => ⟨?_, .none⟩
  · exact follows_faulty hself fun β v' _ hv' => h β v' hv' ▸ hself
  · rw [show q.2 = y from hq.2]

/-- **What a conversion makes of a value.** -/
theorem follows_convert (hv : v.Matches t.world.itself v) (room : Nat) (dir : Text.Directive)
    (index : Nat) (left : Bool) (width : Nat) (precision : Option Nat) (c : Nat) :
    Follows o d t (convert .plain room dir index left width precision c v) (.ofValue v)
      (fun v' _ => convert Discreet.host room dir index left width precision c v') .ofPiece := by
  unfold Format.convert
  dsimp only
  split_ifs
  · exact (follows_written hv _).bind fun t₁ p _ hp =>
      follows_pure (hp.place dir left width precision)
      fun β q hq => hq.2.place dir left width precision
  · exact follows_piece (fun _ _ hv' => hv'.decimal_eq _ _ _) _
  · exact follows_piece (fun _ _ hv' => hv'.based_eq _ _ _ _) _
  · exact follows_piece (fun _ _ hv' => hv'.formatReal_eq _ _ _) _
  · exact follows_piece (fun _ _ hv' => hv'.characterOf_eq) fun n => align left width [n]
  · exact follows_throw _

section Directives

variable {s : Supply} (hs : s.Matches t.world.itself s) (dir : Text.Directive) (index : Nat)
include hs

theorem follows_fillSized (room : Nat) (left : Bool) (width : Nat) (precision : Option Nat) :
    Follows o d t (fillSized .plain room dir index left width precision s) (.ofSupply s)
      (fun s' _ => fillSized Discreet.host room dir index left width precision s')
      fun p => (Counterparts.ofPiece p.1).both (.ofSupply p.2) := by
  unfold Format.fillSized
  cases dir.conversion with
  | none => exact follows_throw _
  | some c =>
    refine Follows.bind (V := fun p => (Counterparts.ofValue p.1).both (.ofSupply p.2)) ?_
      fun t₁ p ht hp => ?_
    · exact follows_faulty hs.next fun β s' _ hs' => Format.Supply.Matches.next hs'
    · obtain ⟨v, s₁⟩ := p
      refine Follows.bind (V := .ofPiece) ?_ fun t₂ p ht₂ hp' => ?_
      · exact (follows_convert hp.1 room dir index left width precision c).reindex
          fun β q n hq => ⟨q.2.1, hq.2.1, rfl⟩
      · exact follows_pure ⟨hp', hp.2.mono ht₂.world.itself_le⟩ fun β q hq => ⟨hq.2, hq.1.2.2⟩

/-- **One directive filled in.** -/
theorem follows_fill :
    Follows o d t (fill .plain dir index s) (.ofSupply s)
      (fun s' _ => fill Discreet.host dir index s')
      fun p => (Counterparts.ofPiece p.1).both (.ofSupply p.2) := by
  refine Follows.bind (V := .same) follows_room fun t₁ room ht _ => ?_
  have hs := hs.mono ht.world.itself_le
  refine Follows.reindex (S := .ofSupply s) (C := fun s' _ => do
    let sized ← World.faulty (resolveWidth room dir s')
    let found ← World.faulty (resolvePrecision dir sized.2.2)
    fillSized Discreet.host room dir index sized.1 sized.2.1 found.1 found.2) ?_ fun β q n hq =>
      ⟨q.1, hq.1, by rw [show q.2 = room from hq.2]⟩
  refine Follows.bind (V := fun x => (Counterparts.same x.1).both ((Counterparts.same x.2.1).both
    (.ofSupply x.2.2))) ?_ fun t₁ x ht hx => ?_
  · exact follows_faulty (hs.resolveWidth room dir) fun β s' _ hs' =>
      Format.Supply.Matches.resolveWidth hs' room dir
  obtain ⟨left, width, s₁⟩ := x
  refine Follows.reindex (S := .ofSupply s₁) (C := fun s' _ => do
    let found ← World.faulty (resolvePrecision dir s')
    fillSized Discreet.host room dir index left width found.1 found.2) ?_ fun β q n hq => ?_
  · refine Follows.bind (V := fun x => (Counterparts.same x.1).both (.ofSupply x.2)) ?_
      fun t₂ x ht₂ hx' => ?_
    · exact follows_faulty (hx.2.2.resolvePrecision dir) fun β s' _ hs' =>
        Format.Supply.Matches.resolvePrecision hs' dir
    · obtain ⟨precision, s₂⟩ := x
      refine (follows_fillSized hx'.2 dir index room left width precision).reindex
        fun β q n hq => ?_
      obtain ⟨s', precision', s₂'⟩ := q
      obtain ⟨-, hprecision, hs₂⟩ := hq
      cases hprecision
      exact ⟨s₂', hs₂, rfl⟩
  · obtain ⟨s', left', width', s₁'⟩ := q
    obtain ⟨-, hleft, hwidth, hs₁⟩ := hq
    cases hleft
    cases hwidth
    exact ⟨s₁', hs₁, rfl⟩

end Directives

/-! ## Texts -/

/-- **Values are found under the same keys**, and shadows follow the finding. -/
def FoundAlike (o : Maker) (d : Nat) (t : Moment) (R : Counterparts ι)
    (find : List Nat → Option (Evaluating Value))
    (find' : ι → Nat → List Nat → Option (Evaluating Value)) :
    Prop :=
  ∀ key, find key = none ∧ (∀ β i n, R.rel β i → find' i n key = none) ∨
    ∃ m B, find key = some m ∧ (∀ β i n, R.rel β i → find' i n key = some (B i n)) ∧
      ∀ t₁, t.Le t₁ → Follows o d t₁ m R B .ofValue

section Texts

variable {find : List Nat → Option (Evaluating Value)}
  {find' : ι → Nat → List Nat → Option (Evaluating Value)} {s : Supply}

theorem FoundAlike.mono {t₁ : Moment} (h : FoundAlike o d t R find find') (ht : t.Le t₁) :
    FoundAlike o d t₁ R find find' := fun key =>
  (h key).imp_right fun ⟨m, B, hm, hB, hfollows⟩ =>
    ⟨m, B, hm, hB, fun t₂ ht₂ => hfollows t₂ (ht.trans ht₂)⟩

theorem FoundAlike.isNone_eq (h : FoundAlike o d t R find find') (key : List Nat)
    {β : Matching} {i : ι}
    (hi : R.rel β i) (n : Nat) : (find' i n key).isNone = (find key).isNone := by
  rcases h key with ⟨hnone, hnone'⟩ | ⟨m, B, hm, hB, -⟩
  · rw [hnone, hnone' β i n hi]
  · rw [hm, hB β i n hi]
    rfl

/-- What is to be filled in from a directive on. -/
theorem follows_supplyOf (h : FoundAlike o d t R find find') (hs : s.Matches t.world.itself s)
    (key : Text.Key) :
    Follows o d t (supplyOf find key s) (R.both (.ofSupply s))
      (fun p n => supplyOf (find' p.1 n) key p.2)
      .ofSupply := by
  cases key with
  | none => exact follows_pure hs fun β p hp => hp.2
  | unfinished =>
    unfold supplyOf
    dsimp only
    split
    case isTrue hnone =>
      refine (follows_throw (R := .same ()) (.bare .formatNeedsMapping)).reindex fun β p n hp =>
        ⟨(), rfl, ?_⟩
      rw [h.isNone_eq [] hp.1 n, if_pos hnone]
    case isFalse hsome =>
      refine (follows_throw (R := .same ()) (.bare .formatKeyUnfinished)).reindex fun β p n hp =>
        ⟨(), rfl, ?_⟩
      rw [h.isNone_eq [] hp.1 n, if_neg hsome]
  | named codes =>
    rcases h codes with ⟨hnone, hnone'⟩ | ⟨m, B, hm, hB, hfollows⟩
    · refine Follows.reindex (S := .same ()) (C := fun _ _ => throw (.bare .formatNeedsMapping)) ?_
        fun β p n hp => ⟨(), rfl, ?_⟩
      · simp only [supplyOf, hnone]
        exact follows_throw _
      · simp only [supplyOf, hnone' β p.1 n hp.1]
    · refine Follows.reindex (S := R) (C := fun i n => do return .single (← B i n)) ?_
        fun β p n hp => ⟨p.1, hp.1, ?_⟩
      · simp only [supplyOf, hm]
        exact (hfollows t (.refl t)).bind fun t₁ v _ hv => follows_pure (.single hv) fun β q hq =>
          .single hq.2
      · simp only [supplyOf, hB β p.1 n hp.1]

/-- **A text with its directives filled in.** -/
theorem follows_fillAll (h : FoundAlike o d t R find find') (hs : s.Matches t.world.itself s)
    (total fuel : Nat) (codes : List Nat) :
    Follows o d t (fillAll .plain find total fuel s codes) (R.both (.ofSupply s))
      (fun p n => fillAll Discreet.host (find' p.1 n) total fuel p.2 codes)
      fun r => (Counterparts.list .ofPiece r.1).both (.ofSupply r.2) := by
  induction fuel generalizing t s codes with
  | zero => exact follows_pure ⟨List.Forall₂.nil, hs⟩ fun β p hp => ⟨List.Forall₂.nil, hp.2⟩
  | succ fuel ih =>
    have hmore (piece : List Nat) (codes : List Nat) :
        Follows o d t (do
          let rest ← fillAll .plain find total fuel s codes
          return (⟨piece, none⟩ :: rest.1, rest.2)) (R.both (.ofSupply s))
          (fun p n => do
            let rest ← fillAll Discreet.host (find' p.1 n) total fuel p.2 codes
            return (⟨piece, none⟩ :: rest.1, rest.2))
          fun r => (Counterparts.list .ofPiece r.1).both (.ofSupply r.2) :=
      (ih h hs codes).bind fun t₁ r _ hr =>
        follows_pure ⟨List.Forall₂.cons ⟨rfl, .none⟩ hr.1, hr.2⟩ fun β q hq =>
          ⟨List.Forall₂.cons ⟨rfl, .none⟩ hq.2.1, hq.2.2⟩
    unfold Format.fillAll
    split
    · exact follows_pure ⟨List.Forall₂.nil, hs⟩ fun β p hp => ⟨List.Forall₂.nil, hp.2⟩
    · exact hmore _ _
    · refine Follows.bind (follows_supplyOf h hs _) fun t₁ s₁ ht hs₁ => ?_
      refine Follows.bind (V := fun p => (Counterparts.ofPiece p.1).both (.ofSupply p.2)) ?_
        fun t₂ p ht₂ hp => ?_
      · exact (follows_fill hs₁ _ _).reindex fun β q n hq => ⟨q.2, hq.2, rfl⟩
      obtain ⟨piece, s₂⟩ := p
      refine Follows.bind (V := fun r => (Counterparts.list .ofPiece r.1).both (.ofSupply r.2)) ?_
        fun t₃ r ht₃ hr => ?_
      · exact (ih (h.mono (ht.trans ht₂)) hp.2 _).reindex
          fun β q n hq => ⟨(q.1.1.1, q.2.2), ⟨hq.1.1.1, hq.2.2⟩, rfl⟩
      · exact follows_pure ⟨List.Forall₂.cons (hp.1.mono ht₃.world.itself_le) hr.1, hr.2⟩
          fun β q hq => ⟨List.Forall₂.cons hq.1.2.1 hq.2.1, hq.2.2⟩
    · exact hmore _ _

end Texts

/-- Pieces that match are texts that match. -/
theorem matches_together {p p' : Origin} (ho : p.Matches β p') {ps ps' : List Piece}
    (h : List.Forall₂ (Piece.Matches β) ps ps') :
    (Piece.together p ps).Matches β (Piece.together p' ps') := by
  have hcodes : ps.flatMap (·.codes) = ps'.flatMap (·.codes) := by
    induction h with
    | nil => rfl
    | cons hp _ ih => rw [List.flatMap_cons, List.flatMap_cons, hp.codes, ih]
  have hrest : List.Forall₂ (Piece.Matches β) (ps.dropWhile (·.codes.isEmpty))
      (ps'.dropWhile (·.codes.isEmpty)) := by
    clear hcodes
    induction h with
    | nil => exact .nil
    | cons hp hps ih =>
      rw [List.dropWhile_cons, List.dropWhile_cons, hp.codes]
      split
      · exact ih
      · exact .cons hp hps
  unfold Piece.together
  rw [hcodes]
  refine .text ?_
  generalize ps.dropWhile (·.codes.isEmpty) = rest at hrest
  generalize ps'.dropWhile (·.codes.isEmpty) = rest' at hrest
  cases hrest with
  | nil => exact ho
  | cons hp hps =>
    cases hps with
    | nil => exact Value.matches_getD hp.origin? ho
    | cons _ _ => exact ho

section Lookup

variable {lookup : Nat → Label → Evaluating Value} {lookup' : Nat → Nat → Label → Evaluating Value}
  (hlookup : ∀ (t : Moment) a l, t.world.Has (.record a) →
    Follows o d t (lookup a l) (.ofAddress a) (fun a' n => lookup' n a' l) .ofValue)
include hlookup

theorem foundAlike_lookupIn (hv : v.Matches t.world.itself v) :
    FoundAlike o d t (.ofValue v) (lookupIn lookup v) (fun v' n => lookupIn (lookup' n) v') := by
  intro key
  cases hv with
  | list _ _ _ =>
    refine Or.inr ⟨_, fun _ _ => throw (.bare .indexedByText), rfl, fun β v' n hv' => ?_,
      fun _ _ => follows_throw _⟩
    cases hv'
    rfl
  | @record a _ ha =>
    have hfound {m : Evaluating Value} {B : Nat → Nat → Evaluating Value}
        (hm : lookupIn lookup (.record a) key = some m)
        (hB : ∀ a' n, lookupIn (lookup' n) (.record a') key = some (B a' n))
        (h : ∀ t₁, t.Le t₁ → Follows o d t₁ m (.ofAddress a) B .ofValue) :
        ∃ m B, lookupIn lookup (.record a) key = some m ∧
          (∀ β v' n, (Counterparts.ofValue (.record a)).rel β v' → lookupIn (lookup' n) v' key =
            some (B v' n)) ∧
          ∀ t₁, t.Le t₁ → Follows o d t₁ m (.ofValue (.record a)) B .ofValue := by
      refine ⟨m, fun v' n => (lookupIn (lookup' n) v' key).getD (throw .tooDeep), hm,
        fun β v' n hv' => ?_,
        fun t₁ ht => (h t₁ ht).reindex fun β v' n hv' => ?_⟩
      · cases hv' with
        | @record a' _ _ => simp only [hB, Option.getD_some]
      · cases hv' with
        | @record a' _ ha' => exact ⟨a', ha', by rw [hB, Option.getD_some]⟩
    refine Or.inr ?_
    cases hkey : Value.characters? key with
    | some cs =>
      refine hfound (B := fun a' n => lookup' n a' (String.ofList cs)) (by rw [lookupIn, hkey])
        (fun a' n => by rw [lookupIn, hkey]) fun t₁ ht => hlookup t₁ a _ (ht.world.has _ ha.2)
    | none =>
      refine hfound (B := fun _ _ => throw (.bare (.noKey (String.ofList (Text.quotedCodes key)))))
        (by rw [lookupIn, hkey]) (fun a' n => by rw [lookupIn, hkey]) fun t₁ _ => follows_throw _
  | _ =>
    refine Or.inl ⟨rfl, fun β v' n hv' => ?_⟩
    cases hv'
    rfl

/-- **A text with a value filled in.** -/
theorem follows_format {own fresh : Origin} (hown : own.Matches t.world.itself own)
    (hfresh : fresh.Matches t.world.itself fresh) (codes : List Nat)
    (hv : v.Matches t.world.itself v) :
    Follows o d t (format .plain lookup own fresh codes v)
      ((Counterparts.ofValue v).both ((Counterparts.ofOrigin own).both (.ofOrigin fresh)))
      (fun p n => format Discreet.host (lookup' n) p.2.1 p.2.2 codes p.1) .ofValue := by
  have hfound := foundAlike_lookupIn (o := o) (d := d) hlookup hv
  have hsupply := Format.Supply.matches_ofValue hv
  unfold Format.format
  refine Follows.bind (V := fun r => (Counterparts.list .ofPiece r.1).both (.ofSupply r.2)) ?_
    fun t₁ r ht hr => ?_
  · exact (follows_fillAll hfound hsupply codes.length _ codes).reindex fun β p n hp =>
      ⟨(p.1, .ofValue p.1), ⟨hp.1, Format.Supply.matches_ofValue hp.1⟩, rfl⟩
  obtain ⟨pieces, supply⟩ := r
  have hunused {β : Matching} {v' : Value} {supply' : Supply} (n : Nat) (hv' : v'.Matches β v)
      (hs : supply'.Matches β supply) : (!supply'.isUsed && (lookupIn (lookup' n) v' []).isNone)
        = (!supply.isUsed && (lookupIn lookup v []).isNone) := by
    rw [hs.isUsed_eq, hfound.isNone_eq [] hv' n]
  dsimp only
  split
  case isTrue h =>
    refine (follows_throw (R := .same ()) (.bare .formatTooMany)).reindex fun β p n hp =>
      ⟨(), rfl, ?_⟩
    rw [hunused n hp.1.1 hp.2.2, if_pos h]
    rfl
  case isFalse h =>
    refine Follows.reindex (S := ((Counterparts.ofOrigin own).both (.ofOrigin fresh)).both
      (.list .ofPiece pieces))
      (C := fun q _ =>
        return if codes.contains 0x25 then Piece.together q.1.2 q.2 else .text q.1.1 codes) ?_
      fun β p n hp => ⟨(p.1.2, p.2.1), ⟨hp.1.2, hp.2.1⟩, ?_⟩
    · split
      · exact follows_pure (matches_together (hfresh.mono ht.world.itself_le) hr.1) fun β q hq =>
          matches_together hq.1.2 hq.2
      · exact follows_pure (Value.Matches.text (hown.mono ht.world.itself_le)) fun β q hq =>
          Value.Matches.text hq.1.1
    · rw [hunused n hp.1.1 hp.2.2, if_neg h]

end Lookup

/-! ## Binary operators -/

section Calculating

variable {x y : Value} {p : Origin}

/-- A verdict. -/
theorem follows_verdict (b : Bool) (hp : p.Matches t.world.itself p) :
    Follows o d t (return .verdict p b) (.ofOrigin p) (fun p' _ => return .verdict p' b)
      .ofValue := by
  refine Follows.of_sound fun hsound =>
    follows_of_look rfl (fun v hv => ?_) fun u s p' n hu hs hp' => ?_
  · cases hv
    exact Value.matches_verdict hp b ⟨rfl, hsound.whole.before⟩ ⟨rfl, hsound.whole.shared⟩
  · exact Or.inr ⟨rfl, .ok (Value.matches_verdict hp' b hs.before hs.shared)⟩

/-- What comes of values that match. -/
theorem follows_made {f : Origin → Value → Value → Except Fault Value}
    (hx : x.Matches t.world.itself x)
    (hy : y.Matches t.world.itself y) (hp : p.Matches t.world.itself p)
    (hf : ∀ {β : Matching} {p p' x x' y y'}, Origin.Matches β p p' → Value.Matches β x x' →
      Value.Matches β y y' → Value.Made β (f p x y) (f p' x' y')) :
    Follows o d t (World.faulty (f p x y))
      (((Counterparts.ofValue x).both (.ofValue y)).both (.ofOrigin p))
      (fun q _ => World.faulty (f q.2 q.1.1 q.1.2)) .ofValue :=
  follows_faulty (hf hp hx hy) fun _ _ _ hq => hf hq.2 hq.1.1 hq.1.2

/-- How two values compare. -/
theorem follows_less (hp : p.Matches t.world.itself p) :
    Follows o d t (do return .verdict p (← World.faulty (x.less y)))
      (((Counterparts.ofValue x).both (.ofValue y)).both (.ofOrigin p))
      (fun q _ => do return .verdict q.2 (← World.faulty (q.1.1.less q.1.2))) .ofValue := by
  refine Follows.bind (V := .same) ?_ fun t₁ b ht _ => ?_
  · have hself : ResultsMatch (fun y z => y = z) (x.less y) (x.less y) := .of_eq rfl
    exact follows_faulty hself fun β q hβ hq => hq.1.1.less_eq hβ hq.1.2 ▸ hself
  · exact (follows_verdict b (hp.mono ht.world.itself_le)).reindex fun β q n hq =>
      ⟨q.1.2, hq.1.2, by rw [show q.2 = b from hq.2]⟩

/-- Whether two values are equal. -/
theorem follows_equal (hp : p.Matches t.world.itself p) :
    Follows o d t (return .verdict p (x.equal y))
      (((Counterparts.ofValue x).both (.ofValue y)).both (.ofOrigin p))
      (fun q _ => return .verdict q.2 (q.1.1.equal q.1.2)) .ofValue :=
  (follows_verdict (x.equal y) hp).via rfl fun u s q n _ hs hq =>
    Or.inr ⟨q.2, n, hq.2, id, by rw [hq.1.1.equal_eq hs.unique hq.1.2]⟩

variable {lookup : Nat → Label → Evaluating Value} {lookup' : Nat → Nat → Label → Evaluating Value}

/-- **The result of a binary operator.** -/
theorem follows_calculate (hlookup : ∀ (t : Moment) a l, t.world.Has (.record a) →
      Follows o d t (lookup a l) (.ofAddress a) (fun a' n => lookup' n a' l) .ofValue)
    (op : Operator) (hx : x.Matches t.world.itself x) (hy : y.Matches t.world.itself y) :
    Follows o d t (Eval.calculate .plain lookup op x y) ((Counterparts.ofValue x).both (.ofValue y))
      (fun q n => Eval.calculate Discreet.host (lookup' n) op q.1 q.2) .ofValue := by
  refine Follows.bind follows_birth fun t₁ p ht hp => ?_
  have hx := hx.mono ht.world.itself_le
  have hy := hy.mono ht.world.itself_le
  cases op with
  | plus => exact follows_made hx hy hp Value.made_add
  | append => exact follows_made hx hy hp Value.made_add
  | minus => exact follows_made hx hy hp Value.made_subtract
  | times =>
    refine Follows.bind (V := .same) follows_room fun t₂ room ht₂ _ => ?_
    exact (follows_made (hx.mono ht₂.world.itself_le) (hy.mono ht₂.world.itself_le)
      (hp.mono ht₂.world.itself_le) (Value.made_multiply room)).reindex fun β q n hq =>
        ⟨q.1, hq.1, by rw [show q.2 = room from hq.2]⟩
  | divide => exact follows_made hx hy hp Value.made_divide
  | lt => exact follows_less hp
  | eq => exact follows_equal hp
  | modulo =>
    have hmade := follows_made (o := o) (d := d) hx hy hp Value.made_remainder
    cases hx with
    | @text own _ codes hown =>
      refine Follows.reindex (S := (Counterparts.ofValue y).both ((Counterparts.ofOrigin own).both
        (.ofOrigin p))) (C := fun q n => format Discreet.host (lookup' n) q.2.1 q.2.2 codes q.1)
        (follows_format hlookup hown hp codes hy) fun β q n hq => ?_
      obtain ⟨⟨x', y'⟩, p'⟩ := q
      obtain ⟨⟨hx', hy'⟩, hp'⟩ := hq
      cases hx' with
      | text ho => exact ⟨(y', _, p'), ⟨hy', ho, hp'⟩, rfl⟩
    | _ =>
      refine hmade.reindex fun β q n hq => ⟨q, hq, ?_⟩
      obtain ⟨⟨x', y'⟩, p'⟩ := q
      obtain ⟨⟨hx', -⟩, -⟩ := hq
      cases hx'
      all_goals rfl
  | _ =>
    refine (follows_throw (R := .same ()) _).reindex fun β q n hq => ⟨(), rfl, ?_⟩
    dsimp only
    rw [hq.1.1.kind_eq, hq.1.2.kind_eq]

end Calculating

end RowLang
