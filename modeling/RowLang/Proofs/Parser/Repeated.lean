import Mathlib.Logic.Relation
import RowLang.Proofs.Parser.Onward

/-!
# Proofs/Parser/Repeated — when a repetition ends

A repetition goes on, reading by reading, with what the parser leaves (`Calls`).  One reading that
consumes nothing ends it; but of several each is gone on with, and one that consumes nothing leads
back to the text that it is a reading of.

  * `many_eq_round` — the bound on the number of rounds is never felt: `many p` is what one round of
  it makes of
`many p` itself.
  * `many_ends_iff` — **a repetition ends if and only if it nowhere goes on with the text it stands
  at**; then its
calls are well founded, and otherwise they go round for ever.
-/

namespace RowLang.Parser

open Relation

variable {α β : Type} {p : Parser α} {s t rest : List Char}

/-- At no text does the parser go on for ever. -/
def Terminating (p : Parser α) : Prop := ∀ s, p s ≠ .error .endless

/-- One round of a repetition, which goes on with `self`. -/
def round (p : Parser α) (self : Parser (List α)) : Parser (List α) := fun s => do
  match ← p s with
  | [] => return [([], s)]
  | [(x, rest)] => if rest = s then return [([], s)] else self.map (x :: ·) rest
  | readings => readOn (fun x => self.map (x :: ·)) readings

/-- A repetition that stands at `s` goes on with `t`: a reading leaves it, those before have been
gone on with, and it is not a lone reading that consumes nothing. -/
def Calls (p : Parser α) (s t : List Char) : Prop :=
  ∃ before x after, p s = .ok (before ++ (x, t) :: after) ∧ (before ++ after = [] → t ≠ s) ∧
    ∀ q ∈ before, ∃ more, many p q.2 = .ok more

/-! ## Readings that are read on -/

/-- The parse is stopped by the first reading that cannot be read on. -/
theorem readOn_eq_error_iff {f : α → Parser β} {why : Halt} : ∀ {rs : Readings α},
    readOn f rs = .error why ↔ ∃ before x rest after, rs = before ++ (x, rest) :: after ∧
      f x rest = .error why ∧ ∀ q ∈ before, ∃ more, f q.1 q.2 = .ok more
  | [] => by simp
  | (x, rest) :: rs => by
    cases hx : f x rest with
    | error e =>
      have hstop : readOn f ((x, rest) :: rs) = .error e := by rw [readOn, hx]; rfl
      rw [hstop, Except.error.injEq]
      constructor
      · rintro rfl
        exact ⟨[], x, rest, rs, rfl, hx, by simp⟩
      · rintro ⟨_ | ⟨q, before⟩, y, rest', after, heq, hy, hbefore⟩
        · cases heq
          exact Except.error.inj (hx.symm.trans hy)
        · cases heq
          obtain ⟨more, hmore⟩ := hbefore _ List.mem_cons_self
          cases hx.symm.trans hmore
    | ok here =>
      have hmore : readOn f ((x, rest) :: rs) = .error why ↔ readOn f rs = .error why := by
        rw [readOn, hx]
        cases readOn f rs <;> simp [bind, Except.bind, pure, Except.pure]
      rw [hmore, readOn_eq_error_iff]
      constructor
      · rintro ⟨before, y, rest', after, rfl, hy, hbefore⟩
        exact ⟨(x, rest) :: before, y, rest', after, rfl, hy,
          List.forall_mem_cons.mpr ⟨⟨here, hx⟩, hbefore⟩⟩
      · rintro ⟨_ | ⟨q, before⟩, y, rest', after, heq, hy, hbefore⟩
        · cases heq
          cases hx.symm.trans hy
        · cases heq
          exact ⟨before, y, rest', after, rfl, hy, (List.forall_mem_cons.mp hbefore).2⟩

/-- Two ways to read on come to the same if they agree up to the first reading that cannot be read
on. -/
theorem readOn_congr {f g : α → Parser β} : ∀ {rs : Readings α},
    (∀ before x rest after, rs = before ++ (x, rest) :: after →
      (∀ q ∈ before, ∃ more, f q.1 q.2 = .ok more) → f x rest = g x rest) →
        readOn f rs = readOn g rs
  | [], _ => rfl
  | (x, rest) :: rs, h => by
    have hx : f x rest = g x rest := h [] x rest rs rfl (by simp)
    rw [readOn, readOn, ← hx]
    cases hf : f x rest with
    | error e => rfl
    | ok here =>
      rw [readOn_congr fun before y rest' after heq hbefore =>
        h ((x, rest) :: before) y rest' after (by rw [heq]; rfl)
          (List.forall_mem_cons.mpr ⟨⟨here, hf⟩, hbefore⟩)]

theorem readOn_ok_of_mem {f : α → Parser β} : ∀ {rs : Readings α} {more : Readings β},
    readOn f rs = .ok more → ∀ {r}, r ∈ rs → ∃ here, f r.1 r.2 = .ok here
  | (x, rest) :: rs, more, h, r, hr => by
    rw [readOn] at h
    cases hx : f x rest with
    | error e =>
      rw [hx] at h
      cases h
    | ok here =>
      rw [hx] at h
      rcases List.mem_cons.mp hr with rfl | hr
      · exact ⟨here, hx⟩
      · cases hrs : readOn f rs with
        | error e =>
          rw [hrs] at h
          cases h
        | ok after => exact readOn_ok_of_mem hrs hr

theorem map_eq_error_iff {f : α → β} {why : Halt} : p.map f s = .error why ↔ p s = .error why := by
  unfold Parser.map
  cases p s <;> simp [bind, Except.bind, pure, Except.pure]

theorem map_eq_ok_iff {f : α → β} : (∃ more, p.map f s = .ok more) ↔ ∃ more, p s = .ok more := by
  unfold Parser.map
  cases p s <;> simp [bind, Except.bind, pure, Except.pure]

/-! ## The bound on the number of rounds -/

theorem Onward.of_mem (h : Onward p) {readings : Readings α} (hs : p s = .ok readings)
    {r : α × List Char} (hr : r ∈ readings) : r.2 <:+ s := by
  have hgives := h s
  rw [hs] at hgives
  exact hgives r hr

theorem length_lt_of_suffix (h : rest <:+ s) (hne : rest ≠ s) : rest.length < s.length :=
  lt_of_le_of_ne h.length_le fun hlen => hne (h.eq_of_length hlen)

theorem manyWithin_of_none {n : ℕ} (hs : p s = .ok []) :
    manyWithin p (n + 1) s = .ok [([], s)] := by
  rw [manyWithin, hs]
  rfl

theorem manyWithin_of_one {n : ℕ} {x : α} (hs : p s = .ok [(x, rest)]) : manyWithin p (n + 1) s =
    if rest = s then .ok [([], s)] else (manyWithin p n).map (x :: ·) rest := by
  rw [manyWithin, hs]
  rfl

theorem manyWithin_of_several {n : ℕ} {r r' : α × List Char} {rs : Readings α}
    (hs : p s = .ok (r :: r' :: rs)) : manyWithin p (n + 1) s =
      readOn (fun x rest => if rest.length < s.length then (manyWithin p n).map (x :: ·) rest
        else .error .endless) (r :: r' :: rs) := by
  rw [manyWithin, hs]
  rfl

/-- Any number of rounds above the length of the text is as good as another. -/
theorem manyWithin_eq (h : Onward p) : ∀ {n m : ℕ} {s : List Char}, s.length < n → s.length < m →
    manyWithin p n s = manyWithin p m s
  | 0, _, _, hn, _ => absurd hn (Nat.not_lt_zero _)
  | _, 0, _, _, hm => absurd hm (Nat.not_lt_zero _)
  | n + 1, m + 1, s, hn, hm => by
    have hnext (x : α) {rest : List Char} (hlt : rest.length < s.length) :
        (manyWithin p n).map (x :: ·) rest = (manyWithin p m).map (x :: ·) rest := by
      rw [Parser.map, Parser.map, manyWithin_eq h (m := m) (by omega) (by omega)]
    rcases hs : p s with e | _ | ⟨⟨x, rest⟩, _ | ⟨r', rs⟩⟩
    · simp only [manyWithin, hs]
      rfl
    · rw [manyWithin_of_none hs, manyWithin_of_none hs]
    · rw [manyWithin_of_one hs, manyWithin_of_one hs]
      split
      · rfl
      · next hne => exact hnext x (length_lt_of_suffix (h.of_mem hs List.mem_cons_self) hne)
    · rw [manyWithin_of_several hs, manyWithin_of_several hs]
      refine readOn_congr fun before y rest after _ _ => ?_
      split
      · next hlt => exact hnext y hlt
      · rfl

variable {x : α} {r r' : α × List Char} {rs : Readings α}

theorem many_of_one (h : Onward p) (hs : p s = .ok [(x, rest)]) :
    many p s = if rest = s then .ok [([], s)] else (many p).map (x :: ·) rest := by
  rw [many, manyWithin_of_one hs]
  split
  · rfl
  · next hne =>
    rw [Parser.map, Parser.map, many,
      manyWithin_eq h (length_lt_of_suffix (h.of_mem hs List.mem_cons_self) hne)
        (Nat.lt_succ_self _)]

/-- How each of several readings at `s` is gone on with: what consumes nothing comes to no end. -/
def goOn (p : Parser α) (s : List Char) (x : α) : Parser (List α) := fun rest =>
  if rest = s then .error .endless else (many p).map (x :: ·) rest

theorem goOn_self : goOn p s x s = .error .endless := if_pos rfl

theorem goOn_of_ne (h : rest ≠ s) : goOn p s x rest = (many p).map (x :: ·) rest := if_neg h

theorem many_eq_goOn (h : Onward p) (hs : p s = .ok (r :: r' :: rs)) :
    many p s = readOn (goOn p s) (r :: r' :: rs) := by
  rw [many, manyWithin_of_several hs]
  refine readOn_congr fun before y rest after heq _ => ?_
  have hsuffix : rest <:+ s := h.of_mem (r := (y, rest)) hs (by simp [heq])
  by_cases hrest : rest = s
  · rw [if_neg (by simp [hrest]), hrest, goOn_self]
  · have hlt := length_lt_of_suffix hsuffix hrest
    rw [goOn_of_ne hrest, if_pos hlt, Parser.map, Parser.map, many,
      manyWithin_eq h hlt (Nat.lt_succ_self _)]

/-- A reading is alone or one of several. -/
theorem alone_or_several (before : Readings α) (q : α × List Char) (after : Readings α) :
    before = [] ∧ after = [] ∨ ∃ r r' rs, before ++ q :: after = r :: r' :: rs := by
  rcases before with _ | ⟨q', _ | ⟨q'', before⟩⟩
  · rcases after with _ | ⟨r', after⟩
    · exact .inl ⟨rfl, rfl⟩
    · exact .inr ⟨_, _, _, rfl⟩
  · exact .inr ⟨_, _, _, rfl⟩
  · exact .inr ⟨_, _, _, rfl⟩

/-! ## Going on -/

/-- **What is gone on with at the same text never ends.** -/
theorem Calls.endless_of_self (h : Onward p)
    (hcall : Calls p s s) : many p s = .error .endless := by
  obtain ⟨before, x, after, hs, hlone, hbefore⟩ := hcall
  obtain ⟨rfl, rfl⟩ | ⟨r, r', rs, hrs⟩ := alone_or_several before (x, s) after
  · exact absurd rfl (hlone rfl)
  have hmany : many p s = readOn (goOn p s) (before ++ (x, s) :: after) := by
    rw [many_eq_goOn h (hrs ▸ hs), ← hrs]
  -- none before it leaves the text as well: that one would have had no end either
  have hne : ∀ q ∈ before, q.2 ≠ s := by
    rintro q hq rfl
    obtain ⟨more, hmore⟩ := hbefore q hq
    obtain ⟨_, hgo⟩ := readOn_ok_of_mem (hmany.symm.trans hmore) (List.mem_append_left _ hq)
    cases goOn_self.symm.trans hgo
  refine hmany.trans (readOn_eq_error_iff.mpr ⟨before, x, s, after, rfl, goOn_self, fun q hq => ?_⟩)
  rw [goOn_of_ne (hne q hq), map_eq_ok_iff]
  exact hbefore q hq

/-- Of several readings each is gone on with. -/
theorem many_of_several (h : Onward p) (hs : p s = .ok (r :: r' :: rs)) :
    many p s = readOn (fun x => (many p).map (x :: ·)) (r :: r' :: rs) := by
  rw [many_eq_goOn h hs]
  refine readOn_congr fun before y rest after heq hbefore => ?_
  by_cases hrest : rest = s
  · subst hrest
    have hcall : Calls p rest rest := by
      refine ⟨before, y, after, heq ▸ hs, fun hlone => ?_, fun q hq => ?_⟩
      · obtain ⟨rfl, rfl⟩ := List.append_eq_nil_iff.mp hlone
        cases heq
      · obtain ⟨more, hgo⟩ := hbefore q hq
        by_cases hq' : q.2 = rest
        · rw [hq', goOn_self] at hgo
          cases hgo
        · exact map_eq_ok_iff.mp ⟨more, (goOn_of_ne hq').symm.trans hgo⟩
    rw [goOn_self, eq_comm, map_eq_error_iff]
    exact hcall.endless_of_self h
  · exact goOn_of_ne hrest

/-- **The bound on the number of rounds is never felt**: a repetition is one round of itself. -/
theorem many_eq_round (h : Onward p) (s : List Char) : many p s = round p (many p) s := by
  match hs : p s with
  | .error e => simp only [many, manyWithin, round, hs]; rfl
  | .ok [] => rw [many, manyWithin_of_none hs, round, hs]; rfl
  | .ok [(x, rest)] => rw [many_of_one h hs, round, hs]; rfl
  | .ok (r :: r' :: rs) => rw [many_of_several h hs, round, hs]; rfl

theorem Calls.suffix (h : Onward p) (hcall : Calls p s t) : t <:+ s := by
  obtain ⟨before, x, after, hs, -⟩ := hcall
  exact h.of_mem (r := (x, t)) hs (by simp)

/-- What goes on with what never ends does not end. -/
theorem Calls.endless (h : Onward p) (hcall : Calls p s t) (ht : many p t = .error .endless) :
    many p s = .error .endless := by
  obtain ⟨before, x, after, hs, hlone, hbefore⟩ := hcall
  obtain ⟨rfl, rfl⟩ | ⟨r, r', rs, hrs⟩ := alone_or_several before (x, t) after
  · rw [many_of_one h hs, if_neg (hlone rfl), map_eq_error_iff]
    exact ht
  · rw [many_of_several h (hrs ▸ hs), ← hrs, readOn_eq_error_iff]
    exact ⟨before, x, t, after, rfl, map_eq_error_iff.mpr ht,
      fun q hq => map_eq_ok_iff.mpr (hbefore q hq)⟩

/-- What never ends goes on with something that never ends. -/
theorem exists_calls_of_endless (h : Onward p) (hp : Terminating p)
    (hs : many p s = .error .endless) :
    ∃ t, Calls p s t ∧ many p t = .error .endless := by
  match hr : p s with
  | .error e =>
    have he : many p s = .error e := by simp only [many, manyWithin, hr]; rfl
    cases he.symm.trans hs
    exact absurd hr (hp s)
  | .ok [] => cases (manyWithin_of_none hr).symm.trans hs
  | .ok [(x, rest)] =>
    rw [many_of_one h hr] at hs
    split at hs
    · cases hs
    · next hne => exact ⟨rest, ⟨[], x, [], hr, fun _ => hne, by simp⟩, map_eq_error_iff.mp hs⟩
  | .ok (r :: r' :: rs) =>
    rw [many_of_several h hr, readOn_eq_error_iff] at hs
    obtain ⟨before, x, rest, after, heq, hrest, hbefore⟩ := hs
    refine ⟨rest,
      ⟨before, x, after, heq ▸ hr, fun hlone => ?_, fun q hq => map_eq_ok_iff.mp (hbefore q hq)⟩,
      map_eq_error_iff.mp hrest⟩
    obtain ⟨rfl, rfl⟩ := List.append_eq_nil_iff.mp hlone
    cases heq

/-! ## Ending -/

/-- What never ends comes to a text that it goes on with where it stands. -/
theorem exists_self_call_of_endless (h : Onward p) (hp : Terminating p)
    (hs : many p s = .error .endless) :
    ∃ t, ReflTransGen (Calls p) s t ∧ Calls p t t := by
  induction hlen : s.length using Nat.strong_induction_on generalizing s with
  | _ n ih =>
    obtain ⟨t, hcall, ht⟩ := exists_calls_of_endless h hp hs
    by_cases hts : t = s
    · exact ⟨s, .refl, hts ▸ hcall⟩
    · obtain ⟨u, htu, hu⟩ := ih t.length (hlen ▸ length_lt_of_suffix (hcall.suffix h) hts) ht rfl
      exact ⟨u, .head hcall htu, hu⟩

/-- From what ends all calls lead to shorter texts. -/
theorem acc_of_ends (h : Onward p) (hs : many p s ≠ .error .endless) : Acc (flip (Calls p)) s := by
  induction hlen : s.length using Nat.strong_induction_on generalizing s with
  | _ n ih =>
    refine ⟨s, fun t (hcall : Calls p s t) => ?_⟩
    have hts : t ≠ s := by
      rintro rfl
      exact hs (hcall.endless_of_self h)
    exact ih t.length (hlen ▸ length_lt_of_suffix (hcall.suffix h) hts)
      (fun ht => hs (hcall.endless h ht)) rfl

theorem ends_of_acc (h : Onward p) (hp : Terminating p) (hs : Acc (flip (Calls p)) s) :
    many p s ≠ .error .endless := by
  induction hs with
  | intro s _ ih =>
    intro hends
    obtain ⟨t, hcall, ht⟩ := exists_calls_of_endless h hp hends
    exact ih t hcall ht

/-- **When a repetition ends**: if and only if it comes to no text of which several readings are
gone on with and one of them consumes nothing.  Its calls are well founded then. -/
theorem many_ends_iff (h : Onward p) (hp : Terminating p) (s : List Char) :
    many p s = round p (many p) s ∧
      (many p s ≠ .error .endless ↔ Acc (flip (Calls p)) s) ∧
      (many p s ≠ .error .endless ↔ ∀ t, ReflTransGen (Calls p) s t → ¬ Calls p t t) := by
  refine ⟨many_eq_round h s, ⟨acc_of_ends h, ends_of_acc h hp⟩, fun hs t hst hself => hs ?_,
    fun hnone hs => ?_⟩
  · exact hst.head_induction_on (hself.endless_of_self h) fun hcall _ => hcall.endless h
  · obtain ⟨t, hst, hself⟩ := exists_self_call_of_endless h hp hs
    exact hnone t hst hself

/-- One `a` or two. -/
def oneOrTwo : Parser (List Char) :=
  choice [sat (Lexer.exactly ['a']), sat (Lexer.exactly ['a', 'a'])]

theorem many_ends_of_oneOrTwo :
    ((Onward oneOrTwo ∧ Terminating oneOrTwo) ∧
      many oneOrTwo ['a', 'a'] = .ok [([['a'], ['a']], []), ([['a', 'a']], [])]) ∧
      ∀ t, ReflTransGen (Calls oneOrTwo) ['a', 'a'] t → ¬ Calls oneOrTwo t t := by
  have honward : Onward oneOrTwo := fun s => gives_choice (by
    simpa using ⟨Onward.toList (Lexer.Onward.exactly ['a']) s,
      Onward.toList (Lexer.Onward.exactly ['a', 'a']) s⟩)
  have hending : Terminating oneOrTwo := fun s => nofun
  have hmany : many oneOrTwo ['a', 'a'] = .ok [([['a'], ['a']], []), ([['a', 'a']], [])] := by
    decide +kernel
  refine ⟨⟨⟨honward, hending⟩, hmany⟩, (many_ends_iff honward hending _).2.2.mp ?_⟩
  rw [hmany]
  exact nofun

/-- Two readings, each of nothing. -/
def nothingTwice : Parser ℕ := choice [Parser.pure 1, Parser.pure 2]

/-- **Not every repetition ends**: two readings of nothing are gone on with for ever. -/
theorem not_many_ends_of_nothingTwice :
    (Onward nothingTwice ∧ Terminating nothingTwice) ∧
      many nothingTwice ['x'] = .error .endless := by
  refine ⟨⟨fun s => gives_choice ?_, fun s => nofun⟩, rfl⟩
  simpa using ⟨Onward.pure 1 s, Onward.pure 2 s⟩

end RowLang.Parser
