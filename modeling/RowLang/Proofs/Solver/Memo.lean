import RowLang.Proofs.Solver.Grows
import RowLang.Proofs.Solver.Parts

/-!
# Proofs/Solver/Memo — every equality in the memo is backed

While a run goes on, an equality is in the memo before its parts are.  When it is over, all that an
equality in the memo comes to is pending or in the memo itself (`Backed`), and the pending equations
are good (`Kept`).  Both hold after any tasks, done from any state, by one induction over the steps;
fresh variables get the role of the tails that they stand behind.
-/

namespace RowLang.Solver

open Ty

/-! ## Backed equalities -/

/-- What a task comes to is in the memo. -/
def Done (K : Census) (st : Solver) : Task → Prop
  | .agree s t => equalityKey s t ∈ st.visited
  | .meet k fields tail others tail' => ∃ n room room', tail.Good K (.tail k room) ∧
      tail'.Good K (.tail k room') ∧ (Ty.row k fields (.var n)).Good K (.tail k room') ∧
      (Ty.row k others (.var n)).Good K (.tail k room) ∧
      (tail ≠ k.end ∧ ∀ k' inner rest, tail ≠ .row k' inner rest) ∧
      (tail' ≠ k.end ∧ ∀ k' inner rest, tail' ≠ .row k' inner rest) ∧
      equalityKey tail' (.row k fields (.var n)) ∈ st.visited ∧
      equalityKey tail (.row k others (.var n)) ∈ st.visited

/-- What an equality of flat types comes to is pending or in the memo. -/
def Settled (K : Census) (st : Solver) (s t : Ty) : Prop :=
  match outcome s t with
  | .defer n u => (Equation.of n u).key ∈ st.keys
  | .reopen => ∃ key mid mid' s' t',
      (openBinders key maxUnfoldings s t).run mid = (.ok (s', t'), mid') ∧
        equalityKey s' t' ∈ st.visited
  | .clash => False
  | .split tasks => ∀ task ∈ tasks, Done K st task

/-- An equality in the memo of which all that it comes to is pending or in the memo. -/
def Backed (K : Census) (st : Solver) (key : String) : Prop :=
  ∃ r s t, s.Good K r ∧ t.Good K r ∧ key = equalityKey s t ∧ Settled K st s.flatten t.flatten

variable {K K' : Census}

theorem Done.mono {st st' : Solver} {task : Task} (h : Done K st task) (hK : K.Le K')
    (hst : st.Grows st') : Done K' st' task := by
  cases task with
  | agree s t => exact hst.visited _ h
  | meet k fields tail others tail' =>
    obtain ⟨n, room, room', ht, ht', hf, ho, hne, hne', hv, hv'⟩ := h
    exact ⟨n, room, room', ht.mono hK, ht'.mono hK, hf.mono hK, ho.mono hK, hne, hne',
      hst.visited _ hv, hst.visited _ hv'⟩

theorem Backed.mono {st st' : Solver} {key : String} (h : Backed K st key) (hK : K.Le K')
    (hst : st.Grows st') : Backed K' st' key := by
  obtain ⟨r, s, t, hs, ht, hkey, hsettled⟩ := h
  refine ⟨r, s, t, hs.mono hK, ht.mono hK, hkey, ?_⟩
  unfold Settled at hsettled ⊢
  cases hout : outcome s.flatten t.flatten with
  | defer n u => rw [hout] at hsettled; exact hst.keys _ hsettled
  | reopen =>
    rw [hout] at hsettled
    obtain ⟨key', mid, mid', s', t', hopen, hv⟩ := hsettled
    exact ⟨key', mid, mid', s', t', hopen, hst.visited _ hv⟩
  | clash => rw [hout] at hsettled; exact hsettled
  | split tasks =>
    rw [hout] at hsettled
    exact fun task hmem => (hsettled task hmem).mono hK hst

/-! ## Good states -/

/-- A pending equation that says something good of a variable that may become any type. -/
structure GoodEquation (K : Census) (e : Equation) : Prop where
  free : K.free e.var
  good : e.type.Good K (K.role e.var)
  nontrivial : e.type ≠ .var e.var

theorem GoodEquation.mono {e : Equation} (h : GoodEquation K e) (hK : K.Le K') :
    GoodEquation K' e :=
  ⟨hK.free _ h.free, hK.role _ (Or.inl h.free) ▸ h.good.mono hK, h.nontrivial⟩

/-- A state about which a census knows all. -/
structure Kept (K : Census) (st : Solver) : Prop where
  pending : ∀ e ∈ st.pending, GoodEquation K e
  numbers : K.numbered → ∀ v, K.Known v → v < st.counter
  seen : ∀ key ∈ st.visited, key ∈ st.trace

theorem Kept.noting {st : Solver} (h : Kept K st) (key : String) : Kept K (st.noting key) where
  pending := h.pending
  numbers := h.numbers
  seen k hk := by
    rcases List.mem_cons.mp hk with rfl | hk
    · exact List.mem_cons_self
    · exact List.mem_cons_of_mem _ (h.seen k hk)

theorem Kept.posting {st : Solver} (h : Kept K st) {n : Nat} {t : Ty} (hfree : K.free n)
    (ht : t.Good K (K.role n)) (hne : t ≠ .var n) : Kept K (st.posting n t) where
  pending e he := by
    rcases Equation.mem_post he with rfl | he
    · exact ⟨hfree, ht, hne⟩
    · exact h.pending e he
  numbers := h.numbers
  seen := h.seen

theorem Kept.counting {st : Solver} (h : Kept K st) {r : Role} (hnum : K.numbered)
    (hnew : ¬ K.Known st.counter) :
    Kept (K.addFree st.counter r (fun hb => hnew (Or.inr hb)) hnum) st.counting where
  pending e he := (h.pending e he).mono (Census.le_addFree hnew)
  numbers _ v hv := by
    rcases hv with (rfl | hv) | hv
    · exact Nat.lt_succ_self _
    · exact Nat.lt_succ_of_lt (h.numbers hnum v (Or.inl hv))
    · exact Nat.lt_succ_of_lt (h.numbers hnum v (Or.inr hv))
  seen := h.seen

theorem Kept.not_known {st : Solver} (h : Kept K st) (hnum : K.numbered) :
    ¬ K.Known st.counter := fun hv => Nat.lt_irrefl _ (h.numbers hnum _ hv)

/-! ## Markers -/

/-- What the equality of a marker with a row of fields comes to: it is in the memo, or it fails. -/
theorem Works.mem_of_end_row {k : RowKind} {fields : Row Ty} {tail : Ty} {ts : List Task}
    {st st' : Solver} (h : Works (.agree k.end (.row k fields tail) :: ts) st st') :
    equalityKey k.end (.row k fields tail) ∈ st.visited := by
  have hclash := outcome_end_row k fields tail
  cases h with
  | known hkey _ => exact hkey
  | defer _ hout _ => rw [hclash] at hout; cases hout
  | reopen _ hout _ _ => rw [hclash] at hout; cases hout
  | split _ hout _ => rw [hclash] at hout; cases hout

/-- What is the rest of a row and neither a marker nor a row has a variable of that role. -/
theorem numbered_of_tail {t : Ty} {k : RowKind} {room : Finset Label} (h : Fits K (.tail k room) t)
    (hend : t ≠ k.end) (hrow : ∀ k' fields tail, t ≠ .row k' fields tail) : K.numbered := by
  by_contra hnum
  have hwhole : ∀ v, K.role v ≠ .tail k room := fun v hv => by
    rw [K.whole hnum v] at hv
    cases hv
  cases t with
  | number | char | arrow | list => simp [Fits] at h
  | unit => obtain ⟨_, he⟩ := h; cases he; exact hend rfl
  | empty => obtain ⟨_, he⟩ := h; cases he; exact hend rfl
  | var n => exact hwhole n h.1
  | row k' fields tail => exact hrow _ _ _ rfl
  | bind b p body =>
    cases b with
    | forAll => exact h.elim
    | mu => exact hwhole p h.1

/-! ## Runs -/

/-- What a run from a good state that loses no equality leaves behind. -/
private def Leaves (K : Census) (ts : List Task) (st st' : Solver) : Prop :=
  ∃ K', K.Le K' ∧ Kept K' st' ∧ (∀ task ∈ ts, Done K' st' task) ∧
    ∀ key ∈ st'.visited, key ∈ st.visited ∨ Backed K' st' key

/-- A step that notes an equality leaves it backed, if what it comes to is settled. -/
private theorem leaves_of_noting {K : Census} {r : Role} {s t : Ty} {ts ts' : List Task}
    {st mid st' : Solver} (hs : s.Good K r) (ht : t.Good K r)
    (hmid : mid.visited = equalityKey s t :: st.visited) (hgrows : mid.Grows st')
    (h : Leaves K ts' mid st') (hsub : ∀ task ∈ ts, task ∈ ts')
    (hsettled : ∀ K', (∀ task ∈ ts', Done K' st' task) → Settled K' st' s.flatten t.flatten) :
    Leaves K (.agree s t :: ts) st st' := by
  obtain ⟨K', hle, hK', hdone, hback⟩ := h
  refine ⟨K', hle, hK', fun task hmem => ?_, fun key hkey => ?_⟩
  · rcases List.mem_cons.mp hmem with rfl | hmem
    · exact hgrows.visited _ (hmid ▸ List.mem_cons_self)
    · exact hdone task (hsub task hmem)
  · rcases hback key hkey with hkey | hkey
    · rw [hmid] at hkey
      rcases List.mem_cons.mp hkey with rfl | hkey
      · exact Or.inr ⟨r, s, t, hs.mono hle, ht.mono hle, rfl, hsettled K' hdone⟩
      · exact Or.inl hkey
    · exact Or.inr hkey

/-- Fresh variables get the role of what stands behind both rows. -/
private theorem leaves_of_meet {K : Census} {k : RowKind} {fields others : Row Ty} {tail tail' : Ty}
    {ts : List Task} {st st' : Solver} (hK : Kept K st) (hlost : ¬ st'.Lost)
    (hmeet : GoodTask K (.meet k fields tail others tail'))
    (hts : ∀ task ∈ ts, GoodTask K task)
    (hw : Works (.agree tail' (.row k fields (.var st.counter)) ::
      .agree tail (.row k others (.var st.counter)) :: ts) st.counting st')
    (ih : ∀ {K},
      Kept K st.counting → (∀ task ∈ Task.agree tail' (.row k fields (.var st.counter)) ::
      .agree tail (.row k others (.var st.counter)) :: ts, GoodTask K task) →
        Leaves K (.agree tail' (.row k fields (.var st.counter)) ::
          .agree tail (.row k others (.var st.counter)) :: ts) st.counting st') :
    Leaves K (.meet k fields tail others tail' :: ts) st st' := by
  obtain ⟨room, room₁, ht, ht', hf, ho, hroom, hne, hne'⟩ := hmeet
  have hend' : tail' ≠ k.end := by
    rintro rfl
    exact hlost ⟨k, fields, .var _, hf.ne_nil, hf.tidy_row trivial,
      hw.grows.trace _ (hK.seen _ hw.mem_of_end_row)⟩
  have hnum := numbered_of_tail ht'.fits hend' hne'
  have hnew := hK.not_known hnum
  have hvar : (Ty.var st.counter).Good (K.addFree st.counter
      (.tail k (room₁ \ Row.domain fields)) (fun hb => hnew (Or.inr hb)) hnum)
      (.tail k (room₁ \ Row.domain fields)) := by
    have := good_var (K := K.addFree st.counter (.tail k (room₁ \ Row.domain fields))
      (fun hb => hnew (Or.inr hb)) hnum) (n := st.counter) (Or.inl rfl)
    simpa [Census.addFree] using this
  have hle : K.Le (K.addFree st.counter (.tail k (room₁ \ Row.domain fields))
      (fun hb => hnew (Or.inr hb)) hnum) := Census.le_addFree hnew
  obtain ⟨K', hle', hK', hdone, hback⟩ := ih (hK.counting hnum hnew) fun task hmem => by
    rcases List.mem_cons.mp hmem with rfl | hmem
    · exact ⟨_, ht'.mono hle, (hf.mono hle).row hvar⟩
    · rcases List.mem_cons.mp hmem with rfl | hmem
      · exact ⟨_, ht.mono hle, (ho.mono hle).row (hroom ▸ hvar)⟩
      · exact (hts task hmem).mono hle
  have hkey' := hdone _ List.mem_cons_self
  have hkey := hdone _ (List.mem_cons_of_mem _ List.mem_cons_self)
  have hend : tail ≠ k.end := by
    rintro rfl
    exact hlost ⟨k, others, .var _, ho.ne_nil, ho.tidy_row trivial, hK'.seen _ hkey⟩
  refine ⟨K', hle.trans hle', hK', fun task hmem => ?_, hback⟩
  rcases List.mem_cons.mp hmem with rfl | hmem
  · exact ⟨st.counter, room, room₁, (ht.mono hle).mono hle', (ht'.mono hle).mono hle',
      ((hf.mono hle).row hvar).mono hle', ((ho.mono hle).row (hroom ▸ hvar)).mono hle',
      ⟨hend, hne⟩, ⟨hend', hne'⟩, hkey', hkey⟩
  · exact hdone task (List.mem_cons_of_mem _ (List.mem_cons_of_mem _ hmem))

/-- **After a run from a good state every task is done, the state is good, and every equality that
has come into the memo is backed** — unless an equality has been lost. -/
theorem Works.kept {ts : List Task} {st st' : Solver} (h : Works ts st st') (hlost : ¬ st'.Lost) :
    ∀ {K}, Kept K st → (∀ task ∈ ts, GoodTask K task) → ∃ K', K.Le K' ∧ Kept K' st' ∧
      (∀ task ∈ ts, Done K' st' task) ∧
      ∀ key ∈ st'.visited, key ∈ st.visited ∨ Backed K' st' key := by
  induction h with
  | nil st => intro K hK _; exact ⟨K, .refl K, hK, by simp, fun key hk => Or.inl hk⟩
  | known hkey hw ih =>
    intro K hK hgood
    obtain ⟨K', hle, hK', hdone, hback⟩ := ih hlost hK
      fun task hmem => hgood task (List.mem_cons_of_mem _ hmem)
    refine ⟨K', hle, hK', fun task hmem => ?_, hback⟩
    rcases List.mem_cons.mp hmem with rfl | hmem
    · exact hw.grows.visited _ hkey
    · exact hdone task hmem
  | @defer s t ts n u st st' hkey hout hw ih =>
    intro K hK hgood
    obtain ⟨r, hs, ht⟩ := hgood _ List.mem_cons_self
    obtain ⟨hfree, hu, hne⟩ := good_of_defer hs.flatten ht.flatten hout
    have hkept := (hK.noting (equalityKey s t)).posting hfree hu hne
    refine leaves_of_noting hs ht rfl hw.grows (ih hlost hkept fun task hmem =>
      hgood task (List.mem_cons_of_mem _ hmem)) (fun _ h => h) fun K' _ => ?_
    rw [Settled, hout]
    exact hw.grows.keys _ (Equation.mem_keys_post.mpr (Or.inl rfl))
  | @reopen s t s' t' ts st mid st' hkey hout hopen hw ih =>
    intro K hK hgood
    obtain ⟨r, hs, ht⟩ := hgood _ List.mem_cons_self
    obtain ⟨rfl, hs', ht', -⟩ := openBinders_good hs.flatten ht.flatten hopen
    refine leaves_of_noting hs ht rfl hw.grows (ih hlost (hK.noting _) fun task hmem => ?_)
      (fun _ => List.mem_cons_of_mem _) fun K' hdone => ?_
    · rcases List.mem_cons.mp hmem with rfl | hmem
      · exact ⟨r, hs', ht'⟩
      · exact hgood task (List.mem_cons_of_mem _ hmem)
    · rw [Settled, hout]
      exact ⟨_, _, _, _, _, hopen, hdone _ List.mem_cons_self⟩
  | @split s t ts tasks st st' hkey hout hw ih =>
    intro K hK hgood
    obtain ⟨r, hs, ht⟩ := hgood _ List.mem_cons_self
    refine leaves_of_noting hs ht rfl hw.grows (ih hlost (hK.noting _) fun task hmem => ?_)
      (fun _ => List.mem_append_right _) fun K' hdone => ?_
    · exact (List.mem_append.mp hmem).elim (goodTask_of_split hs ht hout task)
        fun hmem => hgood task (List.mem_cons_of_mem _ hmem)
    · rw [Settled, hout]
      exact fun task hmem => hdone task (List.mem_append_left _ hmem)
  | meet hw ih =>
    intro K hK hgood
    exact leaves_of_meet hK hlost (hgood _ List.mem_cons_self)
      (fun task hmem => hgood task (List.mem_cons_of_mem _ hmem)) hw (ih hlost)

/-- **What a new equality comes to is settled after its run**, whatever the sides were before they
were flat. -/
theorem Works.settled {K : Census} {r : Role} {s t : Ty} {st st' : Solver}
    (h : Works [.agree s t] st st') (hlost : ¬ st'.Lost) (hK : Kept K st)
    (hs : s.flatten.Good K r) (ht : t.flatten.Good K r) (hs' : s.flatten.flatten = s.flatten)
    (ht' : t.flatten.flatten = t.flatten) (hkey : equalityKey s t ∉ st.visited) :
    ∃ K', K.Le K' ∧ Kept K' st' ∧ Settled K' st' s.flatten t.flatten ∧
      ∀ key ∈ st'.visited, key ∈ equalityKey s t :: st.visited ∨ Backed K' st' key := by
  cases h with
  | known hv _ => exact absurd hv hkey
  | @defer _ _ _ n u _ _ _ hout hw =>
    obtain ⟨hfree, hu, hne⟩ := good_of_defer hs ht hout
    obtain ⟨K', hle, hK', -, hback⟩ := hw.kept hlost ((hK.noting _).posting hfree hu hne) (by simp)
    refine ⟨K', hle, hK', ?_, hback⟩
    rw [Settled, hout]
    exact hw.grows.keys _ (Equation.mem_keys_post.mpr (Or.inl rfl))
  | reopen _ hout hopen hw =>
    obtain ⟨rfl, hs₁, ht₁, -⟩ := openBinders_good hs ht hopen
    obtain ⟨K', hle, hK', hdone, hback⟩ := hw.kept hlost (hK.noting _) fun task hmem => by
      rw [List.mem_singleton.mp hmem]
      exact ⟨r, hs₁, ht₁⟩
    refine ⟨K', hle, hK', ?_, hback⟩
    rw [Settled, hout]
    exact ⟨_, _, _, _, _, hopen, hdone _ List.mem_cons_self⟩
  | split _ hout hw =>
    rw [List.append_nil] at hw
    obtain ⟨K', hle, hK', hdone, hback⟩ := hw.kept hlost (hK.noting _)
      (goodTask_of_split hs ht (by rw [hs', ht', hout]))
    refine ⟨K', hle, hK', ?_, hback⟩
    rw [Settled, hout]
    exact hdone

end RowLang.Solver
