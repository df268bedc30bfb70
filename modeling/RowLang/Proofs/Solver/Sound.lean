import RowLang.Proofs.Solver.Memo

/-!
# Proofs/Solver/Sound — what the memo says is true

If every equality in the memo is backed, none has been lost, and the variables stand for trees that
satisfy the pending equations, then the two sides of every equality in the memo have one tree
(`Kept.tree_eq`).  The induction is on the depth down to which the trees are compared, and within
one depth on the room of the place where the types stand: behind fields there is less room, and
below them the trees are compared a level less deep.
-/

namespace RowLang.Solver

open Ty

variable {K : Census} {r : Role} {st : Solver}

/-! ## An equality in the memo, in its place -/

theorem flatten_row_ne_nil {k : RowKind} {fields : Row Ty} {tail : Ty} (h : fields ≠ []) :
    ∃ fields' tail', (Ty.row k fields tail).flatten = .row k fields' tail' ∧ fields' ≠ [] := by
  have hmap : Row.mapValues Ty.flatten fields ≠ [] := by simpa [Row.mapValues] using h
  rw [Ty.flatten, flattenFields_eq_map]
  unfold prependRow
  split
  case h_1 k' inner rest _ =>
    split
    · refine ⟨_, _, rfl, fun hnil => hmap ?_⟩
      rw [Row.union_eq_setAll] at hnil
      have hdom := Row.domain_setAll (Row.mapValues Ty.flatten fields) inner
      rw [hnil, Row.domain_nil, eq_comm, Finset.union_eq_empty] at hdom
      have := hdom.1
      rwa [Row.domain, List.toFinset_eq_empty_iff, Row.labels, List.map_eq_nil_iff] at this
    · exact ⟨_, _, rfl, hmap⟩
  · exact ⟨_, _, rfl, hmap⟩

/-- The equality of a row of fields with an empty row is not settled without a loss. -/
theorem not_settled_row_empty {k : RowKind} {fields : Row Ty} {tail : Ty} (hne : fields ≠ [])
    (htidy : (Ty.row k fields tail).Tidy) (hkept : Kept K st) (hlost : ¬ st.Lost) :
    ¬ Settled K st (Ty.row k fields tail).flatten (Ty.row k [] k.end).flatten := by
  obtain ⟨fields', tail', hflat, hne'⟩ := @flatten_row_ne_nil k fields tail hne
  have hempty : (Ty.row k [] k.end).flatten = .row k [] k.end := by cases k <;> rfl
  have hnil : Row.difference id ([] : Row Ty) fields' = [] := rfl
  rw [hflat, hempty, Settled, show outcome (.row k fields' tail') (.row k [] k.end)
    = .split (sharedTasks fields' [] ++ tailTasks k fields' [] tail' k.end) from if_pos rfl]
  intro hdone
  rcases tailTasks_cases k fields' [] tail' k.end with ⟨hdom, -⟩ | ⟨hdiff, -, heq⟩ |
      ⟨hdiff, -, -⟩ | ⟨-, hdiff, -⟩
  · rw [Row.domain_nil, Row.domain, List.toFinset_eq_empty_iff, Row.labels,
      List.map_eq_nil_iff] at hdom
    exact hne' hdom
  · have hkey := hdone _ (List.mem_append_right _ (heq ▸ List.mem_singleton_self _))
    obtain ⟨hf, hfs, ht⟩ := tidy_row.mp (hflat ▸ htidy.flatten)
    exact hlost ⟨k, _, _, hdiff, tidy_row.mpr ⟨hf.difference [],
      fun p hp => hfs p (Row.mem_difference.mp hp).1, ht⟩, hkept.seen _ hkey⟩
  · exact hdiff hnil
  · exact hdiff hnil

theorem not_settled_row_end {k : RowKind} {fields : Row Ty} {tail : Ty} (hne : fields ≠ []) :
    ¬ Settled K st (Ty.row k fields tail).flatten k.end.flatten := by
  obtain ⟨fields', tail', hflat, -⟩ := @flatten_row_ne_nil k fields tail hne
  rw [hflat]
  cases k <;> exact fun h => h

/-- The equalities of good types in the memo are backed, unless they are trivial. -/
def AllBacked (K : Census) (st : Solver) : Prop :=
  ∀ r s t, s.Good K r → t.Good K r → equalityKey s t ∈ st.visited →
    s = t ∨ Backed K st (equalityKey s t)

/-- **An equality in the memo has been considered in its own place**, unless it is trivial. -/
theorem backed_at (hkept : Kept K st) (hlost : ¬ st.Lost) (hback : AllBacked K st) {s t : Ty}
    (hs : s.Good K r) (ht : t.Good K r) (hmem : equalityKey s t ∈ st.visited) :
    s = t ∨ ∃ s₀ t₀, Alike s s₀ ∧ Alike t t₀ ∧ s₀.Good K r ∧ t₀.Good K r ∧
      Settled K st s₀.flatten t₀.flatten := by
  rcases hback r s t hs ht hmem with rfl | ⟨r₀, s₀, t₀, hs₀, ht₀, hkey, hsettled⟩
  · exact Or.inl rfl
  obtain ⟨hstext, httext⟩ := text_eq_of_equalityKey_eq hs.tidy hs₀.tidy hkey
  have hlost' : ∀ {k fields tail}, fields ≠ [] → (Ty.row k fields tail).Tidy →
      equalityKey s t ≠ equalityKey (RowKind.end k) (.row k fields tail) := fun hne htidy he =>
    hlost ⟨_, _, _, hne, htidy, he ▸ hkept.seen _ hmem⟩
  have hmain : Alike s s₀ → Alike t t₀ → s = t ∨ ∃ s₀ t₀, Alike s s₀ ∧ Alike t t₀ ∧
      s₀.Good K r ∧ t₀.Good K r ∧ Settled K st s₀.flatten t₀.flatten := fun hsa hta =>
    Or.inr ⟨s₀, t₀, hsa, hta, hsa.good hs hs₀, hta.good ht ht₀, hsettled⟩
  by_cases hk : r.kind? = r₀.kind?
  · exact hmain (alike_of_text_eq hs.fits hs₀.fits hk hstext)
      (alike_of_text_eq ht.fits ht₀.fits hk httext)
  -- One of the two places is the rest of a row, and the other is not the rest of such a row.
  cases r with
  | tail k room =>
    have hk₀ : r₀.kind? ≠ some k := fun he => hk he.symm
    rcases alike_or_end hs.fits hs₀.fits hk₀ hstext with
      ⟨rfl, rfl⟩ | ⟨⟨fields, tail, rfl, hne⟩, hsa⟩
    · rcases alike_or_end ht.fits ht₀.fits hk₀ httext with ⟨rfl, -⟩ | ⟨⟨_, _, rfl, hne⟩, -⟩
      · exact Or.inl rfl
      · exact absurd rfl (hlost' hne ht.tidy)
    · rcases alike_or_end ht.fits ht₀.fits hk₀ httext with ⟨rfl, rfl⟩ | ⟨-, hta⟩
      · obtain ⟨_, _, rfl, hne₀⟩ := hsa.eq_row hne
        exact absurd hsettled (not_settled_row_empty hne₀ hs₀.tidy hkept hlost)
      · exact hmain hsa hta
  | whole =>
    cases r₀ with
    | whole => exact absurd rfl hk
    | tail k room =>
      rcases alike_or_end hs₀.fits hs.fits hk hstext.symm with
        ⟨rfl, rfl⟩ | ⟨⟨fields, tail, rfl, hne⟩, hsa⟩
      · rcases alike_or_end ht₀.fits ht.fits hk httext.symm with ⟨rfl, rfl⟩ | ⟨⟨_, _, rfl, hne⟩, -⟩
        · exact Or.inl rfl
        · exact absurd hkey (hlost' hne ht₀.tidy)
      · rcases alike_or_end ht₀.fits ht.fits hk httext.symm with ⟨rfl, rfl⟩ | ⟨-, hta⟩
        · exact absurd hsettled (not_settled_row_end hne)
        · exact hmain hsa.symm hta.symm

/-! ## The trees of the two sides -/

/-- The equalities in the memo about places that satisfy `P` hold down to a depth. -/
def HoldBelow (K : Census) (st : Solver) (ρ : Nat → Tree) (P : Role → Prop) (n : Nat) : Prop :=
  ∀ r s t, P r → s.Good K r → t.Good K r → equalityKey s t ∈ st.visited →
    Tree.AgreeBelow n (s.tree ρ) (t.tree ρ)

section

variable {ρ : Nat → Tree} {n : Nat}

theorem agreeBelow_fields {fields others : Row Ty} (hdone : ∀ task ∈ sharedTasks fields others,
      Done K st task) (hfields : ∀ p ∈ fields, p.2.Good K .whole)
    (hothers : ∀ p ∈ others, p.2.Good K .whole) (hbelow : HoldBelow K st ρ (· = .whole) n)
    {l : Label} {s t : Ty} (hs : fields.lookup l = some s) (ht : others.lookup l = some t) :
    Tree.AgreeBelow n (s.tree ρ) (t.tree ρ) := by
  have hmem := Row.mem_of_lookup hs
  exact hbelow .whole s t rfl (hfields _ hmem) (hothers _ (Row.mem_of_lookup ht))
    (hdone _ (mem_sharedTasks_of_mem hmem ht))

/-- The fields that two rows have in all agree below a depth if the shared ones do. -/
theorem agreeBelow?_or_difference {fields others : Row Ty}
    (hshared : ∀ l s t, fields.lookup l = some s → others.lookup l = some t →
      Tree.AgreeBelow n (s.tree ρ) (t.tree ρ)) (l : Label) :
    Tree.AgreeBelow? n
      ((treeOfField ρ (Row.difference id others fields) l).or (treeOfField ρ fields l))
      ((treeOfField ρ (Row.difference id fields others) l).or (treeOfField ρ others l)) := by
  simp only [treeOfField_eq, Row.lookup_difference, ← Row.lookup_isSome_iff]
  cases hs : List.lookup l fields with
  | none =>
    cases ht : List.lookup l others with
    | none => simp [Tree.AgreeBelow?]
    | some t => simp [Tree.AgreeBelow?, Tree.AgreeBelow.refl]
  | some s =>
    cases ht : List.lookup l others with
    | none => simp [Tree.AgreeBelow?, Tree.AgreeBelow.refl]
    | some t => simpa [Tree.AgreeBelow?] using hshared l s t hs ht

/-- Two rows agree if each tail has what the other row has more, with one tree behind. -/
theorem agreeBelow_rows {k : RowKind} {fields others : Row Ty} {tail tail' : Ty} {x : Tree}
    (hshared : ∀ l s t, fields.lookup l = some s → others.lookup l = some t →
      Tree.AgreeBelow n (s.tree ρ) (t.tree ρ))
    (htail : Tree.AgreeBelow (n + 1) (tail.tree ρ)
      (.row k (treeOfField ρ (Row.difference id others fields)) x))
    (htail' : Tree.AgreeBelow (n + 1) (tail'.tree ρ)
      (.row k (treeOfField ρ (Row.difference id fields others)) x)) :
    Tree.AgreeBelow (n + 1) ((Ty.row k fields tail).tree ρ) ((Ty.row k others tail').tree ρ) := by
  have hself : ∀ (f : Label → Option Tree) l, Tree.AgreeBelow? n (f l) (f l) := fun f l => by
    cases f l with
    | none => trivial
    | some x => exact .refl n x
  rw [tree, tree]
  refine (Tree.AgreeBelow.row (hself _) htail).trans ?_
  refine .trans ?_ (Tree.AgreeBelow.row (hself _) htail'.symm)
  rw [Tree.row_row, Tree.row_row]
  exact .row (agreeBelow?_or_difference hshared) (.refl _ _)

/-- Behind fields a place has less rank. -/
theorem rank_lt_of_good_row {k : RowKind} {fields : Row Ty} {tail : Ty}
    (h : (Ty.row k fields tail).Good K r) :
    (r.behind K.labels k fields).rank K.labels < r.rank K.labels :=
  Role.rank_behind_lt (good_row.mp h).1 (good_row.mp h).2.2.1

/-- **Two rows have one tree down to a depth** if their parts have. -/
theorem agreeBelow_of_row {k : RowKind} {fields others : Row Ty} {tail tail' : Ty}
    (hs : (Ty.row k fields tail).Good K r) (ht : (Ty.row k others tail').Good K r)
    (hdone : ∀ task ∈ sharedTasks fields others ++ tailTasks k fields others tail tail',
      Done K st task)
    (hwhole : HoldBelow K st ρ (· = .whole) n)
    (hlow : HoldBelow K st ρ (fun r' => r'.rank K.labels < r.rank K.labels) (n + 1)) :
    Tree.AgreeBelow (n + 1) ((Ty.row k fields tail).tree ρ) ((Ty.row k others tail').tree ρ) := by
  obtain ⟨-, -, -, hf, htail⟩ := good_row.mp hs
  obtain ⟨-, -, -, ho, htail'⟩ := good_row.mp ht
  have hshared := fun l s t => agreeBelow_fields (l := l) (s := s) (t := t)
    (fun task hmem => hdone task (List.mem_append_left _ hmem)) hf ho hwhole
  have hrest : ∀ {task}, task ∈ tailTasks k fields others tail tail' → Done K st task :=
    fun hmem => hdone _ (List.mem_append_right _ hmem)
  have hnone : ∀ {fields others : Row Ty}, Row.domain fields ⊆ Row.domain others → ∀ l,
      treeOfField ρ (Row.difference id fields others) l = none := fun hsub l => by
    rw [Row.difference_eq_nil_iff.mpr hsub]
    rfl
  have hfields := agreeBelow?_or_difference hshared
  have hself : ∀ (f : Label → Option Tree) l, Tree.AgreeBelow? n (f l) (f l) := fun f l => by
    cases f l with
    | none => trivial
    | some x => exact .refl n x
  rcases tailTasks_cases k fields others tail tail' with ⟨hdom, heq⟩ | ⟨hdiff, hsub, heq⟩ |
      ⟨hdiff, hsub, heq⟩ | ⟨hdiff, hdiff', heq⟩ <;> rw [heq] at hrest
  · have hbehind : r.behind K.labels k others = r.behind K.labels k fields := by
      rw [Role.behind, Role.behind, hdom]
    have hagree := hlow _ tail tail' (rank_lt_of_good_row hs) htail (hbehind ▸ htail')
      (hrest (List.mem_singleton_self _))
    rw [tree, tree]
    refine .row (fun l => ?_) hagree
    simpa [hnone hdom.subset l, hnone hdom.superset l] using hfields l
  · have hagree := hlow _ tail' _ (rank_lt_of_good_row ht) htail' (good_rest hs hdiff hsub)
      (hrest (List.mem_singleton_self _))
    rw [tree, tree]
    refine .trans ?_ (Tree.AgreeBelow.row (hself _) hagree.symm)
    rw [tree, Tree.row_row]
    refine .row (fun l => ?_) (.refl _ _)
    simpa [hnone hsub l] using hfields l
  · have hagree := hlow _ tail _ (rank_lt_of_good_row hs) htail (good_rest ht hdiff hsub)
      (hrest (List.mem_singleton_self _))
    rw [tree, tree]
    refine (Tree.AgreeBelow.row (hself _) hagree).trans ?_
    rw [tree, Tree.row_row]
    refine .row (fun l => ?_) (.refl _ _)
    simpa [hnone hsub l] using hfields l
  · obtain ⟨v, room, room', hg, hg', hgf, hgo, ⟨hne, hrow⟩, ⟨hne', hrow'⟩, hv', hv⟩ :=
      hrest (List.mem_singleton_self _)
    have hroom := htail.fits.tail_unique hg.fits hne hrow
    have hroom' := htail'.fits.tail_unique hg'.fits hne' hrow'
    have hagree := hlow _ tail _ (by rw [← hroom]; exact rank_lt_of_good_row hs) hg hgo hv
    have hagree' := hlow _ tail' _ (by rw [← hroom']; exact rank_lt_of_good_row ht) hg' hgf hv'
    exact agreeBelow_rows hshared (by rwa [tree] at hagree) (by rwa [tree] at hagree')

/-- **What is settled holds down to a depth**, if the memo does in smaller places and below fields.
-/
theorem agreeBelow_of_settled (hkept : Kept K st) (hρ : ∀ e ∈ st.pending, ρ e.var = e.type.tree ρ)
    {s t : Ty} (hs : s.Good K r) (ht : t.Good K r) (h : Settled K st s t)
    (hopen : outcome s t ≠ .reopen) (hwhole : HoldBelow K st ρ (· = .whole) n)
    (hlow : HoldBelow K st ρ (fun r' => r'.rank K.labels < r.rank K.labels) (n + 1)) :
    Tree.AgreeBelow (n + 1) (s.tree ρ) (t.tree ρ) := by
  unfold Settled at h
  cases hout : outcome s t with
  | reopen => exact absurd hout hopen
  | clash => rw [hout] at h; exact h.elim
  | defer v u =>
    rw [hout] at h
    obtain ⟨-, hu, -⟩ := good_of_defer hs ht hout
    obtain ⟨e, he, hkey⟩ := List.mem_map.mp h
    obtain ⟨hvar, htext⟩ := Equation.text_eq_of_key_eq hkey
    have hgood := (hkept.pending e he).good
    have halike : Alike e.type u := alike_of_text_eq hgood.fits hu.fits
      (by rw [hvar]; rfl) htext
    have htree : ρ v = u.tree ρ := by
      rw [← halike.tree_eq hgood.tidy hu.tidy, ← hρ e he, hvar]
      rfl
    obtain ⟨-, ⟨rfl, rfl⟩ | ⟨rfl, rfl⟩⟩ := outcome_eq_defer hout
    · rw [tree, htree]
      exact .refl _ _
    · rw [tree, htree]
      exact .refl _ _
  | split tasks =>
    rw [hout] at h
    cases outcome_eq_split hout with
    | same => exact .refl _ _
    | arrow a b c d =>
      obtain ⟨-, ha, hb⟩ := good_arrow.mp hs
      obtain ⟨-, hc, hd⟩ := good_arrow.mp ht
      rw [tree, tree]
      exact .arrow (hwhole _ a c rfl ha hc (h (.agree a c) (by simp)))
        (hwhole _ b d rfl hb hd (h (.agree b d) (by simp)))
    | list s t =>
      rw [tree, tree]
      exact .list (hwhole _ s t rfl (good_list.mp hs).2 (good_list.mp ht).2
        (h (.agree s t) (by simp)))
    | row k fields others tail tail' => exact agreeBelow_of_row hs ht h hwhole hlow

/-- Types without a binder in front hold down to a depth. -/
private theorem agreeBelow_of_ne_bind (hkept : Kept K st) (hlost : ¬ st.Lost)
    (hback : AllBacked K st) (hρ : ∀ e ∈ st.pending, ρ e.var = e.type.tree ρ)
    (hwhole : HoldBelow K st ρ (· = .whole) n)
    (hlow : HoldBelow K st ρ (fun r' => r'.rank K.labels < r.rank K.labels) (n + 1))
    {s t : Ty} (hs : s.Good K r) (ht : t.Good K r) (hkey : equalityKey s t ∈ st.visited)
    (hsb : ∀ b p body, s ≠ .bind b p body) (htb : ∀ b p body, t ≠ .bind b p body) :
    Tree.AgreeBelow (n + 1) (s.tree ρ) (t.tree ρ) := by
  have hflat : ∀ {t : Ty}, (∀ b p body, t ≠ .bind b p body) → ∀ b p body,
      t.flatten ≠ .bind b p body := by
    intro t ht b p body h
    cases t with
    | bind => exact ht _ _ _ rfl
    | row k fields tail =>
      rw [Ty.flatten] at h
      unfold prependRow at h
      split at h
      · split at h <;> cases h
      · cases h
    | _ => rw [Ty.flatten] at h; cases h
  rcases backed_at hkept hlost hback hs ht hkey with rfl | ⟨s₀, t₀, hsa, hta, hs₀, ht₀, h⟩
  · exact .refl _ _
  · rw [hsa.tree_eq hs.tidy hs₀.tidy, hta.tree_eq ht.tidy ht₀.tidy, ← tree_flatten hs₀.tidy,
      ← tree_flatten ht₀.tidy]
    refine agreeBelow_of_settled hkept hρ hs₀.flatten ht₀.flatten h (fun hopen => ?_) hwhole hlow
    rcases outcome_eq_reopen hopen with ⟨b, p, body, hb⟩ | ⟨b, p, body, hb⟩
    · exact hflat (hsa.ne_bind hsb) b p body hb
    · exact hflat (hta.ne_bind htb) b p body hb

/-- **What is settled holds down to a depth**, with binders opened if there are any. -/
private theorem agreeBelow_of_settled_open (hkept : Kept K st) (hlost : ¬ st.Lost)
    (hback : AllBacked K st) (hρ : ∀ e ∈ st.pending, ρ e.var = e.type.tree ρ)
    (hwhole : HoldBelow K st ρ (· = .whole) n)
    (hlow : HoldBelow K st ρ (fun r' => r'.rank K.labels < r.rank K.labels) (n + 1))
    {s t : Ty} (hs : s.Good K r) (ht : t.Good K r) (h : Settled K st s t) :
    Tree.AgreeBelow (n + 1) (s.tree ρ) (t.tree ρ) := by
  by_cases hopen : outcome s t = .reopen
  · -- With their binders opened the two sides are in the memo too, in the same place.
    rw [Settled, hopen] at h
    obtain ⟨key, mid, mid', s', t', hrun, hkey⟩ := h
    obtain ⟨-, hs', ht', hsρ, htρ, hsb, htb⟩ := openBinders_good hs ht hrun
    rw [← hsρ, ← htρ]
    exact agreeBelow_of_ne_bind hkept hlost hback hρ hwhole hlow hs' ht' hkey hsb htb
  · exact agreeBelow_of_settled hkept hρ hs ht h hopen hwhole hlow

/-- The equalities in the memo hold down to every depth, by induction on the depth and on the room.
-/
private theorem holdBelow (hkept : Kept K st) (hlost : ¬ st.Lost) (hback : AllBacked K st)
    (hρ : ∀ e ∈ st.pending, ρ e.var = e.type.tree ρ) :
    ∀ n m, HoldBelow K st ρ (fun r => r.rank K.labels < m) n := by
  intro n
  induction n with
  | zero => exact fun m r s t _ _ _ _ => Tree.agreeBelow_zero _ _
  | succ n ihn =>
    intro m
    induction m with
    | zero => exact fun r s t hr => absurd hr (Nat.not_lt_zero _)
    | succ m ihm =>
      intro r s t hr hs ht hkey
      rcases backed_at hkept hlost hback hs ht hkey with rfl | ⟨s₀, t₀, hsa, hta, hs₀, ht₀, h⟩
      · exact .refl _ _
      rw [hsa.tree_eq hs.tidy hs₀.tidy, hta.tree_eq ht.tidy ht₀.tidy, ← tree_flatten hs₀.tidy,
        ← tree_flatten ht₀.tidy]
      exact agreeBelow_of_settled_open hkept hlost hback hρ
        (fun r s t he => ihn (r.rank K.labels + 1) r s t (Nat.lt_succ_self _))
        (fun r' s t hr' => ihm r' s t (hr'.trans_le (Nat.le_of_lt_succ hr)))
        hs₀.flatten ht₀.flatten h

/-- **The equalities in the memo hold**, if what they come to is in the memo or holds, and none has
been lost. -/
theorem Kept.tree_eq (hkept : Kept K st) (hlost : ¬ st.Lost)
    (hback : AllBacked K st) (hρ : ∀ e ∈ st.pending, ρ e.var = e.type.tree ρ)
    {s t : Ty} (hs : s.Good K r) (ht : t.Good K r) (hkey : equalityKey s t ∈ st.visited) :
    s.tree ρ = t.tree ρ :=
  Tree.eq_of_agreeBelow fun n => holdBelow hkept hlost hback hρ n (r.rank K.labels + 1) r s t
    (Nat.lt_succ_self _) hs ht hkey

/-- **What is settled holds**, under the same conditions. -/
theorem Kept.tree_eq_of_settled (hkept : Kept K st) (hlost : ¬ st.Lost)
    (hback : AllBacked K st) (hρ : ∀ e ∈ st.pending, ρ e.var = e.type.tree ρ)
    {s t : Ty} (hs : s.Good K r) (ht : t.Good K r) (h : Settled K st s t) : s.tree ρ = t.tree ρ :=
  Tree.eq_of_agreeBelow fun n => (agreeBelow_of_settled_open hkept hlost hback hρ
    (fun r s t _ => holdBelow hkept hlost hback hρ n (r.rank K.labels + 1) r s t
      (Nat.lt_succ_self _))
    (fun r' s t _ => holdBelow hkept hlost hback hρ (n + 1) (r'.rank K.labels + 1) r' s t
      (Nat.lt_succ_self _)) hs ht h).mono (Nat.le_succ n)

end

end RowLang.Solver
