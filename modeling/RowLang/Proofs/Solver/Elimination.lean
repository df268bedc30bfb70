import RowLang.Proofs.Solver.Round
import RowLang.Proofs.Solver.Sound

/-!
# Proofs/Solver/Elimination — what a round of elimination does

The variable of the first pending equation is gone for good after a round that succeeds, and
whatever the others' variables come to stand for afterwards, they and the first one satisfy what was
pending (`Kept.eliminate`).
-/

namespace RowLang.Solver

open Ty

variable {K : Census} {r : Role}

/-! ## Closing over a variable -/

/-- A fresh variable that will stand with a binder. -/
theorem Kept.countingBound {st : Solver} (h : Kept K st) {r : Role} (hnum : K.numbered)
    (hnew : ¬ K.Known st.counter) :
    Kept (K.addBound st.counter r (fun hf => hnew (Or.inl hf)) hnum) st.counting where
  pending e he := (h.pending e he).mono (Census.le_addBound hnew)
  numbers _ v hv := by
    rcases hv with hv | rfl | hv
    · exact Nat.lt_succ_of_lt (h.numbers hnum v (Or.inl hv))
    · exact Nat.lt_succ_self _
    · exact Nat.lt_succ_of_lt (h.numbers hnum v (Or.inr hv))
  seen := h.seen

private theorem lookup_single_eq_some {n v : Nat} {t u : Ty}
    (h : List.lookup v [(n, t)] = some u) : v = n ∧ u = t := by
  rw [Row.lookup_single] at h
  split at h
  case isTrue hv => exact ⟨hv, (Option.some.inj h).symm⟩
  case isFalse => simp at h

/-- **The recursive type of an equation** stands where its variable does and solves it. -/
theorem good_mu {K K' : Census} {n p : Nat} {type : Ty} (hle : K.Le K') (hnew : ¬ K.Known p)
    (hfree : ∀ v, K'.free v → K.free v) (hbound : K'.bound p) (hrole : K'.role p = K.role n)
    (hn : K.free n) (htype : type.Good K (K.role n)) (hne : type ≠ .var n) (hmem : n ∈ type.free) :
    (Ty.bind .mu p (type.substitute [(n, .var p)])).Good K' (K.role n) ∧
      n ∉ (Ty.bind .mu p (type.substitute [(n, .var p)])).free ∧
      ∀ ρ, type.tree (Function.update ρ n ((Ty.bind .mu p (type.substitute [(n, .var p)])).tree ρ))
        = (Ty.bind .mu p (type.substitute [(n, .var p)])).tree ρ := by
  have hvar : ∀ m, type ≠ .var m := fun m he => by
    rw [he, free_var, List.mem_singleton] at hmem
    exact hne (hmem ▸ he)
  have hheads : n ∉ type.heads := fun h =>
    Nat.lt_irrefl _ (htype.fits.rank_lt_of_mem_heads hvar h hn)
  have hnp : n ≠ p := fun he => hnew (he ▸ Or.inl hn)
  have hp : p ∉ type.free := fun h => hnew (Or.inl (htype.closed p h))
  have hcatch : type.CatchesNone [(n, .var p)] := by
    intro q hq v u hu hmem
    rw [(lookup_single_eq_some hu).2, free_var, List.mem_singleton] at hmem
    exact hnew (hmem ▸ Or.inr (htype.fits.bound_of_mem hq))
  generalize hbody : type.substitute [(n, .var p)] = body
  have hpheads : p ∉ body.heads := by
    intro h
    rw [← hbody] at h
    rcases mem_heads_substitute h with ⟨h, -⟩ | ⟨v, u, hv, hu, -⟩
    · exact hp (mem_free_of_mem_heads h)
    · exact hheads ((lookup_single_eq_some hu).1 ▸ hv)
  have hfits : Fits K' (K.role n) body := by
    rw [← hbody]
    refine (htype.fits.mono hle).substitute hcatch (fun v u hu => ?_) fun v u hu hb => ?_
    · obtain ⟨rfl, rfl⟩ := lookup_single_eq_some hu
      exact ⟨by rw [hrole, hle.role v (Or.inl hn)], Or.inr hbound⟩
    · obtain ⟨rfl, rfl⟩ := lookup_single_eq_some hu
      exact absurd hb (K'.disjoint v (hle.free v hn))
  have hclosed : ∀ v ∈ body.free, v ≠ p → v ≠ n ∧ K.free v := by
    intro v hv hvp
    rw [← hbody] at hv
    rcases mem_free_substitute hv with ⟨hv, hnone⟩ | ⟨u₀, u, -, hu, hv⟩
    · refine ⟨fun he => ?_, htype.closed v hv⟩
      rw [Row.lookup_single, if_pos he] at hnone
      simp at hnone
    · rw [(lookup_single_eq_some hu).2, free_var, List.mem_singleton] at hv
      exact absurd hv hvp
  refine ⟨⟨⟨hrole, hbound, hfits, hpheads, fun v hv hf => ?_, fun k => ?_⟩, fun v hv => ?_⟩,
    fun h => ?_, fun ρ => ?_⟩
  · have hvp : v ≠ p := fun he => hpheads (he ▸ hv)
    rw [← hbody] at hv
    rcases mem_heads_substitute hv with ⟨hv, -⟩ | ⟨u₀, u, hu₀, hu, -⟩
    · rw [hle.labels, hle.role v (Or.inl (hfree v hf))]
      exact htype.fits.rank_lt_of_mem_heads hvar hv (hfree v hf)
    · exact absurd ((lookup_single_eq_some hu).1 ▸ hu₀) hheads
  · rw [← hbody]
    refine substitute_ne_end (fun he => ?_) fun v he _ => hvar v he
    rw [he] at hmem
    cases k <;> simp [RowKind.end, free] at hmem
  · rw [mem_free_bind] at hv
    exact hle.free v (hclosed v hv.1 hv.2).2
  · rw [mem_free_bind] at h
    exact (hclosed n h.1 h.2).1 rfl
  · have hmu := tree_mu_eq hpheads ρ
    generalize (Ty.bind .mu p body).tree ρ = x at hmu
    rw [← hbody, tree_substitute hcatch, after_single, tree, Function.update_self] at hmu
    refine (tree_congr fun v hv => ?_).trans hmu
    by_cases hvn : v = n
    · rw [hvn, Function.update_self, Function.update_self]
    · rw [Function.update_of_ne hvn, Function.update_of_ne hvn,
        Function.update_of_ne (fun (he : v = p) => hp (he ▸ hv))]

/-- **What a variable is replaced by** does not hold it any more and has the tree that its equation
calls for; one more variable may stand with a binder in it. -/
theorem Kept.closeOver {st mid : Solver} {n : Nat} {type t : Ty} (hK : Kept K st)
    (hnum : K.numbered) (hn : K.free n) (htype : type.Good K (K.role n)) (hne : type ≠ .var n)
    (h : (closeOver n type).run st = (.ok t, mid)) :
    ∃ K', K.Le K' ∧ Kept K' mid ∧ (∀ v, K'.free v → K.free v) ∧ t.Good K' (K.role n) ∧ n ∉ t.free ∧
      (∀ ρ, type.tree (Function.update ρ n (t.tree ρ)) = t.tree ρ) ∧
      mid.visited = st.visited ∧ mid.pending = st.pending ∧ mid.trace = st.trace ∧
      mid.lastType = st.lastType := by
  rw [closeOver_eq] at h
  split at h
  case isFalse hmem =>
    cases h
    have hmem : n ∉ type.free := fun h => hmem (List.contains_iff_mem.mpr h)
    exact ⟨K, .refl K, hK, fun _ h => h, htype, hmem,
      fun ρ => tree_update_of_not_mem hmem ρ _, rfl, rfl, rfl, rfl⟩
  case isTrue hmem =>
    obtain ⟨p, mid', hfresh, h⟩ := Run.run_bind_eq_ok.mp h
    cases hfresh
    cases h
    have hnew := hK.not_known hnum
    have hle : K.Le (K.addBound st.counter (K.role n) (fun hf => hnew (Or.inl hf)) hnum) :=
      Census.le_addBound hnew
    obtain ⟨hgood, hfree, htree⟩ := good_mu hle hnew (fun v h => h) (Or.inl rfl)
      (by simp [Census.addBound]) hn htype hne (List.contains_iff_mem.mp hmem)
    exact ⟨_, hle, hK.countingBound hnum hnew, fun v h => h, hgood, hfree, htree, rfl,
      rfl, rfl, rfl⟩

/-! ## A variable is gone -/

/-- **An equality in the memo of a run from an empty one holds** for all trees of the variables that
satisfy what the run leaves pending. -/
theorem Works.tree_eq {tasks : List Task} {st st' : Solver} (h : Works tasks st st')
    (hlost : ¬ st'.Lost) (hK : Kept K st) (hempty : st.visited = [])
    (hgood : ∀ task ∈ tasks, GoodTask K task) : ∃ K', K.Le K' ∧ Kept K' st' ∧
      ∀ ρ, (∀ e ∈ st'.pending, ρ e.var = e.type.tree ρ) → ∀ r s t, Task.agree s t ∈ tasks →
        s.Good K r → t.Good K r → s.tree ρ = t.tree ρ := by
  obtain ⟨K', hle, hK', hdone, hback⟩ := h.kept hlost hK hgood
  have hall : AllBacked K' st' :=
    fun r s t _ _ hkey => Or.inr <| (hback _ hkey).resolve_left fun h => by
    rw [hempty] at h
    simp at h
  exact ⟨K', hle, hK', fun ρ hρ r s t hmem hs ht =>
    hK'.tree_eq hlost hall hρ (hs.mono hle) (ht.mono hle) (hdone _ hmem)⟩

/-- **A variable is gone**: it is replaced by a good type without it, and all that satisfies what is
pending afterwards satisfies, with the variable put back, what was pending before. -/
structure Eliminates (K K' : Census) (n : Nat) (t : Ty) (st st' : Solver) : Prop where
  bound : ∀ q, K.bound q → K'.bound q
  free : ∀ v, K.free v → v ≠ n → K'.free v ∧ K'.role v = K.role v
  numbered : K'.numbered
  kept : Kept K' st'
  gone : ¬ K'.free n
  value : t.Good K' (K.role n)
  good : ∀ {u : Ty} {r : Role}, u.Good K r → (u.substitute [(n, t)]).Good K' r
  pending : ∀ ρ, (∀ e ∈ st'.pending, ρ e.var = e.type.tree ρ) → ∀ e ∈ st.pending,
    Function.update ρ n (t.tree ρ) e.var = e.type.tree (Function.update ρ n (t.tree ρ))
  lastType : st'.lastType = st.lastType.map fun u => (u.substitute [(n, t)]).flatten

/-- What is good is good with a variable replaced, and has no need of the variable any more. -/
theorem Good.replace {K K' : Census} {n : Nat} {t u : Ty} (hle : K.Le K') (hn : K.free n)
    (ht : t.Good K' (K.role n)) (hmem : n ∉ t.free) (hu : u.Good K r) :
    (u.substitute [(n, t)]).Good (K'.retire n) r := by
  refine Good.retire ((hu.mono hle).substitute fun v w hw => ?_) fun h => ?_
  · obtain ⟨rfl, rfl⟩ := lookup_single_eq_some hw
    exact ⟨hle.free v hn, hle.role v (Or.inl hn) ▸ ht⟩
  · rcases mem_free_substitute h with ⟨-, hnone⟩ | ⟨v, w, -, hw, hmem'⟩
    · rw [Row.lookup_single, if_pos rfl] at hnone
      simp at hnone
    · exact hmem ((lookup_single_eq_some hw).2 ▸ hmem')

/-- **One round eliminates the first variable.** -/
theorem Kept.eliminate {budget : Nat} {st st' : Solver} {e : Equation} {others : List Equation}
    (hK : Kept K st) (hnum : K.numbered) (hpending : st.pending = e :: others)
    (h : (solveStep budget).run st = (.ok (), st')) (hlost : ¬ st'.Lost) :
    ∃ K' t, Eliminates K K' e.var t st st' := by
  have hgood := hK.pending
  rw [hpending] at hgood
  obtain ⟨hfirst, hothers⟩ := firstBinding_eq fun d hd => (hgood d hd).nontrivial
  rcases round_of_run h with hnone | @⟨e', others', t, line, mid, mid', hsome, hclose, hcourse⟩
  · rw [hpending, hfirst] at hnone
    simp at hnone
  rw [hpending, hfirst] at hsome
  obtain ⟨rfl, rfl⟩ := Prod.mk.inj (Option.some.inj hsome)
  have hwork := hcourse.works
  rw [replacingAll, hothers] at hwork
  have he := hgood e List.mem_cons_self
  have hstart : Kept K st.emptied := ⟨by simp [emptied], hK.numbers, by simp [emptied]⟩
  obtain ⟨K₁, hle, hmid, -, ht, hmem, htree, hvisited, hnone, -, hlast⟩ :=
    hstart.closeOver hnum he.free he.good he.nontrivial hclose
  have hreplace : ∀ {u : Ty} {r : Role}, u.Good K r →
      (u.substitute [(e.var, t)]).Good (K₁.retire e.var) r :=
    fun hu => Good.replace hle he.free ht hmem hu
  have hfrom : Kept (K₁.retire e.var) (mid.saying line) := {
    pending := by
      show ∀ d ∈ mid.pending, _
      rw [hnone]
      simp [emptied]
    numbers := fun hn v hv => hmid.numbers hn v (by
      rcases hv with hv | rfl | hv
      exacts [Or.inl hv.2, Or.inl (hle.free _ he.free), Or.inr hv])
    seen := fun key hkey => List.mem_cons_of_mem _ (hmid.seen key hkey) }
  obtain ⟨K', hle', hK', hhold⟩ := hwork.tree_eq (fun hl => hlost hl) hfrom
    (show mid.visited = [] from hvisited) fun task htask => by
      obtain ⟨d, hd, rfl⟩ := List.mem_map.mp htask
      have hd := hgood d (List.mem_cons_of_mem _ hd)
      exact ⟨_, hreplace (good_var hd.free), hreplace hd.good⟩
  have hvalue := (Good.retire ht hmem).mono hle'
  refine ⟨K', t, ?_, ?_, ?_, ?_, ?_, hvalue, fun hu => (hreplace hu).mono hle', ?_, ?_⟩
  · exact fun q hq => hle'.bound q (Or.inr (hle.bound q hq))
  · intro v hv hne
    have hfree : (K₁.retire e.var).free v := ⟨hne, hle.free v hv⟩
    exact ⟨hle'.free v hfree, (hle'.role v (Or.inl hfree)).trans (hle.role v (Or.inl hv))⟩
  · exact hle'.numbered.mpr (hle.numbered.mpr hnum)
  · exact ⟨hK'.pending, hK'.numbers, hK'.seen⟩
  · exact fun hf => K'.disjoint _ hf (hle'.bound _ (Or.inl rfl))
  · intro ρ hρ d hd
    rw [hpending] at hd
    rcases List.mem_cons.mp hd with rfl | hd
    · rw [Function.update_self]
      exact (htree ρ).symm
    · have hgood := hgood d (List.mem_cons_of_mem _ hd)
      have hcatch : ∀ {u : Ty} {r : Role}, u.Good K r → u.CatchesNone [(e.var, t)] :=
        fun hu => (hu.mono hle).fits.catchesNone fun v w hw => by
          rw [(lookup_single_eq_some hw).2]
          exact ht.closed
      have hagree := hhold ρ hρ _ _ _ (List.mem_map.mpr ⟨d, hd, rfl⟩)
        (hreplace (good_var hgood.free)) (hreplace hgood.good)
      rwa [tree_substitute (hcatch (good_var hgood.free)), tree_substitute (hcatch hgood.good),
        after_single] at hagree
  · show Option.map _ mid'.lastType = _
    rw [hwork.grows.lastType]
    show Option.map _ mid.lastType = _
    rw [hlast]
    rfl

end RowLang.Solver
