import RowLang.Proofs.Solver.Grows
import RowLang.Proofs.Solver.Parts
import RowLang.Proofs.Solver.Round

/-!
# Proofs/Solver/Live — a variable that is gone does not come back

A solver numbers its variables upwards, so what it mentions has a number below its counter.  Some of
these variables are gone: `Clear gone st` says that the state mentions none of them.  A comparison
takes what it posts from what it is about, and beyond that it takes fresh variables only, so
whatever its end it posts nothing that is gone (`Course.pendingClear`).  A round keeps that
(`Round.clear`), and one that succeeds adds the variable that it binds to those that are gone
(`Round.clear_insert`).
-/

namespace RowLang

open Ty

/-- The variable is free in an equation. -/
def Equation.Mentions (e : Equation) (v : Nat) : Prop := v = e.var ∨ v ∈ e.type.free

/-- The variable is free in a pending equation or in the type under study. -/
def Solver.Mentions (st : Solver) (v : Nat) : Prop :=
  (∃ e ∈ st.pending, e.Mentions v) ∨ ∃ t, st.lastType = some t ∧ v ∈ t.free

namespace Solver

variable {gone : Nat → Prop} {c c' : Nat}

/-! ## Live variables -/

/-- A variable that has been numbered and is not gone. -/
def Live (gone : Nat → Prop) (c v : Nat) : Prop := v < c ∧ ¬ gone v

theorem Live.mono {v : Nat} (h : Live gone c v) (hc : c ≤ c') : Live gone c' v :=
  ⟨h.1.trans_le hc, h.2⟩

/-- A fresh variable is live. -/
theorem live_fresh {v : Nat} (hpast : ∀ v, gone v → v < c) (hle : c ≤ v) (hlt : v < c') :
    Live gone c' v :=
  ⟨hlt, fun h => absurd (hpast v h) (Nat.not_lt.mpr hle)⟩

/-- All free variables of a type are live. -/
def AllLive (gone : Nat → Prop) (c : Nat) (t : Ty) : Prop := ∀ v ∈ t.free, Live gone c v

theorem AllLive.mono {t : Ty} (h : AllLive gone c t) (hc : c ≤ c') : AllLive gone c' t :=
  fun v hv => (h v hv).mono hc

theorem AllLive.flatten {t : Ty} (h : AllLive gone c t) : AllLive gone c t.flatten :=
  fun v hv => h v (mem_free_flatten hv)

@[simp] theorem allLive_var {n : Nat} : AllLive gone c (.var n) ↔ Live gone c n := by simp [AllLive]

@[simp] theorem allLive_arrow {a b : Ty} :
    AllLive gone c (.arrow a b) ↔ AllLive gone c a ∧ AllLive gone c b := by
  simp [AllLive, or_imp, forall_and]

@[simp] theorem allLive_list {t : Ty} : AllLive gone c (.list t) ↔ AllLive gone c t := by
  simp [AllLive]

@[simp] theorem allLive_row {k : RowKind} {fields : Row Ty} {tail : Ty} :
    AllLive gone c (.row k fields tail) ↔
      AllLive gone c tail ∧ ∀ p ∈ fields, AllLive gone c p.2 := by
  simp only [AllLive, mem_free_row, or_imp, forall_and]
  refine and_congr_right fun _ => ⟨fun h p hp v hv => h v ⟨p, hp, hv⟩, ?_⟩
  rintro h v ⟨p, hp, hv⟩
  exact h p hp v hv

/-- A replaced variable is gone, if what replaces it has no use for it. -/
theorem AllLive.substitute {n : Nat} {s t : Ty} (ht : AllLive gone c t)
    (hs : AllLive (fun v => gone v ∨ v = n) c' s) (hc : c ≤ c') :
    AllLive (fun v => gone v ∨ v = n) c' (t.substitute [(n, s)]) := by
  intro v hv
  rcases mem_free_substitute hv with ⟨hv, hnone⟩ | ⟨w, u, -, hu, hv⟩
  · rw [Row.lookup_single] at hnone
    split at hnone
    case isTrue => cases hnone
    case isFalse hne => exact ⟨(ht v hv).1.trans_le hc, not_or.mpr ⟨(ht v hv).2, hne⟩⟩
  · rw [Row.lookup_single] at hu
    split at hu
    case isTrue => cases hu; exact hs v hv
    case isFalse => cases hu

/-! ## Tasks -/

/-- What a task is about is live. -/
def LiveTask (gone : Nat → Prop) (c : Nat) : Task → Prop
  | .agree s t => AllLive gone c s ∧ AllLive gone c t
  | .meet k fields tail others tail' =>
    AllLive gone c (.row k fields tail) ∧ AllLive gone c (.row k others tail')

theorem LiveTask.mono {task : Task} (h : LiveTask gone c task) (hc : c ≤ c') :
    LiveTask gone c' task := by
  cases task with
  | agree | meet => exact ⟨h.1.mono hc, h.2.mono hc⟩

private theorem allLive_difference {k : RowKind} {fields others : Row Ty} {tail : Ty}
    (hf : ∀ p ∈ fields, AllLive gone c p.2) (ht : AllLive gone c tail) :
    AllLive gone c (.row k (Row.difference id fields others) tail) :=
  allLive_row.mpr ⟨ht, fun p hp => hf p (Row.mem_difference.mp hp).1⟩

/-- An equality of live types asks for live tasks. -/
theorem liveTask_of_splits {s t : Ty} {tasks : List Task} (h : Splits s t tasks)
    (hs : AllLive gone c s) (ht : AllLive gone c t) : ∀ task ∈ tasks, LiveTask gone c task := by
  cases h with
  | same => simp
  | arrow a b c d =>
    obtain ⟨ha, hb⟩ := allLive_arrow.mp hs
    obtain ⟨hc, hd⟩ := allLive_arrow.mp ht
    simp only [List.mem_cons, List.not_mem_nil, or_false]
    rintro task (rfl | rfl)
    exacts [⟨ha, hc⟩, ⟨hb, hd⟩]
  | list s t =>
    simp only [List.mem_cons, List.not_mem_nil, or_false]
    rintro task rfl
    exact ⟨allLive_list.mp hs, allLive_list.mp ht⟩
  | row k fields others tail tail' =>
    obtain ⟨htail, hf⟩ := allLive_row.mp hs
    obtain ⟨htail', ho⟩ := allLive_row.mp ht
    intro task hmem
    rcases List.mem_append.mp hmem with hmem | hmem
    · obtain ⟨l, s, t, hl, hl', rfl⟩ := mem_sharedTasks hmem
      exact ⟨hf _ hl, ho _ (Row.mem_of_lookup hl')⟩
    · rcases tailTasks_cases k fields others tail tail' with ⟨-, heq⟩ | ⟨-, -, heq⟩ | ⟨-, -, heq⟩ |
          ⟨-, -, heq⟩ <;>
        (rw [heq, List.mem_singleton] at hmem; rw [hmem])
      · exact ⟨htail, htail'⟩
      · exact ⟨htail', allLive_difference hf htail⟩
      · exact ⟨htail, allLive_difference ho htail'⟩
      · exact ⟨allLive_difference hf htail, allLive_difference ho htail'⟩

/-! ## Comparisons -/

/-- **The pending equations mention no variable that is gone**, and none is trivial. -/
structure PendingClear (gone : Nat → Prop) (st : Solver) : Prop where
  past : ∀ v, gone v → v < st.counter
  equation : ∀ e ∈ st.pending, Live gone st.counter e.var ∧ AllLive gone st.counter e.type
  nontrivial : ∀ e ∈ st.pending, e.type ≠ .var e.var

theorem PendingClear.noting {st : Solver} (h : PendingClear gone st) (key : String) :
    PendingClear gone (st.noting key) := ⟨h.past, h.equation, h.nontrivial⟩

theorem PendingClear.numbering {st : Solver} (h : PendingClear gone st) (hc : st.counter ≤ c) :
    PendingClear gone (st.numbering c) :=
  ⟨fun v hv => (h.past v hv).trans_le hc,
    fun e he => ⟨(h.equation e he).1.mono hc, (h.equation e he).2.mono hc⟩, h.nontrivial⟩

theorem PendingClear.posting {st : Solver} {n : Nat} {t : Ty} (h : PendingClear gone st)
    (hn : Live gone st.counter n) (ht : AllLive gone st.counter t) (hne : t ≠ .var n) :
    PendingClear gone (st.posting n t) := by
  refine ⟨h.past, fun e he => ?_, fun e he => ?_⟩
  · rcases Equation.mem_post he with rfl | he
    · exact ⟨hn, ht⟩
    · exact h.equation e he
  · rcases Equation.mem_post he with rfl | he
    · exact hne
    · exact h.nontrivial e he

/-- **A comparison of live types posts live equations**, whatever its end. -/
theorem Course.pendingClear {ts : List Task} {st st' : Solver} {r : Except TypeFailure Unit}
    (h : Course ts st r st') : PendingClear gone st → (∀ task ∈ ts, LiveTask gone st.counter task) →
      PendingClear gone st' := by
  induction h with
  | nil | tooDeep => exact fun hst _ => hst
  | known _ _ ih => exact fun hst hts => ih hst fun task h => hts task (List.mem_cons_of_mem _ h)
  | @defer s t ts n u st r st' hkey hout _ ih =>
    intro hst hts
    obtain ⟨hs, ht⟩ := hts _ List.mem_cons_self
    obtain ⟨hne, ⟨hn, hu⟩ | ⟨hn, hu⟩⟩ := outcome_eq_defer hout
    · refine ih ((hst.noting _).posting ?_ (hu ▸ ht.flatten) hne)
        fun task h => hts task (List.mem_cons_of_mem _ h)
      exact allLive_var.mp (hn ▸ hs.flatten)
    · refine ih ((hst.noting _).posting ?_ (hu ▸ hs.flatten) hne)
        fun task h => hts task (List.mem_cons_of_mem _ h)
      exact allLive_var.mp (hn ▸ ht.flatten)
  | clash => exact fun hst _ => hst.noting _
  | endless _ _ _ hopen =>
    intro hst _
    obtain ⟨c, rfl, hc, -⟩ := openBinders_cases hopen
    exact (hst.noting _).numbering hc
  | @reopen s t s' t' ts st mid r st' hkey hout hopen _ ih =>
    intro hst hts
    obtain ⟨hs, ht⟩ := hts _ List.mem_cons_self
    obtain ⟨c, rfl, hc, hfree⟩ := openBinders_cases hopen
    have hlive : ∀ v, v ∈ s'.free ∨ v ∈ t'.free → Live gone c v := by
      intro v hv
      rcases hfree _ rfl v hv with (hv | hv) | ⟨hle, hlt⟩
      · exact (hs.flatten v hv).mono hc
      · exact (ht.flatten v hv).mono hc
      · exact live_fresh hst.past hle hlt
    refine ih ((hst.noting _).numbering hc) fun task h => ?_
    rcases List.mem_cons.mp h with rfl | h
    · exact ⟨fun v hv => hlive v (Or.inl hv), fun v hv => hlive v (Or.inr hv)⟩
    · exact (hts task (List.mem_cons_of_mem _ h)).mono hc
  | split _ hout _ ih =>
    intro hst hts
    obtain ⟨hs, ht⟩ := hts _ List.mem_cons_self
    refine ih (hst.noting _) fun task h => ?_
    rcases List.mem_append.mp h with h | h
    · exact liveTask_of_splits (outcome_eq_split hout) hs.flatten ht.flatten task h
    · exact hts task (List.mem_cons_of_mem _ h)
  | @meet k fields tail others tail' ts st r st' _ ih =>
    intro hst hts
    obtain ⟨hthis, hthat⟩ := hts _ List.mem_cons_self
    obtain ⟨htail, hf⟩ := allLive_row.mp hthis
    obtain ⟨htail', ho⟩ := allLive_row.mp hthat
    have hle := Nat.le_succ st.counter
    have hshared : Live gone (st.counter + 1) st.counter :=
      live_fresh hst.past (Nat.le_refl _) (Nat.lt_succ_self _)
    have hrow : ∀ {fields : Row Ty}, (∀ p ∈ fields, AllLive gone st.counter p.2) →
        AllLive gone (st.counter + 1) (.row k fields (.var st.counter)) := fun hf =>
      allLive_row.mpr ⟨allLive_var.mpr hshared, fun p hp => (hf p hp).mono hle⟩
    refine ih (hst.numbering hle) fun task h => ?_
    rcases List.mem_cons.mp h with rfl | h
    · exact ⟨htail'.mono hle, hrow hf⟩
    rcases List.mem_cons.mp h with rfl | h
    · exact ⟨htail.mono hle, hrow ho⟩
    · exact (hts task (List.mem_cons_of_mem _ h)).mono hle

/-! ## Rounds -/

/-- **The state mentions no variable that is gone.** -/
structure Clear (gone : Nat → Prop) (st : Solver) : Prop extends PendingClear gone st where
  lastType : ∀ t, st.lastType = some t → AllLive gone st.counter t

theorem PendingClear.weaken {gone' : Nat → Prop} {st : Solver} (h : PendingClear gone st)
    (himp : ∀ v, gone' v → gone v) : PendingClear gone' st where
  past v hv := h.past v (himp v hv)
  equation e he := ⟨⟨(h.equation e he).1.1, fun hv => (h.equation e he).1.2 (himp _ hv)⟩,
    fun v hv => ⟨((h.equation e he).2 v hv).1, fun hg => ((h.equation e he).2 v hv).2 (himp _ hg)⟩⟩
  nontrivial := h.nontrivial

theorem Clear.weaken {gone' : Nat → Prop} {st : Solver} (h : Clear gone st)
    (himp : ∀ v, gone' v → gone v) : Clear gone' st :=
  ⟨h.toPendingClear.weaken himp,
    fun t ht v hv => ⟨(h.lastType t ht v hv).1, fun hg => (h.lastType t ht v hv).2 (himp _ hg)⟩⟩

theorem Clear.not_mentions {st : Solver} {v : Nat} (h : Clear gone st) (hv : gone v) :
    ¬ st.Mentions v := by
  rintro (⟨e, he, rfl | hmem⟩ | ⟨t, ht, hmem⟩)
  · exact (h.equation e he).1.2 hv
  · exact ((h.equation e he).2 v hmem).2 hv
  · exact (h.lastType t ht v hmem).2 hv

/-- A type that is closed over a variable has no more use for it. -/
theorem closeOver_cases {n : Nat} {t t' : Ty} {st mid : Solver}
    (h : (closeOver n t).run st = (.ok t', mid)) (hpast : ∀ v, gone v → v < st.counter)
    (hn : n < st.counter) (ht : AllLive gone st.counter t) :
    ∃ c, mid = st.numbering c ∧ st.counter ≤ c ∧ AllLive (fun v => gone v ∨ v = n) c t' := by
  rw [closeOver_eq] at h
  split at h
  case isTrue =>
    rw [Run.run_bind, Run.run_fresh] at h
    cases h
    refine ⟨st.counter + 1, rfl, Nat.le_succ _, fun v hv => ?_⟩
    have hfresh : AllLive (fun v => gone v ∨ v = n) (st.counter + 1) (.var st.counter) := by
      refine allLive_var.mpr (live_fresh (c := st.counter) ?_ (Nat.le_refl _) (Nat.lt_succ_self _))
      rintro v (hv | rfl)
      exacts [hpast v hv, hn]
    exact ht.substitute hfresh (Nat.le_succ _) v (mem_free_bind.mp hv).1
  case isFalse hmem =>
    cases h
    refine ⟨st.counter, rfl, Nat.le_refl _, fun v hv => ⟨(ht v hv).1, not_or.mpr ⟨(ht v hv).2, ?_⟩⟩⟩
    rintro rfl
    exact hmem (List.contains_iff_mem.mpr hv)

section

variable {st st' mid mid' : Solver} {r : Except TypeFailure Unit} {e : Equation}
  {others : List Equation} {t : Ty} {line : String}

/-- **While the others are gone through, the bound variable is gone.** -/
theorem Clear.replacingAll (h : Clear gone st) (hfirst : firstBinding st.pending = some (e, others))
    (hclose : (closeOver e.var e.type).run st.emptied = (.ok t, mid))
    (hwork : Course (replacingAll e.var t others) (mid.saying line) r mid') :
    PendingClear (fun v => gone v ∨ v = e.var) mid' ∧ st.counter ≤ mid'.counter ∧
      mid'.lastType = st.lastType ∧ AllLive (fun v => gone v ∨ v = e.var) mid'.counter t := by
  obtain ⟨he, hothers⟩ := mem_of_firstBinding hfirst
  obtain ⟨hvar, htype⟩ := h.equation e he
  obtain ⟨c, rfl, hc, ht⟩ := closeOver_cases hclose h.past hvar.1 htype
  have hstart : PendingClear (fun v => gone v ∨ v = e.var)
    ((st.emptied.numbering c).saying line) := by
    refine ⟨?_, by simp [saying, numbering, emptied], by simp [saying, numbering, emptied]⟩
    rintro v (hv | rfl)
    exacts [(h.past v hv).trans_le hc, hvar.1.trans_le hc]
  have hgrows := hwork.grows
  refine ⟨hwork.pendingClear hstart fun task htask => ?_, hc.trans hgrows.counter, hgrows.lastType,
    ht.mono hgrows.counter⟩
  obtain ⟨d, hd, rfl⟩ := List.mem_map.mp htask
  obtain ⟨hd, hdt⟩ := h.equation d (hothers d (List.mem_filter.mp hd).1)
  exact ⟨(allLive_var.mpr hd).substitute ht hc, hdt.substitute ht hc⟩

/-- **A variable that has been bound is gone.** -/
theorem Clear.insert (h : Clear gone st) (hfirst : firstBinding st.pending = some (e, others))
    (hround : Round st (.ok ()) st') : Clear (fun v => gone v ∨ v = e.var) st' := by
  cases hround with
  | idle hnone => rw [hfirst] at hnone; cases hnone
  | done hfirst' hclose hwork =>
    rw [hfirst] at hfirst'
    cases hfirst'
    obtain ⟨hpending, hcounter, hlast, ht⟩ := h.replacingAll hfirst hclose hwork
    refine ⟨⟨hpending.past, hpending.equation, hpending.nontrivial⟩, fun u hu => ?_⟩
    obtain ⟨u', hu', rfl⟩ := Option.map_eq_some_iff.mp hu
    exact ((h.lastType u' (hlast ▸ hu')).substitute ht hcounter).flatten

/-- **What is gone stays gone in a round**, whatever its end. -/
theorem Clear.round (h : Clear gone st) (hround : Round st r st') : Clear gone st' := by
  cases hround with
  | idle =>
    refine ⟨⟨h.past, by simp [updating, emptied], by simp [updating, emptied]⟩, fun u hu => ?_⟩
    obtain ⟨u', hu', rfl⟩ := Option.map_eq_some_iff.mp hu
    rw [substitute_nil]
    exact (h.lastType u' hu').flatten
  | done hfirst hclose hwork =>
    exact (h.insert hfirst (.done hfirst hclose hwork)).weaken fun v hv => Or.inl hv
  | failed hfirst hclose hwork =>
    obtain ⟨-, hcounter, hlast, -⟩ := h.replacingAll hfirst hclose hwork
    have hst := h.toPendingClear.numbering hcounter
    exact ⟨⟨hst.past, hst.equation, hst.nontrivial⟩,
      fun u hu => (h.lastType u (hlast ▸ hu)).mono hcounter⟩
  | tooDeep hfirst hclose hwork =>
    obtain ⟨hpending, hcounter, hlast, -⟩ := h.replacingAll hfirst hclose hwork
    exact ⟨hpending.weaken fun v hv => Or.inl hv,
      fun u hu => (h.lastType u (hlast ▸ hu)).mono hcounter⟩

end

end Solver

end RowLang
