import RowLang.Proofs.Ty.Good
import RowLang.Solver.Equate

/-!
# Proofs/Solver/Key — what the key of an equality tells

An equality is known by the texts of its sides and an equation by the name of its variable and the
text of its type, so a key tells what the texts tell.  A text confuses an empty closed row with the
marker that closes it.  So the equality of an empty row with a row that has fields, which does not
hold, has the key of the equality that it comes to, that of the marker with the same row, and that
one is taken for granted: it is `Lost`.
-/

namespace RowLang

open Ty

theorem stops_equality (r : List Char) : Stops (" == ".toList ++ r) := by
  refine ⟨Text.noWord_blank (c := '=') rfl _, ?_⟩
  rintro ⟨w, hw⟩
  exact absurd (congrArg (fun l : List Char => l[1]?) hw) (by simp)

/-- **The key of an equality tells the texts of its sides.** -/
theorem Solver.text_eq_of_equalityKey_eq {s t s' t' : Ty} (hs : s.Tidy) (hs' : s'.Tidy)
    (h : equalityKey s t = equalityKey s' t') : s.text = s'.text ∧ t.text = t'.text := by
  have hchars : s.chars ++ (" == ".toList ++ t.chars) = s'.chars ++
    (" == ".toList ++ t'.chars) := by
    have := congrArg String.toList h
    simpa [equalityKey, text] using this
  have hrest :=
    (readable naming_ownName hs s' _ _ hs' (stops_equality _) (stops_equality _) hchars).2
  rw [hrest] at hchars
  exact ⟨congrArg String.ofList (List.append_cancel_right hchars),
    congrArg String.ofList (List.append_cancel_left hrest)⟩

/-- **The key of an equation tells its variable and the text of its type.** -/
theorem Equation.text_eq_of_key_eq {d e : Equation} (h : d.key = e.key) :
    d.var = e.var ∧ d.type.text = e.type.text := by
  have hchars : ownName d.var ++ (" = ".toList ++ d.type.chars)
      = ownName e.var ++ (" = ".toList ++ e.type.chars) := by
    have := congrArg String.toList (d.key_eq ▸ e.key_eq ▸ h)
    simpa [text] using this
  have hcloses : ∀ r, Text.Closes (" = ".toList ++ r) := fun r => Text.closes_cons (c := ' ') rfl _
  obtain ⟨hname, hrest⟩ := Text.word_inj (isWord_ownName _) (isWord_ownName _) (hcloses _)
    (hcloses _) hchars
  exact ⟨ownName_injective hname, congrArg String.ofList (List.append_cancel_left hrest)⟩

/-- Posting an equation adds it, in the place of one of the same key if there is one. -/
theorem Equation.mem_post {ds : List Equation} {d e : Equation} (h : d ∈ Equation.post ds e) :
    d = e ∨ d ∈ ds := by
  induction ds with
  | nil => exact Or.inl (List.mem_singleton.mp h)
  | cons d' ds ih =>
    rw [post] at h
    split at h
    · exact (List.mem_cons.mp h).imp_right (List.mem_cons_of_mem _)
    · rcases List.mem_cons.mp h with rfl | h
      · exact Or.inr List.mem_cons_self
      · exact (ih h).imp_right (List.mem_cons_of_mem _)

/-- After posting, the keys are those that were there and the new one. -/
theorem Equation.mem_keys_post {ds : List Equation} {e : Equation} {key : String} :
    key ∈ (Equation.post ds e).map (·.key) ↔ key = e.key ∨ key ∈ ds.map (·.key) := by
  induction ds with
  | nil => simp [post]
  | cons d ds ih =>
    rw [post]
    split
    case isTrue hkey => simp [hkey]
    case isFalse => simp [ih, or_left_comm]

/-- Without an equation of the variable of the first one, the keys are others. -/
theorem Solver.keys_ne_of_forall_var_ne {st st' : Solver} {e : Equation} {others : List Equation}
    (hpending : st.pending = e :: others) (h : ∀ d ∈ st'.pending, d.var ≠ e.var) :
    st'.keys ≠ st.keys := by
  intro hkeys
  have hmem : e.key ∈ st'.keys := by
    rw [hkeys, keys, hpending]
    exact List.mem_cons_self
  obtain ⟨d, hd, hkey⟩ := List.mem_map.mp hmem
  exact h d hd (Equation.text_eq_of_key_eq hkey).1

/-- **An equality that does not hold has been taken for granted**: that of a marker with a row of
fields. -/
def Solver.Lost (st : Solver) : Prop :=
  ∃ (k : RowKind) (fields : Row Ty) (tail : Ty), fields ≠ [] ∧ (Ty.row k fields tail).Tidy ∧
    equalityKey k.end (.row k fields tail) ∈ st.trace

theorem Solver.Lost.mono {st st' : Solver} (h : st.Lost)
    (hsub : ∀ line ∈ st.trace, line ∈ st'.trace) :
    st'.Lost := by
  obtain ⟨k, fields, tail, hne, htidy, hmem⟩ := h
  exact ⟨k, fields, tail, hne, htidy, hsub _ hmem⟩

end RowLang
