import Mathlib.Data.List.GetD
import Mathlib.Data.Set.Finite.Lattice
import Mathlib.Order.Bounds.Basic
import RowLang.Proofs.Ty.Likeness
import RowLang.Proofs.Ty.Sameness

/-!
# Proofs/Ty/Pretty — what a text with names in the order of appearance tells

The numbers of the variables are gone from such a text: each name is the place at which its variable
appears first, so that a renaming that keeps the variables apart leaves the text as it is
(`prettyChars_rename`).  Nothing else is gone that a text under fixed names tells.  Names of several
letters may spell the word of a binder, but no further word stands behind a name, so that the text
can still be read; and the types that two equal texts show under the places as numbers come to one
another by the renaming that takes a place to the variable that has it (`exists_rename_shown_eq`).
-/

namespace RowLang.Ty

variable {P : Nat → Prop} {ρ : Nat → Nat}

/-! ## The variables of a type -/

theorem over_of_mentions {t : Ty} (h : ∀ v, t.Mentions v → P v) : t.Over P := by
  induction t using inductOn with
  | number | char | unit | empty => trivial
  | var n => exact h n (Or.inl (by simp))
  | arrow a b iha ihb =>
    exact ⟨iha fun v hv => h v
      (hv.imp (mem_free_arrow.mpr <| Or.inl ·) (mem_binders_arrow.mpr <| Or.inl ·)),
      ihb fun v hv =>
        h v (hv.imp (mem_free_arrow.mpr <| Or.inr ·) (mem_binders_arrow.mpr <| Or.inr ·))⟩
  | list t ih => exact ih fun v hv => h v (hv.imp_left (by simpa using ·))
  | row k fields tail ihf iht =>
    refine over_row.mpr ⟨fun p hp => ihf p hp fun v hv => h v ?_, iht fun v hv => h v ?_⟩
    · exact hv.imp (mem_free_row.mpr <| Or.inr ⟨p, hp, ·⟩)
        (mem_binders_row.mpr <| Or.inr ⟨p, hp, ·⟩)
    · exact hv.imp (mem_free_row.mpr <| Or.inl ·) (mem_binders_row.mpr <| Or.inl ·)
  | bind b n body ih =>
    have hn : (bind b n body).Mentions n := Or.inr (mem_binders_bind.mpr (Or.inl rfl))
    refine ⟨h n hn, ih fun v hv => ?_⟩
    by_cases hv' : v = n
    · exact hv' ▸ h n hn
    · exact h v (hv.imp (mem_free_bind.mpr ⟨·, hv'⟩) (mem_binders_bind.mpr <| Or.inr ·))

/-- The variables that appear are those that occur free or with a binder. -/
theorem mem_appearances {t : Ty} {v : Nat} : v ∈ t.appearances ↔ t.Mentions v := by
  rw [Mentions]
  induction t using inductOn with
  | number | char | unit | empty => simp [appearances, free, binders]
  | var n => simp [appearances, binders]
  | arrow a b iha ihb =>
    rw [appearances, List.mem_append, iha, ihb, mem_free_arrow, mem_binders_arrow, or_or_or_comm]
  | list t ih => rw [appearances, ih, free_list, binders]
  | row k fields tail ihf iht =>
    have hfields : v ∈ (Row.sortedValues (appearancesOfFields fields)).flatten ↔
        ∃ p ∈ fields, v ∈ p.2.free ∨ v ∈ p.2.binders := by
      rw [appearancesOfFields_eq_map, Row.sortedValues, Row.sorted_mapValues, Row.mapValues,
        List.map_map,
        List.mem_flatten]
      constructor
      · rintro ⟨_, hvs, hv⟩
        obtain ⟨p, hp, rfl⟩ := List.mem_map.mp hvs
        exact ⟨p, Row.mem_sorted.mp hp, (ihf p (Row.mem_sorted.mp hp)).mp hv⟩
      · rintro ⟨p, hp, hv⟩
        exact ⟨_, List.mem_map_of_mem (Row.mem_sorted.mpr hp), (ihf p hp).mpr hv⟩
    rw [appearances, List.mem_append, hfields, iht, mem_free_row, mem_binders_row,
      or_or_or_comm, or_comm]
    simp only [and_or_left, exists_or]
  | bind b n body ih =>
    rw [appearances, List.mem_cons, ih, mem_free_bind, mem_binders_bind]
    by_cases hv : v = n <;> simp [hv]

/-! ## Other numbers, the same text -/

/-- What keeps finitely many numbers apart agrees with a renaming that keeps all numbers apart. -/
theorem KeepsApart.exists_injective {vs : List Nat} (hρ : KeepsApart (· ∈ vs) ρ) :
    ∃ ρ' : Nat → Nat, ρ'.Injective ∧ ∀ v ∈ vs, ρ v = ρ' v := by
  obtain ⟨bound, hbound⟩ := (List.finite_toSet (vs.map ρ)).bddAbove
  have hle : ∀ v ∈ vs, ρ v ≤ bound := fun v hv => hbound (List.mem_map_of_mem hv)
  refine ⟨fun n => if n ∈ vs then ρ n else n + (bound + 1), fun m n h => ?_,
    fun v hv => (if_pos hv).symm⟩
  by_cases hm : m ∈ vs <;> by_cases hn : n ∈ vs <;> simp only [hm, hn, if_true, if_false] at h
  · exact hρ m n hm hn h
  · have := hle m hm
    omega
  · have := hle n hn
    omega
  · omega

/-- **The text does not tell the numbers of the variables.** -/
theorem prettyChars_rename {t : Ty} (hρ : KeepsApart t.Mentions ρ) :
    (t.rename ρ).prettyChars = t.prettyChars := by
  have hapart : KeepsApart (· ∈ t.appearances) ρ := fun m n hm hn =>
    hρ m n (mem_appearances.mp hm) (mem_appearances.mp hn)
  obtain ⟨ρ', hρ', hagree⟩ := hapart.exists_injective
  rw [rename_congr (over_of_mentions fun v hv => hagree v (mem_appearances.mpr hv)), prettyChars,
    prettyChars, appearances_rename, eraseDups_map hρ', render_rename, nameAmong_map hρ']

/-! ## What a type shows, under other numbers -/

theorem shown_rename (t : Ty) : (t.rename ρ).shown = t.shown.rename ρ := by
  induction t using inductOn with
  | number | char | unit | empty | var => rfl
  | arrow a b iha ihb => exact congrArg₂ arrow iha ihb
  | list t ih => exact congrArg list ih
  | bind b n body ih => exact congrArg (bind b (ρ n)) ih
  | row k fields tail ihf iht =>
    have hfields : Row.mapValues shown (Row.mapValues (Ty.rename ρ) (Row.sorted fields))
        = Row.mapValues (Ty.rename ρ) (Row.mapValues shown (Row.sorted fields)) := by
      simp only [Row.mapValues, List.map_map]
      exact List.map_congr_left fun p hp => congrArg (Prod.mk p.1) (ihf p (Row.mem_sorted.mp hp))
    rw [rename_row, shown_row, shown_row, rename_row, Row.sorted_mapValues, hfields,
      isEnd_rename, iht]
    split
    · cases k <;> rfl
    · rfl

/-- The variables of what a type shows appear in the same order. -/
theorem appearances_shown (t : Ty) : t.shown.appearances = t.appearances := by
  induction t using inductOn with
  | number | char | unit | empty | var => rfl
  | arrow a b iha ihb =>
    show a.shown.appearances ++ b.shown.appearances = _
    rw [iha, ihb, appearances]
  | list t ih => exact ih
  | bind b n body ih => exact congrArg (List.cons n) ih
  | row k fields tail ihf iht =>
    have hfields : Row.mapValues appearances (Row.mapValues shown (Row.sorted fields))
        = Row.sorted (Row.mapValues appearances fields) := by
      rw [Row.sorted_mapValues]
      simp only [Row.mapValues, List.map_map]
      exact List.map_congr_left fun p hp => congrArg (Prod.mk p.1) (ihf p (Row.mem_sorted.mp hp))
    have htail : (if isEnd k tail then k.end else tail.shown).appearances = tail.appearances := by
      split
      case isTrue hend =>
        rw [isEnd_iff.mp hend]
      case isFalse => exact iht
    rw [shown_row, appearances, appearances, appearancesOfFields_eq_map,
      appearancesOfFields_eq_map, hfields,
      htail, Row.sortedValues, Row.sortedValues, Row.sorted_sorted]

/-! ## Reading the text -/

/-- The places at which the variables of a type appear first. -/
def place (t : Ty) (v : Nat) : Nat := t.appearances.eraseDups.idxOf v

theorem prettyChars_eq_render_place (t : Ty) :
    t.prettyChars = (t.rename t.place).render (fun n => letterName (n + 1)) false := by
  rw [render_rename]
  rfl

theorem getD_place {t : Ty} {v : Nat} (h : t.Mentions v) :
    t.appearances.eraseDups.getD (t.place v) 0 = v := by
  have hmem : v ∈ t.appearances.eraseDups := List.mem_eraseDups.mpr (mem_appearances.mpr h)
  have hlt := List.idxOf_lt_length_of_mem hmem
  rw [place, List.getD_eq_getElem _ _ hlt, List.getElem_idxOf hlt]

/-- Two variables of a type have two places. -/
theorem keepsApart_place (t : Ty) : KeepsApart t.Mentions t.place := fun m n hm hn h => by
  rw [← getD_place hm, h, getD_place hn]

/-- **Types of one pretty text show the same up to a renaming.** -/
theorem exists_rename_shown_eq {s t : Ty} (hs : s.Tidy) (ht : t.Tidy)
    (h : s.prettyChars = t.prettyChars) :
    ∃ ρ, KeepsApart s.Mentions ρ ∧ (s.rename ρ).shown = t.shown := by
  rw [prettyChars_eq_render_place, prettyChars_eq_render_place] at h
  have hshown := shown_eq_of_render_eq naming_letterName hs.rename ht.rename h
  -- From the places back to the variables of `t`.
  let back : Nat → Nat := fun i => t.appearances.eraseDups.getD i 0
  have hplaces : ∀ v, s.Mentions v → ∃ w, t.Mentions w ∧ t.place w = s.place v := by
    intro v hv
    have happears : s.appearances.map s.place = t.appearances.map t.place := by
      rw [← appearances_rename, ← appearances_rename, ← appearances_shown, hshown,
        appearances_shown]
    have hmem : s.place v ∈ t.appearances.map t.place :=
      happears ▸ List.mem_map_of_mem (mem_appearances.mpr hv)
    obtain ⟨w, hw, he⟩ := List.mem_map.mp hmem
    exact ⟨w, mem_appearances.mp hw, he⟩
  refine ⟨back ∘ s.place, fun m n hm hn he => ?_, ?_⟩
  · obtain ⟨v, hv, hvm⟩ := hplaces m hm
    obtain ⟨w, hw, hwn⟩ := hplaces n hn
    have hvw : v = w := by
      rw [← getD_place hv, ← getD_place hw, hvm, hwn]
      exact he
    exact keepsApart_place s m n hm hn (by rw [← hvm, ← hwn, hvw])
  · have hself : t.rename (back ∘ t.place) = t :=
      rename_eq_self (over_of_mentions fun v hv => getD_place hv)
    rw [← rename_rename, shown_rename, hshown, ← shown_rename, rename_rename, hself]

/-! ## Types that show the same -/

theorem Anchored.rename {t : Ty} (h : t.Anchored) : (t.rename ρ).Anchored := by
  induction t using inductOn with
  | number | char | var => trivial
  | unit | empty => exact h
  | arrow a b iha ihb => exact ⟨iha h.1, ihb h.2⟩
  | list t ih => exact ih h
  | bind b n body ih => exact ih h
  | row k fields tail ihf iht =>
    obtain ⟨hf, ht⟩ := anchored_row.mp h
    rw [rename_row]
    refine anchored_row.mpr ⟨fun q hq => ?_, ht.imp (fun he => ?_) iht⟩
    · obtain ⟨p, hp, rfl⟩ := Row.mem_mapValues.mp hq
      exact ihf p hp (hf p hp)
    · rw [he]
      cases k <;> rfl

theorem Distinct.filled {t : Ty} (h : t.Distinct) : t.filled.Distinct := by
  induction t using inductOn with
  | number | char | var => trivial
  | unit | empty => exact distinct_row.mpr ⟨List.nodup_nil, by simp, trivial⟩
  | arrow a b iha ihb => exact ⟨iha h.1, ihb h.2⟩
  | list t ih => exact ih h
  | bind b n body ih => exact ih h
  | row k fields tail ihf iht =>
    obtain ⟨hd, hf, ht⟩ := distinct_row.mp h
    rw [filled_row]
    refine distinct_row.mpr ⟨hd.mapValues _, fun q hq => ?_, ?_⟩
    · obtain ⟨p, hp, rfl⟩ := Row.mem_mapValues.mp hq
      exact ihf p hp (hf p hp)
    · split
      · cases k <;> trivial
      · exact iht ht

theorem ordered_filled (t : Ty) : t.filled.ordered = t.shown := by
  induction t using inductOn with
  | number | char | unit | empty | var => rfl
  | arrow a b iha ihb => exact congrArg₂ arrow iha ihb
  | list t ih => exact congrArg list ih
  | bind b n body ih => exact congrArg (bind b n) ih
  | row k fields tail ihf iht =>
    have hfields : Row.mapValues ordered (Row.mapValues filled (Row.sorted fields))
        = Row.mapValues shown (Row.sorted fields) := by
      simp only [Row.mapValues, List.map_map]
      exact List.map_congr_left fun p hp => congrArg (Prod.mk p.1) (ihf p (Row.mem_sorted.mp hp))
    rw [filled_row, ordered_row, Row.sorted_mapValues, hfields, shown_row]
    split
    · cases k <;> rfl
    · rw [iht]

/-- Types that are one when their fields are in order are equal. -/
theorem same_of_alike {s : Ty} : ∀ {t : Ty}, s.Distinct → t.Distinct → Alike s t →
    s.same t = true := by
  induction s using inductOn with
  | number | char | unit | empty => intro t _ _ h; cases t <;> first | rfl | cases h
  | var n =>
    intro t _ _ h
    cases t with
    | var m => exact decide_eq_true (var.inj h)
    | _ => cases h
  | arrow a b iha ihb =>
    intro t hs ht h
    cases t with
    | arrow c d =>
      obtain ⟨ha, hb⟩ := arrow.inj h
      exact Bool.and_eq_true_iff.mpr ⟨iha hs.1 ht.1 ha, ihb hs.2 ht.2 hb⟩
    | _ => cases h
  | list s ih =>
    intro t hs ht h
    cases t with
    | list t => exact ih (t := t) hs ht (list.inj h)
    | _ => cases h
  | bind b n body ih =>
    intro t hs ht h
    cases t with
    | bind b' n' body' =>
      obtain ⟨rfl, rfl, hbody⟩ := bind.inj h
      rw [same, ih (t := body') hs ht hbody]
      simp
    | _ => cases h
  | row k fields tail ihf iht =>
    intro t hs ht h
    obtain ⟨others, tail', rfl, hfields, htail⟩ :=
      eq_row_of_ordered_eq ((h.symm).trans (ordered_row ..))
    obtain ⟨hd, hf, hs⟩ := distinct_row.mp hs
    obtain ⟨hd', hf', ht⟩ := distinct_row.mp ht
    have hlength : fields.length = others.length := by
      have hlength := congrArg List.length hfields
      rwa [Row.length_mapValues, Row.length_mapValues, (Row.sorted_perm others).length_eq,
        (Row.sorted_perm fields).length_eq, eq_comm] at hlength
    refine same_row_of_lookup hlength (fun p hp => ?_) (iht hs ht htail.symm)
    have hlookup := congrArg (List.lookup p.1) hfields
    rw [Row.lookup_mapValues, Row.lookup_mapValues, Row.lookup_sorted hd', Row.lookup_sorted hd,
      hd.lookup_of_mem hp] at hlookup
    obtain ⟨u, hu, he⟩ := Option.map_eq_some_iff.mp hlookup
    exact ⟨u, hu, ihf p hp (hf p hp) (hf' _ (Row.mem_of_lookup hu)) he.symm⟩

theorem same_filled_of_shown_eq {s t : Ty} (hs : s.Distinct) (ht : t.Distinct)
    (h : s.shown = t.shown) :
    s.filled.same t.filled = true :=
  same_of_alike hs.filled ht.filled (by rw [Alike, ordered_filled, ordered_filled, h])

/-- **A pretty text tells a type up to the numbers of its variables**, the order of fields, and
whether a marker that is not the end of a row of its kind stands there or the empty row of its kind.
-/
theorem pretty_faithful :
    (∀ (t : Ty) (ρ : Nat → Nat), KeepsApart t.Mentions ρ →
      (t.rename ρ).unranked? = t.unranked? ∧ (t.rename ρ).pretty = t.pretty) ∧
    ∀ s t : Ty, s.Tidy → t.Tidy → s.pretty = t.pretty → ∃ ρ, KeepsApart s.Mentions ρ ∧
      (s.rename ρ).filled.same t.filled = true ∧
      (s.Anchored → t.Anchored → (s.rename ρ).same t = true) := by
  refine ⟨fun t ρ hρ => ⟨unranked?_rename t, congrArg String.ofList (prettyChars_rename hρ)⟩,
    fun s t hs ht h => ?_⟩
  obtain ⟨ρ, hρ, hshown⟩ := exists_rename_shown_eq hs ht (String.ofList_inj.mp h)
  have hsame := same_filled_of_shown_eq hs.rename.distinct ht.distinct hshown
  refine ⟨ρ, hρ, hsame, fun ha hb => ?_⟩
  rwa [ha.rename.filled_eq, hb.filled_eq] at hsame

/-- A polymorphic function to open records. -/
def toOpen : Ty :=
  .bind .forAll 5 (.arrow (.var 5) (.row .record [("y", .var 30), ("x", .list (.var 5))] (.var 30)))

/-- The function under the numbers of its places. -/
def toOpenByPlace : Ty :=
  .bind .forAll 0 (.arrow (.var 0) (.row .record [("x", .list (.var 0)), ("y", .var 1)] (.var 1)))

theorem pretty_faithful_toOpen :
    KeepsApart toOpen.Mentions (· + 3) ∧ (toOpen.rename (· + 3)).pretty = toOpen.pretty ∧
    toOpen.Tidy ∧ toOpenByPlace.Tidy ∧ toOpen.pretty = toOpenByPlace.pretty ∧
    toOpen.Anchored ∧ toOpenByPlace.Anchored ∧
    ∃ ρ, KeepsApart toOpen.Mentions ρ ∧ (toOpen.rename ρ).same toOpenByPlace = true := by
  obtain ⟨hrename, hreading⟩ := pretty_faithful
  have hapart : KeepsApart toOpen.Mentions (· + 3) := fun m n _ _ h => Nat.add_right_cancel h
  have hs : toOpen.Tidy := tidy_iff_eachRow.mpr (by decide)
  have ht : toOpenByPlace.Tidy := tidy_iff_eachRow.mpr (by decide)
  have hpretty : toOpen.pretty = toOpenByPlace.pretty := congrArg String.ofList (by decide)
  have hsa : toOpen.Anchored := by simp [toOpen, Anchored, FieldsAnchored]
  have hta : toOpenByPlace.Anchored := by simp [toOpenByPlace, Anchored, FieldsAnchored]
  obtain ⟨ρ, hρ, -, hsame⟩ := hreading toOpen toOpenByPlace hs ht hpretty
  exact ⟨hapart, (hrename toOpen _ hapart).2, hs, ht, hpretty, hsa, hta, ρ, hρ, hsame hsa hta⟩

/-- **A pretty text confuses** a marker behind the fields of the other kind with the empty row, and
a label that is no word with two fields. -/
theorem pretty_confuses :
    ((row .variant [("x", number)] unit).pretty =
      (row .variant [("x", number)] (closedRecord [])).pretty ∧
      ∀ ρ, ((row .variant [("x", number)] unit).rename ρ).same
        (row .variant [("x", number)] (closedRecord [])) = false) ∧
    (closedRecord [("x: N, y", number)]).pretty =
      (closedRecord [("x", number), ("y", number)]).pretty ∧
      ∀ ρ, ((closedRecord [("x: N, y", number)]).rename ρ).same
        (closedRecord [("x", number), ("y", number)]) = false :=
  ⟨⟨congrArg String.ofList (by decide), fun _ => rfl⟩, congrArg String.ofList (by decide),
    fun _ => rfl⟩

end RowLang.Ty
