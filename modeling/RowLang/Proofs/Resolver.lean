import RowLang.Library
import RowLang.Proofs.Row.Lookup
import Mathlib.Data.Finset.Card
import Mathlib.Data.List.TakeWhile

/-!
# Proofs/Resolver — resolvers in order

A resolver is in order when no module is under construction twice, or under construction and loaded
(`Resolver.Orderly`).  So it stays when a module that is neither is entered, and when the latest
module under construction is left, with its value or without one.
-/

namespace RowLang

/-- The names of the modules at hand. -/
def Library.modules (lib : Library) : Finset String :=
  (lib.definitions.map (·.1) ++ (lib.folder.map fun f => f.modules.map (·.1)).getD []).toFinset

theorem Library.mem_modules {lib : Library} {name text : String}
    (h : lib.source name = .ok (some text)) :
    name ∈ lib.modules := by
  rw [modules, List.mem_toFinset, List.mem_append]
  unfold source at h
  split at h
  case h_1 hdefined => exact Or.inl (Row.mem_labels_of_mem (Row.mem_of_lookup hdefined))
  case h_2 f _ hfolder =>
    unfold read at h
    split at h
    · split at h
      case h_1 hread =>
        rw [hfolder]
        exact Or.inr (Row.mem_labels_of_mem (Row.mem_of_lookup hread))
      all_goals cases h
    · cases h
  case h_3 => cases h

namespace Resolver

variable {r : Resolver} {name other : String} {v : Value}

/-- **A resolver in order.** -/
structure Orderly (r : Resolver) : Prop where
  nodup : r.construction.Nodup
  unloaded : ∀ name ∈ r.construction, r.loaded.lookup name = none

theorem orderly_new : Orderly {} := ⟨List.nodup_nil, fun _ h => absurd h List.not_mem_nil⟩

theorem Orderly.enter (h : r.Orderly) (hloaded : r.loaded.lookup name = none)
    (hname : name ∉ r.construction) : (r.enter name).Orderly where
  nodup := List.nodup_append.mpr ⟨h.nodup, List.nodup_singleton _, by
    rintro x hx y hy rfl
    exact hname (List.mem_singleton.mp hy ▸ hx)⟩
  unloaded x hx := by
    rcases List.mem_append.mp hx with hx | hx
    · exact h.unloaded x hx
    · rw [List.mem_singleton.mp hx]
      exact hloaded

theorem Orderly.leave (h : r.Orderly) : r.leave.Orderly where
  nodup := h.nodup.sublist (List.dropLast_sublist _)
  unloaded x hx := h.unloaded x (List.mem_of_mem_dropLast hx)

theorem lookup_keep (r : Resolver) (name other : String) (v : Value) :
    (r.keep name v).loaded.lookup other = if other = name then some v else r.loaded.lookup other :=
  Row.lookup_cons_eq other name v r.loaded

/-- The module that has its value is the latest one under construction. -/
theorem Orderly.keep_leave (h : r.Orderly) {names : List String}
    (hnames : r.construction = names ++ [name]) :
    (r.keep name v).leave.Orderly where
  nodup := h.leave.nodup
  unloaded x hx := by
    have hx' : x ∈ names := by simpa [Resolver.leave, keep, hnames] using hx
    have hne : x ≠ name := by
      rintro rfl
      have := h.nodup
      rw [hnames, List.nodup_append] at this
      exact this.2.2 x hx' x (by simp) rfl
    show (r.keep name v).loaded.lookup x = none
    rw [lookup_keep, if_neg hne]
    exact h.unloaded x (by simp [hnames, hx'])

/-- No module is under construction from one on that is not under construction. -/
theorem cycleFrom_eq_nil (h : name ∉ r.construction) : r.cycleFrom name = [] := by
  rw [cycleFrom, List.dropWhile_eq_nil_iff]
  intro x hx
  simpa using fun hxn : x = name => h (hxn ▸ hx)

theorem cycleFrom_ne_nil (h : name ∈ r.construction) : r.cycleFrom name ≠ [] := by
  rw [cycleFrom, Ne, List.dropWhile_eq_nil_iff]
  intro hall
  simpa using hall name h

end Resolver

end RowLang
