import RowLang.Proofs.Eval.Discreet
import RowLang.Proofs.Eval.Moment

/-!
# Proofs/Eval/Shadow — a world that follows another one

Evaluation in a new world does over again what has been done in an older one, field by field and
module by module, though not in the same order.  The new world is a `Shadow` of the older one: its
things are some of the things of the older one, and whatever is computed in it has been computed
there before, to a value that matches (`Shadow.Behind`).  It catches up step by step
(`Shadow.Advances`).  No thing is met twice, since what was made in the computation of a field is
met when that field is computed, and that is done once.
-/

namespace RowLang

/-- What a thing was made in. -/
inductive Maker where
  | program
  | field (address : Nat) (l : Label)
  | module (resolver : Nat) (name : String)

/-- A world, and what its things were made in. -/
structure Moment where
  world : World
  maker : Thing → Maker

/-- A world, and which of its things are which things of another world. -/
structure Shadow where
  world : World
  matching : Matching

/-- **A moment is not later than another one.** -/
structure Moment.Le (t u : Moment) : Prop where
  world : t.world.Precedes u.world
  maker : ∀ x, t.world.Has x → u.maker x = t.maker x

namespace Moment.Le

variable {t u v : Moment}

theorem refl (t : Moment) : t.Le t := ⟨.refl _, fun _ _ => rfl⟩

theorem trans (h : t.Le u) (h' : u.Le v) : t.Le v where
  world := h.world.trans h'.world
  maker x hx := (h'.maker x (h.world.has x hx)).trans (h.maker x hx)

end Moment.Le

namespace Shadow

/-- Whether the computation that made something is known to a shadow: it has been done or is
underway. -/
def Knows (s : Shadow) : Maker → Prop
  | .program => True
  | .field a l => ∃ a', s.matching (.record a') (.record a) ∧
    ((s.world.row a').access l = .circular ∨ ∃ v, (s.world.row a').access l = .ready v)
  | .module k name => ∃ k', s.matching (.resolver k') (.resolver k) ∧
    (name ∈ (s.world.resolver k').construction ∨ ∃ v,
      (s.world.resolver k').loaded.lookup name = some v)

/-- **A shadow is behind a moment**: all that it has and has computed is there, and it knows the
makers of its things. -/
structure Behind (s : Shadow) (t : Moment) : Prop where
  unique : s.matching.Unique
  has : ∀ {x y}, s.matching x y → s.world.Has x ∧ t.world.Has y
  before : s.matching (.birth 0) (.birth 0)
  shared : s.matching (.record Value.sharedEmpty) (.record Value.sharedEmpty)
  records : ∀ {a' a : Nat}, s.matching (.record a') (.record a) → ∃ r' r,
    s.world.records[a']? = some r' ∧ t.world.records[a]? = some r ∧ r'.Matches s.matching r
  ready : ∀ {a' a l v'}, s.matching (.record a') (.record a) →
    (s.world.row a').access l = .ready v' →
    ∃ v, (t.world.row a).access l = .ready v ∧ v'.Matches s.matching v
  loaded : ∀ {k' k name v'}, s.matching (.resolver k') (.resolver k) →
    (s.world.resolver k').loaded.lookup name = some v' →
    ∃ v, (t.world.resolver k).loaded.lookup name = some v ∧ v'.Matches s.matching v
  library : s.world.library = t.world.library
  room : s.world.machine.room = t.world.machine.room
  orderly : ∀ k, (s.world.resolver k).Orderly
  knows : ∀ {x y}, s.matching x y → s.Knows (t.maker y)

/-- What is underway in a shadow has not been done in a world. -/
structure Apart (s : Shadow) (w : World) : Prop where
  fields : ∀ {a' a l}, s.matching (.record a') (.record a) → (s.world.row a').access l = .circular →
    ∀ v, (w.row a).access l ≠ .ready v
  modules : ∀ {k' k name}, s.matching (.resolver k') (.resolver k) →
    name ∈ (s.world.resolver k').construction → (w.resolver k).loaded.lookup name = none

/-- **A shadow catches up with a moment**: it meets some new things, and neither ends what is
underway nor posts an issue. -/
structure Advances (s s' : Shadow) (t : Moment) (new : Thing → Prop) : Prop where
  matching : s.matching ≤ s'.matching
  new : ∀ {x y}, s'.matching x y → s.matching x y ∨ ¬ s.world.Has x ∧ new y
  resolvers : ∀ {k' k}, s'.matching (.resolver k') (.resolver k) →
    s.matching (.resolver k') (.resolver k)
  world : s.world.Precedes s'.world
  steady : s.world.Steady s'.world
  report : s'.world.report = s.world.report
  behind : s'.Behind t

variable {s s' s'' : Shadow} {t u : Moment} {new new' : Thing → Prop} {m : Maker}

theorem Behind.mono (h : s.Behind t) (htu : t.Le u) : s.Behind u where
  unique := h.unique
  has hxy := ⟨(h.has hxy).1, htu.world.has _ (h.has hxy).2⟩
  before := h.before
  shared := h.shared
  records ha := by
    obtain ⟨r', r, hr', hr, hmatches⟩ := h.records ha
    obtain ⟨q, hq, hkin⟩ := htu.world.records _ _ hr
    exact ⟨r', q, hr', hq, hmatches.of_kin hkin⟩
  ready ha hv := by
    obtain ⟨v, hready, hmatches⟩ := h.ready ha hv
    exact ⟨v, htu.world.ready _ _ _ hready, hmatches⟩
  loaded hk hv := by
    obtain ⟨v, hloaded, hmatches⟩ := h.loaded hk hv
    exact ⟨v, htu.world.loaded _ _ _ hloaded, hmatches⟩
  library := h.library.trans htu.world.library.symm
  room := h.room.trans (congrArg Machine.room htu.world.machine.symm)
  orderly := h.orderly
  knows hxy := by
    rw [htu.maker _ (h.has hxy).2]
    exact h.knows hxy

theorem Apart.mono {w w' : World} (h : s.Apart w') (hw : w.Precedes w') : s.Apart w where
  fields ha hcirc v hv := h.fields ha hcirc v (hw.ready _ _ _ hv)
  modules hk hname := by
    have hnone := h.modules hk hname
    rw [Option.eq_none_iff_forall_ne_some] at hnone ⊢
    exact fun v hv => hnone v (hw.loaded _ _ _ hv)

/-- The labels of a record that is met. -/
theorem Behind.labels_eq {a' a : Nat} (h : s.Behind t) (ha : s.matching (.record a') (.record a)) :
    Row.labels (s.world.row a') = Row.labels (t.world.row a) := by
  obtain ⟨r', r, hr', hr, hmatches⟩ := h.records ha
  rw [World.row_of_getElem? hr', World.row_of_getElem? hr, ← r'.labels_fields, ← r.labels_fields]
  exact Row.Matches.labels hmatches.fields

/-- **What is known stays known.** -/
theorem Knows.mono (h : s.Knows m) (hmatching : s.matching ≤ s'.matching)
    (hworld : s.world.Precedes s'.world) (hsteady : s.world.Steady s'.world) : s'.Knows m := by
  cases m with
  | program => trivial
  | field a l =>
    obtain ⟨a', ha, hcirc | ⟨v, hv⟩⟩ := h
    · exact ⟨a', hmatching _ _ ha, Or.inl ((hsteady.circular a' l).mpr hcirc)⟩
    · exact ⟨a', hmatching _ _ ha, Or.inr ⟨v, hworld.ready _ _ _ hv⟩⟩
  | module k name =>
    obtain ⟨k', hk, hname | ⟨v, hv⟩⟩ := h
    · exact ⟨k', hmatching _ _ hk, Or.inl (hsteady.construction k' ▸ hname)⟩
    · exact ⟨k', hmatching _ _ hk, Or.inr ⟨v, hworld.loaded _ _ _ hv⟩⟩

namespace Advances

theorem refl (h : s.Behind t) : s.Advances s t new where
  matching := le_rfl
  new hxy := Or.inl hxy
  resolvers hk := hk
  world := .refl _
  steady := .refl _
  report := rfl
  behind := h

theorem knows (h : s.Advances s' t new) (hm : s.Knows m) : s'.Knows m :=
  hm.mono h.matching h.world h.steady

/-- What is met is older, if it is older in the shadow. -/
theorem of_has {x y : Thing} (h : s.Advances s' t new) (hxy : s'.matching x y)
    (hx : s.world.Has x) :
    s.matching x y := (h.new hxy).resolve_right fun hnew => hnew.1 hx

theorem trans (h : s.Advances s' t new) (h' : s'.Advances s'' t new') :
    s.Advances s'' t fun y => new y ∨ new' y where
  matching := h.matching.trans h'.matching
  new hxy := by
    rcases h'.new hxy with hxy | ⟨hx, hy⟩
    · exact (h.new hxy).imp_right fun ⟨hx, hy⟩ => ⟨hx, Or.inl hy⟩
    · exact Or.inr ⟨fun hx' => hx (h.world.has _ hx'), Or.inr hy⟩
  resolvers hk := h.resolvers (h'.resolvers hk)
  world := h.world.trans h'.world
  steady := h.steady.trans h'.steady
  report := h'.report.trans h.report
  behind := h'.behind

theorem weaken (h : s.Advances s' t new) (hnew : ∀ y, new y → new' y) : s.Advances s' t new' :=
  { h with new := fun hxy => (h.new hxy).imp_right fun ⟨hx, hy⟩ => ⟨hx, hnew _ hy⟩ }

/-- What is underway is still apart. -/
theorem apart {w : World} (h : s.Advances s' t new) (hs : s.Apart w) : s'.Apart w where
  fields {a' a l} ha hcirc := by
    have hcirc := (h.steady.circular a' l).mp hcirc
    obtain ⟨r, hr, -⟩ := World.exists_of_access hcirc (by rintro ⟨⟩)
    exact hs.fields (h.of_has ha (World.has_of_getElem? hr)) hcirc
  modules {k' k name} hk hname := by
    rw [h.steady.construction k'] at hname
    exact hs.modules (h.resolvers hk) hname

end Advances

/-! ## Meeting a new thing -/

/-- A shadow in another world that meets one more thing. -/
def meet (s : Shadow) (w : World) (x y : Thing) : Shadow :=
  ⟨w, fun p q => s.matching p q ∨ p = x ∧ q = y⟩

/-- What a new world adds to that of a shadow: one thing, with nothing computed. -/
structure Adds (w w' : World) (x : Thing) : Prop where
  world : w.Precedes w'
  steady : w.Steady w'
  report : w'.report = w.report
  resolvers : w'.resolvers = w.resolvers
  ready : ∀ {a l v}, (w'.row a).access l = .ready v → (w.row a).access l = .ready v
  new : ¬ w.Has x
  has : w'.Has x
  thing : ∀ k, x ≠ .resolver k

/-- **A shadow meets a thing of a maker that it knows.** -/
theorem Behind.meet {w : World} {x y : Thing} (h : s.Behind u) (hadds : Adds s.world w x)
    (hy : u.world.Has y) (hfresh : ∀ x', ¬ s.matching x' y) (hknows : s.Knows (u.maker y))
    (hnew : new y) (hrecord : ∀ {a' a : Nat}, x = .record a' → y = .record a → ∃ r' r,
      w.records[a']? = some r' ∧ u.world.records[a]? = some r ∧ r'.Matches s.matching r) :
    s.Advances (s.meet w x y) u new := by
  have hle : s.matching ≤ (s.meet w x y).matching := fun _ _ hpq => Or.inl hpq
  have hresolver : ∀ k, w.resolver k = s.world.resolver k := fun k => by
    rw [World.resolver, hadds.resolvers, ← World.resolver]
  have hrecords {a' a : Nat} (ha : s.matching (.record a') (.record a)) :
      ∃ r' r, w.records[a']? = some r' ∧ u.world.records[a]? = some r ∧
        r'.Matches s.matching r := by
    obtain ⟨r', r, hr', hr, hmatches⟩ := h.records ha
    obtain ⟨q', hq', hkin⟩ := hadds.world.records _ _ hr'
    exact ⟨q', r, hq', hr, hmatches.kin_of hkin⟩
  exact {
    matching := hle
    new := by
      rintro p q (hpq | ⟨rfl, rfl⟩)
      · exact Or.inl hpq
      · exact Or.inr ⟨hadds.new, hnew⟩
    resolvers := by
      rintro k' k (hk | ⟨hk, -⟩)
      · exact hk
      · exact absurd hk.symm (hadds.thing k')
    world := hadds.world
    steady := hadds.steady
    report := hadds.report
    behind := {
      unique := {
        right := by
          rintro p q q' (hq | ⟨rfl, rfl⟩) (hq' | ⟨hp, rfl⟩)
          · exact h.unique.right hq hq'
          · exact absurd (hp ▸ (h.has hq).1) hadds.new
          · exact absurd (h.has hq').1 hadds.new
          · rfl
        left := by
          rintro p p' q (hp | ⟨rfl, rfl⟩) (hp' | ⟨rfl, hq⟩)
          · exact h.unique.left hp hp'
          · exact absurd (hq ▸ hp) (hfresh _)
          · exact absurd hp' (hfresh _)
          · rfl }
      has := by
        rintro p q (hpq | ⟨rfl, rfl⟩)
        · exact ⟨hadds.world.has _ (h.has hpq).1, (h.has hpq).2⟩
        · exact ⟨hadds.has, hy⟩
      before := Or.inl h.before
      shared := Or.inl h.shared
      records := by
        rintro a' a (ha | ⟨ha', ha⟩)
        · obtain ⟨r', r, hr', hr, hmatches⟩ := hrecords ha
          exact ⟨r', r, hr', hr, hmatches.mono hle⟩
        · obtain ⟨r', r, hr', hr, hmatches⟩ := hrecord ha'.symm ha.symm
          exact ⟨r', r, hr', hr, hmatches.mono hle⟩
      ready := by
        rintro a' a l v' ha hv
        have hv := hadds.ready hv
        rcases ha with ha | ⟨ha', -⟩
        · obtain ⟨v, hready, hmatches⟩ := h.ready ha hv
          exact ⟨v, hready, hmatches.mono hle⟩
        · obtain ⟨r, hr, -⟩ := World.exists_of_access hv (by rintro ⟨⟩)
          exact absurd (ha' ▸ World.has_of_getElem? hr) hadds.new
      loaded := by
        rintro k' k name v' (hk | ⟨hk, -⟩) hv
        · obtain ⟨v, hloaded, hmatches⟩ := h.loaded hk (hresolver k' ▸ hv)
          exact ⟨v, hloaded, hmatches.mono hle⟩
        · exact absurd hk.symm (hadds.thing k')
      library := hadds.world.library.trans h.library
      room := (congrArg Machine.room hadds.world.machine).trans h.room
      orderly := fun k => hresolver k ▸ h.orderly k
      knows := by
        have hmono {m : Maker} (hm : s.Knows m) : (s.meet w x y).Knows m :=
          hm.mono hle hadds.world hadds.steady
        rintro p q (hpq | ⟨rfl, rfl⟩)
        · exact hmono (h.knows hpq)
        · exact hmono hknows } }

/-- A birth. -/
theorem adds_birth (w : World) : Adds w { w with births := w.births + 1 } (.birth w.births) where
  world := World.precedes_of_eq rfl (Nat.le_succ _) rfl rfl rfl
  steady := World.steady_of_eq rfl rfl
  report := rfl
  resolvers := rfl
  ready h := h
  new := Nat.lt_irrefl _
  has := Nat.lt_succ_self _
  thing _ := by rintro ⟨⟩

/-- A record of fields that have not been computed. -/
theorem adds_record (w : World) {r : StoredRecord} (h : ∀ l, r.row.access l ≠ .circular)
    (h' : ∀ l v, r.row.access l ≠ .ready v) :
    Adds w { w with records := w.records.push r } (.record w.records.size) where
  world := World.precedes_push w r
  steady := World.steady_push w h
  report := rfl
  resolvers := rfl
  ready {a l v} hv := by
    rw [World.row_push] at hv
    split at hv
    · exact absurd hv (h' l v)
    · exact hv
  new := Nat.lt_irrefl _
  has := by
    show w.records.size < (w.records.push r).size
    rw [Array.size_push]
    exact Nat.lt_succ_self _
  thing _ := by rintro ⟨⟩

end Shadow

end RowLang
