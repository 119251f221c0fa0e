import Burst.Containment

namespace Burst

open PathResolution

/-- The names on the way to what a path without `..` leads to. -/
def placeNames (path : Path) : List Path := (components path).filterMap Component.name?

/-- Where a path from a directory leads when no symlink is on the way. -/
def placeOf (base : List Path) (path : Path) : List Path := base ++ placeNames path

/-- Names that the entries of one directory tree may have: they lead down, no two of them to the same
place, and nothing lies below an entry that is no directory. -/
structure PlainNames (names : List Path) : Prop where
  proper : ∀ name ∈ names, components name ≠ [] ∧ .up ∉ components name
  distinct : (names.map components).Nodup
  leaves : ∀ name ∈ names, name.getLast? ≠ some slash → ∀ other ∈ names,
    components name <+: components other → components name = components other

namespace PlainNames

variable {names : List Path} {name other : Path} {base : List Path}

theorem nodup (h : PlainNames names) : names.Nodup := List.Nodup.of_map _ h.distinct

theorem components_eq (h : PlainNames names) (hname : name ∈ names) :
    components name = (placeNames name).map .name :=
  (map_name_filterMap (h.proper name hname).2).symm

theorem placeNames_ne_nil (h : PlainNames names) (hname : name ∈ names) : placeNames name ≠ [] := by
  intro hnil
  have heq := h.components_eq hname
  rw [hnil] at heq
  exact (h.proper name hname).1 heq

theorem eq_of_components (h : PlainNames names) (hname : name ∈ names) (hother : other ∈ names)
    (heq : components name = components other) : name = other :=
  List.inj_on_of_nodup_map h.distinct hname hother heq

/-- Different names lead to different places. -/
theorem eq_of_placeOf (h : PlainNames names) (hname : name ∈ names) (hother : other ∈ names)
    (heq : placeOf base name = placeOf base other) : name = other := by
  have hnames : placeNames name = placeNames other := List.append_cancel_left heq
  apply h.eq_of_components hname hother
  rw [h.components_eq hname, h.components_eq hother, hnames]

/-- What lies on the way to an entry is a directory or the entry itself. -/
theorem eq_of_onTheWay (h : PlainNames names) (hname : name ∈ names) (hleaf : name.getLast? ≠ some slash)
    (hother : other ∈ names) (hway : placeNames name <+: placeNames other) : name = other := by
  apply h.eq_of_components hname hother
  apply h.leaves name hname hleaf other hother
  rw [h.components_eq hname, h.components_eq hother]
  exact hway.map _

theorem sublist {names' : List Path} (h : PlainNames names) (hsub : names'.Sublist names) :
    PlainNames names' where
  proper name hname := h.proper name (hsub.subset hname)
  distinct := (hsub.map components).nodup h.distinct
  leaves name hname hleaf other hother := h.leaves name (hsub.subset hname) hleaf other (hsub.subset hother)

end PlainNames

end Burst
