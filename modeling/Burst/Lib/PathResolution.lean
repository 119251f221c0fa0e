import Mathlib.Data.List.Basic
import Mathlib.Tactic.Common

/-! Paths that are resolved over symbolic links. -/

namespace PathResolution

variable {κ : Type*}

/-- A component of a path: the parent directory or a name. -/
inductive Component (κ : Type*) where
  | up
  | name (n : κ)
  deriving DecidableEq, Repr

def Component.name? : Component κ → Option κ
  | up => none
  | name n => some n

/-- Without the parent directory a path consists of names. -/
theorem map_name_filterMap {components : List (Component κ)} (h : .up ∉ components) :
    (components.filterMap Component.name?).map .name = components := by
  induction components with
  | nil => rfl
  | cons c components ih =>
    cases c with
    | up => exact (h List.mem_cons_self).elim
    | name n => exact congrArg _ (ih fun hmem ↦ h (List.mem_cons_of_mem _ hmem))

/-- What a symlink points to: from the root or from the directory it is in. -/
structure Target (κ : Type*) where
  absolute : Bool
  components : List (Component κ)
  deriving DecidableEq, Repr

/-- The targets of the symlinks by the places where they are. -/
abbrev Links (κ : Type*) := List κ → Option (Target κ)

/-- What a path from a directory leads to where the parent of a directory is taken only if `Up` allows it
and a symlink is followed only if `Follow` does. -/
inductive Resolves (links : Links κ) (Up : List κ → Prop) (Follow : Target κ → Prop) :
    List κ → List (Component κ) → List κ → Prop where
  | done {dir} : Resolves links Up Follow dir [] dir
  | up {dir rest place} : Up dir → Resolves links Up Follow dir.dropLast rest place →
      Resolves links Up Follow dir (.up :: rest) place
  | name {dir n rest place} : links (dir ++ [n]) = none →
      Resolves links Up Follow (dir ++ [n]) rest place →
      Resolves links Up Follow dir (.name n :: rest) place
  | link {dir n target rest place} : links (dir ++ [n]) = some target → Follow target →
      Resolves links Up Follow (if target.absolute then [] else dir) (target.components ++ rest) place →
      Resolves links Up Follow dir (.name n :: rest) place

/-- What a system call may mean by a path: what it leads to or, when its last component is not followed,
the entry of that name. -/
inductive Denotes (links : Links κ) (Up : List κ → Prop) (Follow : Target κ → Prop) :
    List κ → List (Component κ) → List κ → Prop where
  | followed {dir components place} : Resolves links Up Follow dir components place →
      Denotes links Up Follow dir components place
  | entry {dir components place n} : Resolves links Up Follow dir components place →
      Denotes links Up Follow dir (components ++ [.name n]) (place ++ [n])

variable {links : Links κ} {Up : List κ → Prop} {Follow : Target κ → Prop} {base dir place : List κ}
  {components : List (Component κ)}

section Names

variable {names : List κ}

/-- Where no symlink is on the way, names lead to the place of these names. -/
theorem Resolves.of_noLink (h : ∀ on, on ≠ [] → on <+: names → links (dir ++ on) = none) :
    Resolves links Up Follow dir (names.map .name) (dir ++ names) := by
  induction names generalizing dir with
  | nil =>
    rw [List.append_nil]
    exact .done
  | cons n names ih =>
    have hfirst : links (dir ++ [n]) = none := h [n] (by simp) (by simp)
    have hrest := @ih (dir ++ [n]) fun on hne hon ↦ by
      rw [List.append_assoc]
      exact h _ (by simp) (List.cons_prefix_cons.mpr ⟨rfl, hon⟩)
    rw [List.append_assoc] at hrest
    exact .name hfirst hrest

theorem Resolves.eq_of_noLink (hnone : ∀ on, on ≠ [] → on <+: names → links (dir ++ on) = none)
    (h : Resolves links Up Follow dir (names.map .name) place) : place = dir ++ names := by
  induction names generalizing dir with
  | nil =>
    cases h
    rw [List.append_nil]
  | cons n names ih =>
    have hfirst : links (dir ++ [n]) = none := hnone [n] (by simp) (by simp)
    cases h with
    | name _ hrest =>
      have hplace := ih (fun on hne hon ↦ by
        rw [List.append_assoc]
        exact hnone _ (by simp) (List.cons_prefix_cons.mpr ⟨rfl, hon⟩)) hrest
      rw [hplace, List.append_assoc]
      rfl
    | link hlink =>
      rw [hfirst] at hlink
      cases hlink

end Names

/-- A directory is left only by its parent and by symlinks that point away from the root. -/
theorem Resolves.inside (hup : ∀ dir, Up dir → dir ≠ base)
    (hfollow : ∀ target, Follow target → target.absolute = false)
    (h : Resolves links Up Follow dir components place) (hdir : base <+: dir) : base <+: place := by
  induction h with
  | done => exact hdir
  | up hallowed _ ih =>
    apply ih
    obtain ⟨below, rfl⟩ := hdir
    have hbelow : below ≠ [] := by
      rintro rfl
      exact hup _ hallowed (List.append_nil base)
    rw [List.dropLast_append_of_ne_nil hbelow]
    exact List.prefix_append _ _
  | name _ _ ih => exact ih (hdir.trans (List.prefix_append _ _))
  | link _ hallowed _ ih =>
    apply ih
    rw [if_neg (by rw [hfollow _ hallowed]; decide)]
    exact hdir

theorem Denotes.inside (hup : ∀ dir, Up dir → dir ≠ base)
    (hfollow : ∀ target, Follow target → target.absolute = false)
    (h : Denotes links Up Follow dir components place) (hdir : base <+: dir) : base <+: place := by
  cases h with
  | followed h => exact h.inside hup hfollow hdir
  | entry h => exact (h.inside hup hfollow hdir).trans (List.prefix_append _ _)

/-- The symlink points to something below the directory that it is in. -/
def Target.Descends (target : Target κ) : Prop :=
  target.absolute = false ∧ .up ∉ target.components

/-- Where no component is the parent and all symlinks descend no parent is ever taken. -/
theorem Resolves.descends (hlinks : ∀ dir target, links dir = some target → target.Descends)
    (hcomponents : .up ∉ components) (h : Resolves links Up Follow dir components place) :
    Resolves links (fun _ ↦ False) (fun target ↦ target.absolute = false) dir components place := by
  induction h with
  | done => exact .done
  | up => exact (hcomponents List.mem_cons_self).elim
  | name hnone _ ih => exact .name hnone (ih fun hmem ↦ hcomponents (List.mem_cons_of_mem _ hmem))
  | link hsome _ _ ih =>
    obtain ⟨hrelative, hdown⟩ := hlinks _ _ hsome
    refine .link hsome hrelative (ih fun hmem ↦ ?_)
    rcases List.mem_append.mp hmem with htarget | hrest
    · exact hdown htarget
    · exact hcomponents (List.mem_cons_of_mem _ hrest)

theorem Denotes.descends (hlinks : ∀ dir target, links dir = some target → target.Descends)
    (hcomponents : .up ∉ components) (h : Denotes links Up Follow dir components place) :
    Denotes links (fun _ ↦ False) (fun target ↦ target.absolute = false) dir components place := by
  cases h with
  | followed h => exact .followed (h.descends hlinks hcomponents)
  | entry h =>
    exact .entry (h.descends hlinks fun hmem ↦ hcomponents (List.mem_append_left _ hmem))

end PathResolution
