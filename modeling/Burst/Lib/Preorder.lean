import Mathlib.Data.List.Basic
import Mathlib.Data.List.Nodup
import Mathlib.Tactic.Common

namespace Preorder

/-- A structure of places: the names at a place, which of them are listed and which lead on. -/
structure Places (σ ν : Type) where
  children : σ → List ν
  listed : σ → ν → Bool
  descend : σ → ν → Option σ

variable {σ ν : Type} (t : Places σ ν)

/-- One child in the listing: its own path, and behind it what is listed below. -/
def branch (below : σ → List (List ν)) (s : σ) (c : ν) : List (List ν) :=
  (if t.listed s c then [[c]] else []) ++ ((t.descend s c).elim [] below).map (c :: ·)

/-- Every path below a place in pre-order, down to a depth. -/
def preorder : ℕ → σ → List (List ν)
  | 0, _ => []
  | n + 1, s => (t.children s).flatMap (branch t (preorder n) s)

/-- A finite tree: no place has two children of one name, and the height is less than `n`. -/
def IsTree : ℕ → σ → Prop
  | 0, _ => False
  | n + 1, s => (t.children s).Nodup ∧ ∀ c ∈ t.children s, ∀ s', t.descend s c = some s' → IsTree n s'

/-- A path leads from a place to a listed one. -/
def IsBelow : σ → List ν → Prop
  | _, [] => False
  | s, c :: rest => c ∈ t.children s ∧
      (rest = [] ∧ t.listed s c ∨ ∃ s', t.descend s c = some s' ∧ IsBelow s' rest)

variable {t} {n : ℕ} {s : σ} {path : List ν}

theorem mem_branch {below : σ → List (List ν)} {c : ν} :
    path ∈ branch t below s c ↔ ∃ rest, path = c :: rest ∧ (rest = [] ∧ t.listed s c ∨
      ∃ s', t.descend s c = some s' ∧ rest ∈ below s') := by
  rw [branch, List.mem_append, List.mem_map]
  constructor
  · rintro (h | ⟨rest, hrest, rfl⟩)
    · split at h
      · next hlisted =>
        exact ⟨[], List.mem_singleton.mp h, .inl ⟨rfl, hlisted⟩⟩
      · cases h
    · cases hd : t.descend s c with
      | none =>
        rw [hd] at hrest
        cases hrest
      | some s' =>
        rw [hd] at hrest
        exact ⟨rest, rfl, .inr ⟨s', rfl, hrest⟩⟩
  · rintro ⟨rest, rfl, ⟨rfl, hlisted⟩ | ⟨s', hd, hrest⟩⟩
    · left
      rw [if_pos hlisted]
      exact List.mem_singleton_self _
    · right
      rw [hd]
      exact ⟨rest, hrest, rfl⟩

theorem preorder_ne_nil (h : path ∈ preorder t n s) : path ≠ [] := by
  cases n with
  | zero => cases h
  | succ n =>
    rw [preorder, List.mem_flatMap] at h
    obtain ⟨c, -, h⟩ := h
    obtain ⟨rest, rfl, -⟩ := mem_branch.mp h
    exact List.cons_ne_nil c rest

/-- The listing is complete and lists nothing else. -/
theorem mem_preorder (h : IsTree t n s) : path ∈ preorder t n s ↔ IsBelow t s path := by
  induction n generalizing s path with
  | zero => cases h
  | succ n ih =>
    obtain ⟨-, hdescend⟩ := h
    rw [preorder, List.mem_flatMap]
    constructor
    · rintro ⟨c, hc, hmem⟩
      obtain ⟨rest, rfl, hleaf | ⟨s', hd, hrest⟩⟩ := mem_branch.mp hmem
      · exact ⟨hc, .inl hleaf⟩
      · exact ⟨hc, .inr ⟨s', hd, (ih (hdescend c hc s' hd)).mp hrest⟩⟩
    · intro hbelow
      cases path with
      | nil => cases hbelow
      | cons c rest =>
        obtain ⟨hc, hleaf | ⟨s', hd, hrest⟩⟩ := hbelow
        · exact ⟨c, hc, mem_branch.mpr ⟨rest, rfl, .inl hleaf⟩⟩
        · exact ⟨c, hc, mem_branch.mpr
            ⟨rest, rfl, .inr ⟨s', hd, (ih (hdescend c hc s' hd)).mpr hrest⟩⟩⟩

theorem branch_ancestors {below : σ → List (List ν)} {c : ν}
    (hbelow : ∀ s', t.descend s c = some s' →
      [] ∉ below s' ∧ (below s').Pairwise fun a b ↦ ¬ b <+: a) :
    (branch t below s c).Pairwise fun a b ↦ ¬ b <+: a := by
  rw [branch, List.pairwise_append]
  cases hd : t.descend s c with
  | none =>
    refine ⟨?_, List.Pairwise.nil, fun a _ b hb ↦ by cases hb⟩
    split
    · exact List.pairwise_singleton _ _
    · exact List.Pairwise.nil
  | some s' =>
    obtain ⟨hnil, hpairs⟩ := hbelow s' hd
    refine ⟨?_, ?_, ?_⟩
    · split
      · exact List.pairwise_singleton _ _
      · exact List.Pairwise.nil
    · rw [Option.elim_some, List.pairwise_map]
      exact hpairs.imp fun hab hba ↦ hab (List.cons_prefix_cons.mp hba).2
    · intro a ha b hb hba
      obtain ⟨rest, hrest, rfl⟩ := List.mem_map.mp hb
      split at ha
      · obtain rfl := List.mem_singleton.mp ha
        obtain rfl := List.prefix_nil.mp (List.cons_prefix_cons.mp hba).2
        exact hnil hrest
      · cases ha

/-- No path comes after one that goes on from it. -/
theorem preorder_ancestors (h : IsTree t n s) :
    (preorder t n s).Pairwise fun a b ↦ ¬ b <+: a := by
  induction n generalizing s with
  | zero => cases h
  | succ n ih =>
    obtain ⟨hnodup, hdescend⟩ := h
    rw [preorder, List.pairwise_flatMap]
    constructor
    · intro c hc
      refine branch_ancestors fun s' hd ↦ ⟨?_, ih (hdescend c hc s' hd)⟩
      intro hnil
      exact preorder_ne_nil hnil rfl
    · refine hnodup.imp fun hne ↦ ?_
      intro a ha b hb hba
      obtain ⟨rest, rfl, -⟩ := mem_branch.mp ha
      obtain ⟨rest', rfl, -⟩ := mem_branch.mp hb
      exact hne (List.cons_prefix_cons.mp hba).1.symm

theorem preorder_nodup (h : IsTree t n s) : (preorder t n s).Nodup := by
  refine (preorder_ancestors h).imp fun hab heq ↦ ?_
  subst heq
  exact hab List.prefix_rfl

/-- A path stands before every path that goes on from it. -/
theorem preorder_lt (h : IsTree t n s) {i j : ℕ} {a b : List ν} (hi : (preorder t n s)[i]? = some a)
    (hj : (preorder t n s)[j]? = some b) (hab : a <+: b) (hne : a ≠ b) : i < j := by
  obtain ⟨hilt, rfl⟩ := List.getElem?_eq_some_iff.mp hi
  obtain ⟨hjlt, rfl⟩ := List.getElem?_eq_some_iff.mp hj
  rcases Nat.lt_trichotomy i j with hlt | heq | hgt
  · exact hlt
  · subst heq
    exact (hne rfl).elim
  · exact (List.pairwise_iff_getElem.mp (preorder_ancestors h) j i hjlt hilt hgt hab).elim

theorem IsTree.succ (h : IsTree t n s) : IsTree t (n + 1) s := by
  induction n generalizing s with
  | zero => cases h
  | succ n ih => exact ⟨h.1, fun c hc s' hd ↦ ih (h.2 c hc s' hd)⟩

end Preorder
