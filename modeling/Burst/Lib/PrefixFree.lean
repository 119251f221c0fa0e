import Mathlib.Data.List.Basic
import Mathlib.Tactic.Common

variable {α : Type*}

/-- No word of a code continues another one, so that a text splits into words in one way only. -/
def PrefixFree (P : List α → Prop) : Prop :=
  ∀ ⦃w w' x x' : List α⦄, P w → P w' → w ++ x = w' ++ x' → w = w'

namespace PrefixFree

variable {P : List α → Prop}

/-- A code is prefix-free when a word tells its length to whoever reads on from its start. -/
theorem of_length (size : List α → ℕ) (h : ∀ w x, P w → size (w ++ x) = w.length) :
    PrefixFree P := by
  intro w w' x x' hw hw' heq
  have hlen : w.length = w'.length := by
    rw [← h w x hw, ← h w' x' hw', heq]
  exact List.append_inj_left heq hlen

/-- As many words at the start of the same text are the same words. -/
theorem split_unique (hP : PrefixFree P) {ws ws' : List (List α)} {x x' : List α}
    (hws : ∀ w ∈ ws, P w) (hws' : ∀ w ∈ ws', P w) (hlen : ws.length = ws'.length)
    (heq : ws.flatten ++ x = ws'.flatten ++ x') : ws = ws' ∧ x = x' := by
  induction ws generalizing ws' with
  | nil =>
    obtain rfl := List.length_eq_zero_iff.mp hlen.symm
    exact ⟨rfl, heq⟩
  | cons w ws ih =>
    cases ws' with
    | nil => cases hlen
    | cons w' ws' =>
      rw [List.flatten_cons, List.flatten_cons, List.append_assoc, List.append_assoc] at heq
      obtain rfl := hP (hws w List.mem_cons_self) (hws' w' List.mem_cons_self) heq
      obtain ⟨rfl, rfl⟩ := ih (fun v hv ↦ hws v (List.mem_cons_of_mem w hv))
        (fun v hv ↦ hws' v (List.mem_cons_of_mem w hv)) (Nat.succ.inj hlen)
        (List.append_cancel_left heq)
      exact ⟨rfl, rfl⟩

end PrefixFree
