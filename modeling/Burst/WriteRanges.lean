import Burst.RoundTrip
import Mathlib.Data.Prod.Lex

namespace Burst

open Tiling

/-- The entry that a reader has got to, and how much of it has been read. -/
def ReadPos.reached : ReadPos → ℕ ×ₗ ℕ
  | header i => toLex (i, 0)
  | data i offset => toLex (i, offset)
  | target i => toLex (i, 0)

/-- What is written is content of files, between two places in the entries. -/
def WritesWithin (path : ℕ → Path) (entries : List (AddCall × FileEntry)) (lo hi : ℕ ×ₗ ℕ)
    (ops : List FileOp) : Prop :=
  ∀ written data offset, .pwrite written data offset ∈ ops → ∃ i call e, entries[i]? = some (call, e) ∧
    written = path i ∧ call.node? = some (.file call.content) ∧ data <+: call.content.drop offset ∧
    lo ≤ toLex (i, offset) ∧ toLex (i, offset + data.length) ≤ hi

section

variable {env : WriterEnv} {level : ℤ} {path : ℕ → Path} {entries : List (AddCall × FileEntry)} {pos : ℕ}
  {s s' : ReadPos} {is : List Item} {out out' : List FileOp} {lo hi : ℕ ×ₗ ℕ}

theorem WritesWithin.mono {lo' hi' : ℕ ×ₗ ℕ} (h : WritesWithin path entries lo hi out) (hlo : lo' ≤ lo)
    (hhi : hi ≤ hi') : WritesWithin path entries lo' hi' out := by
  intro written data offset hmem
  obtain ⟨i, call, e, hentry, hpath, hnode, hdata, hfrom, hto⟩ := h written data offset hmem
  exact ⟨i, call, e, hentry, hpath, hnode, hdata, hlo.trans hfrom, hto.trans hhi⟩

theorem WritesWithin.append (h : WritesWithin path entries lo hi out) (h' : WritesWithin path entries lo hi out') :
    WritesWithin path entries lo hi (out ++ out') := by
  intro written data offset hmem
  rcases List.mem_append.mp hmem with hmem | hmem
  · exact h written data offset hmem
  · exact h' written data offset hmem

theorem writesWithin_of_none (h : ∀ written data offset, .pwrite written data offset ∉ out) :
    WritesWithin path entries lo hi out :=
  fun written data offset hmem ↦ (h written data offset hmem).elim

theorem toLex_le_of_le (i : ℕ) {a b : ℕ} (h : a ≤ b) : toLex (i, a) ≤ toLex (i, b) :=
  Prod.Lex.toLex_le_toLex.mpr (.inr ⟨rfl, h⟩)

theorem toLex_le_succ (i a b : ℕ) : toLex (i, a) ≤ toLex (i + 1, b) :=
  Prod.Lex.toLex_le_toLex.mpr (.inl (Nat.lt_succ_self i))

/-- A step of the reader's leads forward, and writes what lies between. -/
theorem ReadStep.advances {item : Item} (h : ReadStep env level path entries pos s item out s') :
    s.reached ≤ s'.reached ∧ WritesWithin path entries s.reached s'.reached out := by
  cases h with
  | padding => exact ⟨le_rfl, writesWithin_of_none (by simp)⟩
  | @header i call e hentry hpos =>
    cases call with
    | file input lfh unixMode uid gid =>
      rw [AddCall.opened]
      split
      · exact ⟨toLex_le_succ i 0 0, writesWithin_of_none (by simp)⟩
      · exact ⟨le_rfl, writesWithin_of_none (by simp)⟩
    | symlink => exact ⟨le_rfl, writesWithin_of_none (by simp [AddCall.opened])⟩
    | directory => exact ⟨toLex_le_succ i 0 0, writesWithin_of_none (by simp [AddCall.opened])⟩
  | @data i offset _ _ _ _ _ _ _ _ hentry hdata hfits =>
    cases hdata with
    | frame hframe hlen =>
      refine ⟨toLex_le_of_le i (Nat.le_add_right _ _), fun written data o hmem ↦ ?_⟩
      obtain ⟨rfl, rfl, rfl⟩ := FileOp.pwrite.inj (List.mem_singleton.mp hmem)
      exact ⟨i, _, _, hentry, rfl, rfl, hfits _ _ _ rfl, le_rfl, le_rfl⟩
    | padding => exact ⟨le_rfl, writesWithin_of_none (by simp [Item.writes])⟩
    | startOfPart => exact ⟨le_rfl, writesWithin_of_none (by simp [Item.writes])⟩
  | @descriptor i => exact ⟨toLex_le_succ i _ 0, writesWithin_of_none (by simp)⟩
  | @target i => exact ⟨toLex_le_succ i 0 0, writesWithin_of_none (by simp)⟩

theorem Reads.advances (h : Reads env level path entries pos s is out s') :
    s.reached ≤ s'.reached ∧ WritesWithin path entries s.reached s'.reached out := by
  induction h with
  | nil => exact ⟨le_rfl, writesWithin_of_none (by simp)⟩
  | cons hstep _ ih =>
    obtain ⟨hfirst, hwrites⟩ := hstep.advances
    obtain ⟨hrest, hlater⟩ := ih
    exact ⟨hfirst.trans hrest, (hwrites.mono le_rfl hrest).append (hlater.mono hfirst le_rfl)⟩

/-- What a part opens and closes besides what it reads writes nothing. -/
theorem Reads.part_advances (h : Reads env level path entries pos s is out s') :
    WritesWithin path entries s.reached s'.reached (s.opening path ++ (out ++ s'.closing path entries)) := by
  have hopening : WritesWithin path entries s.reached s'.reached (s.opening path) := by
    apply writesWithin_of_none
    cases s with
    | header => simp [ReadPos.opening]
    | data => simp [ReadPos.opening]
    | target => simp [ReadPos.opening]
  have hclosing : WritesWithin path entries s.reached s'.reached (s'.closing path entries) := by
    apply writesWithin_of_none
    cases s' with
    | header => simp [ReadPos.closing]
    | data => simp [ReadPos.closing]
    | target => simp [ReadPos.closing]
  exact hopening.append (h.advances.2.append hclosing)

end

end Burst
