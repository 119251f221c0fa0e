import Burst.ObligingSystem
import Burst.Lib.Interleaving
import Burst.Lib.PositionedWrites

namespace Burst

open Tiling LittleEndian Incremental Interleaving PositionedWrites

/-- What there is at a path. -/
inductive Node where
  | file (content : List UInt8)
  | symlink (target : List UInt8)
  deriving DecidableEq, Repr

/-- What a system call does to the content of the file at a path. -/
def FileOp.edit? (path : Path) : FileOp → Option (Edit UInt8)
  | pwrite p data offset => if p = path then some (.write offset data) else none
  | ftruncate p size => if p = path then some (.resize size) else none
  | _ => none

def Node.edit (e : Edit UInt8) : Node → Node
  | file content => file (e.apply 0 content)
  | symlink target => symlink target

/-- What a system call that succeeds and has this very path makes of what the path stands for; `none` when
there is nothing. Which place a path leads to, and which paths lead to one place, is the matter of the tree. -/
def FileOp.node (path : Path) (n : Option Node) : FileOp → Option Node
  | openFile p => if p = path then some (n.getD (.file [])) else n
  | pwrite p data offset => if p = path then n.map (Node.edit (.write offset data)) else n
  | ftruncate p size => if p = path then n.map (Node.edit (.resize size)) else n
  | unlink p => if p = path then none else n
  | symlink target p => if p = path then some (.symlink target) else n
  | _ => n

/-- What the system calls that have this very path make of what it stands for. -/
def nodeAfter (path : Path) (n : Option Node) (ops : List FileOp) : Option Node :=
  ops.foldl (FileOp.node path) n

/-- The system call replaces what there is at a path. -/
def FileOp.Replaces (path : Path) (op : FileOp) : Prop :=
  op = .unlink path ∨ ∃ target, op = .symlink target path

theorem FileOp.node_keeps {path : Path} {op : FileOp} (hopen : op ≠ .openFile path)
    (hedit : op.edit? path = none) (hreplaces : ¬ op.Replaces path) (n : Option Node) :
    op.node path n = n := by
  have hpath {p : Path} {op : FileOp} (hne : op ≠ .openFile path) (hop : op = .openFile p) : p ≠ path := by
    rintro rfl
    exact hne hop
  cases op with
  | openFile p => exact if_neg (hpath hopen rfl)
  | pwrite p data offset =>
    refine if_neg fun heq ↦ ?_
    rw [edit?, if_pos heq] at hedit
    cases hedit
  | ftruncate p size =>
    refine if_neg fun heq ↦ ?_
    rw [edit?, if_pos heq] at hedit
    cases hedit
  | unlink p => exact if_neg fun heq ↦ hreplaces (.inl (by rw [heq]))
  | symlink target p => exact if_neg fun heq ↦ hreplaces (.inr ⟨target, by rw [heq]⟩)
  | _ => rfl

theorem FileOp.node_edit {path : Path} {op : FileOp} {e : Edit UInt8} (hedit : op.edit? path = some e)
    (n : Option Node) : op.node path n = n.map (Node.edit e) := by
  cases op with
  | pwrite p data offset =>
    rw [edit?] at hedit
    split at hedit
    · next heq =>
      obtain rfl := Option.some.inj hedit
      exact if_pos heq
    · cases hedit
  | ftruncate p size =>
    rw [edit?] at hedit
    split at hedit
    · next heq =>
      obtain rfl := Option.some.inj hedit
      exact if_pos heq
    · cases hedit
  | _ => cases hedit

/-- The content that a file is taken to have before it is opened. -/
def Node.contentOf : Option Node → List UInt8
  | some (.file content) => content
  | _ => []

/-- A file that is opened before it is edited has in the end what the edits make of it. -/
theorem nodeAfter_opened {path : Path} {ops : List FileOp} (hreplaces : ∀ op ∈ ops, ¬ op.Replaces path)
    (hopened : Precedes ops (fun op ↦ (op.edit? path).isSome) (· = .openFile path)) {n : Option Node}
    (hn : ∀ target, n ≠ some (.symlink target)) (hmem : .openFile path ∈ ops) :
    nodeAfter path n ops =
      some (.file ((ops.filterMap (FileOp.edit? path)).foldl (Edit.apply 0) (Node.contentOf n))) := by
  have hnone (ops : List FileOp)
      (hopened : Precedes ops (fun op ↦ (op.edit? path).isSome) (· = .openFile path))
      (hmem : .openFile path ∉ ops) : ops.filterMap (FileOp.edit? path) = [] := by
    rw [List.filterMap_eq_nil_iff]
    intro op hop
    by_contra hsome
    obtain ⟨before, after, hsplit⟩ := List.append_of_mem hop
    obtain ⟨o, ho, rfl⟩ := hopened before op after hsplit (Option.isSome_iff_ne_none.mpr hsome)
    exact hmem (hsplit ▸ List.mem_append_left _ ho)
  have hunopened (ops : List FileOp) (hreplaces : ∀ op ∈ ops, ¬ op.Replaces path)
      (hopened : Precedes ops (fun op ↦ (op.edit? path).isSome) (· = .openFile path))
      (hmem : .openFile path ∉ ops) : nodeAfter path n ops = n := by
    have hedits := List.filterMap_eq_nil_iff.mp (hnone ops hopened hmem)
    refine List.foldlRecOn ops (FileOp.node path) (motive := fun m ↦ m = n) rfl ?_
    intro m hm op hop
    rw [hm]
    exact FileOp.node_keeps (fun heq ↦ hmem (heq ▸ hop)) (hedits op hop) (hreplaces op hop) n
  induction ops using List.reverseRecOn with
  | nil => cases hmem
  | append_singleton ops op ih =>
    have hlast : op ∈ ops ++ [op] := List.mem_append_right _ (List.mem_singleton.mpr rfl)
    have hearlier : ∀ o ∈ ops, ¬ o.Replaces path := fun o ho ↦ hreplaces o (List.mem_append_left _ ho)
    have hafter : nodeAfter path n (ops ++ [op]) = op.node path (nodeAfter path n ops) := by
      rw [nodeAfter, List.foldl_append]
      rfl
    rw [hafter, List.filterMap_append, List.foldl_append]
    by_cases hbefore : .openFile path ∈ ops
    · rw [ih hearlier hopened.of_append hbefore]
      cases hedit : op.edit? path with
      | some e =>
        rw [FileOp.node_edit hedit, List.filterMap_cons, hedit]
        rfl
      | none =>
        rw [List.filterMap_cons, hedit]
        by_cases hopen : op = .openFile path
        · rw [hopen, FileOp.node, if_pos rfl]
          rfl
        · exact FileOp.node_keeps hopen hedit (hreplaces op hlast) _
    · -- it is opened for the first time
      have hopen : op = .openFile path := by
        rcases List.mem_append.mp hmem with hin | heq
        · exact (hbefore hin).elim
        · exact (List.mem_singleton.mp heq).symm
      rw [hunopened ops hearlier hopened.of_append hbefore, hnone ops hopened.of_append hbefore, hopen,
        FileOp.node, if_pos rfl]
      cases n with
      | none => rfl
      | some n =>
        cases n with
        | file content => rfl
        | symlink target => exact (hn target rfl).elim

/-- A symlink stays when nothing else is made at its path, and it is made anew whenever it has been
removed. -/
theorem nodeAfter_linked {path target : Path} {ops : List FileOp}
    (hlinks : ∀ t, .symlink t path ∈ ops → t = target) (hopen : .openFile path ∉ ops)
    (hedit : ∀ op ∈ ops, op.edit? path = none)
    (hremade : Succeeds ops (· = .unlink path) fun op ↦ ∃ t, op = .symlink t path)
    (hmade : .symlink target path ∈ ops) (n : Option Node) :
    nodeAfter path n ops = some (.symlink target) := by
  refine @Succeeds.foldl _ _ (FileOp.node path) ops _ _ (· = some (.symlink target)) hremade ?_ ?_
    ⟨_, hmade, target, rfl⟩ n
  · rintro op hop ⟨t, rfl⟩ m
    obtain rfl := hlinks t hop
    exact if_pos rfl
  · intro op hop hunlink m hm
    rw [hm]
    by_cases hlink : ∃ t, op = .symlink t path
    · obtain ⟨t, rfl⟩ := hlink
      obtain rfl := hlinks t hop
      exact if_pos rfl
    · refine FileOp.node_keeps (fun heq ↦ hopen (heq ▸ hop)) (hedit op hop) ?_ _
      rintro (heq | heq)
      · exact hunlink heq
      · exact hlink heq

end Burst
