import Burst.ExtractedTree
import Burst.FileOrigins
import Burst.PlainNames

namespace Burst

open PathResolution PositionedWrites

/-- What `stat` returns of a file, with the permission bits only. -/
structure FileStatus where
  mode : ℕ
  uid : ℕ
  gid : ℕ
  deriving DecidableEq, Repr

/-- The permission bits after the owner of a file that is no directory has been changed: the setuid bit is
cleared, and the setgid bit if the group may execute the file. -/
def clearSetIds (mode : ℕ) : ℕ := if mode.testBit 3 then mode % 0o2000 else mode % 0o4000

/-- The owner, or group, that stands for no change. -/
def sameId : ℕ := 2 ^ 32 - 1

def FileStatus.changeOwner (s : FileStatus) (uid gid : ℕ) : FileStatus where
  mode := clearSetIds s.mode
  uid := if uid = sameId then s.uid else uid
  gid := if gid = sameId then s.gid else gid

/-- A file or a symlink. -/
structure Inode where
  node : Node
  status : FileStatus
  deriving DecidableEq, Repr

def Inode.edit (e : Edit UInt8) (i : Inode) : Inode := { i with node := i.node.edit e }

def Inode.setMode (mode : ℕ) (i : Inode) : Inode := { i with status := { i.status with mode := mode } }

def Inode.changeOwner (uid gid : ℕ) (i : Inode) : Inode := { i with status := i.status.changeOwner uid gid }

/-- What a system call that succeeds makes of the file or symlink that it acts on; `fresh` is the status of
a new one. -/
def FileOp.act (fresh : FileStatus) (i : Option Inode) : FileOp → Option Inode
  | openFile _ => some (i.getD ⟨.file [], fresh⟩)
  | pwrite _ data offset => i.map (Inode.edit (.write offset data))
  | ftruncate _ size => i.map (Inode.edit (.resize size))
  | chmod _ mode => i.map (Inode.setMode mode)
  | fchmod _ mode => i.map (Inode.setMode mode)
  | chown _ uid gid => i.map (Inode.changeOwner uid gid)
  | fchown _ uid gid => i.map (Inode.changeOwner uid gid)
  | lchown _ uid gid => i.map (Inode.changeOwner uid gid)
  | unlink _ => none
  | symlink target _ => some ⟨.symlink target, fresh⟩
  | _ => i

/-- The path of a system call that acts on what the path leads to. A descriptor stands for the path it was
opened under. -/
def FileOp.follows? : FileOp → Option Path
  | openFile path => some path
  | pwrite path _ _ => some path
  | ftruncate path _ => some path
  | chmod path _ => some path
  | fchmod path _ => some path
  | chown path _ _ => some path
  | fchown path _ _ => some path
  | _ => none

/-- The path of a system call that acts on the entry of a directory and does not follow a symlink there. -/
def FileOp.names? : FileOp → Option Path
  | unlink path => some path
  | symlink _ path => some path
  | lchown path _ _ => some path
  | _ => none

/-- The files and symlinks there are, by the places where they are. No file is at two places (there are no hard
links). -/
abbrev FileTree := List Path → Option Inode

def FileTree.links (t : FileTree) : Links Path := fun place ↦
  match t place with
  | some ⟨.symlink target, _⟩ => some (linkTarget target)
  | _ => none

/-- The tree after a system call at a place. -/
def FileTree.act (t : FileTree) (fresh : FileStatus) (op : FileOp) (place : List Path) : FileTree :=
  Function.update t place (op.act fresh (t place))

/-- What a system call does to the tree: it acts on the place to which its path leads from the output
directory, which is at `base`. Directories are not in the tree, and of an encoded write it is the write it
comes to that acts. -/
inductive FileTree.Acts (outputDir : Path) (base : List Path) (fresh : FileStatus) (t : FileTree) :
    FileOp → FileTree → Prop where
  | idle {op} : op.follows? = none → op.names? = none → Acts outputDir base fresh t op t
  | follows {op rest place} : op.follows? = some (outputDir ++ slash :: rest) →
      Resolves t.links (fun _ ↦ True) (fun _ ↦ True) base (components rest) place →
      Acts outputDir base fresh t op (t.act fresh op place)
  | names {op rest parents name dir} : op.names? = some (outputDir ++ slash :: rest) →
      components rest = parents ++ [.name name] →
      Resolves t.links (fun _ ↦ True) (fun _ ↦ True) base parents dir →
      Acts outputDir base fresh t op (t.act fresh op (dir ++ [name]))

/-- The trees that there may be after system calls. -/
inductive TreeAfter (outputDir : Path) (base : List Path) (fresh : FileStatus) (before : FileTree) :
    List FileOp → FileTree → Prop where
  | start : TreeAfter outputDir base fresh before [] before
  | call {ops op t t'} : TreeAfter outputDir base fresh before ops t →
      t.Acts outputDir base fresh op t' → TreeAfter outputDir base fresh before (ops ++ [op]) t'

/-- No path from a place on leads through a symlink. -/
def FileTree.NoLinkBelow (t : FileTree) (base : List Path) : Prop :=
  ∀ place, base <+: place → t.links place = none

theorem FileTree.links_none {t : FileTree} {place : List Path} (h : t place = none) : t.links place = none := by
  rw [links, h]

theorem FileTree.links_some {t : FileTree} {place : List Path} {target : Target Path} :
    t.links place = some target ↔ ∃ text, (t place).map Inode.node = some (.symlink text) ∧
      target = linkTarget text := by
  rw [links]
  split
  · next text status hplace =>
    rw [hplace]
    constructor
    · intro h
      exact ⟨text, rfl, (Option.some.inj h).symm⟩
    · rintro ⟨text', htext, rfl⟩
      obtain rfl := Node.symlink.inj (Option.some.inj htext)
      rfl
  · next hother =>
    constructor
    · intro h
      cases h
    · rintro ⟨text, htext, -⟩
      obtain ⟨⟨node, status⟩, hplace, hnode⟩ := Option.map_eq_some_iff.mp htext
      obtain rfl : node = .symlink text := hnode
      exact (hother text status hplace).elim

/-- The system call is made for something that the archive lists. -/
def Extraction.Stems (x : Extraction) (op : FileOp) : Prop :=
  ∃ os, op.StemsFrom { x.env 0 with os := os } x.cdResult.files

theorem FileOp.StemsFrom.stems {x : Extraction} {p : ℕ} {os : Os} {op : FileOp}
    (h : op.StemsFrom { x.env p with os := os } x.cdResult.files) : x.Stems op := by
  refine ⟨os, ?_⟩
  cases op <;> exact h

/-- A system call acts on nothing, on what the path of an entry leads to that is no symlink, or on the
symlink of an entry. -/
theorem FileOp.StemsFrom.acts {env : ProcessorEnv} {opened : List FileMetadata} {op : FileOp}
    (h : op.StemsFrom env opened) :
    (op.follows? = none ∧ op.names? = none) ∨
    (∃ e ∈ opened, ¬ e.IsLink ∧ op.follows? = some (env.filePath e) ∧ op.names? = none) ∨
    ∃ e ∈ opened, e.IsLink ∧ op.names? = some (env.filePath e) ∧ op.follows? = none := by
  have hregular {e : FileMetadata} (hkind : e.IsRegular) : ¬ e.IsLink := by
    intro hlink
    have hsame := hkind.2.symm.trans hlink.2
    cases hsame
  have hdirectory {e : FileMetadata} (hkind : e.isDirectory = true) : ¬ e.IsLink := by
    intro hlink
    have hsame := hkind.symm.trans hlink.1
    cases hsame
  cases op with
  | mkdir => exact .inl ⟨rfl, rfl⟩
  | encodedWrite => exact .inl ⟨rfl, rfl⟩
  | close => exact .inl ⟨rfl, rfl⟩
  | openFile =>
    obtain ⟨e, he, hkind, rfl⟩ := h
    exact .inr (.inl ⟨e, he, hregular hkind, rfl, rfl⟩)
  | pwrite =>
    obtain ⟨e, he, hkind, rfl⟩ := h
    exact .inr (.inl ⟨e, he, hregular hkind, rfl, rfl⟩)
  | ftruncate =>
    obtain ⟨e, he, hkind, rfl, -⟩ := h
    exact .inr (.inl ⟨e, he, hregular hkind, rfl, rfl⟩)
  | fchmod =>
    obtain ⟨e, he, hkind, rfl, -⟩ := h
    exact .inr (.inl ⟨e, he, hregular hkind, rfl, rfl⟩)
  | fchown =>
    obtain ⟨e, he, hkind, rfl, -⟩ := h
    exact .inr (.inl ⟨e, he, hregular hkind, rfl, rfl⟩)
  | chmod =>
    obtain ⟨e, he, hkind, rfl, -⟩ := h
    exact .inr (.inl ⟨e, he, hdirectory hkind, rfl, rfl⟩)
  | chown =>
    obtain ⟨e, he, hkind, rfl, -⟩ := h
    exact .inr (.inl ⟨e, he, hdirectory hkind, rfl, rfl⟩)
  | unlink =>
    obtain ⟨e, he, hlink, rfl⟩ := h
    exact .inr (.inr ⟨e, he, hlink, rfl, rfl⟩)
  | symlink =>
    obtain ⟨e, he, hlink, rfl⟩ := h
    exact .inr (.inr ⟨e, he, hlink, rfl, rfl⟩)
  | lchown =>
    obtain ⟨e, he, hlink, rfl, -⟩ := h
    exact .inr (.inr ⟨e, he, hlink, rfl, rfl⟩)

theorem Extraction.Stems.acts {x : Extraction} {op : FileOp} (h : x.Stems op) :
    (op.follows? = none ∧ op.names? = none) ∨
    (∃ e ∈ x.cdResult.files, ¬ e.IsLink ∧ op.follows? = some (x.path e) ∧ op.names? = none) ∨
    ∃ e ∈ x.cdResult.files, e.IsLink ∧ op.names? = some (x.path e) ∧ op.follows? = none := by
  obtain ⟨os, h⟩ := h
  exact h.acts

/-- The names of the entries are plain. -/
def Extraction.NamesPlain (x : Extraction) : Prop := PlainNames (x.cdResult.files.map (·.filename))

/-- The entries that are extracted to symlinks are the only symlinks there are. -/
def Extraction.LinksOnlyLinks (x : Extraction) (base : List Path) (t : FileTree) : Prop :=
  ∀ place target, base <+: place → t.links place = some target →
    ∃ e ∈ x.cdResult.files, e.IsLink ∧ place = placeOf base e.filename

section Step

variable {x : Extraction} (hplain : x.NamesPlain) {base : List Path} {fresh : FileStatus} {t t' : FileTree}
  {e : FileMetadata} (he : e ∈ x.cdResult.files)
include hplain he

theorem Extraction.NamesPlain.eq_of_placeOf {e' : FileMetadata} (he' : e' ∈ x.cdResult.files)
    (heq : placeOf base e.filename = placeOf base e'.filename) : e = e' := by
  have hname := PlainNames.eq_of_placeOf hplain (List.mem_map_of_mem he) (List.mem_map_of_mem he') heq
  exact List.inj_on_of_nodup_map hplain.nodup he he' hname

theorem Extraction.NamesPlain.eq_of_components {e' : FileMetadata} (he' : e' ∈ x.cdResult.files)
    (heq : components e.filename = components e'.filename) : e = e' := by
  have hname := PlainNames.eq_of_components hplain (List.mem_map_of_mem he) (List.mem_map_of_mem he') heq
  exact List.inj_on_of_nodup_map hplain.nodup he he' hname

theorem Extraction.NamesPlain.eq_of_path {e' : FileMetadata} (he' : e' ∈ x.cdResult.files)
    (heq : x.path e = x.path e') : e = e' := by
  rw [Extraction.path, Extraction.path, List.append_cancel_left_eq] at heq
  exact List.inj_on_of_nodup_map hplain.nodup he he' heq

/-- On the way to an entry there is no symlink, or it is the entry itself. -/
theorem Extraction.LinksOnlyLinks.onTheWay (hlinks : x.LinksOnlyLinks base t) {on : List Path}
    (hway : on <+: placeNames e.filename) (hother : e.IsLink → on ≠ placeNames e.filename) :
    t.links (base ++ on) = none := by
  cases hlink : t.links (base ++ on) with
  | none => rfl
  | some target =>
    obtain ⟨e', he', hislink, hplace⟩ := hlinks _ target (List.prefix_append _ _) hlink
    have hnames : on = placeNames e'.filename := List.append_cancel_left hplace
    have hleaf : e'.filename.getLast? ≠ some slash := of_decide_eq_false hislink.1
    have hsame := PlainNames.eq_of_onTheWay hplain (List.mem_map_of_mem he') hleaf (List.mem_map_of_mem he)
      (hnames ▸ hway)
    obtain rfl := List.inj_on_of_nodup_map hplain.nodup he' he hsame
    exact (hother hislink hnames).elim

/-- The path of an entry that is no symlink leads to its place. -/
theorem Extraction.LinksOnlyLinks.resolves_iff (hlinks : x.LinksOnlyLinks base t) (hother : ¬ e.IsLink)
    {place : List Path} :
    Resolves t.links (fun _ ↦ True) (fun _ ↦ True) base (components e.filename) place ↔
      place = placeOf base e.filename := by
  have hway : ∀ on, on ≠ [] → on <+: placeNames e.filename → t.links (base ++ on) = none :=
    fun on _ hon ↦ hlinks.onTheWay hplain he hon fun hlink ↦ (hother hlink).elim
  rw [PlainNames.components_eq hplain (List.mem_map_of_mem he)]
  constructor
  · exact Resolves.eq_of_noLink hway
  · rintro rfl
    exact Resolves.of_noLink hway

/-- The directory in which a symlink is made is that of its place. -/
theorem Extraction.LinksOnlyLinks.parent_resolves_iff (hlinks : x.LinksOnlyLinks base t)
    {parents : List Path} {name : Path} (hnames : placeNames e.filename = parents ++ [name])
    {dir : List Path} : Resolves t.links (fun _ ↦ True) (fun _ ↦ True) base (parents.map .name) dir ↔
      dir = base ++ parents := by
  have hway : ∀ on, on ≠ [] → on <+: parents → t.links (base ++ on) = none := by
    intro on _ hon
    apply hlinks.onTheWay hplain he (hnames ▸ hon.trans (List.prefix_append _ _))
    intro _ heq
    have hle := hon.length_le
    rw [heq, hnames, List.length_append, List.length_singleton] at hle
    omega
  constructor
  · exact Resolves.eq_of_noLink hway
  · rintro rfl
    exact Resolves.of_noLink hway

omit he in
/-- A system call acts on the place of the entry whose path it has. -/
theorem Extraction.LinksOnlyLinks.acts_iff (hlinks : x.LinksOnlyLinks base t) {op : FileOp} (hop : x.Stems op) :
    t.Acts x.outputDir base fresh op t' ↔ (op.follows? = none ∧ op.names? = none ∧ t' = t) ∨
      ∃ e ∈ x.cdResult.files, (op.follows? = some (x.path e) ∧ ¬ e.IsLink ∨
        op.names? = some (x.path e) ∧ e.IsLink) ∧ t' = t.act fresh op (placeOf base e.filename) := by
  have hpath (e : FileMetadata) : x.path e = x.outputDir ++ slash :: e.filename := by simp [Extraction.path]
  have hrest {e : FileMetadata} {rest : Path} (heq : x.path e = x.outputDir ++ slash :: rest) :
      rest = e.filename := by
    rw [hpath, List.append_cancel_left_eq] at heq
    exact (List.cons.inj heq).2.symm
  have hnames {e : FileMetadata} (he : e ∈ x.cdResult.files) : ∃ parents name,
      placeNames e.filename = parents ++ [name] ∧
        components e.filename = parents.map .name ++ [.name name] := by
    have hne := PlainNames.placeNames_ne_nil hplain (List.mem_map_of_mem he)
    refine ⟨_, _, (List.dropLast_append_getLast hne).symm, ?_⟩
    rw [PlainNames.components_eq hplain (List.mem_map_of_mem he)]
    conv_lhs => rw [← List.dropLast_append_getLast hne, List.map_append]
    rfl
  have hplace {e : FileMetadata} {parents : List Path} {name : Path}
      (hsplit : placeNames e.filename = parents ++ [name]) :
      base ++ parents ++ [name] = placeOf base e.filename := by
    rw [placeOf, hsplit, List.append_assoc]
  rcases hop.acts with ⟨hfollows, hnone⟩ | ⟨e, he, hother, hfollows, hnone⟩ | ⟨e, he, hlink, hnamed, hnone⟩
  · constructor
    · intro h
      cases h with
      | idle => exact .inl ⟨hfollows, hnone, rfl⟩
      | follows hop => simp [hfollows] at hop
      | names hop => simp [hnone] at hop
    · rintro (⟨-, -, rfl⟩ | ⟨e, -, ⟨hop, -⟩ | ⟨hop, -⟩, -⟩)
      · exact .idle hfollows hnone
      · simp [hfollows] at hop
      · simp [hnone] at hop
  · constructor
    · intro h
      cases h with
      | idle hop => simp [hfollows] at hop
      | follows hop hres =>
        rw [hfollows, Option.some.injEq] at hop
        rw [hrest hop] at hres
        obtain rfl := (hlinks.resolves_iff hplain he hother).mp hres
        exact .inr ⟨e, he, .inl ⟨hfollows, hother⟩, rfl⟩
      | names hop => simp [hnone] at hop
    · rintro (⟨hop, -⟩ | ⟨e', he', ⟨hop, -⟩ | ⟨hop, -⟩, rfl⟩)
      · simp [hfollows] at hop
      · rw [hfollows, Option.some.injEq] at hop
        obtain rfl := hplain.eq_of_path he he' hop
        exact .follows (hfollows.trans (by rw [hpath])) ((hlinks.resolves_iff hplain he hother).mpr rfl)
      · simp [hnone] at hop
  · obtain ⟨parents, name, hsplit, hcomponents⟩ := hnames he
    constructor
    · intro h
      cases h with
      | idle _ hop => simp [hnamed] at hop
      | follows hop => simp [hnone] at hop
      | names hop hrests hres =>
        rw [hnamed, Option.some.injEq] at hop
        rw [hrest hop, hcomponents] at hrests
        obtain ⟨rfl, hlast⟩ := List.append_inj' hrests rfl
        obtain rfl := Component.name.inj (List.cons.inj hlast).1
        obtain rfl := (hlinks.parent_resolves_iff hplain he hsplit).mp hres
        rw [hplace hsplit]
        exact .inr ⟨e, he, .inr ⟨hnamed, hlink⟩, rfl⟩
    · rintro (⟨-, hop, -⟩ | ⟨e', he', ⟨hop, -⟩ | ⟨hop, -⟩, rfl⟩)
      · simp [hnamed] at hop
      · simp [hnone] at hop
      · rw [hnamed, Option.some.injEq] at hop
        obtain rfl := hplain.eq_of_path he he' hop
        rw [← hplace hsplit]
        exact .names (hnamed.trans (by rw [hpath])) hcomponents
          ((hlinks.parent_resolves_iff hplain he hsplit).mpr rfl)

end Step

/-- A symlink comes from a system call that makes one, or has been there before. -/
theorem FileOp.act_symlink {fresh : FileStatus} {i : Option Inode} {op : FileOp} {text : Path}
    (h : (op.act fresh i).map Inode.node = some (.symlink text)) :
    (∃ path, op = .symlink text path) ∨ ∃ text, i.map Inode.node = some (.symlink text) := by
  have hkept {f : Inode → Inode} (hf : ∀ i, (f i).node = i.node) (h : (i.map f).map Inode.node =
      some (.symlink text)) : ∃ text, i.map Inode.node = some (.symlink text) := by
    rw [Option.map_map] at h
    obtain ⟨j, hj, hnode⟩ := Option.map_eq_some_iff.mp h
    exact ⟨text, by rw [hj, Option.map_some, ← hnode, Function.comp, hf]⟩
  have hedited {edit : Edit UInt8} (h : (i.map (Inode.edit edit)).map Inode.node = some (.symlink text)) :
      ∃ text, i.map Inode.node = some (.symlink text) := by
    rw [Option.map_map] at h
    obtain ⟨⟨node, status⟩, hj, hnode⟩ := Option.map_eq_some_iff.mp h
    cases node with
    | file content => cases hnode
    | symlink target => exact ⟨target, by rw [hj]; rfl⟩
  cases op with
  | openFile path =>
    cases i with
    | none => cases h
    | some i => exact .inr ⟨text, h⟩
  | pwrite => exact .inr (hedited h)
  | ftruncate => exact .inr (hedited h)
  | chmod _ mode => exact .inr (@hkept (Inode.setMode mode) (fun _ ↦ rfl) h)
  | fchmod _ mode => exact .inr (@hkept (Inode.setMode mode) (fun _ ↦ rfl) h)
  | chown _ uid gid => exact .inr (@hkept (Inode.changeOwner uid gid) (fun _ ↦ rfl) h)
  | fchown _ uid gid => exact .inr (@hkept (Inode.changeOwner uid gid) (fun _ ↦ rfl) h)
  | lchown _ uid gid => exact .inr (@hkept (Inode.changeOwner uid gid) (fun _ ↦ rfl) h)
  | unlink => cases h
  | symlink target path =>
    obtain rfl := Node.symlink.inj (Option.some.inj h)
    exact .inl ⟨path, rfl⟩
  | mkdir => exact .inr ⟨text, h⟩
  | encodedWrite => exact .inr ⟨text, h⟩
  | close => exact .inr ⟨text, h⟩

/-- What system calls with one path make of what is there. -/
def inodeAfter (fresh : FileStatus) (path : Path) (i : Option Inode) (ops : List FileOp) : Option Inode :=
  ops.foldl (fun i op ↦ if op.follows? = some path ∨ op.names? = some path then op.act fresh i else i) i

theorem inodeAfter_concat (fresh : FileStatus) (path : Path) (i : Option Inode) (ops : List FileOp)
    (op : FileOp) : inodeAfter fresh path i (ops ++ [op]) =
      if op.follows? = some path ∨ op.names? = some path then op.act fresh (inodeAfter fresh path i ops)
      else inodeAfter fresh path i ops := by
  rw [inodeAfter, List.foldl_append]
  rfl

theorem FileOp.act_node {fresh : FileStatus} {path : Path} {op : FileOp}
    (h : op.follows? = some path ∨ op.names? = some path) (i : Option Inode) :
    (op.act fresh i).map Inode.node = op.node path (i.map Inode.node) := by
  have hedited (edit : Edit UInt8) :
      (i.map (Inode.edit edit)).map Inode.node = (i.map Inode.node).map (Node.edit edit) := by
    cases i <;> rfl
  have hkept {f : Inode → Inode} (hf : ∀ i, (f i).node = i.node) :
      (i.map f).map Inode.node = i.map Inode.node := by
    cases i with
    | none => rfl
    | some i => exact congrArg some (hf i)
  cases op with
  | openFile p =>
    obtain rfl : p = path := by simpa [follows?, names?] using h
    rw [FileOp.node, if_pos rfl]
    cases i <;> rfl
  | pwrite p data offset =>
    obtain rfl : p = path := by simpa [follows?, names?] using h
    rw [FileOp.node, if_pos rfl]
    exact hedited _
  | ftruncate p size =>
    obtain rfl : p = path := by simpa [follows?, names?] using h
    rw [FileOp.node, if_pos rfl]
    exact hedited _
  | chmod _ mode => exact @hkept (Inode.setMode mode) fun _ ↦ rfl
  | fchmod _ mode => exact @hkept (Inode.setMode mode) fun _ ↦ rfl
  | chown _ uid gid => exact @hkept (Inode.changeOwner uid gid) fun _ ↦ rfl
  | fchown _ uid gid => exact @hkept (Inode.changeOwner uid gid) fun _ ↦ rfl
  | lchown _ uid gid => exact @hkept (Inode.changeOwner uid gid) fun _ ↦ rfl
  | unlink p =>
    obtain rfl : p = path := by simpa [follows?, names?] using h
    rw [FileOp.node, if_pos rfl]
    rfl
  | symlink target p =>
    obtain rfl : p = path := by simpa [follows?, names?] using h
    rw [FileOp.node, if_pos rfl]
    rfl
  | mkdir => rfl
  | encodedWrite => rfl
  | close => rfl

theorem FileOp.node_of_other {path : Path} {op : FileOp}
    (h : ¬ (op.follows? = some path ∨ op.names? = some path)) (n : Option Node) : op.node path n = n := by
  cases op with
  | openFile p => exact if_neg fun heq ↦ h (.inl (congrArg some heq))
  | pwrite p => exact if_neg fun heq ↦ h (.inl (congrArg some heq))
  | ftruncate p => exact if_neg fun heq ↦ h (.inl (congrArg some heq))
  | unlink p => exact if_neg fun heq ↦ h (.inr (congrArg some heq))
  | symlink _ p => exact if_neg fun heq ↦ h (.inr (congrArg some heq))
  | _ => rfl

/-- What becomes of the content does not depend on permissions and owners. -/
theorem inodeAfter_node (fresh : FileStatus) (path : Path) (i : Option Inode) (ops : List FileOp) :
    (inodeAfter fresh path i ops).map Inode.node = nodeAfter path (i.map Inode.node) ops := by
  induction ops using List.reverseRecOn with
  | nil => rfl
  | append_singleton ops op ih =>
    have hafter : nodeAfter path (i.map Inode.node) (ops ++ [op]) =
        op.node path (nodeAfter path (i.map Inode.node) ops) := by
      rw [nodeAfter, List.foldl_append]
      rfl
    rw [inodeAfter_concat, hafter, ← ih]
    split
    · next hpath => exact FileOp.act_node hpath _
    · next hother => exact (FileOp.node_of_other hother _).symm

section Run

variable {x : Extraction} (hplain : x.NamesPlain) {base : List Path} {fresh : FileStatus} {before : FileTree}
include hplain

/-- A system call leaves no symlinks but those of entries. -/
theorem Extraction.LinksOnlyLinks.act {t t' : FileTree} (hlinks : x.LinksOnlyLinks base t) {op : FileOp}
    (hop : x.Stems op) (hacts : t.Acts x.outputDir base fresh op t') : x.LinksOnlyLinks base t' := by
  rcases (hlinks.acts_iff hplain hop).mp hacts with ⟨-, -, rfl⟩ | ⟨e, he, hkind, rfl⟩
  · exact hlinks
  intro place target hbelow hlink
  by_cases hplace : place = placeOf base e.filename
  · subst hplace
    refine ⟨e, he, ?_, rfl⟩
    rcases hkind with ⟨hfollows, hother⟩ | ⟨-, hislink⟩
    · obtain ⟨text, htext, -⟩ := FileTree.links_some.mp hlink
      rw [FileTree.act, Function.update_self] at htext
      rcases FileOp.act_symlink htext with ⟨path, rfl⟩ | ⟨text', hbefore⟩
      · cases hfollows
      · obtain ⟨e', he', hislink, hsame⟩ := hlinks _ _ hbelow (FileTree.links_some.mpr ⟨text', hbefore, rfl⟩)
        obtain rfl := hplain.eq_of_placeOf he he' hsame
        exact hislink
    · exact hislink
  · apply hlinks place target hbelow
    rw [FileTree.links_some] at hlink ⊢
    rwa [FileTree.act, Function.update_of_ne hplace] at hlink

/-- Under plain names every entry has in the end what the system calls with its path have made. -/
theorem TreeAfter.inode (hbefore : before.NoLinkBelow base) {ops : List FileOp} {t : FileTree}
    (h : TreeAfter x.outputDir base fresh before ops t) (hops : ∀ op ∈ ops, x.Stems op) :
    x.LinksOnlyLinks base t ∧ ∀ e ∈ x.cdResult.files, t (placeOf base e.filename) =
      inodeAfter fresh (x.path e) (before (placeOf base e.filename)) ops := by
  induction h with
  | start =>
    refine ⟨fun place target hbelow hlink ↦ ?_, fun e _ ↦ rfl⟩
    rw [hbefore place hbelow] at hlink
    cases hlink
  | @call ops op t t' _ hacts ih =>
    obtain ⟨hlinks, hinode⟩ := ih fun o ho ↦ hops o (List.mem_append_left _ ho)
    have hop := hops op (List.mem_append_right _ (List.mem_singleton.mpr rfl))
    refine ⟨hlinks.act hplain hop hacts, fun e he ↦ ?_⟩
    rw [inodeAfter_concat, ← hinode e he]
    rcases (hlinks.acts_iff hplain hop).mp hacts with ⟨hfollows, hnames, rfl⟩ | ⟨e', he', hkind, rfl⟩
    · rw [if_neg (by simp [hfollows, hnames])]
    · have hpath : (op.follows? = some (x.path e') ∨ op.names? = some (x.path e')) :=
        hkind.imp And.left And.left
      by_cases hsame : e = e'
      · subst hsame
        rw [if_pos hpath, FileTree.act, Function.update_self]
      · have hplace : placeOf base e.filename ≠ placeOf base e'.filename :=
          fun heq ↦ hsame (hplain.eq_of_placeOf he he' heq)
        have hother : x.path e' ≠ x.path e := fun heq ↦ hsame (hplain.eq_of_path he' he heq).symm
        rw [if_neg, FileTree.act, Function.update_of_ne hplace]
        rcases hop.acts with ⟨hfollows, hnames⟩ | ⟨_, _, _, hfollows, hnames⟩ | ⟨_, _, _, hnames, hfollows⟩
        · simp [hfollows, hnames]
        · rw [hfollows, hnames] at hpath ⊢
          simp only [reduceCtorEq, or_false] at hpath ⊢
          rwa [hpath, Option.some.injEq]
        · rw [hfollows, hnames] at hpath ⊢
          simp only [reduceCtorEq, false_or] at hpath ⊢
          rwa [hpath, Option.some.injEq]

/-- Every path leads somewhere. -/
theorem treeAfter_exists (hbefore : before.NoLinkBelow base) {ops : List FileOp}
    (hops : ∀ op ∈ ops, x.Stems op) :
    ∃ t, TreeAfter x.outputDir base fresh before ops t := by
  induction ops using List.reverseRecOn with
  | nil => exact ⟨before, .start⟩
  | append_singleton ops op ih =>
    have hearlier : ∀ o ∈ ops, x.Stems o := fun o ho ↦ hops o (List.mem_append_left _ ho)
    have hop := hops op (List.mem_append_right _ (List.mem_singleton.mpr rfl))
    obtain ⟨t, ht⟩ := ih hearlier
    obtain ⟨hlinks, -⟩ := ht.inode hplain hbefore hearlier
    have hacts {t'} := @Extraction.LinksOnlyLinks.acts_iff x hplain base fresh t t' hlinks op hop
    rcases hop.acts with ⟨hfollows, hnames⟩ | ⟨e, he, hother, hfollows, -⟩ | ⟨e, he, hlink, hnames, -⟩
    · exact ⟨t, ht.call (hacts.mpr (.inl ⟨hfollows, hnames, rfl⟩))⟩
    · exact ⟨_, ht.call (hacts.mpr (.inr ⟨e, he, .inl ⟨hfollows, hother⟩, rfl⟩))⟩
    · exact ⟨_, ht.call (hacts.mpr (.inr ⟨e, he, .inr ⟨hnames, hlink⟩, rfl⟩))⟩

end Run

end Burst
