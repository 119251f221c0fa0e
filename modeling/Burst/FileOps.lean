import Burst.FrameParser

namespace Burst

abbrev Path := List UInt8

/-- The system calls of the downloader that change files. A descriptor is named by the path it was
opened under. -/
inductive FileOp where
  | mkdir (path : Path) (mode : ℕ)
  | chmod (path : Path) (mode : ℕ)
  | chown (path : Path) (uid gid : ℕ)
  | openFile (path : Path)
  | encodedWrite (path : Path) (frame : List UInt8) (unencodedLen offset : ℕ)
  | pwrite (path : Path) (data : List UInt8) (offset : ℕ)
  | ftruncate (path : Path) (size : ℕ)
  | fchmod (path : Path) (mode : ℕ)
  | fchown (path : Path) (uid gid : ℕ)
  | close (path : Path)
  | unlink (path : Path)
  | symlink (target path : Path)
  | lchown (path : Path) (uid gid : ℕ)
  deriving DecidableEq, Repr

inductive Errno where
  | eexist
  | enotty
  | eopnotsupp
  | other
  deriving DecidableEq, Repr

/-- The operating system: what a call returns after the calls made so far. -/
structure Os where
  respond : List FileOp → FileOp → Except Errno ℕ
  statIsDir : List FileOp → Path → Bool
  isRoot : Bool

def slash : UInt8 := 47

def stripTrailingSlashes (path : Path) : Path := (path.reverse.dropWhile (· = slash)).reverse

/-- `dirname` -/
def dirname (path : Path) : Path :=
  let name := stripTrailingSlashes path
  if name = [] then if path = [] then [46] else [slash]
  else if slash ∉ name then [46]
  else
    let dir := stripTrailingSlashes (name.reverse.dropWhile (· ≠ slash)).reverse
    if dir = [] then [slash] else dir

/-- The paths up to each slash and to the end, as the loop over the components visits them; `inside`
tells whether a component has begun. -/
def componentPaths (visited : Path) (inside : Bool) : Path → List Path
  | [] => if inside then [visited] else []
  | c :: rest =>
    if c = slash then visited :: componentPaths (visited ++ [c]) false rest
    else componentPaths (visited ++ [c]) true rest

def directoryPaths (dir : Path) : List Path :=
  componentPaths (dir.takeWhile (· = slash)) false (dir.dropWhile (· = slash))

def mkdirAll (os : Os) : List FileOp → List Path → Bool × List FileOp
  | ops, [] => (true, ops)
  | ops, path :: paths =>
    let made := ops ++ [.mkdir path 0o755]
    match os.respond ops (.mkdir path 0o755) with
    | .ok _ => mkdirAll os made paths
    | .error .eexist => mkdirAll os made paths
    | .error _ => if os.statIsDir made path then mkdirAll os made paths else (false, made)

def ensureDirectoryExists (os : Os) (ops : List FileOp) (path : Path) : Bool × List FileOp :=
  mkdirAll os ops (directoryPaths (dirname path))

inductive BtrfsWriterError where
  | invalidArgs
  | ioctlFailed
  | decompressFailed
  | writeFailed
  deriving DecidableEq, Repr

def maxExtentSize : ℕ := 128 * 1024

/-- The descriptor is open. -/
def doWriteUnencoded (os : Os) (zstd : ZstdLib) (ops : List FileOp) (path : Path)
    (zstdFrame : List UInt8) (uncompressedLen fileOffset : ℕ) :
    Option BtrfsWriterError × List FileOp :=
  if zstdFrame.length = 0 then (some .invalidArgs, ops)
  else if uncompressedLen > maxExtentSize then (some .invalidArgs, ops)
  else
    match zstd.decompressDCtx maxExtentSize zstdFrame with
    | none => (some .decompressFailed, ops)
    | some data =>
      let written := ops ++ [.pwrite path data fileOffset]
      match os.respond ops (.pwrite path data fileOffset) with
      | .ok n => (if n = data.length then none else some .writeFailed, written)
      | .error _ => (some .writeFailed, written)

/-- The descriptor is open. -/
def doWriteEncoded (os : Os) (zstd : ZstdLib) (ops : List FileOp) (path : Path)
    (zstdFrame : List UInt8) (uncompressedLen fileOffset : ℕ) :
    Option BtrfsWriterError × List FileOp :=
  if zstdFrame.length = 0 then (some .invalidArgs, ops)
  else if zstdFrame.length ≥ uncompressedLen then
    doWriteUnencoded os zstd ops path zstdFrame uncompressedLen fileOffset
  else if uncompressedLen > maxExtentSize then (some .invalidArgs, ops)
  else
    let op := FileOp.encodedWrite path zstdFrame uncompressedLen fileOffset
    match os.respond ops op with
    | .ok _ => (none, ops ++ [op])
    | .error .enotty =>
      doWriteUnencoded os zstd (ops ++ [op]) path zstdFrame uncompressedLen fileOffset
    | .error .eopnotsupp =>
      doWriteUnencoded os zstd (ops ++ [op]) path zstdFrame uncompressedLen fileOffset
    | .error _ => (some .ioctlFailed, ops ++ [op])

end Burst
