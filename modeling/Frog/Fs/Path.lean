import Frog.Fs.Dir

/-!
# Path resolution

`path_peel`, `path_depth`, `path_dirs` and `search_file_with_pathname` of `core/fs/fs.c`.
Every function works on its own heap copy of the path, made with `sys_malloc(strlen(path))`:
the copy ends where its block's zeros begin, and when the path fills its block to the last byte
it runs on into whatever follows.
-/

namespace Frog.Fs

set_option autoImplicit false
open Bytes

/-- Is there a zero byte behind a path of this length in its block? Blocks have 16, 32, …, 1024
bytes, and above that whole pages less the arena's header. -/
def hasTerminator (len : Nat) : Bool :=
  if len ≤ 1024 then len ∉ [16, 32, 64, 128, 256, 512, 1024] else (len + 12) % 4096 ≠ 0

/-- The copy of a path, or `none` when there is no memory. -/
def copyPath (pathname : Name) : M (Option Name) := do
  if ← sysMalloc pathname.length then
    if hasTerminator pathname.length then pure (some pathname)
    else
      let rest ← readTail
      pure (some (pathname ++ rest))
  else pure none

/-- A copy whose failure nobody looks at. -/
def mustCopyPath (pathname : Name) : M Name := do
  let path ← copyPath pathname
  Prog.need path .fault

/-- The last slash that is not the last character. -/
def lastSlash (path : Name) : Option Nat :=
  (List.range (path.length - 1)).reverse.find? fun i => path.getD i 0 == slash

/-- The path without its last name, and that name. The pointer to the last slash is not
initialised, and the name is copied into 16 bytes without a test. -/
def pathPeel (path : Name) : M (Name × Name) := do
  if path = [slash] then pure ([slash], [])
  else
    let k ← Prog.need (lastSlash path) .fault
    Prog.check (path.length - (k + 1) < 16) .fault
    pure (path.take (k + 1), path.drop (k + 1))

/-- The names a path is peeled into until only the root is left, the last name first. Each
peel shortens the path. -/
def peelNames : Nat → Name → M (List Name)
  | 0, _ => pure []
  | fuel + 1, path =>
    if path = [slash] then pure []
    else do
      let (parent, last) ← pathPeel path
      let names ← peelNames fuel parent
      pure (last :: names)

/-- The first peel is made before the test for the root. -/
def pathDepth (path : Name) : M Nat := do
  if path = [] then pure 0
  else
    let tmpPath ← mustCopyPath path
    let names ← peelNames tmpPath.length tmpPath
    pure (max names.length 1)

def isDirName (name : Name) : Bool := name.getLast? == some slash

/-- The directories of a path, the innermost first, written to an array of `depth` names; `none`
is `-1`. -/
def pathDirs (path : Name) (depth : Nat) : M (Option (List Name)) := do
  match ← copyPath path with
  | none => pure none
  | some tmpPath =>
    let names ← peelNames tmpPath.length tmpPath
    let dirs := names.filter isDirName
    Prog.check (dirs.length ≤ depth) .fault
    pure (some dirs)

/-! ## The walk of `search_file_with_pathname` -/

/-- How the loop over the directories ends: at the directory that holds the last name, with a
missing name, or at the directory the path names, whose parent is copied out. -/
inductive Walk where
  | inside (d : Nat)
  | missing
  | target (inodeNr : Nat) (pdir : Dir)

/-- The names come outermost first. None of the directories opened here is closed. -/
def walkDirs (isFile : Bool) : Nat → List Name → M Walk
  | d, [] => pure (.inside d)
  | d, name :: names => do
    match ← searchFile d name with
    | none => pure .missing
    | some inodeNr =>
      let next ← dirOpen inodeNr
      if names = [] ∧ isFile = false then
        let prev ← dirAt d
        pure (.target inodeNr prev)
      else walkDirs isFile next names

/-- The inode number, and what is copied to `pdir` if anything is. With one directory or none in
the path, the last name is looked up in the root directory. -/
def searchFileWithPathname (pathname : Name) : M (Option Nat × Option Dir) := do
  match ← copyPath pathname with
  | none => pure (none, none)
  | some tmpPath =>
    let (_, lastName) ← pathPeel tmpPath
    let depth ← pathDepth pathname
    mustMalloc (16 * depth)
    let dirs ← pathDirs pathname depth
    let dirs := dirs.getD []
    if dirs.length ≤ 1 then
      match ← searchFile rootDir lastName with
      | none => pure (none, none)
      | some inodeNr =>
        let root ← dirAt rootDir
        pure (some inodeNr, some root)
    else
      match ← walkDirs (!isDirName pathname) rootDir dirs.reverse with
      | .missing => pure (none, none)
      | .target inodeNr pdir => pure (some inodeNr, some pdir)
      | .inside d =>
        let r ← searchFile d lastName
        let dir ← dirAt d
        pure (r, some dir)

end Frog.Fs
