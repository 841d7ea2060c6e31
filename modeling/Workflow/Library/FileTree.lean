import Workflow.Library.Path

/-!
The files that a program sees, by their trails: the names that lead to them from the working
directory, or from the root when the trail opens with a slash. Whatever a file lies under is a
directory, and so is what is named as one, with all that it lies under.
-/

namespace Workflow

abbrev Trail := List String

structure FileTree where
  files : List (Trail × String)
  directories : List Trail

namespace FileTree

/-- One directory up; above the working directory the way up is itself a name. -/
def up (t : Trail) : Trail :=
  match t.getLast? with
  | none => [".."]
  | some last => if last = ".." then t ++ [".."] else if t = ["/"] then t else t.dropLast

def step (t : Trail) (segment : String) : Trail :=
  if segment = "" ∨ segment = "." then t
  else if segment = ".." then up t
  else t ++ [segment]

/-- Where a path starts and the segments that it takes from there. -/
def course (path : String) : Trail × List String :=
  match Path.segments path with
  | "" :: s :: rest => (["/"], s :: rest)
  | segments => ([], segments)

def trail (path : String) : Trail := (course path).2.foldl step (course path).1

/-- The tree of the files at the given paths. -/
def ofList (files : List (String × String)) : FileTree :=
  ⟨files.map fun (path, contents) => (trail path, contents), []⟩

def addDirectory (f : FileTree) (path : String) : FileTree :=
  { f with directories := trail path :: f.directories }

/-- Both trees in one; of two files with one trail the first tree's is kept. -/
def join (f g : FileTree) : FileTree := ⟨f.files ++ g.files, f.directories ++ g.directories⟩

/-- The names that lead from a directory to a file under it. -/
def under? (directory file : Trail) : Option Trail :=
  if directory.isPrefixOf file && directory.length < file.length then
    some (file.drop directory.length)
  else none

def isDirectoryAt (f : FileTree) (t : Trail) : Bool :=
  t.isEmpty || f.directories.any t.isPrefixOf || f.files.any fun (file, _) => (under? t file).isSome

/-- The trail of a path; `none` when it goes through something that is no directory. -/
def locate? (f : FileTree) (path : String) : Option Trail :=
  if path = "" then none
  else (course path).2.foldlM (fun t s => if f.isDirectoryAt t then some (step t s) else none)
    (course path).1

/-- The directory that a path leads to. -/
def directory? (f : FileTree) (path : String) : Option Trail :=
  (f.locate? path).filter f.isDirectoryAt

def read? (f : FileTree) (path : String) : Option String := do
  let t ← f.locate? path
  let (_, contents) ← f.files.find? fun (file, _) => file = t
  some contents

/-- Every file under a directory, by the names that lead there. -/
def allUnder (f : FileTree) (directory : Trail) : List Trail :=
  f.files.filterMap fun (file, _) => under? directory file

end FileTree

end Workflow
