/-!
# Directories

An in-memory directory of text files. Paths are relative to it, with slashes between their parts.
A directory below it exists when it holds a file.
-/

namespace QueryRules

/-- Files, each with the parts of its path and its content. -/
structure Directory where
  files : List (List String × String)
  deriving DecidableEq

namespace Directory

/-- No files. -/
def empty : Directory :=
  ⟨[]⟩

/-- Whether there is a directory with the given parts. -/
def isDirectory (d : Directory) (parts : List String) : Bool :=
  parts.isEmpty || d.files.any fun (file, _) => parts.isPrefixOf file && file ≠ parts

/-- Follow the parts of a path from a place on. All places on the way must be directories. -/
def follow (d : Directory) (place : List String) : List String → Option (List String)
  | [] => some place
  | part :: rest =>
    if !d.isDirectory place then none
    else if part = "" || part = "." then follow d place rest
    else if part = ".." then
      if place.isEmpty then none else follow d place.dropLast rest
    else follow d (place ++ [part]) rest

/-- The place that a path leads to. Paths that start with a slash lead outside. -/
def resolve? (d : Directory) (path : String) : Option (List String) :=
  if path.toList.head? = some '/' then none else d.follow [] (path.splitOn "/")

/-- The content of a file. -/
def read? (d : Directory) (path : String) : Option String := do
  d.files.lookup (← d.resolve? path)

/-- Write a file, in place of one that may be there. The directory that is to hold it must exist. -/
def write? (d : Directory) (path content : String) : Option Directory := do
  let place ← d.resolve? path
  if d.isDirectory place || !d.isDirectory place.dropLast then none
  else some ⟨d.files.filter (fun (file, _) => file ≠ place) ++ [(place, content)]⟩

/-- Add a file together with the directories that hold it. -/
def add (d : Directory) (path content : String) : Directory :=
  let place := path.splitOn "/"
  ⟨d.files.filter (fun (file, _) => file ≠ place) ++ [(place, content)]⟩

end Directory

end QueryRules
