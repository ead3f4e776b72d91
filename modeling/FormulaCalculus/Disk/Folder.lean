import FormulaCalculus.Disk

/-!
# Folders

A folder holds files by path, and the directories that their paths pass through. A path is walked
name by name from the folder; it may lead out of it, where there are no files.
-/

namespace FormulaCalculus

/-- Files by their plain paths, names with a single slash between them. -/
structure Folder where
  files : List (String × List UInt8) := []

namespace Folder

/-- Where a path leads. -/
inductive Place
  | directory (names : List String)
  | file (names : List String) (bytes : List UInt8)
  /-- Nothing is there, but its directory is. -/
  | vacant (names : List String)

def plain (names : List String) : String :=
  "/".intercalate names

def namesOf (path : String) : List String :=
  (path.splitOn "/").filter (· ≠ "")

def isDirectory (f : Folder) (names : List String) : Bool :=
  f.files.any fun (path, _) =>
    names.isPrefixOf (namesOf path) && names.length < (namesOf path).length

def find (f : Folder) (names : List String) : Place :=
  match f.files.find? (·.1 = plain names) with
  | some (_, bytes) => .file names bytes
  | none => if names.isEmpty || f.isDirectory names then .directory names else .vacant names

/-- The directory above; outside of the folder every step up is kept. -/
def above (names : List String) : List String :=
  if names.isEmpty || names.getLast? = some ".." then names ++ [".."] else names.dropLast

/-- The place that names lead to from another; `path` is the whole path, for faults. -/
def walk (f : Folder) (path : String) : Place → List String → Except Fault Place
  | place, [] => .ok place
  | .file .., _ :: _ => .error (.notADirectory path)
  | .vacant _, _ :: _ => .error (.noSuchFile path)
  | .directory here, name :: rest =>
    f.walk path
      (if name = "." then .directory here
        else if name = ".." then .directory (above here)
        else f.find (here ++ [name]))
      rest

/-- The place a path leads to. Absolute paths start outside of the folder. -/
def locate (f : Folder) (path : String) : Except Fault Place :=
  if path.contains '\x00' then .error .nullInPath
  else f.walk path (.directory (if path.startsWith "/" then [".."] else [])) (namesOf path)

def read? (f : Folder) (path : String) : Except Fault (List UInt8) := do
  match ← f.locate path with
  | .directory _ => throw (.isDirectory path)
  | .vacant _ => throw (.noSuchFile path)
  | .file _ bytes => if path.endsWith "/" then throw (.notADirectory path) else return bytes

/-- The plain path of the file that writing to a path creates or replaces. -/
def target? (f : Folder) (path : String) : Except Fault String := do
  match ← f.locate path with
  | .directory _ => throw (.isDirectory path)
  | .vacant names | .file names _ =>
    if path.endsWith "/" then throw (.isDirectory path) else return plain names

/-- The folder with other bytes in a file, which need not be there yet. -/
def write? (f : Folder) (path : String) (bytes : List UInt8) : Except Fault Folder := do
  let key ← f.target? path
  if f.files.any (·.1 = key) then
    return ⟨f.files.map fun e => if e.1 = key then (key, bytes) else e⟩
  else return ⟨f.files ++ [(key, bytes)]⟩

def disk (f : Folder) : Disk where
  read := f.read?
  writable path := (f.target? path).map fun _ => ()

end Folder

end FormulaCalculus
