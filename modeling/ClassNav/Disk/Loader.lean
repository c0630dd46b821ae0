import ClassNav.Disk.FileSystem
import ClassNav.Files.Host

/-!
# Loading files

A `Loader` puts the files with its extension into a host: one file, or all those under a
directory in the order of their paths. What cannot be visited or read is reported, and the rest is
loaded all the same.
-/

namespace ClassNav

/-- Why something could not be loaded. -/
inductive LoadError
  | notADirectory (path : Path)
  | walk (path : Path)
  | read (path : Path)
deriving DecidableEq, Repr, Inhabited

namespace LoadError

def path : LoadError → Path
  | notADirectory p | walk p | read p => p

/-- An error with its path spelled from the top directory. -/
def belowTop : LoadError → LoadError
  | notADirectory p => notADirectory p.belowTop
  | walk p => walk p.belowTop
  | read p => read p.belowTop

/-- The wording of an error, up to the reason that the system gives. -/
def message : LoadError → String
  | notADirectory p => "directory not found: " ++ p.spelling
  | walk p => "failed to walk " ++ p.spelling
  | read p => "failed to read " ++ p.spelling

end LoadError

/-- How many files of a directory were loaded, and what went wrong. -/
structure LoadReport where
  loaded : Nat
  errors : List LoadError
deriving DecidableEq, Repr, Inhabited

/-- Loads files with one extension. -/
structure Loader where
  extension : String := "hx"
deriving DecidableEq, Repr, Inhabited

namespace Loader

/-- The path of a visited file with the right extension. -/
def wanted? (l : Loader) : FileSystem.Visit → Option Path
  | .entry p true => if p.extension? = some l.extension then some p else none
  | _ => none

/-- The error of a visit that failed, while a directory was walked. -/
def failure? (dir : Path) : FileSystem.Visit → Option LoadError
  | .failure p => some (.walk (p.getD dir))
  | _ => none

/-- The files to load among some visits, in the order of their paths. -/
def select (l : Loader) (visits : List FileSystem.Visit) : List Path :=
  (visits.filterMap l.wanted?).mergeSort Path.le

/-- Reads and parses a file, or says that it cannot be read. -/
def readDocument (d : Disk) (p : Path) : Except LoadError Document :=
  match d.read? p with
  | some text => .ok (.ofParsed text (parse text))
  | none => .error (.read p)

/-- Stores what was read under a path, and adds to the report. -/
def storeNext : LoadReport × Host → Path × Except LoadError Document → LoadReport × Host
  | (r, h), (p, .ok doc) => ({ r with loaded := r.loaded + 1 }, (h.setDocument p doc).2)
  | (r, h), (_, .error e) => ({ r with errors := r.errors ++ [e] }, h)

/-- Loads the files among the visits of a directory: reads them all, then stores them one by one.
Failed visits are reported first. -/
def loadVisits (l : Loader) (d : Disk) (dir : Path) (visits : List FileSystem.Visit) (h : Host) :
    LoadReport × Host :=
  let paths := l.select visits
  let results := paths.map (readDocument d)
  (paths.zip results).foldl storeNext (⟨0, visits.filterMap (failure? dir)⟩, h)

/-- Loads everything under a directory: the report, and the host that is left. -/
def loadDirectoryInto (l : Loader) (d : Disk) (dir : Path) (h : Host) :
    Except LoadError LoadReport × Host :=
  if d.isDirectory dir then
    let (r, h) := l.loadVisits d dir (d.walk dir) h
    (.ok r, h)
  else (.error (.notADirectory dir), h)

/-- Loads a single file, whatever its extension. -/
def loadFileInto (d : Disk) (p : Path) (h : Host) : Except LoadError Unit × Host :=
  match readDocument d p with
  | .ok doc => (.ok (), (h.setDocument p doc).2)
  | .error e => (.error e, h)

/-- Loads everything under a directory of files in memory. -/
def loadDirectory (l : Loader) (fs : FileSystem) (p : Path) (h : Host) :
    Except LoadError (LoadReport × Host) :=
  let (result, h) := l.loadDirectoryInto fs.disk p h
  result.map (·, h)

def loadFile (fs : FileSystem) (p : Path) (h : Host) : Except LoadError Host :=
  let (result, h) := loadFileInto fs.disk p h
  result.map fun _ => h

end Loader

end ClassNav
