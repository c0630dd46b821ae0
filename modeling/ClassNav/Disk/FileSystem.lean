import ClassNav.Files.Path

/-!
# Files on disk

A directory tree held in memory: files with their bytes, directories, and links to other places in
the tree. The place of an entry is the list of names that leads to it from the top directory.

* `FileSystem.locate?` follows a path, links included, to the place where it ends.
* `FileSystem.walk` visits everything under a directory. Links are followed, unless they lead to
  nothing or back to a directory that is being visited.
* `Disk` is all that a loader sees of it.
-/

namespace ClassNav

/-- Where an entry is: the names from the top directory down to it. -/
abbrev Place := List String

/-- What a name in a directory stands for. -/
inductive Entry
  | file (bytes : ByteArray)
  | directory
  | link (target : Path)
deriving Inhabited

/-- The entries below the top directory. -/
structure FileSystem where
  entries : List (Place × Entry)
deriving Inhabited

namespace FileSystem

def empty : FileSystem := ⟨[]⟩

/-- The entry at a place; the top directory is one, too. -/
def entry? (fs : FileSystem) (place : Place) : Option Entry :=
  if place = [] then some .directory else fs.entries.lookup place

def isDirectoryAt (fs : FileSystem) (place : Place) : Bool :=
  match fs.entry? place with
  | some .directory => true
  | _ => false

/-! ## Following paths -/

/-- Goes from a place along the pieces of a path. Every piece, even one that makes no step, has to
start from a directory, and no piece leads out of the top directory. If the last name is missing,
`missing` says what becomes of it; a link is passed on, with the pieces left after it, to
`follow`. -/
def go? (fs : FileSystem) (missing : Place → Option Place)
    (follow : List (List Char) → Option Place) : Place → List (List Char) → Option Place
  | here, [] => some here
  | here, p :: ps =>
    if !fs.isDirectoryAt here then none
    else
      match Component.ofPiece? p with
      | some .parent => if here.isEmpty then none else go? fs missing follow here.dropLast ps
      | some (.normal x) =>
        match fs.entry? (here ++ [x]) with
        | none => if ps.isEmpty then missing (here ++ [x]) else none
        | some (.link target) => follow (target.pieces ++ ps)
        | some _ => go? fs missing follow (here ++ [x]) ps
      | _ => go? fs missing follow here ps

/-- Goes from the top directory along the pieces of a path, through at most `links` links. -/
def goThrough? (fs : FileSystem) (missing : Place → Option Place) :
    (links : Nat) → List (List Char) → Option Place
  | 0, ps => fs.go? missing (fun _ => none) [] ps
  | n + 1, ps => fs.go? missing (fs.goThrough? missing n) [] ps

/-- How many links one path may lead through. -/
def maxLinks : Nat := 40

/-- The place that a path leads to, if there is an entry. -/
def locate? (fs : FileSystem) (p : Path) : Option Place :=
  fs.goThrough? (fun _ => none) maxLinks p.pieces

/-- The place where a file that is written under a path ends up: that of the entry the path leads
to, or a new one in a directory that is there. -/
def target? (fs : FileSystem) (p : Path) : Option Place := fs.goThrough? some maxLinks p.pieces

def isDirectory (fs : FileSystem) (p : Path) : Bool :=
  match fs.locate? p with
  | some place => fs.isDirectoryAt place
  | none => false

/-- The text of the file that a path leads to, if the path leads to a file and its bytes are
text. -/
def read? (fs : FileSystem) (p : Path) : Option String :=
  match (fs.locate? p).bind fs.entry? with
  | some (.file bytes) => String.fromUTF8? bytes
  | _ => none

/-! ## Making entries -/

/-- Puts an entry at a place, instead of the one that is there. -/
def put (fs : FileSystem) (place : Place) (e : Entry) : FileSystem :=
  ⟨fs.entries.filter (·.1 ≠ place) ++ [(place, e)]⟩

/-- Makes the directories that some steps lead through where they are missing, and gives the place
that they end at. A file in the way, a link that leads to no directory, or a step out of the top
directory stops it. -/
def makeDirectories (fs : FileSystem) : Place → List Component → Option (Place × FileSystem)
  | here, [] => some (here, fs)
  | _, .root :: cs => makeDirectories fs [] cs
  | here, .current :: cs => makeDirectories fs here cs
  | here, .parent :: cs => if here.isEmpty then none else makeDirectories fs here.dropLast cs
  | here, .normal x :: cs =>
    match fs.entry? (here ++ [x]) with
    | none => makeDirectories (fs.put (here ++ [x]) .directory) (here ++ [x]) cs
    | some .directory => makeDirectories fs (here ++ [x]) cs
    | some (.file _) => none
    | some (.link target) =>
      match fs.locate? target with
      | some dest => if fs.isDirectoryAt dest then makeDirectories fs dest cs else none
      | none => none

/-- Makes a directory and the directories around it. -/
def addDirectory (fs : FileSystem) (p : Path) : FileSystem :=
  ((fs.makeDirectories [] p.components).map (·.2)).getD fs

/-- Writes a file, and makes the directories around it. A file or a link that is there already
decides where the bytes go. -/
def addFile (fs : FileSystem) (p : Path) (bytes : ByteArray) : FileSystem :=
  match fs.makeDirectories [] p.components.dropLast with
  | none => fs
  | some (_, fs) =>
    match fs.target? p with
    | some place => if fs.isDirectoryAt place then fs else fs.put place (.file bytes)
    | none => fs

/-- Makes a link, and the directories around it, where there is no entry yet. -/
def addLink (fs : FileSystem) (p target : Path) : FileSystem :=
  match p.components.getLast?, fs.makeDirectories [] p.components.dropLast with
  | some (.normal x), some (here, fs) =>
    match fs.entry? (here ++ [x]) with
    | none => fs.put (here ++ [x]) (.link target)
    | some _ => fs
  | _, _ => fs

/-! ## Visiting a directory -/

/-- What a walk meets: an entry, or something that it cannot visit, perhaps without a path. -/
inductive Visit
  | entry (path : Path) (isFile : Bool)
  | failure (path : Option Path)
deriving DecidableEq, Repr, Inhabited

/-- The names in a directory, with what they stand for. -/
def namesIn (fs : FileSystem) (place : Place) : List (String × Entry) :=
  fs.entries.filterMap fun (p, e) =>
    match p.getLast? with
    | some x => if p.dropLast = place then some (x, e) else none
    | none => none

/-- What is met at and below a directory, `levels` deep. `visiting` are the places of the
directories around it, itself included. -/
def walkFrom (fs : FileSystem) : (levels : Nat) → List Place → Place → Path → List Visit
  | 0, _, _, _ => []
  | n + 1, visiting, place, path =>
    .entry path false :: (fs.namesIn place).flatMap fun (x, e) =>
      match e with
      | .file _ => [.entry (path.join x) true]
      | .directory =>
        fs.walkFrom n ((place ++ [x]) :: visiting) (place ++ [x]) (path.join x)
      | .link _ =>
        match fs.locate? (path.join x) with
        | none => [.failure (some (path.join x))]
        | some dest =>
          if !fs.isDirectoryAt dest then [.entry (path.join x) true]
          else if dest ∈ visiting then [.failure (some (path.join x))]
          else fs.walkFrom n (dest :: visiting) dest (path.join x)

/-- How deep a walk can get. Between two links it can only go down, and no link leads back to a
directory that is being visited. -/
def maxLevels (fs : FileSystem) : Nat := (fs.entries.length + 2) * (fs.entries.length + 2)

/-- Everything at and below the directory that a path leads to. -/
def walk (fs : FileSystem) (p : Path) : List Visit :=
  match fs.locate? p with
  | none => []
  | some place => fs.walkFrom fs.maxLevels [place] place p

end FileSystem

/-! ## Disks -/

/-- What can be asked of files on disk: whether a path leads to a directory, what is met at and
below it, and what the text of a file is. -/
structure Disk where
  isDirectory : Path → Bool
  walk : Path → List FileSystem.Visit
  read? : Path → Option String

/-- The answers of files that are held in memory. -/
def FileSystem.disk (fs : FileSystem) : Disk := ⟨fs.isDirectory, fs.walk, fs.read?⟩

end ClassNav
