/-!
# Library references

A project names a library it needs as `haxelib|name|version`. `LibraryRef.parse` reads such a text
and `LibraryRef.display` writes it.
-/

namespace ClassNav

/-- A library and the version of it that a project needs; the version may be empty. -/
structure LibraryRef where
  name : String
  version : String
deriving DecidableEq, Repr, Inhabited

/-- Why a text is no library reference. -/
inductive LibraryError
  | fieldCount (found : Nat)
  | unknownSource (source : String)
  | emptyName
deriving DecidableEq, Repr, Inhabited

def LibraryError.message : LibraryError → String
  | fieldCount n => "expected 3 `|`-separated fields, found " ++ toString n
  | unknownSource s => "unknown library source `" ++ s ++ "`, expected `haxelib`"
  | emptyName => "library name is empty"

namespace LibraryRef

/-- The only source that libraries come from. -/
def source : String := "haxelib"

def separator : Char := '|'

def display (r : LibraryRef) : String :=
  String.ofList ([separator].intercalate [source.toList, r.name.toList, r.version.toList])

/-- Reads a library reference. The number of fields is checked first, then the source, then the
name. -/
def parse (s : String) : Except LibraryError LibraryRef :=
  match s.toList.splitOn separator with
  | [src, name, version] =>
    if src ≠ source.toList then .error (.unknownSource (String.ofList src))
    else if name = [] then .error .emptyName
    else .ok ⟨String.ofList name, String.ofList version⟩
  | fs => .error (.fieldCount fs.length)

example : (parse "haxelib|lime|8.1.2").toOption = some ⟨"lime", "8.1.2"⟩ := by decide +kernel

example : (parse "haxelib||1").toOption = none := by decide +kernel

end LibraryRef

end ClassNav
