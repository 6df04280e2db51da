import DeskCalc.Fault

/-!
# Disks

A disk is a set of files and directories under absolute names, with a working directory from which
relative paths start.  A path is walked name by name: `.` stays, `..` goes up, any other name must
be a directory unless it is the last.  Reading and writing fail for the reasons a file system
gives, and a failed write changes nothing.

Names and paths have a greatest size, counted in bytes.  The size of a path is looked at before the
walk begins, that of a name when its turn comes, so an earlier name that leads nowhere is reported
first.

* `Disk.pathFault?`  what is wrong with a path whatever the disk holds;
* `Disk.entry?`      what stands under an absolute name;
* `Disk.walk`        where a path leads;
* `Disk.read`, `Disk.readText`, `Disk.write`   the contents of a file, as bytes and as text, and
                     new contents for it.
-/

namespace DeskCalc

inductive Disk.Entry
  | file (bytes : ByteArray)
  | directory

/-- files and directories under their absolute names, and the working directory -/
structure Disk where
  entries : List (List String × Disk.Entry) := []
  home : List String := []

namespace Disk

/-- what stands under an absolute name; above the working directory and above every entry there are
directories -/
def entry? (d : Disk) (name : List String) : Option Entry :=
  match d.entries.lookup name with
  | some e => some e
  | none =>
    if name.isPrefixOf d.home || d.entries.any fun e => name.isPrefixOf e.1 then some .directory
    else none

/-- put an entry under an absolute name, in place of what was there -/
def put (d : Disk) (name : List String) (e : Entry) : Disk :=
  { d with entries := (name, e) :: d.entries.filter fun x => x.1 != name }

/-! ## Paths -/

def maxName : Nat := 255

def maxPath : Nat := 4095

/-- what is wrong with a path before anybody walks it -/
def pathFault? (path : String) : Option FileFault :=
  if path.toList.contains (Char.ofNat 0) then some .zeroInPath
  else if maxPath < path.utf8ByteSize then some .nameTooLong
  else if path = "" then some .notFound
  else none

def isTooLong (name : String) : Bool := maxName < name.utf8ByteSize

def names (path : String) : List String := (path.splitOn "/").filter (· ≠ "")

def start (d : Disk) (path : String) : List String := if path.startsWith "/" then [] else d.home

/-- where a path leads: an absolute name, and what stands there; only under the last name of a path
may there be nothing, and the size of that name is left to whoever uses it -/
def walk (d : Disk) : List String → List String → Except FileFault (List String × Option Entry)
  | here, [] => .ok (here, some .directory)
  | here, name :: rest =>
    if name = "." then walk d here rest
    else if name = ".." then walk d here.dropLast rest
    else
      match rest with
      | [] => .ok (here ++ [name], d.entry? (here ++ [name]))
      | _ :: _ =>
        if isTooLong name then .error .nameTooLong
        else
          match d.entry? (here ++ [name]) with
          | some .directory => walk d (here ++ [name]) rest
          | some (.file _) => .error .notDirectory
          | none => .error .notFound

/-- where a path leads, if it is one that can be walked -/
def resolve (d : Disk) (path : String) : Except FileFault (List String × Option Entry) :=
  match pathFault? path with
  | some f => .error f
  | none => d.walk (d.start path) (names path)

/-- the fault of an absolute name under which nothing is found -/
def missing (name : List String) : FileFault :=
  if name.getLast?.any isTooLong then .nameTooLong else .notFound

/-! ## Files -/

/-- the contents of a file; a path that ends in a slash asks for a directory -/
def read (d : Disk) (path : String) : Except FileFault ByteArray :=
  match d.resolve path with
  | .error f => .error f
  | .ok (name, none) => .error (missing name)
  | .ok (_, some .directory) => .error .isDirectory
  | .ok (_, some (.file bytes)) => if path.endsWith "/" then .error .notDirectory else .ok bytes

def readText (d : Disk) (path : String) : Except FileFault String :=
  match d.read path with
  | .error f => .error f
  | .ok bytes =>
    match String.fromUTF8? bytes with
    | some text => .ok text
    | none => .error .notText

/-- a file with new contents, made if there was none; a path that ends in a slash names no file,
however long the name before the slash is -/
def write (d : Disk) (path : String) (text : String) : Except FileFault Disk :=
  match d.resolve path with
  | .error f => .error f
  | .ok (_, some .directory) => .error .isDirectory
  | .ok (name, _) =>
    if path.endsWith "/" then .error .isDirectory
    else if name.getLast?.any isTooLong then .error .nameTooLong
    else .ok (d.put name (.file text.toUTF8))

end Disk
end DeskCalc
