import DeskCalc.Text
import DeskCalc.Tree

/-!
# Symbol tables

A table lists the declared variables in the order in which they were entered; the handle of an
entry is its place in the list.  A name is entered once: a second attempt changes nothing.  A handle
that comes from another table is no fault of its own, it finds nothing or an entry of another name,
so whoever holds one has to compare names.

* `enter`      a new entry behind the others, and its handle;
* `handle?`    the handle of a name;
* `entry?`     the entry of a handle;
* `lookup?`    both of a name;
* `modify`     a change of one entry's type or register;
* `render`     the table in columns.
-/

namespace DeskCalc

/-- what is known of a variable: its declared type and, once code is made, its register -/
structure Symbol where
  name : String
  type : NumType
  register : Option Char := none
deriving DecidableEq

/-- the variables of a program in the order of their entry -/
structure SymbolTable where
  entries : List Symbol := []
deriving DecidableEq

namespace SymbolTable

def empty : SymbolTable := ⟨[]⟩

def size (t : SymbolTable) : Nat := t.entries.length

def isEmpty (t : SymbolTable) : Bool := t.entries.isEmpty

def names (t : SymbolTable) : List String := t.entries.map Symbol.name

def handle? (t : SymbolTable) (name : String) : Option Handle :=
  t.entries.findIdx? fun s => s.name == name

def entry? (t : SymbolTable) (h : Handle) : Option Symbol := t.entries[h]?

def name? (t : SymbolTable) (h : Handle) : Option String := (t.entry? h).map Symbol.name

def lookup? (t : SymbolTable) (name : String) : Option (Handle × Symbol) :=
  (t.handle? name).bind fun h => (t.entry? h).map fun s => (h, s)

/-- enter a new name; a name that is there already keeps its entry and gets no handle -/
def enter (t : SymbolTable) (s : Symbol) : Option Handle × SymbolTable :=
  match t.handle? s.name with
  | some _ => (none, t)
  | none => (some t.size, ⟨t.entries ++ [s]⟩)

/-- change the entry of a handle; a handle without an entry changes nothing -/
def modify (t : SymbolTable) (h : Handle) (f : Symbol → Symbol) : SymbolTable :=
  ⟨t.entries.modify h f⟩

def setRegister (t : SymbolTable) (h : Handle) (r : Option Char) : SymbolTable :=
  t.modify h fun s => { s with register := r }

def setType (t : SymbolTable) (h : Handle) (type : NumType) : SymbolTable :=
  t.modify h fun s => { s with type := type }

/-! ## One law for each operation -/

@[simp] theorem entries_empty : empty.entries = [] := rfl

theorem handle?_eq_none_iff {t : SymbolTable} {name : String} :
    t.handle? name = none ↔ name ∉ t.names := by
  rw [handle?, List.findIdx?_eq_none_iff, names, List.mem_map]
  constructor
  · rintro h ⟨s, hs, rfl⟩
    exact absurd (h s hs) (by simp)
  · intro h s hs
    exact beq_eq_false_iff_ne.mpr fun e => h ⟨s, hs, e⟩

theorem enter_of_mem {t : SymbolTable} {s : Symbol} (h : s.name ∈ t.names) :
    t.enter s = (none, t) := by
  unfold enter
  cases e : t.handle? s.name with
  | none => exact absurd h (handle?_eq_none_iff.mp e)
  | some _ => rfl

theorem enter_of_not_mem {t : SymbolTable} {s : Symbol} (h : s.name ∉ t.names) :
    t.enter s = (some t.size, ⟨t.entries ++ [s]⟩) := by
  unfold enter
  rw [handle?_eq_none_iff.mpr h]

theorem size_modify (t : SymbolTable) (h : Handle) (f : Symbol → Symbol) :
    (t.modify h f).size = t.size := List.length_modify ..

/-! ## Text -/

/-- an entry in columns: twelve characters for the name, eight for the type, then the register -/
def row (s : Symbol) : String :=
  Text.padRight 12 s.name ++ Text.padRight 8 s.type.name ++
    (match s.register with
      | some r => String.singleton r
      | none => "-") ++ "\n"

/-- the table in columns under its heading -/
def render (t : SymbolTable) : String :=
  "symbol table\n=============\n" ++ Text.joinWith "" (t.entries.map row)

end SymbolTable
end DeskCalc
