import DeskCalc.Compiler
import DeskCalc.Proofs.Tables

/-!
# What a program declares

A declaration asks for an entry in the table, and nothing else does.  So the table that a check
leaves is known without the check: the declarations of the program, entered in a row
(`table_checkItems`).  A check that finds no fault has found no name twice, and then the table
is the old one with the declarations as they come (`entries_of_faultless`).

* `Item.entry?`       the entry that an item asks for;
* `declarations`      the entries that a row of items asks for;
* `declaredNames`     their names.
-/

namespace DeskCalc

/-- the entry that an item asks for; its register is not known yet -/
def Item.entry? : Item → Option Symbol
  | declare declared id _ _ => some { name := id.name, type := declared }
  | assign .. | print .. => none

/-- the entries that a row of items asks for, in their order -/
def declarations (is : List Item) : List Symbol := is.filterMap Item.entry?

/-- the names that a row of items declares, with repetitions -/
def declaredNames (is : List Item) : List String := (declarations is).map Symbol.name

theorem declarations_nil : declarations [] = [] := rfl

theorem declarations_cons (i : Item) (is : List Item) :
    declarations (i :: is) = i.entry?.toList ++ declarations is := by
  show (i :: is).filterMap Item.entry? = _
  rw [List.filterMap_cons]
  cases i.entry? <;> rfl

theorem declarations_append (is js : List Item) :
    declarations (is ++ js) = declarations is ++ declarations js := List.filterMap_append

theorem declaredNames_cons (i : Item) (is : List Item) :
    declaredNames (i :: is) = i.entry?.toList.map Symbol.name ++ declaredNames is := by
  rw [declaredNames, declarations_cons, List.map_append]
  rfl

theorem register_of_mem_declarations {is : List Item} {s : Symbol} (h : s ∈ declarations is) :
    s.register = none := by
  obtain ⟨i, _, hi⟩ := List.mem_filterMap.mp h
  cases i with
  | declare declared id t p =>
    obtain rfl := Option.some.inj hi
    rfl
  | assign target value t p => cases hi
  | print id t p => cases hi

/-! ## The table of a check -/

theorem table_check (t : SymbolTable) (i : Item) :
    (i.check t).table = t.enterAll i.entry?.toList := by
  cases i with
  | declare declared id _ p =>
    show (checkDeclare t declared id p).table = (t.enter { name := id.name, type := declared }).2
    unfold checkDeclare
    split
    next h => rw [h]
    next h => rw [h]
  | assign target value _ p =>
    show (checkAssign t target value p).table = t
    unfold checkAssign
    dsimp only
    split <;> rfl
  | print id _ p => rfl

theorem nodup_names_check {t : SymbolTable} (hn : t.names.Nodup) (i : Item) :
    (i.check t).table.names.Nodup := by
  rw [table_check]
  exact SymbolTable.nodup_names_enterAll hn _

/-- **The table of a check** holds the declarations of the program, whatever else is in it. -/
theorem table_checkItems (t : SymbolTable) (is : List Item) :
    (checkItems t is).table = t.enterAll (declarations is) := by
  induction is generalizing t with
  | nil => rfl
  | cons i is ih =>
    rw [declarations_cons, SymbolTable.enterAll_append, ← table_check, ← ih]
    rfl

theorem entry?_check (t : SymbolTable) (i : Item) : (i.check t).node.entry? = i.entry? := by
  cases i with
  | declare declared id _ p =>
    show (checkDeclare t declared id p).node.entry? = _
    unfold checkDeclare
    split <;> rfl
  | assign target value _ p =>
    show (checkAssign t target value p).node.entry? = none
    unfold checkAssign
    dsimp only
    split <;> rfl
  | print id _ p => rfl

theorem declarations_checkItems (t : SymbolTable) (is : List Item) :
    declarations (checkItems t is).node = declarations is := by
  induction is generalizing t with
  | nil => rfl
  | cons i is ih =>
    show declarations ((i.check t).node :: (checkItems (i.check t).table is).node) = _
    rw [declarations_cons, declarations_cons, entry?_check, ih]

/-! ## Checks that find nothing -/

theorem not_mem_of_faultless {t : SymbolTable} {i : Item} (h : (i.check t).faults = [])
    {s : Symbol} (hs : i.entry? = some s) : s.name ∉ t.names := by
  cases i with
  | declare declared id _ p =>
    obtain rfl := Option.some.inj hs
    intro hm
    have e : (checkDeclare t declared id p).faults = [.duplicate id.name id.pos] := by
      unfold checkDeclare
      rw [SymbolTable.enter_of_mem hm]
    exact absurd (e.symm.trans h) (List.cons_ne_nil _ _)
  | assign target value _ p => cases hs
  | print id _ p => cases hs

theorem nodup_of_faultless {t : SymbolTable} (hn : t.names.Nodup) {is : List Item}
    (h : (checkItems t is).faults = []) : (t.names ++ declaredNames is).Nodup := by
  induction is generalizing t with
  | nil =>
    show (t.names ++ []).Nodup
    rwa [List.append_nil]
  | cons i is ih =>
    rw [checkItems_cons] at h
    obtain ⟨hi, his⟩ := List.append_eq_nil_iff.mp h
    have ih' := ih (nodup_names_check hn i) his
    rw [table_check] at ih'
    rw [declaredNames_cons]
    cases e : i.entry? with
    | none =>
      rw [e] at ih'
      exact ih'
    | some s =>
      have hs := not_mem_of_faultless hi e
      rw [e] at ih'
      have en : (t.enterAll (some s).toList).names = t.names ++ [s.name] :=
        SymbolTable.names_enter_of_not_mem hs
      rw [en, List.append_assoc] at ih'
      exact ih'

theorem entries_of_faultless {t : SymbolTable} (hn : t.names.Nodup) {is : List Item}
    (h : (checkItems t is).faults = []) :
    (checkItems t is).table.entries = t.entries ++ declarations is := by
  rw [table_checkItems]
  exact SymbolTable.entries_enterAll t _ (nodup_of_faultless hn h)

end DeskCalc
