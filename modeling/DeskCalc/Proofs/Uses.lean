import DeskCalc.Proofs.Registers

/-!
# Names in the order of the code

The code of an item asks for registers in a fixed order, the variables of an expression from left to
right and the target of an assignment behind them.  Two walks meet in these names: the check gives
each of them a handle, the code asks the table under that handle.

* `Expr.reads`, `Item.uses`      the identifiers whose registers the code asks for, in its order;
* `Item.declared?`               the identifier that gets a register, if the item is a declaration;
* `SymbolTable.missing?`         the fault of the first identifier in a row that has no register;
                                 it is the fault of the code (`fault_emit_expr`, `fault_emit`);
* `resolve?_uses`                what a check without faults leaves on the names: each of them leads
                                 to an entry of its own, and that entry was there before the item.
-/

namespace DeskCalc

/-! ## The names of an item -/

/-- the variables of an expression from left to right -/
def Expr.reads : Expr → List Identifier
  | const .. => []
  | deref id _ _ => [id]
  | binary _ left right _ _ => left.reads ++ right.reads
  | convert inner _ _ => inner.reads

/-- the identifiers whose registers the code of an item asks for, in the order of the code -/
def Item.uses : Item → List Identifier
  | declare .. => []
  | assign target value _ _ => value.reads ++ [target]
  | print id _ _ => [id]

def Item.declared? : Item → Option Identifier
  | declare _ id _ _ => some id
  | assign .. | print .. => none

def declaredIdentifiers (is : List Item) : List Identifier := is.filterMap Item.declared?

theorem declaredIdentifiers_cons (i : Item) (is : List Item) :
    declaredIdentifiers (i :: is) = i.declared?.toList ++ declaredIdentifiers is := by
  show (i :: is).filterMap Item.declared? = _
  rw [List.filterMap_cons]
  cases i.declared? <;> rfl

theorem names_declaredIdentifiers (is : List Item) :
    (declaredIdentifiers is).map Identifier.name = declaredNames is := by
  induction is with
  | nil => rfl
  | cons i is ih =>
    rw [declaredIdentifiers_cons, declaredNames_cons, List.map_append, ih]
    cases i <;> rfl

theorem length_declaredIdentifiers (is : List Item) :
    (declaredIdentifiers is).length = (declarations is).length := by
  have h := congrArg List.length (names_declaredIdentifiers is)
  rwa [List.length_map, declaredNames, List.length_map] at h

/-! ## The first name without a register -/

theorem Emitted.fault_andThen (a b : Emitted) : (a.andThen b).fault = a.fault.or b.fault := by
  cases h : a.fault with
  | some f => rw [andThen_of_fault h, h, Option.some_or]
  | none => rw [andThen_of_none h, Option.none_or]

/-- the fault of the first identifier in a row that leads to no register -/
def SymbolTable.missing? (t : SymbolTable) (ids : List Identifier) : Option CodeFault :=
  (ids.find? fun id => (t.register? id).isNone).map Identifier.unresolved

theorem SymbolTable.missing?_append (t : SymbolTable) (ids ids' : List Identifier) :
    t.missing? (ids ++ ids') = (t.missing? ids).or (t.missing? ids') := by
  rw [missing?, List.find?_append, Option.map_or]
  rfl

theorem SymbolTable.missing?_eq_none {t : SymbolTable} {ids : List Identifier}
    (h : ∀ id ∈ ids, ∃ r, t.register? id = some r) : t.missing? ids = none := by
  have hfind : (ids.find? fun id => (t.register? id).isNone) = none := by
    rw [List.find?_eq_none]
    intro id hid
    obtain ⟨r, hr⟩ := h id hid
    simp [hr]
  rw [missing?, hfind, Option.map_none]

theorem fault_emitWith (t : SymbolTable) (id : Identifier) (code : Char → List Instruction) :
    (emitWith t id code).fault = t.missing? [id] := by
  unfold emitWith SymbolTable.missing?
  cases h : t.register? id with
  | none => simp [h]
  | some r => simp [h]

theorem fault_emit_expr (t : SymbolTable) (e : Expr) : (e.emit t).fault = t.missing? e.reads := by
  induction e with
  | const value declared type p => rfl
  | deref id type p => exact fault_emitWith t id _
  | binary op left right type p ihl ihr =>
    rw [Expr.emit, Emitted.fault_andThen, Emitted.fault_andThen, ihl, ihr, Option.or_none,
      Expr.reads, SymbolTable.missing?_append]
  | convert inner type p ih =>
    rw [Expr.emit, Emitted.fault_andThen, ih, Option.or_none, Expr.reads]

/-- The code of a statement fails at the first name without a register, in the order of the code. -/
theorem fault_emit (a : Allocation) {i : Item} (h : i.declared? = none) :
    (i.emit a).1.fault = a.table.missing? i.uses := by
  cases i with
  | declare declared id type p => cases h
  | assign target value type p =>
    show ((value.emit a.table).andThen (emitWith a.table target _)).fault = _
    rw [Emitted.fault_andThen, fault_emit_expr, fault_emitWith, Item.uses,
      SymbolTable.missing?_append]
  | print id type p => exact fault_emitWith a.table id _

theorem emit_snd_of_statement (a : Allocation) {i : Item} (h : i.declared? = none) :
    (i.emit a).2 = a := by
  cases i with
  | declare declared id type p => cases h
  | assign target value type p => rfl
  | print id type p => rfl

/-! ## Handles -/

theorem SymbolTable.name?_eq_names (t : SymbolTable) (k : Handle) : t.name? k = t.names[k]? :=
  List.getElem?_map.symm

theorem SymbolTable.resolve?_eq_some_iff {t : SymbolTable} {id : Identifier} {k : Handle} :
    t.resolve? id = some k ↔ id.symbol = some k ∧ t.names[k]? = some id.name := by
  rw [resolve?, Option.filter_eq_some_iff, beq_iff_eq, name?_eq_names]

theorem SymbolTable.mem_names_of_resolve? {t : SymbolTable} {id : Identifier} {k : Handle}
    (h : t.resolve? id = some k) : id.name ∈ t.names :=
  List.mem_of_getElem? (resolve?_eq_some_iff.mp h).2

theorem SymbolTable.lt_size_of_resolve? {t : SymbolTable} {id : Identifier} {k : Handle}
    (h : t.resolve? id = some k) : k < t.size := by
  have hk := (List.getElem?_eq_some_iff.mp (resolve?_eq_some_iff.mp h).2).1
  rwa [names, List.length_map] at hk

theorem SymbolTable.resolve?_of_extends {t t' : SymbolTable} {more : List String}
    (hn : t'.names = t.names ++ more) {id : Identifier} {k : Handle}
    (h : t.resolve? id = some k) : t'.resolve? id = some k := by
  obtain ⟨hs, hk⟩ := resolve?_eq_some_iff.mp h
  rw [resolve?_eq_some_iff, hn, List.getElem?_append_left (List.getElem?_eq_some_iff.mp hk).1]
  exact ⟨hs, hk⟩

section Check
variable {t : SymbolTable}

theorem name_check (t : SymbolTable) (id : Identifier) : (id.check t).node.name = id.name := by
  unfold Identifier.check
  split <;> rfl

theorem resolve?_check {id : Identifier} (h : (id.check t).faults = []) :
    ∃ k, t.resolve? (id.check t).node = some k := by
  unfold Identifier.check at h ⊢
  cases hl : t.lookup? id.name with
  | none =>
    rw [hl] at h
    cases h
  | some ks =>
    obtain ⟨k, hk, he⟩ := Option.bind_eq_some_iff.mp hl
    obtain ⟨s, hs, rfl⟩ := Option.map_eq_some_iff.mp he
    refine ⟨k, SymbolTable.resolve?_eq_some_iff.mpr ⟨rfl, ?_⟩⟩
    obtain ⟨hlt, hname, -⟩ := List.findIdx?_eq_some_iff_getElem.mp hk
    rw [SymbolTable.names, List.getElem?_map, List.getElem?_eq_getElem hlt]
    exact congrArg some (beq_iff_eq.mp hname)

theorem Checked.reads_as (c : Checked Expr) (s : CheckedType) : (c.as s).reads = c.node.reads := by
  unfold Checked.as
  split <;> rfl

theorem resolve?_reads {e : Expr} (h : (e.check t).faults = []) :
    ∀ id ∈ (e.check t).node.reads, ∃ k, t.resolve? id = some k := by
  induction e with
  | const value declared type p => exact fun id hid => absurd hid List.not_mem_nil
  | deref id type p =>
    intro id' hid
    obtain rfl := List.mem_singleton.mp hid
    exact resolve?_check h
  | binary op left right type p ihl ihr =>
    obtain ⟨hlr, -⟩ := List.append_eq_nil_iff.mp h
    obtain ⟨hl, hr⟩ := List.append_eq_nil_iff.mp hlr
    intro id hid
    have hreads : (Expr.check t (.binary op left right type p)).node.reads =
        (left.check t).node.reads ++ (right.check t).node.reads := by
      show ((left.check t).as _).reads ++ ((right.check t).as _).reads = _
      rw [Checked.reads_as, Checked.reads_as]
    rw [hreads] at hid
    rcases List.mem_append.mp hid with hid | hid
    · exact ihl hl id hid
    · exact ihr hr id hid
  | convert inner type p ih => exact ih h

theorem exists_node_checkAssign (t : SymbolTable) (target : Identifier) (value : Expr)
    (p : Position) :
    ∃ s type, (checkAssign t target value p).node =
      .assign (target.check t).node ((value.check t).as s) type p := by
  unfold checkAssign
  dsimp only
  split
  · exact ⟨(target.check t).type, some (target.check t).type, rfl⟩
  · have has : (value.check t).as .void = (value.check t).node := if_neg (by simp)
    exact ⟨.void, some .error, by rw [has]⟩

theorem faults_parts_of_checkAssign {target : Identifier} {value : Expr} {p : Position}
    (h : (checkAssign t target value p).faults = []) :
    (target.check t).faults = [] ∧ (value.check t).faults = [] := by
  unfold checkAssign at h
  dsimp only at h
  split at h
  · exact List.append_eq_nil_iff.mp h
  · exact List.append_eq_nil_iff.mp (List.append_eq_nil_iff.mp h).1

theorem uses_checkDeclare (t : SymbolTable) (declared : NumType) (id : Identifier) (p : Position) :
    (checkDeclare t declared id p).node.uses = [] := by
  unfold checkDeclare
  split <;> rfl

/-- **Names behind a check.**  Where a check finds no fault, every name that an item uses leads to an
entry of the table before the item. -/
theorem resolve?_uses {i : Item} (h : (i.check t).faults = []) :
    ∀ id ∈ (i.check t).node.uses, ∃ k, t.resolve? id = some k := by
  cases i with
  | declare declared id type p =>
    intro id' hid
    rw [Item.check, uses_checkDeclare] at hid
    exact absurd hid List.not_mem_nil
  | assign target value type p =>
    intro id hid
    obtain ⟨ht, hv⟩ := faults_parts_of_checkAssign h
    obtain ⟨s, type', hnode⟩ := exists_node_checkAssign t target value p
    rw [Item.check, hnode, Item.uses, Checked.reads_as] at hid
    rcases List.mem_append.mp hid with hid | hid
    · exact resolve?_reads hv id hid
    · obtain rfl := List.mem_singleton.mp hid
      exact resolve?_check ht
  | print id type p =>
    intro id' hid
    obtain rfl := List.mem_singleton.mp hid
    exact resolve?_check h

end Check
end DeskCalc
