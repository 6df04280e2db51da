import DeskCalc.Proofs.Marks
import DeskCalc.Proofs.Sharing
import Mathlib.Data.List.Forall2
import Mathlib.Data.Set.Function

/-!
# Names and places do not matter

A check and the code behind it compare names with each other and look at nothing else of them; of
places they take no notice but to report them.  So a program whose variables are given other names,
different ones for different variables, and whose nodes are moved to other places, is treated alike:
each step on the relabeled parts is the relabeled step.

This goes along both walks, from a single name over expressions and items to rows of items
(`checkItems_relabel`, `emitItems_relabel`).  A relabeling need not be injective everywhere, but only
on a set `S` of names in which the walk stays: it holds the names of the table and those of the tree.

* `Relabeling`             new names and new places, and what they make of tables, trees and faults;
* `Relabeling.Reports`     a semantic fault, and the same fault of the relabeled program;
* `compile_rename`         programs that differ in the names of their variables.
-/

namespace DeskCalc

structure Relabeling where
  name : String → String := fun n => n
  place : Position → Position := fun p => p

namespace Relabeling
variable (ρ : Relabeling)

def revision : Revision where
  identifier id := { id with name := ρ.name id.name, pos := ρ.place id.pos }
  place := ρ.place

def symbol (s : Symbol) : Symbol := { s with name := ρ.name s.name }

def table (t : SymbolTable) : SymbolTable := ⟨t.entries.map ρ.symbol⟩

def allocation (a : Allocation) : Allocation := { a with table := ρ.table a.table }

def codeFault : CodeFault → CodeFault
  | .illTyped => .illTyped
  | .noRegister name p => .noRegister (ρ.name name) (ρ.place p)
  | .unresolved name p => .unresolved (ρ.name name) (ρ.place p)

def emitted (e : Emitted) : Emitted := { e with fault := e.fault.map ρ.codeFault }

/-- a fault, and what becomes of it when the variable it names and the place it is about are
relabeled -/
inductive Reports : SemanticFault → SemanticFault → Prop
  | duplicate (name : String) (p : Position) :
    Reports (.duplicate name p) (.duplicate (ρ.name name) (ρ.place p))
  | undeclared (name : String) (p : Position) :
    Reports (.undeclared name p) (.undeclared (ρ.name name) (ρ.place p))
  | assignment (target source : CheckedType) (p : Position) :
    Reports (.assignment target source p) (.assignment target source (ρ.place p))
  | operands (op : Operator) (left right : CheckedType) (p : Position) :
    Reports (.operands op left right p) (.operands op left right (ρ.place p))

theorem Reports.kind_pos {ρ : Relabeling} {f f' : SemanticFault} (h : ρ.Reports f f') :
    f'.kind = f.kind ∧ f'.pos = ρ.place f.pos := by
  cases h <;> exact ⟨rfl, rfl⟩

theorem map_kind_pos {ρ : Relabeling} {fs fs' : List SemanticFault}
    (h : List.Forall₂ ρ.Reports fs fs') :
    fs'.map (fun f => (f.kind, f.pos)) = fs.map (fun f => (f.kind, ρ.place f.pos)) := by
  induction h with
  | nil => rfl
  | cons hf _ ih =>
    obtain ⟨hkind, hpos⟩ := hf.kind_pos
    rw [List.map_cons, List.map_cons, ih, hkind, hpos]

end Relabeling

def Item.names (i : Item) : List String := (i.declared?.toList ++ i.uses).map Identifier.name

def Program.names (p : Program) : List String := p.items.flatMap Item.names

theorem names_assign_inv {S : Set String} {target : Identifier} {value : Expr}
    {type : Option CheckedType} {p : Position}
    (h : ∀ m ∈ (Item.assign target value type p).names, m ∈ S) :
    target.name ∈ S ∧ ∀ id ∈ value.reads, id.name ∈ S := by
  constructor
  · exact h target.name (by simp [Item.names, Item.uses])
  · intro id hid
    refine h id.name (List.mem_map_of_mem ?_)
    exact List.mem_append_right _ (List.mem_append_left _ hid)

/-! ## Tables -/

section Table
variable {ρ : Relabeling} {S : Set String} {t : SymbolTable} {n : String}

theorem name_beq_relabel (hρ : Set.InjOn ρ.name S) {m : String} (hm : m ∈ S) (hn : n ∈ S) :
    (ρ.name m == ρ.name n) = (m == n) := by
  rw [Bool.eq_iff_iff, beq_iff_eq, beq_iff_eq]
  exact hρ.eq_iff hm hn

theorem entry?_relabel (ρ : Relabeling) (t : SymbolTable) (k : Handle) :
    SymbolTable.entry? (ρ.table t) k = (t.entry? k).map ρ.symbol := List.getElem?_map

theorem names_relabel (ρ : Relabeling) (t : SymbolTable) :
    (ρ.table t).names = t.names.map ρ.name := by
  show (t.entries.map ρ.symbol).map Symbol.name = (t.entries.map Symbol.name).map ρ.name
  rw [List.map_map, List.map_map]
  rfl

theorem mem_names_relabel (hρ : Set.InjOn ρ.name S) (ht : ∀ m ∈ t.names, m ∈ S) (hn : n ∈ S) :
    ρ.name n ∈ (ρ.table t).names ↔ n ∈ t.names := by
  rw [names_relabel, List.mem_map]
  constructor
  · rintro ⟨m, hm, e⟩
    exact hρ (ht m hm) hn e ▸ hm
  · intro h
    exact ⟨n, h, rfl⟩

theorem handle?_relabel (hρ : Set.InjOn ρ.name S) (ht : ∀ m ∈ t.names, m ∈ S) (hn : n ∈ S) :
    (ρ.table t).handle? (ρ.name n) = t.handle? n := by
  show (t.entries.map ρ.symbol).findIdx? _ = _
  rw [List.findIdx?_map]
  obtain ⟨ss⟩ := t
  induction ss with
  | nil => rfl
  | cons s ss ih =>
    have hs : (ρ.name s.name == ρ.name n) = (s.name == n) :=
      name_beq_relabel hρ (ht s.name (by simp [SymbolTable.names])) hn
    have hss := ih fun m hm => ht m (List.mem_cons_of_mem _ hm)
    simp only [SymbolTable.handle?, List.findIdx?_cons, Function.comp] at hss ⊢
    rw [hss]
    simp only [Relabeling.symbol, hs]

theorem lookup?_relabel (hρ : Set.InjOn ρ.name S) (ht : ∀ m ∈ t.names, m ∈ S) (hn : n ∈ S) :
    (ρ.table t).lookup? (ρ.name n) = (t.lookup? n).map fun ks => (ks.1, ρ.symbol ks.2) := by
  unfold SymbolTable.lookup?
  rw [handle?_relabel hρ ht hn]
  cases t.handle? n with
  | none => rfl
  | some k =>
    rw [Option.bind_some, Option.bind_some, entry?_relabel]
    cases t.entry? k <;> rfl

theorem setRegister_relabel (ρ : Relabeling) (t : SymbolTable) (k : Handle) (r : Option Char) :
    (ρ.table t).setRegister k r = ρ.table (t.setRegister k r) := by
  refine congrArg SymbolTable.mk (List.ext_getElem? fun j => ?_)
  show ((t.entries.map ρ.symbol).modify k _)[j]? = ((t.entries.modify k _).map ρ.symbol)[j]?
  rw [List.getElem?_modify, List.getElem?_map, List.getElem?_map, List.getElem?_modify]
  by_cases h : k = j
  · cases t.entries[j]? <;> simp [h, Relabeling.symbol]
  · cases t.entries[j]? <;> simp [h]

theorem resolve?_relabel (hρ : Set.InjOn ρ.name S) (ht : ∀ m ∈ t.names, m ∈ S)
    {id : Identifier} (hid : id.name ∈ S) :
    (ρ.table t).resolve? (ρ.revision.identifier id) = t.resolve? id := by
  have hname : ∀ k, ((ρ.table t).name? k == some (ρ.name id.name)) = (t.name? k == some id.name) := by
    intro k
    rw [SymbolTable.name?_eq_names, SymbolTable.name?_eq_names, names_relabel, List.getElem?_map]
    cases hk : t.names[k]? with
    | none => rfl
    | some m => exact name_beq_relabel hρ (ht m (List.mem_of_getElem? hk)) hid
  unfold SymbolTable.resolve?
  exact congrArg (Option.filter · id.symbol) (funext hname)

theorem register?_relabel (hρ : Set.InjOn ρ.name S) (ht : ∀ m ∈ t.names, m ∈ S)
    {id : Identifier} (hid : id.name ∈ S) :
    (ρ.table t).register? (ρ.revision.identifier id) = t.register? id := by
  unfold SymbolTable.register?
  rw [resolve?_relabel hρ ht hid]
  cases t.resolve? id with
  | none => rfl
  | some k =>
    rw [Option.bind_some, Option.bind_some, entry?_relabel]
    cases t.entry? k <;> rfl

end Table

/-! ## Checks -/

/-- the check of a part, and that of the part changed by `f` -/
structure Relabeling.Checks {α : Type} (ρ : Relabeling) (f : α → α) (c c' : Checked α) : Prop where
  node : c'.node = f c.node
  type : c'.type = c.type
  faults : List.Forall₂ ρ.Reports c.faults c'.faults

structure Relabeling.Walks {α : Type} (ρ : Relabeling) (f : α → α) (w w' : Walked α) : Prop where
  node : w'.node = f w.node
  table : w'.table = ρ.table w.table
  faults : List.Forall₂ ρ.Reports w.faults w'.faults

section Check
open Relabeling
variable {ρ : Relabeling} {S : Set String} {t : SymbolTable}

theorem check_relabel_identifier (hρ : Set.InjOn ρ.name S) (ht : ∀ m ∈ t.names, m ∈ S)
    {id : Identifier} (hid : id.name ∈ S) :
    ρ.Checks ρ.revision.identifier (id.check t)
      ((ρ.revision.identifier id).check (ρ.table t)) := by
  have hname : (ρ.revision.identifier id).name = ρ.name id.name := rfl
  unfold Identifier.check
  rw [hname, lookup?_relabel hρ ht hid]
  cases t.lookup? id.name with
  | none => exact ⟨rfl, rfl, .cons (.undeclared id.name id.pos) .nil⟩
  | some ks => exact ⟨rfl, rfl, .nil⟩

theorem Relabeling.Checks.as {c c' : Checked Expr} (h : ρ.Checks (Expr.revise ρ.revision) c c')
    (s : CheckedType) : c'.as s = (c.as s).revise ρ.revision := by
  rw [revise_as fun _ => rfl]
  unfold Checked.as
  rw [h.node, h.type]
  rfl

theorem Relabeling.Checks.operator {l l' r r' : Checked Expr}
    (hl : ρ.Checks (Expr.revise ρ.revision) l l') (hr : ρ.Checks (Expr.revise ρ.revision) r r')
    (op : Operator) (p : Position) :
    ρ.Checks (Expr.revise ρ.revision) (op.check p l r) (op.check (ρ.place p) l' r') := by
  have hown : List.Forall₂ ρ.Reports
      (if l.type.join r.type = .error ∧ l.type ≠ .error ∧ r.type ≠ .error then
        [.operands op l.type r.type p] else [])
      (if l.type.join r.type = .error ∧ l.type ≠ .error ∧ r.type ≠ .error then
        [.operands op l.type r.type (ρ.place p)] else []) := by
    split
    · exact .cons (.operands op _ _ p) .nil
    · exact .nil
  unfold Operator.check
  dsimp only
  rw [hl.type, hr.type, hl.as, hr.as]
  exact ⟨rfl, rfl, List.rel_append (List.rel_append hl.faults hr.faults) hown⟩

theorem check_relabel_expr (hρ : Set.InjOn ρ.name S) (ht : ∀ m ∈ t.names, m ∈ S) {e : Expr}
    (he : ∀ id ∈ e.reads, id.name ∈ S) :
    ρ.Checks (Expr.revise ρ.revision) (e.check t) ((e.revise ρ.revision).check (ρ.table t)) := by
  induction e with
  | const value declared type p => exact ⟨rfl, rfl, .nil⟩
  | deref id type p =>
    obtain ⟨hnode, htype, hfaults⟩ := check_relabel_identifier hρ ht (he id (by simp [Expr.reads]))
    simp only [Expr.revise, Expr.check]
    rw [hnode, htype]
    exact ⟨rfl, rfl, hfaults⟩
  | binary op left right type p ihl ihr =>
    have hl := ihl fun id hid => he id (List.mem_append_left _ hid)
    have hr := ihr fun id hid => he id (List.mem_append_right _ hid)
    exact hl.operator hr op p
  | convert inner type p ih =>
    obtain ⟨hnode, -, hfaults⟩ := ih he
    simp only [Expr.revise, Expr.check]
    rw [hnode]
    exact ⟨rfl, rfl, hfaults⟩

theorem check_relabel_declare (hρ : Set.InjOn ρ.name S) (ht : ∀ m ∈ t.names, m ∈ S)
    {id : Identifier} (hid : id.name ∈ S) (declared : NumType) (p : Position) :
    ρ.Walks (Item.revise ρ.revision) (checkDeclare t declared id p)
      (checkDeclare (ρ.table t) declared (ρ.revision.identifier id) (ρ.place p)) := by
  unfold checkDeclare
  by_cases h : id.name ∈ t.names
  · have h' : ρ.name id.name ∈ (ρ.table t).names := (mem_names_relabel hρ ht hid).mpr h
    rw [SymbolTable.enter_of_mem h, SymbolTable.enter_of_mem h']
    exact ⟨rfl, rfl, .cons (.duplicate id.name id.pos) .nil⟩
  · have h' : ρ.name id.name ∉ (ρ.table t).names := fun e => h ((mem_names_relabel hρ ht hid).mp e)
    rw [SymbolTable.enter_of_not_mem h, SymbolTable.enter_of_not_mem h']
    have hsize : (ρ.table t).size = t.size := List.length_map ..
    refine ⟨?_, ?_, .nil⟩
    · rw [hsize]
      rfl
    · simp [Relabeling.table, Relabeling.symbol, Relabeling.revision]

theorem check_relabel_assign (hρ : Set.InjOn ρ.name S) (ht : ∀ m ∈ t.names, m ∈ S)
    {target : Identifier} (htarget : target.name ∈ S) {value : Expr}
    (hvalue : ∀ id ∈ value.reads, id.name ∈ S) (p : Position) :
    ρ.Walks (Item.revise ρ.revision) (checkAssign t target value p)
      (checkAssign (ρ.table t) (ρ.revision.identifier target) (value.revise ρ.revision)
        (ρ.place p)) := by
  have hi := check_relabel_identifier hρ ht htarget
  have hv := check_relabel_expr hρ ht hvalue
  have hparts := List.rel_append hi.faults hv.faults
  unfold checkAssign
  dsimp only
  rw [hi.type, hv.type, hi.node]
  split
  · exact ⟨by rw [hv.as]; rfl, rfl, hparts⟩
  · refine ⟨by rw [hv.node]; rfl, rfl, List.rel_append hparts ?_⟩
    split
    · exact .nil
    · exact .cons (.assignment _ _ p) .nil

theorem check_relabel_item (hρ : Set.InjOn ρ.name S) (ht : ∀ m ∈ t.names, m ∈ S) {i : Item}
    (hi : ∀ m ∈ i.names, m ∈ S) :
    ρ.Walks (Item.revise ρ.revision) (i.check t) ((i.revise ρ.revision).check (ρ.table t)) := by
  cases i with
  | declare declared id type p =>
    exact check_relabel_declare hρ ht (hi id.name (by simp [Item.names, Item.declared?])) declared p
  | assign target value type p =>
    obtain ⟨htarget, hvalue⟩ := names_assign_inv hi
    exact check_relabel_assign hρ ht htarget hvalue p
  | print id type p =>
    have hid := check_relabel_identifier hρ ht (hi id.name (by simp [Item.names, Item.uses]))
    simp only [Item.revise, Item.check]
    rw [hid.node, hid.type]
    exact ⟨rfl, rfl, hid.faults⟩

theorem mem_of_mem_names_check (ht : ∀ m ∈ t.names, m ∈ S) {i : Item}
    (hi : ∀ m ∈ i.names, m ∈ S) : ∀ m ∈ (i.check t).table.names, m ∈ S := by
  rw [table_check]
  cases i with
  | declare declared id type p =>
    intro m hm
    change m ∈ (t.enter { name := id.name, type := declared }).2.names at hm
    by_cases h : id.name ∈ t.names
    · rw [SymbolTable.enter_of_mem h] at hm
      exact ht m hm
    · rw [SymbolTable.names_enter_of_not_mem h] at hm
      rcases List.mem_append.mp hm with hm | hm
      · exact ht m hm
      · exact hi m (by simpa [Item.names, Item.declared?, Item.uses] using hm)
  | assign target value type p => exact ht
  | print id type p => exact ht

theorem mem_of_mem_names_checkItems (ht : ∀ m ∈ t.names, m ∈ S) {is : List Item}
    (his : ∀ i ∈ is, ∀ m ∈ i.names, m ∈ S) : ∀ m ∈ (checkItems t is).table.names, m ∈ S := by
  induction is generalizing t with
  | nil => exact ht
  | cons i is ih =>
    obtain ⟨hi, his⟩ := List.forall_mem_cons.mp his
    rw [checkItems_cons]
    exact ih (mem_of_mem_names_check ht hi) his

/-- **The check of a relabeled row of items** is the relabeled check. -/
theorem checkItems_relabel (hρ : Set.InjOn ρ.name S) (ht : ∀ m ∈ t.names, m ∈ S)
    {is : List Item} (his : ∀ i ∈ is, ∀ m ∈ i.names, m ∈ S) :
    ρ.Walks (List.map (Item.revise ρ.revision)) (checkItems t is)
      (checkItems (ρ.table t) (is.map (Item.revise ρ.revision))) := by
  induction is generalizing t with
  | nil => exact ⟨rfl, rfl, .nil⟩
  | cons i is ih =>
    obtain ⟨hi, his⟩ := List.forall_mem_cons.mp his
    have hitem := check_relabel_item hρ ht hi
    have hrest := ih (mem_of_mem_names_check ht hi) his
    rw [List.map_cons, checkItems_cons, checkItems_cons, hitem.table, hitem.node, hrest.node,
      hrest.table]
    exact ⟨rfl, rfl, List.rel_append hitem.faults hrest.faults⟩

end Check

/-! ## Code -/

section Emit
open Relabeling
variable {ρ : Relabeling} {S : Set String} {t : SymbolTable}

theorem emitted_andThen (ρ : Relabeling) (a b : Emitted) :
    ρ.emitted (a.andThen b) = (ρ.emitted a).andThen (ρ.emitted b) := by
  cases ha : a.fault with
  | none =>
    have ha' : (ρ.emitted a).fault = none := by simp [Relabeling.emitted, ha]
    rw [Emitted.andThen_of_none ha, Emitted.andThen_of_none ha']
    rfl
  | some f =>
    have ha' : (ρ.emitted a).fault = some (ρ.codeFault f) := by simp [Relabeling.emitted, ha]
    rw [Emitted.andThen_of_fault ha, Emitted.andThen_of_fault ha']

theorem emitWith_relabel (hρ : Set.InjOn ρ.name S) (ht : ∀ m ∈ t.names, m ∈ S)
    {id : Identifier} (hid : id.name ∈ S) (code : Char → List Instruction) :
    emitWith (ρ.table t) (ρ.revision.identifier id) code = ρ.emitted (emitWith t id code) := by
  unfold emitWith
  rw [register?_relabel hρ ht hid]
  cases t.register? id <;> rfl

theorem emit_relabel_expr (hρ : Set.InjOn ρ.name S) (ht : ∀ m ∈ t.names, m ∈ S) {e : Expr}
    (he : ∀ id ∈ e.reads, id.name ∈ S) :
    (e.revise ρ.revision).emit (ρ.table t) = ρ.emitted (e.emit t) := by
  induction e with
  | const value declared type p => rfl
  | deref id type p => exact emitWith_relabel hρ ht (he id (by simp [Expr.reads])) _
  | binary op left right type p ihl ihr =>
    have hl := ihl fun id hid => he id (List.mem_append_left _ hid)
    have hr := ihr fun id hid => he id (List.mem_append_right _ hid)
    simp only [Expr.revise, Expr.emit]
    rw [hl, hr, emitted_andThen, emitted_andThen]
    rfl
  | convert inner type p ih =>
    simp only [Expr.revise, Expr.emit]
    rw [ih he, emitted_andThen]
    rfl

theorem declare_relabel (hρ : Set.InjOn ρ.name S) {a : Allocation}
    (ht : ∀ m ∈ a.table.names, m ∈ S) {id : Identifier} (hid : id.name ∈ S) :
    (ρ.allocation a).declare (ρ.revision.identifier id) =
      ((a.declare id).map ρ.allocation).mapError ρ.codeFault := by
  have hres : (ρ.allocation a).table.resolve? (ρ.revision.identifier id) = a.table.resolve? id :=
    resolve?_relabel hρ ht hid
  have hfree : (ρ.allocation a).free = a.free := rfl
  unfold Allocation.declare
  rw [hres, hfree]
  cases a.table.resolve? id with
  | none => rfl
  | some k =>
    cases a.free with
    | nil => rfl
    | cons r free =>
      show Except.ok (Allocation.mk ((ρ.table a.table).setRegister k (some r)) free) = _
      rw [setRegister_relabel]
      rfl

theorem emit_relabel_item (hρ : Set.InjOn ρ.name S) {a : Allocation}
    (ht : ∀ m ∈ a.table.names, m ∈ S) {i : Item} (hi : ∀ m ∈ i.names, m ∈ S) :
    (i.revise ρ.revision).emit (ρ.allocation a) =
      (ρ.emitted (i.emit a).1, ρ.allocation (i.emit a).2) := by
  cases i with
  | declare declared id type p =>
    have hid := hi id.name (by simp [Item.names, Item.declared?])
    simp only [Item.revise, Item.emit]
    rw [declare_relabel hρ ht hid]
    cases a.declare id <;> rfl
  | assign target value type p =>
    obtain ⟨htarget, hvalue⟩ := names_assign_inv hi
    simp only [Item.revise, Item.emit, Relabeling.allocation]
    rw [emit_relabel_expr hρ ht hvalue, emitWith_relabel hρ ht htarget, emitted_andThen]
  | print id type p =>
    have hid := hi id.name (by simp [Item.names, Item.uses])
    simp only [Item.revise, Item.emit, Relabeling.allocation]
    rw [emitWith_relabel hρ ht hid]

/-- **The code of a relabeled row of items** is the same code, with the same fault of the relabeled
variable. -/
theorem emitItems_relabel (hρ : Set.InjOn ρ.name S) {a : Allocation}
    (ht : ∀ m ∈ a.table.names, m ∈ S) {is : List Item} (his : ∀ i ∈ is, ∀ m ∈ i.names, m ∈ S) :
    emitItems (ρ.allocation a) (is.map (Item.revise ρ.revision)) =
      (ρ.emitted (emitItems a is).1, ρ.allocation (emitItems a is).2) := by
  induction is generalizing a with
  | nil => rfl
  | cons i is ih =>
    obtain ⟨hi, his⟩ := List.forall_mem_cons.mp his
    have hitem := emit_relabel_item hρ ht hi
    have hfault : ((i.revise ρ.revision).emit (ρ.allocation a)).1.fault =
        (i.emit a).1.fault.map ρ.codeFault := by rw [hitem]; rfl
    rw [List.map_cons]
    cases hf : (i.emit a).1.fault with
    | some f =>
      rw [hf, Option.map_some] at hfault
      rw [emitItems_cons_of_fault hf, emitItems_cons_of_fault hfault, hitem]
    | none =>
      rw [hf, Option.map_none] at hfault
      have hrest := ih (a := (i.emit a).2) (by rwa [names_emit]) his
      rw [emitItems_cons_of_none hf, emitItems_cons_of_none hfault, hitem, hrest, emitted_andThen]

end Emit

/-! ## Checked names -/

section Names
variable (t : SymbolTable)

theorem names_check_expr (e : Expr) :
    (e.check t).node.reads.map Identifier.name = e.reads.map Identifier.name := by
  induction e with
  | const value declared type p => rfl
  | deref id type p =>
    show [(id.check t).node.name] = [id.name]
    rw [name_check]
  | binary op left right type p ihl ihr =>
    show (((left.check t).as _).reads ++ ((right.check t).as _).reads).map _ = _
    rw [Checked.reads_as, Checked.reads_as, List.map_append, ihl, ihr, Expr.reads, List.map_append]
  | convert inner type p ih => exact ih

theorem names_check_item (i : Item) : (i.check t).node.names = i.names := by
  cases i with
  | declare declared id type p =>
    show (checkDeclare t declared id p).node.names = [id.name]
    unfold checkDeclare
    split <;> rfl
  | assign target value type p =>
    obtain ⟨s, type', hnode⟩ := exists_node_checkAssign t target value p
    rw [Item.check, hnode]
    simp only [Item.names, Item.uses, Item.declared?, Checked.reads_as, Option.toList_none,
      List.nil_append, List.map_append, List.map_cons, names_check_expr, name_check]
  | print id type p =>
    show [(id.check t).node.name] = [id.name]
    rw [name_check]

theorem mem_names_checkItems {S : Set String} {is : List Item} (h : ∀ i ∈ is, ∀ m ∈ i.names, m ∈ S) :
    ∀ j ∈ (checkItems t is).node, ∀ m ∈ j.names, m ∈ S := by
  induction is generalizing t with
  | nil => exact fun j hj => absurd hj List.not_mem_nil
  | cons i is ih =>
    obtain ⟨hi, his⟩ := List.forall_mem_cons.mp h
    refine List.forall_mem_cons.mpr ⟨?_, ih _ his⟩
    rw [names_check_item]
    exact hi

end Names

/-! ## Programs -/

section Compile
variable {ρ : Relabeling} {p : Program}

theorem mem_names_of_mem (p : Program) : ∀ i ∈ p.items, ∀ m ∈ i.names, m ∈ {n | n ∈ p.names} :=
  fun i hi _ hm => List.mem_flatMap.mpr ⟨i, hi, hm⟩

theorem names_empty_subset (S : Set String) : ∀ m ∈ SymbolTable.empty.names, m ∈ S :=
  fun _ hm => absurd hm List.not_mem_nil

theorem verdict_congr {l l' : FaultLog} (h : l.entries.length = l'.entries.length) :
    Compiler.verdict l = Compiler.verdict l' := by
  have hempty : l.isEmpty = l'.isEmpty := by
    rw [Bool.eq_iff_iff, FaultLog.isEmpty_iff, FaultLog.isEmpty_iff, ← List.length_eq_zero_iff,
      ← List.length_eq_zero_iff, h]
  rw [Compiler.verdict, Compiler.verdict, hempty]

theorem check_relabel (hρ : Set.InjOn ρ.name {n | n ∈ p.names}) (c : Compiler) :
    (c.check (p.revise ρ.revision)).1 = (c.check p).1.revise ρ.revision ∧
      (c.check (p.revise ρ.revision)).2.symbols = ρ.table (c.check p).2.symbols ∧
      List.Forall₂ ρ.Reports (c.check p).2.log.entries
        (c.check (p.revise ρ.revision)).2.log.entries := by
  have hwalks : ρ.Walks (List.map (Item.revise ρ.revision)) (checkItems .empty p.items)
      (checkItems .empty (p.revise ρ.revision).items) :=
    checkItems_relabel hρ (names_empty_subset _) (mem_names_of_mem p)
  obtain ⟨hnode, htable, hfaults⟩ := hwalks
  refine ⟨?_, htable, hfaults⟩
  have hverdict : Compiler.verdict (c.check (p.revise ρ.revision)).2.log =
      Compiler.verdict (c.check p).2.log := verdict_congr hfaults.length_eq.symm
  show Program.mk (checkItems .empty (p.revise ρ.revision).items).node
      (some (Compiler.verdict (c.check (p.revise ρ.revision)).2.log)) =
    Program.mk ((checkItems .empty p.items).node.map (Item.revise ρ.revision))
      (some (Compiler.verdict (c.check p).2.log))
  rw [hnode, hverdict]

/-- The code of a relabeled tree is the same, and so is the fault that is in the way of it, but for
the name and the place in it. -/
theorem generate_relabel {S : Set String} (hρ : Set.InjOn ρ.name S) {c c' : Compiler}
    (hc : c'.symbols = ρ.table c.symbols) (ht : ∀ m ∈ c.symbols.names, m ∈ S)
    (hp : ∀ i ∈ p.items, ∀ m ∈ i.names, m ∈ S) :
    (c'.generate (p.revise ρ.revision)).1 = (c.generate p).1.mapError ρ.codeFault := by
  have hemit : emitItems { table := c'.symbols } (p.revise ρ.revision).items =
      (ρ.emitted (emitItems { table := c.symbols } p.items).1,
        ρ.allocation (emitItems { table := c.symbols } p.items).2) := by
    rw [hc]
    exact emitItems_relabel (a := { table := c.symbols }) hρ ht hp
  have htype : (p.revise ρ.revision).type = p.type := rfl
  by_cases hvoid : p.type = some .void
  · rw [Compiler.generate_of_void hvoid, Compiler.generate_of_void (htype.trans hvoid), hemit]
    cases hf : (emitItems { table := c.symbols } p.items).1.fault with
    | none =>
      have hf' : (ρ.emitted (emitItems { table := c.symbols } p.items).1).fault = none := by
        simp [Relabeling.emitted, hf]
      simp only [hf']
      rfl
    | some f =>
      have hf' : (ρ.emitted (emitItems { table := c.symbols } p.items).1).fault =
          some (ρ.codeFault f) := by
        simp [Relabeling.emitted, hf]
      simp only [hf']
      rfl
  · rw [Compiler.generate, Compiler.generate, htype, if_neg hvoid, if_neg hvoid]
    rfl

theorem compile_relabel (hρ : Set.InjOn ρ.name {n | n ∈ p.names}) (c : Compiler) :
    (∃ log log', (c.compile p).1 = .error (.semantic log) ∧
      (c.compile (p.revise ρ.revision)).1 = .error (.semantic log') ∧
      List.Forall₂ ρ.Reports log.entries log'.entries) ∨
    (∃ f, (c.compile p).1 = .error (.code f) ∧
      (c.compile (p.revise ρ.revision)).1 = .error (.code (ρ.codeFault f))) ∨
    ∃ text, (c.compile p).1 = .ok text ∧ (c.compile (p.revise ρ.revision)).1 = .ok text := by
  obtain ⟨htree, htable, hlog⟩ := check_relabel hρ c
  by_cases h : (c.check p).2.log.entries = []
  · have h' : (c.check (p.revise ρ.revision)).2.log.entries = [] := by
      rw [h] at hlog
      exact List.forall₂_nil_left_iff.mp hlog
    have hsymbols : ∀ m ∈ (c.check p).2.symbols.names, m ∈ {n | n ∈ p.names} :=
      mem_of_mem_names_checkItems (names_empty_subset _) (mem_names_of_mem p)
    have hitems : ∀ i ∈ (c.check p).1.items, ∀ m ∈ i.names, m ∈ {n | n ∈ p.names} :=
      mem_names_checkItems .empty (mem_names_of_mem p)
    have hcode := generate_relabel hρ htable hsymbols hitems
    rw [Compiler.compile_of_faultless h, Compiler.compile_of_faultless h', htree, hcode]
    right
    cases ((c.check p).2.generate (c.check p).1).1 with
    | error f => exact .inl ⟨f, rfl, rfl⟩
    | ok text => exact .inr ⟨text, rfl, rfl⟩
  · have h' : (c.check (p.revise ρ.revision)).2.log.entries ≠ [] := by
      intro e
      rw [e] at hlog
      exact h (List.forall₂_nil_right_iff.mp hlog)
    rw [Compiler.compile_of_faults h, Compiler.compile_of_faults h']
    exact .inl ⟨_, _, rfl, rfl, hlog⟩

end Compile

/-! ## New names -/

/-- the program with the name `r n` wherever it says `n` -/
def Program.rename (r : String → String) (p : Program) : Program :=
  p.revise (Relabeling.revision { name := r })

/-- **The names of variables do not matter.**  When different names in a program get different new
ones, the check finds the same table and the same faults with the new names in them, in the same
order, of the same kinds and at the same places.  The code is the same, and if the registers do not
suffice, they do not suffice for the same declaration. -/
theorem compile_rename (c : Compiler) (p : Program) (r : String → String)
    (hr : Set.InjOn r {n | n ∈ p.names}) :
    (c.check (p.rename r)).2.symbols = Relabeling.table { name := r } (c.check p).2.symbols ∧
    List.Forall₂ (Relabeling.Reports { name := r }) (c.check p).2.log.entries
      (c.check (p.rename r)).2.log.entries ∧
    (c.check (p.rename r)).2.log.entries.map (fun f => (f.kind, f.pos)) =
      (c.check p).2.log.entries.map (fun f => (f.kind, f.pos)) ∧
    (∀ code, (c.compile (p.rename r)).1 = .ok code ↔ (c.compile p).1 = .ok code) ∧
    ∀ name' pos, (c.compile (p.rename r)).1 = .error (.code (.noRegister name' pos)) ↔
      ∃ name, name' = r name ∧ (c.compile p).1 = .error (.code (.noRegister name pos)) := by
  obtain ⟨-, htable, hlog⟩ := check_relabel (ρ := { name := r }) hr c
  refine ⟨htable, hlog, Relabeling.map_kind_pos hlog, ?_⟩
  unfold Program.rename
  rcases compile_relabel (ρ := { name := r }) hr c with
    ⟨log, log', h, h'⟩ | ⟨f, h, h'⟩ | ⟨text, h, h'⟩
  · simp [h, h']
  · rw [h, h']
    cases f with
    | illTyped => simp [Relabeling.codeFault]
    | noRegister name pos =>
      simp only [Relabeling.codeFault, Except.error.injEq, Fault.code.injEq,
        CodeFault.noRegister.injEq, reduceCtorEq, implies_true, true_and]
      grind
    | unresolved name pos => simp [Relabeling.codeFault]
  · simp [h, h']

/-- a new name for `a` and one for all others, which is enough where there is only `b` besides -/
def exchange (n : String) : String := if n = "a" then "b" else "total"

/-- Names that exchange their places in the table leave the code as it is, a fault is found where it
was, and the declaration that is one too many is still the twenty-seventh. -/
theorem compile_rename_exchange :
    (busy.check (stale.rename exchange)).2.symbols.names = ["total", "b"] ∧
      (busy.compile (stale.rename exchange)).1 = .ok "lb 5 k 2 5 k / sa 0 k" ∧
      (busy.check ((stray none).rename exchange)).2.log.entries.map (fun f => (f.kind, f.pos)) =
        [(.undeclaredVariable, ⟨1, 7⟩)] ∧
      (busy.compile (crowded.rename ("v" ++ ·))).1 =
        .error (.code (.noRegister ("v" ++ String.ofList (List.replicate 27 'x')) ⟨27, 5⟩)) := by
  have hstale : ∀ m ∈ stale.names, ∀ n ∈ stale.names, exchange m = exchange n → m = n := by decide
  have hstray : ∀ m ∈ (stray none).names, ∀ n ∈ (stray none).names,
      exchange m = exchange n → m = n := by decide
  have hcrowded : Set.InjOn ("v" ++ ·) {n | n ∈ crowded.names} := by
    intro m _ n _ e
    simpa using e
  obtain ⟨htable, -, -, hcode, -⟩ :=
    compile_rename busy stale exchange fun m hm n hn => hstale m hm n hn
  obtain ⟨-, -, hlog, -⟩ :=
    compile_rename busy (stray none) exchange fun m hm n hn => hstray m hm n hn
  obtain ⟨-, -, -, -, hregister⟩ := compile_rename busy crowded ("v" ++ ·) hcrowded
  refine ⟨?_, (hcode _).mpr (by decide +kernel), hlog.trans (by decide +kernel), ?_⟩
  · rw [htable]
    decide +kernel
  · exact (hregister _ _).mpr ⟨_, rfl, compile_of_exhausted (by decide +kernel) (by decide)⟩

end DeskCalc
