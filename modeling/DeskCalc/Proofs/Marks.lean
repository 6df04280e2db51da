import DeskCalc.Proofs.Outcome

/-!
# Marks of earlier checks

A tree may carry the marks of any check before, and a compiler the table, the log and the code of
any work before.  A check overwrites the one and forgets the other, with a single exception: an
identifier that is found faulty keeps the handle it came with.  Nobody reads that handle, because
code is made only where no fault was found.

So trees are compared twice here, before a check without all their marks (`Revision.unmark`), and
behind it without the handles of faulty identifiers (`Revision.settle`).  Trees that agree in the
first way agree in the second way behind a check, and log and table are the same (`check_unmark`,
one node at a time; `checkItems_unmark`, a row of items).  Where there is no fault the second way is
equality (`settle_checkItems`), and so is the code (`compile_unmarked`).

* `Revision`   a change of a tree node by node: of identifiers, of types and of places.
-/

namespace DeskCalc

/-! ## Revisions -/

structure Revision where
  identifier : Identifier → Identifier
  type : Option CheckedType → Option CheckedType := fun t => t
  place : Position → Position := fun p => p

def Expr.revise (ρ : Revision) : Expr → Expr
  | const value declared t p => const value declared (ρ.type t) (ρ.place p)
  | deref id t p => deref (ρ.identifier id) (ρ.type t) (ρ.place p)
  | binary op left right t p =>
    binary op (left.revise ρ) (right.revise ρ) (ρ.type t) (ρ.place p)
  | convert inner t p => convert (inner.revise ρ) (ρ.type t) (ρ.place p)

def Item.revise (ρ : Revision) : Item → Item
  | declare declared id t p => declare declared (ρ.identifier id) (ρ.type t) (ρ.place p)
  | assign target value t p =>
    assign (ρ.identifier target) (value.revise ρ) (ρ.type t) (ρ.place p)
  | print id t p => print (ρ.identifier id) (ρ.type t) (ρ.place p)

def Program.revise (ρ : Revision) (p : Program) : Program where
  items := p.items.map (Item.revise ρ)
  type := ρ.type p.type

namespace Revision

/-- without any mark of a check -/
def unmark : Revision where
  identifier id := { id with type := none, symbol := none }
  type _ := none

/-- without the handles of identifiers that are marked as faulty -/
def settle : Revision where
  identifier id := if id.type = some .error then { id with symbol := none } else id

theorem settle_of_error {id : Identifier} (h : id.type = some .error) :
    settle.identifier id = { id with symbol := none } := if_pos h

theorem settle_of_ne {id : Identifier} (h : id.type ≠ some .error) :
    settle.identifier id = id := if_neg h

end Revision

theorem pos_revise (ρ : Revision) (e : Expr) : (e.revise ρ).pos = ρ.place e.pos := by
  cases e <;> rfl

/-! ## Results of a check, compared node by node -/

def Checked.map {α : Type} (f : α → α) (c : Checked α) : Checked α := { c with node := f c.node }

def Walked.map {α : Type} (f : α → α) (w : Walked α) : Walked α := { w with node := f w.node }

theorem Checked.map_inv {α : Type} {f : α → α} {c d : Checked α} (h : c.map f = d.map f) :
    f c.node = f d.node ∧ c.type = d.type ∧ c.faults = d.faults := Checked.mk.inj h

theorem Walked.map_inv {α : Type} {f : α → α} {v w : Walked α} (h : v.map f = w.map f) :
    f v.node = f w.node ∧ v.table = w.table ∧ v.faults = w.faults := Walked.mk.inj h

/-- Widening adds a node of its own and leaves the others alone. -/
theorem revise_as {ρ : Revision} (hρ : ∀ t, ρ.type t = t) (c : Checked Expr) (t : CheckedType) :
    (c.as t).revise ρ = (c.map (Expr.revise ρ)).as t := by
  unfold Checked.as
  by_cases h : c.type = .num .int ∧ t = .num .float
  · have h' : (c.map (Expr.revise ρ)).type = .num .int ∧ t = .num .float := h
    rw [if_pos h, if_pos h']
    simp only [Expr.widen, Expr.revise, Checked.map, pos_revise, hρ]
  · have h' : ¬ ((c.map (Expr.revise ρ)).type = .num .int ∧ t = .num .float) := h
    rw [if_neg h, if_neg h']
    rfl

section Unmark
open Revision
variable (t : SymbolTable)

theorem check_unmark_identifier (id : Identifier) :
    ((unmark.identifier id).check t).map settle.identifier =
      (id.check t).map settle.identifier := by
  have hname : (unmark.identifier id).name = id.name := rfl
  unfold Identifier.check
  rw [hname]
  cases t.lookup? id.name with
  | none =>
    simp only [Checked.map, settle_of_error]
    rfl
  | some hs => rfl

theorem map_settle_operator (op : Operator) (p : Position) (l r : Checked Expr) :
    (op.check p l r).map (Expr.revise settle) =
      op.check p (l.map (Expr.revise settle)) (r.map (Expr.revise settle)) := by
  have hl := revise_as (ρ := settle) (fun _ => rfl) l (l.type.join r.type)
  have hr := revise_as (ρ := settle) (fun _ => rfl) r (l.type.join r.type)
  simp only [Operator.check, Checked.map, Expr.revise] at hl hr ⊢
  rw [hl, hr]
  rfl

/-- The marks that an expression came with are gone behind a check, but for handles of faulty
identifiers. -/
theorem check_unmark (e : Expr) :
    ((e.revise unmark).check t).map (Expr.revise settle) =
      (e.check t).map (Expr.revise settle) := by
  induction e with
  | const value declared type p => rfl
  | deref id type p =>
    obtain ⟨hnode, htype, hfaults⟩ := Checked.map_inv (check_unmark_identifier t id)
    simp only [Expr.revise, Expr.check, Checked.map]
    rw [hnode, htype, hfaults]
    rfl
  | binary op left right type p ihl ihr =>
    simp only [Expr.revise, Expr.check]
    rw [map_settle_operator, map_settle_operator, ihl, ihr]
    rfl
  | convert inner type p ih =>
    obtain ⟨hnode, -, hfaults⟩ := Checked.map_inv ih
    simp only [Expr.revise, Expr.check, Checked.map]
    rw [hnode, hfaults]
    rfl

theorem check_unmark_assign (target : Identifier) (value : Expr) (p : Position) :
    (checkAssign t (unmark.identifier target) (value.revise unmark) p).map (Item.revise settle) =
      (checkAssign t target value p).map (Item.revise settle) := by
  have has : ∀ s, (((value.revise unmark).check t).as s).revise settle =
      ((value.check t).as s).revise settle := by
    intro s
    rw [revise_as fun _ => rfl, revise_as fun _ => rfl, check_unmark]
  obtain ⟨htnode, httype, htfaults⟩ := Checked.map_inv (check_unmark_identifier t target)
  obtain ⟨hvnode, hvtype, hvfaults⟩ := Checked.map_inv (check_unmark t value)
  unfold checkAssign
  dsimp only
  rw [httype, hvtype, htfaults, hvfaults]
  split
  · simp only [Walked.map, Item.revise, htnode, has]
  · simp only [Walked.map, Item.revise, htnode, hvnode]

theorem check_unmark_declare (declared : NumType) (id : Identifier) (p : Position) :
    (checkDeclare t declared (unmark.identifier id) p).map (Item.revise settle) =
      (checkDeclare t declared id p).map (Item.revise settle) := by
  by_cases h : id.name ∈ t.names
  · have h' : (unmark.identifier id).name ∈ t.names := h
    unfold checkDeclare
    rw [SymbolTable.enter_of_mem h, SymbolTable.enter_of_mem h']
    simp only [Walked.map, Item.revise, settle_of_error]
    rfl
  · have h' : (unmark.identifier id).name ∉ t.names := h
    unfold checkDeclare
    rw [SymbolTable.enter_of_not_mem h, SymbolTable.enter_of_not_mem h']
    rfl

theorem check_unmark_item (i : Item) :
    ((i.revise unmark).check t).map (Item.revise settle) = (i.check t).map (Item.revise settle) := by
  cases i with
  | declare declared id type p => exact check_unmark_declare t declared id p
  | assign target value type p => exact check_unmark_assign t target value p
  | print id type p =>
    obtain ⟨hnode, htype, hfaults⟩ := Checked.map_inv (check_unmark_identifier t id)
    simp only [Item.revise, Item.check, Walked.map]
    rw [hnode, htype, hfaults]
    rfl

/-- **A row of items.**  Table and faults of a check, and the items up to handles of faulty
identifiers, do not depend on the marks before. -/
theorem checkItems_unmark (is : List Item) :
    (checkItems t (is.map (Item.revise unmark))).map (List.map (Item.revise settle)) =
      (checkItems t is).map (List.map (Item.revise settle)) := by
  induction is generalizing t with
  | nil => rfl
  | cons i is ih =>
    obtain ⟨hnode, htable, hfaults⟩ := Walked.map_inv (check_unmark_item t i)
    obtain ⟨hnodes, htables, hmore⟩ := Walked.map_inv (ih (i.check t).table)
    rw [List.map_cons, checkItems_cons, checkItems_cons]
    simp only [Walked.map, List.map_cons]
    rw [hnode, htable, hfaults, hnodes, htables, hmore]

end Unmark

/-! ## Checks that find nothing -/

section Settle
open Revision
variable {t : SymbolTable}

theorem settle_check_identifier {id : Identifier} (h : (id.check t).faults = []) :
    settle.identifier (id.check t).node = (id.check t).node := by
  unfold Identifier.check at h ⊢
  cases hl : t.lookup? id.name with
  | none =>
    rw [hl] at h
    cases h
  | some hs => exact settle_of_ne (by simp)

theorem settle_check {e : Expr} (h : (e.check t).faults = []) :
    (e.check t).node.revise settle = (e.check t).node := by
  induction e with
  | const value declared type p => rfl
  | deref id type p =>
    have hid : settle.identifier (id.check t).node = _ := settle_check_identifier h
    simp only [Expr.check, Expr.revise]
    rw [hid]
    rfl
  | binary op left right type p ihl ihr =>
    obtain ⟨hlr, -⟩ := List.append_eq_nil_iff.mp h
    obtain ⟨hl, hr⟩ := List.append_eq_nil_iff.mp hlr
    have hmap := map_settle_operator op p (left.check t) (right.check t)
    have hleft : (left.check t).map (Expr.revise settle) = left.check t := by
      rw [Checked.map, ihl hl]
    have hright : (right.check t).map (Expr.revise settle) = right.check t := by
      rw [Checked.map, ihr hr]
    rw [hleft, hright] at hmap
    exact congrArg Checked.node hmap
  | convert inner type p ih =>
    simp only [Expr.check, Expr.revise]
    rw [ih h]
    rfl

theorem settle_check_item {i : Item} (h : (i.check t).faults = []) :
    (i.check t).node.revise settle = (i.check t).node := by
  cases i with
  | declare declared id type p =>
    rw [Item.check, node_checkDeclare (not_mem_of_faultless h rfl)]
    simp only [Item.revise]
    rw [settle_of_ne (by simp)]
    rfl
  | assign target value type p =>
    obtain ⟨ht, hv⟩ := faults_parts_of_checkAssign h
    obtain ⟨s, type', hnode⟩ := exists_node_checkAssign t target value p
    rw [Item.check, hnode]
    simp only [Item.revise]
    rw [settle_check_identifier ht, revise_as fun _ => rfl, Checked.map, settle_check hv]
    rfl
  | print id type p =>
    have hid : settle.identifier (id.check t).node = _ := settle_check_identifier h
    simp only [Item.check, Item.revise]
    rw [hid]
    rfl

/-- Where no fault is found there is no faulty identifier. -/
theorem settle_checkItems {is : List Item} (h : (checkItems t is).faults = []) :
    (checkItems t is).node.map (Item.revise settle) = (checkItems t is).node := by
  induction is generalizing t with
  | nil => rfl
  | cons i is ih =>
    obtain ⟨hi, his⟩ := List.append_eq_nil_iff.mp h
    rw [checkItems_cons]
    simp only [List.map_cons]
    rw [settle_check_item hi, ih his]

end Settle

/-! ## Compilers -/

section Compile
open Revision
variable {p q : Program}

theorem checkItems_of_unmark_eq (h : p.revise unmark = q.revise unmark) (t : SymbolTable) :
    (checkItems t p.items).map (List.map (Item.revise settle)) =
      (checkItems t q.items).map (List.map (Item.revise settle)) := by
  have hitems : p.items.map (Item.revise unmark) = q.items.map (Item.revise unmark) :=
    congrArg Program.items h
  rw [← checkItems_unmark, hitems, checkItems_unmark]

/-- What a compiler keeps of a check depends neither on marks nor on what it kept before. -/
theorem check_snd_of_unmark_eq (h : p.revise unmark = q.revise unmark) (c d : Compiler) :
    (c.check p).2 = (d.check q).2 := by
  obtain ⟨-, htable, hfaults⟩ := Walked.map_inv (checkItems_of_unmark_eq h .empty)
  show Compiler.mk (checkItems .empty p.items).table ⟨[] ++ (checkItems .empty p.items).faults⟩ [] =
    Compiler.mk (checkItems .empty q.items).table ⟨[] ++ (checkItems .empty q.items).faults⟩ []
  rw [htable, hfaults]

theorem settle_check_of_unmark_eq (h : p.revise unmark = q.revise unmark) (c d : Compiler) :
    (c.check p).1.revise settle = (d.check q).1.revise settle := by
  have hitems := congrArg Walked.node (checkItems_of_unmark_eq h .empty)
  have hlog : (c.check p).2.log = (d.check q).2.log :=
    congrArg Compiler.log (check_snd_of_unmark_eq h c d)
  show Program.mk ((checkItems .empty p.items).node.map (Item.revise settle))
      (some (Compiler.verdict (c.check p).2.log)) =
    Program.mk ((checkItems .empty q.items).node.map (Item.revise settle))
      (some (Compiler.verdict (d.check q).2.log))
  rw [hlog]
  exact congrArg (Program.mk · _) hitems

theorem check_fst_of_unmark_eq (h : p.revise unmark = q.revise unmark) (c d : Compiler)
    (hlog : (c.check p).2.log.entries = []) : (c.check p).1 = (d.check q).1 := by
  have hlog' : (d.check q).2.log.entries = [] := by
    rw [← check_snd_of_unmark_eq h c d]
    exact hlog
  have hp : (c.check p).1.revise settle = (c.check p).1 :=
    congrArg (Program.mk · _) (settle_checkItems hlog)
  have hq : (d.check q).1.revise settle = (d.check q).1 :=
    congrArg (Program.mk · _) (settle_checkItems hlog')
  rw [← hp, ← hq]
  exact settle_check_of_unmark_eq h c d

/-- **Nothing stale.**  Two trees that differ in the marks of earlier checks alone, given to two
compilers in any state, get the same verdict, log and table from a check and the same result and
instructions from a compilation.  The trees behind it are the same up to the handles of faulty
identifiers, and if the verdict is `void` they are the same. -/
theorem compile_unmarked (c d : Compiler) (p q : Program)
    (h : p.revise unmark = q.revise unmark) :
    (c.check p).1.type = (d.check q).1.type ∧
    (c.check p).2.log = (d.check q).2.log ∧
    (c.check p).2.symbols = (d.check q).2.symbols ∧
    (c.compile p).1 = (d.compile q).1 ∧
    (c.compile p).2.2.instructions = (d.compile q).2.2.instructions ∧
    (c.check p).1.revise settle = (d.check q).1.revise settle ∧
    (c.compile p).2.1.revise settle = (d.compile q).2.1.revise settle ∧
    ((c.check p).1.type = some .void →
      (c.check p).1 = (d.check q).1 ∧ (c.compile p).2.1 = (d.compile q).2.1) := by
  have hstate := check_snd_of_unmark_eq h c d
  have hsettle := settle_check_of_unmark_eq h c d
  have htype : (c.check p).1.type = (d.check q).1.type :=
    congrArg (fun e : Compiler => some (Compiler.verdict e.log)) hstate
  refine ⟨htype, congrArg Compiler.log hstate, congrArg Compiler.symbols hstate, ?_⟩
  by_cases hlog : (c.check p).2.log.entries = []
  · have htree := check_fst_of_unmark_eq h c d hlog
    have hlog' : (d.check q).2.log.entries = [] := hstate ▸ hlog
    rw [Compiler.compile_of_faultless hlog, Compiler.compile_of_faultless hlog', hstate, htree]
    exact ⟨rfl, rfl, rfl, rfl, fun _ => ⟨rfl, rfl⟩⟩
  · have hlog' : (d.check q).2.log.entries ≠ [] := hstate ▸ hlog
    rw [Compiler.compile_of_faults hlog, Compiler.compile_of_faults hlog', hstate]
    refine ⟨rfl, rfl, hsettle, hsettle, fun hvoid => ?_⟩
    rw [Compiler.type_check_of_faults hlog] at hvoid
    cases hvoid

/-- a compiler in the middle of other work -/
def busy : Compiler where
  symbols := ⟨[{ name := "x", type := .float, register := some 'q' }]⟩
  log := ⟨[.undeclared "y" ⟨7, 1⟩]⟩
  instructions := [.push "1", .pop]

/-- `print a;` where the name has the handle `h` of an earlier check -/
def stray (h : Option Handle) : Program where
  items := [.print { name := "a", symbol := h, pos := ⟨1, 7⟩ } none ⟨1, 1⟩]

/-- A busy compiler makes the same of a tree without marks as a new one of a tree with wrong ones.
Of two trees with an unknown name each keeps its own handle there, and nothing else is different. -/
theorem compile_unmarked_stale :
    (busy.compile (stale.revise unmark)).1 = .ok "lb 5 k 2 5 k / sa 0 k" ∧
      (busy.check (stale.revise unmark)).1 = (Compiler.check {} stale).1 ∧
      (busy.check (stray none)).1 ≠ (Compiler.check {} (stray (some 3))).1 ∧
      (busy.check (stray none)).1.revise settle =
        (Compiler.check {} (stray (some 3))).1.revise settle := by
  obtain ⟨-, -, -, hcode, -, -, -, htree⟩ :=
    compile_unmarked busy {} (stale.revise unmark) stale (by decide)
  obtain ⟨-, -, -, -, -, hstray, -, -⟩ :=
    compile_unmarked busy {} (stray none) (stray (some 3)) (by decide)
  exact ⟨hcode.trans (by decide +kernel), (htree (by decide +kernel)).1, by decide +kernel, hstray⟩

end Compile
end DeskCalc
