import DeskCalc.Proofs.Preservation
import DeskCalc.Proofs.Uses

/-!
# The precision of an operation

The code of an expression has one instruction for each node, in postfix order (`Expr.nodes`,
`code_emit_expr`), so that an operation of the calculator belongs to a node of the tree.  Only a
conversion sets the precision within an assignment, and the end of the assignment takes it back.
Hence the precision in force at a node is five if a conversion stands before it in the postfix order
of its assignment, and zero otherwise (`run_upTo`), whatever the type of the node.

* `codeUpTo`            the code before a node: that of the items before and of the nodes before;
* `float_precision`     operations on floats;
* `int_precision`       operations on integers, and the value of an expression of integers.
-/

namespace DeskCalc

/-! ## Nodes in postfix order -/

namespace Expr

/-- the nodes of an expression, each behind its parts -/
def nodes : Expr → List Expr
  | const value declared t p => [const value declared t p]
  | deref id t p => [deref id t p]
  | binary op left right t p => left.nodes ++ right.nodes ++ [binary op left right t p]
  | convert inner t p => inner.nodes ++ [convert inner t p]

/-- the nodes before the topmost one -/
def parts : Expr → List Expr
  | const .. | deref .. => []
  | binary _ left right _ _ => left.nodes ++ right.nodes
  | convert inner _ _ => inner.nodes

def isConversion : Expr → Bool
  | convert .. => true
  | _ => false

/-- the instruction of a node itself; that of a variable needs its register -/
def instruction? (t : SymbolTable) : Expr → Option Instruction
  | const value _ _ _ => some (.push value)
  | deref id _ _ => (t.register? id).map .load
  | binary op _ _ _ _ => some (.arith op)
  | convert _ _ _ => some (.precision maxFractionDigits)

theorem mem_nodes_self (e : Expr) : e ∈ e.nodes := by
  cases e <;> simp [nodes]

end Expr

theorem code_emit_expr {t : SymbolTable} {e : Expr} (h : (e.emit t).fault = none) :
    (e.emit t).code = e.nodes.filterMap (Expr.instruction? t) := by
  induction e with
  | const value declared type p => rfl
  | deref id type p =>
    rw [Expr.emit, emitWith] at h ⊢
    rw [Expr.nodes, List.filterMap_cons, Expr.instruction?]
    cases hr : t.register? id with
    | none =>
      rw [hr] at h
      cases h
    | some r => rfl
  | binary op left right type p ihl ihr =>
    obtain ⟨hlr, -, hc⟩ := Emitted.andThen_inv h
    obtain ⟨hl, hr, hc'⟩ := Emitted.andThen_inv hlr
    rw [Expr.emit, hc, hc', ihl hl, ihr hr, Expr.nodes, List.filterMap_append,
      List.filterMap_append]
    rfl
  | convert inner type p ih =>
    obtain ⟨hi, -, hc⟩ := Emitted.andThen_inv h
    rw [Expr.emit, hc, ih hi, Expr.nodes, List.filterMap_append]
    rfl

theorem fault_of_mem_nodes {t : SymbolTable} {v : Expr} (h : (v.emit t).fault = none) :
    ∀ e ∈ v.nodes, (e.emit t).fault = none := by
  induction v with
  | const value declared type p =>
    intro e he
    obtain rfl := List.mem_singleton.mp he
    exact h
  | deref id type p =>
    intro e he
    obtain rfl := List.mem_singleton.mp he
    exact h
  | binary op left right type p ihl ihr =>
    obtain ⟨hlr, -, -⟩ := Emitted.andThen_inv h
    obtain ⟨hl, hr, -⟩ := Emitted.andThen_inv hlr
    intro e he
    rcases List.mem_append.mp he with he | he
    · rcases List.mem_append.mp he with he | he
      · exact ihl hl e he
      · exact ihr hr e he
    · obtain rfl := List.mem_singleton.mp he
      exact h
  | convert inner type p ih =>
    obtain ⟨hi, -, -⟩ := Emitted.andThen_inv h
    intro e he
    rcases List.mem_append.mp he with he | he
    · exact ih hi e he
    · obtain rfl := List.mem_singleton.mp he
      exact h

theorem last_of_singleton {α : Type} {x e : α} {before after : List α}
    (h : [x] = before ++ e :: after) : before = [] ∧ e = x := by
  cases before with
  | nil => exact ⟨rfl, (List.cons.inj h).1.symm⟩
  | cons b before => simp at h

theorem split_of_append {α : Type} {xs ys before after : List α} {e : α}
    (h : xs ++ ys = before ++ e :: after) :
    (∃ mid, xs = before ++ e :: mid) ∨ ∃ mid, before = xs ++ mid ∧ ys = mid ++ e :: after := by
  rcases List.append_eq_append_iff.mp h with ⟨mid, hb, hy⟩ | ⟨mid, hx, hy⟩
  · exact .inr ⟨mid, hb, hy⟩
  · cases mid with
    | nil => exact .inr ⟨[], by rw [hx, List.append_nil, List.append_nil], hy.symm⟩
    | cons e' mid =>
      obtain ⟨rfl, -⟩ := List.cons.inj hy
      exact .inl ⟨mid, hx⟩

/-- A node stands right behind the nodes of its parts. -/
theorem nodes_block {v : Expr} {before after : List Expr} {e : Expr}
    (h : v.nodes = before ++ e :: after) : ∃ outer, before = outer ++ e.parts := by
  induction v generalizing before after with
  | const value declared type p =>
    obtain ⟨rfl, rfl⟩ := last_of_singleton h
    exact ⟨[], rfl⟩
  | deref id type p =>
    obtain ⟨rfl, rfl⟩ := last_of_singleton h
    exact ⟨[], rfl⟩
  | binary op left right type p ihl ihr =>
    rcases split_of_append h with ⟨mid, hlr⟩ | ⟨mid, rfl, hself⟩
    · rcases split_of_append hlr with ⟨mid, hl⟩ | ⟨mid, rfl, hr⟩
      · exact ihl hl
      · obtain ⟨outer, rfl⟩ := ihr hr
        exact ⟨left.nodes ++ outer, (List.append_assoc _ _ _).symm⟩
    · obtain ⟨rfl, rfl⟩ := last_of_singleton hself
      exact ⟨[], List.append_nil _⟩
  | convert inner type p ih =>
    rcases split_of_append h with ⟨mid, hi⟩ | ⟨mid, rfl, hself⟩
    · exact ih hi
    · obtain ⟨rfl, rfl⟩ := last_of_singleton hself
      exact ⟨[], List.append_nil _⟩

/-! ## The precision along a row of nodes -/

/-- the precision behind a row of nodes that is met at a given precision -/
def digitsBehind (nodes : List Expr) (k : Nat) : Nat :=
  if nodes.any Expr.isConversion then 5 else k

theorem digitsBehind_append (ns ns' : List Expr) (k : Nat) :
    digitsBehind (ns ++ ns') k = digitsBehind ns' (digitsBehind ns k) := by
  unfold digitsBehind
  rw [List.any_append]
  cases ns.any Expr.isConversion <;> cases ns'.any Expr.isConversion <;> rfl

theorem digitsBehind_eq_five_iff {ns : List Expr} :
    digitsBehind ns 0 = 5 ↔ ∃ e ∈ ns, e.isConversion = true := by
  rw [digitsBehind, ← List.any_eq_true]
  cases ns.any Expr.isConversion <;> simp

theorem digitsBehind_eq_zero_iff {ns : List Expr} :
    digitsBehind ns 0 = 0 ↔ ∀ e ∈ ns, e.isConversion = false := by
  have hany : ns.any Expr.isConversion = false ↔ ∀ e ∈ ns, e.isConversion = false := by simp
  rw [digitsBehind, ← hany]
  cases ns.any Expr.isConversion <;> simp

section
variable {V : Type*} (A : Arithmetic V)

theorem step_instruction {t : SymbolTable} {n : Expr} {i : Instruction}
    (hi : n.instruction? t = some i) {m m' : Machine V} (h : m.step A i = some m') :
    m'.precision = digitsBehind [n] m.precision ∧ m'.register = m.register := by
  cases n with
  | const value declared type p =>
    obtain rfl := Option.some.inj hi
    obtain rfl := Option.some.inj h
    exact ⟨rfl, rfl⟩
  | deref id type p =>
    obtain ⟨r, -, rfl⟩ := Option.map_eq_some_iff.mp hi
    obtain rfl := Option.some.inj h
    exact ⟨rfl, rfl⟩
  | binary op left right type p =>
    obtain rfl := Option.some.inj hi
    rw [Machine.step] at h
    split at h
    · obtain rfl := Option.some.inj h
      exact ⟨rfl, rfl⟩
    · cases h
  | convert inner type p =>
    obtain rfl := Option.some.inj hi
    obtain rfl := Option.some.inj h
    exact ⟨rfl, rfl⟩

theorem run_nodes (t : SymbolTable) (ns : List Expr) {m m' : Machine V}
    (h : m.run A (ns.filterMap (Expr.instruction? t)) = some m') :
    m'.precision = digitsBehind ns m.precision ∧ m'.register = m.register := by
  induction ns generalizing m with
  | nil =>
    obtain rfl := Option.some.inj h
    exact ⟨rfl, rfl⟩
  | cons n ns ih =>
    rw [List.filterMap_cons] at h
    have hcons : digitsBehind (n :: ns) m.precision =
        digitsBehind ns (digitsBehind [n] m.precision) := digitsBehind_append [n] ns _
    rw [hcons]
    cases hi : n.instruction? t with
    | none =>
      rw [hi] at h
      have hn : digitsBehind [n] m.precision = m.precision := by
        cases n with
        | convert inner type p => cases hi
        | const value declared type p => rfl
        | deref id type p => rfl
        | binary op left right type p => rfl
      rw [hn]
      exact ih h
    | some i =>
      rw [hi, Machine.run_cons] at h
      obtain ⟨m₁, hstep, hrun⟩ := Option.bind_eq_some_iff.mp h
      obtain ⟨hp, hr⟩ := step_instruction A hi hstep
      obtain ⟨hp', hr'⟩ := ih hrun
      rw [hp', hp, hr', hr]
      exact ⟨rfl, rfl⟩

theorem precision_value (store : String → V) (e : Expr) (k : Nat) :
    (e.value A store k).2 = digitsBehind e.nodes k := by
  induction e generalizing k with
  | const number declared type p => rfl
  | deref id type p => rfl
  | binary op left right type p ihl ihr =>
    show (right.value A store (left.value A store k).2).2 = _
    rw [ihr, ihl, Expr.nodes, digitsBehind_append, digitsBehind_append]
    rfl
  | convert inner type p ih =>
    rw [Expr.nodes, digitsBehind_append]
    rfl

end

/-! ## Integers hold no conversion -/

/-- every node that is marked as an integer has no conversion in it -/
def Expr.IntegersPlain (v : Expr) : Prop :=
  ∀ e ∈ v.nodes, e.type = some (.num .int) → e.nodes.any Expr.isConversion = false

theorem Checked.integersPlain_as {c : Checked Expr} (h : c.node.IntegersPlain) (s : CheckedType) :
    (c.as s).IntegersPlain := by
  unfold Checked.as
  split
  · intro e he hint
    rcases List.mem_append.mp he with he | he
    · exact h e he hint
    · obtain rfl := List.mem_singleton.mp he
      cases hint
  · exact h

theorem CheckedType.join_eq_int {s t : CheckedType} (h : join s t = num .int) :
    s = num .int ∧ t = num .int := by
  rcases s with (_ | _) | _ | _ <;> rcases t with (_ | _) | _ | _ <;> simp_all [join]

/-- A check leaves the type it finds on the node, and no conversion in an integer. -/
theorem integersPlain_check (t : SymbolTable) (e : Expr) :
    (e.check t).node.type = some (e.check t).type ∧ (e.check t).node.IntegersPlain := by
  induction e with
  | const value declared type p =>
    refine ⟨rfl, fun e he _ => ?_⟩
    obtain rfl := List.mem_singleton.mp he
    rfl
  | deref id type p =>
    refine ⟨rfl, fun e he _ => ?_⟩
    obtain rfl := List.mem_singleton.mp he
    rfl
  | binary op left right type p ihl ihr =>
    refine ⟨rfl, fun e he hint => ?_⟩
    rcases List.mem_append.mp he with he | he
    · rcases List.mem_append.mp he with he | he
      · exact Checked.integersPlain_as ihl.2 _ e he hint
      · exact Checked.integersPlain_as ihr.2 _ e he hint
    · obtain rfl := List.mem_singleton.mp he
      have hjoin : (left.check t).type.join (right.check t).type = .num .int := Option.some.inj hint
      obtain ⟨hl, hr⟩ := CheckedType.join_eq_int hjoin
      have hasl : (left.check t).as ((left.check t).type.join (right.check t).type) =
          (left.check t).node := if_neg (by simp [hjoin])
      have hasr : (right.check t).as ((left.check t).type.join (right.check t).type) =
          (right.check t).node := if_neg (by simp [hjoin])
      have hleft := ihl.2 _ (Expr.mem_nodes_self _) (by rw [ihl.1, hl])
      have hright := ihr.2 _ (Expr.mem_nodes_self _) (by rw [ihr.1, hr])
      rw [hasl, hasr, Expr.nodes, List.any_append, List.any_append, hleft, hright]
      rfl
  | convert inner type p ih =>
    refine ⟨rfl, fun e he hint => ?_⟩
    rcases List.mem_append.mp he with he | he
    · exact ih.2 e he hint
    · obtain rfl := List.mem_singleton.mp he
      cases hint

theorem mem_node_checkItems {t : SymbolTable} {is : List Item} {i : Item}
    (h : i ∈ (checkItems t is).node) : ∃ t' j, i = (Item.check t' j).node := by
  induction is generalizing t with
  | nil => cases h
  | cons j js ih =>
    rcases List.mem_cons.mp h with rfl | h
    · exact ⟨t, j, rfl⟩
    · exact ih h

theorem integersPlain_of_mem {t : SymbolTable} {is : List Item} {target : Identifier}
    {value : Expr} {type : Option CheckedType} {p : Position}
    (h : .assign target value type p ∈ (checkItems t is).node) : value.IntegersPlain := by
  obtain ⟨t', j, hj⟩ := mem_node_checkItems h
  cases j with
  | declare declared id type' p' =>
    rw [Item.check] at hj
    unfold checkDeclare at hj
    split at hj <;> cases hj
  | assign target' value' type' p' =>
    obtain ⟨s, type'', hnode⟩ := exists_node_checkAssign t' target' value' p'
    obtain ⟨-, rfl, -, -⟩ := Item.assign.inj (hj.trans hnode)
    exact Checked.integersPlain_as (integersPlain_check t' value').2 s
  | print id type' p' => cases hj

/-! ## Up to a node -/

def tableBehind (t : SymbolTable) (is : List Item) : SymbolTable :=
  (emitItems { table := t } is).2.table

/-- the code before a node of an assignment behind the items `is`: that of these items, and of the
nodes before it in the value of the assignment -/
def codeUpTo (t : SymbolTable) (is : List Item) (before : List Expr) : List Instruction :=
  (emitItems { table := t } is).1.code ++ before.filterMap (Expr.instruction? (tableBehind t is))

theorem codeUpTo_append (t : SymbolTable) (is : List Item) (before inner : List Expr) :
    codeUpTo t is (before ++ inner) =
      codeUpTo t is before ++ inner.filterMap (Expr.instruction? (tableBehind t is)) := by
  rw [codeUpTo, codeUpTo, List.filterMap_append, List.append_assoc]

section UpTo
variable {c d : Compiler} {p q : Program} {text : String} {is js : List Item}
  {target : Identifier} {value : Expr} {type : Option CheckedType} {pos : Position}

theorem sound_of_compile (h : c.compile p = (.ok text, q, d)) :
    Allocation.Sound { table := (c.check p).2.symbols } ∧
      (∀ n, (c.check p).2.symbols.registerOf? n = none) ∧ (declaredNames q.items).Nodup := by
  obtain ⟨hfaults, rfl, -⟩ := Compiler.compile_inv h
  obtain ⟨hn, hnodup, hnone⟩ := checked_table_of_faultless hfaults
  refine ⟨Allocation.sound_of_fresh hn hnone, hnone, ?_⟩
  rwa [declaredNames, ← declarations_checkItems .empty p.items] at hnodup

theorem emit_value (h : c.compile p = (.ok text, q, d))
    (hq : q.items = is ++ .assign target value type pos :: js) :
    (emitItems { table := (c.check p).2.symbols } is).1.fault = none ∧
      (value.emit (tableBehind (c.check p).2.symbols is)).fault = none ∧
      ∃ rest, d.instructions = codeUpTo (c.check p).2.symbols is value.nodes ++ rest := by
  obtain ⟨-, rfl, hcode, hd, -⟩ := Compiler.compile_inv h
  rw [hq] at hcode hd
  obtain ⟨his, hi, rest, hrest⟩ := emitItems_split hcode
  obtain ⟨hv, -, hc⟩ := Emitted.andThen_inv hi
  refine ⟨his, hv, ?_⟩
  rw [hd, hrest, Item.emit, hc, code_emit_expr hv, codeUpTo, tableBehind]
  exact ⟨_, by rw [List.append_assoc, List.append_assoc]⟩

/-- **Up to a node.**  The code before a node runs, and leaves the precision that the conversions
before it in its assignment decide, and the variables in their registers. -/
theorem run_upTo {V : Type*} (A : Arithmetic V) (h : c.compile p = (.ok text, q, d))
    (hq : q.items = is ++ .assign target value type pos :: js) {before after : List Expr}
    (hn : value.nodes = before ++ after) :
    ∃ m, (Machine.start A).run A (codeUpTo (c.check p).2.symbols is before) = some m ∧
      m.precision = digitsBehind before 0 ∧
      ∀ n r, (tableBehind (c.check p).2.symbols is).registerOf? n = some r →
        m.register r = ((World.start A).run A is).store n := by
  obtain ⟨hsound, hnone, hnodup⟩ := sound_of_compile h
  obtain ⟨his, hv, -⟩ := emit_value h hq
  have hnd : (declaredNames is).Nodup := by
    rw [hq, declaredNames, declarations_append, List.map_append] at hnodup
    exact (List.nodup_append.mp hnodup).1
  have hstart : Matches A { table := (c.check p).2.symbols } (Machine.start A) (World.start A) :=
    Matches.start hnone
  obtain ⟨m, hrun, hm⟩ := hstart.items hsound is his hnd fun n _ => hnone n
  have hvalue : m.run A (value.emit (tableBehind (c.check p).2.symbols is)).code = _ :=
    run_emit_expr A (hsound.items his).names _ value hv m hm.held
  rw [code_emit_expr hv, hn, List.filterMap_append, Machine.run_append] at hvalue
  obtain ⟨m', hfront, -⟩ := Option.bind_eq_some_iff.mp hvalue
  obtain ⟨hprec, hreg⟩ := run_nodes A _ before hfront
  refine ⟨m', ?_, ?_, ?_⟩
  · rw [codeUpTo, Machine.run_append, hrun, Option.bind_some]
    exact hfront
  · rw [hprec, hm.precision]
  · intro n r hr
    rw [hreg]
    exact hm.held n r hr

theorem run_to_operation {V : Type*} (A : Arithmetic V) (h : c.compile p = (.ok text, q, d))
    (hq : q.items = is ++ .assign target value type pos :: js) {before after : List Expr}
    {op : Operator} {l r : Expr} {mark : Option CheckedType} {pos' : Position}
    (hn : value.nodes = before ++ .binary op l r mark pos' :: after) :
    ∃ rest m,
      d.instructions = codeUpTo (c.check p).2.symbols is before ++ .arith op :: rest ∧
      (Machine.start A).run A (codeUpTo (c.check p).2.symbols is before) = some m ∧
      (m.precision = 0 ↔ ∀ n ∈ before, n.isConversion = false) ∧
      (m.precision = 5 ↔ ∃ n ∈ before, n.isConversion = true) := by
  obtain ⟨-, -, rest, hcode⟩ := emit_value h hq
  obtain ⟨m, hrun, hprec, -⟩ := run_upTo A h hq hn
  rw [hn, codeUpTo_append, List.filterMap_cons, List.append_assoc] at hcode
  rw [← digitsBehind_eq_zero_iff, ← digitsBehind_eq_five_iff, ← hprec]
  exact ⟨_, m, hcode, hrun, .rfl, .rfl⟩

/-- **Operations on floats.**  Five digits are in force exactly if a conversion stands before the
operation in the postfix order of its assignment, and none otherwise; so they are if an operand of
the operation itself was converted. -/
theorem float_precision {V : Type*} (A : Arithmetic V) (h : c.compile p = (.ok text, q, d))
    (hq : q.items = is ++ .assign target value type pos :: js) {before after : List Expr}
    {op : Operator} {l r : Expr} {pos' : Position}
    (hn : value.nodes = before ++ .binary op l r (some (.num .float)) pos' :: after) :
    ∃ rest m,
      d.instructions = codeUpTo (c.check p).2.symbols is before ++ .arith op :: rest ∧
      (Machine.start A).run A (codeUpTo (c.check p).2.symbols is before) = some m ∧
      (m.precision = 5 ↔ ∃ n ∈ before, n.isConversion = true) ∧
      (m.precision = 0 ↔ ∀ n ∈ before, n.isConversion = false) ∧
      (l.isConversion = true ∨ r.isConversion = true → m.precision = 5) := by
  obtain ⟨rest, m, hcode, hrun, hzero, hfive⟩ := run_to_operation A h hq hn
  refine ⟨rest, m, hcode, hrun, hfive, hzero, fun hop => hfive.mpr ?_⟩
  obtain ⟨outer, rfl⟩ := nodes_block hn
  rcases hop with hl | hr
  · exact ⟨l, by simp [Expr.parts, Expr.mem_nodes_self], hl⟩
  · exact ⟨r, by simp [Expr.parts, Expr.mem_nodes_self], hr⟩

/-- `float f; f = value;` -/
def floatProgram (value : Expr) : Program where
  items :=
    [.declare .float { name := "f", pos := ⟨1, 7⟩ } none ⟨1, 1⟩,
      .assign { name := "f", pos := ⟨1, 10⟩ } value none ⟨1, 10⟩]

/-- `float f; f = 1.5 / 2.5;` -/
def ratio : Program :=
  floatProgram (.apply .divide (.literal "1.5" .float ⟨1, 14⟩) (.literal "2.5" .float ⟨1, 20⟩))

def markedLiteral (value : String) (declared : NumType) (column : Nat) : Expr :=
  .const value declared (some (.num declared)) ⟨1, column⟩

def markedDeclare : Item :=
  .declare .float { name := "f", type := some (.num .float), symbol := some 0, pos := ⟨1, 7⟩ }
    (some (.num .float)) ⟨1, 1⟩

def markedAssign (value : Expr) : Item :=
  .assign { name := "f", type := some (.num .float), symbol := some 0, pos := ⟨1, 10⟩ } value
    (some (.num .float)) ⟨1, 10⟩

def ratioValue : Expr :=
  .binary .divide (markedLiteral "1.5" .float 14) (markedLiteral "2.5" .float 20)
    (some (.num .float)) ⟨1, 14⟩

/-- Two floats are divided without digits: there is no conversion before the operation. -/
theorem ratio_without_digits :
    (Compiler.compile {} ratio).1 = .ok "1.5 2.5 / sa 0 k" ∧
      (Compiler.compile {} ratio).2.1.items = [markedDeclare, markedAssign ratioValue] ∧
      ratioValue.type = some (.num .float) ∧
      (Compiler.compile {} ratio).2.2.instructions =
        [.push "1.5", .push "2.5"] ++ .arith .divide :: [.store 'a', .precision 0] ∧
      ((Machine.start tracing).run tracing [.push "1.5", .push "2.5"]).map Machine.precision =
        some 0 := by
  refine ⟨?_, ?_, rfl, ?_, rfl⟩
  · decide +kernel
  · decide +kernel
  · decide +kernel

/-- `1 + 2.5`, where the integer is converted -/
def mixedSum : Expr :=
  .binary .plus (markedLiteral "1" .int 14).widen (markedLiteral "2.5" .float 18)
    (some (.num .float)) ⟨1, 14⟩

/-- `3 / 2`, an expression of integers -/
def threeHalves (column : Nat) : Expr :=
  .binary .divide (markedLiteral "3" .int column) (markedLiteral "2" .int (column + 4))
    (some (.num .int)) ⟨1, column⟩

/-- `float f; f = 1 + 2.5 + 3 / 2;` -/
def blend : Program :=
  floatProgram (.apply .plus
    (.apply .plus (.literal "1" .int ⟨1, 14⟩) (.literal "2.5" .float ⟨1, 18⟩))
    (.apply .divide (.literal "3" .int ⟨1, 24⟩) (.literal "2" .int ⟨1, 28⟩)))

def blendValue : Expr :=
  .binary .plus mixedSum (threeHalves 24).widen (some (.num .float)) ⟨1, 14⟩

/-- An operation on a converted operand has its digits. -/
theorem float_precision_mixed :
    ∃ rest m, (Compiler.compile {} blend).2.2.instructions =
        codeUpTo (Compiler.check {} blend).2.symbols [markedDeclare] mixedSum.parts ++
          .arith .plus :: rest ∧
      (Machine.start tracing).run tracing
        (codeUpTo (Compiler.check {} blend).2.symbols [markedDeclare] mixedSum.parts) = some m ∧
      m.precision = 5 := by
  have hok : (Compiler.compile {} blend).1 = .ok "1 5 k 2.5 + 3 2 / 5 k + sa 0 k" := by
    decide +kernel
  have hcompile : Compiler.compile {} blend =
      (.ok "1 5 k 2.5 + 3 2 / 5 k + sa 0 k", (Compiler.compile {} blend).2.1,
        (Compiler.compile {} blend).2.2) := Prod.ext hok rfl
  have hitems : (Compiler.compile {} blend).2.1.items =
      [markedDeclare] ++ markedAssign blendValue :: [] := by decide +kernel
  obtain ⟨rest, m, hcode, hrun, -, -, hmixed⟩ :=
    float_precision tracing hcompile hitems
      (show blendValue.nodes = mixedSum.parts ++ mixedSum :: _ from rfl)
  exact ⟨rest, m, hcode, hrun, hmixed (.inl rfl)⟩

/-- An expression of integers runs at the precision that the nodes before it decide, and leaves it as
it was. -/
theorem run_through_integers {V : Type*} (A : Arithmetic V) (h : c.compile p = (.ok text, q, d))
    (hq : q.items = is ++ .assign target value type pos :: js) {before after : List Expr} {e : Expr}
    (hn : value.nodes = before ++ e.nodes ++ after) (he : e.type = some (.num .int)) :
    ∃ m, (Machine.start A).run A (codeUpTo (c.check p).2.symbols is before) = some m ∧
      (Machine.start A).run A (codeUpTo (c.check p).2.symbols is (before ++ e.nodes)) =
        some (m.holding ((e.value A ((World.start A).run A is).store (digitsBehind before 0)).1,
          digitsBehind before 0)) := by
  obtain ⟨his, hv, -⟩ := emit_value h hq
  obtain ⟨m, hrun, hprec, hheld⟩ := run_upTo A h hq (hn.trans (List.append_assoc _ _ _))
  have hmem : e ∈ value.nodes := by
    rw [hn]
    simp [Expr.mem_nodes_self]
  have hplain : e.nodes.any Expr.isConversion = false := by
    obtain ⟨-, rfl, -⟩ := Compiler.compile_inv h
    have hitem : .assign target value type pos ∈ (c.check p).1.items := by
      rw [hq]
      simp
    exact integersPlain_of_mem hitem e hmem he
  have hfault := fault_of_mem_nodes hv e hmem
  have hnames : (tableBehind (c.check p).2.symbols is).names.Nodup :=
    ((sound_of_compile h).1.items his).names
  have hself := run_emit_expr A hnames _ e hfault m hheld
  refine ⟨m, hrun, ?_⟩
  rw [codeUpTo_append, Machine.run_append, hrun, Option.bind_some, ← code_emit_expr hfault, hself,
    hprec]
  have hkeep : (e.value A ((World.start A).run A is).store (digitsBehind before 0)).2 =
      digitsBehind before 0 := by
    rw [precision_value, digitsBehind, hplain]
    rfl
  exact congrArg (fun k => some (m.holding (_, k))) hkeep

/-- **Operations on integers.**  No digits are in force exactly if no conversion stands before the
operation in the postfix order of its assignment, and five otherwise.  So an expression of integers,
which holds no conversion itself, has the same value in every place without a conversion before it
in its assignment. -/
theorem int_precision {V : Type*} (A : Arithmetic V) (h : c.compile p = (.ok text, q, d))
    (hq : q.items = is ++ .assign target value type pos :: js) :
    (∀ before op l r pos' after,
      value.nodes = before ++ .binary op l r (some (.num .int)) pos' :: after →
      ∃ rest m,
        d.instructions = codeUpTo (c.check p).2.symbols is before ++ .arith op :: rest ∧
        (Machine.start A).run A (codeUpTo (c.check p).2.symbols is before) = some m ∧
        (m.precision = 0 ↔ ∀ n ∈ before, n.isConversion = false) ∧
        (m.precision = 5 ↔ ∃ n ∈ before, n.isConversion = true)) ∧
    ∀ before (e : Expr) after, value.nodes = before ++ e.nodes ++ after →
      e.type = some (.num .int) →
      ∃ m, (Machine.start A).run A (codeUpTo (c.check p).2.symbols is before) = some m ∧
        ((∀ n ∈ before, n.isConversion = false) →
          (Machine.start A).run A (codeUpTo (c.check p).2.symbols is (before ++ e.nodes)) =
            some (m.holding ((e.value A ((World.start A).run A is).store 0).1, 0))) ∧
        ((∃ n ∈ before, n.isConversion = true) →
          (Machine.start A).run A (codeUpTo (c.check p).2.symbols is (before ++ e.nodes)) =
            some (m.holding ((e.value A ((World.start A).run A is).store 5).1, 5))) := by
  constructor
  · intro before op l r pos' after hn
    exact run_to_operation A h hq hn
  · intro before e after hn he
    obtain ⟨m, hrun, hthrough⟩ := run_through_integers A h hq hn he
    refine ⟨m, hrun, fun hnone => ?_, fun hsome => ?_⟩
    · rwa [digitsBehind_eq_zero_iff.mpr hnone] at hthrough
    · rwa [digitsBehind_eq_five_iff.mpr hsome] at hthrough

/-- `float f; f = 3 / 2 + 2.5;` -/
def lead : Program :=
  floatProgram (.apply .plus
    (.apply .divide (.literal "3" .int ⟨1, 14⟩) (.literal "2" .int ⟨1, 18⟩))
    (.literal "2.5" .float ⟨1, 22⟩))

/-- The same quotient of integers with five digits and with none: a conversion stands before the
first, and none before the second. -/
theorem threeHalves_twice :
    (Compiler.compile {} blend).1 = .ok "1 5 k 2.5 + 3 2 / 5 k + sa 0 k" ∧
      (Compiler.compile {} blend).2.1.items = [markedDeclare, markedAssign blendValue] ∧
      (threeHalves 24).type = some (.num .int) ∧
      (Compiler.compile {} blend).2.2.instructions =
        [.push "1", .precision 5, .push "2.5", .arith .plus, .push "3", .push "2"] ++
          .arith .divide :: [.precision 5, .arith .plus, .store 'a', .precision 0] ∧
      ((Machine.start tracing).run tracing
        [.push "1", .precision 5, .push "2.5", .arith .plus, .push "3", .push "2"]).map
          Machine.precision = some 5 ∧
      (Compiler.compile {} lead).1 = .ok "3 2 / 5 k 2.5 + sa 0 k" ∧
      ((Machine.start tracing).run tracing
        [.push "1", .precision 5, .push "2.5", .arith .plus, .push "3", .push "2",
          .arith .divide]).bind (fun m => m.stack.head?) = some [5, 1, 1] ∧
      ((Machine.start tracing).run tracing
        [.push "3", .push "2", .arith .divide]).bind (fun m => m.stack.head?) = some [0, 1, 1] := by
  refine ⟨?_, ?_, rfl, ?_, rfl, ?_, rfl, rfl⟩
  · decide +kernel
  · decide +kernel
  · decide +kernel
  · decide +kernel

def leadValue : Expr :=
  .binary .plus (threeHalves 14).widen (markedLiteral "2.5" .float 22) (some (.num .float)) ⟨1, 14⟩

/-- At the front of an assignment a quotient of integers has no digits. -/
theorem int_precision_lead :
    (∃ rest m, (Compiler.compile {} lead).2.2.instructions =
        codeUpTo (Compiler.check {} lead).2.symbols [markedDeclare] (threeHalves 14).parts ++
          .arith .divide :: rest ∧
      (Machine.start tracing).run tracing
        (codeUpTo (Compiler.check {} lead).2.symbols [markedDeclare] (threeHalves 14).parts) =
          some m ∧ m.precision = 0) ∧
    ∃ m : Machine (List Nat), (Machine.start tracing).run tracing
        (codeUpTo (Compiler.check {} lead).2.symbols [markedDeclare] (threeHalves 14).nodes) =
      some (m.holding ([0, 1, 1], 0)) := by
  have hok : (Compiler.compile {} lead).1 = .ok "3 2 / 5 k 2.5 + sa 0 k" := by decide +kernel
  have hcompile : Compiler.compile {} lead =
      (.ok "3 2 / 5 k 2.5 + sa 0 k", (Compiler.compile {} lead).2.1,
        (Compiler.compile {} lead).2.2) := Prod.ext hok rfl
  have hitems : (Compiler.compile {} lead).2.1.items =
      [markedDeclare] ++ markedAssign leadValue :: [] := by decide +kernel
  obtain ⟨hoperations, hvalues⟩ := int_precision tracing hcompile hitems
  constructor
  · obtain ⟨rest, m, hcode, hrun, hzero, -⟩ :=
      hoperations _ _ _ _ _ _
        (show leadValue.nodes = (threeHalves 14).parts ++ threeHalves 14 :: _ from rfl)
    exact ⟨rest, m, hcode, hrun, hzero.mpr (by decide)⟩
  · obtain ⟨m, -, hnone, -⟩ :=
      hvalues [] (threeHalves 14) _
        (show leadValue.nodes = [] ++ (threeHalves 14).nodes ++ _ from rfl) rfl
    exact ⟨m, hnone (by simp)⟩

end UpTo
end DeskCalc
