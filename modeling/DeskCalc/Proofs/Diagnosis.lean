import DeskCalc.Proofs.Declarations
import DeskCalc.Proofs.RoundTrip

/-!
# What a check reports

The faults of a program, said without a table and without types: of each item they depend on the
items before it alone, through the first declaration of each name, and of an expression on its
leaves alone.  The checker finds the same with one walk (`faults_checkItems`), because its table
knows of every name what the first declaration said (`Knows`), and the type of an expression is an
error if a name in it is unknown and is otherwise that of its widest leaf (`check_expr`).

* `declaredType?`   the type of a name's first declaration;
* `Expr.leaves`     literals and variables from left to right;
* `diagnosis`       the faults of a row of items behind others;
* `check_exact`     log and table of a check.
-/

namespace DeskCalc

/-! ## The faults of a program -/

/-- the type that an item gives to a name, if it declares it -/
def Item.typeFor? (name : String) : Item → Option NumType
  | declare declared id _ _ => if id.name = name then some declared else none
  | assign .. | print .. => none

def declaredType? (is : List Item) (name : String) : Option NumType :=
  is.findSome? (Item.typeFor? name)

def Expr.leaves : Expr → List Expr
  | const value declared t p => [const value declared t p]
  | deref id t p => [deref id t p]
  | binary _ left right _ _ => left.leaves ++ right.leaves
  | convert inner _ _ => inner.leaves

/-- a use of a name behind the items `earlier`: a fault if none of them declares it -/
def Identifier.diagnosis (earlier : List Item) (id : Identifier) : List SemanticFault :=
  if declaredType? earlier id.name = none then [.undeclared id.name id.pos] else []

def Expr.leafDiagnosis (earlier : List Item) : Expr → List SemanticFault
  | deref id _ _ => id.diagnosis earlier
  | _ => []

/-- a float literal, or a variable that was first declared a float -/
def Expr.isFloatLeaf (earlier : List Item) : Expr → Bool
  | const _ declared _ _ => declared = .float
  | deref id _ _ => declaredType? earlier id.name = some .float
  | _ => false

def Expr.diagnosis (earlier : List Item) (e : Expr) : List SemanticFault :=
  e.leaves.flatMap (leafDiagnosis earlier)

def Expr.hasFloat (earlier : List Item) (e : Expr) : Bool := e.leaves.any (isFloatLeaf earlier)

/-- the faults of an item behind the items `earlier`; an assignment is compared only if all its
names are known -/
def Item.diagnosis (earlier : List Item) : Item → List SemanticFault
  | declare _ id _ _ =>
    if declaredType? earlier id.name = none then [] else [.duplicate id.name id.pos]
  | assign target value _ p =>
    let unknown := target.diagnosis earlier ++ value.diagnosis earlier
    if unknown = [] then
      if declaredType? earlier target.name = some .int ∧ value.hasFloat earlier = true then
        [.assignment (.num .int) (.num .float) p]
      else []
    else unknown
  | print id _ _ => id.diagnosis earlier

def diagnosis (earlier : List Item) : List Item → List SemanticFault
  | [] => []
  | i :: is => i.diagnosis earlier ++ diagnosis (earlier ++ [i]) is

def Expr.Unconverted : Expr → Prop
  | const .. | deref .. => True
  | binary _ left right _ _ => left.Unconverted ∧ right.Unconverted
  | convert .. => False

def Item.Unconverted : Item → Prop
  | assign _ value _ _ => value.Unconverted
  | _ => True

def Program.Unconverted (p : Program) : Prop := ∀ i ∈ p.items, i.Unconverted

/-! ## What the table knows -/

theorem declaredType?_append (is js : List Item) (name : String) :
    declaredType? (is ++ js) name = (declaredType? is name).or (declaredType? js name) :=
  List.findSome?_append

theorem declaredType?_singleton (i : Item) (name : String) :
    declaredType? [i] name = (SymbolTable.find? ⟨i.entry?.toList⟩ name).map Symbol.type := by
  cases i with
  | declare declared id t p =>
    show [Item.declare declared id t p].findSome? (Item.typeFor? name) =
      (SymbolTable.find? ⟨[{ name := id.name, type := declared }]⟩ name).map Symbol.type
    rw [SymbolTable.find?_cons, List.findSome?_singleton, Item.typeFor?]
    by_cases h : id.name = name
    · rw [if_pos h, if_pos h]
      rfl
    · rw [if_neg h, if_neg h]
      rfl
  | assign target value t p => rfl
  | print id t p => rfl

/-- the table has of every name the type of its first declaration -/
def Knows (t : SymbolTable) (earlier : List Item) : Prop :=
  ∀ name, (t.find? name).map Symbol.type = declaredType? earlier name

theorem Knows.check {t : SymbolTable} {earlier : List Item} (h : Knows t earlier) (i : Item) :
    Knows (i.check t).table (earlier ++ [i]) := by
  intro name
  rw [table_check, SymbolTable.find?_enterAll, declaredType?_append, declaredType?_singleton,
    ← h name]
  cases t.find? name with
  | none => rfl
  | some s => rfl

theorem Knows.mem_names_iff {t : SymbolTable} {earlier : List Item} (h : Knows t earlier)
    (name : String) : name ∈ t.names ↔ declaredType? earlier name ≠ none := by
  rw [← h name, ne_eq, Option.map_eq_none_iff, SymbolTable.find?_eq_none_iff, not_not]

/-! ## Names and expressions -/

section Check
variable {t : SymbolTable} {earlier : List Item}

theorem check_identifier (h : Knows t earlier) (id : Identifier) :
    (id.check t).faults = id.diagnosis earlier ∧
      (id.check t).type = ((declaredType? earlier id.name).map CheckedType.num).getD .error := by
  have hname := h id.name
  rw [← SymbolTable.find?_eq_map_lookup?] at hname
  unfold Identifier.check Identifier.diagnosis
  rw [← hname]
  cases t.lookup? id.name with
  | none => exact ⟨rfl, rfl⟩
  | some hs => exact ⟨rfl, rfl⟩

def Expr.typeOfLeaves (earlier : List Item) (e : Expr) : CheckedType :=
  if e.diagnosis earlier = [] then .num (if e.hasFloat earlier then .float else .int) else .error

theorem diagnosis_deref (id : Identifier) (type : Option CheckedType) (p : Position) :
    (Expr.deref id type p).diagnosis earlier = id.diagnosis earlier :=
  List.append_nil _

theorem diagnosis_binary (op : Operator) (l r : Expr) (type : Option CheckedType) (p : Position) :
    (Expr.binary op l r type p).diagnosis earlier = l.diagnosis earlier ++ r.diagnosis earlier :=
  List.flatMap_append

theorem hasFloat_binary (op : Operator) (l r : Expr) (type : Option CheckedType) (p : Position) :
    (Expr.binary op l r type p).hasFloat earlier = (l.hasFloat earlier || r.hasFloat earlier) :=
  List.any_append

theorem typeOfLeaves_of_ne_nil {e : Expr} (h : e.diagnosis earlier ≠ []) :
    e.typeOfLeaves earlier = .error := if_neg h

theorem typeOfLeaves_of_nil {e : Expr} (h : e.diagnosis earlier = []) :
    e.typeOfLeaves earlier = .num (if e.hasFloat earlier then .float else .int) := if_pos h

theorem typeOfLeaves_deref (id : Identifier) (type : Option CheckedType) (p : Position) :
    (Expr.deref id type p).typeOfLeaves earlier =
      ((declaredType? earlier id.name).map CheckedType.num).getD .error := by
  have hany : (Expr.deref id type p).hasFloat earlier =
      decide (declaredType? earlier id.name = some .float) := Bool.or_false _
  rw [Expr.typeOfLeaves, diagnosis_deref, Identifier.diagnosis, hany]
  rcases declaredType? earlier id.name with _ | _ | _
  all_goals rfl

theorem typeOfLeaves_binary (op : Operator) (l r : Expr) (type : Option CheckedType)
    (p : Position) :
    (Expr.binary op l r type p).typeOfLeaves earlier =
      (l.typeOfLeaves earlier).join (r.typeOfLeaves earlier) := by
  by_cases hl : l.diagnosis earlier = []
  · by_cases hr : r.diagnosis earlier = []
    · have hlr : (Expr.binary op l r type p).diagnosis earlier = [] := by
        rw [diagnosis_binary, hl, hr, List.append_nil]
      rw [typeOfLeaves_of_nil hl, typeOfLeaves_of_nil hr, typeOfLeaves_of_nil hlr, hasFloat_binary]
      cases l.hasFloat earlier <;> cases r.hasFloat earlier <;> rfl
    · have hlr : (Expr.binary op l r type p).diagnosis earlier ≠ [] := by
        rw [diagnosis_binary]
        exact List.append_ne_nil_of_right_ne_nil _ hr
      rw [typeOfLeaves_of_ne_nil hr, typeOfLeaves_of_ne_nil hlr, CheckedType.join_error_right]
  · have hlr : (Expr.binary op l r type p).diagnosis earlier ≠ [] := by
      rw [diagnosis_binary]
      exact List.append_ne_nil_of_left_ne_nil hl _
    rw [typeOfLeaves_of_ne_nil hl, typeOfLeaves_of_ne_nil hlr, CheckedType.join_error_left]

theorem typeOfLeaves_ne_void (e : Expr) : e.typeOfLeaves earlier ≠ .void := by
  unfold Expr.typeOfLeaves
  split <;> simp

theorem CheckedType.join_eq_error {s t : CheckedType} (hs : s ≠ void) (ht : t ≠ void)
    (h : join s t = error) : s = error ∨ t = error := by
  rcases s with _ | _ | _ <;> cases t <;> simp_all [join]

/-- Two operands are refused only if one of them is at fault already. -/
theorem faults_operator (op : Operator) (p : Position) {l r : Checked Expr} (hl : l.type ≠ .void)
    (hr : r.type ≠ .void) : (op.check p l r).faults = l.faults ++ r.faults := by
  have hown : ¬ (l.type.join r.type = .error ∧ l.type ≠ .error ∧ r.type ≠ .error) := by
    rintro ⟨hj, hnl, hnr⟩
    rcases CheckedType.join_eq_error hl hr hj with e | e
    · exact hnl e
    · exact hnr e
  show l.faults ++ r.faults ++ (if _ then _ else _) = _
  rw [if_neg hown, List.append_nil]

/-- **Leaves decide.**  An expression without conversions has the faults of its leaves and no others,
and the type that they give it. -/
theorem check_expr (h : Knows t earlier) {e : Expr} (he : e.Unconverted) :
    (e.check t).faults = e.diagnosis earlier ∧ (e.check t).type = e.typeOfLeaves earlier := by
  induction e with
  | const value declared type pos =>
    refine ⟨rfl, ?_⟩
    cases declared <;> rfl
  | deref id type pos =>
    rw [diagnosis_deref, typeOfLeaves_deref]
    exact check_identifier h id
  | binary op l r type pos ihl ihr =>
    obtain ⟨hfl, htl⟩ := ihl he.1
    obtain ⟨hfr, htr⟩ := ihr he.2
    rw [diagnosis_binary, typeOfLeaves_binary, ← htl, ← htr, ← hfl, ← hfr]
    have hvl : (l.check t).type ≠ .void := by
      rw [htl]
      exact typeOfLeaves_ne_void l
    have hvr : (r.check t).type ≠ .void := by
      rw [htr]
      exact typeOfLeaves_ne_void r
    exact ⟨faults_operator op pos hvl hvr, rfl⟩
  | convert => exact absurd he id

/-! ## Items -/

theorem faults_checkDeclare (h : Knows t earlier) (declared : NumType) (id : Identifier)
    (type : Option CheckedType) (p : Position) :
    (checkDeclare t declared id p).faults = (Item.declare declared id type p).diagnosis earlier := by
  rw [checkDeclare, Item.diagnosis]
  by_cases hd : declaredType? earlier id.name = none
  · have hn : id.name ∉ t.names := fun hm => (h.mem_names_iff id.name).mp hm hd
    rw [if_pos hd, SymbolTable.enter_of_not_mem hn]
  · have hm : id.name ∈ t.names := (h.mem_names_iff id.name).mpr hd
    rw [if_neg hd, SymbolTable.enter_of_mem hm]

theorem faults_checkAssign (h : Knows t earlier) (target : Identifier) {value : Expr}
    (hv : value.Unconverted) (type : Option CheckedType) (p : Position) :
    (checkAssign t target value p).faults =
      (Item.assign target value type p).diagnosis earlier := by
  obtain ⟨hft, htt⟩ := check_identifier h target
  obtain ⟨hfv, htv⟩ := check_expr h hv
  have hwalk : (checkAssign t target value p).faults =
      (target.check t).faults ++ (value.check t).faults ++
        if CheckedType.fits (target.check t).type (value.check t).type = true ∨
            (target.check t).type = .error ∨ (value.check t).type = .error then []
        else [.assignment (target.check t).type (value.check t).type p] := by
    rw [checkAssign]
    cases CheckedType.fits (target.check t).type (value.check t).type with
    | true => simp
    | false => simp
  rw [hwalk, hft, htt, hfv, htv, Item.diagnosis]
  cases hd : declaredType? earlier target.name with
  | none =>
    have hne : target.diagnosis earlier ++ value.diagnosis earlier ≠ [] := by
      rw [Identifier.diagnosis, if_pos hd]
      exact List.cons_ne_nil _ _
    rw [if_neg hne]
    exact List.append_nil _
  | some d =>
    have hnil : target.diagnosis earlier = [] := by
      rw [Identifier.diagnosis, hd]
      rfl
    rw [hnil, List.nil_append]
    by_cases hvd : value.diagnosis earlier = []
    · rw [typeOfLeaves_of_nil hvd, hvd]
      cases d <;> cases value.hasFloat earlier <;> rfl
    · rw [typeOfLeaves_of_ne_nil hvd, if_neg hvd, if_pos (.inr (.inr rfl)), List.append_nil]

/-- **One item.**  Its faults are those of the diagnosis behind the items before it. -/
theorem faults_check (h : Knows t earlier) {i : Item} (hi : i.Unconverted) :
    (i.check t).faults = i.diagnosis earlier := by
  cases i with
  | declare declared id type p => exact faults_checkDeclare h declared id type p
  | assign target value type p => exact faults_checkAssign h target hi type p
  | print id type p => exact (check_identifier h id).1

theorem faults_checkItems (h : Knows t earlier) {is : List Item}
    (his : ∀ i ∈ is, i.Unconverted) : (checkItems t is).faults = diagnosis earlier is := by
  induction is generalizing t earlier with
  | nil => rfl
  | cons i is ih =>
    obtain ⟨hi, his⟩ := List.forall_mem_cons.mp his
    rw [checkItems_cons, diagnosis, ← faults_check h hi, ← ih (h.check i) his]

theorem knows_checkItems (h : Knows t earlier) (is : List Item) :
    Knows (checkItems t is).table (earlier ++ is) := by
  induction is generalizing t earlier with
  | nil => rwa [List.append_nil]
  | cons i is ih =>
    have hrest := ih (h.check i)
    rwa [List.append_assoc] at hrest

end Check

/-! ## Programs -/

theorem Expr.unconverted_of_unchecked {e : Expr} (h : e.Unchecked) : e.Unconverted := by
  induction e with
  | const | deref => trivial
  | binary op l r type pos ihl ihr => exact ⟨ihl h.1, ihr h.2.1⟩
  | convert => exact h

theorem unconverted_of_parse {text : String} {p : Program} (h : Source.parse text = .ok p) :
    p.Unconverted := by
  obtain ⟨_, _, _, hu, _⟩ := flatten_of_parse h
  intro i hi
  have hui := hu.2 i hi
  cases i with
  | assign target value type pos => exact Expr.unconverted_of_unchecked hui.2.1
  | declare | print => trivial

/-- **The log and the table of a check.**  For every program without conversions, as every parsed
program is, and whatever the compiler did before: the log is the diagnosis of the program, the table
lists the declared names in the order of their first declarations, and each entry has the type of
the name's first declaration and no register. -/
theorem check_exact :
    (∀ text p, Source.parse text = .ok p → p.Unconverted) ∧
    ∀ (c : Compiler) (p : Program), p.Unconverted →
      (c.check p).2.log.entries = diagnosis [] p.items ∧
      (c.check p).2.symbols.names = (declaredNames p.items).eraseDups ∧
      ∀ s ∈ (c.check p).2.symbols.entries,
        declaredType? p.items s.name = some s.type ∧ s.register = none := by
  refine ⟨fun _ _ => unconverted_of_parse, fun c p hp => ?_⟩
  have hstart : Knows .empty [] := fun _ => rfl
  have htable : (c.check p).2.symbols = SymbolTable.empty.enterAll (declarations p.items) :=
    table_checkItems .empty p.items
  have hknows : Knows (c.check p).2.symbols p.items := knows_checkItems hstart p.items
  rw [htable] at hknows ⊢
  refine ⟨faults_checkItems hstart hp, SymbolTable.names_enterAll _, fun s hs => ?_⟩
  have hempty : SymbolTable.empty.names.Nodup := List.nodup_nil
  have hfind := SymbolTable.find?_of_mem (SymbolTable.nodup_names_enterAll hempty _) hs
  constructor
  · rw [← hknows s.name, hfind]
    rfl
  · rw [SymbolTable.find?_enterAll] at hfind
    have hmem : s ∈ declarations p.items := List.mem_of_find?_eq_some hfind
    exact register_of_mem_declarations hmem

/-- a second declaration, an unknown name, and a float for an integer -/
def mistakes : Program :=
  let a : Identifier := { name := "a", pos := ⟨1, 5⟩ }
  let b : Identifier := { name := "b", pos := ⟨3, 9⟩ }
  { items := [
      .declare .int a none ⟨1, 1⟩,
      .declare .float a none ⟨2, 1⟩,
      .assign a (.binary .plus (.deref a none ⟨3, 5⟩) (.deref b none ⟨3, 9⟩) none ⟨3, 5⟩) none ⟨3, 1⟩,
      .assign a (.const ".5" .float none ⟨4, 5⟩) none ⟨4, 1⟩] }

/-- Each mistake is reported once, and the second declaration changes nothing. -/
theorem check_exact_mistakes :
    (Compiler.check {} mistakes).2.log.entries =
        [.duplicate "a" ⟨1, 5⟩, .undeclared "b" ⟨3, 9⟩,
          .assignment (.num .int) (.num .float) ⟨4, 1⟩] ∧
      (Compiler.check {} mistakes).2.symbols.names = ["a"] := by
  have hu : mistakes.Unconverted := by
    simp [mistakes, Program.Unconverted, Item.Unconverted, Expr.Unconverted]
  obtain ⟨hlog, hnames, _⟩ := check_exact.2 {} mistakes hu
  exact ⟨hlog.trans (by decide), hnames.trans (by decide)⟩

end DeskCalc
