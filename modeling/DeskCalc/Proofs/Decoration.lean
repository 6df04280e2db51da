import DeskCalc.Proofs.Extension
import DeskCalc.Proofs.ReportOrder

/-!
# What a check writes on a tree

Every node of a tree is there behind a check, with the marks of this check, and all that is new are
conversions above some of them (`Item.MarkedAs`, `marked_items`).

It leaves no node without a type, and the types that it leaves on nodes are numbers and errors.
Errors on the tree and faults in the log come together.  A fault is written down where its node is
marked, and a mark of another node is an error only if a part of this node has one; so both are kept
from the parts to the whole (`Decorated.append`, `Decorated.snoc`), and no operation ever finds its
operands at odds, because none of the two is `void` (`faults_operator`).

An identifier that is not marked as faulty leads to an entry of its name and type (`Bound`).  The
table it was looked up in is the front of every later one, so it still does so at the end.

* `Expr.MarkedAs`, `Item.MarkedAs`   a tree with other marks, and with conversions put in;
* `Expr.marks`, `Item.marks`   the types on a tree, those of identifiers among them;
* `decorated_check`, `decorated_item`, `decorated_items`   marks and faults of each part;
* `check_decorates`            a whole program.
-/

namespace DeskCalc

/-! ## What stays -/

def Identifier.MarkedAs (id id' : Identifier) : Prop := id'.name = id.name ∧ id'.pos = id.pos

/-- the second expression is the first one with other marks, and with conversions put in -/
inductive Expr.MarkedAs : Expr → Expr → Prop
  | const {value : String} {declared : NumType} {type type' : Option CheckedType} {p : Position} :
      MarkedAs (.const value declared type p) (.const value declared type' p)
  | deref {id id' : Identifier} {type type' : Option CheckedType} {p : Position}
      (h : id.MarkedAs id') : MarkedAs (.deref id type p) (.deref id' type' p)
  | binary {op : Operator} {l l' r r' : Expr} {type type' : Option CheckedType} {p : Position}
      (hl : MarkedAs l l') (hr : MarkedAs r r') :
      MarkedAs (.binary op l r type p) (.binary op l' r' type' p)
  | convert {e e' : Expr} {type type' : Option CheckedType} {p : Position} (h : MarkedAs e e') :
      MarkedAs (.convert e type p) (.convert e' type' p)
  | widen {e e' : Expr} (h : MarkedAs e e') : MarkedAs e e'.widen

inductive Item.MarkedAs : Item → Item → Prop
  | declare {declared : NumType} {id id' : Identifier} {type type' : Option CheckedType}
      {p : Position} (h : id.MarkedAs id') :
      MarkedAs (.declare declared id type p) (.declare declared id' type' p)
  | assign {target target' : Identifier} {value value' : Expr} {type type' : Option CheckedType}
      {p : Position} (ht : target.MarkedAs target') (hv : value.MarkedAs value') :
      MarkedAs (.assign target value type p) (.assign target' value' type' p)
  | print {id id' : Identifier} {type type' : Option CheckedType} {p : Position}
      (h : id.MarkedAs id') : MarkedAs (.print id type p) (.print id' type' p)

section MarkedAs
variable (t : SymbolTable)

theorem marked_identifier (id : Identifier) : id.MarkedAs (id.check t).node := by
  unfold Identifier.check
  split
  · exact ⟨rfl, rfl⟩
  · exact ⟨rfl, rfl⟩

theorem marked_as {e : Expr} {c : Checked Expr} (h : e.MarkedAs c.node) (s : CheckedType) :
    e.MarkedAs (c.as s) := by
  unfold Checked.as
  split
  · exact h.widen
  · exact h

theorem marked_check (e : Expr) : e.MarkedAs (e.check t).node := by
  induction e with
  | const value declared type p => exact .const
  | deref id type p => exact .deref (marked_identifier t id)
  | binary op left right type p ihl ihr => exact .binary (marked_as ihl _) (marked_as ihr _)
  | convert inner type p ih => exact .convert ih

theorem marked_item (i : Item) : i.MarkedAs (i.check t).node := by
  cases i with
  | declare declared id type p =>
    rw [Item.check, checkDeclare]
    split
    · exact .declare ⟨rfl, rfl⟩
    · exact .declare ⟨rfl, rfl⟩
  | assign target value type p =>
    obtain ⟨s, type', hnode⟩ := exists_node_checkAssign t target value p
    rw [Item.check, hnode]
    exact .assign (marked_identifier t target) (marked_as (marked_check t value) s)
  | print id type p => exact .print (marked_identifier t id)

theorem marked_items (is : List Item) : List.Forall₂ Item.MarkedAs is (checkItems t is).node := by
  induction is generalizing t with
  | nil => exact .nil
  | cons i is ih => exact .cons (marked_item t i) (ih _)

end MarkedAs

/-! ## Marks -/

def Expr.marks : Expr → List (Option CheckedType)
  | const _ _ t _ => [t]
  | deref id t _ => [id.type, t]
  | binary _ left right t _ => left.marks ++ right.marks ++ [t]
  | convert inner t _ => inner.marks ++ [t]

def Item.marks : Item → List (Option CheckedType)
  | declare _ id t _ | print id t _ => [id.type, t]
  | assign target value t _ => target.type :: value.marks ++ [t]

theorem type_mem_marks (e : Expr) : e.type ∈ e.marks := by
  cases e <;> simp [Expr.type, Expr.marks]

theorem type_node_check (t : SymbolTable) (e : Expr) :
    (e.check t).node.type = some (e.check t).type := by
  cases e <;> rfl

/-- every mark is a number or an error, errors come with faults and faults with errors, and no
operation was refused -/
structure Decorated (ms : List (Option CheckedType)) (fs : List SemanticFault) : Prop where
  set : ∀ m ∈ ms, (∃ d, m = some (.num d)) ∨ m = some .error
  error_iff : some .error ∈ ms ↔ fs ≠ []
  kind : ∀ f ∈ fs, f.kind ≠ .incompatibleOperands

namespace Decorated
variable {ms ns : List (Option CheckedType)} {fs gs : List SemanticFault}

theorem nil : Decorated [] [] where
  set := by simp
  error_iff := by simp
  kind := by simp

theorem number (d : NumType) : Decorated [some (.num d)] [] where
  set := by simp
  error_iff := by simp
  kind := by simp

theorem fault {f : SemanticFault} (hf : f.kind ≠ .incompatibleOperands) :
    Decorated [some .error] [f] where
  set := by simp
  error_iff := by simp
  kind := by simpa using hf

theorem append (h : Decorated ms fs) (h' : Decorated ns gs) : Decorated (ms ++ ns) (fs ++ gs) where
  set := List.forall_mem_append.mpr ⟨h.set, h'.set⟩
  error_iff := by
    rw [List.mem_append, h.error_iff, h'.error_iff, Ne, Ne, Ne, List.append_eq_nil_iff, not_and_or]
  kind := List.forall_mem_append.mpr ⟨h.kind, h'.kind⟩

/-- A node marked on top of its parts adds an error only where a part has one. -/
theorem snoc (h : Decorated ms fs) {t : CheckedType} (hv : t ≠ .void)
    (he : t = .error → some .error ∈ ms) : Decorated (ms ++ [some t]) fs where
  set := by
    refine List.forall_mem_append.mpr ⟨h.set, List.forall_mem_singleton.mpr ?_⟩
    cases t with
    | num d => exact .inl ⟨d, rfl⟩
    | void => exact absurd rfl hv
    | error => exact .inr rfl
  error_iff := by
    rw [← h.error_iff, List.mem_append, List.mem_singleton]
    constructor
    · rintro (hm | hm)
      · exact hm
      · exact he (Option.some.inj hm).symm
    · exact .inl
  kind := h.kind

end Decorated

/-! ## Names and expressions -/

theorem CheckedType.join_ne_void {s t : CheckedType} (hs : s ≠ void) : join s t ≠ void := by
  rcases s with _ | _ | _ <;> cases t <;> simp_all [join]

section Check
variable (t : SymbolTable)

theorem decorated_identifier (id : Identifier) :
    (id.check t).node.type = some (id.check t).type ∧ (id.check t).type ≠ .void ∧
      Decorated [some (id.check t).type] (id.check t).faults := by
  unfold Identifier.check
  cases t.lookup? id.name with
  | none => exact ⟨rfl, by simp, .fault (by simp [SemanticFault.undeclared])⟩
  | some hs => exact ⟨rfl, by simp, .number _⟩

theorem decorated_as {c : Checked Expr} (h : Decorated c.node.marks c.faults) (s : CheckedType) :
    Decorated (c.as s).marks c.faults := by
  unfold Checked.as
  split
  · exact h.snoc (by simp) (by simp)
  · exact h

theorem type_mem_marks_as (e : Expr) (s : CheckedType) :
    some (e.check t).type ∈ ((e.check t).as s).marks := by
  rw [← type_node_check]
  unfold Checked.as
  split
  · exact List.mem_append_left _ (type_mem_marks _)
  · exact type_mem_marks _

theorem decorated_check (e : Expr) :
    (e.check t).type ≠ .void ∧ Decorated (e.check t).node.marks (e.check t).faults := by
  induction e with
  | const value declared type p => exact ⟨by simp [Expr.check], .number declared⟩
  | deref id type p =>
    obtain ⟨hnode, hv, hid⟩ := decorated_identifier t id
    refine ⟨hv, ?_⟩
    show Decorated [(id.check t).node.type, some (id.check t).type] (id.check t).faults
    rw [hnode]
    exact hid.snoc hv fun he => by simp [he]
  | binary op left right type p ihl ihr =>
    obtain ⟨hvl, hl⟩ := ihl
    obtain ⟨hvr, hr⟩ := ihr
    have hv := CheckedType.join_ne_void (t := (right.check t).type) hvl
    refine ⟨hv, ?_⟩
    show Decorated (((left.check t).as _).marks ++ ((right.check t).as _).marks ++ [some _])
      (op.check p (left.check t) (right.check t)).faults
    rw [faults_operator op p hvl hvr]
    refine ((decorated_as hl _).append (decorated_as hr _)).snoc hv fun he => ?_
    rcases CheckedType.join_eq_error hvl hvr he with e | e
    · exact List.mem_append_left _ (e ▸ type_mem_marks_as t left _)
    · exact List.mem_append_right _ (e ▸ type_mem_marks_as t right _)
  | convert inner type p ih => exact ⟨by simp [Expr.check], ih.2.snoc (by simp) (by simp)⟩

/-! ## Items -/

theorem decorated_declare (declared : NumType) (id : Identifier) (p : Position) :
    Decorated (checkDeclare t declared id p).node.marks (checkDeclare t declared id p).faults := by
  unfold checkDeclare
  by_cases h : id.name ∈ t.names
  · rw [SymbolTable.enter_of_mem h]
    have hid : Decorated [some .error] [SemanticFault.duplicate id.name id.pos] :=
      .fault (by simp [SemanticFault.duplicate])
    exact hid.snoc (by simp) (by simp)
  · rw [SymbolTable.enter_of_not_mem h]
    exact (Decorated.number declared).append (.number declared)

theorem decorated_assign (target : Identifier) (value : Expr) (p : Position) :
    Decorated (checkAssign t target value p).node.marks
      (checkAssign t target value p).faults := by
  obtain ⟨hnode, hvt, ht⟩ := decorated_identifier t target
  obtain ⟨hvv, hv⟩ := decorated_check t value
  have hparts : ∀ s, Decorated
      ((target.check t).node.type :: ((value.check t).as s).marks)
      ((target.check t).faults ++ (value.check t).faults) := by
    intro s
    rw [hnode]
    exact ht.append (decorated_as hv s)
  unfold checkAssign
  dsimp only
  split
  next hfits =>
    exact (hparts _).snoc hvt fun he => by
      rw [he, CheckedType.fits_error_left] at hfits
      cases hfits
  next =>
    have has : (value.check t).as .void = (value.check t).node := if_neg (by simp)
    have hvoid := has ▸ hparts .void
    by_cases he : (target.check t).type = .error ∨ (value.check t).type = .error
    · rw [if_pos he, List.append_nil]
      refine hvoid.snoc (by simp) fun _ => ?_
      rcases he with he | he
      · exact List.mem_cons.mpr (.inl (by rw [hnode, he]))
      · exact List.mem_cons_of_mem _ (has ▸ he ▸ type_mem_marks_as t value .void)
    · rw [if_neg he]
      exact hvoid.append (.fault (by simp [SemanticFault.assignment]))

theorem decorated_item (i : Item) : Decorated (i.check t).node.marks (i.check t).faults := by
  cases i with
  | declare declared id type p => exact decorated_declare t declared id p
  | assign target value type p => exact decorated_assign t target value p
  | print id type p =>
    obtain ⟨hnode, hv, hid⟩ := decorated_identifier t id
    show Decorated [(id.check t).node.type, some (id.check t).type] (id.check t).faults
    rw [hnode]
    exact hid.snoc hv fun he => by simp [he]

/-- **A row of items.**  Every mark on it is a number or an error, and there are errors on it exactly
if there are faults. -/
theorem decorated_items (is : List Item) :
    Decorated ((checkItems t is).node.flatMap Item.marks) (checkItems t is).faults := by
  induction is generalizing t with
  | nil => exact .nil
  | cons i is ih =>
    rw [checkItems_cons]
    exact (decorated_item t i).append (ih _)

end Check

/-! ## Identifiers that are not at fault -/

/-- without an error on it, the identifier has the handle of an entry of its name and its type -/
def Identifier.Bound (t : SymbolTable) (id : Identifier) : Prop :=
  id.type ≠ some .error →
    ∃ h s, id.symbol = some h ∧ t.entry? h = some s ∧ s.name = id.name ∧
      id.type = some (.num s.type)

theorem Identifier.Bound.grow {t u : SymbolTable} {id : Identifier} (h : id.Bound t)
    (hu : t.entries <+: u.entries) : id.Bound u := by
  intro he
  obtain ⟨k, s, hk, hs, hname, htype⟩ := h he
  obtain ⟨more, hmore⟩ := hu
  have hlt := (List.getElem?_eq_some_iff.mp hs).1
  refine ⟨k, s, hk, ?_, hname, htype⟩
  rw [SymbolTable.entry?, ← hmore, List.getElem?_append_left hlt]
  exact hs

section Bound
variable (t : SymbolTable)

theorem bound_identifier (id : Identifier) : (id.check t).node.Bound t := by
  unfold Identifier.check
  cases h : t.lookup? id.name with
  | none => exact fun he => absurd rfl he
  | some hs =>
    obtain ⟨k, s⟩ := hs
    intro _
    have hfind := SymbolTable.find?_eq_map_lookup? t id.name
    rw [h] at hfind
    obtain ⟨k', hk', hmap⟩ := Option.bind_eq_some_iff.mp h
    obtain ⟨s', hs', he⟩ := Option.map_eq_some_iff.mp hmap
    obtain ⟨rfl, rfl⟩ := Prod.mk.inj he
    exact ⟨k', s', rfl, hs', SymbolTable.name_of_find? hfind.symm, rfl⟩

theorem bound_reads (e : Expr) : ∀ id ∈ (e.check t).node.reads, id.Bound t := by
  induction e with
  | const value declared type p => exact fun id hid => absurd hid List.not_mem_nil
  | deref id type p => exact List.forall_mem_singleton.mpr (bound_identifier t id)
  | binary op left right type p ihl ihr =>
    show ∀ id ∈ ((left.check t).as _).reads ++ ((right.check t).as _).reads, id.Bound t
    rw [Checked.reads_as, Checked.reads_as]
    exact List.forall_mem_append.mpr ⟨ihl, ihr⟩
  | convert inner type p ih => exact ih

theorem bound_item (i : Item) : ∀ id ∈ (i.check t).node.identifiers, id.Bound (i.check t).table := by
  cases i with
  | declare declared id type p =>
    show ∀ id' ∈ (checkDeclare t declared id p).node.identifiers,
      id'.Bound (checkDeclare t declared id p).table
    unfold checkDeclare
    by_cases h : id.name ∈ t.names
    · rw [SymbolTable.enter_of_mem h]
      exact List.forall_mem_singleton.mpr fun he => absurd rfl he
    · rw [SymbolTable.enter_of_not_mem h]
      refine List.forall_mem_singleton.mpr fun _ => ⟨t.size, { name := id.name, type := declared },
        rfl, List.getElem?_concat_length, rfl, rfl⟩
  | assign target value type p =>
    obtain ⟨s, type', hnode⟩ := exists_node_checkAssign t target value p
    have htable : (checkAssign t target value p).table = t :=
      table_check t (.assign target value type p)
    rw [Item.check, hnode, htable, Item.identifiers, Checked.reads_as]
    exact List.forall_mem_cons.mpr ⟨bound_identifier t target, bound_reads t value⟩
  | print id type p => exact List.forall_mem_singleton.mpr (bound_identifier t id)

theorem bound_items (is : List Item) :
    ∀ i ∈ (checkItems t is).node, ∀ id ∈ i.identifiers, id.Bound (checkItems t is).table := by
  induction is generalizing t with
  | nil => exact fun i hi => absurd hi List.not_mem_nil
  | cons i is ih =>
    rw [checkItems_cons]
    refine List.forall_mem_cons.mpr ⟨fun id hid => ?_, ih _⟩
    have hgrow : (i.check t).table.entries <+: (checkItems (i.check t).table is).table.entries := by
      rw [table_checkItems]
      exact entries_enterAll_prefix _ _
    exact (bound_item t i id hid).grow hgrow

end Bound

/-! ## Programs -/

/-- **A checked tree is the tree, marked throughout.**  Whatever the tree was and the compiler did
before: its items are still there in their order, each of their nodes in its place, with other marks
and under conversions at most.  Every mark is a number or an error.  The verdict is an error exactly
if the log has an entry, and exactly if there is an error on the tree, and it is `void` otherwise.
Every identifier without an error has the handle of an entry of its name and its type.  No fault is
one of operands. -/
theorem check_decorates (c : Compiler) (p : Program) :
    List.Forall₂ Item.MarkedAs p.items (c.check p).1.items ∧
    (∀ i ∈ (c.check p).1.items, ∀ m ∈ i.marks,
      m = some (.num .int) ∨ m = some (.num .float) ∨ m = some .error) ∧
    (c.check p).1.type = some (Compiler.verdict (c.check p).2.log) ∧
    ((c.check p).1.type = some .error ↔ (c.check p).2.log.entries ≠ []) ∧
    ((c.check p).1.type = some .void ↔ (c.check p).2.log.entries = []) ∧
    ((c.check p).2.log.entries ≠ [] ↔ ∃ i ∈ (c.check p).1.items, some .error ∈ i.marks) ∧
    (∀ i ∈ (c.check p).1.items, ∀ id ∈ i.identifiers, id.type ≠ some .error →
      ∃ h s, id.symbol = some h ∧ (c.check p).2.symbols.entry? h = some s ∧ s.name = id.name ∧
        id.type = some (.num s.type)) ∧
    ∀ f ∈ (c.check p).2.log.entries, f.kind ≠ .incompatibleOperands := by
  have h : Decorated ((c.check p).1.items.flatMap Item.marks) (c.check p).2.log.entries :=
    decorated_items .empty p.items
  refine ⟨marked_items .empty p.items, fun i hi m hm => ?_, rfl, ?_, ?_, ?_,
    bound_items .empty p.items, h.kind⟩
  · rcases h.set m (List.mem_flatMap.mpr ⟨i, hi, hm⟩) with ⟨d, rfl⟩ | rfl
    · cases d with
      | int => exact .inl rfl
      | float => exact .inr (.inl rfl)
    · exact .inr (.inr rfl)
  · by_cases hlog : (c.check p).2.log.entries = []
    · simp [Compiler.type_check_of_faultless hlog, hlog]
    · simp [Compiler.type_check_of_faults hlog, hlog]
  · by_cases hlog : (c.check p).2.log.entries = []
    · simp [Compiler.type_check_of_faultless hlog, hlog]
    · simp [Compiler.type_check_of_faults hlog, hlog]
  · rw [← h.error_iff, List.mem_flatMap]

/-- `float f; f = 1 + 2.5; print zzz;`, where the last name has the marks of a variable -/
def halfKnown : Program where
  items :=
    [.declare .float { name := "f", pos := ⟨1, 7⟩ } none ⟨1, 1⟩,
      .assign { name := "f", pos := ⟨1, 10⟩ }
        (.apply .plus (.literal "1" .int ⟨1, 14⟩) (.literal "2.5" .float ⟨1, 18⟩)) none ⟨1, 10⟩,
      .print { name := "zzz", type := some (.num .int), symbol := some 0, pos := ⟨1, 29⟩ }
        (some .void) ⟨1, 23⟩]

/-- One name is not declared.  So there is one fault, told by the marks of the last item and by the
verdict; the items before it are marked as they should be, and without the last one the verdict is
`void`. -/
theorem check_decorates_half :
    (Compiler.check {} halfKnown).2.log.entries = [.undeclared "zzz" ⟨1, 29⟩] ∧
      (Compiler.check {} halfKnown).1.type = some .error ∧
      List.Forall₂ Item.MarkedAs halfKnown.items (Compiler.check {} halfKnown).1.items ∧
      (Compiler.check {} halfKnown).1.items.map Item.marks =
        [[some (.num .float), some (.num .float)],
          [some (.num .float), some (.num .int), some (.num .float), some (.num .float),
            some (.num .float), some (.num .float)],
          [some .error, some .error]] ∧
      (∃ h s, (Compiler.check {} halfKnown).2.symbols.entry? h = some s ∧ s.name = "f" ∧
        s.type = .float) ∧
      (Compiler.check {} { items := halfKnown.items.take 2 }).1.type = some .void := by
  obtain ⟨hmarked, -, -, herror, -, -, hbound, -⟩ := check_decorates {} halfKnown
  obtain ⟨-, -, -, -, hvoid, -⟩ := check_decorates {} { items := halfKnown.items.take 2 }
  have hlog : (Compiler.check {} halfKnown).2.log.entries = [.undeclared "zzz" ⟨1, 29⟩] := by
    decide +kernel
  have hdeclare : Item.declare .float
      { name := "f", type := some (.num .float), symbol := some 0, pos := ⟨1, 7⟩ }
      (some (.num .float)) ⟨1, 1⟩ ∈ (Compiler.check {} halfKnown).1.items := by decide +kernel
  obtain ⟨h, s, -, hs, hname, htype⟩ :=
    hbound _ hdeclare _ (List.mem_singleton_self _) (by decide)
  refine ⟨hlog, herror.mpr (by simp [hlog]), hmarked, by decide +kernel, ⟨h, s, hs, hname, ?_⟩,
    hvoid.mpr (by decide +kernel)⟩
  simpa using htype.symm

end DeskCalc
