import DeskCalc.Proofs.Marks
import DeskCalc.Proofs.Spelling

/-!
# Trees from their brackets

The structure of a program in brackets takes names and literals over as they are spelled, and says
nowhere how long a part is.  Still two trees that were read from texts are written alike only if
they differ in nothing but marks and places (`render_eq_iff`).

The reason is that every part ends by itself.  A name or a literal holds letters, or digits and a
point, so the sign behind it is the first one that it does not hold (`word_unique`).  From this it
follows for every node, whatever stands behind it, that its text fixes the node and where it ends
(`outline_of_append_expr`, `outline_of_append_item`).  A conversion is a node like the others, so
nothing has to be known about the check that put it there.

* `Revision.outline`   a tree without its marks and places;
* `bracket`            a label and what it is about, in brackets;
* `Obtained`           a program that was read from a text, checked or not.
-/

namespace DeskCalc

/-- without marks of a check and without places -/
def Revision.outline : Revision where
  identifier id := { name := id.name, pos := .start }
  type _ := none
  place _ := .start

open Revision

/-! ## Words and brackets -/

/-- A word ends before the first sign that it does not hold. -/
theorem word_unique {c : Char} {w w' rest rest' : List Char} (hw : c ∉ w) (hw' : c ∉ w')
    (h : w ++ c :: rest = w' ++ c :: rest') : w = w' ∧ rest = rest' := by
  induction w generalizing w' with
  | nil =>
    cases w' with
    | nil => exact ⟨rfl, (List.cons.inj h).2⟩
    | cons d w' =>
      obtain ⟨rfl, -⟩ := List.cons.inj h
      exact absurd List.mem_cons_self hw'
  | cons d w ih =>
    cases w' with
    | nil =>
      obtain ⟨rfl, -⟩ := List.cons.inj h
      exact absurd List.mem_cons_self hw
    | cons d' w' =>
      obtain ⟨rfl, htail⟩ := List.cons.inj h
      rw [List.mem_cons, not_or] at hw hw'
      obtain ⟨rfl, rfl⟩ := ih hw.2 hw'.2 htail
      exact ⟨rfl, rfl⟩

def bracket (label : String) (inside : List Char) : List Char :=
  '[' :: (label.toList ++ ':' :: (inside ++ [']']))

theorem bracket_unique {label label' : String} {inside inside' rest rest' : List Char}
    (hl : ':' ∉ label.toList) (hl' : ':' ∉ label'.toList)
    (h : bracket label inside ++ rest = bracket label' inside' ++ rest') :
    label = label' ∧ inside ++ ']' :: rest = inside' ++ ']' :: rest' := by
  simp only [bracket, List.cons_append, List.append_assoc, List.nil_append, List.cons.injEq,
    true_and] at h
  obtain ⟨hlabel, hinside⟩ := word_unique hl hl' h
  exact ⟨String.toList_inj.mp hlabel, hinside⟩

/-! ## Names of types and operations -/

theorem NumType.name_injective : Function.Injective NumType.name := by
  intro d d' h
  cases d <;> cases d' <;> simp [name] at h ⊢

theorem Operator.name_injective : Function.Injective Operator.name := by
  intro op op' h
  cases op <;> cases op' <;> simp [name] at h ⊢

theorem NumType.comma_not_mem (d : NumType) : ',' ∉ d.name.toList := by
  cases d <;> decide

theorem Operator.comma_not_mem (op : Operator) : ',' ∉ op.name.toList := by
  cases op <;> decide

/-! ## Identifiers and expressions -/

namespace Expr

def label : Expr → String
  | const .. => "Const"
  | deref .. => "Deref"
  | binary .. => "BinOp"
  | convert .. => "Convert"

/-- what stands behind the label of the topmost node -/
def inside : Expr → List Char
  | const value declared _ _ => declared.name.toList ++ ',' :: value.toList
  | deref id _ _ => id.render.toList
  | binary op left right _ _ =>
    left.render.toList ++ ',' :: (op.name.toList ++ ',' :: right.render.toList)
  | convert inner _ _ => inner.render.toList

theorem toList_render (e : Expr) : e.render.toList = bracket e.label e.inside := by
  cases e <;> simp [render, bracket, label, inside]

theorem part_of_append {e e' : Expr} {rest rest' : List Char}
    (h : e.render.toList ++ rest = e'.render.toList ++ rest') :
    e.label = e'.label ∧ e.inside ++ ']' :: rest = e'.inside ++ ']' :: rest' := by
  have hcolon : ∀ f : Expr, ':' ∉ f.label.toList := by
    intro f
    cases f <;> simp [label]
  rw [toList_render, toList_render] at h
  exact bracket_unique (hcolon e) (hcolon e') h

end Expr

theorem Identifier.toList_render (id : Identifier) :
    id.render.toList = bracket "Id" id.name.toList := by
  simp [render, bracket]

theorem outline_of_append_identifier {id id' : Identifier} (h : IsName id.name) (h' : IsName id'.name)
    {rest rest' : List Char} (e : id.render.toList ++ rest = id'.render.toList ++ rest') :
    outline.identifier id = outline.identifier id' ∧ rest = rest' := by
  rw [Identifier.toList_render, Identifier.toList_render] at e
  obtain ⟨-, hinside⟩ := bracket_unique (by decide) (by decide) e
  obtain ⟨hname, hrest⟩ :=
    word_unique (h.not_mem (by decide)) (h'.not_mem (by decide)) hinside
  refine ⟨?_, hrest⟩
  simp only [outline, String.toList_inj.mp hname]

/-- **An expression ends by itself.** -/
theorem outline_of_append_expr {e e' : Expr} (h : e.Spelled) (h' : e'.Spelled)
    {rest rest' : List Char} (heq : e.render.toList ++ rest = e'.render.toList ++ rest') :
    e.revise outline = e'.revise outline ∧ rest = rest' := by
  induction e generalizing e' rest rest' with
  | const value declared type p =>
    obtain ⟨hlabel, hinside⟩ := Expr.part_of_append heq
    cases e' with
    | const value' declared' type' p' =>
      simp only [Expr.inside, List.append_assoc, List.cons_append] at hinside
      obtain ⟨hdeclared, htail⟩ :=
        word_unique declared.comma_not_mem declared'.comma_not_mem hinside
      obtain ⟨hvalue, hrest⟩ := word_unique (NumType.IsLiteral.not_mem h (by decide) (by decide))
        (NumType.IsLiteral.not_mem h' (by decide) (by decide)) htail
      refine ⟨?_, hrest⟩
      simp only [Expr.revise, outline, String.toList_inj.mp hvalue,
        NumType.name_injective (String.toList_inj.mp hdeclared)]
    | deref | binary | convert => simp [Expr.label] at hlabel
  | deref id type p =>
    obtain ⟨hlabel, hinside⟩ := Expr.part_of_append heq
    cases e' with
    | deref id' type' p' =>
      obtain ⟨hid, hrest⟩ := outline_of_append_identifier h h' hinside
      refine ⟨?_, List.tail_eq_of_cons_eq hrest⟩
      simp only [Expr.revise, hid]
      rfl
    | const | binary | convert => simp [Expr.label] at hlabel
  | binary op left right type p ihl ihr =>
    obtain ⟨hlabel, hinside⟩ := Expr.part_of_append heq
    cases e' with
    | binary op' left' right' type' p' =>
      simp only [Expr.inside, List.append_assoc, List.cons_append] at hinside
      obtain ⟨hleft, hop⟩ := ihl h.1 h'.1 hinside
      obtain ⟨hname, hright⟩ :=
        word_unique op.comma_not_mem op'.comma_not_mem (List.tail_eq_of_cons_eq hop)
      obtain ⟨hright, hrest⟩ := ihr h.2 h'.2 hright
      refine ⟨?_, List.tail_eq_of_cons_eq hrest⟩
      simp only [Expr.revise, hleft, hright, Operator.name_injective (String.toList_inj.mp hname)]
      rfl
    | const | deref | convert => simp [Expr.label] at hlabel
  | convert inner type p ih =>
    obtain ⟨hlabel, hinside⟩ := Expr.part_of_append heq
    cases e' with
    | convert inner' type' p' =>
      have hinner' : inner'.Spelled := h'
      obtain ⟨hinner, hrest⟩ := ih h hinner' hinside
      refine ⟨?_, List.tail_eq_of_cons_eq hrest⟩
      simp only [Expr.revise, hinner]
      rfl
    | const | deref | binary => simp [Expr.label] at hlabel

/-! ## Items -/

namespace Item

def label : Item → String
  | declare .. => "Decl"
  | assign .. => "Assign"
  | print .. => "Print"

def inside : Item → List Char
  | declare declared id _ _ => declared.name.toList ++ ',' :: id.render.toList
  | assign target value _ _ => target.render.toList ++ ',' :: value.render.toList
  | print id _ _ => id.render.toList

theorem toList_render (i : Item) : i.render.toList = bracket i.label i.inside := by
  cases i <;> simp [render, bracket, label, inside]

theorem part_of_append {i i' : Item} {rest rest' : List Char}
    (h : i.render.toList ++ rest = i'.render.toList ++ rest') :
    i.label = i'.label ∧ i.inside ++ ']' :: rest = i'.inside ++ ']' :: rest' := by
  have hcolon : ∀ j : Item, ':' ∉ j.label.toList := by
    intro j
    cases j <;> simp [label]
  rw [toList_render, toList_render] at h
  exact bracket_unique (hcolon i) (hcolon i') h

end Item

/-- **An item ends by itself.** -/
theorem outline_of_append_item {i i' : Item} (h : i.Spelled) (h' : i'.Spelled)
    {rest rest' : List Char} (heq : i.render.toList ++ rest = i'.render.toList ++ rest') :
    i.revise outline = i'.revise outline ∧ rest = rest' := by
  obtain ⟨hlabel, hinside⟩ := Item.part_of_append heq
  cases i with
  | declare declared id type p =>
    cases i' with
    | declare declared' id' type' p' =>
      simp only [Item.inside, List.append_assoc, List.cons_append] at hinside
      obtain ⟨hdeclared, htail⟩ :=
        word_unique declared.comma_not_mem declared'.comma_not_mem hinside
      obtain ⟨hid, hrest⟩ := outline_of_append_identifier h h' htail
      refine ⟨?_, List.tail_eq_of_cons_eq hrest⟩
      simp only [Item.revise, hid, NumType.name_injective (String.toList_inj.mp hdeclared)]
      rfl
    | assign | print => simp [Item.label] at hlabel
  | assign target value type p =>
    cases i' with
    | assign target' value' type' p' =>
      simp only [Item.inside, List.append_assoc, List.cons_append] at hinside
      obtain ⟨htarget, htail⟩ := outline_of_append_identifier h.1 h'.1 hinside
      obtain ⟨hvalue, hrest⟩ :=
        outline_of_append_expr h.2 h'.2 (List.tail_eq_of_cons_eq htail)
      refine ⟨?_, List.tail_eq_of_cons_eq hrest⟩
      simp only [Item.revise, htarget, hvalue]
      rfl
    | declare | print => simp [Item.label] at hlabel
  | print id type p =>
    cases i' with
    | print id' type' p' =>
      obtain ⟨hid, hrest⟩ := outline_of_append_identifier h h' hinside
      refine ⟨?_, List.tail_eq_of_cons_eq hrest⟩
      simp only [Item.revise, hid]
      rfl
    | declare | assign => simp [Item.label] at hlabel

/-! ## Programs -/

theorem Program.toList_render (p : Program) :
    p.render.toList = bracket "Program" (p.items.flatMap fun i => i.render.toList) := by
  have hitems : (Text.joinWith "" (p.items.map Item.render)).toList =
      p.items.flatMap fun i => i.render.toList := by
    rw [Text.toList_joinWith_empty, List.flatMap_map]
  simp [render, bracket, hitems]

/-- A row of items ends at the first bracket that closes nothing in it. -/
theorem outline_of_append_items {is js : List Item} (h : ∀ i ∈ is, i.Spelled)
    (h' : ∀ i ∈ js, i.Spelled) {rest rest' : List Char}
    (heq : (is.flatMap fun i => i.render.toList) ++ ']' :: rest =
      (js.flatMap fun i => i.render.toList) ++ ']' :: rest') :
    is.map (Item.revise outline) = js.map (Item.revise outline) ∧ rest = rest' := by
  induction is generalizing js with
  | nil =>
    cases js with
    | nil => exact ⟨rfl, List.tail_eq_of_cons_eq heq⟩
    | cons j js =>
      rw [List.flatMap_cons, Item.toList_render] at heq
      exact absurd (List.head_eq_of_cons_eq heq) (by decide)
  | cons i is ih =>
    cases js with
    | nil =>
      rw [List.flatMap_cons, Item.toList_render] at heq
      exact absurd (List.head_eq_of_cons_eq heq) (by decide)
    | cons j js =>
      rw [List.flatMap_cons, List.flatMap_cons, List.append_assoc, List.append_assoc] at heq
      obtain ⟨hi, his⟩ := List.forall_mem_cons.mp h
      obtain ⟨hj, hjs⟩ := List.forall_mem_cons.mp h'
      obtain ⟨hitem, htail⟩ := outline_of_append_item hi hj heq
      obtain ⟨hitems, hrest⟩ := ih his hjs htail
      exact ⟨by rw [List.map_cons, List.map_cons, hitem, hitems], hrest⟩

/-- **Spelled programs that are written alike have one outline.** -/
theorem outline_of_render {p q : Program} (hp : p.Spelled) (hq : q.Spelled)
    (h : p.render = q.render) : p.revise outline = q.revise outline := by
  have htext := congrArg String.toList h
  rw [Program.toList_render, Program.toList_render, ← List.append_nil (bracket _ _),
    ← List.append_nil (bracket _ (q.items.flatMap _))] at htext
  obtain ⟨-, hinside⟩ := bracket_unique (by simp) (by simp) htext
  obtain ⟨hitems, -⟩ := outline_of_append_items hp hq hinside
  exact congrArg (Program.mk · none) hitems

/-! ## What the brackets leave out -/

theorem render_outline_expr (e : Expr) : (e.revise outline).render = e.render := by
  induction e with
  | const value declared type p => rfl
  | deref id type p => rfl
  | binary op left right type p ihl ihr => simp only [Expr.revise, Expr.render, ihl, ihr]
  | convert inner type p ih => simp only [Expr.revise, Expr.render, ih]

theorem render_outline_item (i : Item) : (i.revise outline).render = i.render := by
  cases i with
  | declare declared id type p => rfl
  | assign target value type p =>
    simp only [Item.revise, Item.render, render_outline_expr]
    rfl
  | print id type p => rfl

theorem render_outline (p : Program) : (p.revise outline).render = p.render := by
  have hitems : (p.items.map (Item.revise outline)).map Item.render = p.items.map Item.render := by
    rw [List.map_map]
    exact List.map_congr_left fun i _ => render_outline_item i
  simp only [Program.revise, Program.render, hitems]

/-! ## Programs of texts -/

/-- a program that was read from a text, as it is or checked -/
def Obtained (p : Program) : Prop :=
  ∃ text, Source.parse text = .ok p ∨ ∃ a, Source.analyze text = .ok a ∧ a.program = p

theorem spelled_of_obtained {p : Program} (h : Obtained p) : p.Spelled := by
  obtain ⟨text, hp | ⟨a, ha, rfl⟩⟩ := h
  · exact spelled_of_parse hp
  · obtain ⟨q, hq, rfl⟩ := Source.analyze_inv ha
    exact spelled_checkItems .empty (spelled_of_parse hq)

/-- **The brackets say all but marks and places.**  Two programs that were read from texts, checked or
not, are written alike exactly if they have the same outline: the same items in the same order, with
the same names, types, literals, operations, grouping and conversions. -/
theorem render_eq_iff {p q : Program} (hp : Obtained p) (hq : Obtained q) :
    p.render = q.render ↔ p.revise outline = q.revise outline := by
  constructor
  · exact outline_of_render (spelled_of_obtained hp) (spelled_of_obtained hq)
  · intro h
    rw [← render_outline p, h, render_outline]

/-- `float x; x = 1;` as it is read, with the assignment at a place of its own -/
def oneInFloat (p : Position) : Program where
  items :=
    [.declare .float { name := "x", pos := ⟨1, 7⟩ } none ⟨1, 1⟩,
      .assign { name := "x", pos := p } (.literal "1" .int ⟨p.line, p.column + 2⟩) none p]

/-- Two layouts of a program differ in places alone.  Its check puts in a conversion, and this is
written. -/
theorem render_eq_iff_layouts :
    oneInFloat ⟨1, 9⟩ ≠ oneInFloat ⟨2, 1⟩ ∧
      (Analysis.ofProgram (oneInFloat ⟨1, 9⟩)).program.revise outline =
        (Analysis.ofProgram (oneInFloat ⟨2, 1⟩)).program.revise outline ∧
      (oneInFloat ⟨1, 9⟩).revise outline ≠
        (Analysis.ofProgram (oneInFloat ⟨1, 9⟩)).program.revise outline := by
  have hread : Source.parse "float x;x=1;" = .ok (oneInFloat ⟨1, 9⟩) := by decide +kernel
  have hread' : Source.parse "float x;\nx=1;" = .ok (oneInFloat ⟨2, 1⟩) := by decide +kernel
  have hchecked : Obtained (Analysis.ofProgram (oneInFloat ⟨1, 9⟩)).program :=
    ⟨"float x;x=1;", .inr ⟨_, Source.analyze_of_parse hread, rfl⟩⟩
  have hchecked' : Obtained (Analysis.ofProgram (oneInFloat ⟨2, 1⟩)).program :=
    ⟨"float x;\nx=1;", .inr ⟨_, Source.analyze_of_parse hread', rfl⟩⟩
  refine ⟨by decide, (render_eq_iff hchecked hchecked').mp (by decide +kernel), ?_⟩
  rw [Ne, ← render_eq_iff ⟨_, .inl hread⟩ hchecked]
  decide +kernel

end DeskCalc
