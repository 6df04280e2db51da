import DeskCalc.Proofs.Assignments
import DeskCalc.Proofs.Marks
import DeskCalc.Proofs.Precision
import DeskCalc.Proofs.Rechecking

/-!
# Where integers are read as floats

A check puts conversions into a tree at two occasions: at an operation with a float on its other side,
and at an assignment to a float.  Each time the part that is converted holds integers alone, and what
holds it is a float.  So a part of integers is converted where it ends, and nowhere within: the
conversions stand right above the largest such parts, one above each (`widened_check`).  Of a value
that an integer takes no part is converted.

Parts are found by paths that do not count conversions as steps, so that a path means the same before
and behind a check (`Expr.part?`); the conversions right above a part are counted (`Expr.wraps`).

* `Expr.bare`, `Item.bare`, `Program.bare`   a tree without its conversions;
* `Expr.AllInt`, `Expr.MaximalInt`           parts of integers alone, and the largest of them;
* `Expr.Fitted`                              a node with its types in order (`fitted_check`);
* `conversions_exact`                        a whole program.
-/

namespace DeskCalc

/-! ## Without conversions -/

def Expr.bare : Expr → Expr
  | const value declared t p => const value declared t p
  | deref id t p => deref id t p
  | binary op left right t p => binary op left.bare right.bare t p
  | convert inner _ _ => inner.bare

def Item.bare : Item → Item
  | declare declared id t p => declare declared id t p
  | assign target value t p => assign target value.bare t p
  | print id t p => print id t p

def Program.bare (p : Program) : Program := { p with items := p.items.map Item.bare }

theorem Expr.bare_of_unconverted {e : Expr} (h : e.Unconverted) : e.bare = e := by
  induction e with
  | const | deref => rfl
  | binary op left right type p ihl ihr => rw [Expr.bare, ihl h.1, ihr h.2]
  | convert => exact h.elim

theorem Item.bare_of_unconverted {i : Item} (h : i.Unconverted) : i.bare = i := by
  cases i with
  | declare | print => rfl
  | assign target value type p => rw [Item.bare, Expr.bare_of_unconverted h]

section Bare
open Revision

theorem unmark_identifier {id id' : Identifier} (h : id.MarkedAs id') :
    unmark.identifier id' = unmark.identifier id := by
  obtain ⟨hname, hpos⟩ := h
  simp only [unmark, hname, hpos]

theorem bare_of_marked {e e' : Expr} (h : e.MarkedAs e') :
    e'.bare.revise unmark = e.bare.revise unmark := by
  induction h with
  | const => rfl
  | deref h =>
    simp only [Expr.bare, Expr.revise, unmark_identifier h]
    rfl
  | binary hl hr ihl ihr =>
    simp only [Expr.bare, Expr.revise, ihl, ihr]
    rfl
  | convert h ih => exact ih
  | widen h ih => exact ih

theorem bare_of_marked_item {i i' : Item} (h : i.MarkedAs i') :
    i'.bare.revise unmark = i.bare.revise unmark := by
  cases h with
  | declare h =>
    simp only [Item.bare, Item.revise, unmark_identifier h]
    rfl
  | assign ht hv =>
    simp only [Item.bare, Item.revise, unmark_identifier ht, bare_of_marked hv]
    rfl
  | print h =>
    simp only [Item.bare, Item.revise, unmark_identifier h]
    rfl

/-- A check changes marks and conversions, and nothing else. -/
theorem bare_checkItems (t : SymbolTable) (is : List Item) :
    ((checkItems t is).node.map Item.bare).map (Item.revise unmark) =
      (is.map Item.bare).map (Item.revise unmark) := by
  have hrow : ∀ {is js : List Item}, List.Forall₂ Item.MarkedAs is js →
      (js.map Item.bare).map (Item.revise unmark) =
        (is.map Item.bare).map (Item.revise unmark) := by
    intro is js h
    induction h with
    | nil => rfl
    | cons hi his ih =>
      simp only [List.map_cons, bare_of_marked_item hi, ih]
  exact hrow (marked_items t is)

end Bare

/-! ## Parts of integers -/

/-- an integer literal, or a variable that was first declared an integer -/
def Expr.isIntLeaf (earlier : List Item) : Expr → Bool
  | const _ declared _ _ => declared = .int
  | deref id _ _ => declaredType? earlier id.name = some .int
  | _ => false

def Expr.AllInt (earlier : List Item) (e : Expr) : Prop :=
  ∀ l ∈ e.leaves, l.isIntLeaf earlier = true

inductive Side
  | left
  | right

def Side.of (s : Side) (l r : Expr) : Expr :=
  match s with
  | left => l
  | right => r

/-- what stands below the topmost conversions -/
def Expr.core : Expr → Expr
  | convert inner _ _ => inner.core
  | e => e

/-- the number of topmost conversions -/
def Expr.wraps : Expr → Nat
  | convert inner _ _ => inner.wraps + 1
  | _ => 0

/-- the part that a path leads to, with the conversions right above it -/
def Expr.part? (e : Expr) : List Side → Option Expr
  | [] => some e
  | s :: π =>
    match e.core with
    | binary _ l r _ _ => (s.of l r).part? π
    | _ => none

/-- the part at a path has integers alone, and every part around it has something else -/
structure Expr.MaximalInt (earlier : List Item) (v : Expr) (π : List Side) : Prop where
  ints : ∀ x, v.part? π = some x → x.AllInt earlier
  around : ∀ ρ s σ x, π = ρ ++ s :: σ → v.part? ρ = some x → ¬ x.AllInt earlier

/-- one conversion stands right above each largest part of integers, and none above any other part -/
def Expr.Widened (earlier : List Item) (v : Expr) : Prop :=
  ∀ π x, v.part? π = some x →
    (v.MaximalInt earlier π → x.wraps = 1) ∧ (¬ v.MaximalInt earlier π → x.wraps = 0)

section Ints
variable {earlier : List Item}

theorem allInt_binary {op : Operator} {l r : Expr} {type : Option CheckedType} {p : Position} :
    (Expr.binary op l r type p).AllInt earlier ↔ l.AllInt earlier ∧ r.AllInt earlier :=
  List.forall_mem_append

theorem allInt_bare (e : Expr) :
    (e.bare.revise Revision.unmark).AllInt earlier ↔ e.AllInt earlier := by
  induction e with
  | const value declared type p => simp [Expr.bare, Expr.revise, Expr.AllInt, Expr.leaves,
      Expr.isIntLeaf]
  | deref id type p => simp [Expr.bare, Expr.revise, Expr.AllInt, Expr.leaves, Expr.isIntLeaf,
      Revision.unmark]
  | binary op left right type p ihl ihr =>
    rw [allInt_binary, ← ihl, ← ihr]
    exact allInt_binary
  | convert inner type p ih => exact ih

theorem allInt_check (t : SymbolTable) (e : Expr) :
    (e.check t).node.AllInt earlier ↔ e.AllInt earlier := by
  rw [← allInt_bare, bare_of_marked (marked_check t e), allInt_bare]

/-- Where all names are known, what is not all integers has a float. -/
theorem allInt_iff {e : Expr} (h : e.diagnosis earlier = []) :
    e.AllInt earlier ↔ e.hasFloat earlier = false := by
  induction e with
  | const value declared type p =>
    cases declared <;> simp [Expr.AllInt, Expr.hasFloat, Expr.leaves, Expr.isIntLeaf,
      Expr.isFloatLeaf]
  | deref id type p =>
    rw [diagnosis_deref, Identifier.diagnosis] at h
    rcases hd : declaredType? earlier id.name with _ | _ | _
    · rw [hd] at h
      cases h
    all_goals
      simp [Expr.AllInt, Expr.hasFloat, Expr.leaves, Expr.isIntLeaf, Expr.isFloatLeaf, hd]
  | binary op left right type p ihl ihr =>
    rw [diagnosis_binary] at h
    obtain ⟨hl, hr⟩ := List.append_eq_nil_iff.mp h
    rw [allInt_binary, hasFloat_binary, Bool.or_eq_false_iff, ihl hl, ihr hr]
  | convert inner type p ih => exact ih h

end Ints

/-! ## Parts without conversions -/

theorem nodes_core_subset (e : Expr) : e.core.nodes ⊆ e.nodes := by
  induction e with
  | const | deref | binary => exact List.Subset.refl _
  | convert inner type p ih => exact List.Subset.trans ih (List.subset_append_left _ _)

theorem nodes_part?_subset {v x : Expr} {π : List Side} (h : v.part? π = some x) :
    x.nodes ⊆ v.nodes := by
  induction π generalizing v with
  | nil =>
    obtain rfl := Option.some.inj h
    exact List.Subset.refl _
  | cons s π ih =>
    rw [Expr.part?] at h
    split at h
    next op l r type p hcore =>
      have hsub : (s.of l r).nodes ⊆ v.core.nodes := by
        rw [hcore]
        cases s <;> simp [Side.of, Expr.nodes]
      exact List.Subset.trans (List.Subset.trans (ih h) hsub) (nodes_core_subset v)
    next => cases h

def Expr.Plain (e : Expr) : Prop := ∀ n ∈ e.nodes, n.isConversion = false

theorem Expr.Plain.wraps_core {e : Expr} (h : e.Plain) : e.wraps = 0 ∧ e.core = e := by
  cases e with
  | const | deref | binary => exact ⟨rfl, rfl⟩
  | convert inner type p => cases h _ (Expr.mem_nodes_self _)

/-- The check of an integer puts no conversion into it. -/
theorem plain_check {t : SymbolTable} {e : Expr} (h : (e.check t).type = .num .int) :
    (e.check t).node.Plain := by
  obtain ⟨hnode, hplain⟩ := integersPlain_check t e
  have hany := hplain _ (Expr.mem_nodes_self _) (hnode.trans (congrArg some h))
  simpa [Expr.Plain] using hany

/-! ## Largest parts -/

section Widened
variable {earlier : List Item}

/-- A converted expression of integers is its own largest part. -/
theorem widened_convert {e : Expr} (hp : e.Plain) (he : e.AllInt earlier)
    (type : Option CheckedType) (p : Position) : (Expr.convert e type p).Widened earlier := by
  obtain ⟨hwraps, hcore⟩ := hp.wraps_core
  intro π x hx
  cases π with
  | nil =>
    obtain rfl := Option.some.inj hx
    have hmax : (Expr.convert e type p).MaximalInt earlier [] := by
      refine ⟨fun y hy => ?_, fun ρ s σ y hπ => ?_⟩
      · obtain rfl := Option.some.inj hy
        exact he
      · simp at hπ
    exact ⟨fun _ => by rw [Expr.wraps, hwraps], fun hn => absurd hmax hn⟩
  | cons s π =>
    have hinside : e.part? (s :: π) = some x := by
      rw [Expr.part?, Expr.core, hcore] at hx
      rw [Expr.part?, hcore]
      exact hx
    have hx0 : x.wraps = 0 := by
      have hxp : x.Plain := fun n hn => hp n (nodes_part?_subset hinside hn)
      exact hxp.wraps_core.1
    have hwhole : (Expr.convert e type p).AllInt earlier := he
    exact ⟨fun hmax => absurd hwhole (hmax.around [] s π _ rfl rfl), fun _ => hx0⟩

theorem widened_leaf {e : Expr} (hp : e.Plain) (he : ¬ e.AllInt earlier)
    (hleaf : ∀ s π, e.part? (s :: π) = none) : e.Widened earlier := by
  intro π x hx
  cases π with
  | nil =>
    obtain rfl := Option.some.inj hx
    exact ⟨fun hmax => absurd (hmax.ints _ rfl) he, fun _ => hp.wraps_core.1⟩
  | cons s π =>
    rw [hleaf] at hx
    cases hx

theorem maximalInt_cons_iff {op : Operator} {l r : Expr} {type : Option CheckedType} {p : Position}
    (h : ¬ (Expr.binary op l r type p).AllInt earlier) (s : Side) (π : List Side) :
    (Expr.binary op l r type p).MaximalInt earlier (s :: π) ↔
      (s.of l r).MaximalInt earlier π := by
  constructor
  · intro hmax
    exact ⟨hmax.ints, fun ρ s' σ x hπ => hmax.around (s :: ρ) s' σ x (congrArg (s :: ·) hπ)⟩
  · intro hmax
    refine ⟨hmax.ints, fun ρ s' σ x hπ hx => ?_⟩
    cases ρ with
    | nil =>
      obtain rfl := Option.some.inj hx
      exact h
    | cons s'' ρ =>
      obtain ⟨rfl, hrest⟩ := List.cons.inj hπ
      exact hmax.around ρ s' σ x hrest hx

theorem widened_binary {op : Operator} {l r : Expr} {type : Option CheckedType} {p : Position}
    (h : ¬ (Expr.binary op l r type p).AllInt earlier) (hl : l.Widened earlier)
    (hr : r.Widened earlier) : (Expr.binary op l r type p).Widened earlier := by
  intro π x hx
  cases π with
  | nil =>
    obtain rfl := Option.some.inj hx
    exact ⟨fun hmax => absurd (hmax.ints _ rfl) h, fun _ => rfl⟩
  | cons s π =>
    rw [maximalInt_cons_iff h]
    cases s with
    | left => exact hl π x hx
    | right => exact hr π x hx

variable {t : SymbolTable}

/-- Where a float is needed, an expression of integers is converted as a whole. -/
theorem widened_of_node (h : Knows t earlier) {e : Expr} (he : e.Unconverted)
    (hd : e.diagnosis earlier = [])
    (hnode : (e.check t).type = .num .float → ¬ (e.check t).node.AllInt earlier →
      (e.check t).node.Widened earlier) : ((e.check t).as (.num .float)).Widened earlier := by
  have htype := (check_expr h he).2
  rw [typeOfLeaves_of_nil hd] at htype
  have hints : (e.check t).node.AllInt earlier ↔ e.hasFloat earlier = false :=
    (allInt_check t e).trans (allInt_iff hd)
  cases hf : e.hasFloat earlier with
  | false =>
    have hint : (e.check t).type = .num .int := by
      rw [htype, hf]
      rfl
    have has : (e.check t).as (.num .float) = (e.check t).node.widen := if_pos ⟨hint, rfl⟩
    rw [has]
    exact widened_convert (plain_check hint) (hints.mpr hf) _ _
  | true =>
    have hfloat : (e.check t).type = .num .float := by
      rw [htype, hf]
      rfl
    have has : (e.check t).as (.num .float) = (e.check t).node := if_neg (by simp [hfloat])
    rw [has]
    exact hnode hfloat (by simp [hints, hf])

/-- **Where a float is needed**, an expression has one conversion above each of its largest parts of
integers, and no others. -/
theorem widened_check (h : Knows t earlier) {e : Expr} (he : e.Unconverted)
    (hd : e.diagnosis earlier = []) : ((e.check t).as (.num .float)).Widened earlier := by
  induction e with
  | const value declared type p =>
    refine widened_of_node h he hd fun _ hnot => widened_leaf ?_ hnot fun _ _ => rfl
    exact List.forall_mem_singleton.mpr rfl
  | deref id type p =>
    refine widened_of_node h he hd fun _ hnot => widened_leaf ?_ hnot fun _ _ => rfl
    exact List.forall_mem_singleton.mpr rfl
  | binary op left right type p ihl ihr =>
    rw [diagnosis_binary] at hd
    obtain ⟨hl, hr⟩ := List.append_eq_nil_iff.mp hd
    refine widened_of_node h he (by rwa [diagnosis_binary]) fun hfloat hnot => ?_
    have hjoin : (left.check t).type.join (right.check t).type = .num .float := hfloat
    have hnode : (Expr.check t (.binary op left right type p)).node =
        .binary op ((left.check t).as (.num .float)) ((right.check t).as (.num .float))
          (some (.num .float)) p := by
      rw [← hjoin]
      rfl
    rw [hnode] at hnot ⊢
    exact widened_binary hnot (ihl he.1 hl) (ihr he.2 hr)
  | convert => exact he.elim

end Widened

/-! ## Types in order -/

/-- operands have the type of their operation, and a conversion is a float and holds an integer -/
def Expr.Fitted : Expr → Prop
  | const .. | deref .. => True
  | binary _ l r t _ => l.type = t ∧ r.type = t
  | convert inner t _ => t = some (.num .float) ∧ inner.type = some (.num .int)

theorem CheckedType.raise_join {s t : CheckedType} (h : s.join t ≠ error) :
    s.raise (s.join t) = s.join t ∧ t.raise (s.join t) = s.join t := by
  rcases s with (_ | _) | _ | _ <;> rcases t with (_ | _) | _ | _ <;> simp_all [join, raise]

section Fitted
variable {t : SymbolTable}

theorem type_as (e : Expr) (s : CheckedType) :
    ((e.check t).as s).type = some ((e.check t).type.raise s) := by
  unfold Checked.as CheckedType.raise
  split
  · rfl
  · exact type_node_check t e

theorem fitted_as {e : Expr} (h : ∀ n ∈ (e.check t).node.nodes, n.Fitted) (s : CheckedType) :
    ∀ n ∈ ((e.check t).as s).nodes, n.Fitted := by
  unfold Checked.as
  split
  next hs =>
    refine List.forall_mem_append.mpr ⟨h, List.forall_mem_singleton.mpr ⟨rfl, ?_⟩⟩
    rw [type_node_check, hs.1]
  next => exact h

theorem fitted_check {e : Expr} (he : e.Unconverted) (h : (e.check t).type ≠ .error) :
    ∀ n ∈ (e.check t).node.nodes, n.Fitted := by
  induction e with
  | const value declared type p => exact List.forall_mem_singleton.mpr trivial
  | deref id type p => exact List.forall_mem_singleton.mpr trivial
  | binary op left right type p ihl ihr =>
    have hjoin : (left.check t).type.join (right.check t).type ≠ .error := h
    have hl : (left.check t).type ≠ .error := by
      intro e
      rw [e, CheckedType.join_error_left] at hjoin
      exact hjoin rfl
    have hr : (right.check t).type ≠ .error := by
      intro e
      rw [e, CheckedType.join_error_right] at hjoin
      exact hjoin rfl
    obtain ⟨htl, htr⟩ := CheckedType.raise_join hjoin
    refine List.forall_mem_append.mpr ⟨List.forall_mem_append.mpr
      ⟨fitted_as (ihl he.1 hl) _, fitted_as (ihr he.2 hr) _⟩, List.forall_mem_singleton.mpr ?_⟩
    exact ⟨by rw [type_as, htl], by rw [type_as, htr]⟩
  | convert => exact he.elim

end Fitted

/-! ## Assignments and programs -/

theorem CheckedType.exists_of_fits {s u : CheckedType} (hs : s ≠ void) (h : fits s u = true) :
    ∃ d, s = num d ∧ u ≠ error ∧ u.raise s = num d ∧ (d = .int → u = num .int) := by
  rcases s with (_ | _) | _ | _ <;> rcases u with (_ | _) | _ | _ <;> simp_all [fits, raise]

/-- An assignment without an error holds its value at the type of its target. -/
theorem node_checkAssign_of_ne {t : SymbolTable} {target target' : Identifier}
    {value value' : Expr} {type : Option CheckedType} {p p' : Position}
    (h : (checkAssign t target value p).node = .assign target' value' type p')
    (hne : type ≠ some .error) :
    ∃ d, target' = (target.check t).node ∧ value' = (value.check t).as (.num d) ∧
      type = some (.num d) ∧ (target.check t).type = .num d ∧ (value.check t).type ≠ .error ∧
      (value.check t).type.raise (.num d) = .num d ∧
      (d = .int → (value.check t).type = .num .int) := by
  unfold checkAssign at h
  dsimp only at h
  split at h
  next hfits =>
    obtain ⟨d, hd, hv, hraise, hint⟩ :=
      CheckedType.exists_of_fits (decorated_identifier t target).2.1 hfits
    obtain ⟨rfl, rfl, rfl, -⟩ := Item.assign.inj h
    rw [hd] at hraise ⊢
    exact ⟨d, rfl, rfl, rfl, rfl, hv, hraise, hint⟩
  next =>
    obtain ⟨-, -, rfl, -⟩ := Item.assign.inj h
    exact absurd rfl hne

theorem exists_assign_of_check {c : Compiler} {p : Program} {k : Nat} {target : Identifier}
    {value : Expr} {type : Option CheckedType} {pos : Position}
    (h : (c.check p).1.items[k]? = some (.assign target value type pos)) :
    ∃ target₀ value₀ type₀ pos₀, p.items[k]? = some (.assign target₀ value₀ type₀ pos₀) ∧
      (checkAssign (p.tableBefore k) target₀ value₀ pos₀).node = .assign target value type pos := by
  cases hi : p.items[k]? with
  | none =>
    have hnone : (c.check p).1.items[k]? = none := by
      show (checkItems .empty p.items).node[k]? = none
      rw [getElem?_checkItems, hi]
      rfl
    rw [hnone] at h
    cases h
  | some i =>
    have hnode : (i.check (p.tableBefore k)).node = .assign target value type pos :=
      Option.some.inj ((item_check hi).symm.trans h)
    have hmarked := marked_item (p.tableBefore k) i
    rw [hnode] at hmarked
    cases hmarked with
    | assign ht hv => exact ⟨_, _, _, _, rfl, hnode⟩

/-- **Conversions stand where they are needed.**  A program without conversions is the same behind a
check but for conversions and marks.  An assignment without an error has the type of its target's
first declaration, and so has its value, in which all types are in order.  If that is an integer, there
is no conversion in the value; if it is a float, one conversion stands right above each of the largest
parts of integers, and none above any other part. -/
theorem conversions_exact (c : Compiler) {p : Program} (hp : p.Unconverted) :
    (c.check p).1.bare.revise Revision.unmark = p.revise Revision.unmark ∧
    ∀ k target value type pos,
      (c.check p).1.items[k]? = some (.assign target value type pos) → type ≠ some .error →
      ∃ d, declaredType? (p.items.take k) target.name = some d ∧ type = some (.num d) ∧
        value.type = some (.num d) ∧ (∀ n ∈ value.nodes, n.Fitted) ∧
        (d = .int → ∀ n ∈ value.nodes, n.isConversion = false) ∧
        (d = .float → ∀ π x, value.part? π = some x →
          (value.MaximalInt (p.items.take k) π → x.wraps = 1) ∧
          (¬ value.MaximalInt (p.items.take k) π → x.wraps = 0)) := by
  constructor
  · have hbare : p.items.map Item.bare = p.items :=
      (List.map_congr_left fun i hi => Item.bare_of_unconverted (hp i hi)).trans (List.map_id _)
    have hitems := bare_checkItems .empty p.items
    rw [hbare] at hitems
    exact congrArg (Program.mk · none) hitems
  · intro k target value type pos hk hne
    obtain ⟨target₀, value₀, type₀, pos₀, hi, hnode⟩ := exists_assign_of_check hk
    have hv : value₀.Unconverted := hp _ (List.mem_of_getElem? hi)
    have hknows := knows_before p k
    obtain ⟨d, rfl, rfl, rfl, hd, herror, hraise, hint⟩ := node_checkAssign_of_ne hnode hne
    refine ⟨d, ?_, rfl, ?_, fitted_as (fitted_check hv herror) _, ?_, ?_⟩
    · rw [name_check]
      exact ((type_identifier hknows target₀).2 d).mp hd
    · rw [type_as, hraise]
    · rintro rfl
      have has : (value₀.check (p.tableBefore k)).as (.num .int) = _ := if_neg (by simp)
      rw [has]
      exact plain_check (hint rfl)
    · rintro rfl
      have hnames : value₀.diagnosis (p.items.take k) = [] := by
        by_contra hn
        rw [(check_expr hknows hv).2, typeOfLeaves_of_ne_nil hn] at herror
        exact herror rfl
      exact widened_check hknows hv hnames

/-- In `f = 3 / 2 + 2.5` the quotient is a largest part of integers, and has one conversion above it. -/
theorem conversions_exact_lead :
    (Compiler.check {} lead).1.bare.revise Revision.unmark = lead.revise Revision.unmark ∧
      (Compiler.check {} lead).1.items[1]? = some (markedAssign leadValue) ∧
      leadValue.type = some (.num .float) ∧
      leadValue.MaximalInt (lead.items.take 1) [.left] ∧
      (leadValue.part? [.left]).map Expr.wraps = some 1 := by
  have hu : lead.Unconverted := by
    simp [lead, floatProgram, Program.Unconverted, Item.Unconverted, Expr.Unconverted, Expr.apply,
      Expr.literal]
  have hitem : (Compiler.check {} lead).1.items[1]? = some (markedAssign leadValue) := by
    decide +kernel
  have hwhole : ¬ leadValue.AllInt (lead.items.take 1) := by
    simp [leadValue, markedLiteral, Expr.AllInt, Expr.leaves, Expr.isIntLeaf]
  have hpart : (threeHalves 14).widen.MaximalInt (lead.items.take 1) [] := by
    refine ⟨fun x hx => ?_, fun ρ s σ x hπ => ?_⟩
    · obtain rfl := Option.some.inj hx
      simp [threeHalves, markedLiteral, Expr.widen, Expr.AllInt, Expr.leaves, Expr.isIntLeaf]
    · simp at hπ
  have hmax : leadValue.MaximalInt (lead.items.take 1) [.left] :=
    (maximalInt_cons_iff hwhole .left []).mpr hpart
  obtain ⟨hbare, hassign⟩ := conversions_exact {} hu
  obtain ⟨d, -, hd, hvalue, -, -, hwraps⟩ := hassign 1 _ _ _ _ hitem (by simp)
  obtain rfl : NumType.float = d := by simpa using hd
  refine ⟨hbare, hitem, hvalue, hmax, ?_⟩
  exact congrArg some ((hwraps rfl [.left] _ rfl).1 hmax)

end DeskCalc
