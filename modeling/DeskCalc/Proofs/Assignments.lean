import DeskCalc.Proofs.Decoration
import DeskCalc.Proofs.Diagnosis

/-!
# What an assignment is told

The faults of an expression are those of all its variables.  Its type does not depend on all of
them: a conversion is a float whatever it holds, so what stands below one is looked up, reported and
then forgotten.  To the rest of the tree a conversion is a float literal, and with such literals in
the place of its conversions (`Expr.sealed`) an expression has the type of its leaves again
(`check_sealed`).

So an assignment is marked as faulty for its target, for the names above its conversions, and for a
float that an integer refuses, and for no other reason (`mark_assignment`).  If the names below its
conversions are known (`Expr.Sheltered`), as where there are no conversions
(`Expr.sheltered_of_unconverted`), then it is marked exactly if its check adds to the log, and it never
adds two kinds of fault.  If they are not, it can add to the log without a mark, and it can refuse a
value whose names are unknown (`orphaned_unmarked`).

* `Program.reports`        what the check of one item adds to the log (`log_upTo_succ`);
* `assignment_reports`     the mark of an assignment and what its check adds.
-/

namespace DeskCalc

/-! ## One item of a row -/

def Program.upTo (p : Program) (k : Nat) : Program := { p with items := p.items.take k }

def Program.tableBefore (p : Program) (k : Nat) : SymbolTable :=
  (checkItems .empty (p.items.take k)).table

/-- what the check of the item `k` adds to the log -/
def Program.reports (p : Program) (k : Nat) : List SemanticFault :=
  p.items[k]?.toList.flatMap fun i => (i.check (p.tableBefore k)).faults

theorem getElem?_checkItems (t : SymbolTable) (is : List Item) (k : Nat) :
    (checkItems t is).node[k]? =
      is[k]?.map fun i => (i.check (checkItems t (is.take k)).table).node := by
  induction is generalizing t k with
  | nil => rfl
  | cons i is ih =>
    cases k with
    | zero => rfl
    | succ k => exact ih (i.check t).table k

section Reports
variable {c : Compiler} {p : Program} {k : Nat} {i : Item}

theorem item_check (h : p.items[k]? = some i) :
    (c.check p).1.items[k]? = some (i.check (p.tableBefore k)).node := by
  show (checkItems .empty p.items).node[k]? = _
  rw [getElem?_checkItems, h]
  rfl

theorem reports_eq (h : p.items[k]? = some i) :
    p.reports k = (i.check (p.tableBefore k)).faults := by
  rw [Program.reports, h]
  exact List.append_nil _

theorem log_upTo_succ (c : Compiler) (p : Program) (k : Nat) :
    (c.check (p.upTo (k + 1))).2.log.entries =
      (c.check (p.upTo k)).2.log.entries ++ p.reports k := by
  show (checkItems .empty (p.items.take (k + 1))).faults =
    (checkItems .empty (p.items.take k)).faults ++ p.reports k
  rw [List.take_add_one, checkItems_append]
  cases h : p.items[k]? with
  | none =>
    rw [Program.reports, h]
    rfl
  | some i =>
    rw [reports_eq h]
    exact congrArg _ (List.append_nil _)

theorem log_upTo_prefix (c : Compiler) (p : Program) (k : Nat) :
    (c.check (p.upTo k)).2.log.entries <+: (c.check p).2.log.entries := by
  show (checkItems .empty (p.items.take k)).faults <+: (checkItems .empty p.items).faults
  conv => rhs; rw [← List.take_append_drop k p.items, checkItems_append]
  exact List.prefix_append _ _

theorem knows_before (p : Program) (k : Nat) : Knows (p.tableBefore k) (p.items.take k) := by
  have hstart : Knows .empty [] := fun _ => rfl
  exact knows_checkItems hstart (p.items.take k)

end Reports

/-! ## Below conversions -/

/-- the expression with a float literal in the place of each conversion -/
def Expr.sealed : Expr → Expr
  | const value declared t p => const value declared t p
  | deref id t p => deref id t p
  | binary op left right t p => binary op left.sealed right.sealed t p
  | convert _ _ p => literal "" .float p

/-- all names below conversions are known -/
def Expr.Sheltered (earlier : List Item) : Expr → Prop
  | const .. | deref .. => True
  | binary _ left right _ _ => left.Sheltered earlier ∧ right.Sheltered earlier
  | convert inner _ _ => inner.diagnosis earlier = []

/-- a float for a target that was first declared an integer -/
def Identifier.refuses (earlier : List Item) (target : Identifier) (value : Expr) : Bool :=
  declaredType? earlier target.name = some .int &&
    (value.sealed.diagnosis earlier = [] && value.sealed.hasFloat earlier)

theorem diagnosis_sealed {earlier : List Item} {e : Expr} (h : e.Sheltered earlier) :
    e.sealed.diagnosis earlier = e.diagnosis earlier := by
  induction e with
  | const value declared type p => rfl
  | deref id type p => rfl
  | binary op left right type p ihl ihr =>
    rw [Expr.sealed, diagnosis_binary, diagnosis_binary, ihl h.1, ihr h.2]
  | convert inner type p ih => exact h.symm

theorem Expr.sheltered_of_unconverted (earlier : List Item) {e : Expr} (h : e.Unconverted) :
    e.Sheltered earlier := by
  induction e with
  | const | deref => trivial
  | binary op left right type p ihl ihr => exact ⟨ihl h.1, ihr h.2⟩
  | convert => exact h.elim

section Check
variable {t : SymbolTable} {earlier : List Item}

/-- **Conversions are float literals** to what holds them, but the names below them are checked. -/
theorem check_sealed (h : Knows t earlier) (e : Expr) :
    (e.check t).faults = e.diagnosis earlier ∧
      (e.check t).type = e.sealed.typeOfLeaves earlier := by
  induction e with
  | const value declared type p =>
    refine ⟨rfl, ?_⟩
    cases declared <;> rfl
  | deref id type p =>
    rw [diagnosis_deref, Expr.sealed, typeOfLeaves_deref]
    exact check_identifier h id
  | binary op left right type p ihl ihr =>
    obtain ⟨hfl, htl⟩ := ihl
    obtain ⟨hfr, htr⟩ := ihr
    rw [diagnosis_binary, Expr.sealed, typeOfLeaves_binary, ← htl, ← htr, ← hfl, ← hfr]
    exact ⟨faults_operator op p (decorated_check t left).1 (decorated_check t right).1, rfl⟩
  | convert inner type p ih => exact ⟨ih.1, rfl⟩

/-! ## Assignments -/

theorem CheckedType.fits_eq_false_iff {s u : CheckedType} (hs : s ≠ void) (hu : u ≠ void) :
    fits s u = false ↔ s = error ∨ u = error ∨ s = num .int ∧ u = num .float := by
  rcases s with (_ | _) | _ | _ <;> rcases u with (_ | _) | _ | _ <;> simp_all [fits]

theorem faults_assignment (target : Identifier) (value : Expr) (p : Position) :
    (checkAssign t target value p).faults =
      (target.check t).faults ++ (value.check t).faults ++
        if (target.check t).type = .num .int ∧ (value.check t).type = .num .float then
          [.assignment (.num .int) (.num .float) p] else [] := by
  have hfits := CheckedType.fits_eq_false_iff (decorated_identifier t target).2.1
    (decorated_check t value).1
  unfold checkAssign
  dsimp only
  split
  next h =>
    have hnot : ¬ ((target.check t).type = .num .int ∧ (value.check t).type = .num .float) := by
      intro hif
      rw [hfits.mpr (.inr (.inr hif))] at h
      cases h
    rw [if_neg hnot, List.append_nil]
  next h =>
    rcases hfits.mp (Bool.eq_false_iff.mpr h) with he | he | ⟨hi, hf⟩
    · simp [he]
    · simp [he]
    · simp [hi, hf]

theorem mark_assignment (target : Identifier) (value : Expr) (p : Position) :
    ∃ target' value' type, (checkAssign t target value p).node = .assign target' value' type p ∧
      (type = some .error ↔ (target.check t).type = .error ∨ (value.check t).type = .error ∨
        (target.check t).type = .num .int ∧ (value.check t).type = .num .float) := by
  have hfits := CheckedType.fits_eq_false_iff (decorated_identifier t target).2.1
    (decorated_check t value).1
  unfold checkAssign
  dsimp only
  split
  next h =>
    refine ⟨_, _, _, rfl, ?_⟩
    rw [← hfits, h]
    have hne : (target.check t).type ≠ .error := by
      intro he
      rw [he, CheckedType.fits_error_left] at h
      cases h
    simp [hne]
  next h => exact ⟨_, _, _, rfl, iff_of_true rfl (hfits.mp (Bool.eq_false_iff.mpr h))⟩

theorem type_identifier (h : Knows t earlier) (id : Identifier) :
    ((id.check t).type = .error ↔ declaredType? earlier id.name = none) ∧
      ∀ d, (id.check t).type = .num d ↔ declaredType? earlier id.name = some d := by
  rw [(check_identifier h id).2]
  cases declaredType? earlier id.name <;> simp

theorem type_sealed (h : Knows t earlier) (e : Expr) :
    ((e.check t).type = .error ↔ e.sealed.diagnosis earlier ≠ []) ∧
      ((e.check t).type = .num .float ↔
        e.sealed.diagnosis earlier = [] ∧ e.sealed.hasFloat earlier = true) := by
  rw [(check_sealed h e).2]
  by_cases hd : e.sealed.diagnosis earlier = []
  · rw [typeOfLeaves_of_nil hd]
    cases e.sealed.hasFloat earlier <;> simp [hd]
  · rw [typeOfLeaves_of_ne_nil hd]
    simp [hd]

theorem refuses_iff (h : Knows t earlier) (target : Identifier) (value : Expr) :
    target.refuses earlier value = true ↔
      (target.check t).type = .num .int ∧ (value.check t).type = .num .float := by
  rw [(type_identifier h target).2, (type_sealed h value).2]
  simp [Identifier.refuses]

end Check

/-! ## Two kinds of fault -/

section Kinds
variable {earlier : List Item}

theorem diagnosis_ne_nil_iff (id : Identifier) :
    id.diagnosis earlier ≠ [] ↔ declaredType? earlier id.name = none := by
  unfold Identifier.diagnosis
  split <;> simp_all

theorem kind_identifier (earlier : List Item) (id : Identifier) :
    ∀ f ∈ id.diagnosis earlier, f.kind = .undeclaredVariable := by
  unfold Identifier.diagnosis
  split
  · exact List.forall_mem_singleton.mpr rfl
  · exact List.forall_mem_nil _

theorem kind_diagnosis (earlier : List Item) (e : Expr) :
    ∀ f ∈ e.diagnosis earlier, f.kind = .undeclaredVariable := by
  intro f hf
  obtain ⟨l, -, hl⟩ := List.mem_flatMap.mp hf
  cases l with
  | deref id type p => exact kind_identifier earlier id f hl
  | const | binary | convert => cases hl

/-- What an integer refuses has no unknown names above its conversions, and the integer is known. -/
theorem known_of_refuses {target : Identifier} {value : Expr}
    (h : target.refuses earlier value = true) :
    target.diagnosis earlier = [] ∧ value.sealed.diagnosis earlier = [] := by
  obtain ⟨hd, hv, -⟩ : declaredType? earlier target.name = some .int ∧
      value.sealed.diagnosis earlier = [] ∧ value.sealed.hasFloat earlier = true := by
    simpa [Identifier.refuses] using h
  refine ⟨?_, hv⟩
  rw [Identifier.diagnosis, hd]
  rfl

end Kinds

/-- **The mark of an assignment.**  Its check adds, behind what the items before it add, the faults of
all its names and, if its target is an integer and its value a float, one of its own.  It is marked as
faulty for an unknown target, for an unknown name above its conversions and for that fault of its own.
So, where the names below its conversions are known, it is marked exactly if its check adds to the
log, and it has no fault of its own if it has one of a name. -/
theorem assignment_reports (c : Compiler) (p : Program) {k : Nat} {target : Identifier}
    {value : Expr} {mark : Option CheckedType} {pos : Position}
    (h : p.items[k]? = some (.assign target value mark pos)) :
    ∃ target' value' type,
      (c.check p).1.items[k]? = some (.assign target' value' type pos) ∧
      (c.check (p.upTo (k + 1))).2.log.entries =
        (c.check (p.upTo k)).2.log.entries ++ p.reports k ∧
      (c.check (p.upTo (k + 1))).2.log.entries <+: (c.check p).2.log.entries ∧
      p.reports k =
        target.diagnosis (p.items.take k) ++ value.diagnosis (p.items.take k) ++
          (if target.refuses (p.items.take k) value then
            [.assignment (.num .int) (.num .float) pos] else []) ∧
      (type = some .error ↔
        declaredType? (p.items.take k) target.name = none ∨
        value.sealed.diagnosis (p.items.take k) ≠ [] ∨
        target.refuses (p.items.take k) value = true) ∧
      (value.Sheltered (p.items.take k) →
        (type = some .error ↔ p.reports k ≠ []) ∧
        ((∃ f ∈ p.reports k, f.kind = .undeclaredVariable) →
          ∀ f ∈ p.reports k, f.kind ≠ .incompatibleAssignment)) := by
  have hknows := knows_before p k
  obtain ⟨target', value', type, hnode, hmark⟩ :=
    mark_assignment (t := p.tableBefore k) target value pos
  rw [(type_identifier hknows target).1, (type_sealed hknows value).1,
    ← refuses_iff hknows] at hmark
  have hreports : p.reports k = _ := (reports_eq h).trans (faults_assignment target value pos)
  simp only [(check_identifier hknows target).1, (check_sealed hknows value).1,
    ← refuses_iff hknows] at hreports
  refine ⟨target', value', type, ?_, log_upTo_succ c p k, log_upTo_prefix c p (k + 1), hreports,
    hmark, fun hs => ?_⟩
  · rw [item_check h]
    exact congrArg some hnode
  · rw [diagnosis_sealed hs, ← diagnosis_ne_nil_iff] at hmark
    rw [hmark, hreports]
    by_cases hr : target.refuses (p.items.take k) value = true
    · obtain ⟨ht, hv⟩ := known_of_refuses hr
      rw [diagnosis_sealed hs] at hv
      rw [ht, hv, if_pos hr]
      refine ⟨by simp [hr], ?_⟩
      rintro ⟨f, hf, hk⟩
      obtain rfl := List.mem_singleton.mp hf
      cases hk
    · rw [if_neg hr, List.append_nil]
      refine ⟨?_, fun _ f hf hk => ?_⟩
      · rw [or_iff_left hr, Ne, Ne, Ne, List.append_eq_nil_iff, not_and_or]
      · have hnames := List.forall_mem_append.mpr
          ⟨kind_identifier (p.items.take k) target, kind_diagnosis (p.items.take k) value⟩
        rw [hnames f hf] at hk
        cases hk

/-- `float f; int a; f = x; a = x;` with conversions of an earlier check, which knew `x` -/
def orphaned : Program where
  items :=
    [.declare .float { name := "f", pos := ⟨1, 7⟩ } none ⟨1, 1⟩,
      .declare .int { name := "a", pos := ⟨1, 14⟩ } none ⟨1, 10⟩,
      .assign { name := "f", pos := ⟨1, 17⟩ } (.widen (.read { name := "x", pos := ⟨1, 21⟩ })) none
        ⟨1, 17⟩,
      .assign { name := "a", pos := ⟨1, 24⟩ } (.widen (.read { name := "x", pos := ⟨1, 28⟩ })) none
        ⟨1, 24⟩]

/-- An unknown name below a conversion is reported, but the first assignment is marked as a float all
the same, and the second one is refused as well. -/
theorem orphaned_unmarked :
    (Compiler.check {} orphaned).1.items.map Item.type =
        [some (.num .float), some (.num .int), some (.num .float), some .error] ∧
      orphaned.reports 2 = [.undeclared "x" ⟨1, 21⟩] ∧
      orphaned.reports 3 =
        [.undeclared "x" ⟨1, 28⟩, .assignment (.num .int) (.num .float) ⟨1, 24⟩] := by
  decide +kernel

/-- `float f; int x; f = x + y;` with the conversion of an earlier check, which knew `y` too -/
def bereft : Program where
  items :=
    [.declare .float { name := "f", pos := ⟨1, 7⟩ } none ⟨1, 1⟩,
      .declare .int { name := "x", pos := ⟨1, 14⟩ } none ⟨1, 10⟩,
      .assign { name := "f", pos := ⟨1, 17⟩ }
        (.apply .plus (.widen (.read { name := "x", pos := ⟨1, 21⟩ }))
          (.read { name := "y", pos := ⟨1, 25⟩ })) none ⟨1, 17⟩]

/-- An unknown name beside a conversion is reported, and the assignment is marked for it. -/
theorem assignment_reports_bereft :
    bereft.reports 2 = [.undeclared "y" ⟨1, 25⟩] ∧
      ∃ target value, (Compiler.check {} bereft).1.items[2]? =
        some (.assign target value (some .error) ⟨1, 17⟩) := by
  obtain ⟨target, value, type, hitem, -, -, hreports, -, hsheltered⟩ :=
    assignment_reports {} bereft (k := 2) rfl
  have hs : (bereft.reports 2) = [.undeclared "y" ⟨1, 25⟩] := hreports.trans (by decide +kernel)
  have hx : Expr.diagnosis (bereft.items.take 2) (.read { name := "x", pos := ⟨1, 21⟩ }) = [] := by
    decide +kernel
  obtain ⟨hmark, -⟩ := hsheltered ⟨hx, trivial⟩
  obtain rfl := hmark.mpr (by simp [hs])
  exact ⟨hs, target, value, hitem⟩

end DeskCalc
