import DeskCalc.Proofs.Meaning
import DeskCalc.Proofs.Registers

/-!
# Code does what the tree says

The code of a program, run on the calculator, prints what the evaluator of the checked tree prints,
for all numbers and operations whatsoever (`run_compile`).

The calculator and the evaluator are compared between items (`Matches`): there the stack is empty
and the precision is zero, and every name that has a register has its value in it.  Two further
facts make a declaration harmless, which changes neither side: a free register still holds zero,
and so does a variable without a register.  Within an item the code of an expression runs on any
stack and from any precision (`run_emit_expr`); it leaves its value on top and the precision that
the evaluator has behind the expression.
-/

namespace DeskCalc

section
variable {V : Type*} (A : Arithmetic V)

/-- **Expressions.**  On every stack and from every precision the code of an expression pushes its
value and leaves its precision. -/
theorem run_emit_expr {t : SymbolTable} (hn : t.names.Nodup) (store : String → V) (e : Expr)
    (h : (e.emit t).fault = none) (m : Machine V)
    (hm : ∀ n r, t.registerOf? n = some r → m.register r = store n) :
    m.run A (e.emit t).code = some (m.holding (e.value A store m.precision)) := by
  induction e generalizing m with
  | const number declared type p => rfl
  | deref id type p =>
    obtain ⟨r, hr, hc⟩ := emitWith_inv hn h
    rw [Expr.emit, hc]
    show some (m.holding (m.register r, m.precision)) = _
    rw [hm _ r hr]
    rfl
  | binary op left right type p ihl ihr =>
    obtain ⟨hlr, _, hc⟩ := Emitted.andThen_inv h
    obtain ⟨hl, hr, hc'⟩ := Emitted.andThen_inv hlr
    rw [Expr.emit, hc, hc', Machine.run_append, Machine.run_append, ihl hl m hm,
      Option.bind_some, ihr hr (m.holding _) hm, Option.bind_some]
    rfl
  | convert inner type p ih =>
    obtain ⟨hi, _, hc⟩ := Emitted.andThen_inv h
    rw [Expr.emit, hc, Machine.run_append, ih hi m hm, Option.bind_some]
    rfl

/-- a calculator and an evaluator between two items -/
structure Matches (a : Allocation) (m : Machine V) (w : World V) : Prop where
  stack : m.stack = []
  precision : m.precision = 0
  evaluator : w.precision = 0
  printed : m.printed = w.printed
  held : ∀ n r, a.table.registerOf? n = some r → m.register r = w.store n
  fresh : ∀ r ∈ a.free, m.register r = A.zero
  unset : ∀ n, a.table.registerOf? n = none → w.store n = A.zero

variable {A} {a : Allocation} {m : Machine V} {w : World V}

theorem Matches.start (hr : ∀ n, a.table.registerOf? n = none) :
    Matches A a (Machine.start A) (World.start A) where
  stack := rfl
  precision := rfl
  evaluator := rfl
  printed := rfl
  held n r h := absurd ((hr n).symm.trans h) (Option.some_ne_none r).symm
  fresh _ _ := rfl
  unset _ _ := rfl

/-! ## One item -/

theorem Matches.declare {b : Allocation} {id : Identifier} (hm : Matches A a m w) (ha : a.Sound)
    (h : a.declare id = .ok b) (hnew : a.table.registerOf? id.name = none) : Matches A b m w := by
  obtain ⟨_, r, hfree, hof⟩ := ha.declare h
  refine { hm with held := ?_, fresh := ?_, unset := ?_ }
  · intro n r' hr
    rw [hof] at hr
    by_cases e : id.name = n
    · rw [if_pos e] at hr
      obtain rfl := Option.some.inj hr
      rw [hm.fresh r (hfree ▸ List.mem_cons_self), hm.unset n (e ▸ hnew)]
    · rw [if_neg e] at hr
      exact hm.held n r' hr
  · intro r' hr
    exact hm.fresh r' (hfree ▸ List.mem_cons_of_mem r hr)
  · intro n hn
    rw [hof] at hn
    by_cases e : id.name = n
    · rw [if_pos e] at hn
      cases hn
    · rw [if_neg e] at hn
      exact hm.unset n hn

theorem Matches.assign {target : Identifier} {value : Expr} {type : Option CheckedType}
    {p : Position} (hm : Matches A a m w) (ha : a.Sound)
    (h : (Item.emit a (.assign target value type p)).1.fault = none) :
    ∃ m', m.run A (Item.emit a (.assign target value type p)).1.code = some m' ∧
      Matches A a m' (w.after A (.assign target value type p)) := by
  obtain ⟨hv, ht, hc⟩ := Emitted.andThen_inv h
  obtain ⟨r, hr, hc'⟩ := emitWith_inv ha.names ht
  have hrun := run_emit_expr A ha.names w.store value hv m hm.held
  rw [hm.precision, ← hm.evaluator] at hrun
  refine ⟨{ m with
    stack := []
    register := Function.update m.register r (value.value A w.store w.precision).1
    precision := 0 }, ?_, ?_⟩
  · show m.run A ((value.emit a.table).andThen _).code = _
    rw [hc, Machine.run_append, hrun, Option.bind_some, hc', ← hm.stack]
    rfl
  · refine ⟨rfl, rfl, rfl, hm.printed, ?_, ?_, ?_⟩
    · intro n r' hr'
      show Function.update m.register r _ r' = Function.update w.store target.name _ n
      by_cases e : target.name = n
      · subst e
        obtain rfl : r = r' := Option.some.inj (hr.symm.trans hr')
        rw [Function.update_self, Function.update_self]
      · have hne : r' ≠ r := fun er => e (ha.apart _ _ r hr (er ▸ hr'))
        rw [Function.update_of_ne hne, Function.update_of_ne (Ne.symm e)]
        exact hm.held n r' hr'
    · intro r' hf
      show Function.update m.register r _ r' = A.zero
      have hne : r' ≠ r := fun er => ha.taken _ r hr (er ▸ hf)
      rw [Function.update_of_ne hne]
      exact hm.fresh r' hf
    · intro n hn
      show Function.update w.store target.name _ n = A.zero
      have hne : n ≠ target.name := by
        rintro rfl
        exact absurd (hr.symm.trans hn) (Option.some_ne_none r)
      rw [Function.update_of_ne hne]
      exact hm.unset n hn

theorem Matches.print {id : Identifier} {type : Option CheckedType} {p : Position}
    (hm : Matches A a m w) (ha : a.Sound)
    (h : (Item.emit a (.print id type p)).1.fault = none) :
    ∃ m', m.run A (Item.emit a (.print id type p)).1.code = some m' ∧
      Matches A a m' (w.after A (.print id type p)) := by
  obtain ⟨r, hr, hc⟩ := emitWith_inv ha.names h
  refine ⟨{ m with printed := m.printed ++ [m.register r] }, ?_, ?_⟩
  · show m.run A (emitWith a.table id _).code = _
    rw [hc]
    rfl
  · refine { hm with printed := ?_ }
    show m.printed ++ [m.register r] = w.printed ++ [w.store id.name]
    rw [hm.printed, hm.held _ r hr]

/-- **One item.**  The code of an item runs to its end, and behind it calculator and evaluator match
again. -/
theorem Matches.item (hm : Matches A a m w) (ha : a.Sound) (i : Item)
    (h : (i.emit a).1.fault = none)
    (hnew : ∀ n ∈ i.entry?.toList.map Symbol.name, a.table.registerOf? n = none) :
    ∃ m', m.run A (i.emit a).1.code = some m' ∧ Matches A (i.emit a).2 m' (w.after A i) := by
  cases i with
  | declare declared id type p =>
    cases e : a.declare id with
    | error f =>
      rw [Item.emit, e] at h
      cases h
    | ok b =>
      rw [Item.emit, e]
      exact ⟨m, rfl, hm.declare ha e (hnew id.name (List.mem_singleton.mpr rfl))⟩
  | assign target value type p => exact hm.assign ha h
  | print id type p => exact hm.print ha h

/-! ## A row of items -/

/-- **A row of items** that declares new names, each once. -/
theorem Matches.items (hm : Matches A a m w) (ha : a.Sound) (is : List Item)
    (h : (emitItems a is).1.fault = none) (hnodup : (declaredNames is).Nodup)
    (hnew : ∀ n ∈ declaredNames is, a.table.registerOf? n = none) :
    ∃ m', m.run A (emitItems a is).1.code = some m' ∧
      Matches A (emitItems a is).2 m' (w.run A is) := by
  induction is generalizing a m w with
  | nil => exact ⟨m, rfl, hm⟩
  | cons i is ih =>
    obtain ⟨hi, his⟩ := emitItems_cons_inv h
    rw [declaredNames_cons] at hnodup hnew
    obtain ⟨_, hnd, hdisj⟩ := List.nodup_append.mp hnodup
    obtain ⟨m₁, hrun, hm₁⟩ := hm.item ha i hi fun n hn => hnew n (List.mem_append_left _ hn)
    obtain ⟨hs, hkeep⟩ := ha.emit hi
    have hnew' : ∀ n ∈ declaredNames is, (i.emit a).2.table.registerOf? n = none := by
      intro n hn
      rw [hkeep n fun hi => hdisj n hi n hn rfl]
      exact hnew n (List.mem_append_right _ hn)
    obtain ⟨m', hrun', hm'⟩ := ih hm₁ hs his hnd hnew'
    rw [emitItems_cons_of_none hi, Emitted.andThen_of_none hi]
    refine ⟨m', ?_, hm'⟩
    show m.run A ((i.emit a).1.code ++ _) = _
    rw [Machine.run_append, hrun, Option.bind_some, hrun']

/-! ## A compilation -/

theorem checked_table_of_faultless {is : List Item}
    (h : (checkItems .empty is).faults = []) :
    (checkItems .empty is).table.names.Nodup ∧ (declaredNames is).Nodup ∧
      ∀ n, (checkItems .empty is).table.registerOf? n = none := by
  have hn := SymbolTable.nodup_names_empty
  have hnodup : (declaredNames is).Nodup := nodup_of_faultless hn h
  have hentries : (checkItems .empty is).table.entries = declarations is :=
    entries_of_faultless hn h
  refine ⟨?_, hnodup, fun n => ?_⟩
  · show (((checkItems .empty is).table.entries).map Symbol.name).Nodup
    rw [hentries]
    exact hnodup
  · cases e : (checkItems .empty is).table.find? n with
    | none =>
      rw [SymbolTable.registerOf?, e]
      rfl
    | some s =>
      rw [SymbolTable.registerOf?, e]
      have hs : s ∈ (checkItems .empty is).table.entries := List.mem_of_find?_eq_some e
      exact register_of_mem_declarations (hentries ▸ hs)

/-- The code of a front part of a row is a front part of the code, and it runs from the start. -/
theorem run_front (A : Arithmetic V) (ha : a.Sound)
    (hnone : ∀ n, a.table.registerOf? n = none) {is js : List Item}
    (h : (emitItems a (is ++ js)).1.fault = none) (hnodup : (declaredNames (is ++ js)).Nodup) :
    ∃ rest m, (emitItems a (is ++ js)).1.code = (emitItems a is).1.code ++ rest ∧
      (Machine.start A).run A (emitItems a is).1.code = some m ∧
      m.printed = ((World.start A).run A is).printed ∧ m.stack = [] ∧ m.precision = 0 := by
  have hnd : (declaredNames is).Nodup := by
    rw [declaredNames, declarations_append, List.map_append] at hnodup
    exact (List.nodup_append.mp hnodup).1
  have hf := fault_of_append h
  obtain ⟨m, hrun, hm⟩ := (Matches.start hnone).items ha is hf hnd fun n _ => hnone n
  rw [emitItems_append_of_none hf, Emitted.andThen_of_none hf]
  exact ⟨_, m, rfl, hrun, hm.printed, hm.stack, hm.precision⟩

/-- **Semantic preservation.**  Whatever numbers and operations are, the code of a program runs to
its end and prints what the evaluator of the checked tree prints.  Behind the code of every front
part of the program, and so behind the whole, the stack is empty and the precision is zero. -/
theorem run_compile (A : Arithmetic V) {c d : Compiler} {p q : Program} {text : String}
    (h : c.compile p = (.ok text, q, d)) :
    text = codeText d.instructions ∧
      (∃ m, (Machine.start A).run A d.instructions = some m ∧
        m.printed = ((World.start A).run A q.items).printed ∧ m.stack = [] ∧ m.precision = 0) ∧
      ∀ is js, q.items = is ++ js →
        ∃ code rest m, d.instructions = code ++ rest ∧
          code = (emitItems { table := (c.check p).2.symbols } is).1.code ∧
          (Machine.start A).run A code = some m ∧
          m.printed = ((World.start A).run A is).printed ∧ m.stack = [] ∧ m.precision = 0 := by
  obtain ⟨hfaults, rfl, hcode, hd, htext⟩ := Compiler.compile_inv h
  obtain ⟨hn, hnodup, hnone⟩ := checked_table_of_faultless hfaults
  have hsound := Allocation.sound_of_fresh hn hnone
  have hnames : (declaredNames (c.check p).1.items).Nodup := by
    rw [declaredNames, ← declarations_checkItems .empty p.items] at hnodup
    exact hnodup
  refine ⟨htext, ?_, fun is js e => ?_⟩
  · have hwhole : (c.check p).1.items ++ [] = (c.check p).1.items := List.append_nil _
    rw [← hwhole] at hcode hnames
    obtain ⟨_, m, _, hrun, hm⟩ := run_front A hsound hnone hcode hnames
    rw [hd]
    exact ⟨m, hrun, hm⟩
  · rw [e] at hcode hd hnames
    obtain ⟨rest, m, hc, hrun, hm⟩ := run_front A hsound hnone hcode hnames
    exact ⟨_, rest, m, hd.trans hc, rfl, hrun, hm⟩

end

/-- `int a; float b; a = 7; b = a / 2.5; print b;` -/
def quotient : Program where
  items :=
    [.declare .int { name := "a", pos := ⟨1, 5⟩ } none ⟨1, 1⟩,
      .declare .float { name := "b", pos := ⟨1, 14⟩ } none ⟨1, 8⟩,
      .assign { name := "a", pos := ⟨1, 17⟩ } (.literal "7" .int ⟨1, 21⟩) none ⟨1, 17⟩,
      .assign { name := "b", pos := ⟨1, 24⟩ }
        (.apply .divide (.read { name := "a", pos := ⟨1, 28⟩ }) (.literal "2.5" .float ⟨1, 32⟩))
        none ⟨1, 24⟩,
      .print { name := "b", pos := ⟨1, 43⟩ } none ⟨1, 37⟩]

/-- results that list the precision and the operands of every operation -/
def tracing : Arithmetic (List Nat) where
  zero := []
  number s := [s.length]
  apply _ k l r := k :: (l ++ r)

/-- A quotient of two types: the precision is five where it is taken. -/
theorem run_compile_quotient :
    (Compiler.compile {} quotient).1 = .ok "7 sa 0 k la 5 k 2.5 / sb 0 k lb p P" ∧
      ((World.start tracing).run tracing (Compiler.compile {} quotient).2.1.items).printed =
        [[5, 1, 3]] ∧
      ∃ m, (Machine.start tracing).run tracing (Compiler.compile {} quotient).2.2.instructions =
          some m ∧ m.printed = [[5, 1, 3]] ∧ m.stack = [] ∧ m.precision = 0 := by
  have h : (Compiler.compile {} quotient).1 = .ok "7 sa 0 k la 5 k 2.5 / sb 0 k lb p P" := by
    decide +kernel
  have hw : ((World.start tracing).run tracing
      (Compiler.compile {} quotient).2.1.items).printed = [[5, 1, 3]] := by
    decide +kernel
  have hc : Compiler.compile {} quotient =
      (.ok "7 sa 0 k la 5 k 2.5 / sb 0 k lb p P", (Compiler.compile {} quotient).2.1,
        (Compiler.compile {} quotient).2.2) := Prod.ext h rfl
  obtain ⟨_, hrun, _⟩ := run_compile tracing hc
  rw [hw] at hrun
  exact ⟨h, hw, hrun⟩

end DeskCalc
