import DeskCalc.Proofs.Outcome

/-!
# Programs with more items behind them

A check and the making of code both go over the items once, from the front.  So more items at the
end of a program change nothing of what was found before them: the faults, the entries of the table
and the marks of the shorter program are the front of those of the longer one.

The code needs an argument of its own.  It is made with the table that the check of the whole program
leaves, which has entries that the shorter program knows nothing of.  But a handle leads to the entry
it led to before when others are put behind the table (`register?_extend`), and a register is noted
without a look at them (`declare_extend`).  Hence code that is made without a fault is made with the
longer table as well (`emitItems_extend`), and it is the front of the code of the longer program.

* `SymbolTable.extend`, `Allocation.extend`   a table and an allocation with more entries behind.
-/

namespace DeskCalc

/-! ## Checks -/

theorem entries_enterAll_prefix (t : SymbolTable) (ss : List Symbol) :
    t.entries <+: (t.enterAll ss).entries := by
  induction ss generalizing t with
  | nil => exact List.prefix_refl _
  | cons s ss ih =>
    refine List.IsPrefix.trans ?_ (ih (t.enter s).2)
    by_cases h : s.name ∈ t.names
    · have he : (t.enter s).2.entries = t.entries := by rw [SymbolTable.enter_of_mem h]
      exact ⟨[], by rw [he, List.append_nil]⟩
    · rw [SymbolTable.enter_of_not_mem h]
      exact List.prefix_append _ _

theorem length_checkItems (t : SymbolTable) (is : List Item) :
    (checkItems t is).node.length = is.length := by
  induction is generalizing t with
  | nil => rfl
  | cons i is ih => rw [checkItems_cons, List.length_cons, List.length_cons, ih]

section Check
variable (c d : Compiler) (p q : Program)

theorem log_check_append :
    (c.check p).2.log.entries <+: (d.check (p.append q)).2.log.entries := by
  show (checkItems .empty p.items).faults <+: (checkItems .empty (p.items ++ q.items)).faults
  rw [checkItems_append]
  exact List.prefix_append _ _

theorem symbols_check_append :
    (c.check p).2.symbols.entries <+: (d.check (p.append q)).2.symbols.entries := by
  show (checkItems .empty p.items).table.entries <+:
    (checkItems .empty (p.items ++ q.items)).table.entries
  rw [checkItems_append]
  dsimp only
  rw [table_checkItems _ q.items]
  exact entries_enterAll_prefix _ _

theorem items_check_append :
    (d.check (p.append q)).1.items = (c.check p).1.items ++
      (checkItems (c.check p).2.symbols q.items).node := by
  show (checkItems .empty (p.items ++ q.items)).node = _
  rw [checkItems_append]
  rfl

end Check

/-! ## Code with a longer table -/

def SymbolTable.extend (t : SymbolTable) (more : List Symbol) : SymbolTable := ⟨t.entries ++ more⟩

def Allocation.extend (a : Allocation) (more : List Symbol) : Allocation :=
  { a with table := a.table.extend more }

section Extend
variable {t : SymbolTable} {a b : Allocation} (more : List Symbol)

theorem resolve?_extend {id : Identifier} {k : Handle} (h : t.resolve? id = some k) :
    (t.extend more).resolve? id = some k := by
  have hnames : (t.extend more).names = t.names ++ more.map Symbol.name := List.map_append
  exact SymbolTable.resolve?_of_extends hnames h

theorem register?_extend {id : Identifier} {r : Char} (h : t.register? id = some r) :
    (t.extend more).register? id = some r := by
  obtain ⟨k, hk, hr⟩ := Option.bind_eq_some_iff.mp h
  have hlt : k < t.entries.length := SymbolTable.lt_size_of_resolve? hk
  have hentry : SymbolTable.entry? (t.extend more) k = t.entry? k := List.getElem?_append_left hlt
  rw [SymbolTable.register?, resolve?_extend more hk, Option.bind_some, hentry]
  exact hr

theorem setRegister_extend {k : Handle} (h : k < t.size) (r : Option Char) :
    (t.extend more).setRegister k r = (t.setRegister k r).extend more := by
  refine congrArg SymbolTable.mk (List.ext_getElem? fun j => ?_)
  show ((t.entries ++ more).modify k _)[j]? = (t.entries.modify k _ ++ more)[j]?
  rw [List.getElem?_modify]
  by_cases hj : j < t.entries.length
  · have hj' : j < (t.entries.modify k fun s => { s with register := r }).length := by
      rwa [List.length_modify]
    rw [List.getElem?_append_left hj, List.getElem?_append_left hj', List.getElem?_modify]
  · have hk : k ≠ j := fun e => hj (e ▸ h)
    have hle : t.entries.length ≤ j := Nat.le_of_not_lt hj
    rw [List.getElem?_append_right hle, List.getElem?_append_right (by rwa [List.length_modify]),
      List.length_modify]
    simp [hk]

theorem emitWith_extend {id : Identifier} {code : Char → List Instruction}
    (h : (emitWith t id code).fault = none) :
    emitWith (t.extend more) id code = emitWith t id code := by
  unfold emitWith at h ⊢
  cases hr : t.register? id with
  | none =>
    rw [hr] at h
    cases h
  | some r => rw [register?_extend more hr]

theorem emit_extend_expr {e : Expr} (h : (e.emit t).fault = none) :
    e.emit (t.extend more) = e.emit t := by
  induction e with
  | const value declared type p => rfl
  | deref id type p => exact emitWith_extend more h
  | binary op left right type p ihl ihr =>
    obtain ⟨hlr, -, -⟩ := Emitted.andThen_inv h
    obtain ⟨hl, hr, -⟩ := Emitted.andThen_inv hlr
    rw [Expr.emit, Expr.emit, ihl hl, ihr hr]
  | convert inner type p ih =>
    obtain ⟨hi, -, -⟩ := Emitted.andThen_inv h
    rw [Expr.emit, Expr.emit, ih hi]

theorem declare_extend {id : Identifier} (h : a.declare id = .ok b) :
    (a.extend more).declare id = .ok (b.extend more) := by
  unfold Allocation.declare at h ⊢
  cases hk : a.table.resolve? id with
  | none =>
    rw [hk] at h
    cases h
  | some k =>
    have hk' : (a.extend more).table.resolve? id = some k := resolve?_extend more hk
    have hfree : (a.extend more).free = a.free := rfl
    rw [hk', hfree]
    cases hf : a.free with
    | nil =>
      rw [hk, hf] at h
      cases h
    | cons r free =>
      rw [hk, hf] at h
      obtain rfl := Except.ok.inj h
      have htable := setRegister_extend more (SymbolTable.lt_size_of_resolve? hk) (some r)
      exact congrArg (fun t => Except.ok (Allocation.mk t free)) htable

theorem emit_extend_item {i : Item} (h : (i.emit a).1.fault = none) :
    i.emit (a.extend more) = ((i.emit a).1, (i.emit a).2.extend more) := by
  cases i with
  | declare declared id type p =>
    obtain ⟨b, hb, hemit⟩ := Item.emit_declare_inv h
    rw [hemit, Item.emit, declare_extend more hb]
  | assign target value type p =>
    obtain ⟨hv, ht, -⟩ := Emitted.andThen_inv h
    have hvalue : value.emit (a.extend more).table = value.emit a.table := emit_extend_expr more hv
    have htarget : emitWith (a.extend more).table target _ = _ := emitWith_extend more ht
    rw [Item.emit, hvalue, htarget]
    rfl
  | print id type p =>
    have hid : emitWith (a.extend more).table id _ = _ := emitWith_extend more h
    rw [Item.emit, hid]
    rfl

/-- **Entries behind the table do no harm.**  Code that is made without a fault is the same with a
longer table. -/
theorem emitItems_extend {is : List Item} (h : (emitItems a is).1.fault = none) :
    emitItems (a.extend more) is = ((emitItems a is).1, (emitItems a is).2.extend more) := by
  induction is generalizing a with
  | nil => rfl
  | cons i is ih =>
    obtain ⟨hi, his⟩ := emitItems_cons_inv h
    have hitem := emit_extend_item more hi
    have hi' : (i.emit (a.extend more)).1.fault = none := by rw [hitem]; exact hi
    rw [emitItems_cons_of_none hi, emitItems_cons_of_none hi', hitem, ih his]

end Extend

/-! ## Compilations -/

section Compile
variable {c d : Compiler} {p q : Program}

theorem faultless_of_append (h : (d.check (p.append q)).2.log.entries = []) :
    (c.check p).2.log.entries = [] := by
  have hprefix := log_check_append c d p q
  rw [h] at hprefix
  exact List.prefix_nil.mp hprefix

theorem symbols_append_of_faultless (h : (d.check (p.append q)).2.log.entries = []) :
    (d.check (p.append q)).2.symbols = (c.check p).2.symbols.extend (declarations q.items) := by
  rw [symbols_check_of_faultless h, symbols_check_of_faultless (faultless_of_append (c := c) h)]
  show SymbolTable.mk (declarations (p.items ++ q.items)) = _
  rw [declarations_append]
  rfl

theorem instructions_append {text text' : String} (h : (d.compile (p.append q)).1 = .ok text)
    (h' : (c.compile p).1 = .ok text') :
    (c.compile p).2.2.instructions <+: (d.compile (p.append q)).2.2.instructions := by
  obtain ⟨hlog, hwhole, -, hcode, -⟩ := Compiler.compile_inv (Prod.ext h rfl)
  obtain ⟨-, hfront, hfault, hcode', -⟩ := Compiler.compile_inv (Prod.ext h' rfl)
  have hextend := emitItems_extend (declarations q.items) hfault
  rw [hcode, hcode', hwhole, items_check_append c d, symbols_append_of_faultless (c := c) hlog,
    ← hfront]
  change emitItems { table := (c.check p).2.symbols.extend (declarations q.items) } _ = _ at hextend
  have hfault' : (emitItems { table := (c.check p).2.symbols.extend (declarations q.items) }
      (c.compile p).2.1.items).1.fault = none := by
    rw [hextend]
    exact hfault
  rw [emitItems_append_of_none hfault', Emitted.andThen_of_none hfault', hextend]
  exact List.prefix_append _ _

theorem entries_allocated_append (ds more : List Symbol) :
    (allocated ds ds.length).table.entries <+:
      (allocated (ds ++ more) (ds ++ more).length).table.entries := by
  show ds.mapIdx _ <+: (ds ++ more).mapIdx _
  rw [List.mapIdx_append]
  have hfront : (ds.mapIdx fun k s =>
        if k < ds.length then { s with register := registers.toList[k]? } else s) =
      ds.mapIdx fun k s =>
        if k < (ds ++ more).length then { s with register := registers.toList[k]? } else s := by
    refine List.mapIdx_eq_mapIdx_iff.mpr fun k hk => ?_
    have hk' : k < (ds ++ more).length := by
      rw [List.length_append]
      omega
    rw [if_pos hk, if_pos hk']
  rw [hfront]
  exact List.prefix_append _ _

/-- **What stands in front stays.**  More items behind a program leave the faults, the table and the
marked items of its check in front of those of the longer program.  If there is code for the longer
program there is code for the shorter one, in front of the other, and the variables of the shorter
one have the same registers. -/
theorem compile_append (c d : Compiler) (p q : Program) :
    (c.check p).2.log.entries <+: (d.check (p.append q)).2.log.entries ∧
    (c.check p).2.symbols.entries <+: (d.check (p.append q)).2.symbols.entries ∧
    (d.check (p.append q)).1.items.take p.items.length = (c.check p).1.items ∧
    ∀ text, (d.compile (p.append q)).1 = .ok text →
      (∃ text', (c.compile p).1 = .ok text') ∧
      (c.compile p).2.2.instructions <+: (d.compile (p.append q)).2.2.instructions ∧
      (c.compile p).2.2.symbols.entries <+: (d.compile (p.append q)).2.2.symbols.entries := by
  refine ⟨log_check_append c d p q, symbols_check_append c d p q, ?_, ?_⟩
  · have hlen : (c.check p).1.items.length = p.items.length := length_checkItems .empty p.items
    rw [items_check_append c d, ← hlen, List.take_left]
  · intro text h
    rcases compile_cases d (p.append q) with ⟨-, hbad⟩ | ⟨-, _, hbad⟩ | ⟨hlog, hlen, -⟩
    · rw [hbad] at h
      cases h
    · rw [hbad] at h
      cases h
    · have hlog' : (c.check p).2.log.entries = [] := faultless_of_append hlog
      have happ : declaredIdentifiers (p.append q).items =
          declaredIdentifiers p.items ++ declaredIdentifiers q.items := List.filterMap_append
      have hlen' : (declaredIdentifiers p.items).length ≤ 26 := by
        rw [happ, List.length_append] at hlen
        omega
      obtain ⟨⟨text', h'⟩, hsymbols'⟩ := compile_of_enough hlog' hlen'
      have hds : declarations (p.append q).items = declarations p.items ++ declarations q.items :=
        declarations_append p.items q.items
      refine ⟨⟨text', h'⟩, instructions_append h h', ?_⟩
      rw [hsymbols', (compile_of_enough hlog hlen).2, hds]
      exact entries_allocated_append _ _

end Compile

/-- `int c; print b;` behind another program -/
def sequel : Program where
  items :=
    [.declare .int { name := "c", pos := ⟨2, 5⟩ } none ⟨2, 1⟩,
      .print { name := "b", pos := ⟨2, 14⟩ } none ⟨2, 8⟩]

/-- A declaration and an output behind a program leave its code and its registers as they are. -/
theorem compile_append_sequel :
    (Compiler.compile {} (stale.append sequel)).1 = .ok "lb 5 k 2 5 k / sa 0 k la p P" ∧
      (Compiler.check {} stale).1.items =
        (Compiler.check {} (stale.append sequel)).1.items.take 3 ∧
      (Compiler.compile {} stale).2.2.instructions <+:
        (Compiler.compile {} (stale.append sequel)).2.2.instructions ∧
      (Compiler.compile {} stale).2.2.symbols.entries <+:
        (Compiler.compile {} (stale.append sequel)).2.2.symbols.entries := by
  have hcode : (Compiler.compile {} (stale.append sequel)).1 = .ok "lb 5 k 2 5 k / sa 0 k la p P" := by
    decide +kernel
  obtain ⟨-, -, hitems, hcompile⟩ := compile_append {} {} stale sequel
  obtain ⟨-, hinstructions, hregisters⟩ := hcompile _ hcode
  exact ⟨hcode, hitems.symm, hinstructions, hregisters⟩

end DeskCalc
