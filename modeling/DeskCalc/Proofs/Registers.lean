import DeskCalc.Compiler
import DeskCalc.Proofs.Declarations

/-!
# Registers

Code that was made without a fault has found a register for every name it uses.  These are the
facts about such code: what each step has found (`emitWith_inv`, `Allocation.declare_inv`), that
the code of a row is the code of its front and behind it the code of its back
(`emitItems_append_of_none`), and what an allocation keeps (`Allocation.Sound`): no register is at the
same time free and given away, and none is given away to two names.
-/

namespace DeskCalc

/-! ## Code without a fault -/

theorem Emitted.andThen_inv {a b : Emitted} (h : (a.andThen b).fault = none) :
    a.fault = none ∧ b.fault = none ∧ (a.andThen b).code = a.code ++ b.code := by
  cases ha : a.fault with
  | some f =>
    rw [andThen_of_fault ha, ha] at h
    cases h
  | none =>
    rw [andThen_of_none ha] at h ⊢
    exact ⟨rfl, h, rfl⟩

theorem SymbolTable.name?_of_resolve? {t : SymbolTable} {id : Identifier} {k : Handle}
    (h : t.resolve? id = some k) : t.name? k = some id.name :=
  beq_iff_eq.mp (Option.filter_eq_some_iff.mp h).2

theorem SymbolTable.registerOf?_of_register? {t : SymbolTable} (hn : t.names.Nodup)
    {id : Identifier} {r : Char} (h : t.register? id = some r) :
    t.registerOf? id.name = some r := by
  obtain ⟨k, hk, hr⟩ := Option.bind_eq_some_iff.mp h
  obtain ⟨s, hs, hr⟩ := Option.bind_eq_some_iff.mp hr
  have hname := name?_of_resolve? hk
  have e : s.name = id.name := by
    rw [name?, hs] at hname
    exact Option.some.inj hname
  rw [← e, registerOf?_of_entry? hn hs, hr]

/-- Code that needs a register has it from the identifier's name. -/
theorem emitWith_inv {t : SymbolTable} (hn : t.names.Nodup) {id : Identifier}
    {code : Char → List Instruction} (h : (emitWith t id code).fault = none) :
    ∃ r, t.registerOf? id.name = some r ∧ (emitWith t id code).code = code r := by
  unfold emitWith at h ⊢
  cases e : t.register? id with
  | none =>
    rw [e] at h
    cases h
  | some r => exact ⟨r, SymbolTable.registerOf?_of_register? hn e, rfl⟩

/-- A declaration takes the first free register for its name. -/
theorem Allocation.declare_inv {a b : Allocation} {id : Identifier} (h : a.declare id = .ok b) :
    ∃ k r, a.table.name? k = some id.name ∧ a.free = r :: b.free ∧
      b.table = a.table.setRegister k (some r) := by
  unfold declare at h
  cases hr : a.table.resolve? id with
  | none =>
    rw [hr] at h
    cases h
  | some k =>
    cases hf : a.free with
    | nil =>
      rw [hr, hf] at h
      cases h
    | cons r free =>
      rw [hr, hf] at h
      obtain rfl := Except.ok.inj h
      exact ⟨k, r, SymbolTable.name?_of_resolve? hr, rfl, rfl⟩

theorem Item.emit_declare_inv {a : Allocation} {declared : NumType} {id : Identifier}
    {type : Option CheckedType} {p : Position}
    (h : (Item.emit a (.declare declared id type p)).1.fault = none) :
    ∃ b, a.declare id = .ok b ∧ Item.emit a (.declare declared id type p) = ({}, b) := by
  unfold Item.emit at h ⊢
  dsimp only at h ⊢
  cases e : a.declare id with
  | error f =>
    rw [e] at h
    cases h
  | ok b => exact ⟨b, rfl, rfl⟩

theorem emitItems_cons_of_none {a : Allocation} {i : Item} (h : (i.emit a).1.fault = none)
    (is : List Item) :
    emitItems a (i :: is) =
      ((i.emit a).1.andThen (emitItems (i.emit a).2 is).1, (emitItems (i.emit a).2 is).2) := by
  rw [emitItems]
  dsimp only
  rw [h]

theorem emitItems_cons_of_fault {a : Allocation} {i : Item} {f : CodeFault}
    (h : (i.emit a).1.fault = some f) (is : List Item) : emitItems a (i :: is) = i.emit a := by
  rw [emitItems]
  dsimp only
  rw [h]

theorem emitItems_cons_inv {a : Allocation} {i : Item} {is : List Item}
    (h : (emitItems a (i :: is)).1.fault = none) :
    (i.emit a).1.fault = none ∧ (emitItems (i.emit a).2 is).1.fault = none := by
  cases hi : (i.emit a).1.fault with
  | some f =>
    rw [emitItems_cons_of_fault hi] at h
    exact absurd (hi.symm.trans h) (Option.some_ne_none f)
  | none =>
    rw [emitItems_cons_of_none hi] at h
    exact ⟨rfl, (Emitted.andThen_inv h).2.1⟩

theorem emitItems_append_of_none {a : Allocation} {is : List Item}
    (h : (emitItems a is).1.fault = none) (js : List Item) :
    emitItems a (is ++ js) =
      ((emitItems a is).1.andThen (emitItems (emitItems a is).2 js).1,
        (emitItems (emitItems a is).2 js).2) := by
  induction is generalizing a with
  | nil =>
    rw [List.nil_append]
    rfl
  | cons i is ih =>
    obtain ⟨hi, his⟩ := emitItems_cons_inv h
    rw [List.cons_append, emitItems_cons_of_none hi, emitItems_cons_of_none hi, ih his,
      Emitted.andThen_assoc]

theorem fault_of_append {a : Allocation} {is js : List Item}
    (h : (emitItems a (is ++ js)).1.fault = none) : (emitItems a is).1.fault = none := by
  induction is generalizing a with
  | nil => rfl
  | cons i is ih =>
    obtain ⟨hi, hrest⟩ := emitItems_cons_inv h
    have his := ih hrest
    rw [emitItems_cons_of_none hi, Emitted.andThen_of_none hi]
    exact his

theorem emitItems_split {a : Allocation} {is js : List Item} {i : Item}
    (h : (emitItems a (is ++ i :: js)).1.fault = none) :
    (emitItems a is).1.fault = none ∧ (i.emit (emitItems a is).2).1.fault = none ∧
      ∃ rest, (emitItems a (is ++ i :: js)).1.code =
        (emitItems a is).1.code ++ ((i.emit (emitItems a is).2).1.code ++ rest) := by
  have his := fault_of_append h
  rw [emitItems_append_of_none his] at h ⊢
  have hback := (Emitted.andThen_inv h).2.1
  obtain ⟨hi, -⟩ := emitItems_cons_inv hback
  refine ⟨his, hi, ?_⟩
  rw [Emitted.andThen_of_none his, emitItems_cons_of_none hi, Emitted.andThen_of_none hi]
  exact ⟨_, rfl⟩

/-! ## What an allocation keeps -/

/-- no name is entered twice, and no register is free twice, or free and given away, or given away
to two names -/
structure Allocation.Sound (a : Allocation) : Prop where
  names : a.table.names.Nodup
  free : a.free.Nodup
  taken : ∀ n r, a.table.registerOf? n = some r → r ∉ a.free
  apart : ∀ n n' r, a.table.registerOf? n = some r → a.table.registerOf? n' = some r → n = n'

theorem Allocation.sound_of_fresh {t : SymbolTable} (hn : t.names.Nodup)
    (hr : ∀ n, t.registerOf? n = none) : Allocation.Sound { table := t } where
  names := hn
  free := show registers.toList.Nodup by decide
  taken n r h := absurd ((hr n).symm.trans h) (Option.some_ne_none r).symm
  apart n n' r h := absurd ((hr n).symm.trans h) (Option.some_ne_none r).symm

theorem Allocation.Sound.declare {a b : Allocation} (ha : a.Sound) {id : Identifier}
    (h : a.declare id = .ok b) :
    b.Sound ∧ ∃ r, a.free = r :: b.free ∧
      ∀ n, b.table.registerOf? n = if id.name = n then some r else a.table.registerOf? n := by
  obtain ⟨k, r, hk, hfree, htable⟩ := declare_inv h
  have hof : ∀ n, b.table.registerOf? n =
      if id.name = n then some r else a.table.registerOf? n := by
    intro n
    rw [htable, SymbolTable.registerOf?_setRegister ha.names hk]
  have hnodup := ha.free
  rw [hfree, List.nodup_cons] at hnodup
  have hother : ∀ n, id.name ≠ n → a.table.registerOf? n ≠ some r := fun n _ e =>
    ha.taken n r e (hfree ▸ List.mem_cons_self)
  refine ⟨⟨?_, hnodup.2, ?_, ?_⟩, r, hfree, hof⟩
  · rw [htable, SymbolTable.names_setRegister]
    exact ha.names
  · intro n r' hr hmem
    rw [hof] at hr
    by_cases e : id.name = n
    · rw [if_pos e] at hr
      exact hnodup.1 (Option.some.inj hr ▸ hmem)
    · rw [if_neg e] at hr
      exact ha.taken n r' hr (hfree ▸ List.mem_cons_of_mem r hmem)
  · intro n n' r' hr hr'
    rw [hof] at hr hr'
    by_cases e : id.name = n <;> by_cases e' : id.name = n'
    · exact e.symm.trans e'
    · rw [if_pos e] at hr
      rw [if_neg e', ← Option.some.inj hr] at hr'
      exact absurd hr' (hother n' e')
    · rw [if_pos e'] at hr'
      rw [if_neg e, ← Option.some.inj hr'] at hr
      exact absurd hr (hother n e)
    · rw [if_neg e] at hr
      rw [if_neg e'] at hr'
      exact ha.apart n n' r' hr hr'

/-- An item keeps an allocation sound, and the register of every name it does not declare. -/
theorem Allocation.Sound.emit {a : Allocation} (ha : a.Sound) {i : Item}
    (h : (i.emit a).1.fault = none) :
    (i.emit a).2.Sound ∧ ∀ n, n ∉ i.entry?.toList.map Symbol.name →
      (i.emit a).2.table.registerOf? n = a.table.registerOf? n := by
  cases i with
  | declare declared id t p =>
    obtain ⟨b, hb, hemit⟩ := Item.emit_declare_inv h
    obtain ⟨hs, r, _, hof⟩ := ha.declare hb
    rw [hemit]
    refine ⟨hs, fun n hn => ?_⟩
    rw [hof, if_neg fun e => hn (List.mem_singleton.mpr e.symm)]
  | assign target value t p => exact ⟨ha, fun _ _ => rfl⟩
  | print id t p => exact ⟨ha, fun _ _ => rfl⟩

theorem Allocation.Sound.items {a : Allocation} (ha : a.Sound) {is : List Item}
    (h : (emitItems a is).1.fault = none) : (emitItems a is).2.Sound := by
  induction is generalizing a with
  | nil => exact ha
  | cons i is ih =>
    obtain ⟨hi, his⟩ := emitItems_cons_inv h
    rw [emitItems_cons_of_none hi]
    exact ih (ha.emit hi).1 his

/-! ## Compilations -/

namespace Compiler
variable {c d : Compiler} {p q : Program} {text : String}

theorem type_check_of_faults (h : (c.check p).2.log.entries ≠ []) :
    (c.check p).1.type = some .error := by
  have he : ¬ ((c.check p).2.log.isEmpty = true) := fun e => h ((FaultLog.isEmpty_iff _).mp e)
  show some (if (c.check p).2.log.isEmpty = true then CheckedType.void else .error) = _
  rw [if_neg he]

theorem type_check_of_faultless (h : (c.check p).2.log.entries = []) :
    (c.check p).1.type = some .void := by
  have he : (c.check p).2.log.isEmpty = true := (FaultLog.isEmpty_iff _).mpr h
  show some (if (c.check p).2.log.isEmpty = true then CheckedType.void else .error) = _
  rw [if_pos he]

/-- what a compiler keeps of an attempt to make code -/
def keep (c : Compiler) (r : Emitted × Allocation) : Compiler :=
  { c with symbols := r.2.table, instructions := r.1.code }

theorem generate_of_void (h : p.type = some .void) :
    c.generate p =
      (match (emitItems { table := c.symbols } p.items).1.fault with
        | none => .ok (codeText (emitItems { table := c.symbols } p.items).1.code)
        | some f => .error f,
      c.keep (emitItems { table := c.symbols } p.items)) := by
  unfold generate
  rw [if_pos h]
  dsimp only
  cases (emitItems { table := c.symbols } p.items).1.fault with
  | none => rfl
  | some f => rfl

theorem generate_inv (h : c.generate p = (.ok text, d)) :
    p.type = some .void ∧ (emitItems { table := c.symbols } p.items).1.fault = none ∧
      d = c.keep (emitItems { table := c.symbols } p.items) ∧ text = codeText d.instructions := by
  by_cases hv : p.type = some .void
  · rw [generate_of_void hv] at h
    obtain ⟨ht, rfl⟩ := Prod.mk.inj h
    cases hf : (emitItems { table := c.symbols } p.items).1.fault with
    | some f =>
      rw [hf] at ht
      cases ht
    | none =>
      rw [hf] at ht
      exact ⟨hv, rfl, rfl, (Except.ok.inj ht).symm⟩
  · rw [generate, if_neg hv] at h
    cases congrArg Prod.fst h

theorem compile_of_faults (h : (c.check p).2.log.entries ≠ []) :
    c.compile p = (.error (.semantic (c.check p).2.log), c.check p) := by
  unfold compile
  dsimp only
  rw [if_pos (type_check_of_faults h)]

theorem compile_of_faultless (h : (c.check p).2.log.entries = []) :
    c.compile p =
      (((c.check p).2.generate (c.check p).1).1.mapError .code, (c.check p).1,
        ((c.check p).2.generate (c.check p).1).2) := by
  unfold compile
  dsimp only
  rw [if_neg]
  rw [type_check_of_faultless h]
  simp

/-- A compilation that ends in code has found no fault, neither in the check nor on the way to the
code, and what it returns is the code it keeps. -/
theorem compile_inv (h : c.compile p = (.ok text, q, d)) :
    (checkItems .empty p.items).faults = [] ∧ q = (c.check p).1 ∧
      (emitItems { table := (c.check p).2.symbols } q.items).1.fault = none ∧
      d.instructions = (emitItems { table := (c.check p).2.symbols } q.items).1.code ∧
      text = codeText d.instructions := by
  by_cases hlog : (c.check p).2.log.entries = []
  · rw [compile_of_faultless hlog] at h
    obtain ⟨ht, hqd⟩ := Prod.mk.inj h
    obtain ⟨rfl, rfl⟩ := Prod.mk.inj hqd
    have hg : (c.check p).2.generate (c.check p).1 =
        (.ok text, ((c.check p).2.generate (c.check p).1).2) := by
      cases e : ((c.check p).2.generate (c.check p).1).1 with
      | error f =>
        rw [e] at ht
        cases ht
      | ok text' =>
        rw [e] at ht
        rw [← Except.ok.inj ht, ← e]
    obtain ⟨-, hf, hd, htext⟩ := generate_inv hg
    exact ⟨hlog, rfl, hf, congrArg instructions hd, htext⟩
  · rw [compile_of_faults hlog] at h
    cases congrArg Prod.fst h

end Compiler
end DeskCalc
