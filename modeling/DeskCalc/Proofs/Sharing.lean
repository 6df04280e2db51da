import DeskCalc.Proofs.Outcome
import Mathlib.Data.Prod.Basic

/-!
# Who has which register

Registers are noted in the symbol table and stay there from one attempt at code to the next, while
every attempt gives them away anew from the first letter on.  The only guard is the verdict that a
program carries, and an edit of the items leaves the verdict alone.  So a compiler can be asked for
code of a program that was never checked as it stands, in any state that calls can bring about
(`Compiler.after`).

What the code does then can be told from the items and the table before the attempt.  A use of a name
(`Reference`) counts the declarations of the attempt before it, and its register is

* the letter with the number of the latest declaration of that name among them;
* if there is none, the register that the table still holds for the name.

The first kind is never shared by two names (`name_eq_of_register?`).  The second comes from an older
count and may be anything, and a name that is declared again between two uses changes its register.  A
program in which neither occurs (`Program.DeclaresFirst`) has one register for each variable; every
program that passes a check is such a program (`declaresFirst_check`).

* `Compiler.perform`, `Compiler.after`      one call, and the state behind a row of calls; no name is
                                            ever entered twice (`nodup_after`);
* `accesses`                                the registers that code works on, in its order;
* `place?`, `references`                    the uses in a row of items, with their declarations;
* `Allocation.Numbered`                     what the allocation is on the way (`accesses_emitItems`).
-/

namespace DeskCalc

/-! ## Calls -/

inductive Call
  | fresh
  | reset
  | check (p : Program)
  | generate (p : Program)
  | compile (p : Program)

namespace Compiler

def perform (c : Compiler) : Call → Compiler
  | .fresh => {}
  | .reset => c.reset
  | .check p => (c.check p).2
  | .generate p => (c.generate p).2
  | .compile p => (c.compile p).2.2

def after (calls : List Call) : Compiler := calls.foldl perform {}

end Compiler

theorem names_emit (a : Allocation) (i : Item) : (i.emit a).2.table.names = a.table.names := by
  cases i with
  | assign target value type p => rfl
  | print id type p => rfl
  | declare declared id type p =>
    unfold Item.emit
    dsimp only
    cases h : a.declare id with
    | error f => rfl
    | ok b =>
      obtain ⟨k, r, -, -, htable⟩ := Allocation.declare_inv h
      show b.table.names = _
      rw [htable, SymbolTable.names_setRegister]

theorem names_emitItems (a : Allocation) (is : List Item) :
    (emitItems a is).2.table.names = a.table.names := by
  induction is generalizing a with
  | nil => rfl
  | cons i is ih =>
    cases h : (i.emit a).1.fault with
    | some f => rw [emitItems_cons_of_fault h, names_emit]
    | none =>
      rw [emitItems_cons_of_none h]
      show (emitItems (i.emit a).2 is).2.table.names = _
      rw [ih, names_emit]

namespace Compiler

theorem nodup_check (c : Compiler) (p : Program) : (c.check p).2.symbols.names.Nodup := by
  show (checkItems .empty p.items).table.names.Nodup
  rw [table_checkItems]
  exact SymbolTable.nodup_names_enterAll SymbolTable.nodup_names_empty _

theorem nodup_generate {c : Compiler} (hc : c.symbols.names.Nodup) (p : Program) :
    (c.generate p).2.symbols.names.Nodup := by
  by_cases hv : p.type = some .void
  · rw [generate_of_void hv]
    show (emitItems { table := c.symbols } p.items).2.table.names.Nodup
    rwa [names_emitItems]
  · rwa [generate, if_neg hv]

theorem nodup_perform {c : Compiler} (hc : c.symbols.names.Nodup) (call : Call) :
    (c.perform call).symbols.names.Nodup := by
  cases call with
  | fresh => exact SymbolTable.nodup_names_empty
  | reset => exact SymbolTable.nodup_names_empty
  | check p => exact nodup_check c p
  | generate p => exact nodup_generate hc p
  | compile p =>
    show (c.compile p).2.2.symbols.names.Nodup
    by_cases hlog : (c.check p).2.log.entries = []
    · rw [compile_of_faultless hlog]
      exact nodup_generate (nodup_check c p) _
    · rw [compile_of_faults hlog]
      exact nodup_check c p

theorem nodup_after (calls : List Call) : (after calls).symbols.names.Nodup := by
  induction calls using List.reverseRecOn with
  | nil => exact SymbolTable.nodup_names_empty
  | append_singleton calls call ih =>
    rw [after, List.foldl_append]
    exact nodup_perform ih call

end Compiler

/-! ## What code does with registers -/

inductive Access
  | load
  | store
deriving DecidableEq

/-- the register that an instruction works on, and what it does with it -/
def Instruction.access? : Instruction → Option (Access × Char)
  | load r => some (.load, r)
  | store r => some (.store, r)
  | push _ | precision _ | arith _ | print | pop => none

def accesses (code : List Instruction) : List (Access × Char) := code.filterMap Instruction.access?

theorem accesses_append (code code' : List Instruction) :
    accesses (code ++ code') = accesses code ++ accesses code' := List.filterMap_append

/-- the identifiers whose registers an item works on, in the order of its code -/
def Item.touches : Item → List (Access × Identifier)
  | declare .. => []
  | assign target value _ _ => value.reads.map (Access.load, ·) ++ [(.store, target)]
  | print id _ _ => [(.load, id)]

theorem map_touches (i : Item) : i.touches.map Prod.snd = i.uses := by
  cases i with
  | declare declared id type p => rfl
  | assign target value type p =>
    rw [Item.touches, Item.uses, List.map_append, List.map_map]
    exact congrArg (· ++ [target]) (List.map_id _)
  | print id type p => rfl

def SymbolTable.served (t : SymbolTable) (x : Access × Identifier) : Access × Option Char :=
  (x.1, t.registerOf? x.2.name)

theorem accesses_emit_expr {t : SymbolTable} (hn : t.names.Nodup) {e : Expr}
    (h : (e.emit t).fault = none) :
    (accesses (e.emit t).code).map (Prod.map id some) =
      (e.reads.map (Access.load, ·)).map t.served := by
  induction e with
  | const value declared type p => rfl
  | deref id type p =>
    obtain ⟨r, hr, hcode⟩ := emitWith_inv hn h
    rw [Expr.emit, hcode]
    simp [accesses, Instruction.access?, Expr.reads, SymbolTable.served, hr]
  | binary op left right type p ihl ihr =>
    obtain ⟨hlr, -, hcode⟩ := Emitted.andThen_inv h
    obtain ⟨hl, hr, hcode'⟩ := Emitted.andThen_inv hlr
    have hop : accesses [.arith op] = [] := rfl
    rw [Expr.emit, hcode, hcode', accesses_append, accesses_append, hop, List.append_nil,
      List.map_append, ihl hl, ihr hr, Expr.reads, List.map_append, List.map_append]
  | convert inner type p ih =>
    obtain ⟨hi, -, hcode⟩ := Emitted.andThen_inv h
    rw [Expr.emit, hcode, accesses_append, List.map_append, ih hi]
    exact List.append_nil _

theorem accesses_emit {a : Allocation} (hn : a.table.names.Nodup) {i : Item}
    (h : (i.emit a).1.fault = none) :
    (accesses (i.emit a).1.code).map (Prod.map id some) = i.touches.map a.table.served := by
  cases i with
  | declare declared id type p =>
    obtain ⟨b, -, hemit⟩ := Item.emit_declare_inv h
    rw [hemit]
    rfl
  | assign target value type p =>
    obtain ⟨hv, ht, hcode⟩ := Emitted.andThen_inv h
    obtain ⟨r, hr, hcode'⟩ := emitWith_inv hn ht
    rw [Item.emit, hcode, hcode', accesses_append, List.map_append, accesses_emit_expr hn hv,
      Item.touches, List.map_append]
    simp [accesses, Instruction.access?, SymbolTable.served, hr]
  | print id type p =>
    obtain ⟨r, hr, hcode⟩ := emitWith_inv hn h
    rw [Item.emit, hcode]
    simp [accesses, Instruction.access?, Item.touches, SymbolTable.served, hr]

/-! ## Names and their declarations -/

/-- the number of the latest declaration of a name, among declarations of which the latest stands
first -/
def place? (name : String) : List String → Option Nat
  | [] => none
  | n :: older => if n = name then some older.length else place? name older

theorem place?_eq_none_iff {name : String} {seen : List String} :
    place? name seen = none ↔ name ∉ seen := by
  induction seen with
  | nil => simp [place?]
  | cons n older ih =>
    by_cases e : n = name
    · simp [place?, e]
    · simp [place?, e, ih, Ne.symm e]

theorem getElem?_of_place? {name : String} {seen : List String} {k : Nat}
    (h : place? name seen = some k) : seen.reverse[k]? = some name := by
  induction seen with
  | nil => cases h
  | cons n older ih =>
    rw [place?] at h
    rw [List.reverse_cons]
    by_cases e : n = name
    · rw [if_pos e] at h
      obtain rfl := Option.some.inj h
      rw [List.getElem?_append_right (by simp), List.length_reverse, Nat.sub_self, e]
      rfl
    · rw [if_neg e] at h
      have hk := ih h
      rwa [List.getElem?_append_left (List.getElem?_eq_some_iff.mp hk).1]

/-- a use of a variable: what is done with it, its name, and which of the declarations before it was
the latest of that name -/
structure Reference where
  access : Access
  name : String
  since : Option Nat
deriving DecidableEq

/-- the register of a reference, for the table before the first item -/
def Reference.register? (t : SymbolTable) (u : Reference) : Option Char :=
  match u.since with
  | some k => registers.toList[k]?
  | none => t.registerOf? u.name

/-- the declarations behind an item, the latest first -/
def Item.behind (seen : List String) (i : Item) : List String :=
  i.entry?.toList.map Symbol.name ++ seen

def Item.references (seen : List String) (i : Item) : List Reference :=
  i.touches.map fun x => ⟨x.1, x.2.name, place? x.2.name seen⟩

/-- the uses of variables in a row of items, in the order of the code -/
def references (seen : List String) : List Item → List Reference
  | [] => []
  | i :: is => i.references seen ++ references (i.behind seen) is

theorem reverse_behind (seen : List String) (i : Item) :
    (i.behind seen).reverse = seen.reverse ++ i.entry?.toList.map Symbol.name := by
  rw [Item.behind, List.reverse_append]
  cases i.entry? <;> rfl

theorem getElem?_of_since {seen : List String} {is : List Item} {u : Reference}
    (hu : u ∈ references seen is) {k : Nat} (hk : u.since = some k) :
    (seen.reverse ++ declaredNames is)[k]? = some u.name := by
  induction is generalizing seen with
  | nil => cases hu
  | cons i is ih =>
    rcases List.mem_append.mp hu with hu | hu
    · obtain ⟨x, -, rfl⟩ := List.mem_map.mp hu
      have hplace := getElem?_of_place? hk
      rwa [List.getElem?_append_left (List.getElem?_eq_some_iff.mp hplace).1]
    · have hrest := ih hu
      rwa [reverse_behind, List.append_assoc, ← declaredNames_cons] at hrest

/-! ## The allocation on the way -/

/-- `a` is the allocation behind the declarations `seen`, from the table `t` on -/
structure Allocation.Numbered (t : SymbolTable) (seen : List String) (a : Allocation) : Prop where
  names : a.table.names.Nodup
  free : a.free = registers.toList.drop seen.length
  registers : ∀ access n,
    a.table.registerOf? n = Reference.register? t ⟨access, n, place? n seen⟩

section Numbered
variable {t : SymbolTable} {seen : List String} {a b : Allocation}

theorem Allocation.numbered_start (hn : t.names.Nodup) : Allocation.Numbered t [] { table := t } where
  names := hn
  free := rfl
  registers _ _ := rfl

theorem Allocation.Numbered.declare (ha : a.Numbered t seen) {id : Identifier}
    (h : a.declare id = .ok b) : b.Numbered t (id.name :: seen) := by
  obtain ⟨k, r, hk, hfree, htable⟩ := declare_inv h
  rw [ha.free] at hfree
  have hletter : DeskCalc.registers.toList[seen.length]? = some r := by
    have hhead := congrArg List.head? hfree
    rwa [List.head?_drop] at hhead
  refine ⟨?_, ?_, fun access n => ?_⟩
  · rw [htable, SymbolTable.names_setRegister]
    exact ha.names
  · have htail := congrArg List.tail hfree
    rw [List.tail_drop] at htail
    exact htail.symm
  · rw [htable, SymbolTable.registerOf?_setRegister ha.names hk, place?]
    by_cases e : id.name = n
    · rw [if_pos e, if_pos e]
      exact hletter.symm
    · rw [if_neg e, if_neg e]
      exact ha.registers access n

theorem Allocation.Numbered.emit (ha : a.Numbered t seen) {i : Item}
    (h : (i.emit a).1.fault = none) : (i.emit a).2.Numbered t (i.behind seen) := by
  cases i with
  | assign target value type p => exact ha
  | print id type p => exact ha
  | declare declared id type p =>
    obtain ⟨b, hb, hemit⟩ := Item.emit_declare_inv h
    rw [hemit]
    exact ha.declare hb

/-- **The registers of a row of items** are those of its references, one by one. -/
theorem accesses_emitItems (ha : a.Numbered t seen) {is : List Item}
    (h : (emitItems a is).1.fault = none) :
    (accesses (emitItems a is).1.code).map (Prod.map id some) =
      (references seen is).map fun u => (u.access, u.register? t) := by
  induction is generalizing a seen with
  | nil => rfl
  | cons i is ih =>
    obtain ⟨hi, his⟩ := emitItems_cons_inv h
    have hitem : i.touches.map a.table.served =
        (i.references seen).map fun u => (u.access, u.register? t) := by
      rw [Item.references, List.map_map]
      apply List.map_congr_left
      intro x _
      exact congrArg (Prod.mk x.1) (ha.registers x.1 x.2.name)
    rw [emitItems_cons_of_none hi, Emitted.andThen_of_none hi]
    show (accesses (_ ++ _)).map _ = (_ ++ _ : List Reference).map _
    rw [accesses_append, List.map_append, List.map_append, accesses_emit ha.names hi, hitem,
      ih (ha.emit hi) his]

end Numbered

/-! ## Programs that declare first -/

/-- every variable is declared before its uses, and not again between them -/
def Program.DeclaresFirst (p : Program) : Prop :=
  ∀ u ∈ references [] p.items, u.since ≠ none ∧
    ∀ v ∈ references [] p.items, u.name = v.name → u.since = v.since

section Check
variable {t : SymbolTable} {seen : List String}

/-- A check without faults finds a declaration before every use. -/
theorem since_of_faultless {is : List Item} (hn : t.names.Nodup)
    (h : (checkItems t is).faults = []) (hseen : t.names = seen.reverse) :
    ∀ u ∈ references seen (checkItems t is).node, u.since ≠ none := by
  induction is generalizing t seen with
  | nil => exact fun u hu => absurd hu List.not_mem_nil
  | cons i is ih =>
    obtain ⟨hi, his⟩ := List.append_eq_nil_iff.mp h
    have hseen' : (i.check t).table.names = ((i.check t).node.behind seen).reverse := by
      rw [SymbolTable.names, entries_check hn hi, List.map_append, reverse_behind, entry?_check,
        ← hseen]
      rfl
    intro u hu
    rcases List.mem_append.mp hu with hu | hu
    · obtain ⟨x, hx, rfl⟩ := List.mem_map.mp hu
      have hmem : x.2 ∈ (i.check t).node.uses := by
        rw [← map_touches]
        exact List.mem_map_of_mem hx
      obtain ⟨k, hk⟩ := resolve?_uses hi x.2 hmem
      have hname := SymbolTable.mem_names_of_resolve? hk
      rw [hseen, List.mem_reverse] at hname
      exact fun e => place?_eq_none_iff.mp e hname
    · exact ih (nodup_names_check hn i) his hseen' u hu

theorem declaresFirst_check {c : Compiler} {p : Program} (h : (c.check p).2.log.entries = []) :
    (c.check p).1.DeclaresFirst := by
  have hn := SymbolTable.nodup_names_empty
  have hsince : ∀ u ∈ references [] (c.check p).1.items, u.since ≠ none :=
    since_of_faultless hn h rfl
  have hnodup : (declaredNames (c.check p).1.items).Nodup := by
    have hnames := nodup_of_faultless hn h
    rw [declaredNames, ← declarations_checkItems .empty p.items] at hnames
    exact hnames
  intro u hu
  refine ⟨hsince u hu, fun v hv hname => ?_⟩
  obtain ⟨k, hk⟩ := Option.ne_none_iff_exists'.mp (hsince u hu)
  obtain ⟨k', hk'⟩ := Option.ne_none_iff_exists'.mp (hsince v hv)
  have hplace := getElem?_of_since hu hk
  have hplace' := getElem?_of_since hv hk'
  rw [hname, ← hplace'] at hplace
  have hlt := (List.getElem?_eq_some_iff.mp (hplace.trans hplace')).1
  rw [hk, hk', (List.getElem?_inj hlt hnodup).mp hplace]

end Check

/-! ## Shared registers -/

section Shared
variable {t : SymbolTable} {is : List Item} {u v : Reference}

theorem since_eq_of_register? (hu : u.since ≠ none) (hv : v.since ≠ none) {r : Char}
    (hru : u.register? t = some r) (hrv : v.register? t = some r) : u.since = v.since := by
  obtain ⟨k, hk⟩ := Option.ne_none_iff_exists'.mp hu
  obtain ⟨k', hk'⟩ := Option.ne_none_iff_exists'.mp hv
  rw [Reference.register?, hk] at hru
  rw [Reference.register?, hk'] at hrv
  have hlt := (List.getElem?_eq_some_iff.mp hru).1
  rw [hk, hk', (List.getElem?_inj hlt nodup_registers).mp (hru.trans hrv.symm)]

theorem name_eq_of_register? (hu : u ∈ references [] is) (hv : v ∈ references [] is)
    (hsu : u.since ≠ none) (hsv : v.since ≠ none) {r : Char}
    (hru : u.register? t = some r) (hrv : v.register? t = some r) : u.name = v.name := by
  obtain ⟨k, hk⟩ := Option.ne_none_iff_exists'.mp hsu
  have hk' := (since_eq_of_register? hsu hsv hru hrv).symm.trans hk
  exact Option.some.inj ((getElem?_of_since hu hk).symm.trans (getElem?_of_since hv hk'))

end Shared

/-! ## Code in any state -/

theorem accesses_generate {c d : Compiler} {p : Program} {text : String}
    (hn : c.symbols.names.Nodup) (h : c.generate p = (.ok text, d)) :
    (accesses d.instructions).map (Prod.map id some) =
      (references [] p.items).map fun u => (u.access, u.register? c.symbols) := by
  obtain ⟨-, hfault, rfl, -⟩ := Compiler.generate_inv h
  exact accesses_emitItems (Allocation.numbered_start hn) hfault

/-- Accesses that agree with the references one by one come from a register for each reference. -/
theorem exists_register {t : SymbolTable} {us : List Reference} {xs : List (Access × Char)}
    (h : xs.map (Prod.map id some) = us.map fun u => (u.access, u.register? t)) :
    ∃ register : Reference → Char, xs = us.map (fun u => (u.access, register u)) ∧
      ∀ u ∈ us, u.register? t = some (register u) := by
  have hfound : ∀ u ∈ us, ∃ r, u.register? t = some r := by
    intro u hu
    have hmem : (u.access, u.register? t) ∈ xs.map (Prod.map id some) := by
      rw [h]
      exact List.mem_map_of_mem hu
    obtain ⟨x, -, hx⟩ := List.mem_map.mp hmem
    exact ⟨x.2, (congrArg Prod.snd hx).symm⟩
  have hsome : ∀ u ∈ us, u.register? t = some ((u.register? t).getD ' ') := by
    intro u hu
    obtain ⟨r, hr⟩ := hfound u hu
    rw [hr]
    rfl
  -- the blank stands for no register, and no reference comes to it
  refine ⟨fun u => (u.register? t).getD ' ', ?_, hsome⟩
  have hinj : Function.Injective (Prod.map id some : Access × Char → Access × Option Char) :=
    Function.Injective.prodMap Function.injective_id fun _ _ => Option.some.inj
  apply hinj.list_map
  rw [h, List.map_map]
  apply List.map_congr_left
  intro u hu
  exact congrArg (Prod.mk u.access) (hsome u hu)

/-- **Registers in any state.**  A program that passes a check declares first.  Behind any calls, the
code of a program, checked as it stands or not, works for each use of a name on the letter with the
number of its latest declaration, or without one on the register that the table held before.  So a
name changes its register only where it is declared again, two names that are declared before their
uses never share one, and if the program declares first, each name has one register of its own. -/
theorem registers_after (calls : List Call) :
    (∀ p, ((Compiler.after calls).check p).2.log.entries = [] →
      ((Compiler.after calls).check p).1.DeclaresFirst) ∧
    ∀ p text d, (Compiler.after calls).generate p = (.ok text, d) →
      ∃ register : Reference → Char,
        accesses d.instructions =
          (references [] p.items).map (fun u => (u.access, register u)) ∧
        (∀ u ∈ references [] p.items,
          u.register? (Compiler.after calls).symbols = some (register u)) ∧
        (∀ u ∈ references [] p.items, ∀ v ∈ references [] p.items,
          u.name = v.name → u.since = v.since → register u = register v) ∧
        (∀ u ∈ references [] p.items, ∀ v ∈ references [] p.items,
          u.since ≠ none → v.since ≠ none → register u = register v → u.name = v.name) ∧
        (p.DeclaresFirst → ∀ u ∈ references [] p.items, ∀ v ∈ references [] p.items,
          (register u = register v ↔ u.name = v.name)) := by
  refine ⟨fun p hp => declaresFirst_check hp, fun p text d h => ?_⟩
  obtain ⟨register, hcode, hregister⟩ :=
    exists_register (accesses_generate (Compiler.nodup_after calls) h)
  have hsame : ∀ u ∈ references [] p.items, ∀ v ∈ references [] p.items,
      u.name = v.name → u.since = v.since → register u = register v := by
    intro u hu v hv hname hsince
    have hr : u.register? (Compiler.after calls).symbols =
        v.register? (Compiler.after calls).symbols := by
      rw [Reference.register?, hname, hsince]
      rfl
    rw [hregister u hu, hregister v hv] at hr
    exact Option.some.inj hr
  have hapart : ∀ u ∈ references [] p.items, ∀ v ∈ references [] p.items,
      u.since ≠ none → v.since ≠ none → register u = register v → u.name = v.name := by
    intro u hu v hv hsu hsv hr
    exact name_eq_of_register? hu hv hsu hsv (hregister u hu) (hr ▸ hregister v hv)
  refine ⟨register, hcode, hregister, hsame, hapart, fun hfirst u hu v hv => ⟨?_, ?_⟩⟩
  · exact hapart u hu v hv (hfirst u hu).1 (hfirst v hv).1
  · intro hname
    exact hsame u hu v hv hname ((hfirst u hu).2 v hv hname)

/-- `int a; a = 1; print a;` -/
def single : Program where
  items :=
    [.declare .int { name := "a", pos := ⟨1, 5⟩ } none ⟨1, 1⟩,
      .assign { name := "a", pos := ⟨1, 8⟩ } (.literal "1" .int ⟨1, 12⟩) none ⟨1, 8⟩,
      .print { name := "a", pos := ⟨1, 21⟩ } none ⟨1, 15⟩]

/-- `int a; int b; a = 1; b = 2; print a; print b;` -/
def couple : Program where
  items :=
    [.declare .int { name := "a", pos := ⟨1, 5⟩ } none ⟨1, 1⟩,
      .declare .int { name := "b", pos := ⟨1, 12⟩ } none ⟨1, 8⟩,
      .assign { name := "a", pos := ⟨1, 15⟩ } (.literal "1" .int ⟨1, 19⟩) none ⟨1, 15⟩,
      .assign { name := "b", pos := ⟨1, 22⟩ } (.literal "2" .int ⟨1, 26⟩) none ⟨1, 22⟩,
      .print { name := "a", pos := ⟨1, 35⟩ } none ⟨1, 29⟩,
      .print { name := "b", pos := ⟨1, 44⟩ } none ⟨1, 38⟩]

/-- `couple` as a compilation leaves it, without its first item -/
def uncoupled : Program := (Compiler.compile {} couple).2.1.remove 0

/-- A checked program behind itself has two registers for one name; a compiled program without its
first declaration has one register for two names. -/
theorem single_twice_uncoupled :
    ((Compiler.after [.check single]).generate
        ((Compiler.check {} single).1.append (Compiler.check {} single).1)).1 =
      .ok "1 sa 0 k la p P 1 sb 0 k lb p P" ∧
    (references [] ((Compiler.check {} single).1.append (Compiler.check {} single).1).items).map
        Reference.name = ["a", "a", "a", "a"] ∧
    accesses ((Compiler.after [.check single]).generate
        ((Compiler.check {} single).1.append (Compiler.check {} single).1)).2.instructions =
      [(.store, 'a'), (.load, 'a'), (.store, 'b'), (.load, 'b')] ∧
    ((Compiler.after [.compile couple]).generate uncoupled).1 =
      .ok "1 sa 0 k 2 sa 0 k la p P la p P" ∧
    (references [] uncoupled.items).map Reference.name = ["a", "b", "a", "b"] ∧
    accesses ((Compiler.after [.compile couple]).generate uncoupled).2.instructions =
      [(.store, 'a'), (.store, 'a'), (.load, 'a'), (.load, 'a')] := by
  refine ⟨?_, ?_, ?_, ?_, ?_, ?_⟩ <;> decide +kernel

/-- After a mixture of the two registers, a new check gives each name its own again. -/
theorem registers_after_mixture :
    ∃ register : Reference → Char,
      (references [] (Compiler.check {} couple).1.items).map (fun u => (u.access, register u)) =
        [(.store, 'a'), (.store, 'b'), (.load, 'a'), (.load, 'b')] ∧
      ∀ u ∈ references [] (Compiler.check {} couple).1.items,
        ∀ v ∈ references [] (Compiler.check {} couple).1.items,
          (register u = register v ↔ u.name = v.name) := by
  obtain ⟨hcheck, hgenerate⟩ :=
    registers_after [.compile couple, .generate uncoupled, .check couple]
  have hfirst : (Compiler.check {} couple).1.DeclaresFirst := hcheck couple (by decide +kernel)
  have hok : ((Compiler.after [.compile couple, .generate uncoupled, .check couple]).generate
      (Compiler.check {} couple).1).1 = .ok "1 sa 0 k 2 sb 0 k la p P lb p P" := by decide +kernel
  obtain ⟨register, hcode, -, -, -, hone⟩ := hgenerate _ _ _ (Prod.ext hok rfl)
  refine ⟨register, ?_, hone hfirst⟩
  rw [← hcode]
  decide +kernel

end DeskCalc
