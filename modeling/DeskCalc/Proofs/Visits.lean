import DeskCalc.Proofs.Histories
import DeskCalc.Proofs.Sharing

/-!
# An attempt at code, step by step

An attempt at code may meet anything: the compiler's table may hold registers that were noted by
hand or by an attempt before, and the program's handles may come from another table.  One walk settles
all the same what comes of it.  A program is a row of visits (`Program.visits`): a declared name takes
the letter with its own number, a used name needs the register that its entry has at that moment, and
the other instructions need nothing.

What the table is at a visit depends on nothing but the declarations visited before
(`SymbolTable.behind`), so the faults of a visit can be told from these (`Visit.Fails`).  The first
visit that fails ends the attempt, and what it leaves is what the visits before it did.

* `Visit`, `Program.visits`      the visits of a program in the order of its code;
* `SymbolTable.behind`           the table behind a row of declarations;
* `Visit.Fails`, `Clear`         the faults of a visit, and visits that have none;
* `codeOf`                       the code of a row of visits;
* `emitVisits`                   the attempt as one walk; it is the one over the items
                                 (`emitVisits_items`);
* `emit_of_fails`, `emit_of_clear`, `emitVisits_split`   one visit, and a row of them;
* `generate_exact`               an attempt on any program, in any state.
-/

namespace DeskCalc

/-! ## Visits -/

def Access.instruction : Access → Char → Instruction
  | load => .load
  | store => .store

/-- a step on the way to code: a name that takes a register, a name whose register is used, or an
instruction without a register -/
inductive Visit
  | declare (id : Identifier)
  | access (a : Access) (id : Identifier)
  | plain (i : Instruction)
deriving DecidableEq

def Expr.visits : Expr → List Visit
  | const value _ _ _ => [.plain (.push value)]
  | deref id _ _ => [.access .load id]
  | binary op left right _ _ => left.visits ++ right.visits ++ [.plain (.arith op)]
  | convert inner _ _ => inner.visits ++ [.plain (.precision maxFractionDigits)]

/-- the visits of an item; the target of an assignment comes behind its value -/
def Item.visits : Item → List Visit
  | declare _ id _ _ => [.declare id]
  | assign target value _ _ => value.visits ++ [.access .store target, .plain (.precision 0)]
  | print id _ _ => [.access .load id, .plain .print, .plain .pop]

def Program.visits (p : Program) : List Visit := p.items.flatMap Item.visits

def Visit.declared? : Visit → Option Identifier
  | declare id => some id
  | access .. | plain _ => none

/-- the identifiers that take a register in a row of visits -/
def declaredBy (vs : List Visit) : List Identifier := vs.filterMap Visit.declared?

theorem declaredBy_cons (v : Visit) (vs : List Visit) :
    declaredBy (v :: vs) = v.declared?.toList ++ declaredBy vs := by
  rw [declaredBy, List.filterMap_cons]
  cases v.declared? <;> rfl

/-! ## The table behind some declarations -/

/-- the identifier has a handle, and the entry there has its name -/
def Identifier.LeadsTo (t : SymbolTable) (id : Identifier) (k : Handle) : Prop :=
  id.symbol = some k ∧ t.names[k]? = some id.name

namespace SymbolTable

/-- the letter with number `n` noted at the handle of an identifier -/
def note (t : SymbolTable) (id : Identifier) (n : Nat) : SymbolTable :=
  id.symbol.elim t fun k => t.setRegister k registers.toList[n]?

/-- the table once the identifiers `ds` have taken the first letters -/
def behind (t : SymbolTable) (ds : List Identifier) : SymbolTable :=
  ds.zipIdx.foldl (fun t d => t.note d.1 d.2) t

/-- what a table says of its names, registers apart -/
def signature (t : SymbolTable) : List (String × NumType) := t.entries.map fun s => (s.name, s.type)

def registerAt? (t : SymbolTable) (k : Handle) : Option Char := (t.entry? k).bind Symbol.register

variable {t : SymbolTable} {ds : List Identifier} {id : Identifier} {k : Handle}

theorem behind_snoc (t : SymbolTable) (ds : List Identifier) (id : Identifier) :
    t.behind (ds ++ [id]) = (t.behind ds).note id ds.length := by
  rw [behind, List.zipIdx_append, List.foldl_append, Nat.zero_add]
  rfl

/-- What registers at the handles of declared identifiers do not disturb holds behind them. -/
theorem behind_inv {P : SymbolTable → Prop} (h : P t)
    (hset : ∀ u k r, P u → (∃ id ∈ ds, id.symbol = some k) → P (u.setRegister k r)) :
    P (t.behind ds) := by
  induction ds using List.reverseRecOn with
  | nil => exact h
  | append_singleton ds id ih =>
    have hds : P (t.behind ds) := ih fun u k r hu ⟨id', hmem, hk⟩ =>
      hset u k r hu ⟨id', List.mem_append_left _ hmem, hk⟩
    rw [behind_snoc, note]
    cases hs : id.symbol with
    | none => exact hds
    | some k => exact hset _ _ _ hds ⟨id, List.mem_append_right _ List.mem_cons_self, hs⟩

theorem signature_setRegister (t : SymbolTable) (k : Handle) (r : Option Char) :
    (t.setRegister k r).signature = t.signature := by
  apply List.ext_getElem?
  intro j
  show ((t.entries.modify k _).map _)[j]? = (t.entries.map _)[j]?
  rw [List.getElem?_map, List.getElem?_map, List.getElem?_modify]
  cases t.entries[j]? with
  | none => rfl
  | some s => by_cases e : k = j <;> simp [e]

theorem length_signature (t : SymbolTable) : t.signature.length = t.size := List.length_map _

theorem names_eq_signature (t : SymbolTable) : t.names = t.signature.map Prod.fst := by
  rw [signature, List.map_map]
  rfl

theorem signature_behind (t : SymbolTable) (ds : List Identifier) :
    (t.behind ds).signature = t.signature :=
  behind_inv (P := fun u => u.signature = t.signature) rfl fun u k r hu _ =>
    (signature_setRegister u k r).trans hu

theorem names_behind (t : SymbolTable) (ds : List Identifier) :
    (t.behind ds).names = t.names := by
  rw [names_eq_signature, signature_behind, ← names_eq_signature]

theorem entry?_behind (h : ∀ id ∈ ds, ¬ id.LeadsTo t k) (hds : ∀ id ∈ ds, ∃ j, id.LeadsTo t j) :
    entry? (t.behind ds) k = t.entry? k := by
  refine behind_inv (P := fun u => u.entry? k = t.entry? k) rfl fun u j r hu ⟨id, hid, hj⟩ => ?_
  obtain ⟨j', hj', hname⟩ := hds id hid
  obtain rfl : j' = j := Option.some.inj (hj'.symm.trans hj)
  have hne : k ≠ j' := by
    rintro rfl
    exact h id hid ⟨hj', hname⟩
  exact ((changes_modify u j' (.register r)).kept k hne).trans hu

theorem leadsTo_iff : id.LeadsTo t k ↔ t.resolve? id = some k := resolve?_eq_some_iff.symm

theorem resolve?_behind (t : SymbolTable) (ds : List Identifier) (id : Identifier) :
    (t.behind ds).resolve? id = t.resolve? id := by
  apply Option.ext
  intro k
  rw [← leadsTo_iff, ← leadsTo_iff, Identifier.LeadsTo, names_behind]
  rfl

theorem register?_of_leadsTo (h : id.LeadsTo t k) :
    (t.behind ds).register? id = (t.behind ds).registerAt? k := by
  rw [register?, resolve?_behind, leadsTo_iff.mp h]
  rfl

theorem resolve?_of_lost (h : ∀ k, ¬ id.LeadsTo t k) : t.resolve? id = none :=
  Option.eq_none_iff_forall_ne_some.mpr fun k hk => h k (leadsTo_iff.mpr hk)

theorem register?_of_lost (h : ∀ k, ¬ id.LeadsTo t k) : (t.behind ds).register? id = none := by
  rw [register?, resolve?_behind, resolve?_of_lost h]
  rfl

end SymbolTable

/-! ## Faults and code -/

/-- a visit with a fault, where the identifiers `ds` have taken letters before it -/
inductive Visit.Fails (t : SymbolTable) (ds : List Identifier) : Visit → CodeFault → Prop
  /-- the declared name leads to no entry -/
  | lost {id : Identifier} (h : ∀ k, ¬ id.LeadsTo t k) : Fails t ds (.declare id) id.unresolved
  /-- every letter has been taken -/
  | spent {id : Identifier} {k : Handle} (h : id.LeadsTo t k) (hds : ds.length = 26) :
    Fails t ds (.declare id) (.noRegister id.name id.pos)
  /-- the used name leads to no entry -/
  | strayed {a : Access} {id : Identifier} (h : ∀ k, ¬ id.LeadsTo t k) :
    Fails t ds (.access a id) id.unresolved
  /-- the entry of the used name has no register yet -/
  | bare {a : Access} {id : Identifier} {k : Handle} (h : id.LeadsTo t k)
    (hr : (t.behind ds).registerAt? k = none) : Fails t ds (.access a id) id.unresolved

/-- no visit of the row fails, where the identifiers `ds` have taken letters before it -/
def Clear (t : SymbolTable) : List Identifier → List Visit → Prop
  | _, [] => True
  | ds, v :: vs => (∀ f, ¬ v.Fails t ds f) ∧ Clear t (ds ++ v.declared?.toList) vs

def Visit.code (t : SymbolTable) : Visit → List Instruction
  | declare _ => []
  | access a id => (t.register? id).toList.map a.instruction
  | plain i => [i]

/-- the code of a row of visits, where the identifiers `ds` have taken letters before it -/
def codeOf (t : SymbolTable) : List Identifier → List Visit → List Instruction
  | _, [] => []
  | ds, v :: vs => v.code (t.behind ds) ++ codeOf t (ds ++ v.declared?.toList) vs

/-! ## The attempt as one walk -/

/-- `r`, and then `next` on the allocation behind it, unless `r` ended in a fault -/
def followedBy (r : Emitted × Allocation) (next : Allocation → Emitted × Allocation) :
    Emitted × Allocation :=
  match r.1.fault with
  | some _ => r
  | none => (r.1.andThen (next r.2).1, (next r.2).2)

section Walk
variable {r : Emitted × Allocation} {next more : Allocation → Emitted × Allocation}

theorem followedBy_of_fault {f : CodeFault} (h : r.1.fault = some f) : followedBy r next = r := by
  rw [followedBy, h]

theorem followedBy_of_none (h : r.1.fault = none) :
    followedBy r next = (r.1.andThen (next r.2).1, (next r.2).2) := by
  rw [followedBy, h]

theorem followedBy_assoc :
    followedBy (followedBy r next) more = followedBy r fun a => followedBy (next a) more := by
  cases hr : r.1.fault with
  | some f => rw [followedBy_of_fault hr, followedBy_of_fault hr, followedBy_of_fault hr]
  | none =>
    rw [followedBy_of_none hr, followedBy_of_none hr]
    have hfault : (r.1.andThen (next r.2).1).fault = (next r.2).1.fault := by
      rw [Emitted.fault_andThen, hr, Option.none_or]
    cases hn : (next r.2).1.fault with
    | some f => rw [followedBy_of_fault (hfault.trans hn), followedBy_of_fault hn]
    | none =>
      rw [followedBy_of_none (hfault.trans hn), followedBy_of_none hn, Emitted.andThen_assoc]

end Walk

def Visit.emit (a : Allocation) : Visit → Emitted × Allocation
  | declare id =>
    match a.declare id with
    | .ok b => ({}, b)
    | .error f => ({ fault := some f }, a)
  | access x id => (emitWith a.table id fun r => [x.instruction r], a)
  | plain i => ({ code := [i] }, a)

/-- the code of a row of visits, up to the first fault -/
def emitVisits (a : Allocation) : List Visit → Emitted × Allocation
  | [] => ({}, a)
  | v :: vs => followedBy (v.emit a) fun b => emitVisits b vs

theorem emitVisits_append (a : Allocation) (vs ws : List Visit) :
    emitVisits a (vs ++ ws) = followedBy (emitVisits a vs) fun b => emitVisits b ws := by
  induction vs generalizing a with
  | nil =>
    rw [List.nil_append, emitVisits, followedBy_of_none rfl, Emitted.andThen_of_none rfl]
    rfl
  | cons v vs ih =>
    rw [List.cons_append, emitVisits, emitVisits, followedBy_assoc]
    congr 1
    funext b
    exact ih b

/-- Where visits leave the allocation alone, their codes stand one behind the other. -/
theorem emitVisits_append_still {a : Allocation} {vs ws : List Visit} {x y : Emitted}
    (hv : emitVisits a vs = (x, a)) (hw : emitVisits a ws = (y, a)) :
    emitVisits a (vs ++ ws) = (x.andThen y, a) := by
  rw [emitVisits_append, hv]
  cases hx : x.fault with
  | some f => rw [followedBy_of_fault hx, Emitted.andThen_of_fault hx]
  | none =>
    rw [followedBy_of_none hx]
    show (x.andThen (emitVisits a ws).1, (emitVisits a ws).2) = _
    rw [hw]

theorem emitVisits_singleton (a : Allocation) (v : Visit) : emitVisits a [v] = v.emit a := by
  show followedBy (v.emit a) (fun b => (({} : Emitted), b)) = v.emit a
  cases h : (v.emit a).1.fault with
  | some f => rw [followedBy_of_fault h]
  | none => rw [followedBy_of_none h, Emitted.andThen_of_none h, List.append_nil, ← h]

theorem emitVisits_plain (a : Allocation) (is : List Instruction) :
    emitVisits a (is.map .plain) = ({ code := is }, a) := by
  induction is with
  | nil => rfl
  | cons i is ih => exact emitVisits_append_still (emitVisits_singleton a (.plain i)) ih

/-- Where a used name is followed by more instructions, all of them wait for its register. -/
theorem emitVisits_access (a : Allocation) (x : Access) (id : Identifier)
    (more : List Instruction) :
    emitVisits a (.access x id :: more.map .plain) =
      (emitWith a.table id fun r => x.instruction r :: more, a) := by
  have hmore : (emitWith a.table id fun r => x.instruction r :: more) =
      (emitWith a.table id fun r => [x.instruction r]).andThen { code := more } := by
    unfold emitWith
    cases a.table.register? id <;> rfl
  rw [hmore]
  exact emitVisits_append_still (emitVisits_singleton a (.access x id)) (emitVisits_plain a more)

theorem emitVisits_expr (a : Allocation) (e : Expr) :
    emitVisits a e.visits = (e.emit a.table, a) := by
  induction e with
  | const value declared type p => exact emitVisits_plain a [.push value]
  | deref id type p => exact emitVisits_access a .load id []
  | binary op left right type p ihl ihr =>
    exact emitVisits_append_still (emitVisits_append_still ihl ihr) (emitVisits_plain a [.arith op])
  | convert inner type p ih =>
    exact emitVisits_append_still ih (emitVisits_plain a [.precision maxFractionDigits])

theorem emitVisits_item (a : Allocation) (i : Item) : emitVisits a i.visits = i.emit a := by
  cases i with
  | declare declared id type p => exact emitVisits_singleton a (.declare id)
  | assign target value type p =>
    exact emitVisits_append_still (emitVisits_expr a value)
      (emitVisits_access a .store target [.precision 0])
  | print id type p => exact emitVisits_access a .load id [.print, .pop]

/-- The walk over the visits is the one over the items. -/
theorem emitVisits_items (a : Allocation) (is : List Item) :
    emitVisits a (is.flatMap Item.visits) = emitItems a is := by
  induction is generalizing a with
  | nil => rfl
  | cons i is ih =>
    rw [List.flatMap_cons, emitVisits_append, emitVisits_item, funext ih]
    rfl

/-! ## One visit, and a row of them -/

/-- the allocation once the identifiers `ds` have taken the first letters -/
def SymbolTable.lettered (t : SymbolTable) (ds : List Identifier) : Allocation where
  table := t.behind ds
  free := registers.toList.drop ds.length

section Run
variable {t : SymbolTable} {ds : List Identifier}

theorem declare_lettered (t : SymbolTable) (ds : List Identifier) (id : Identifier) :
    (t.lettered ds).declare id =
      match t.resolve? id, registers.toList.drop ds.length with
      | none, _ => .error id.unresolved
      | some _, [] => .error (.noRegister id.name id.pos)
      | some k, r :: free => .ok ⟨(t.behind ds).setRegister k (some r), free⟩ := by
  have hk : (t.lettered ds).table.resolve? id = t.resolve? id := SymbolTable.resolve?_behind t ds id
  unfold Allocation.declare
  rw [hk]
  rfl

theorem declare_of_leadsTo {id : Identifier} {k : Handle} (h : id.LeadsTo t k)
    (hds : ds.length < 26) : (t.lettered ds).declare id = .ok (t.lettered (ds ++ [id])) := by
  have hlt : ds.length < registers.toList.length := by rwa [length_registers]
  rw [declare_lettered, SymbolTable.leadsTo_iff.mp h, List.drop_eq_getElem_cons hlt,
    SymbolTable.lettered, SymbolTable.behind_snoc, SymbolTable.note, h.1, Option.elim_some,
    List.getElem?_eq_getElem hlt, List.length_append]
  rfl

theorem emit_access_of_none {a : Allocation} (x : Access) {id : Identifier}
    (h : a.table.register? id = none) :
    (Visit.access x id).emit a = ({ fault := some id.unresolved }, a) := by
  rw [Visit.emit, emitWith, h]

theorem emit_of_fails {v : Visit} {f : CodeFault} (h : v.Fails t ds f) :
    v.emit (t.lettered ds) = ({ fault := some f }, t.lettered ds) := by
  cases h with
  | lost h =>
    rw [Visit.emit, declare_lettered, SymbolTable.resolve?_of_lost h]
  | spent h hds =>
    rw [Visit.emit, declare_lettered, SymbolTable.leadsTo_iff.mp h,
      List.drop_of_length_le (Nat.le_of_eq (length_registers.trans hds.symm))]
  | strayed h => exact emit_access_of_none _ (SymbolTable.register?_of_lost h)
  | bare h hr => exact emit_access_of_none _ ((SymbolTable.register?_of_leadsTo h).trans hr)

theorem leadsTo_of_clear {id : Identifier} (h : ∀ f, ¬ (Visit.declare id).Fails t ds f) :
    ∃ k, id.LeadsTo t k := by
  by_contra hk
  exact h _ (.lost (not_exists.mp hk))

theorem register?_of_clear {x : Access} {id : Identifier}
    (h : ∀ f, ¬ (Visit.access x id).Fails t ds f) : ∃ r, (t.behind ds).register? id = some r := by
  by_cases hk : ∃ k, id.LeadsTo t k
  · obtain ⟨k, hk⟩ := hk
    rw [SymbolTable.register?_of_leadsTo hk]
    exact Option.ne_none_iff_exists'.mp fun hr => h _ (.bare hk hr)
  · exact absurd (.strayed (not_exists.mp hk)) (h id.unresolved)

/-- A visit without a fault adds its code, and a declaration takes the next letter. -/
theorem emit_of_clear (hds : ds.length ≤ 26) {v : Visit} (h : ∀ f, ¬ v.Fails t ds f) :
    (ds ++ v.declared?.toList).length ≤ 26 ∧
      v.emit (t.lettered ds) =
        ({ code := v.code (t.behind ds) }, t.lettered (ds ++ v.declared?.toList)) := by
  cases v with
  | declare id =>
    obtain ⟨k, hk⟩ := leadsTo_of_clear h
    have hne : ds.length ≠ 26 := fun e => h _ (.spent hk e)
    refine ⟨?_, ?_⟩
    · show (ds ++ [id]).length ≤ 26
      rw [List.length_append, List.length_singleton]
      omega
    · rw [Visit.emit, declare_of_leadsTo hk (Nat.lt_of_le_of_ne hds hne)]
      rfl
  | access x id =>
    obtain ⟨r, hr⟩ := register?_of_clear h
    have hr' : (t.lettered ds).table.register? id = some r := hr
    rw [Visit.declared?, Option.toList_none, List.append_nil, Visit.emit, emitWith, hr', Visit.code,
      hr]
    exact ⟨hds, rfl⟩
  | plain i =>
    rw [Visit.declared?, Option.toList_none, List.append_nil]
    exact ⟨hds, rfl⟩

/-- the visits behind those that are clear, and the fault of the first of them -/
inductive EndsAt (t : SymbolTable) (ds : List Identifier) : List Visit → Option CodeFault → Prop
  | all : EndsAt t ds [] none
  | fault {v : Visit} {f : CodeFault} (h : v.Fails t ds f) (later : List Visit) :
    EndsAt t ds (v :: later) (some f)

/-- **An attempt ends at the first visit that fails**, and leaves what the visits before it did. -/
theorem emitVisits_split (t : SymbolTable) (hds : ds.length ≤ 26) (vs : List Visit) :
    ∃ done rest fault, vs = done ++ rest ∧ Clear t ds done ∧
      EndsAt t (ds ++ declaredBy done) rest fault ∧
      emitVisits (t.lettered ds) vs =
        (⟨codeOf t ds done, fault⟩, t.lettered (ds ++ declaredBy done)) := by
  -- `ds` grows on the way, but never beyond the letters: the 27th declaration fails
  induction vs generalizing ds with
  | nil =>
    refine ⟨[], [], none, rfl, trivial, .all, ?_⟩
    rw [declaredBy, List.filterMap_nil, List.append_nil]
    rfl
  | cons v vs ih =>
    by_cases hv : ∃ f, v.Fails t ds f
    · obtain ⟨f, hf⟩ := hv
      have hemit := emit_of_fails hf
      have hfault : (v.emit (t.lettered ds)).1.fault = some f := by rw [hemit]
      have hnone : ds ++ declaredBy [] = ds := List.append_nil ds
      refine ⟨[], v :: vs, some f, rfl, trivial, ?_, ?_⟩
      · rw [hnone]
        exact .fault hf vs
      · rw [hnone, emitVisits, followedBy_of_fault hfault, hemit]
        rfl
    · obtain ⟨hlen, hemit⟩ := emit_of_clear hds (not_exists.mp hv)
      have hfault : (v.emit (t.lettered ds)).1.fault = none := by rw [hemit]
      obtain ⟨done, rest, fault, hsplit, hclear, hends, hrest⟩ := ih hlen
      have hall : ds ++ declaredBy (v :: done) = ds ++ v.declared?.toList ++ declaredBy done := by
        rw [declaredBy_cons, List.append_assoc]
      refine ⟨v :: done, rest, fault, congrArg (v :: ·) hsplit, ⟨not_exists.mp hv, hclear⟩, ?_, ?_⟩
      · rwa [hall]
      · rw [hall, emitVisits, followedBy_of_none hfault, hemit, hrest]
        rfl

theorem leadsTo_of_mem_declaredBy {vs : List Visit} (h : Clear t ds vs) :
    ∀ id ∈ declaredBy vs, ∃ k, id.LeadsTo t k := by
  induction vs generalizing ds with
  | nil => exact fun id hid => absurd hid List.not_mem_nil
  | cons v vs ih =>
    obtain ⟨hv, hvs⟩ := h
    intro id hid
    rw [declaredBy_cons] at hid
    rcases List.mem_append.mp hid with hid | hid
    · obtain rfl : v = .declare id := by
        cases v with
        | declare id' => rw [List.mem_singleton.mp hid]
        | access x id' => cases hid
        | plain i => cases hid
      exact leadsTo_of_clear hv
    · exact ih hvs id hid

end Run

/-! ## Attempts -/

namespace Compiler

theorem generate_of_ne {c : Compiler} {p : Program} (h : p.type ≠ some .void) :
    c.generate p = (.error .illTyped, c) := by
  rw [generate, if_neg h]

/-- An attempt on a program with the verdict `void` is the walk over its visits. -/
theorem generate_split (c : Compiler) {p : Program} (h : p.type = some .void) :
    ∃ done rest fault, p.visits = done ++ rest ∧ Clear c.symbols [] done ∧
      EndsAt c.symbols (declaredBy done) rest fault ∧
      c.generate p = (fault.elim (.ok (codeText (codeOf c.symbols [] done))) .error,
        { c with symbols := c.symbols.behind (declaredBy done),
                 instructions := codeOf c.symbols [] done }) := by
  obtain ⟨done, rest, fault, hsplit, hclear, hends, hemit⟩ :=
    emitVisits_split c.symbols (show [].length ≤ 26 from Nat.zero_le 26) p.visits
  have hitems : emitItems { table := c.symbols } p.items =
      (⟨codeOf c.symbols [] done, fault⟩, c.symbols.lettered (declaredBy done)) :=
    (emitVisits_items _ _).symm.trans hemit
  refine ⟨done, rest, fault, hsplit, hclear, hends, ?_⟩
  rw [generate_of_void h, hitems]
  cases fault <;> rfl

/-- An attempt changes nothing in the table but registers. -/
theorem signature_generate (c : Compiler) (p : Program) :
    (c.generate p).2.symbols.signature = c.symbols.signature := by
  by_cases h : p.type = some .void
  · obtain ⟨done, rest, fault, -, -, -, hgen⟩ := generate_split c h
    rw [hgen]
    exact SymbolTable.signature_behind c.symbols (declaredBy done)
  · rw [generate_of_ne h]

theorem log_generate (c : Compiler) (p : Program) : (c.generate p).2.log = c.log := by
  by_cases h : p.type = some .void
  · rw [generate_of_void h]
    rfl
  · rw [generate_of_ne h]

end Compiler

/-- **Every attempt at code**, on any program and in any state.  Without the verdict `void` it is
refused and nothing changes.  Otherwise the visits `done` before the first one that fails give the
code that is kept, and the registers that are noted; that visit gives the fault, and where there is
none, the code is the result.  The log, and the names, types and handles of the table stay as they
were, and so do the entries that no identifier declared in `done` leads to. -/
theorem generate_exact (c : Compiler) (p : Program) :
    (p.type ≠ some .void → c.generate p = (.error .illTyped, c)) ∧
    (p.type = some .void → ∃ done rest fault,
      p.visits = done ++ rest ∧ Clear c.symbols [] done ∧
      EndsAt c.symbols (declaredBy done) rest fault ∧
      c.generate p = (fault.elim (.ok (codeText (codeOf c.symbols [] done))) .error,
        { c with symbols := c.symbols.behind (declaredBy done),
                 instructions := codeOf c.symbols [] done }) ∧
      ∀ k, (∀ id ∈ declaredBy done, ¬ id.LeadsTo c.symbols k) →
        SymbolTable.entry? (c.generate p).2.symbols k = c.symbols.entry? k) ∧
    (c.generate p).2.log = c.log ∧
    (c.generate p).2.symbols.size = c.symbols.size ∧
    (c.generate p).2.symbols.signature = c.symbols.signature ∧
    ∀ name, (c.generate p).2.symbols.handle? name = c.symbols.handle? name := by
  have hsig := Compiler.signature_generate c p
  have hnames : (c.generate p).2.symbols.names = c.symbols.names := by
    rw [SymbolTable.names_eq_signature, hsig, ← SymbolTable.names_eq_signature]
  have hsize : (c.generate p).2.symbols.size = c.symbols.size := by
    rw [← SymbolTable.length_signature, hsig, SymbolTable.length_signature]
  refine ⟨Compiler.generate_of_ne, fun hv => ?_, Compiler.log_generate c p, hsize, hsig,
    fun name => ?_⟩
  · obtain ⟨done, rest, fault, hsplit, hclear, hends, hgen⟩ := Compiler.generate_split c hv
    refine ⟨done, rest, fault, hsplit, hclear, hends, hgen, fun k hk => ?_⟩
    rw [hgen]
    exact SymbolTable.entry?_behind hk (leadsTo_of_mem_declaredBy hclear)
  · rw [SymbolTable.handle?_eq_names, SymbolTable.handle?_eq_names, hnames]

/-- The value of `b` is read before the target is asked for, and its register was noted by hand; `a`
was never declared in this attempt, so it has none. -/
example (p : Position) :
    Compiler.generate
        { symbols := ⟨[⟨"a", .int, none⟩, ⟨"b", .int, some 'q'⟩]⟩, instructions := [.pop] }
        { items := [.assign ⟨"a", none, some 0, p⟩ (.deref ⟨"b", none, some 1, p⟩ none p) none p],
          type := some .void } =
      (.error (.unresolved "a" p),
        { symbols := ⟨[⟨"a", .int, none⟩, ⟨"b", .int, some 'q'⟩]⟩, instructions := [.load 'q'] }) :=
  rfl

end DeskCalc
