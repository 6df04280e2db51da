import DeskCalc.Proofs.Uses

/-!
# How a compilation ends

A compilation ends in one of three ways, and which one can be told from the log and the number of
declarations alone (`compile_outcome`): with the log of the check, for want of a register, or with
code.  An identifier without a register, or a program refused as ill typed, is never the reason.

The allocation on the way to the code is known in full: behind `m` declarations the first `m` entries
of the table have the first `m` registers, the others have none, and the registers from `m` on are
free (`allocated ds m`, for the entries `ds` that the check left).  A declaration moves it from `m`
to `m + 1` (`declare_allocated`), any other item finds all its names among the first `m` entries
(`register?_allocated`), and so the code of the whole row can fail only where a declaration finds
`registers` used up (`emitItems_checked`).
-/

namespace DeskCalc

theorem length_registers : registers.toList.length = 26 := by decide

theorem nodup_registers : registers.toList.Nodup := by decide

/-! ## The allocation behind a number of declarations -/

/-- the entries `ds` with registers for the first `m` of them -/
def allocated (ds : List Symbol) (m : Nat) : Allocation where
  table := ⟨ds.mapIdx fun k s => if k < m then { s with register := registers.toList[k]? } else s⟩
  free := registers.toList.drop m

section Allocated
variable {ds : List Symbol} {m : Nat}

theorem entry?_allocated (ds : List Symbol) (m k : Nat) :
    (allocated ds m).table.entry? k =
      ds[k]?.map fun s => if k < m then { s with register := registers.toList[k]? } else s :=
  List.getElem?_mapIdx

theorem names_allocated (ds : List Symbol) (m : Nat) :
    (allocated ds m).table.names = ds.map Symbol.name := by
  apply List.ext_getElem?
  intro k
  rw [← SymbolTable.name?_eq_names, SymbolTable.name?, entry?_allocated, List.getElem?_map,
    Option.map_map]
  congr 1
  funext s
  show Symbol.name (if k < m then _ else s) = s.name
  split <;> rfl

theorem allocated_zero (ds : List Symbol) : allocated ds 0 = { table := ⟨ds⟩ } := by
  have hid : (fun k (s : Symbol) => if k < 0 then { s with register := registers.toList[k]? } else s)
      = fun _ s => s := by
    funext k s
    rw [if_neg (Nat.not_lt_zero k)]
  rw [allocated, hid, List.drop_zero]
  congr 2
  apply List.ext_getElem?
  intro k
  rw [List.getElem?_mapIdx, Option.map_id_fun']
  rfl

theorem register?_allocated (hm : m ≤ 26) {id : Identifier} {k : Handle}
    (h : (allocated ds m).table.resolve? id = some k) (hk : k < m) :
    ∃ r, (allocated ds m).table.register? id = some r := by
  have hk' : k < registers.toList.length := by
    rw [length_registers]
    exact Nat.lt_of_lt_of_le hk hm
  have hname := SymbolTable.name?_of_resolve? h
  rw [SymbolTable.name?, entry?_allocated] at hname
  rw [SymbolTable.register?, h, Option.bind_some, entry?_allocated]
  cases hs : ds[k]? with
  | none =>
    rw [hs] at hname
    cases hname
  | some s =>
    refine ⟨registers.toList[k], ?_⟩
    rw [Option.map_some, Option.bind_some, if_pos hk]
    exact List.getElem?_eq_getElem hk'

theorem setRegister_allocated (ds : List Symbol) (m : Nat) :
    (allocated ds m).table.setRegister m registers.toList[m]? = (allocated ds (m + 1)).table := by
  show SymbolTable.mk ((allocated ds m).table.entries.modify m _) = _
  have hentries : ((allocated ds m).table.entries.modify m
      fun s => { s with register := registers.toList[m]? }) = (allocated ds (m + 1)).table.entries := by
    apply List.ext_getElem?
    intro k
    have he : ∀ m', (allocated ds m').table.entries[k]? = _ := fun m' => entry?_allocated ds m' k
    rw [List.getElem?_modify, he, he, Option.map_eq_map, Option.map_map]
    congr 1
    funext s
    show (if m = k then _ else _) = _
    by_cases hmk : m = k
    · subst hmk
      simp
    · have hlt : k < m + 1 ↔ k < m := by omega
      simp [hmk, hlt]
  exact congrArg SymbolTable.mk hentries

/-- A declaration whose identifier leads to the entry `m` takes the register of that number. -/
theorem declare_allocated (hm : m < 26) {id : Identifier}
    (h : (allocated ds m).table.resolve? id = some m) :
    (allocated ds m).declare id = .ok (allocated ds (m + 1)) := by
  have hm' : m < registers.toList.length := by
    rw [length_registers]
    exact hm
  have hfree : (allocated ds m).free = registers.toList[m] :: registers.toList.drop (m + 1) :=
    List.drop_eq_getElem_cons hm'
  unfold Allocation.declare
  rw [h, hfree]
  show Except.ok (Allocation.mk _ _) = Except.ok (Allocation.mk _ _)
  have htable := setRegister_allocated ds m
  rw [List.getElem?_eq_getElem hm'] at htable
  rw [htable]
  rfl

theorem declare_exhausted {id : Identifier} {k : Handle}
    (h : (allocated ds 26).table.resolve? id = some k) :
    (allocated ds 26).declare id = .error (.noRegister id.name id.pos) := by
  have hfree : (allocated ds 26).free = [] := List.drop_of_length_le (Nat.le_of_eq length_registers)
  unfold Allocation.declare
  rw [h, hfree]

/-- When all entries have their registers, they have the first of the alphabet in order. -/
theorem map_register_allocated (h : ds.length ≤ 26) :
    (allocated ds ds.length).table.entries.map Symbol.register =
      (registers.toList.take ds.length).map some := by
  apply List.ext_getElem?
  intro k
  have he : (allocated ds ds.length).table.entries[k]? = _ := entry?_allocated ds ds.length k
  rw [List.getElem?_map, he, Option.map_map, List.getElem?_map]
  by_cases hk : k < ds.length
  · have hk' : k < registers.toList.length := by
      rw [length_registers]
      omega
    rw [List.getElem?_eq_getElem hk, List.getElem?_take_of_lt hk, List.getElem?_eq_getElem hk']
    show some (Symbol.register (if k < ds.length then _ else _)) = _
    rw [if_pos hk]
    rfl
  · have hk' : ds.length ≤ k := by omega
    have hlen : (registers.toList.take ds.length).length ≤ k :=
      Nat.le_trans (List.length_take_le _ _) hk'
    rw [List.getElem?_eq_none hk', List.getElem?_eq_none hlen]
    rfl

end Allocated

/-! ## Items behind a check without faults -/

section Checked
variable {t : SymbolTable} {ds rest : List Symbol}

theorem node_checkDeclare {declared : NumType} {id : Identifier} {p : Position}
    (h : id.name ∉ t.names) :
    (checkDeclare t declared id p).node =
      .declare declared { id with symbol := some t.size, type := some (.num declared) }
        (some (.num declared)) p := by
  unfold checkDeclare
  rw [SymbolTable.enter_of_not_mem h]

theorem declared?_check {i : Item} (h : i.declared? = none) : (i.check t).node.declared? = none := by
  cases i with
  | declare declared id type p => cases h
  | assign target value type p =>
    obtain ⟨s, type', hnode⟩ := exists_node_checkAssign t target value p
    rw [Item.check, hnode]
    rfl
  | print id type p => rfl

theorem entry?_eq_none {i : Item} (h : i.declared? = none) : i.entry? = none := by
  cases i with
  | declare declared id type p => cases h
  | assign target value type p => rfl
  | print id type p => rfl

theorem entries_check {i : Item} (hn : t.names.Nodup) (h : (i.check t).faults = []) :
    (i.check t).table.entries = t.entries ++ i.entry?.toList := by
  have hrow : (checkItems t [i]).faults = [] := by
    rw [checkItems_cons, h]
    rfl
  have hentries := entries_of_faultless hn hrow
  rwa [declarations_cons, declarations_nil, List.append_nil] at hentries

theorem emit_checked_statement {i : Item} (hd : i.declared? = none) (h : (i.check t).faults = [])
    (hds : ds = t.entries ++ rest) (hm : t.size ≤ 26) :
    ((i.check t).node.emit (allocated ds t.size)).1.fault = none ∧
      ((i.check t).node.emit (allocated ds t.size)).2 = allocated ds t.size := by
  have hnames : (allocated ds t.size).table.names = t.names ++ rest.map Symbol.name := by
    rw [names_allocated, hds, List.map_append]
    rfl
  refine ⟨?_, emit_snd_of_statement _ (declared?_check hd)⟩
  rw [fault_emit _ (declared?_check hd)]
  apply SymbolTable.missing?_eq_none
  intro id hid
  obtain ⟨k, hk⟩ := resolve?_uses h id hid
  exact register?_allocated hm (SymbolTable.resolve?_of_extends hnames hk)
    (SymbolTable.lt_size_of_resolve? hk)

theorem resolve?_checkDeclare (id : Identifier) {s : Symbol} (hs : s.name = id.name)
    (hds : ds = t.entries ++ s :: rest) (m : Nat) (type : Option CheckedType) :
    (allocated ds m).table.resolve? { id with symbol := some t.size, type := type } =
      some t.size := by
  rw [SymbolTable.resolve?_eq_some_iff, names_allocated, hds, List.getElem?_map]
  refine ⟨rfl, ?_⟩
  rw [SymbolTable.size, List.getElem?_append_right (Nat.le_refl _), Nat.sub_self]
  exact congrArg some hs

theorem emit_checked_declaration (declared : NumType) {id : Identifier}
    (type : Option CheckedType) (p : Position) (hnew : id.name ∉ t.names)
    (hds : ds = t.entries ++ { name := id.name, type := declared } :: rest) (hm : t.size < 26) :
    (Item.check t (.declare declared id type p)).node.emit (allocated ds t.size) =
      ({}, allocated ds (t.size + 1)) := by
  rw [Item.check, node_checkDeclare hnew, Item.emit,
    declare_allocated hm (resolve?_checkDeclare id rfl hds _ _)]

theorem emit_checked_exhausted (declared : NumType) {id : Identifier}
    (type : Option CheckedType) (p : Position) (hnew : id.name ∉ t.names)
    (hds : ds = t.entries ++ { name := id.name, type := declared } :: rest) (hm : t.size = 26) :
    (Item.check t (.declare declared id type p)).node.emit (allocated ds t.size) =
      ({ fault := some (.noRegister id.name id.pos) }, allocated ds t.size) := by
  have hres := resolve?_checkDeclare id rfl hds t.size (some (.num declared))
  rw [hm] at hres
  rw [Item.check, node_checkDeclare hnew, hm, Item.emit, declare_exhausted hres]

theorem outcome_emitItems_cons {a b : Allocation} {i : Item} (hf : (i.emit a).1.fault = none)
    (hb : (i.emit a).2 = b) (is : List Item) :
    (emitItems a (i :: is)).1.fault = (emitItems b is).1.fault ∧
      (emitItems a (i :: is)).2 = (emitItems b is).2 := by
  rw [emitItems_cons_of_none hf, hb]
  exact ⟨by rw [Emitted.fault_andThen, hf, Option.none_or], rfl⟩

/-- **A row of items.**  It lacks a register exactly if a declaration finds twenty-six before it, and
that declaration is the one that fails; otherwise every entry gets the register of its place. -/
theorem emitItems_checked {is : List Item} (hn : t.names.Nodup) (h : (checkItems t is).faults = [])
    (hds : ds = t.entries ++ declarations is) (hm : t.size ≤ 26) :
    (emitItems (allocated ds t.size) (checkItems t is).node).1.fault =
        (declaredIdentifiers is)[26 - t.size]?.map (fun id => .noRegister id.name id.pos) ∧
      ((emitItems (allocated ds t.size) (checkItems t is).node).1.fault = none →
        (emitItems (allocated ds t.size) (checkItems t is).node).2 = allocated ds ds.length) := by
  induction is generalizing t with
  | nil =>
    refine ⟨rfl, fun _ => ?_⟩
    rw [hds, declarations_nil, List.append_nil]
    rfl
  | cons i is ih =>
    obtain ⟨hi, his⟩ := List.append_eq_nil_iff.mp h
    have hn' := nodup_names_check hn i
    have hds' : ds = (i.check t).table.entries ++ declarations is := by
      rw [hds, entries_check hn hi, declarations_cons, List.append_assoc]
    have hsize : (i.check t).table.size = t.size + i.entry?.toList.length := by
      rw [SymbolTable.size, entries_check hn hi, List.length_append]
      rfl
    have hnode : (checkItems t (i :: is)).node =
        (i.check t).node :: (checkItems (i.check t).table is).node := rfl
    rw [hnode, declaredIdentifiers_cons]
    cases hd : i.declared? with
    | none =>
      have hsame : (i.check t).table.size = t.size := by
        rw [hsize, entry?_eq_none hd]
        rfl
      obtain ⟨hf, ha⟩ := emit_checked_statement hd hi hds hm
      obtain ⟨hfault, htable⟩ := outcome_emitItems_cons hf ha (checkItems (i.check t).table is).node
      rw [hfault, htable]
      have hrest := ih hn' his hds' (hsame ▸ hm)
      rwa [hsame] at hrest
    | some id' =>
      cases i with
      | assign target value type p => cases hd
      | print id type p => cases hd
      | declare declared id type p =>
        obtain rfl : id = id' := Option.some.inj hd
        have hnew : id.name ∉ t.names := not_mem_of_faultless hi rfl
        by_cases hfull : t.size = 26
        · have hemit := emit_checked_exhausted declared type p hnew hds hfull
          have hfault := congrArg (fun r => r.1.fault) hemit
          rw [emitItems_cons_of_fault hfault, hemit, hfull]
          exact ⟨rfl, fun e => by cases e⟩
        · have hlt : t.size < 26 := Nat.lt_of_le_of_ne hm hfull
          have hemit := emit_checked_declaration declared type p hnew hds hlt
          obtain ⟨hfault, htable⟩ := outcome_emitItems_cons (congrArg (fun r => r.1.fault) hemit)
            (congrArg Prod.snd hemit) (checkItems (Item.check t _).table is).node
          rw [hfault, htable]
          have hrest := ih hn' his hds' (hsize ▸ hlt)
          rw [hsize] at hrest
          have hindex : 26 - t.size = 26 - (t.size + 1) + 1 := by omega
          rw [hindex]
          exact hrest

end Checked

/-! ## Compilations -/

section Compile
variable {c : Compiler} {p : Program}

theorem symbols_check_of_faultless (h : (c.check p).2.log.entries = []) :
    (c.check p).2.symbols = ⟨declarations p.items⟩ :=
  congrArg SymbolTable.mk (entries_of_faultless SymbolTable.nodup_names_empty h)

theorem emitItems_of_faultless (h : (c.check p).2.log.entries = []) :
    (emitItems { table := (c.check p).2.symbols } (c.check p).1.items).1.fault =
        (declaredIdentifiers p.items)[26]?.map (fun id => .noRegister id.name id.pos) ∧
      ((emitItems { table := (c.check p).2.symbols } (c.check p).1.items).1.fault = none →
        (emitItems { table := (c.check p).2.symbols } (c.check p).1.items).2 =
          allocated (declarations p.items) (declarations p.items).length) := by
  rw [symbols_check_of_faultless h, ← allocated_zero]
  exact emitItems_checked SymbolTable.nodup_names_empty h rfl (Nat.zero_le 26)

theorem compile_of_exhausted (h : (c.check p).2.log.entries = [])
    (hlen : 26 < (declaredIdentifiers p.items).length) :
    (c.compile p).1 = .error (.code (.noRegister (declaredIdentifiers p.items)[26].name
      (declaredIdentifiers p.items)[26].pos)) := by
  rw [Compiler.compile_of_faultless h,
    Compiler.generate_of_void (Compiler.type_check_of_faultless h), (emitItems_of_faultless h).1,
    List.getElem?_eq_getElem hlen]
  rfl

theorem compile_of_enough (h : (c.check p).2.log.entries = [])
    (hlen : (declaredIdentifiers p.items).length ≤ 26) :
    (∃ text, (c.compile p).1 = .ok text) ∧
      (c.compile p).2.2.symbols =
        (allocated (declarations p.items) (declarations p.items).length).table := by
  obtain ⟨hfault, htable⟩ := emitItems_of_faultless h
  rw [List.getElem?_eq_none hlen] at hfault
  rw [Compiler.compile_of_faultless h,
    Compiler.generate_of_void (Compiler.type_check_of_faultless h), hfault]
  exact ⟨⟨_, rfl⟩, congrArg Allocation.table (htable hfault)⟩

theorem registers_of_enough (h : (c.check p).2.log.entries = [])
    (hlen : (declaredIdentifiers p.items).length ≤ 26) :
    (c.compile p).2.2.symbols.names = declaredNames p.items ∧
      (∀ k s, (c.compile p).2.2.symbols.entry? k = some s →
        ∃ r, registers.toList[k]? = some r ∧ s.register = some r) ∧
      ((c.compile p).2.2.symbols.entries.map Symbol.register).Nodup := by
  have hmap := map_register_allocated (length_declaredIdentifiers p.items ▸ hlen)
  rw [(compile_of_enough h hlen).2]
  refine ⟨names_allocated _ _, fun k s hs => ?_, ?_⟩
  · have hk := congrArg (fun l => l[k]?) hmap
    have hs' : (allocated (declarations p.items) (declarations p.items).length).table.entries[k]? =
        some s := hs
    rw [List.getElem?_map, hs', List.getElem?_map] at hk
    obtain ⟨r, hr, e⟩ := Option.map_eq_some_iff.mp hk.symm
    rw [List.getElem?_take] at hr
    split at hr
    · exact ⟨r, hr, e.symm⟩
    · cases hr
  · rw [hmap]
    have htake := nodup_registers.sublist (List.take_sublist (declarations p.items).length _)
    exact htake.map fun _ _ => Option.some.inj

theorem compile_cases (c : Compiler) (p : Program) :
    ((c.check p).2.log.entries ≠ [] ∧
      (c.compile p).1 = .error (.semantic (c.check p).2.log)) ∨
    ((c.check p).2.log.entries = [] ∧ ∃ _ : 26 < (declaredIdentifiers p.items).length,
      (c.compile p).1 = .error (.code (.noRegister (declaredIdentifiers p.items)[26].name
        (declaredIdentifiers p.items)[26].pos))) ∨
    ((c.check p).2.log.entries = [] ∧ (declaredIdentifiers p.items).length ≤ 26 ∧
      ∃ text, (c.compile p).1 = .ok text) := by
  by_cases hlog : (c.check p).2.log.entries = []
  · by_cases hlen : (declaredIdentifiers p.items).length ≤ 26
    · exact .inr (.inr ⟨hlog, hlen, (compile_of_enough hlog hlen).1⟩)
    · have hlt : 26 < (declaredIdentifiers p.items).length := Nat.lt_of_not_le hlen
      exact .inr (.inl ⟨hlog, hlt, compile_of_exhausted hlog hlt⟩)
  · exact .inl ⟨hlog, by rw [Compiler.compile_of_faults hlog]⟩

/-- **The end of a compilation.**  Whatever the tree holds and the compiler did before: the log of the
check is returned if it has an entry; otherwise the twenty-seventh declaration, if there is one, is
told that it gets no register; otherwise there is code, and the entries of the table, one for each
declaration, have the registers in the order of the alphabet. -/
theorem compile_outcome (c : Compiler) (p : Program) :
    (∀ log, (c.compile p).1 = .error (.semantic log) ↔
      log = (c.check p).2.log ∧ log.entries ≠ []) ∧
    (∀ f, (c.compile p).1 = .error (.code f) ↔
      (c.check p).2.log.entries = [] ∧ ∃ _ : 26 < (declaredIdentifiers p.items).length,
        f = .noRegister (declaredIdentifiers p.items)[26].name
          (declaredIdentifiers p.items)[26].pos) ∧
    ((∃ text, (c.compile p).1 = .ok text) ↔
      (c.check p).2.log.entries = [] ∧ (declaredIdentifiers p.items).length ≤ 26) ∧
    (c.compile p).1 ≠ .error (.code .illTyped) ∧
    (∀ name pos, (c.compile p).1 ≠ .error (.code (.unresolved name pos))) ∧
    ∀ text, (c.compile p).1 = .ok text →
      (c.compile p).2.2.symbols.names = declaredNames p.items ∧
      (∀ k s, (c.compile p).2.2.symbols.entry? k = some s →
        ∃ r, registers.toList[k]? = some r ∧ s.register = some r) ∧
      ((c.compile p).2.2.symbols.entries.map Symbol.register).Nodup := by
  rcases compile_cases c p with ⟨hlog, h⟩ | ⟨hlog, hlen, h⟩ | ⟨hlog, hlen, text, h⟩
  · grind
  · grind
  · have hreg := registers_of_enough hlog hlen
    grind

end Compile

/-- `float b; int a; b = a / 2;` with handles of another table, a conversion and an old verdict -/
def stale : Program where
  items :=
    [.declare .float { name := "b", symbol := some 7, pos := ⟨1, 7⟩ } (some .error) ⟨1, 1⟩,
      .declare .int { name := "a", symbol := some 0, pos := ⟨1, 14⟩ } none ⟨1, 10⟩,
      .assign { name := "b", symbol := some 1, pos := ⟨1, 17⟩ }
        (.apply .divide (.widen (.read { name := "a", symbol := some 0, pos := ⟨1, 21⟩ }))
          (.literal "2" .int ⟨1, 25⟩))
        none ⟨1, 17⟩]
  type := some .error

/-- twenty-seven declarations, one on each line -/
def crowded : Program where
  items := (List.range 27).map fun k =>
    .declare .int { name := String.ofList (List.replicate (k + 1) 'x'), pos := ⟨k + 1, 5⟩ } none
      ⟨k + 1, 1⟩

/-- Marks of an earlier check do no harm, and the declaration on line 27 is one too many. -/
theorem compile_outcome_stale_crowded :
    (Compiler.compile {} stale).1 = .ok "lb 5 k 2 5 k / sa 0 k" ∧
      (Compiler.compile {} stale).2.2.symbols.names = ["b", "a"] ∧
      ((Compiler.compile {} stale).2.2.symbols.entries.map Symbol.register).Nodup ∧
      (Compiler.compile {} crowded).1 =
        .error (.code (.noRegister (String.ofList (List.replicate 27 'x')) ⟨27, 5⟩)) := by
  have hok : (Compiler.compile {} stale).1 = .ok "lb 5 k 2 5 k / sa 0 k" := by decide +kernel
  obtain ⟨-, -, -, -, -, hregisters⟩ := compile_outcome {} stale
  obtain ⟨hnames, -, hnodup⟩ := hregisters _ hok
  obtain ⟨-, hcode, -⟩ := compile_outcome {} crowded
  have hlog : (Compiler.check {} crowded).2.log.entries = [] := by decide +kernel
  exact ⟨hok, hnames, hnodup, (hcode _).mpr ⟨hlog, by decide, rfl⟩⟩

end DeskCalc
