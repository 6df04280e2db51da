import DeskCalc.Source
import DeskCalc.Proofs.Outcome

/-!
# Code once and again

An analysis can be asked for code as often as one likes.  The first attempt notes registers in the
table, also if it runs out of them and fails, and the next attempt starts from that table.  It does
the same again, because it gives the registers away from the first letter on: a declaration finds the
letter noted that it is about to note, and a name is used only behind its declaration, where the
table is already what it was in the first attempt.

Two numbers describe an attempt on the way, the declarations it has met and the entries that have
their registers (`retry ds m k`, with `m ≤ k`).  In the first attempt they are the same, in every
later one `k` is all that the letters suffice for from the beginning.  The code does not depend on
`k`, and all attempts leave the same table (`emitItems_retry`).  So an analysis that has been asked
once never changes any more (`after_succ`), and it says what a compilation of the text says
(`generate_repeated`).
-/

namespace DeskCalc

/-! ## What the code of an item depends on -/

section Congruence
variable {t t' : SymbolTable}

theorem emitWith_congr {id : Identifier} (h : t.register? id = t'.register? id)
    (code : Char → List Instruction) : emitWith t id code = emitWith t' id code := by
  unfold emitWith
  rw [h]

theorem emit_expr_congr {e : Expr} (h : ∀ id ∈ e.reads, t.register? id = t'.register? id) :
    e.emit t = e.emit t' := by
  induction e with
  | const value declared type p => rfl
  | deref id type p => exact emitWith_congr (h id (by simp [Expr.reads])) _
  | binary op left right type p ihl ihr =>
    have hl := ihl fun id hid => h id (List.mem_append_left _ hid)
    have hr := ihr fun id hid => h id (List.mem_append_right _ hid)
    rw [Expr.emit, Expr.emit, hl, hr]
  | convert inner type p ih => rw [Expr.emit, Expr.emit, ih h]

/-- The code of a statement depends on the registers of the names it uses. -/
theorem emit_congr {a b : Allocation} {i : Item} (hd : i.declared? = none)
    (h : ∀ id ∈ i.uses, a.table.register? id = b.table.register? id) :
    (i.emit a).1 = (i.emit b).1 := by
  cases i with
  | declare declared id type p => cases hd
  | assign target value type p =>
    have hv : value.emit a.table = value.emit b.table :=
      emit_expr_congr fun id hid => h id (List.mem_append_left _ hid)
    have ht := h target (List.mem_append_right _ (List.mem_singleton_self target))
    rw [Item.emit, Item.emit, hv, emitWith_congr ht]
  | print id type p => exact emitWith_congr (h id (List.mem_singleton_self id)) _

end Congruence

/-! ## Attempts -/

/-- the allocation of an attempt that has met `m` declarations, where `k` entries have registers -/
def retry (ds : List Symbol) (m k : Nat) : Allocation where
  table := (allocated ds k).table
  free := registers.toList.drop m

section Attempt
variable {ds rest : List Symbol} {m k : Nat} {t : SymbolTable}

theorem setRegister_retry (ds : List Symbol) (h : m ≤ k) :
    (allocated ds k).table.setRegister m registers.toList[m]? =
      (allocated ds (max k (m + 1))).table := by
  rcases Nat.eq_or_lt_of_le h with rfl | hlt
  · rw [setRegister_allocated, Nat.max_eq_right (Nat.le_succ m)]
  · rw [Nat.max_eq_left hlt]
    have hentries : ((allocated ds k).table.entries.modify m
        fun s => { s with register := registers.toList[m]? }) = (allocated ds k).table.entries := by
      apply List.ext_getElem?
      intro j
      have he : (allocated ds k).table.entries[j]? = _ := entry?_allocated ds k j
      rw [List.getElem?_modify, he]
      by_cases hmj : m = j
      · subst hmj
        cases ds[m]? <;> simp [hlt]
      · cases ds[j]? <;> simp [hmj]
    exact congrArg SymbolTable.mk hentries

theorem declare_retry (hm : m < 26) (hk : m ≤ k) {id : Identifier}
    (h : (allocated ds k).table.resolve? id = some m) :
    (retry ds m k).declare id = .ok (retry ds (m + 1) (max k (m + 1))) := by
  have hm' : m < registers.toList.length := by
    rw [length_registers]
    exact hm
  have hfree : (retry ds m k).free = registers.toList[m] :: registers.toList.drop (m + 1) :=
    List.drop_eq_getElem_cons hm'
  have htable := setRegister_retry ds hk
  rw [List.getElem?_eq_getElem hm'] at htable
  have hres : (retry ds m k).table.resolve? id = some m := h
  unfold Allocation.declare
  rw [hres, hfree]
  show Except.ok (Allocation.mk ((allocated ds k).table.setRegister m _) _) = _
  rw [htable]
  rfl

theorem resolve?_allocated (ds : List Symbol) (m k : Nat) (id : Identifier) :
    (allocated ds k).table.resolve? id = (allocated ds m).table.resolve? id := by
  unfold SymbolTable.resolve?
  congr 1
  funext j
  rw [SymbolTable.name?_eq_names, SymbolTable.name?_eq_names, names_allocated, names_allocated]

theorem register?_retry (hk : m ≤ k) {id : Identifier} {j : Handle}
    (h : (allocated ds m).table.resolve? id = some j) (hj : j < m) :
    (allocated ds k).table.register? id = (allocated ds m).table.register? id := by
  unfold SymbolTable.register?
  rw [resolve?_allocated ds m k, h, Option.bind_some, Option.bind_some, entry?_allocated,
    entry?_allocated]
  cases ds[j]? with
  | none => rfl
  | some s => simp [hj, Nat.lt_of_lt_of_le hj hk]

theorem emit_retry_statement {i : Item} (hd : i.declared? = none) (h : (i.check t).faults = [])
    (hds : ds = t.entries ++ rest) (hk : t.size ≤ k) :
    (i.check t).node.emit (retry ds t.size k) =
      (((i.check t).node.emit (allocated ds t.size)).1, retry ds t.size k) := by
  have hnames : (allocated ds t.size).table.names = t.names ++ rest.map Symbol.name := by
    rw [names_allocated, hds, List.map_append]
    rfl
  refine Prod.ext (emit_congr (declared?_check hd) fun id hid => ?_)
    (emit_snd_of_statement _ (declared?_check hd))
  obtain ⟨j, hj⟩ := resolve?_uses h id hid
  exact register?_retry hk (SymbolTable.resolve?_of_extends hnames hj)
    (SymbolTable.lt_size_of_resolve? hj)

theorem emit_retry_declaration (declared : NumType) {id : Identifier}
    (type : Option CheckedType) (p : Position) (hnew : id.name ∉ t.names)
    (hds : ds = t.entries ++ { name := id.name, type := declared } :: rest) (hm : t.size < 26)
    (hk : t.size ≤ k) :
    (Item.check t (.declare declared id type p)).node.emit (retry ds t.size k) =
      ({}, retry ds (t.size + 1) (max k (t.size + 1))) := by
  rw [Item.check, node_checkDeclare hnew, Item.emit,
    declare_retry hm hk (resolve?_checkDeclare id rfl hds k _)]

theorem emit_retry_exhausted (declared : NumType) {id : Identifier}
    (type : Option CheckedType) (p : Position) (hnew : id.name ∉ t.names)
    (hds : ds = t.entries ++ { name := id.name, type := declared } :: rest) (hm : t.size = 26) :
    (Item.check t (.declare declared id type p)).node.emit (retry ds t.size k) =
      ({ fault := some (.noRegister id.name id.pos) }, retry ds t.size k) := by
  have hres : (retry ds t.size k).table.resolve?
      { id with symbol := some t.size, type := some (.num declared) } = some t.size :=
    resolve?_checkDeclare id rfl hds k _
  have hfree : (retry ds t.size k).free = [] :=
    List.drop_of_length_le (Nat.le_of_eq (length_registers.trans hm.symm))
  have hdeclare : (retry ds t.size k).declare
      { id with symbol := some t.size, type := some (.num declared) } =
      .error (.noRegister id.name id.pos) := by
    unfold Allocation.declare
    rw [hres, hfree]
  rw [Item.check, node_checkDeclare hnew, Item.emit, hdeclare]

/-- **Every attempt is like the first.**  Its code and its fault do not depend on the registers that
are noted beforehand, and it leaves registers for as many entries as there are letters. -/
theorem emitItems_retry {is : List Item} (hn : t.names.Nodup) (h : (checkItems t is).faults = [])
    (hds : ds = t.entries ++ declarations is) (hk : t.size ≤ k) (hk' : k ≤ min ds.length 26) :
    (emitItems (retry ds t.size k) (checkItems t is).node).1 =
        (emitItems (allocated ds t.size) (checkItems t is).node).1 ∧
      (emitItems (retry ds t.size k) (checkItems t is).node).2.table =
        (allocated ds (min ds.length 26)).table := by
  induction is generalizing t k with
  | nil =>
    refine ⟨rfl, ?_⟩
    have hlen : ds.length = t.size := by
      rw [hds, declarations_nil, List.append_nil]
      rfl
    have hall : k = min ds.length 26 := by omega
    rw [← hall]
    rfl
  | cons i is ih =>
    obtain ⟨hi, his⟩ := List.append_eq_nil_iff.mp h
    have hn' := nodup_names_check hn i
    have hds' : ds = (i.check t).table.entries ++ declarations is := by
      rw [hds, entries_check hn hi, declarations_cons, List.append_assoc]
    have hsize : (i.check t).table.size = t.size + i.entry?.toList.length := by
      rw [SymbolTable.size, entries_check hn hi, List.length_append]
      rfl
    have hnode : (checkItems t (i :: is)).node =
        (i.check t).node :: (checkItems (i.check t).table is).node := rfl
    rw [hnode]
    cases hd : i.declared? with
    | none =>
      have hsame : (i.check t).table.size = t.size := by
        rw [hsize, entry?_eq_none hd]
        rfl
      have hm : t.size ≤ 26 := by omega
      obtain ⟨hf, ha⟩ := emit_checked_statement hd hi hds hm
      have hemit := emit_retry_statement hd hi hds hk
      have hf' : ((i.check t).node.emit (retry ds t.size k)).1.fault = none := by
        rw [hemit]
        exact hf
      have hrest := ih hn' his hds' (hsame ▸ hk) hk'
      rw [hsame] at hrest
      rw [emitItems_cons_of_none hf, emitItems_cons_of_none hf', hemit, ha]
      exact ⟨by rw [hrest.1], hrest.2⟩
    | some id' =>
      cases i with
      | assign target value type p => cases hd
      | print id type p => cases hd
      | declare declared id type p =>
        have hnew : id.name ∉ t.names := not_mem_of_faultless hi rfl
        by_cases hfull : t.size = 26
        · have hemit := emit_retry_exhausted (k := k) declared type p hnew hds hfull
          have hemit' := emit_checked_exhausted declared type p hnew hds hfull
          rw [emitItems_cons_of_fault (congrArg (fun r => r.1.fault) hemit),
            emitItems_cons_of_fault (congrArg (fun r => r.1.fault) hemit'), hemit, hemit']
          have hall : k = min ds.length 26 := by omega
          rw [← hall]
          exact ⟨rfl, rfl⟩
        · have hlt : t.size < 26 := by omega
          have hlen : t.size + 1 ≤ ds.length := by
            rw [hds, List.length_append]
            show t.entries.length + 1 ≤ t.entries.length + ((declarations is).length + 1)
            omega
          have hemit := emit_retry_declaration declared type p hnew hds hlt hk
          have hemit' := emit_checked_declaration declared type p hnew hds hlt
          have hle : (Item.check t (.declare declared id type p)).table.size ≤
              max k (t.size + 1) := by
            rw [hsize]
            exact Nat.le_max_right k (t.size + 1)
          have hrest := ih hn' his hds' hle (by omega)
          rw [hsize] at hrest
          rw [emitItems_cons_of_none (congrArg (fun r => r.1.fault) hemit),
            emitItems_cons_of_none (congrArg (fun r => r.1.fault) hemit'), hemit, hemit']
          exact ⟨congrArg (Emitted.andThen {}) hrest.1, hrest.2⟩

end Attempt

/-! ## Compilers and analyses -/

section Again
variable {c : Compiler} {p : Program}

/-- the table of a program's declarations, with registers for as many as there are letters -/
def filled (p : Program) : SymbolTable :=
  (allocated (declarations p.items) (min (declarations p.items).length 26)).table

theorem emitItems_filled (h : (c.check p).2.log.entries = []) :
    (emitItems { table := (c.check p).2.symbols } (c.check p).1.items).2.table = filled p ∧
      (emitItems { table := filled p } (c.check p).1.items).1 =
        (emitItems { table := (c.check p).2.symbols } (c.check p).1.items).1 ∧
      (emitItems { table := filled p } (c.check p).1.items).2.table = filled p := by
  have hretry : ∀ k, k ≤ min (declarations p.items).length 26 →
      (emitItems (retry (declarations p.items) 0 k) (c.check p).1.items).1 =
          (emitItems (allocated (declarations p.items) 0) (c.check p).1.items).1 ∧
        (emitItems (retry (declarations p.items) 0 k) (c.check p).1.items).2.table = filled p :=
    fun k hk => emitItems_retry SymbolTable.nodup_names_empty h rfl (Nat.zero_le k) hk
  rw [symbols_check_of_faultless h, ← allocated_zero]
  exact ⟨(hretry 0 (Nat.zero_le _)).2, hretry _ (Nat.le_refl _)⟩

/-- What a compiler made of a checked program it makes again. -/
theorem generate_again (h : (c.check p).2.log.entries = []) :
    ((c.check p).2.generate (c.check p).1).2.generate (c.check p).1 =
      (c.check p).2.generate (c.check p).1 := by
  have hvoid := Compiler.type_check_of_faultless h
  obtain ⟨htable, hcode, hagain⟩ := emitItems_filled h
  rw [Compiler.generate_of_void hvoid, Compiler.generate_of_void hvoid]
  simp only [Compiler.keep, htable, hcode, hagain]

end Again

namespace Analysis

def after (a : Analysis) : Nat → Analysis
  | 0 => a
  | n + 1 => (a.after n).generate.2

theorem generate_of_faults {a : Analysis} (h : a.log.entries ≠ []) :
    a.generate = (.error (.semantic a.log), a) := by
  have hf : a.hasFaults = true := by simp [hasFaults, FaultLog.isEmpty, h]
  unfold generate
  rw [if_pos hf]

theorem generate_of_faultless {a : Analysis} (h : a.log.entries = []) :
    a.generate = ((a.compiler.generate a.program).1.mapError .code,
      { a with compiler := (a.compiler.generate a.program).2 }) := by
  have hf : ¬ a.hasFaults = true := by simp [hasFaults, FaultLog.isEmpty, h]
  unfold generate
  rw [if_neg hf]

theorem generate_fst (p : Program) : (ofProgram p).generate.1 = (Compiler.compile {} p).1 := by
  by_cases h : (Compiler.check {} p).2.log.entries = []
  · rw [generate_of_faultless (a := ofProgram p) h, Compiler.compile_of_faultless h]
    rfl
  · rw [generate_of_faults (a := ofProgram p) h, Compiler.compile_of_faults h]
    rfl

theorem generate_generate (p : Program) :
    (ofProgram p).generate.2.generate = (ofProgram p).generate := by
  by_cases h : (Compiler.check {} p).2.log.entries = []
  · have hlog : (ofProgram p).generate.2.log.entries = [] := by
      rw [generate_of_faultless (a := ofProgram p) h]
      show ((Compiler.check {} p).2.generate (Compiler.check {} p).1).2.log.entries = []
      rw [Compiler.generate_of_void (Compiler.type_check_of_faultless h)]
      exact h
    have hagain := generate_again h
    rw [generate_of_faultless hlog, generate_of_faultless (a := ofProgram p) h]
    show ((((Compiler.check {} p).2.generate (Compiler.check {} p).1).2.generate
        (Compiler.check {} p).1).1.mapError Fault.code,
      Analysis.mk (Compiler.check {} p).1 (((Compiler.check {} p).2.generate
        (Compiler.check {} p).1).2.generate (Compiler.check {} p).1).2) = _
    rw [hagain]
    rfl
  · rw [generate_of_faults (a := ofProgram p) h, generate_of_faults (a := ofProgram p) h]

/-- The first call for code is the last that changes anything. -/
theorem after_succ (p : Program) (n : Nat) :
    (ofProgram p).after (n + 1) = (ofProgram p).after 1 := by
  induction n with
  | zero => rfl
  | succ n ih =>
    show ((ofProgram p).after (n + 1)).generate.2 = (ofProgram p).generate.2
    rw [ih]
    exact congrArg Prod.snd (generate_generate p)

theorem generate_after (p : Program) (n : Nat) :
    ((ofProgram p).after n).generate.1 = (Compiler.compile {} p).1 := by
  rw [← generate_fst]
  cases n with
  | zero => rfl
  | succ n =>
    rw [after_succ]
    exact congrArg Prod.fst (generate_generate p)

/-- **One answer.**  A text without an analysis has no code for the same reason.  Otherwise every call
for code gives what a compilation of the text gives, and table, listing and log stay as they are
behind the first call. -/
theorem generate_repeated (text : String) :
    (∀ f, Source.analyze text = .error f → Source.compile text = .error f) ∧
    ∀ a, Source.analyze text = .ok a → ∀ n,
      (a.after n).generate.1 = Source.compile text ∧
      (a.after (n + 1)).symbols = (a.after 1).symbols ∧
      (a.after (n + 1)).symbols.render = (a.after 1).symbols.render ∧
      (a.after (n + 1)).log = (a.after 1).log := by
  have hanalyze : Source.analyze text = (Source.parse text).map .ofProgram := rfl
  rw [hanalyze]
  unfold Source.compile
  cases Source.parse text with
  | error g =>
    refine ⟨fun f h => ?_, fun a h => ?_⟩
    · exact congrArg _ (Except.error.inj h)
    · cases h
  | ok p =>
    refine ⟨fun f h => ?_, fun a h n => ?_⟩
    · cases h
    · obtain rfl := Except.ok.inj h
      rw [after_succ]
      exact ⟨generate_after p n, rfl, rfl, rfl⟩

/-- The third call for code gives what the first gave, and finds the registers as they were; and a
text that ends within a declaration has neither an analysis nor code. -/
theorem generate_repeated_half :
    (∃ a, Source.analyze "float b;int a;b=a/2;" = .ok a ∧
      (a.after 2).generate.1 = .ok "lb 2 / 5 k sa 0 k" ∧
      (a.after 3).symbols = (a.after 1).symbols) ∧
    ∃ f, Source.analyze "int a" = .error f ∧ Source.compile "int a" = .error f := by
  have hcode : Source.compile "float b;int a;b=a/2;" = .ok "lb 2 / 5 k sa 0 k" := by decide +kernel
  have hbroken : Source.analyze "int a" =
      .error (.grammar (.refused (some .semicolon) ⟨.endOfText, ⟨1, 6⟩, none⟩)) := by
    decide +kernel
  refine ⟨?_, _, hbroken, (generate_repeated "int a").1 _ hbroken⟩
  obtain ⟨herror, hok⟩ := generate_repeated "float b;int a;b=a/2;"
  cases h : Source.analyze "float b;int a;b=a/2;" with
  | error f => cases hcode.symm.trans (herror f h)
  | ok a => exact ⟨a, rfl, (hok a h 2).1.trans hcode, (hok a h 2).2.1⟩

end Analysis
end DeskCalc
