import DeskCalc.Proofs.Runs
import DeskCalc.Proofs.Spelling

/-!
# Columns of a listing

The listing of the variables of a compiled text has a line for each of them, in the order of their
declarations, with the name, the type and the register (`listing_columns`).  The name is filled up
to twelve characters and the type to eight, and nothing else stands between two columns.  Of a type
there are always spaces left behind it.  Of a name there are as long as it is shorter than its
column; from twelve characters on the type follows without a gap, and whoever takes the line apart
at its spaces finds the two of them as one word (`listing_columns_glued`).

* `lines`      the lines of a text, without the line feeds;
* `isSpace`    the characters that part words, in any script;
* `fields`     the words of a line (`fields_column`: a column and what follows it).
-/

namespace DeskCalc

/-! ## Lines and fields -/

/-- the lines of a text; a line feed at its end opens no further line -/
def lines (text : String) : List (List Char) :=
  let ls := text.toList.splitOn '\n'
  if ls.getLast? = some [] then ls.dropLast else ls

def isSpace (c : Char) : Bool :=
  (0x09 ≤ c.toNat && c.toNat ≤ 0x0d) || c.toNat == 0x20 || c.toNat == 0x85 || c.toNat == 0xa0 ||
    c.toNat == 0x1680 || (0x2000 ≤ c.toNat && c.toNat ≤ 0x200a) || c.toNat == 0x2028 ||
    c.toNat == 0x2029 || c.toNat == 0x202f || c.toNat == 0x205f || c.toNat == 0x3000

/-- the words of a line, which white space parts -/
def fields (line : List Char) : List String :=
  ((line.splitOnP isSpace).filter (· ≠ [])).map String.ofList

theorem lines_of_flatMap {text : String} {ls : List (List Char)} (h : ∀ l ∈ ls, '\n' ∉ l)
    (htext : text.toList = ls.flatMap (· ++ ['\n'])) : lines text = ls := by
  have hsplit : ∀ {ls : List (List Char)}, (∀ l ∈ ls, '\n' ∉ l) →
      (ls.flatMap (· ++ ['\n'])).splitOn '\n' = ls ++ [[]] := by
    intro ls h
    induction ls with
    | nil => rfl
    | cons l ls ih =>
      obtain ⟨hl, hls⟩ := List.forall_mem_cons.mp h
      rw [List.flatMap_cons, List.append_assoc, List.singleton_append,
        List.splitOn_append_cons_self, List.splitOn_eq_singleton hl, ih hls]
      rfl
  unfold lines
  rw [htext, hsplit h]
  simp

theorem fields_append_space (w rest : List Char) :
    fields (w ++ ' ' :: rest) = fields w ++ fields rest := by
  unfold fields
  rw [List.splitOnP_append_cons w rest (by decide), List.filter_append, List.map_append]

theorem fields_spaces (n : Nat) (rest : List Char) :
    fields (List.replicate n ' ' ++ rest) = fields rest := by
  induction n with
  | zero => rfl
  | succ n ih =>
    rw [List.replicate_succ, List.cons_append]
    show fields ([] ++ ' ' :: _) = _
    rw [fields_append_space, ih]
    rfl

theorem fields_word {w : List Char} (hne : w ≠ []) (h : ∀ c ∈ w, isSpace c = false) :
    fields w = [String.ofList w] := by
  unfold fields
  rw [List.splitOnP_eq_singleton h]
  simp [hne]

/-- **A column.**  A word that does not fill its column is a field of its own. -/
theorem fields_column {w : List Char} (hne : w ≠ []) (h : ∀ c ∈ w, isSpace c = false) {n : Nat}
    (hn : 0 < n) (rest : List Char) :
    fields (w ++ (List.replicate n ' ' ++ rest)) = String.ofList w :: fields rest := by
  obtain ⟨m, rfl⟩ := Nat.exists_eq_add_of_lt hn
  have hsplit : List.replicate (0 + m + 1) ' ' ++ rest = ' ' :: (List.replicate m ' ' ++ rest) := by
    rw [Nat.zero_add, List.replicate_succ, List.cons_append]
  rw [hsplit, fields_append_space, fields_spaces, fields_word hne h]
  rfl

/-! ## Entries -/

theorem isSpace_of_isLetter {c : Char} (h : isLetter c = true) : isSpace c = false := by
  have hlow : ∀ d : Char, 'a' ≤ d ↔ 97 ≤ d.toNat := fun _ => Iff.rfl
  have hhigh : ∀ d : Char, d ≤ 'z' ↔ d.toNat ≤ 122 := fun _ => Iff.rfl
  rw [isLetter, Bool.and_eq_true, decide_eq_true_eq, decide_eq_true_eq, hlow, hhigh] at h
  simp only [isSpace, Bool.or_eq_false_iff, Bool.and_eq_false_iff, decide_eq_false_iff_not,
    beq_eq_false_iff_ne]
  omega

/-- the lines of a listing above those of the entries -/
def listingHead : List (List Char) := ["symbol table".toList, "=============".toList]

theorem toList_heading :
    "symbol table\n=============\n".toList = listingHead.flatMap (· ++ ['\n']) := by
  decide +kernel

namespace SymbolTable

def line (s : Symbol) (r : Char) : List Char :=
  s.name.toList ++ (List.replicate (12 - s.name.length) ' ' ++
    (s.type.name.toList ++ (List.replicate (8 - s.type.name.length) ' ' ++ [r])))

theorem toList_row {s : Symbol} {r : Char} (h : s.register = some r) :
    (row s).toList = line s r ++ ['\n'] := by
  simp [row, line, h, Text.toList_padRight]

theorem lineFeed_not_mem_line {s : Symbol} {r : Char} (hs : IsName s.name)
    (hr : isLetter r = true) : '\n' ∉ line s r := by
  have hname : '\n' ∉ s.name.toList := hs.not_mem (by decide)
  have htype : '\n' ∉ s.type.name.toList := by cases s.type <;> decide
  have hletter : '\n' ≠ r := by
    rintro rfl
    exact absurd hr (by decide)
  simp [line, hname, htype, hletter]

theorem fields_type (t : NumType) {r : Char} (hr : isLetter r = true) (w : List Char)
    (hw : ∀ c ∈ w, isSpace c = false) :
    fields (w ++ (t.name.toList ++ (List.replicate (8 - t.name.length) ' ' ++ [r]))) =
      [String.ofList w ++ t.name, String.singleton r] := by
  have hspace : ∀ c ∈ t.name.toList, isSpace c = false := by
    have hall : (t.name.toList.all fun c => !isSpace c) = true := by cases t <;> decide
    simpa using hall
  have hne : w ++ t.name.toList ≠ [] := by cases t <;> simp [NumType.name]
  have hgap : 0 < 8 - t.name.length := by cases t <;> decide
  have hcolumn := fields_column hne (List.forall_mem_append.mpr ⟨hw, hspace⟩) hgap [r]
  rw [List.append_assoc] at hcolumn
  rw [hcolumn, fields_word (List.cons_ne_nil r [])
    (List.forall_mem_singleton.mpr (isSpace_of_isLetter hr)), String.ofList_append,
    String.ofList_toList]
  rfl

/-- A name that is shorter than its column stands alone. -/
theorem fields_line_of_lt {s : Symbol} {r : Char} (hs : IsName s.name) (hr : isLetter r = true)
    (h : s.name.length < 12) :
    fields (line s r) = [s.name, s.type.name, String.singleton r] := by
  have hspace : ∀ c ∈ s.name.toList, isSpace c = false :=
    fun c hc => isSpace_of_isLetter (hs.2.1 c hc)
  have hgap : 0 < 12 - s.name.length := by omega
  have htype := fields_type s.type hr [] (List.forall_mem_nil _)
  rw [List.nil_append] at htype
  rw [line, fields_column hs.1 hspace hgap, htype, String.ofList_toList]
  simp

/-- A name that fills its column and the type behind it are one word. -/
theorem fields_line_of_le {s : Symbol} {r : Char} (hs : IsName s.name) (hr : isLetter r = true)
    (h : 12 ≤ s.name.length) :
    fields (line s r) = [s.name ++ s.type.name, String.singleton r] := by
  have hspace : ∀ c ∈ s.name.toList, isSpace c = false :=
    fun c hc => isSpace_of_isLetter (hs.2.1 c hc)
  have hgap : 12 - s.name.length = 0 := by omega
  rw [line, hgap, List.replicate_zero, List.nil_append, fields_type s.type hr _ hspace,
    String.ofList_toList]

theorem toList_render (t : SymbolTable) :
    t.render.toList = listingHead.flatMap (· ++ ['\n']) ++
      t.entries.flatMap fun s => (row s).toList := by
  refine String.toList_append.trans ?_
  rw [toList_heading, Text.toList_joinWith_empty, List.flatMap_map]

end SymbolTable

/-! ## Listings -/

/-- the lines of entries that have the registers in their order -/
def listingRows (ds : List Symbol) : List (List Char) :=
  ds.zipWith SymbolTable.line registers.toList

theorem listingRows_inv {ds : List Symbol} {k : Nat} {row : List Char}
    (h : (listingRows ds)[k]? = some row) :
    ∃ s r, ds[k]? = some s ∧ registers.toList[k]? = some r ∧ isLetter r = true ∧
      row = SymbolTable.line s r := by
  have hletters : ∀ r ∈ registers.toList, isLetter r = true := by decide
  obtain ⟨s, r, hs, hr, rfl⟩ := List.getElem?_zipWith_eq_some.mp h
  exact ⟨s, r, hs, hr, hletters r (List.mem_of_getElem? hr), rfl⟩

theorem rows_allocated {ds : List Symbol} (h : ds.length ≤ 26) :
    (allocated ds ds.length).table.entries.map (fun s => (SymbolTable.row s).toList) =
      (listingRows ds).map (· ++ ['\n']) := by
  apply List.ext_getElem?
  intro k
  have he : (allocated ds ds.length).table.entries[k]? = _ := entry?_allocated ds ds.length k
  rw [List.getElem?_map, List.getElem?_map, he, listingRows, List.getElem?_zipWith]
  cases hs : ds[k]? with
  | none => rfl
  | some s =>
    have hk : k < ds.length := (List.getElem?_eq_some_iff.mp hs).1
    have hk' : k < registers.toList.length := by
      rw [length_registers]
      omega
    rw [List.getElem?_eq_getElem hk']
    simp only [Option.map_some, if_pos hk]
    rw [SymbolTable.toList_row rfl]
    rfl

theorem lines_render_allocated {ds : List Symbol} (h : ds.length ≤ 26)
    (hs : ∀ s ∈ ds, IsName s.name) :
    lines (allocated ds ds.length).table.render = listingHead ++ listingRows ds := by
  have hhead : ∀ row ∈ listingHead, '\n' ∉ row := by decide +kernel
  apply lines_of_flatMap
  · refine List.forall_mem_append.mpr ⟨hhead, fun row hrow => ?_⟩
    obtain ⟨k, hk⟩ := List.mem_iff_getElem?.mp hrow
    obtain ⟨s, r, hsk, -, hr, rfl⟩ := listingRows_inv hk
    exact SymbolTable.lineFeed_not_mem_line (hs s (List.mem_of_getElem? hsk)) hr
  · rw [SymbolTable.toList_render, List.flatMap_append]
    simp only [List.flatMap_def]
    rw [rows_allocated h]

/-! ## Compilations -/

theorem isName_of_mem_declarations {is : List Item} (h : ∀ i ∈ is, i.Spelled) :
    ∀ s ∈ declarations is, IsName s.name := by
  intro s hs
  obtain ⟨i, hi, hentry⟩ := List.mem_filterMap.mp hs
  have hi := h i hi
  cases i with
  | declare declared id type p =>
    obtain rfl := Option.some.inj hentry
    exact hi
  | assign target value type p => cases hentry
  | print id type p => cases hentry

theorem Analysis.compiler_generate (p : Program) :
    (ofProgram p).generate.2.compiler = (Compiler.compile {} p).2.2 := by
  by_cases h : (Compiler.check {} p).2.log.entries = []
  · rw [generate_of_faultless (a := ofProgram p) h, Compiler.compile_of_faultless h]
    rfl
  · rw [generate_of_faults (a := ofProgram p) h, Compiler.compile_of_faults h]
    rfl

theorem symbols_generate {text code : String} {p : Program} (hp : Source.parse text = .ok p)
    (h : Source.compile text = .ok code) :
    (declarations p.items).length ≤ 26 ∧ (Analysis.ofProgram p).generate.2.symbols =
      (allocated (declarations p.items) (declarations p.items).length).table := by
  have hcode : (Compiler.compile {} p).1 = .ok code := by
    rw [Source.compile, hp] at h
    exact h
  rcases compile_cases {} p with ⟨-, hbad⟩ | ⟨-, _, hbad⟩ | ⟨hlog, hlen, -⟩
  · cases hbad.symm.trans hcode
  · cases hbad.symm.trans hcode
  · refine ⟨length_declaredIdentifiers p.items ▸ hlen, ?_⟩
    rw [Analysis.symbols, Analysis.compiler_generate]
    exact (compile_of_enough hlog hlen).2

theorem report_symbols {text code : String} {p : Program} (hp : Source.parse text = .ok p)
    (h : Source.compile text = .ok code) :
    Emit.symbols.report text = .success (Analysis.ofProgram p).generate.2.symbols.render := by
  have hcode : (Analysis.ofProgram p).generate.1 = .ok code := by
    rw [Source.compile, hp] at h
    rw [Analysis.generate_fst]
    exact h
  simp only [Emit.report, Source.analyze_of_parse hp, Report.ofAnalysis]
  rw [Report.ofFaultless_eq fun f hf => by cases hcode.symm.trans hf]
  rcases hg : (Analysis.ofProgram p).generate with ⟨r, b⟩
  rw [hg] at hcode
  obtain rfl : r = .ok code := hcode
  rfl

/-- **The lines of a listing.**  Behind a compilation the listing has two lines of a heading and
then one for each declared variable, in the order of the declarations.  A line has three fields, the
name, the type and the register, if the name is shorter than twelve characters; otherwise it has
two, because nothing parts the name from the type. -/
theorem listing_columns {text code : String} (h : Source.compile text = .ok code) :
    ∃ p rows, Source.parse text = .ok p ∧
      Emit.symbols.report text = .success (Analysis.ofProgram p).generate.2.symbols.render ∧
      lines (Analysis.ofProgram p).generate.2.symbols.render = listingHead ++ rows ∧
      rows.length = (declarations p.items).length ∧
      ∀ (k : Nat) (row : List Char), rows[k]? = some row →
        ∃ s r, (declarations p.items)[k]? = some s ∧ registers.toList[k]? = some r ∧
          (s.name.length < 12 → fields row = [s.name, s.type.name, String.singleton r]) ∧
          (12 ≤ s.name.length → fields row = [s.name ++ s.type.name, String.singleton r]) := by
  cases hp : Source.parse text with
  | error f =>
    rw [Source.compile, hp] at h
    cases h
  | ok p =>
    have hnames := isName_of_mem_declarations (spelled_of_parse hp)
    obtain ⟨hlen, hsymbols⟩ := symbols_generate hp h
    refine ⟨p, listingRows (declarations p.items), rfl, report_symbols hp h, ?_, ?_, ?_⟩
    · rw [hsymbols, lines_render_allocated hlen hnames]
    · rw [listingRows, List.length_zipWith, length_registers]
      exact Nat.min_eq_left hlen
    · intro k row hrow
      obtain ⟨s, r, hs, hr, hletter, rfl⟩ := listingRows_inv hrow
      have hname := hnames s (List.mem_of_getElem? hs)
      exact ⟨s, r, hs, hr, SymbolTable.fields_line_of_lt hname hletter,
        SymbolTable.fields_line_of_le hname hletter⟩

/-- A listing with both kinds of names: `total` has its column for itself, the long name has not. -/
theorem listing_columns_long :
    ∃ p rows, Source.parse "int total;float abcdefghijklmn;" = .ok p ∧
      Source.compile "int total;float abcdefghijklmn;" = .ok "" ∧
      lines (Analysis.ofProgram p).generate.2.symbols.render = listingHead ++ rows ∧
      rows.length = 2 ∧
      rows.map fields = [["total", "INT", "a"], ["abcdefghijklmnFLOAT", "b"]] := by
  have hcode : Source.compile "int total;float abcdefghijklmn;" = .ok "" := by decide +kernel
  have hparse : Source.parse "int total;float abcdefghijklmn;" =
      .ok { items := [.declare .int { name := "total", pos := ⟨1, 5⟩ } none ⟨1, 1⟩,
        .declare .float { name := "abcdefghijklmn", pos := ⟨1, 17⟩ } none ⟨1, 11⟩] } := by
    decide +kernel
  obtain ⟨p, rows, hp, -, hlines, hlen, hrows⟩ := listing_columns hcode
  obtain rfl := Except.ok.inj (hp.symm.trans hparse)
  refine ⟨_, rows, hp, hcode, hlines, hlen, ?_⟩
  match rows, hlen with
  | [r₀, r₁], _ =>
    obtain ⟨s₀, l₀, hs₀, hl₀, hshort, -⟩ := hrows 0 r₀ rfl
    obtain ⟨s₁, l₁, hs₁, hl₁, -, hlong⟩ := hrows 1 r₁ rfl
    obtain rfl := Option.some.inj hs₀
    obtain rfl := Option.some.inj hs₁
    obtain rfl : 'a' = l₀ := Option.some.inj hl₀
    obtain rfl : 'b' = l₁ := Option.some.inj hl₁
    rw [List.map_cons, List.map_cons, hshort (by decide), hlong (by decide)]
    decide

/-- A name of twelve letters in a listing: its line has two fields, and the first of them is neither
the name nor a type. -/
theorem listing_columns_glued :
    Source.compile "int abcdefghijkl;" = .ok "" ∧
      Emit.symbols.report "int abcdefghijkl;" =
        .success "symbol table\n=============\nabcdefghijklINT     a\n" ∧
      (lines "symbol table\n=============\nabcdefghijklINT     a\n").map fields =
        [["symbol", "table"], ["============="], ["abcdefghijklINT", "a"]] ∧
      ["abcdefghijklINT", "a"] ≠ ["abcdefghijkl", "INT", "a"] := by
  refine ⟨?_, ?_, ?_, ?_⟩ <;> decide +kernel

end DeskCalc
