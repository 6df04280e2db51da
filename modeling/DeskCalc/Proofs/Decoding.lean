import DeskCalc.Proofs.Outcome
import DeskCalc.Proofs.Spelling

/-!
# Reading code back

The text of a row of instructions is a row of words with single spaces between them: one word for an
instruction, and two for a precision, its digits and the word `k`.  So a number can be told from a
precision by the next word only.  That never misleads, because the first word of an instruction is
not `k`, and a word that stands alone is one instruction and no other (`decodeWords_codeWords`).

This holds of instructions that are spelled: a number is a literal and a register a letter.  Code
that was made of a text is spelled: its numbers come from the text (`spelled_of_parse`), and its
registers from `registers`, by way of an allocation that never holds any other (`Lettered`).

* `Instruction.words`, `decode`   the words of an instruction, and the instructions of a text;
* `Tidy`                          no space at the ends, and no two spaces side by side;
* `decode_compile`                the code of a text is tidy and is read back.
-/

namespace DeskCalc

/-! ## Words -/

/-- digits, with at most one point among them -/
def isNumeral (w : List Char) : Bool :=
  w.all (fun c => isDigit c || c == '.') && w.any isDigit && decide (w.count '.' ≤ 1)

/-- the number that a word of digits is -/
def number? (w : List Char) : Option Nat :=
  if w.all isDigit && !w.isEmpty then some (Nat.ofDigitChars 10 w 0) else none

namespace Instruction

def words : Instruction → List (List Char)
  | push number => [number.toList]
  | load r => [['l', r]]
  | store r => [['s', r]]
  | precision digits => [Nat.toDigits 10 digits, ['k']]
  | arith op => [[op.symbol]]
  | print => [['p']]
  | pop => [['P']]

/-- the instruction that a word is when no `k` follows it -/
def ofWord? (w : List Char) : Option Instruction :=
  if isNumeral w then some (push (String.ofList w))
  else
    match w with
    | ['l', r] => if isLetter r then some (load r) else none
    | ['s', r] => if isLetter r then some (store r) else none
    | ['+'] => some (arith .plus)
    | ['-'] => some (arith .minus)
    | ['*'] => some (arith .times)
    | ['/'] => some (arith .divide)
    | ['p'] => some print
    | ['P'] => some pop
    | _ => none

/-- a number is a literal, and a register a letter -/
def Spelled : Instruction → Prop
  | push number => ∃ d : NumType, d.IsLiteral number
  | load r | store r => isLetter r = true
  | precision _ | arith _ | print | pop => True

end Instruction

/-- the instructions of a row of words: a word before a `k` is a precision -/
def decodeWords : List (List Char) → Option (List Instruction)
  | [] => some []
  | w :: ['k'] :: ws =>
    (number? w).bind fun n => (decodeWords ws).map (.precision n :: ·)
  | w :: ws => (Instruction.ofWord? w).bind fun i => (decodeWords ws).map (i :: ·)

/-- the instructions of a text whose words are parted by single spaces -/
def decode (text : String) : Option (List Instruction) :=
  decodeWords (if text = "" then [] else text.toList.splitOn ' ')

/-- no space at the ends, and no two spaces side by side -/
structure Tidy (cs : List Char) : Prop where
  head : cs.head? ≠ some ' '
  last : cs.getLast? ≠ some ' '
  single : ¬ [' ', ' '] <:+: cs

/-! ## Words are instructions -/

theorem isNumeral_of_isLiteral {d : NumType} {w : String} (h : d.IsLiteral w) :
    isNumeral w.toList = true := by
  have hcount : ∀ cs : List Char, (∀ c ∈ cs, isDigit c = true) → cs.count '.' = 0 := by
    intro cs hcs
    refine List.count_eq_zero_of_not_mem fun hmem => ?_
    exact absurd (hcs _ hmem) (by decide)
  rw [isNumeral, Bool.and_eq_true, Bool.and_eq_true, List.all_eq_true, List.any_eq_true,
    decide_eq_true_eq]
  cases d with
  | int =>
    obtain ⟨hne, hd⟩ := h
    obtain ⟨c, hc⟩ := List.exists_mem_of_ne_nil _ hne
    refine ⟨⟨fun c hc => by rw [hd c hc, Bool.true_or], c, hc, hd c hc⟩, ?_⟩
    rw [hcount _ hd]
    omega
  | float =>
    obtain ⟨digits, fraction, hw, hd, hf, hlen, -⟩ := h
    obtain ⟨c, hc⟩ := List.exists_mem_of_length_pos hlen
    rw [hw]
    refine ⟨⟨fun c hc => ?_, c, by simp [hc], hf c hc⟩, ?_⟩
    · rcases List.mem_append.mp hc with hc | hc
      · rw [hd c hc, Bool.true_or]
      · rcases List.mem_cons.mp hc with rfl | hc
        · decide
        · rw [hf c hc, Bool.true_or]
    · rw [List.count_append, List.count_cons_self, hcount _ hd, hcount _ hf]

theorem all_isDigit_toDigits (n : Nat) : (Nat.toDigits 10 n).all isDigit = true := by
  rw [List.all_eq_true]
  intro c hc
  have hdigit := Nat.isDigit_of_mem_toDigits (by omega) (by omega) hc
  simpa [isDigit, Char.isDigit, Char.le_def] using hdigit

theorem number?_toDigits (n : Nat) : number? (Nat.toDigits 10 n) = some n := by
  have hne : (Nat.toDigits 10 n).isEmpty = false := List.isEmpty_eq_false_iff.mpr Nat.toDigits_ne_nil
  rw [number?, all_isDigit_toDigits, hne]
  exact congrArg some (Nat.ofDigitChars_toDigits (by omega) (by omega))

/-- a word that can begin an instruction -/
structure IsWord (w : List Char) : Prop where
  nonempty : w ≠ []
  space : ' ' ∉ w
  ne_k : w ≠ ['k']

theorem not_mem_of_isNumeral {w : List Char} (h : isNumeral w = true) {c : Char}
    (hd : isDigit c = false) (hp : c ≠ '.') : c ∉ w := by
  intro hmem
  rw [isNumeral, Bool.and_eq_true, Bool.and_eq_true, List.all_eq_true] at h
  have hc := h.1.1 c hmem
  simp [hd, hp] at hc

theorem isWord_of_isNumeral {w : List Char} (h : isNumeral w = true) : IsWord w where
  nonempty := by
    rintro rfl
    cases h
  space := not_mem_of_isNumeral h (by decide) (by decide)
  ne_k := by
    rintro rfl
    exact absurd h (by decide)

theorem isWord_of_letter {c r : Char} (hc : c ≠ ' ') (h : isLetter r = true) : IsWord [c, r] where
  nonempty := List.cons_ne_nil _ _
  space := by
    have hr : r ≠ ' ' := by
      rintro rfl
      exact absurd h (by decide)
    simp [hc.symm, hr.symm]
  ne_k := by simp

theorem isNumeral_toDigits (n : Nat) : isNumeral (Nat.toDigits 10 n) = true := by
  have hdigits := List.all_eq_true.mp (all_isDigit_toDigits n)
  have hlit : NumType.int.IsLiteral (String.ofList (Nat.toDigits 10 n)) := by
    rw [NumType.IsLiteral, String.toList_ofList]
    exact ⟨Nat.toDigits_ne_nil, hdigits⟩
  simpa using isNumeral_of_isLiteral hlit

namespace Instruction

/-- A spelled instruction is a precision, or a single word that means this instruction. -/
theorem words_cases {i : Instruction} (h : i.Spelled) :
    (∃ n, i = precision n) ∨ ∃ w, i.words = [w] ∧ IsWord w ∧ ofWord? w = some i := by
  cases i with
  | push number =>
    obtain ⟨d, hd⟩ := h
    have hw := isNumeral_of_isLiteral hd
    refine .inr ⟨number.toList, rfl, isWord_of_isNumeral hw, ?_⟩
    unfold ofWord?
    rw [if_pos hw, String.ofList_toList]
  | load r => exact .inr ⟨['l', r], rfl, isWord_of_letter (by decide) h, if_pos h⟩
  | store r => exact .inr ⟨['s', r], rfl, isWord_of_letter (by decide) h, if_pos h⟩
  | precision n => exact .inl ⟨n, rfl⟩
  | arith op => cases op <;> exact .inr ⟨_, rfl, ⟨by decide, by decide, by decide⟩, rfl⟩
  | print => exact .inr ⟨['p'], rfl, ⟨by decide, by decide, by decide⟩, rfl⟩
  | pop => exact .inr ⟨['P'], rfl, ⟨by decide, by decide, by decide⟩, rfl⟩

theorem words_ne_nil (i : Instruction) : i.words ≠ [] := by
  cases i <;> exact List.cons_ne_nil _ _

theorem head_words {i : Instruction} (h : i.Spelled) : ∃ w ws, i.words = w :: ws ∧ IsWord w := by
  rcases words_cases h with ⟨n, rfl⟩ | ⟨w, hw, hword, -⟩
  · exact ⟨_, _, rfl, isWord_of_isNumeral (isNumeral_toDigits n)⟩
  · exact ⟨w, [], hw, hword⟩

theorem mem_words {i : Instruction} (h : i.Spelled) : ∀ w ∈ i.words, w ≠ [] ∧ ' ' ∉ w := by
  rcases words_cases h with ⟨n, rfl⟩ | ⟨w, hw, hword, -⟩
  · have hdigits := isWord_of_isNumeral (isNumeral_toDigits n)
    intro w hw
    rcases List.mem_pair.mp hw with rfl | rfl
    · exact ⟨hdigits.nonempty, hdigits.space⟩
    · exact ⟨by decide, by decide⟩
  · rw [hw, List.forall_mem_singleton]
    exact ⟨hword.nonempty, hword.space⟩

end Instruction

/-! ## Rows of words -/

def codeWords (code : List Instruction) : List (List Char) := code.flatMap Instruction.words

theorem codeWords_cons (i : Instruction) (code : List Instruction) :
    codeWords (i :: code) = i.words ++ codeWords code := List.flatMap_cons

theorem codeWords_ne_nil (i : Instruction) (code : List Instruction) : codeWords (i :: code) ≠ [] := by
  rw [codeWords_cons]
  exact List.append_ne_nil_of_left_ne_nil i.words_ne_nil _

theorem nil_not_mem_codeWords {code : List Instruction} (h : ∀ i ∈ code, i.Spelled) :
    [] ∉ codeWords code := by
  intro hmem
  obtain ⟨i, hi, hw⟩ := List.mem_flatMap.mp hmem
  exact (Instruction.mem_words (h i hi) [] hw).1 rfl

theorem decodeWords_precision (n : Nat) (ws : List (List Char)) :
    decodeWords (Nat.toDigits 10 n :: ['k'] :: ws) = (decodeWords ws).map (.precision n :: ·) := by
  rw [decodeWords, number?_toDigits]
  rfl

theorem decodeWords_cons {w : List Char} {ws : List (List Char)} (h : ws.head? ≠ some ['k']) :
    decodeWords (w :: ws) =
      (Instruction.ofWord? w).bind fun i => (decodeWords ws).map (i :: ·) := by
  rw [decodeWords]
  rintro vs rfl
  exact h rfl

theorem head?_codeWords {code : List Instruction} (h : ∀ i ∈ code, i.Spelled) :
    (codeWords code).head? ≠ some ['k'] := by
  cases code with
  | nil => simp [codeWords]
  | cons i code =>
    obtain ⟨w, ws, hw, hword⟩ := Instruction.head_words (h i List.mem_cons_self)
    rw [codeWords_cons, hw]
    intro e
    exact hword.ne_k (Option.some.inj e)

/-- **A row of words has one reading.** -/
theorem decodeWords_codeWords {code : List Instruction} (h : ∀ i ∈ code, i.Spelled) :
    decodeWords (codeWords code) = some code := by
  induction code with
  | nil => rfl
  | cons i code ih =>
    obtain ⟨hi, hcode⟩ := List.forall_mem_cons.mp h
    rw [codeWords_cons]
    rcases Instruction.words_cases hi with ⟨n, rfl⟩ | ⟨w, hw, -, hword⟩
    · show decodeWords (_ :: ['k'] :: codeWords code) = _
      rw [decodeWords_precision, ih hcode]
      rfl
    · rw [hw, List.singleton_append, decodeWords_cons (head?_codeWords hcode), hword, ih hcode]
      rfl

/-! ## Texts -/

theorem intercalate_append {xs ys : List (List Char)} (hx : xs ≠ []) (hy : ys ≠ []) :
    [' '].intercalate (xs ++ ys) = [' '].intercalate xs ++ ' ' :: [' '].intercalate ys := by
  induction xs with
  | nil => exact absurd rfl hx
  | cons x xs ih =>
    by_cases hxs : xs = []
    · subst hxs
      rw [List.singleton_append, List.intercalate_cons_of_ne_nil hy, List.intercalate_singleton]
      simp
    · have hne : xs ++ ys ≠ [] := List.append_ne_nil_of_left_ne_nil hxs ys
      rw [List.cons_append, List.intercalate_cons_of_ne_nil hne,
        List.intercalate_cons_of_ne_nil hxs, ih hxs]
      simp only [List.append_assoc]

theorem toList_render (i : Instruction) : i.render.toList = [' '].intercalate i.words := by
  cases i with
  | precision n =>
    show (toString n ++ " k").toList = _
    rw [String.toList_append, Nat.toString_eq_repr, Nat.toList_repr, Instruction.words,
      List.intercalate_cons_cons, List.intercalate_singleton]
    simp
  | push | load | store | arith | print | pop =>
    simp [Instruction.render, Instruction.words]

theorem toList_codeText (code : List Instruction) :
    (codeText code).toList = [' '].intercalate (codeWords code) := by
  induction code with
  | nil => rfl
  | cons i code ih =>
    cases code with
    | nil =>
      show i.render.toList = _
      rw [toList_render, codeWords_cons]
      simp [codeWords]
    | cons j code =>
      show (i.render ++ " " ++ codeText (j :: code)).toList = _
      rw [String.toList_append, String.toList_append, ih, toList_render, codeWords_cons i,
        intercalate_append i.words_ne_nil (codeWords_ne_nil j code), List.append_assoc]
      rfl

theorem splitOn_codeText {i : Instruction} {code : List Instruction}
    (h : ∀ j ∈ i :: code, j.Spelled) :
    (codeText (i :: code)).toList.splitOn ' ' = codeWords (i :: code) := by
  rw [toList_codeText]
  refine List.splitOn_intercalate ' ' (fun w hw => ?_) (codeWords_ne_nil i code)
  obtain ⟨j, hj, hw⟩ := List.mem_flatMap.mp hw
  exact (Instruction.mem_words (h j hj) w hw).2

theorem tidy_of_splitOn {cs : List Char} (h : [] ∉ cs.splitOn ' ') : Tidy cs := by
  have hsplit : ∀ before after : List Char, cs = before ++ ' ' :: after →
      [] ∉ before.splitOn ' ' ∧ [] ∉ after.splitOn ' ' := by
    rintro before after rfl
    rw [List.splitOn_append_cons_self, List.mem_append, not_or] at h
    exact h
  have hnil : [] ∈ List.splitOn ' ' ([] : List Char) := by simp
  refine ⟨fun hhead => ?_, fun hlast => ?_, fun hdouble => ?_⟩
  · obtain ⟨after, rfl⟩ := List.head?_eq_some_iff.mp hhead
    exact (hsplit [] after rfl).1 hnil
  · obtain ⟨before, rfl⟩ := List.getLast?_eq_some_iff.mp hlast
    exact (hsplit before [] rfl).2 hnil
  · obtain ⟨before, after, rfl⟩ := hdouble
    have happ : before ++ [' ', ' '] ++ after = before ++ ' ' :: ([] ++ ' ' :: after) := by simp
    have hback := (hsplit before _ happ).2
    rw [List.splitOn_append_cons_self] at hback
    exact hback (List.mem_append_left _ hnil)

theorem tidy_codeText {code : List Instruction} (h : ∀ i ∈ code, i.Spelled) :
    Tidy (codeText code).toList := by
  cases code with
  | nil => exact ⟨by simp [codeText], by simp [codeText], by simp [codeText]⟩
  | cons i code =>
    refine tidy_of_splitOn ?_
    rw [splitOn_codeText h]
    exact nil_not_mem_codeWords h

/-- **Spelled code is read back from its text.** -/
theorem decode_codeText {code : List Instruction} (h : ∀ i ∈ code, i.Spelled) :
    decode (codeText code) = some code := by
  cases code with
  | nil => rfl
  | cons i code =>
    have hne : codeText (i :: code) ≠ "" := by
      intro e
      have hwords := splitOn_codeText h
      rw [e] at hwords
      exact nil_not_mem_codeWords h (hwords ▸ List.mem_singleton_self [])
    rw [decode, if_neg hne, splitOn_codeText h]
    exact decodeWords_codeWords h

/-! ## Emitted code is spelled -/

def SymbolTable.Lettered (t : SymbolTable) : Prop :=
  ∀ s ∈ t.entries, ∀ r ∈ s.register, isLetter r = true

/-- the registers that are given away and those that are free are letters -/
structure Allocation.Lettered (a : Allocation) : Prop where
  table : a.table.Lettered
  free : ∀ r ∈ a.free, isLetter r = true

theorem isLetter_of_register? {t : SymbolTable} (ht : t.Lettered) {id : Identifier} {r : Char}
    (h : t.register? id = some r) : isLetter r = true := by
  obtain ⟨k, -, hr⟩ := Option.bind_eq_some_iff.mp h
  obtain ⟨s, hs, hr⟩ := Option.bind_eq_some_iff.mp hr
  exact ht s (List.mem_of_getElem? hs) r hr

theorem SymbolTable.Lettered.setRegister {t : SymbolTable} (ht : t.Lettered) {r : Char}
    (hr : isLetter r = true) (k : Handle) : (t.setRegister k (some r)).Lettered := by
  intro s hs
  obtain ⟨j, hj⟩ := List.mem_iff_getElem?.mp hs
  change (t.entries.modify k _)[j]? = some s at hj
  rw [List.getElem?_modify] at hj
  obtain ⟨s', hs', rfl⟩ := Option.map_eq_some_iff.mp hj
  split
  · intro r' hr'
    obtain rfl := Option.some.inj hr'
    exact hr
  · exact ht s' (List.mem_of_getElem? hs')

theorem Allocation.Lettered.emit {a : Allocation} (ha : a.Lettered) (i : Item) :
    (i.emit a).2.Lettered := by
  cases i with
  | declare declared id type p =>
    rw [Item.emit]
    cases hd : a.declare id with
    | error f => exact ha
    | ok b =>
      obtain ⟨k, r, -, hfree, htable⟩ := declare_inv hd
      have hletters := ha.free
      rw [hfree, List.forall_mem_cons] at hletters
      refine ⟨?_, hletters.2⟩
      rw [htable]
      exact ha.table.setRegister hletters.1 k
  | assign target value type p => exact ha
  | print id type p => exact ha

theorem mem_code_andThen {a b : Emitted} {x : Instruction} (h : x ∈ (a.andThen b).code) :
    x ∈ a.code ∨ x ∈ b.code := by
  unfold Emitted.andThen at h
  split at h
  · exact .inl h
  · exact List.mem_append.mp h

section Emit
variable {t : SymbolTable}

theorem spelled_emitWith (ht : t.Lettered) (id : Identifier) {code : Char → List Instruction}
    (hcode : ∀ r, isLetter r = true → ∀ x ∈ code r, x.Spelled) :
    ∀ x ∈ (emitWith t id code).code, x.Spelled := by
  unfold emitWith
  cases hr : t.register? id with
  | none => exact fun x hx => absurd hx List.not_mem_nil
  | some r => exact hcode r (isLetter_of_register? ht hr)

theorem spelled_emit_expr (ht : t.Lettered) {e : Expr} (he : e.Spelled) :
    ∀ x ∈ (e.emit t).code, x.Spelled := by
  induction e with
  | const value declared type p => exact List.forall_mem_singleton.mpr ⟨declared, he⟩
  | deref id type p =>
    exact spelled_emitWith ht id fun r hr => List.forall_mem_singleton.mpr hr
  | binary op left right type p ihl ihr =>
    intro x hx
    rcases mem_code_andThen hx with hx | hx
    · rcases mem_code_andThen hx with hx | hx
      · exact ihl he.1 x hx
      · exact ihr he.2 x hx
    · obtain rfl := List.mem_singleton.mp hx
      trivial
  | convert inner type p ih =>
    intro x hx
    rcases mem_code_andThen hx with hx | hx
    · exact ih he x hx
    · obtain rfl := List.mem_singleton.mp hx
      trivial

theorem spelled_emit {a : Allocation} (ha : a.Lettered) {i : Item} (hi : i.Spelled) :
    ∀ x ∈ (i.emit a).1.code, x.Spelled := by
  cases i with
  | declare declared id type p =>
    rw [Item.emit]
    cases a.declare id <;> exact fun x hx => absurd hx List.not_mem_nil
  | assign target value type p =>
    intro x hx
    rcases mem_code_andThen hx with hx | hx
    · exact spelled_emit_expr ha.table hi.2 x hx
    · refine spelled_emitWith ha.table target (fun r hr => ?_) x hx
      exact List.forall_mem_cons.mpr ⟨hr, List.forall_mem_singleton.mpr trivial⟩
  | print id type p =>
    refine spelled_emitWith ha.table id fun r hr => ?_
    exact List.forall_mem_cons.mpr ⟨hr, by simp [Instruction.Spelled]⟩

/-- **The code of spelled items is spelled.** -/
theorem spelled_emitItems {a : Allocation} (ha : a.Lettered) {is : List Item}
    (h : ∀ i ∈ is, i.Spelled) : ∀ x ∈ (emitItems a is).1.code, x.Spelled := by
  induction is generalizing a with
  | nil => exact fun x hx => absurd hx List.not_mem_nil
  | cons i is ih =>
    obtain ⟨hi, his⟩ := List.forall_mem_cons.mp h
    have hitem := spelled_emit ha hi
    cases hf : (i.emit a).1.fault with
    | some f =>
      rw [emitItems_cons_of_fault hf]
      exact hitem
    | none =>
      rw [emitItems_cons_of_none hf]
      intro x hx
      rcases mem_code_andThen hx with hx | hx
      · exact hitem x hx
      · exact ih (ha.emit i) his x hx

end Emit

/-! ## Compilations -/

def Source.instructions (text : String) : List Instruction :=
  match Source.parse text with
  | .error _ => []
  | .ok p => (Compiler.compile {} p).2.2.instructions

theorem lettered_of_faultless {c : Compiler} {p : Program} (h : (c.check p).2.log.entries = []) :
    Allocation.Lettered { table := (c.check p).2.symbols } where
  table := by
    rw [symbols_check_of_faultless h]
    intro s hs r hr
    rw [register_of_mem_declarations hs] at hr
    cases hr
  free := show ∀ r ∈ registers.toList, isLetter r = true by decide

theorem spelled_compile {p : Program} {code : String} (hp : p.Spelled)
    (h : (Compiler.compile {} p).1 = .ok code) :
    (∀ x ∈ (Compiler.compile {} p).2.2.instructions, x.Spelled) ∧
      code = codeText (Compiler.compile {} p).2.2.instructions := by
  obtain ⟨hlog, hitems, -, hcode, htext⟩ := Compiler.compile_inv (Prod.ext h rfl)
  refine ⟨?_, htext⟩
  rw [hcode, hitems]
  exact spelled_emitItems (lettered_of_faultless hlog) (spelled_checkItems .empty hp)

theorem instructions_of_compile {text code : String} (h : Source.compile text = .ok code) :
    (∀ x ∈ Source.instructions text, x.Spelled) ∧ code = codeText (Source.instructions text) := by
  unfold Source.compile at h
  unfold Source.instructions
  cases hp : Source.parse text with
  | error f =>
    rw [hp] at h
    cases h
  | ok p =>
    rw [hp] at h
    exact spelled_compile (spelled_of_parse hp) h

/-- **Code can be read in one way only.**  The code of a text has no space too many, and it is read
back as the instructions that were emitted; so texts with the same code have the same
instructions. -/
theorem decode_compile {text code : String} (h : Source.compile text = .ok code) :
    Tidy code.toList ∧ decode code = some (Source.instructions text) ∧
      ∀ text', Source.compile text' = .ok code →
        Source.instructions text' = Source.instructions text := by
  obtain ⟨hspelled, hcode⟩ := instructions_of_compile h
  have hdecode : decode code = some (Source.instructions text) := by
    rw [hcode]
    exact decode_codeText hspelled
  refine ⟨?_, hdecode, fun text' h' => ?_⟩
  · rw [hcode]
    exact tidy_codeText hspelled
  · obtain ⟨hspelled', hcode'⟩ := instructions_of_compile h'
    have hdecode' := decode_codeText hspelled'
    rw [← hcode', hdecode] at hdecode'
    exact (Option.some.inj hdecode').symm

/-- A number that is a precision, and one that is not. -/
theorem decode_compile_half :
    Source.compile "float a; int b; a = b/.5;" = .ok "lb 5 k .5 / sa 0 k" ∧
      decode "lb 5 k .5 / sa 0 k" =
        some [.load 'b', .precision 5, .push ".5", .arith .divide, .store 'a', .precision 0] ∧
      Source.instructions "float x;int y;x=y/.5;" =
        [.load 'b', .precision 5, .push ".5", .arith .divide, .store 'a', .precision 0] := by
  have h : Source.compile "float a; int b; a = b/.5;" = .ok "lb 5 k .5 / sa 0 k" := by
    decide +kernel
  have h' : Source.compile "float x;int y;x=y/.5;" = .ok "lb 5 k .5 / sa 0 k" := by
    decide +kernel
  obtain ⟨-, hdecode, hsame⟩ := decode_compile h
  have hcode : Source.instructions "float a; int b; a = b/.5;" =
      [.load 'b', .precision 5, .push ".5", .arith .divide, .store 'a', .precision 0] := by
    decide +kernel
  exact ⟨h, hcode ▸ hdecode, (hsame _ h').trans hcode⟩

end DeskCalc
