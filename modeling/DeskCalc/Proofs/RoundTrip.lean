import DeskCalc.Proofs.Parsing
import DeskCalc.Proofs.TreeShape

/-!
# Texts, sentences and trees

A text has a program exactly if its tokens are a sentence of the grammar; the program flattens to
those tokens and is grouped as the grammar says.  And every program of that shape, written down word
by word with blanks between the words, is what the text is read as, up to the places.

* `IsName`, `NumType.IsLiteral`, `Program.Spelled`   names and literals that a text can hold;
* `Layout`, `Program.source`                         blanks around words, and the program with them
                                                     as a text;
* `parse_exact`                                      all of this.
-/

namespace DeskCalc

/-! ## Words -/

/-- letters, but no keyword -/
def IsName (w : String) : Prop :=
  w.toList ≠ [] ∧ (∀ c ∈ w.toList, isLetter c = true) ∧ w ∉ Lexeme.keywords

/-- digits, and for a float a point among them with one to five behind it -/
def NumType.IsLiteral : NumType → String → Prop
  | int, w => w.toList ≠ [] ∧ ∀ c ∈ w.toList, isDigit c = true
  | float, w => ∃ digits fraction : List Char, w.toList = digits ++ '.' :: fraction ∧
      (∀ c ∈ digits, isDigit c = true) ∧ (∀ c ∈ fraction, isDigit c = true) ∧
      1 ≤ fraction.length ∧ fraction.length ≤ 5

def Expr.Spelled : Expr → Prop
  | const value declared _ _ => declared.IsLiteral value
  | deref id _ _ => IsName id.name
  | binary _ left right _ _ => left.Spelled ∧ right.Spelled
  | convert inner _ _ => inner.Spelled

def Item.Spelled : Item → Prop
  | declare _ id _ _ | print id _ _ => IsName id.name
  | assign target value _ _ => IsName target.name ∧ value.Spelled

/-- every name is one, and every literal is one of its type -/
def Program.Spelled (p : Program) : Prop := ∀ i ∈ p.items, i.Spelled

/-- a keyword or a sign in a text; names and literals are spelled by the program -/
def Token.Kind.spelling : Kind → String
  | intType => "int"
  | floatType => "float"
  | print => "print"
  | assign => "="
  | plus => "+"
  | minus => "-"
  | times => "*"
  | divide => "/"
  | semicolon => ";"
  | name | integer | decimal | endOfText => ""

def Trace.spelling (r : Trace) : String := r.value.getD r.kind.spelling

/-- what has to be written for a program, in its order -/
def Program.words (p : Program) : List String := (p.items.flatMap Item.flatten).map Trace.spelling

/-! ## Blanks between words -/

/-- the blanks before the words, counted from zero, and behind the last -/
structure Layout where
  gap : Nat → List Char
  tail : List Char
  gap_blank : ∀ n, ∀ c ∈ gap n, isBlank c = true
  gap_parts : ∀ n, gap (n + 1) ≠ []
  tail_blank : ∀ c ∈ tail, isBlank c = true

/-- the words with their blanks, when the first of them has the number `n` -/
def Layout.write (L : Layout) : Nat → List String → List Char
  | _, [] => L.tail
  | n, w :: ws => L.gap n ++ (w.toList ++ L.write (n + 1) ws)

def Program.source (p : Program) (L : Layout) : String := String.ofList (L.write 0 p.words)

/-- the text is empty or begins with a blank -/
def Parted (rest : List Char) : Prop := ∀ c ∈ rest.head?, isBlank c = true

theorem Layout.parted_write (L : Layout) (n : Nat) (ws : List String) :
    Parted (L.write (n + 1) ws) := by
  intro c hc
  cases ws with
  | nil => exact L.tail_blank c (List.mem_of_mem_head? hc)
  | cons w ws =>
    obtain ⟨d, ds, hd⟩ := List.exists_cons_of_ne_nil (L.gap_parts n)
    rw [write, hd] at hc
    obtain rfl := Option.some.inj hc
    exact L.gap_blank (n + 1) d (hd ▸ List.mem_cons_self)

theorem Parted.stops {rest : List Char} (h : Parted rest) :
    Stops isLetter rest ∧ Stops isDigit rest ∧ rest.head? ≠ some '.' := by
  refine ⟨fun c hc => ?_, fun c hc => ?_, fun hp => ?_⟩
  · rw [Bool.eq_false_iff]
    intro hl
    exact absurd (h c hc) (Bool.eq_false_iff.mp (Lexeme.not_blank (.inl hl)))
  · rw [Bool.eq_false_iff]
    intro hd
    exact absurd (h c hc) (Bool.eq_false_iff.mp (Lexeme.not_blank (.inr (.inl hd))))
  · exact absurd (h '.' hp) (by decide)

/-! ## Words are lexemes -/

/-- the word is a lexeme that makes a token of its kind and spelling before any blank -/
def Trace.Written (r : Trace) : Prop :=
  ∃ l : Lexeme, l.Makes r.kind r.value ∧ l.chars = r.spelling.toList ∧
    ∀ rest, Parted rest → l.Valid rest

theorem written_name {w : String} (h : IsName w) (p : Option Position) :
    Trace.Written ⟨.name, some w, p⟩ := by
  obtain ⟨hne, hl, hk⟩ := h
  have hw : String.ofList w.toList = w := String.ofList_toList
  have hm : (Lexeme.word w.toList).Makes .name (some (String.ofList w.toList)) :=
    .name (by rw [hw]; exact hk)
  rw [hw] at hm
  exact ⟨_, hm, rfl, fun rest hr => ⟨hne, hl, hr.stops.1⟩⟩

theorem written_literal {d : NumType} {w : String} (h : d.IsLiteral w) (p : Option Position) :
    Trace.Written ⟨d.literal, some w, p⟩ := by
  have hw : String.ofList w.toList = w := String.ofList_toList
  cases d with
  | int =>
    obtain ⟨hne, hd⟩ := h
    have hm : (Lexeme.whole w.toList).Makes .integer (some (String.ofList w.toList)) := .integer
    rw [hw] at hm
    exact ⟨_, hm, rfl, fun rest hr => ⟨hne, hd, hr.stops.2⟩⟩
  | float =>
    obtain ⟨digits, fraction, e, hd, hf, hn⟩ := h
    have hm : (Lexeme.pointed digits fraction).Makes .decimal (some (String.ofList w.toList)) := by
      rw [e]
      exact .decimal
    rw [hw] at hm
    exact ⟨_, hm, e.symm, fun rest hr => ⟨hd, hf, hr.stops.2.1, hn⟩⟩

theorem written_keyword {w : List Char} {k : Token.Kind} (hm : (Lexeme.word w).Makes k none)
    (hs : k.spelling.toList = w) (hne : w ≠ []) (hl : ∀ c ∈ w, isLetter c = true)
    (p : Option Position) : Trace.Written ⟨k, none, p⟩ :=
  ⟨_, hm, hs.symm, fun _ hr => ⟨hne, hl, hr.stops.1⟩⟩

theorem written_sign {c : Char} {k : Token.Kind} (hm : (Lexeme.sign c).Makes k none)
    (hs : k.spelling.toList = [c]) (hc : c ∈ Lexeme.signs) (p : Option Position) :
    Trace.Written ⟨k, none, p⟩ :=
  ⟨_, hm, hs.symm, fun _ _ => hc⟩

theorem written_fixed {k : Token.Kind} (h : k.isSpelled = false) (hk : k ≠ .endOfText)
    (p : Option Position) : Trace.Written ⟨k, none, p⟩ := by
  cases k with
  | intType => exact written_keyword .int (by decide) (by decide) (by decide) p
  | floatType => exact written_keyword .float (by decide) (by decide) (by decide) p
  | print => exact written_keyword .print (by decide) (by decide) (by decide) p
  | assign => exact written_sign .assign (by decide) (by decide) p
  | plus => exact written_sign .plus (by decide) (by decide) p
  | minus => exact written_sign .minus (by decide) (by decide) p
  | times => exact written_sign .times (by decide) (by decide) p
  | divide => exact written_sign .divide (by decide) (by decide) p
  | semicolon => exact written_sign .semicolon (by decide) (by decide) p
  | name | integer | decimal => cases h
  | endOfText => exact absurd rfl hk

theorem Expr.written {e : Expr} (h : e.Spelled) : ∀ r ∈ e.flatten, r.Written := by
  induction e with
  | const value declared type pos =>
    rw [flatten, List.forall_mem_singleton]
    exact written_literal h _
  | deref id type pos =>
    rw [flatten, List.forall_mem_singleton]
    exact written_name h _
  | binary op l r type pos ihl ihr =>
    rw [flatten, List.forall_mem_append, List.forall_mem_cons]
    refine ⟨ihl h.1, ?_, ihr h.2⟩
    cases op <;> exact written_fixed rfl (by decide) _
  | convert inner type pos ih => exact ih h

theorem Item.written {i : Item} (h : i.Spelled) : ∀ r ∈ i.flatten, r.Written := by
  have hsemi : (Trace.sign .semicolon).Written := written_fixed rfl (by decide) _
  cases i with
  | declare declared id type pos =>
    rw [flatten, List.forall_mem_cons, List.forall_mem_cons, List.forall_mem_singleton]
    refine ⟨?_, written_name h _, hsemi⟩
    cases declared <;> exact written_fixed rfl (by decide) _
  | assign target value type pos =>
    rw [flatten, List.forall_mem_cons, List.forall_mem_cons, List.forall_mem_append,
      List.forall_mem_singleton]
    exact ⟨written_name h.1 _, written_fixed rfl (by decide) _, Expr.written h.2, hsemi⟩
  | print id type pos =>
    rw [flatten, List.forall_mem_cons, List.forall_mem_cons, List.forall_mem_singleton]
    exact ⟨written_fixed rfl (by decide) _, written_name h _, hsemi⟩

/-! ## From words to tokens -/

/-- Words with blanks between them are pieces, and their tokens are as the words say. -/
theorem exists_pieces (L : Layout) {rs : List Trace} (h : ∀ r ∈ rs, r.Written) (n : Nat)
    (before : List Char) :
    ∃ ps us last, L.write n (rs.map Trace.spelling) = joined ps ++ L.tail ∧ Reads ps L.tail ∧
      TokensOf L.tail before ps (us ++ [last]) ∧ last.kind = .endOfText ∧
      us.map Token.word = rs.map Trace.word := by
  induction rs generalizing n before with
  | nil => exact ⟨[], [], _, rfl, trivial, .done, rfl, rfl⟩
  | cons r rs ih =>
    obtain ⟨⟨l, hm, hc, hv⟩, hrs⟩ := List.forall_mem_cons.mp h
    obtain ⟨ps, us, last, hwrite, hreads, htokens, hlast, hwords⟩ :=
      ih hrs (n + 1) (before ++ (L.gap n ++ l.chars))
    have hparted := L.parted_write n (rs.map Trace.spelling)
    refine ⟨⟨L.gap n, l⟩ :: ps, ⟨r.kind, Position.behind (before ++ L.gap n), r.value⟩ :: us, last,
      ?_, ⟨L.gap_blank n, hwrite ▸ hv _ hparted, hreads⟩, .piece hm rfl htokens, hlast, ?_⟩
    · rw [joined_cons_append, ← hwrite]
      show L.gap n ++ (r.spelling.toList ++ _) = L.gap n ++ (l.chars ++ _)
      rw [hc]
    · rw [List.map_cons, hwords, List.map_cons]
      rfl

theorem parse_source {p : Program} (hu : p.Unchecked) (ha : p.LeftAssociative) (hs : p.Spelled)
    (L : Layout) : ∃ q, Source.parse (p.source L) = .ok q ∧ q.unplaced = p.unplaced := by
  have hw : ∀ r ∈ p.items.flatMap Item.flatten, r.Written := by
    intro r hr
    obtain ⟨i, hi, hri⟩ := List.mem_flatMap.mp hr
    exact Item.written (hs i hi) r hri
  obtain ⟨ps, us, last, hwrite, hreads, htokens, hlast, hwords⟩ := exists_pieces L hw 0 []
  have hsplit : Split (p.source L).toList ps L.tail :=
    ⟨String.toList_ofList.trans hwrite, hreads, L.tail_blank⟩
  obtain ⟨is, his, hplaces⟩ := itemsOf_of_words hu.2 ha hwords
  refine ⟨{ items := is }, parse_text_eq_ok_iff.mpr
    ⟨rfl, us, last, tokenize_of_split hsplit htokens, hlast, his⟩, ?_⟩
  obtain ⟨items, type⟩ := p
  obtain rfl : type = none := hu.1
  show Program.mk (is.map Item.unplaced) none = Program.mk (items.map Item.unplaced) none
  rw [hplaces]

/-! ## From tokens to trees -/

theorem Lexeme.Makes.isSome_value {l : Lexeme} {k : Token.Kind} {v : Option String}
    (h : l.Makes k v) : v.isSome = k.isSpelled := by
  cases h <;> rfl

theorem proper_of_tokensOf {tail before : List Char} {ps : List Piece} {ts : List Token}
    (h : TokensOf tail before ps ts) : ∀ t ∈ ts, t.Proper := by
  induction h with
  | done => exact List.forall_mem_singleton.mpr rfl
  | piece hm _ _ ih => exact List.forall_mem_cons.mpr ⟨hm.isSome_value, ih⟩

theorem flatten_of_parse {text : String} {p : Program} (h : Source.parse text = .ok p) :
    ∃ ts, Source.tokenize text = .ok ts ∧ p.flatten = ts.map Token.trace ∧ p.Unchecked ∧
      p.LeftAssociative := by
  obtain ⟨htype, ts, last, htok, hlast, his⟩ := parse_text_eq_ok_iff.mp h
  obtain ⟨ps, tail, _, htokens⟩ := split_of_tokenize htok
  have hproper := proper_of_tokensOf htokens
  rw [List.forall_mem_append, List.forall_mem_singleton] at hproper
  obtain ⟨hflat, hall⟩ := shape_of_itemsOf hproper.1 his
  refine ⟨ts ++ [last], htok, ?_, ⟨htype, fun i hi => (hall i hi).1⟩, fun i hi => (hall i hi).2⟩
  rw [Program.flatten, hflat, List.map_append, List.map_singleton,
    hproper.2.trace_sign hlast rfl rfl]

theorem exists_parse_iff {text : String} :
    (∃ p, Source.parse text = .ok p) ↔
      ∃ ts, Source.tokenize text = .ok ts ∧ Sentence (ts.map Token.kind) := by
  constructor
  · rintro ⟨p, h⟩
    obtain ⟨_, ts, last, htok, hlast, his⟩ := parse_text_eq_ok_iff.mp h
    exact ⟨_, htok, (exists_itemsOf_iff hlast).mp ⟨_, his⟩⟩
  · rintro ⟨ts, htok, hs⟩
    obtain ⟨us, _, rfl⟩ := tokenize_eq_ok_iff.mp htok
    obtain ⟨is, his⟩ := (exists_itemsOf_iff rfl).mpr hs
    exact ⟨{ items := is }, parse_text_eq_ok_iff.mpr ⟨rfl, us, _, htok, rfl, his⟩⟩

/-- **The parser accepts its grammar and builds the right tree.**  A text has a program exactly if
its tokens are a sentence; the program flattens to these tokens, carries no marks and no
conversions, and its operators are grouped by rank and from the left.  Every program of that shape
whose names and literals can be spelled is read back, up to places, from a text of its words with
blanks between them. -/
theorem parse_exact :
    (∀ text : String,
      ((∃ p, Source.parse text = .ok p) ↔
        ∃ ts, Source.tokenize text = .ok ts ∧ Sentence (ts.map Token.kind)) ∧
      ∀ p, Source.parse text = .ok p →
        ∃ ts, Source.tokenize text = .ok ts ∧ p.flatten = ts.map Token.trace ∧ p.Unchecked ∧
          p.LeftAssociative) ∧
    ∀ (p : Program) (L : Layout), p.Unchecked → p.LeftAssociative → p.Spelled →
      ∃ q, Source.parse (p.source L) = .ok q ∧ q.unplaced = p.unplaced :=
  ⟨fun _ => ⟨exists_parse_iff, fun _ => flatten_of_parse⟩,
    fun _ L hu ha hs => parse_source hu ha hs L⟩

def Layout.single : Layout where
  gap n := if n = 0 then [] else [' ']
  tail := []
  gap_blank n := by
    intro c hc
    split at hc
    · cases hc
    · obtain rfl := List.mem_singleton.mp hc
      rfl
  gap_parts n := by simp
  tail_blank := by simp

/-- a difference whose left side is a difference with a product in it -/
def differences : Program :=
  let x : Identifier := { name := "x", pos := .start }
  { items := [.assign x
      (.binary .minus
        (.binary .minus (.const "1" .int none .start)
          (.binary .times (.deref x none .start) (.const ".5" .float none .start) none .start)
          none .start)
        (.const "2" .int none .start) none .start) none .start] }

/-- Differences are read from the left, and a product in them first. -/
theorem parse_exact_differences :
    ∃ q, Source.parse "x = 1 - x * .5 - 2 ;" = .ok q ∧ q.unplaced = differences.unplaced ∧
      ∃ ts, Source.tokenize "x = 1 - x * .5 - 2 ;" = .ok ts ∧ q.flatten = ts.map Token.trace := by
  have hsource : differences.source .single = "x = 1 - x * .5 - 2 ;" := by decide
  have hu : differences.Unchecked := by
    simp [differences, Program.Unchecked, Item.Unchecked, Expr.Unchecked, Identifier.Unchecked]
  have ha : differences.LeftAssociative := by
    simp [differences, Program.LeftAssociative, Item.LeftAssociative, Expr.LeftAssociative,
      Expr.IsSum, Expr.IsLeaf, sumOps, productOps]
  have hs : differences.Spelled := by
    have hx : IsName "x" := ⟨by decide, by decide, by decide⟩
    have hhalf : NumType.float.IsLiteral ".5" := ⟨[], ['5'], by decide⟩
    have h1 : NumType.int.IsLiteral "1" := ⟨by decide, by decide⟩
    have h2 : NumType.int.IsLiteral "2" := ⟨by decide, by decide⟩
    exact List.forall_mem_singleton.mpr ⟨hx, ⟨h1, hx, hhalf⟩, h2⟩
  obtain ⟨q, hq, hplaces⟩ := parse_exact.2 differences .single hu ha hs
  rw [hsource] at hq
  obtain ⟨ts, hts, hflat, _⟩ := (parse_exact.1 _).2 q hq
  exact ⟨q, hq, hplaces, ts, hts, hflat⟩

end DeskCalc
