import DeskCalc.Source
import DeskCalc.Proofs.Lexemes
import Mathlib.Data.List.Induction

/-!
# How a text splits into tokens

A text is blanks and lexemes in turn.  It is split well (`Split`) if every lexeme is a token before
what follows it, and it breaks (`Broken`) at the first lexeme that is none.  A text does the one or
the other, in one way only, and the reader finds out which (`tokenize_exact`).

* `Position.behind`   the place behind a text: line feeds counted, and the characters since the
                      last of them;
* `Piece`             blanks and the lexeme behind them;
* `Reads`             pieces that are tokens, one after the other, before a text;
* `TokensOf`          the tokens of pieces, each at the place behind all that comes before it.
-/

namespace DeskCalc

/-! ## Places -/

/-- the place behind a text that begins at the start: one line more than it has line feeds, and one
column more than it has characters since the last of them -/
def Position.behind (before : List Char) : Position :=
  ⟨1 + before.count '\n', 1 + (before.reverse.takeWhile (· ≠ '\n')).length⟩

theorem Position.past_start (before : List Char) :
    Position.start.past before = Position.behind before := by
  induction before using List.reverseRecOn with
  | nil => rfl
  | append_singleton cs c ih =>
    rw [past_append, ih]
    show (behind cs).step c = behind (cs ++ [c])
    by_cases h : c = '\n'
    · subst h
      rw [step_lineFeed]
      simp [behind, Nat.add_assoc]
    · rw [step_of_ne h]
      simp [behind, h, Nat.add_comm]

/-! ## Pieces -/

structure Piece where
  gap : List Char
  lexeme : Lexeme
deriving DecidableEq

def Piece.chars (p : Piece) : List Char := p.gap ++ p.lexeme.chars

def joined (ps : List Piece) : List Char := ps.flatMap Piece.chars

theorem joined_cons_append (p : Piece) (ps : List Piece) (rest : List Char) :
    joined (p :: ps) ++ rest = p.gap ++ (p.lexeme.chars ++ (joined ps ++ rest)) := by
  show (p.gap ++ p.lexeme.chars) ++ joined ps ++ rest = _
  rw [List.append_assoc, List.append_assoc]

/-- the gaps are blanks, and every lexeme is a token before what follows it -/
def Reads : List Piece → List Char → Prop
  | [], _ => True
  | p :: ps, rest =>
    (∀ c ∈ p.gap, isBlank c = true) ∧ p.lexeme.Valid (joined ps ++ rest) ∧ Reads ps rest

instance decidableReads : ∀ (ps : List Piece) (rest : List Char), Decidable (Reads ps rest)
  | [], _ => inferInstanceAs (Decidable True)
  | _ :: ps, rest =>
    have := decidableReads ps rest
    inferInstanceAs (Decidable (_ ∧ _ ∧ _))

/-- the text is a row of pieces, all of them tokens, and blanks at its end -/
structure Split (text : List Char) (ps : List Piece) (tail : List Char) : Prop where
  text_eq : text = joined ps ++ tail
  reads : Reads ps tail
  blank : ∀ c ∈ tail, isBlank c = true

/-- the text is a row of pieces, all of them tokens, and behind it blanks and a lexeme that is the
fault `f` at its place -/
structure Broken (text : List Char) (ps : List Piece) (gap : List Char) (l : Lexeme)
    (rest : List Char) (f : LexicalFault) : Prop where
  text_eq : text = joined ps ++ (gap ++ (l.chars ++ rest))
  reads : Reads ps (gap ++ (l.chars ++ rest))
  blank : ∀ c ∈ gap, isBlank c = true
  fails : l.Fails rest (Position.behind (joined ps ++ gap)) f

/-- the tokens of a row of pieces with blanks at its end, behind the text `before` -/
inductive TokensOf (tail : List Char) : List Char → List Piece → List Token → Prop
  | done {before : List Char} :
    TokensOf tail before [] [Token.endAt (Position.behind (before ++ tail))]
  | piece {before : List Char} {p : Piece} {ps : List Piece} {t : Token} {ts : List Token}
    (hm : p.lexeme.Makes t.kind t.value) (hp : t.pos = Position.behind (before ++ p.gap))
    (h : TokensOf tail (before ++ p.chars) ps ts) : TokensOf tail before (p :: ps) (t :: ts)

theorem tokensOf_of_reads {ps : List Piece} {tail : List Char} (h : Reads ps tail)
    (before : List Char) : ∃ ts, TokensOf tail before ps ts := by
  induction ps generalizing before with
  | nil => exact ⟨_, .done⟩
  | cons p ps ih =>
    obtain ⟨_, hv, hps⟩ := h
    obtain ⟨k, v, hm⟩ := Lexeme.makes_of_valid hv
    obtain ⟨ts, hts⟩ := ih hps (before ++ p.chars)
    exact ⟨⟨k, Position.behind (before ++ p.gap), v⟩ :: ts, .piece hm rfl hts⟩

/-! ## One split only -/

theorem piece_unique {gap gap' rest rest' : List Char} {l l' : Lexeme}
    (hg : ∀ c ∈ gap, isBlank c = true) (hg' : ∀ c ∈ gap', isBlank c = true)
    (hl : l.Stands rest) (hl' : l'.Stands rest')
    (e : gap ++ (l.chars ++ rest) = gap' ++ (l'.chars ++ rest')) :
    gap = gap' ∧ l = l' ∧ rest = rest' := by
  have hb := Lexeme.stops_blank hl
  have hb' := Lexeme.stops_blank hl'
  have egap : gap = gap' := by
    rw [← takeWhile_run hg hb, e, takeWhile_run hg' hb']
  have etext : l.chars ++ rest = l'.chars ++ rest' := by
    rw [← dropWhile_run hg hb, e, dropWhile_run hg' hb']
  have hm := Lexeme.munch_of_stands hl
  rw [etext, Lexeme.munch_of_stands hl'] at hm
  obtain ⟨rfl, rfl⟩ := Prod.mk.inj (Option.some.inj hm)
  exact ⟨egap, rfl, rfl⟩

theorem not_blank_of_stands {gap rest : List Char} {l : Lexeme} (hl : l.Stands rest) :
    ¬ ∀ c ∈ gap ++ (l.chars ++ rest), isBlank c = true := by
  intro hall
  have hg : ∀ c ∈ gap, isBlank c = true := fun c hc => hall c (List.mem_append_left _ hc)
  have hnone := Cursor.advance?_of_blank .start hall
  rw [Cursor.advance?_of_stands .start hg hl] at hnone
  cases hnone

/-- **A text is split in one way.** -/
theorem Split.unique {text : List Char} {ps ps' : List Piece} {tail tail' : List Char}
    (h : Split text ps tail) (h' : Split text ps' tail') : ps = ps' ∧ tail = tail' := by
  obtain ⟨rfl, hr, hb⟩ := h
  obtain ⟨e, hr', hb'⟩ := h'
  induction ps generalizing ps' with
  | nil =>
    cases ps' with
    | nil => exact ⟨rfl, e⟩
    | cons p' ps' =>
      have e' : tail = p'.gap ++ (p'.lexeme.chars ++ (joined ps' ++ tail')) :=
        e.trans (joined_cons_append p' ps' tail')
      exact absurd (e' ▸ hb) (not_blank_of_stands (Lexeme.stands_of_valid hr'.2.1))
  | cons p ps ih =>
    rw [joined_cons_append] at e
    cases ps' with
    | nil =>
      have e' : p.gap ++ (p.lexeme.chars ++ (joined ps ++ tail)) = tail' := e
      exact absurd (e' ▸ hb') (not_blank_of_stands (Lexeme.stands_of_valid hr.2.1))
    | cons p' ps' =>
      rw [joined_cons_append] at e
      obtain ⟨hgap, hlex, hrest⟩ := piece_unique hr.1 hr'.1 (Lexeme.stands_of_valid hr.2.1)
        (Lexeme.stands_of_valid hr'.2.1) e
      obtain ⟨rfl, rfl⟩ := ih hr.2.2 hrest hr'.2.2
      obtain ⟨gap, l⟩ := p
      obtain ⟨gap', l'⟩ := p'
      obtain rfl : gap = gap' := hgap
      obtain rfl : l = l' := hlex
      exact ⟨rfl, rfl⟩

/-! ## What the reader finds -/

theorem all_of_tokensOf {tail before : List Char} {ps : List Piece} {ts : List Token}
    (hb : ∀ c ∈ tail, isBlank c = true) (hr : Reads ps tail) (h : TokensOf tail before ps ts) :
    (Cursor.all ⟨joined ps ++ tail, Position.start.past before⟩).1 = .ok ts := by
  induction h with
  | @done before =>
    show (Cursor.all ⟨tail, Position.start.past before⟩).1 = _
    rw [Cursor.all_of_end (Cursor.advance?_of_blank _ hb), ← Position.past_start,
      Position.past_append]
    rfl
  | @piece before p ps t ts hm hp _ ih =>
    obtain ⟨hg, hv, hps⟩ := hr
    have hadv := Cursor.advance?_of_stands (Position.start.past before) hg
      (Lexeme.stands_of_valid hv)
    rw [← Position.past_append, ← Position.past_append, Lexeme.read_of_makes hv hm,
      Position.past_start (before ++ p.gap), ← hp] at hadv
    rw [joined_cons_append, Cursor.all_of_token hadv, List.append_assoc before]
    show (Cursor.all ⟨joined ps ++ tail, Position.start.past (before ++ p.chars)⟩).1.map _ = _
    rw [ih hps]
    rfl

theorem all_of_fails (before : List Char) {gap rest : List Char} {ps : List Piece} {l : Lexeme}
    {f : LexicalFault} (hb : ∀ c ∈ gap, isBlank c = true)
    (hr : Reads ps (gap ++ (l.chars ++ rest)))
    (h : l.Fails rest (Position.behind (before ++ joined ps ++ gap)) f) :
    (Cursor.all ⟨joined ps ++ (gap ++ (l.chars ++ rest)), Position.start.past before⟩).1 =
      .error f := by
  induction ps generalizing before with
  | nil =>
    have hadv := Cursor.advance?_of_stands (Position.start.past before) hb
      (Lexeme.stands_of_fails h)
    have hbefore : before ++ joined [] ++ gap = before ++ gap := by rw [joined, List.flatMap_nil,
      List.append_nil]
    rw [hbefore, ← Position.past_start, Position.past_append] at h
    rw [Lexeme.read_of_fails h] at hadv
    show (Cursor.all ⟨gap ++ (l.chars ++ rest), Position.start.past before⟩).1 = _
    rw [Cursor.all_of_fault hadv]
  | cons p ps ih =>
    obtain ⟨hg, hv, hps⟩ := hr
    obtain ⟨k, v, hm⟩ := Lexeme.makes_of_valid hv
    have hadv := Cursor.advance?_of_stands (Position.start.past before) hg
      (Lexeme.stands_of_valid hv)
    have hbefore : before ++ joined (p :: ps) ++ gap = before ++ p.chars ++ joined ps ++ gap := by
      show before ++ (p.chars ++ joined ps) ++ gap = _
      rw [← List.append_assoc before]
    rw [hbefore] at h
    rw [Lexeme.read_of_makes hv hm, ← Position.past_append, ← Position.past_append,
      List.append_assoc before] at hadv
    rw [joined_cons_append, Cursor.all_of_token hadv]
    show (Cursor.all ⟨joined ps ++ _, Position.start.past (before ++ p.chars)⟩).1.map _ = _
    rw [ih _ hps h]
    rfl

theorem split_or_broken (text before : List Char) :
    (∃ ps tail, Split text ps tail) ∨
      ∃ ps gap rest, ∃ (l : Lexeme) (f : LexicalFault),
        text = joined ps ++ (gap ++ (l.chars ++ rest)) ∧ Reads ps (gap ++ (l.chars ++ rest)) ∧
        (∀ c ∈ gap, isBlank c = true) ∧
        l.Fails rest (Position.behind (before ++ joined ps ++ gap)) f := by
  induction hn : text.length using Nat.strongRecOn generalizing text before with
  | ind n ih =>
    subst hn
    cases hadv : Cursor.advance? ⟨text, .start⟩ with
    | none => exact .inl ⟨[], text, rfl, trivial, Cursor.blank_of_advance?_eq_none hadv⟩
    | some od =>
      obtain ⟨o, d⟩ := od
      obtain ⟨gap, l, hg, htext, hl, _, _⟩ := Cursor.advance?_inv hadv
      have hlt : d.rest.length < text.length := Cursor.length_lt_of_advance? hadv
      change text = gap ++ (l.chars ++ d.rest) at htext
      rcases Lexeme.valid_or_fails hl (Position.behind (before ++ gap)) with hv | ⟨f, hf⟩
      · have happ : ∀ ps rest, d.rest = joined ps ++ rest →
            text = joined (⟨gap, l⟩ :: ps) ++ rest := by
          intro ps rest e
          rw [joined_cons_append, htext, e]
        rcases ih _ hlt d.rest (before ++ (gap ++ l.chars)) rfl with
          ⟨ps, tail, e, hr, hb⟩ | ⟨ps, g, rest, l', f, e, hr, hb, hf⟩
        · exact .inl ⟨⟨gap, l⟩ :: ps, tail, happ ps tail e, ⟨hg, e ▸ hv, hr⟩, hb⟩
        · refine .inr ⟨⟨gap, l⟩ :: ps, g, rest, l', f, happ ps _ e, ⟨hg, e ▸ hv, hr⟩, hb, ?_⟩
          have hbefore : before ++ joined (⟨gap, l⟩ :: ps) ++ g =
              before ++ (gap ++ l.chars) ++ joined ps ++ g := by
            show before ++ ((gap ++ l.chars) ++ joined ps) ++ g = _
            rw [← List.append_assoc before]
          rw [hbefore]
          exact hf
      · refine .inr ⟨[], gap, d.rest, l, f, htext, trivial, hg, ?_⟩
        have hbefore : before ++ joined [] ++ gap = before ++ gap := by
          rw [joined, List.flatMap_nil, List.append_nil]
        rw [hbefore]
        exact hf

theorem tokenize_of_split {text : String} {ps : List Piece} {tail : List Char} {ts : List Token}
    (h : Split text.toList ps tail) (hts : TokensOf tail [] ps ts) :
    Source.tokenize text = .ok ts := by
  show (Cursor.all ⟨text.toList, .start⟩).1.mapError Fault.lexical = _
  have e := all_of_tokensOf h.blank h.reads hts
  rw [← h.text_eq] at e
  exact congrArg (Except.mapError Fault.lexical) e

theorem tokenize_of_broken {text : String} {ps : List Piece} {gap rest : List Char} {l : Lexeme}
    {f : LexicalFault} (h : Broken text.toList ps gap l rest f) :
    Source.tokenize text = .error (.lexical f) := by
  show (Cursor.all ⟨text.toList, .start⟩).1.mapError Fault.lexical = _
  have e := all_of_fails [] h.blank h.reads h.fails
  rw [← h.text_eq] at e
  exact congrArg (Except.mapError Fault.lexical) e

/-- A text that has tokens is split, and they are the tokens of the split. -/
theorem split_of_tokenize {text : String} {ts : List Token} (h : Source.tokenize text = .ok ts) :
    ∃ ps tail, Split text.toList ps tail ∧ TokensOf tail [] ps ts := by
  rcases split_or_broken text.toList [] with ⟨ps, tail, hs⟩ | ⟨ps, gap, rest, l, f, e, hr, hb, hf⟩
  · obtain ⟨us, hus⟩ := tokensOf_of_reads hs.reads []
    obtain rfl := Except.ok.inj (h.symm.trans (tokenize_of_split hs hus))
    exact ⟨ps, tail, hs, hus⟩
  · cases h.symm.trans (tokenize_of_broken ⟨e, hr, hb, hf⟩)

/-- **Longest lexemes, lossless and in their places.**  A text has tokens exactly if it splits into
blanks and valid lexemes.  There is one split at most; the tokens are those of its lexemes, in their
order and each at its place, with the end token behind them.  Otherwise the text breaks, and the
fault is that of the first lexeme that is no token, at the place of its first character. -/
theorem tokenize_exact (text : String) :
    ((∃ ts, Source.tokenize text = .ok ts) ↔ ∃ ps tail, Split text.toList ps tail) ∧
      (∀ ps ps' tail tail', Split text.toList ps tail → Split text.toList ps' tail' →
        ps = ps' ∧ tail = tail') ∧
      (∀ ts ps tail, Source.tokenize text = .ok ts → Split text.toList ps tail →
        TokensOf tail [] ps ts) ∧
      ∀ e, Source.tokenize text = .error e ↔
        ∃ ps gap l rest f, Broken text.toList ps gap l rest f ∧ e = .lexical f := by
  refine ⟨⟨?_, ?_⟩, fun _ _ _ _ => Split.unique, ?_, fun e => ⟨?_, ?_⟩⟩
  · rintro ⟨ts, hts⟩
    obtain ⟨ps, tail, h, _⟩ := split_of_tokenize hts
    exact ⟨ps, tail, h⟩
  · rintro ⟨ps, tail, h⟩
    obtain ⟨ts, hts⟩ := tokensOf_of_reads h.reads []
    exact ⟨ts, tokenize_of_split h hts⟩
  · intro ts ps tail hts h
    obtain ⟨ps', tail', h', htokens⟩ := split_of_tokenize hts
    obtain ⟨rfl, rfl⟩ := Split.unique h h'
    exact htokens
  · intro he
    rcases split_or_broken text.toList [] with
      ⟨ps, tail, h⟩ | ⟨ps, gap, rest, l, f, e', hr, hb, hf⟩
    · obtain ⟨ts, hts⟩ := tokensOf_of_reads h.reads []
      cases he.symm.trans (tokenize_of_split h hts)
    · have hbroken : Broken text.toList ps gap l rest f := ⟨e', hr, hb, hf⟩
      exact ⟨ps, gap, l, rest, f, hbroken,
        Except.error.inj (he.symm.trans (tokenize_of_broken hbroken))⟩
  · rintro ⟨ps, gap, l, rest, f, h, rfl⟩
    exact tokenize_of_broken h

/-- Two numbers without a blank between them, and a name behind a number; and a number whose
fraction is missing, on the second line. -/
theorem tokenize_exact_adjacent :
    (∃ ts, Source.tokenize "1.5.5 12ab" = .ok ts ∧
      TokensOf [] [] [⟨[], .pointed ['1'] ['5']⟩, ⟨[], .pointed [] ['5']⟩,
        ⟨[' '], .whole ['1', '2']⟩, ⟨[], .word ['a', 'b']⟩] ts) ∧
      Source.tokenize "a\n 1.;" = .error (.lexical (.malformedDecimal "1." 0 ⟨2, 2⟩)) := by
  have hsplit : Split "1.5.5 12ab".toList [⟨[], .pointed ['1'] ['5']⟩, ⟨[], .pointed [] ['5']⟩,
      ⟨[' '], .whole ['1', '2']⟩, ⟨[], .word ['a', 'b']⟩] [] :=
    ⟨by decide, by decide, by decide⟩
  have hbroken : Broken "a\n 1.;".toList [⟨[], .word ['a']⟩] ['\n', ' '] (.pointed ['1'] [])
      [';'] (.malformedDecimal "1." 0 ⟨2, 2⟩) :=
    ⟨by decide, by decide, by decide, .fraction (by decide) (by decide) (by decide) (.inl rfl)⟩
  obtain ⟨ts, hts⟩ := (tokenize_exact _).1.mpr ⟨_, _, hsplit⟩
  exact ⟨⟨ts, hts, (tokenize_exact _).2.2.1 ts _ _ hts hsplit⟩,
    ((tokenize_exact _).2.2.2 _).mpr ⟨_, _, _, _, _, hbroken, rfl⟩⟩

end DeskCalc
