import DeskCalc.Proofs.Spacing

/-!
# One text behind another

A text that has a program ends with a semicolon and blanks, or holds nothing but blanks.  So
another text can be put behind it and no lexeme grows together with one of the other text: the
semicolon is a token whatever follows it, and each lexeme before it has the same character behind
it as before (`Closed.reads`).  The blanks at the seam become blanks before the first lexeme of
the second text.

The tokens of the second text stand where they stood, moved by the end of the first text
(`Position.shift`): its first line goes on in a line that has begun, the other lines are its own.
And moved tokens make a moved tree.

* `Position.behind_append`   the place behind two texts;
* `Closed`                   pieces that end with a semicolon, or none (`closed_of_tokensOf`);
* `tokenize_append`          the tokens of two texts;
* `parse_append`             their program.
-/

namespace DeskCalc

/-! ## Places -/

/-- a place of a text when the text stands behind `front` -/
def Position.shift (front : List Char) (p : Position) : Position where
  line := p.line + front.count '\n'
  column :=
    if p.line = 1 then p.column + (front.reverse.takeWhile (· ≠ '\n')).length else p.column

namespace Position

theorem line_behind_eq_one_iff (cs : List Char) : (behind cs).line = 1 ↔ '\n' ∉ cs := by
  show 1 + cs.count '\n' = 1 ↔ _
  rw [← List.count_eq_zero]
  omega

theorem takeWhile_reverse_eq_iff (cs : List Char) :
    (cs.reverse.takeWhile (· ≠ '\n')).length = cs.reverse.length ↔ '\n' ∉ cs := by
  constructor
  · intro hlen hlf
    have hall : cs.reverse.takeWhile (· ≠ '\n') = cs.reverse :=
      (List.takeWhile_sublist _).eq_of_length hlen
    have hne := List.takeWhile_eq_self_iff.mp hall '\n' (List.mem_reverse.mpr hlf)
    simp at hne
  · intro hlf
    refine congrArg List.length (List.takeWhile_eq_self_iff.mpr fun c hc => ?_)
    have hne : c ≠ '\n' := by
      rintro rfl
      exact hlf (List.mem_reverse.mp hc)
    simpa using hne

theorem behind_append (front cs : List Char) : behind (front ++ cs) = (behind cs).shift front := by
  have hline : (behind (front ++ cs)).line = ((behind cs).shift front).line := by
    show 1 + (front ++ cs).count '\n' = 1 + cs.count '\n' + front.count '\n'
    rw [List.count_append]
    omega
  have hcolumn : (behind (front ++ cs)).column = ((behind cs).shift front).column := by
    show 1 + ((front ++ cs).reverse.takeWhile (· ≠ '\n')).length =
      if (behind cs).line = 1 then _ else _
    rw [List.reverse_append, List.takeWhile_append]
    by_cases hlf : '\n' ∈ cs
    · rw [if_neg (mt (takeWhile_reverse_eq_iff cs).mp (not_not.mpr hlf)),
        if_neg (mt (line_behind_eq_one_iff cs).mp (not_not.mpr hlf))]
      rfl
    · have hlen := (takeWhile_reverse_eq_iff cs).mpr hlf
      rw [if_pos hlen, if_pos ((line_behind_eq_one_iff cs).mpr hlf), List.length_append, ← hlen]
      exact (Nat.add_assoc ..).symm
  exact congrArg₂ Position.mk hline hcolumn

end Position

/-! ## Pieces that nothing grows into -/

/-- the row is empty, or its last lexeme is a semicolon -/
def Closed (ps : List Piece) : Prop := ps = [] ∨ ∃ qs gap, ps = qs ++ [⟨gap, .sign ';'⟩]

/-- Whatever is put behind a closed row, it is read as before. -/
theorem Closed.reads {ps : List Piece} (h : Closed ps) {rest : List Char} (hr : Reads ps rest)
    (rest' : List Char) : Reads ps rest' := by
  rcases h with rfl | ⟨qs, gap, rfl⟩
  · trivial
  · obtain ⟨hqs, hg, hv, -⟩ := reads_append.mp hr
    refine reads_append.mpr ⟨hqs.of_resembles ?_, hg, hv, trivial⟩
    have hhead : joined [⟨gap, .sign ';'⟩] ≠ [] := by
      simp [joined, Piece.chars, Lexeme.chars]
    obtain ⟨c, cs, hcs⟩ := List.exists_cons_of_ne_nil hhead
    rw [hcs]
    exact .inl rfl

theorem semicolon_of_itemsOf {ts : List Token} {is : List Item} (h : ItemsOf ts is) :
    ts = [] ∨ ∃ us s, ts = us ++ [s] ∧ s.kind = .semicolon := by
  induction h with
  | nil => exact .inl rfl
  | @cons ts us i is hi _ ih =>
    right
    rcases ih with rfl | ⟨vs, s, rfl, hs⟩
    · rw [List.append_nil]
      cases hi with
      | @declare d t n s ht hn hs => exact ⟨[t, n], s, rfl, hs⟩
      | @assign n a s ts e hn ha he hs => exact ⟨n :: a :: ts, s, rfl, hs⟩
      | @print t n s ht hn hs => exact ⟨[t, n], s, rfl, hs⟩
    · exact ⟨ts ++ vs, s, (List.append_assoc ..).symm, hs⟩

theorem makes_of_tokensOf {tail before : List Char} {ps : List Piece} {ts : List Token}
    (h : TokensOf tail before ps ts) :
    List.Forall₂ (fun p t => p.lexeme.Makes t.kind t.value) ps ts.dropLast := by
  induction h with
  | done => exact .nil
  | piece hm _ h ih =>
    cases h with
    | done => exact .cons hm .nil
    | piece _ _ _ => exact .cons hm ih

theorem Lexeme.Makes.eq_semicolon {l : Lexeme} {v : Option String} (h : l.Makes .semicolon v) :
    l = .sign ';' := by
  cases h
  rfl

/-- The pieces of a text with a program are closed. -/
theorem closed_of_tokensOf {tail before : List Char} {ps : List Piece} {ts : List Token}
    {last : Token} {is : List Item} (h : TokensOf tail before ps (ts ++ [last]))
    (his : ItemsOf ts is) : Closed ps := by
  have hmakes := makes_of_tokensOf h
  rw [List.dropLast_concat] at hmakes
  rcases semicolon_of_itemsOf his with rfl | ⟨us, s, rfl, hs⟩
  · cases hmakes
    exact .inl rfl
  · obtain ⟨p, rs, hp, hrs, hdrop⟩ :=
      List.forall₂_cons_right_iff.mp (List.forall₂_drop_append ps us [s] hmakes)
    cases hrs
    rw [hs] at hp
    refine .inr ⟨ps.take us.length, p.gap, ?_⟩
    rw [← hp.eq_semicolon, ← hdrop, List.take_append_drop]

/-! ## Blanks at the seam -/

/-- blanks put in front of a row of pieces and its tail -/
def blanksBefore (w : List Char) : List Piece → List Char → List Piece × List Char
  | [], tail => ([], w ++ tail)
  | p :: ps, tail => (⟨w ++ p.gap, p.lexeme⟩ :: ps, tail)

section Seam
variable {w tail : List Char} {ps : List Piece}

theorem joined_blanksBefore (w tail : List Char) (ps : List Piece) :
    joined (blanksBefore w ps tail).1 ++ (blanksBefore w ps tail).2 = w ++ (joined ps ++ tail) := by
  cases ps with
  | nil => rfl
  | cons p ps =>
    show joined (⟨w ++ p.gap, p.lexeme⟩ :: ps) ++ tail = _
    rw [joined_cons_append, joined_cons_append, List.append_assoc]

theorem reads_blanksBefore (hw : ∀ c ∈ w, isBlank c = true) (hr : Reads ps tail)
    (ht : ∀ c ∈ tail, isBlank c = true) :
    Reads (blanksBefore w ps tail).1 (blanksBefore w ps tail).2 ∧
      ∀ c ∈ (blanksBefore w ps tail).2, isBlank c = true := by
  cases ps with
  | nil => exact ⟨trivial, List.forall_mem_append.mpr ⟨hw, ht⟩⟩
  | cons p ps => exact ⟨⟨List.forall_mem_append.mpr ⟨hw, hr.1⟩, hr.2⟩, ht⟩

theorem tokensOf_blanksBefore {before : List Char} {ts : List Token}
    (h : TokensOf tail (before ++ w) ps ts) :
    TokensOf (blanksBefore w ps tail).2 before (blanksBefore w ps tail).1 ts := by
  cases h with
  | done =>
    rw [List.append_assoc]
    exact .done
  | @piece _ p ps t ts hm hp h =>
    rw [List.append_assoc] at hp
    have hchars : before ++ w ++ p.chars = before ++ Piece.chars ⟨w ++ p.gap, p.lexeme⟩ := by
      simp only [Piece.chars, List.append_assoc]
    rw [hchars] at h
    exact .piece hm hp h

end Seam

/-! ## Tokens -/

/-- Behind another text a row of pieces has the same tokens, moved. -/
theorem tokensOf_shift {tail before : List Char} {ps : List Piece} {ts : List Token}
    (h : TokensOf tail before ps ts) (front : List Char) :
    TokensOf tail (front ++ before) ps (ts.map (·.moved (Position.shift front))) := by
  induction h with
  | @done before =>
    have hend : (Token.endAt (Position.behind (before ++ tail))).moved (Position.shift front) =
        Token.endAt (Position.behind (front ++ before ++ tail)) := by
      rw [List.append_assoc, Position.behind_append front]
      rfl
    rw [List.map_singleton, hend]
    exact .done
  | @piece before p ps t ts hm hp _ ih =>
    rw [← List.append_assoc] at ih
    refine .piece hm ?_ ih
    show t.pos.shift front = _
    rw [hp, List.append_assoc, Position.behind_append front]

theorem TokensOf.ne_nil {tail before : List Char} {ps : List Piece} {ts : List Token}
    (h : TokensOf tail before ps ts) : ts ≠ [] := by
  cases h with
  | done => exact List.cons_ne_nil _ _
  | piece => exact List.cons_ne_nil _ _

/-- The tokens of two rows of pieces, the end token of the first row taken away. -/
theorem tokensOf_append {tail tail' before : List Char} {ps qs : List Piece} {ts us : List Token}
    (h : TokensOf tail before ps ts) (h' : TokensOf tail' (before ++ joined ps) qs us) :
    TokensOf tail' before (ps ++ qs) (ts.dropLast ++ us) := by
  induction h with
  | done =>
    rw [joined, List.flatMap_nil, List.append_nil] at h'
    exact h'
  | @piece before p ps t ts hm hp hts ih =>
    have hbefore : before ++ joined (p :: ps) = before ++ p.chars ++ joined ps :=
      (List.append_assoc ..).symm
    rw [List.dropLast_cons_of_ne_nil hts.ne_nil]
    exact .piece hm hp (ih (hbefore ▸ h'))

/-- **The tokens of two texts.**  They are those of the first one without its end, and those of the
second one in their new places. -/
theorem tokenize_append {text text' : String} {ts us : List Token} {last : Token} {is : List Item}
    (h : Source.tokenize text = .ok (ts ++ [last])) (his : ItemsOf ts is)
    (h' : Source.tokenize text' = .ok us) :
    Source.tokenize (text ++ text') =
      .ok (ts ++ us.map (·.moved (Position.shift text.toList))) := by
  obtain ⟨ps, tail, hsplit, htokens⟩ := split_of_tokenize h
  obtain ⟨qs, tail', hsplit', htokens'⟩ := split_of_tokenize h'
  obtain ⟨hreads, hblank⟩ := reads_blanksBefore hsplit.blank hsplit'.reads hsplit'.blank
  have hclosed : Closed ps := closed_of_tokensOf htokens his
  have hboth : Split (text ++ text').toList (ps ++ (blanksBefore tail qs tail').1)
      (blanksBefore tail qs tail').2 := by
    refine ⟨?_, reads_append.mpr ⟨hclosed.reads hsplit.reads _, hreads⟩, hblank⟩
    rw [String.toList_append, hsplit.text_eq, hsplit'.text_eq, joined_append, List.append_assoc,
      List.append_assoc, joined_blanksBefore]
  have hmoved := tokensOf_shift htokens' text.toList
  rw [List.append_nil, hsplit.text_eq] at hmoved
  have hall := tokensOf_append htokens (tokensOf_blanksBefore hmoved)
  rw [List.dropLast_concat, ← hsplit.text_eq] at hall
  exact tokenize_of_split hboth hall

/-! ## Trees -/

theorem ItemsOf.append {ts us : List Token} {is js : List Item} (h : ItemsOf ts is)
    (h' : ItemsOf us js) : ItemsOf (ts ++ us) (is ++ js) := by
  induction h with
  | nil => exact h'
  | cons hi _ ih =>
    rw [List.append_assoc]
    exact .cons hi ih

theorem ItemsOf.moved {ts : List Token} {is : List Item} (h : ItemsOf ts is)
    (f : Position → Position) : ItemsOf (ts.map (·.moved f)) (is.map (·.moved f)) := by
  have hparse := Stage.parse_moved f (.endAt .start) .item (ts.map .ok)
  rw [Stage.parse_of_itemsOf h] at hparse
  obtain ⟨us, hus, his⟩ := Stage.parse_eq_ok_iff.mp hparse
  have hmap : (ts.map Except.ok).map (Outcome.moved · f) = (ts.map (·.moved f)).map .ok := by
    rw [List.map_map, List.map_map]
    rfl
  rw [hmap] at hus
  have hinj : Function.Injective (Except.ok : Token → Outcome) := fun _ _ => Except.ok.inj
  rw [List.map_injective_iff.mpr hinj hus]
  exact his

/-- **One text behind another.**  If both have a program, so have they together: the items of the
first one and behind them the items of the second one, moved to where the first text ends. -/
theorem parse_append {text text' : String} {p q : Program} (h : Source.parse text = .ok p)
    (h' : Source.parse text' = .ok q) :
    Source.parse (text ++ text') = .ok (p.append (q.moved (Position.shift text.toList))) := by
  obtain ⟨htype, ts, last, htok, -, his⟩ := parse_text_eq_ok_iff.mp h
  obtain ⟨-, us, last', htok', hlast', hjs⟩ := parse_text_eq_ok_iff.mp h'
  have hboth := tokenize_append htok his htok'
  rw [List.map_append, List.map_singleton, ← List.append_assoc] at hboth
  exact parse_text_eq_ok_iff.mpr
    ⟨htype, _, _, hboth, hlast', his.append (hjs.moved (Position.shift text.toList))⟩

/-- The second text goes on in a line that the first one has begun.  What it has in that line is
moved down and to the right, what it has in the next line is moved down only. -/
theorem parse_append_lines :
    Source.parse "int a;\n  " = .ok ⟨[.declare .int ⟨"a", none, none, ⟨1, 5⟩⟩ none ⟨1, 1⟩], none⟩ ∧
      Source.parse "a=2;\nprint a;" = .ok ⟨[
        .assign ⟨"a", none, none, ⟨1, 1⟩⟩ (.literal "2" .int ⟨1, 3⟩) none ⟨1, 1⟩,
        .print ⟨"a", none, none, ⟨2, 7⟩⟩ none ⟨2, 1⟩], none⟩ ∧
      Source.parse ("int a;\n  " ++ "a=2;\nprint a;") = .ok ⟨[
        .declare .int ⟨"a", none, none, ⟨1, 5⟩⟩ none ⟨1, 1⟩,
        .assign ⟨"a", none, none, ⟨2, 3⟩⟩ (.literal "2" .int ⟨2, 5⟩) none ⟨2, 3⟩,
        .print ⟨"a", none, none, ⟨3, 7⟩⟩ none ⟨3, 1⟩], none⟩ := by
  have h : Source.parse "int a;\n  " =
      .ok ⟨[.declare .int ⟨"a", none, none, ⟨1, 5⟩⟩ none ⟨1, 1⟩], none⟩ := by
    decide +kernel
  have h' : Source.parse "a=2;\nprint a;" = .ok ⟨[
      .assign ⟨"a", none, none, ⟨1, 1⟩⟩ (.literal "2" .int ⟨1, 3⟩) none ⟨1, 1⟩,
      .print ⟨"a", none, none, ⟨2, 7⟩⟩ none ⟨2, 1⟩], none⟩ := by
    decide +kernel
  exact ⟨h, h', (parse_append h h').trans (by decide +kernel)⟩

end DeskCalc
