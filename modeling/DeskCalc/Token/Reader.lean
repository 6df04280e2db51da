import DeskCalc.Token.Lexeme

/-!
# Reading tokens

A cursor stands in a text: it has the characters still to come and the position of the first of
them.  A scan skips blanks and cuts off one lexeme; at the end of the text it delivers the end token
as often as it is asked.  A reader is a cursor with at most one token read ahead, and goes on behind
a faulty lexeme as behind any other.

* `Cursor.advance?`   skip blanks and read one lexeme; nothing at the end of the text;
* `Cursor.scan`       the same, with the end token at the end;
* `Cursor.all`        the tokens up to the end, or the first fault;
* `Cursor.outcomes`   everything that repeated scans deliver before the end, faults included;
* `Reader.next`, `Reader.peek`, `Reader.all`   reading with one token of look-ahead.

Each scan that is not at the end shortens the text (`length_lt_of_advance?`), which is why the
loops end.
-/

namespace DeskCalc

/-- a place in a text from which reading goes on -/
structure Cursor where
  rest : List Char
  pos : Position
deriving DecidableEq

namespace Cursor

def ofText (s : String) : Cursor := ⟨s.toList, .start⟩

def skipBlanks (c : Cursor) : Cursor :=
  ⟨c.rest.dropWhile isBlank, c.pos.past (c.rest.takeWhile isBlank)⟩

/-- the end token of the text that the cursor stands in -/
def endToken (c : Cursor) : Token := Token.endAt (c.pos.past c.rest)

/-- what the next lexeme delivers and the cursor behind it -/
def advance? (c : Cursor) : Option (Outcome × Cursor) :=
  (Lexeme.munch c.skipBlanks.rest).map fun (l, rest) =>
    (l.read c.skipBlanks.pos, ⟨rest, c.skipBlanks.pos.past l.chars⟩)

theorem length_skipBlanks_le (c : Cursor) : c.skipBlanks.rest.length ≤ c.rest.length :=
  (List.dropWhile_sublist isBlank).length_le

theorem length_lt_of_advance? {c d : Cursor} {o : Outcome} (h : c.advance? = some (o, d)) :
    d.rest.length < c.rest.length := by
  obtain ⟨⟨l, rest⟩, hm, he⟩ := Option.map_eq_some_iff.mp h
  obtain ⟨rfl, rfl⟩ := Prod.mk.inj he
  exact Nat.lt_of_lt_of_le (Lexeme.length_lt_of_munch hm) c.length_skipBlanks_le

/-- what a scan delivers and the cursor behind it -/
def scan (c : Cursor) : Outcome × Cursor :=
  c.advance?.getD (.ok c.endToken, c.skipBlanks)

/-! ## To the end -/

/-- the tokens up to and with the end token, or the first fault; and the cursor behind what was
read -/
def all (c : Cursor) : Except LexicalFault (List Token) × Cursor :=
  match _h : c.advance? with
  | none => (.ok [c.endToken], c.skipBlanks)
  | some (.error f, d) => (.error f, d)
  | some (.ok t, d) =>
    let r := d.all
    (r.1.map (t :: ·), r.2)
termination_by c.rest.length
decreasing_by exact length_lt_of_advance? _h

theorem all_of_end {c : Cursor} (h : c.advance? = none) :
    c.all = (.ok [c.endToken], c.skipBlanks) := by
  rw [all]; split <;> simp_all

theorem all_of_fault {c d : Cursor} {f : LexicalFault} (h : c.advance? = some (.error f, d)) :
    c.all = (.error f, d) := by
  rw [all]; split <;> simp_all

theorem all_of_token {c d : Cursor} {t : Token} (h : c.advance? = some (.ok t, d)) :
    c.all = (d.all.1.map (t :: ·), d.all.2) := by
  rw [all]; split <;> simp_all

/-- what repeated scans deliver before the end of the text -/
def outcomes (c : Cursor) : List Outcome :=
  match _h : c.advance? with
  | none => []
  | some (o, d) => o :: d.outcomes
termination_by c.rest.length
decreasing_by exact length_lt_of_advance? _h

theorem outcomes_of_end {c : Cursor} (h : c.advance? = none) : c.outcomes = [] := by
  rw [outcomes]; split <;> simp_all

theorem outcomes_of_lexeme {c d : Cursor} {o : Outcome} (h : c.advance? = some (o, d)) :
    c.outcomes = o :: d.outcomes := by
  rw [outcomes]; split <;> simp_all

end Cursor

/-! ## With one token of look-ahead -/

/-- a cursor, and the token read ahead of it, if there is one -/
structure Reader where
  cursor : Cursor
  held : Option Token := none
deriving DecidableEq

namespace Reader

def ofText (s : String) : Reader := ⟨.ofText s, none⟩

def next (s : Reader) : Outcome × Reader :=
  match s.held with
  | some t => (.ok t, ⟨s.cursor, none⟩)
  | none =>
    let r := s.cursor.scan
    (r.1, ⟨r.2, none⟩)

/-- look at the token that is read next; a fault is read, a token is held -/
def peek (s : Reader) : Outcome × Reader :=
  match s.held with
  | some t => (.ok t, s)
  | none =>
    let r := s.cursor.scan
    (r.1, ⟨r.2, r.1.toOption⟩)

/-- read up to the end token or the first fault -/
def all (s : Reader) : Except LexicalFault (List Token) × Reader :=
  match s.held with
  | none =>
    let r := s.cursor.all
    (r.1, ⟨r.2, none⟩)
  | some t =>
    if t.kind = .endOfText then (.ok [t], ⟨s.cursor, none⟩)
    else
      let r := s.cursor.all
      (r.1.map (t :: ·), ⟨r.2, none⟩)

end Reader
end DeskCalc
