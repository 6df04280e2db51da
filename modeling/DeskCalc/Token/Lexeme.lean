import DeskCalc.Fault

/-!
# Lexemes

A lexeme is the run of characters that one token is made of, before anybody asks where it stands
or whether it is allowed.  `munch` cuts the longest one off the front of a text; what it cut off is
put back by `chars` (`chars_append_of_munch`), so nothing is lost or made up.  `read` then says what
a lexeme means at a position: a token, or the fault of a number with a bad fraction or of a
character that begins nothing.

* `isBlank`, `isLetter`, `isDigit`   the three classes of characters that matter, all ASCII;
* `Lexeme.munch`                     the first lexeme of a text that does not begin with a blank;
* `Lexeme.chars`                     the characters of a lexeme;
* `Lexeme.read`                      its meaning at a position.
-/

namespace DeskCalc

/-- the characters between tokens: space, tab, carriage return and line feed -/
def isBlank (c : Char) : Bool := c == ' ' || c == '\t' || c == '\r' || c == '\n'

/-- the characters of a word: the lower-case ASCII letters -/
def isLetter (c : Char) : Bool := 'a' ≤ c && c ≤ 'z'

def isDigit (c : Char) : Bool := '0' ≤ c && c ≤ '9'

/-- what a scan delivers for one lexeme -/
abbrev Outcome := Except LexicalFault Token

/-- the characters of one token -/
inductive Lexeme
  /-- a run of letters -/
  | word (letters : List Char)
  /-- a run of digits -/
  | whole (digits : List Char)
  /-- digits, a point and digits; either run may be empty -/
  | pointed (digits fraction : List Char)
  /-- any other character -/
  | sign (c : Char)
deriving DecidableEq

namespace Lexeme

/-- the characters of the lexeme, as they stand in the text -/
def chars : Lexeme → List Char
  | word letters => letters
  | whole digits => digits
  | pointed digits fraction => digits ++ '.' :: fraction
  | sign c => [c]

def spelling (l : Lexeme) : String := String.ofList l.chars

/-! ## Cutting one off -/

/-- the longest number at the front of a text, which begins with a digit or a point -/
def munchNumber (cs : List Char) : Lexeme × List Char :=
  match cs.dropWhile isDigit with
  | '.' :: ds => (pointed (cs.takeWhile isDigit) (ds.takeWhile isDigit), ds.dropWhile isDigit)
  | ds => (whole (cs.takeWhile isDigit), ds)

/-- the longest lexeme at the front of a text, and the text behind it; an empty text has none -/
def munch : List Char → Option (Lexeme × List Char)
  | [] => none
  | c :: cs =>
    some <|
      if isLetter c then (word (c :: cs.takeWhile isLetter), cs.dropWhile isLetter)
      else if isDigit c || c == '.' then munchNumber (c :: cs)
      else (sign c, cs)

theorem chars_append_munchNumber (cs : List Char) :
    (munchNumber cs).1.chars ++ (munchNumber cs).2 = cs := by
  unfold munchNumber
  split
  next ds h =>
    have e : cs.takeWhile isDigit ++ '.' :: ds = cs := by
      rw [← h, List.takeWhile_append_dropWhile]
    show (cs.takeWhile isDigit ++ '.' :: ds.takeWhile isDigit) ++ ds.dropWhile isDigit = cs
    rw [List.append_assoc, List.cons_append, List.takeWhile_append_dropWhile, e]
  next => exact List.takeWhile_append_dropWhile

/-- **Nothing is lost.**  The lexeme cut off and the text behind it make up the text. -/
theorem chars_append_of_munch {cs rest : List Char} {l : Lexeme}
    (h : munch cs = some (l, rest)) : l.chars ++ rest = cs := by
  cases cs with
  | nil => cases h
  | cons c cs =>
    rw [munch, Option.some.injEq] at h
    split at h
    · obtain ⟨rfl, rfl⟩ := Prod.mk.inj h
      show c :: cs.takeWhile isLetter ++ cs.dropWhile isLetter = c :: cs
      rw [List.cons_append, List.takeWhile_append_dropWhile]
    · split at h
      · have e := chars_append_munchNumber (c :: cs)
        rwa [h] at e
      · obtain ⟨rfl, rfl⟩ := Prod.mk.inj h
        rfl

theorem munchNumber_chars_ne_nil {c : Char} (h : (isDigit c || c == '.') = true)
    (cs : List Char) : (munchNumber (c :: cs)).1.chars ≠ [] := by
  unfold munchNumber
  split
  · exact fun e => List.cons_ne_nil _ _ (List.append_eq_nil_iff.mp e).2
  next hne =>
    cases hd : isDigit c with
    | true =>
      rw [List.takeWhile_cons_of_pos hd]
      exact List.cons_ne_nil _ _
    | false =>
      rw [hd, Bool.false_or, beq_iff_eq] at h
      subst h
      exact absurd (List.dropWhile_cons_of_neg (by decide)) (hne cs)

theorem chars_ne_nil_of_munch {cs rest : List Char} {l : Lexeme}
    (h : munch cs = some (l, rest)) : l.chars ≠ [] := by
  cases cs with
  | nil => cases h
  | cons c cs =>
    rw [munch, Option.some.injEq] at h
    split at h
    · obtain ⟨rfl, rfl⟩ := Prod.mk.inj h
      exact List.cons_ne_nil _ _
    · split at h
      next hn =>
        have e := munchNumber_chars_ne_nil hn cs
        rwa [h] at e
      next =>
        obtain ⟨rfl, rfl⟩ := Prod.mk.inj h
        exact List.cons_ne_nil _ _

theorem length_lt_of_munch {cs rest : List Char} {l : Lexeme}
    (h : munch cs = some (l, rest)) : rest.length < cs.length := by
  have hl := List.length_pos_iff.mpr (chars_ne_nil_of_munch h)
  have e := congrArg List.length (chars_append_of_munch h)
  rw [List.length_append] at e
  omega

/-! ## What it means -/

/-- the token that the lexeme is at `p`, or the reason why it is none -/
def read (l : Lexeme) (p : Position) : Outcome :=
  match l with
  | word _ =>
    match Token.Kind.ofKeyword? l.spelling with
    | some k => .ok ⟨k, p, none⟩
    | none => .ok ⟨.name, p, some l.spelling⟩
  | whole _ => .ok ⟨.integer, p, some l.spelling⟩
  | pointed _ fraction =>
    if 1 ≤ fraction.length ∧ fraction.length ≤ maxFractionDigits then
      .ok ⟨.decimal, p, some l.spelling⟩
    else .error (.malformedDecimal l.spelling fraction.length p)
  | sign c =>
    match Token.Kind.ofSign? c with
    | some k => .ok ⟨k, p, none⟩
    | none => .error (.illegalCharacter c p)

end Lexeme
end DeskCalc
