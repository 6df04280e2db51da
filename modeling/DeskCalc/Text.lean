/-!
# Three rules for text

The forms of text that more than one part of the program writes:

* `Text.joinWith`   texts in a row with a separator between neighbours;
* `Text.padRight`   a text filled up with spaces to a column width, never cut;
* `Text.escape`     one character as it is quoted in a message: printable ASCII stands for itself,
                    the usual controls and the quotes get a backslash, anything else is written as
                    its code point in hexadecimal.
-/

namespace DeskCalc.Text

/-! ## Rows of texts -/

/-- the texts one after the other, `sep` between neighbours -/
def joinWith (sep : String) : List String → String
  | [] => ""
  | [t] => t
  | t :: u :: ts => t ++ sep ++ joinWith sep (u :: ts)

@[simp] theorem joinWith_nil (sep : String) : joinWith sep [] = "" := rfl

@[simp] theorem joinWith_singleton (sep t : String) : joinWith sep [t] = t := rfl

theorem joinWith_cons_cons (sep t u : String) (ts : List String) :
    joinWith sep (t :: u :: ts) = t ++ sep ++ joinWith sep (u :: ts) := rfl

theorem toList_joinWith_empty (ts : List String) :
    (joinWith "" ts).toList = ts.flatMap String.toList := by
  induction ts with
  | nil => rfl
  | cons t ts ih =>
    cases ts with
    | nil => simp
    | cons u ts =>
      rw [joinWith_cons_cons, String.toList_append, String.toList_append, ih]
      simp

/-! ## Columns -/

/-- `t` with spaces behind it up to `width` characters; a longer text is left alone -/
def padRight (width : Nat) (t : String) : String :=
  t ++ String.ofList (List.replicate (width - t.length) ' ')

theorem toList_padRight (width : Nat) (t : String) :
    (padRight width t).toList = t.toList ++ List.replicate (width - t.length) ' ' := by
  rw [padRight, String.toList_append, String.toList_ofList]

/-! ## Quoted characters -/

/-- a code point in lower-case hexadecimal, without leading zeros -/
def hex (n : Nat) : String := String.ofList (Nat.toDigits 16 n)

/-- the character as a message quotes it -/
def escape (c : Char) : String :=
  if c = '\t' then "\\t"
  else if c = '\r' then "\\r"
  else if c = '\n' then "\\n"
  else if c = Char.ofNat 39 then "\\'"
  else if c = '"' then "\\\""
  else if c = '\\' then "\\\\"
  else if 0x20 ≤ c.toNat ∧ c.toNat ≤ 0x7e then String.singleton c
  else "\\u\x7b" ++ hex c.toNat ++ "\x7d"

end DeskCalc.Text
