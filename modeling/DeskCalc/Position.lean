/-!
# Positions in a text

A position is a line and a column, both counted from one.  A column counts Unicode scalar values,
so it moves by one for every character whatever its width; a line feed, and nothing else, opens
the next line.

* `Position.start`    the position of the first character of a text;
* `Position.step`     one character further;
* `Position.past`     past a whole run of characters (`past_nil`, `past_cons`, `past_append`);
* `Position.locate`   a message with the position it is about.
-/

namespace DeskCalc

/-- a place in a text -/
structure Position where
  line : Nat
  column : Nat
deriving DecidableEq

namespace Position

def start : Position := ⟨1, 1⟩

/-- the place behind the character `c`, when `c` stands at `p` -/
def step (p : Position) (c : Char) : Position :=
  if c = '\n' then ⟨p.line + 1, 1⟩ else ⟨p.line, p.column + 1⟩

/-- the place behind a run of characters that begins at `p` -/
def past (p : Position) (cs : List Char) : Position := cs.foldl step p

@[simp] theorem past_nil (p : Position) : p.past [] = p := rfl

@[simp] theorem past_cons (p : Position) (c : Char) (cs : List Char) :
    p.past (c :: cs) = (p.step c).past cs := rfl

theorem past_append (p : Position) (cs ds : List Char) :
    p.past (cs ++ ds) = (p.past cs).past ds := List.foldl_append

theorem step_lineFeed (p : Position) : p.step '\n' = ⟨p.line + 1, 1⟩ := rfl

theorem step_of_ne {c : Char} (h : c ≠ '\n') (p : Position) :
    p.step c = ⟨p.line, p.column + 1⟩ := if_neg h

/-! ## Text -/

def render (p : Position) : String :=
  "line " ++ toString p.line ++ ", column " ++ toString p.column

/-- the message `m` about the place `p` -/
def locate (p : Position) (m : String) : String := m ++ " at " ++ p.render

end Position
end DeskCalc
