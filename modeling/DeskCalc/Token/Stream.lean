import DeskCalc.Token.Reader

/-!
# Streams

A stream is all that a reader has still to deliver: tokens and faults in order, and then the end
token for ever.  Whoever makes a tree of a text needs nothing else of the reader.

* `Reader.stream`   what a reader has still to deliver;
* `Stream.ofText`    what a text delivers from its beginning.
-/

namespace DeskCalc

/-- tokens and faults still to come, and the end token behind them -/
structure Stream where
  outcomes : List Outcome
  last : Token

def Cursor.stream (c : Cursor) : Stream := ⟨c.outcomes, c.endToken⟩

/-- the stream from a reader on; a held token comes first, a held end token is the last one -/
def Reader.stream (s : Reader) : Stream :=
  match s.held with
  | none => s.cursor.stream
  | some t =>
    if t.kind = .endOfText then ⟨[], t⟩ else ⟨.ok t :: s.cursor.outcomes, s.cursor.endToken⟩

def Stream.ofText (s : String) : Stream := (Cursor.ofText s).stream

theorem Reader.stream_ofText (s : String) : (Reader.ofText s).stream = Stream.ofText s := rfl

end DeskCalc
