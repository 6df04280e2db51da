import DeskCalc.Token.Stream
import DeskCalc.Tree

/-!
# From tokens to a tree

The grammar has no nesting:

    program      ::=  (declaration | statement)*  end
    declaration  ::=  ("int" | "float")  name  ";"
    statement    ::=  name  "="  sum  ";"   |   "print"  name  ";"
    sum          ::=  term  (("+" | "-")  term)*
    term         ::=  value  (("*" | "/")  value)*
    value        ::=  integer | decimal | name

so no stack is needed: at every token the work is at one of eight stages, and the stage holds what
has been read of the item at hand.  Of an expression that is a sum and a term so far, each with the
operator that waits for its right side; operators of one rank are applied from the left because the
waiting one is applied as soon as its right side is complete.

* `Stage.move?`    what one token does at a stage, if it may stand there;
* `Stage.wanted`   the kind that a refused token is measured against;
* `Stage.parse`    the items of a stream, with what is left of it: a faulty lexeme is used up, a
                   refused token is not;
* `Stream.parse`   a program.
-/

namespace DeskCalc

/-- the left side of an operator that waits for its right side -/
structure Waiting where
  left : Expr
  op : Operator
deriving DecidableEq

/-- apply the waiting operator, if there is one, to its right side -/
def Waiting.close : Option Waiting → Expr → Expr
  | none, right => right
  | some w, right => .apply w.op w.left right

/-- what has been read of the item at hand -/
inductive Stage
  /-- nothing: an item begins, or the text ends -/
  | item
  /-- the type of a declaration -/
  | declareType (declared : NumType) (pos : Position)
  /-- the type and the name of a declaration -/
  | declareName (declared : NumType) (pos : Position) (id : Identifier)
  /-- the keyword of a print -/
  | printWord (pos : Position)
  /-- the keyword and the name of a print -/
  | printName (pos : Position) (id : Identifier)
  /-- the target of an assignment -/
  | target (id : Identifier)
  /-- an assignment up to where a value must follow -/
  | value (target : Identifier) (sum term : Option Waiting)
  /-- an assignment up to a complete term, before which a sum may wait -/
  | operator (target : Identifier) (sum : Option Waiting) (term : Expr)
deriving DecidableEq

inductive Move
  /-- the item goes on -/
  | shift (next : Stage)
  /-- the item is complete -/
  | complete (i : Item)
deriving DecidableEq

def Token.identifier (t : Token) : Identifier := { name := t.text, pos := t.pos }

/-- the value that a token is, if it is one -/
def Token.operand? (t : Token) : Option Expr :=
  match t.kind with
  | .integer => some (.literal t.text .int t.pos)
  | .decimal => some (.literal t.text .float t.pos)
  | .name => some (.read t.identifier)
  | _ => none

namespace Stage

/-- what the token does at the stage, if it may stand there -/
def move? (s : Stage) (t : Token) : Option Move :=
  match s with
  | item =>
    match t.kind with
    | .intType => some (.shift (declareType .int t.pos))
    | .floatType => some (.shift (declareType .float t.pos))
    | .print => some (.shift (printWord t.pos))
    | .name => some (.shift (target t.identifier))
    | _ => none
  | declareType declared p =>
    if t.kind = .name then some (.shift (declareName declared p t.identifier)) else none
  | declareName declared p id =>
    if t.kind = .semicolon then some (.complete (.declare declared id none p)) else none
  | printWord p =>
    if t.kind = .name then some (.shift (printName p t.identifier)) else none
  | printName p id =>
    if t.kind = .semicolon then some (.complete (.print id none p)) else none
  | target id =>
    if t.kind = .assign then some (.shift (value id none none)) else none
  | value id sum term =>
    t.operand?.map fun v => .shift (operator id sum (Waiting.close term v))
  | operator id sum term =>
    match t.kind with
    | .plus => some (.shift (value id (some ⟨Waiting.close sum term, .plus⟩) none))
    | .minus => some (.shift (value id (some ⟨Waiting.close sum term, .minus⟩) none))
    | .times => some (.shift (value id sum (some ⟨term, .times⟩)))
    | .divide => some (.shift (value id sum (some ⟨term, .divide⟩)))
    | .semicolon => some (.complete (.assign id (Waiting.close sum term) none id.pos))
    | _ => none

/-- the kind a refused token is measured against; there is none where several could stand, except
that behind a term only the end of the assignment is named -/
def wanted : Stage → Option Token.Kind
  | item | value .. => none
  | declareType .. | printWord .. => some .name
  | declareName .. | printName .. | operator .. => some .semicolon
  | target .. => some .assign

/-- the fault of the token `t`, which may not stand at the stage -/
def refuse (s : Stage) (t : Token) : Fault := .grammar (.refused s.wanted t)

/-- the items from a stage on, up to the end of the text, and the outcomes not used up -/
def parse (last : Token) : Stage → List Outcome → Except Fault (List Item) × List Outcome
  | s, [] => (if s = item then .ok [] else .error (s.refuse last), [])
  | _, .error f :: os => (.error (.lexical f), os)
  | s, .ok t :: os =>
    match s.move? t with
    | some (.shift next) => parse last next os
    | some (.complete i) =>
      let r := parse last item os
      (r.1.map (i :: ·), r.2)
    | none => (.error (s.refuse t), .ok t :: os)

end Stage

/-- the program that the stream is, and the stream not used up -/
def Stream.parse (s : Stream) : Except Fault Program × Stream :=
  let r := Stage.parse s.last .item s.outcomes
  (r.1.map fun items => { items := items }, { s with outcomes := r.2 })

end DeskCalc
