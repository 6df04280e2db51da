import DeskCalc.Proofs.Parsing
import DeskCalc.Proofs.Relabeling

/-!
# Tokens in other places

Of the place of a token the parser takes no notice: it copies it into the tree, or into the fault if
the token is refused.  So tokens that are moved to other places are parsed to the moved tree, or are
refused with the moved fault.  A stage holds parts of a tree, and moves with them
(`Stage.move?_moved`, one token; `Stage.parse_moved`, all of them).  A check and the code behind it
report places and do no more with them either (`compile_moved`), and this is what `Relabeling` says
of programs that keep their names.

Each kind of thing that has places is moved by a map of positions, given as the last argument.
-/

namespace DeskCalc

/-! ## Moved things -/

def Token.moved (t : Token) (f : Position → Position) : Token := { t with pos := f t.pos }

def LexicalFault.moved (e : LexicalFault) (f : Position → Position) : LexicalFault :=
  { e with pos := f e.pos }

def SyntaxFault.moved (e : SyntaxFault) (f : Position → Position) : SyntaxFault :=
  { e with pos := f e.pos }

def SemanticFault.moved (e : SemanticFault) (f : Position → Position) : SemanticFault :=
  { e with pos := f e.pos }

def FaultLog.moved (l : FaultLog) (f : Position → Position) : FaultLog :=
  ⟨l.entries.map fun e => e.moved f⟩

/-- new places and the old names -/
def Relabeling.moving (f : Position → Position) : Relabeling := { place := f }

def Fault.moved (e : Fault) (f : Position → Position) : Fault :=
  match e with
  | file path cause => file path cause
  | lexical cause => lexical (cause.moved f)
  | grammar cause => grammar (cause.moved f)
  | semantic log => semantic (log.moved f)
  | code cause => code ((Relabeling.moving f).codeFault cause)

def Identifier.moved (id : Identifier) (f : Position → Position) : Identifier :=
  (Relabeling.moving f).revision.identifier id

def Expr.moved (e : Expr) (f : Position → Position) : Expr := e.revise (Relabeling.moving f).revision

def Item.moved (i : Item) (f : Position → Position) : Item := i.revise (Relabeling.moving f).revision

def Program.moved (p : Program) (f : Position → Position) : Program :=
  p.revise (Relabeling.moving f).revision

def Waiting.moved (w : Waiting) (f : Position → Position) : Waiting := ⟨w.left.moved f, w.op⟩

def Stage.moved (s : Stage) (f : Position → Position) : Stage :=
  match s with
  | item => item
  | declareType declared p => declareType declared (f p)
  | declareName declared p id => declareName declared (f p) (id.moved f)
  | printWord p => printWord (f p)
  | printName p id => printName (f p) (id.moved f)
  | target id => target (id.moved f)
  | value id sum term => value (id.moved f) (sum.map (·.moved f)) (term.map (·.moved f))
  | operator id sum term => operator (id.moved f) (sum.map (·.moved f)) (term.moved f)

def Move.moved (m : Move) (f : Position → Position) : Move :=
  match m with
  | shift next => shift (next.moved f)
  | complete i => complete (i.moved f)

def Outcome.moved (o : Outcome) (f : Position → Position) : Outcome :=
  match o with
  | .ok t => .ok (t.moved f)
  | .error e => .error (e.moved f)

/-! ## Parsing -/

section Parse
variable (f : Position → Position)

theorem Waiting.close_moved (w : Option Waiting) (e : Expr) :
    Waiting.close (w.map (·.moved f)) (e.moved f) = (Waiting.close w e).moved f := by
  cases w with
  | none => rfl
  | some w =>
    show Expr.binary w.op (w.left.moved f) (e.moved f) none (w.left.moved f).pos = _
    rw [Expr.moved, pos_revise]
    rfl

theorem Token.operand?_moved (t : Token) :
    (t.moved f).operand? = t.operand?.map (·.moved f) := by
  obtain ⟨kind, p, v⟩ := t
  cases kind <;> rfl

/-- **One token.**  A moved token does to a moved stage what it did, and the outcome is moved. -/
theorem Stage.move?_moved (s : Stage) (t : Token) :
    (s.moved f).move? (t.moved f) = (s.move? t).map (·.moved f) := by
  have hkind : (t.moved f).kind = t.kind := rfl
  have hid : (t.moved f).identifier = t.identifier.moved f := rfl
  cases s with
  | item =>
    obtain ⟨kind, p, v⟩ := t
    cases kind <;> rfl
  | declareType declared p =>
    simp only [Stage.moved, Stage.move?, hkind, hid]
    split <;> rfl
  | declareName declared p id =>
    simp only [Stage.moved, Stage.move?, hkind]
    split <;> rfl
  | printWord p =>
    simp only [Stage.moved, Stage.move?, hkind, hid]
    split <;> rfl
  | printName p id =>
    simp only [Stage.moved, Stage.move?, hkind]
    split <;> rfl
  | target id =>
    simp only [Stage.moved, Stage.move?, hkind]
    split <;> rfl
  | value id sum term =>
    simp only [Stage.moved, Stage.move?, Token.operand?_moved, Option.map_map]
    congr 1
    funext v
    exact congrArg (fun e => Move.shift (.operator _ _ e)) (Waiting.close_moved f term v)
  | operator id sum term =>
    simp only [Stage.moved, Stage.move?, hkind, Waiting.close_moved]
    split <;> rfl

theorem Stage.wanted_moved (s : Stage) : (s.moved f).wanted = s.wanted := by
  cases s <;> rfl

theorem Stage.refuse_moved (s : Stage) (t : Token) :
    (s.moved f).refuse (t.moved f) = (s.refuse t).moved f := by
  rw [Stage.refuse, wanted_moved]
  rfl

theorem Stage.moved_eq_item_iff (s : Stage) : s.moved f = item ↔ s = item := by
  cases s <;> simp [Stage.moved]

/-- **All tokens.**  From a moved stage on, moved tokens are parsed to the moved items, or to the
moved fault. -/
theorem Stage.parse_moved (last : Token) (s : Stage) (os : List Outcome) :
    (parse (last.moved f) (s.moved f) (os.map (Outcome.moved · f))).1 =
      ((parse last s os).1.map (List.map (·.moved f))).mapError (·.moved f) := by
  induction os generalizing s with
  | nil =>
    rw [List.map_nil, parse, parse]
    by_cases h : s = item
    · rw [if_pos h, if_pos ((moved_eq_item_iff f s).mpr h)]
      rfl
    · rw [if_neg h, if_neg (mt (moved_eq_item_iff f s).mp h), refuse_moved]
      rfl
  | cons o os ih =>
    cases o with
    | error e => rfl
    | ok t =>
      show (parse (last.moved f) (s.moved f) (.ok (t.moved f) :: os.map (Outcome.moved · f))).1 = _
      have hm := move?_moved f s t
      cases h : s.move? t with
      | none =>
        rw [h, Option.map_none] at hm
        rw [parse_refuse _ hm, parse_refuse _ h, refuse_moved]
        rfl
      | some m =>
        rw [h, Option.map_some] at hm
        cases m with
        | shift next => rw [parse_shift _ hm, parse_shift _ h, ih]
        | complete i =>
          have hrest := ih item
          rw [parse_complete _ hm, parse_complete _ h]
          change (parse (last.moved f) item _).1 = _ at hrest
          rw [hrest]
          cases (parse last item os).1 <;> rfl

end Parse

/-! ## Programs -/

section Compile
variable {f : Position → Position}

theorem Relabeling.Reports.eq_moved {e e' : SemanticFault} (h : (moving f).Reports e e') :
    e' = e.moved f := by
  cases h <;> rfl

theorem entries_eq_of_reports {es es' : List SemanticFault}
    (h : List.Forall₂ (Relabeling.moving f).Reports es es') :
    es' = es.map fun e => e.moved f := by
  induction h with
  | nil => rfl
  | cons he _ ih => rw [he.eq_moved, ih, List.map_cons]

/-- **Places do not matter.**  A moved program has the same code, or it has none for the same reason,
which is found in the place that was moved. -/
theorem compile_moved (f : Position → Position) (c : Compiler) (p : Program) :
    (c.compile (p.moved f)).1 = (c.compile p).1.mapError (·.moved f) := by
  have hinj : Set.InjOn (Relabeling.moving f).name {n | n ∈ p.names} := fun _ _ _ _ h => h
  unfold Program.moved
  rcases compile_relabel hinj c with ⟨log, log', h, h', hlog⟩ | ⟨e, h, h'⟩ | ⟨text, h, h'⟩
  · have hmoved : log' = log.moved f := congrArg FaultLog.mk (entries_eq_of_reports hlog)
    rw [h, h', hmoved]
    rfl
  · rw [h, h']
    rfl
  · rw [h, h']
    rfl

/-- What a text is compiled to depends on places only as far as its program or its fault does. -/
theorem source_compile_moved (f : Position → Position) (text : String) :
    (Source.compile text).mapError (·.moved f) =
      (((Source.parse text).map (·.moved f)).mapError (·.moved f)).bind
        fun p => (Compiler.compile {} p).1 := by
  unfold Source.compile
  cases Source.parse text with
  | error e => rfl
  | ok p => exact (compile_moved f {} p).symm

end Compile
end DeskCalc
