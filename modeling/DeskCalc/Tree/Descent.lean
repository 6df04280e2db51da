import DeskCalc.Tree.Parse

/-!
# Recursive descent

The parser as its grammar reads: every rule is a part of its own, and the parts call each other.  A
part looks at the token in front and takes it only if it may stand there.  So what a part leaves is a
reader, the place in the text with the token that was looked at and not taken, if there is one; and
whoever goes on with this reader goes on where the part has stopped, also behind a fault.

A part never leaves more than it found (`Part.remaining_le`), and an item takes at least one token, so
that the loops end.  It makes the same of a text as the stages do (see `DeskCalc.Proofs.Descent`).

* `Part`            a part of the parser;
* `Part.look`, `Part.take`, `Part.expect`   the token in front: looked at, taken, or taken if it is of
                    one kind;
* `Part.chain`      operands with operators between them, applied from the left;
* `Part.program`    the rule for a program;
* `Reader.parse`    a program, and the reader behind it.
-/

namespace DeskCalc

/-! ## What is left to read -/

namespace Reader

/-- a bound for the tokens that a reader has still to deliver before the end -/
def remaining (s : Reader) : Nat :=
  s.cursor.rest.length + s.held.toList.countP fun t => t.kind != .endOfText

theorem remaining_peek_le (s : Reader) : s.peek.2.remaining ≤ s.remaining := by
  obtain ⟨c, held⟩ := s
  cases held with
  | some t => exact Nat.le_refl _
  | none =>
    cases h : c.advance? with
    | none =>
      have hle := c.length_skipBlanks_le
      simpa [peek, Cursor.scan, h, remaining, Except.toOption, Token.endAt, Cursor.endToken]
    | some od =>
      have hlt := Cursor.length_lt_of_advance? h
      have hone : (od.1.toOption.toList.countP fun t => t.kind != .endOfText) ≤ 1 := by
        refine Nat.le_trans List.countP_le_length ?_
        cases od.1.toOption <;> simp
      simp only [peek, Cursor.scan, h, remaining, Option.getD_some, Option.toList_none,
        List.countP_nil]
      omega

theorem remaining_next_le (s : Reader) : s.next.2.remaining ≤ s.remaining := by
  obtain ⟨c, held⟩ := s
  cases held with
  | some t => exact Nat.le_add_right _ _
  | none =>
    cases h : c.advance? with
    | none =>
      have hle := c.length_skipBlanks_le
      simpa [next, Cursor.scan, h, remaining]
    | some od =>
      have hlt := Cursor.length_lt_of_advance? h
      simp only [next, Cursor.scan, h, remaining, Option.getD_some, Option.toList_none,
        List.countP_nil]
      omega

theorem remaining_next_lt {s : Reader} {t : Token} (h : s.next.1 = .ok t)
    (hk : t.kind ≠ .endOfText) : s.next.2.remaining < s.remaining := by
  obtain ⟨c, held⟩ := s
  cases held with
  | some u =>
    obtain rfl : u = t := Except.ok.inj h
    simp [next, remaining, hk]
  | none =>
    cases hadv : c.advance? with
    | none =>
      simp only [next, Cursor.scan, hadv, Option.getD_none] at h
      obtain rfl := Except.ok.inj h
      exact absurd rfl hk
    | some od =>
      have hlt := Cursor.length_lt_of_advance? hadv
      simp only [next, Cursor.scan, hadv, remaining, Option.getD_some, Option.toList_none,
        List.countP_nil]
      omega

theorem next_of_peek {s : Reader} {t : Token} (h : s.peek.1 = .ok t) : s.peek.2.next.1 = .ok t := by
  obtain ⟨c, held⟩ := s
  cases held with
  | some u => exact h
  | none =>
    have hscan : c.scan.1 = .ok t := h
    simp [peek, next, hscan, Except.toOption]

end Reader

/-! ## Parts -/

/-- a part of the parser: what it makes of the tokens in front, and the reader behind them -/
structure Part (α : Type) where
  run : Reader → Except Fault α × Reader
  remaining_le : ∀ s, (run s).2.remaining ≤ s.remaining

namespace Part
variable {α β : Type}

def ready (a : α) : Part α := ⟨fun s => (.ok a, s), fun _ => Nat.le_refl _⟩

def fail (f : Fault) : Part α := ⟨fun s => (.error f, s), fun _ => Nat.le_refl _⟩

/-- a part and then another, unless the first one fails -/
def andThen (p : Part α) (g : α → Part β) : Part β where
  run s :=
    match p.run s with
    | (.ok a, s') => (g a).run s'
    | (.error f, s') => (.error f, s')
  remaining_le s := by
    have hp := p.remaining_le s
    split
    next a s' h =>
      rw [h] at hp
      exact Nat.le_trans ((g a).remaining_le s') hp
    next f s' h =>
      rw [h] at hp
      exact hp

instance : Monad Part where
  pure := ready
  bind := andThen

section Run
variable {p : Part α} {g : α → Part β} {s s' : Reader} {a : α} {b : β} {f : Fault}

theorem run_pure (a : α) (s : Reader) : (pure a : Part α).run s = (.ok a, s) := rfl

theorem run_bind_of_ok (h : p.run s = (.ok a, s')) : (p >>= g).run s = (g a).run s' := by
  show (p.andThen g).run s = _
  unfold andThen
  simp only [h]

theorem run_bind_of_error (h : p.run s = (.error f, s')) : (p >>= g).run s = (.error f, s') := by
  show (p.andThen g).run s = _
  unfold andThen
  simp only [h]

theorem run_bind_inv (h : (p >>= g).run s = (.ok b, s')) :
    ∃ a s₁, p.run s = (.ok a, s₁) ∧ (g a).run s₁ = (.ok b, s') := by
  rcases hp : p.run s with ⟨f | a, s₁⟩
  · rw [run_bind_of_error hp] at h
    cases congrArg Prod.fst h
  · rw [run_bind_of_ok hp] at h
    exact ⟨a, s₁, rfl, h⟩

end Run

/-! ## Tokens -/

/-- the token in front, which stays there -/
def look : Part Token where
  run s := (s.peek.1.mapError .lexical, s.peek.2)
  remaining_le s := s.remaining_peek_le

/-- the token in front, which is read -/
def take : Part Token where
  run s := (s.next.1.mapError .lexical, s.next.2)
  remaining_le s := s.remaining_next_le

def refuse (expected : Option Token.Kind) (t : Token) : Part α :=
  fail (.grammar (.refused expected t))

/-- the fault of the token in front, where several could stand -/
def unexpected : Part α := do refuse none (← look)

/-- the token in front, if it is of the kind `k` -/
def expect (k : Token.Kind) : Part Token := do
  let t ← look
  if t.kind = k then take else refuse (some k) t

/-! ## Parts that take something -/

/-- a part that leaves less than it found, unless it fails -/
def Consumes (p : Part α) : Prop :=
  ∀ s a s', p.run s = (.ok a, s') → s'.remaining < s.remaining

theorem Consumes.bind {p : Part α} (h : p.Consumes) (g : α → Part β) : (p >>= g).Consumes := by
  intro s b s' hrun
  obtain ⟨a, s₁, hp, hg⟩ := run_bind_inv hrun
  have hle := (g a).remaining_le s₁
  rw [hg] at hle
  exact Nat.lt_of_le_of_lt hle (h s a s₁ hp)

theorem consumes_bind {p : Part α} {g : α → Part β} (h : ∀ a, (g a).Consumes) :
    (p >>= g).Consumes := by
  intro s b s' hrun
  obtain ⟨a, s₁, hp, hg⟩ := run_bind_inv hrun
  have hle := p.remaining_le s
  rw [hp] at hle
  exact Nat.lt_of_lt_of_le (h a s₁ b s' hg) hle

theorem consumes_unexpected : (unexpected : Part α).Consumes := by
  intro s a s' h
  obtain ⟨t, s₁, -, ht⟩ := run_bind_inv h
  cases congrArg Prod.fst ht

theorem remaining_of_take {s s' : Reader} {t : Token} (h : take.run s = (.ok t, s'))
    (hk : t.kind ≠ .endOfText) : s'.remaining < s.remaining := by
  obtain ⟨ht, rfl⟩ := Prod.mk.inj h
  cases hn : s.next.1 with
  | error f =>
    rw [hn] at ht
    cases ht
  | ok u =>
    rw [hn] at ht
    obtain rfl := Except.ok.inj ht
    exact Reader.remaining_next_lt hn hk

theorem take_of_look {s s' : Reader} {t : Token} (h : look.run s = (.ok t, s')) :
    (take.run s').1 = .ok t := by
  obtain ⟨ht, rfl⟩ := Prod.mk.inj h
  cases hp : s.peek.1 with
  | error f =>
    rw [hp] at ht
    cases ht
  | ok u =>
    rw [hp] at ht
    obtain rfl := Except.ok.inj ht
    show s.peek.2.next.1.mapError _ = _
    rw [Reader.next_of_peek hp]
    rfl

/-- What is taken behind a look is the token that was looked at. -/
theorem remaining_of_look {s s₁ s₂ : Reader} {t u : Token} (hl : look.run s = (.ok t, s₁))
    (ht : take.run s₁ = (.ok u, s₂)) (hk : t.kind ≠ .endOfText) :
    s₂.remaining < s.remaining := by
  have hu := take_of_look hl
  rw [ht] at hu
  obtain rfl := Except.ok.inj hu
  have hle := look.remaining_le s
  rw [hl] at hle
  exact Nat.lt_of_lt_of_le (remaining_of_take ht hk) hle

theorem consumes_expect {k : Token.Kind} (hk : k ≠ .endOfText) : (expect k).Consumes := by
  intro s u s' h
  obtain ⟨t, s₁, hl, ht⟩ := run_bind_inv h
  by_cases e : t.kind = k
  · rw [if_pos e] at ht
    exact remaining_of_look hl ht (e ▸ hk)
  · rw [if_neg e] at ht
    cases congrArg Prod.fst ht

/-! ## Loops -/

/-- a part that leaves less than it found, if it has something to go on with -/
def Advances (p : Part (Option α)) : Prop :=
  ∀ s a s', p.run s = (.ok (some a), s') → s'.remaining < s.remaining

/-- a step again and again, until it has nothing to go on with -/
def loopRun (step : α → Part (Option α)) (h : ∀ a, (step a).Advances) (a : α) (s : Reader) :
    Except Fault α × Reader :=
  match _hstep : (step a).run s with
  | (.error f, s') => (.error f, s')
  | (.ok none, s') => (.ok a, s')
  | (.ok (some b), s') => loopRun step h b s'
termination_by s.remaining
decreasing_by exact h a s b s' _hstep

def loop (step : α → Part (Option α)) (h : ∀ a, (step a).Advances) (a : α) : Part α where
  run := loopRun step h a
  remaining_le s := by
    fun_induction loopRun step h a s with
    | case1 a s f s' hstep =>
      have hle := (step a).remaining_le s
      rwa [hstep] at hle
    | case2 a s s' hstep =>
      have hle := (step a).remaining_le s
      rwa [hstep] at hle
    | case3 a s b s' hstep ih => exact Nat.le_trans ih (Nat.le_of_lt (h a s b s' hstep))

/-! ## Values, terms and sums -/

def identifier : Part Identifier := do return (← expect .name).identifier

def value : Part Expr := do
  match (← look).kind with
  | .integer =>
    let t ← expect .integer
    return .literal t.text .int t.pos
  | .decimal =>
    let t ← expect .decimal
    return .literal t.text .float t.pos
  | .name => return .read (← identifier)
  | _ => unexpected

/-- `left` with the operator in front and its right side, if there is an operator in front -/
def applyNext (sign? : Token.Kind → Option Operator) (operand : Part Expr) (left : Expr) :
    Part (Option Expr) := do
  let t ← look
  match sign? t.kind with
  | none => return none
  | some op =>
    let _ ← take
    return some (.apply op left (← operand))

theorem advances_applyNext {sign? : Token.Kind → Option Operator} (hend : sign? .endOfText = none)
    (operand : Part Expr) (left : Expr) : (applyNext sign? operand left).Advances := by
  intro s e s' h
  obtain ⟨t, s₁, hl, h⟩ := run_bind_inv h
  cases hsign : sign? t.kind with
  | none =>
    simp only [hsign] at h
    cases congrArg Prod.fst h
  | some op =>
    simp only [hsign] at h
    obtain ⟨u, s₂, ht, h⟩ := run_bind_inv h
    obtain ⟨right, s₃, hr, h⟩ := run_bind_inv h
    obtain ⟨-, rfl⟩ := Prod.mk.inj h
    have hk : t.kind ≠ .endOfText := by
      intro e
      rw [e, hend] at hsign
      cases hsign
    have hle := operand.remaining_le s₂
    rw [hr] at hle
    exact Nat.lt_of_le_of_lt hle (remaining_of_look hl ht hk)

/-- operands with operators between them, applied from the left -/
def chain (sign? : Token.Kind → Option Operator) (hend : sign? .endOfText = none)
    (operand : Part Expr) : Part Expr := do
  loop (applyNext sign? operand) (advances_applyNext hend operand) (← operand)

def productSign? : Token.Kind → Option Operator
  | .times => some .times
  | .divide => some .divide
  | _ => none

def sumSign? : Token.Kind → Option Operator
  | .plus => some .plus
  | .minus => some .minus
  | _ => none

def term : Part Expr := chain productSign? rfl value

def sum : Part Expr := chain sumSign? rfl term

/-! ## Items -/

def typeOf (keyword : Token) : Part NumType :=
  match keyword.kind with
  | .intType => pure .int
  | .floatType => pure .float
  | _ => refuse none keyword

def declaration : Part Item := do
  let keyword ← take
  let declared ← typeOf keyword
  let id ← identifier
  let _ ← expect .semicolon
  return .declare declared id none keyword.pos

def statement : Part Item := do
  match (← look).kind with
  | .name =>
    let id ← identifier
    let _ ← expect .assign
    let value ← sum
    let _ ← expect .semicolon
    return .assign id value none id.pos
  | .print =>
    let keyword ← expect .print
    let id ← identifier
    let _ ← expect .semicolon
    return .print id none keyword.pos
  | _ => unexpected

theorem consumes_identifier : identifier.Consumes := (consumes_expect (by decide)).bind _

theorem consumes_declaration : declaration.Consumes :=
  consumes_bind fun _ => consumes_bind fun _ => consumes_identifier.bind _

theorem consumes_statement : statement.Consumes := by
  refine consumes_bind fun t => ?_
  split
  · exact consumes_identifier.bind _
  · exact (consumes_expect (by decide)).bind _
  · exact consumes_unexpected

/-- the items with the one in front behind them, if it is an item that is in front -/
def addItem (items : List Item) : Part (Option (List Item)) := do
  match (← look).kind with
  | .intType | .floatType => return some (items ++ [← declaration])
  | .name | .print => return some (items ++ [← statement])
  | .endOfText => return none
  | _ => unexpected

theorem advances_addItem (items : List Item) : (addItem items).Advances := by
  intro s a s' h
  obtain ⟨t, s₁, hl, h⟩ := run_bind_inv h
  have hle := look.remaining_le s
  rw [hl] at hle
  refine Nat.lt_of_lt_of_le ?_ hle
  split at h
  · exact (consumes_declaration.bind _) _ _ _ h
  · exact (consumes_declaration.bind _) _ _ _ h
  · exact (consumes_statement.bind _) _ _ _ h
  · exact (consumes_statement.bind _) _ _ _ h
  · cases congrArg Prod.fst h
  · exact consumes_unexpected _ _ _ h

def program : Part Program := do
  let items ← loop addItem advances_addItem []
  let _ ← expect .endOfText
  return { items := items }

end Part

/-- the program in front of a reader, and the reader behind it -/
def Reader.parse (s : Reader) : Except Fault Program × Reader := Part.program.run s

end DeskCalc
