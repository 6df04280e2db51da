import DeskCalc.Proofs.Grammar
import DeskCalc.Proofs.Splitting

/-!
# The parser finds the trees

A stage of the parser holds the tokens of an item that have been read so far (`Stage.Holds`).  One
token more is held by the next stage, or makes the item complete (`Stage.follows_of_move?`), and so
what a run delivers is the tree of all the tokens (`itemsOf_of_parse`).  The other way round, the
parser walks through a row of tokens as the tree of the row is built (`parse_of_itemsOf`).

* `parse_eq_ok_iff`      a stream has a tree exactly if it holds no fault and its tokens are a row of
                         items;
* `tokenize_eq_ok_iff`   the tokens of a text are what its stream delivers, and the end token.
-/

namespace DeskCalc

namespace Stage

/-! ## What a stage holds -/

/-- the tokens read so far of the item at hand -/
inductive Holds : Stage → List Token → Prop
  | item : Holds item []
  | declareType {d : NumType} {t : Token} (ht : t.kind = d.keyword) :
    Holds (declareType d t.pos) [t]
  | declareName {d : NumType} {t n : Token} (ht : t.kind = d.keyword) (hn : n.kind = .name) :
    Holds (declareName d t.pos n.identifier) [t, n]
  | printWord {t : Token} (ht : t.kind = .print) : Holds (printWord t.pos) [t]
  | printName {t n : Token} (ht : t.kind = .print) (hn : n.kind = .name) :
    Holds (printName t.pos n.identifier) [t, n]
  | target {n : Token} (hn : n.kind = .name) : Holds (target n.identifier) [n]
  | value {n a : Token} {ts us : List Token} {sum term : Option Waiting} (hn : n.kind = .name)
    (ha : a.kind = .assign) (hs : WaitsOf sumOps TermOf ts sum)
    (ht : WaitsOf productOps ValueOf us term) :
    Holds (value n.identifier sum term) (n :: a :: (ts ++ us))
  | operator {n a : Token} {ts us : List Token} {sum : Option Waiting} {term : Expr}
    (hn : n.kind = .name) (ha : a.kind = .assign) (hs : WaitsOf sumOps TermOf ts sum)
    (ht : TermOf us term) : Holds (operator n.identifier sum term) (n :: a :: (ts ++ us))

/-- the tokens behind a move: they are held by the next stage, or they are an item -/
def Follows (ts : List Token) : Move → Prop
  | .shift next => next.Holds ts
  | .complete i => ItemOf ts i

/-- **One token.**  A move takes its token to those that were held. -/
theorem follows_of_move? {s : Stage} {ts : List Token} {t : Token} {m : Move} (h : s.Holds ts)
    (hm : s.move? t = some m) : Follows (ts ++ [t]) m := by
  cases h with
  | item =>
    simp only [move?] at hm
    split at hm
    next hk =>
      obtain rfl := Option.some.inj hm
      exact .declareType (d := .int) hk
    next hk =>
      obtain rfl := Option.some.inj hm
      exact .declareType (d := .float) hk
    next hk =>
      obtain rfl := Option.some.inj hm
      exact .printWord hk
    next hk =>
      obtain rfl := Option.some.inj hm
      exact .target hk
    next => cases hm
  | declareType ht =>
    obtain ⟨hk, hm⟩ := Option.ite_none_right_eq_some.mp hm
    obtain rfl := Option.some.inj hm
    exact .declareName ht hk
  | declareName ht hn =>
    obtain ⟨hk, hm⟩ := Option.ite_none_right_eq_some.mp hm
    obtain rfl := Option.some.inj hm
    exact .declare ht hn hk
  | printWord ht =>
    obtain ⟨hk, hm⟩ := Option.ite_none_right_eq_some.mp hm
    obtain rfl := Option.some.inj hm
    exact .printName ht hk
  | printName ht hn =>
    obtain ⟨hk, hm⟩ := Option.ite_none_right_eq_some.mp hm
    obtain rfl := Option.some.inj hm
    exact .print ht hn hk
  | target hn =>
    obtain ⟨hk, hm⟩ := Option.ite_none_right_eq_some.mp hm
    obtain rfl := Option.some.inj hm
    exact .value hn hk .none .none
  | @value n a ts us sum term hn ha hs ht =>
    obtain ⟨v, hv, rfl⟩ := Option.map_eq_some_iff.mp hm
    show Holds _ (n :: a :: (ts ++ us ++ [t]))
    rw [List.append_assoc]
    exact .operator hn ha hs (Folded.close ht ⟨t, rfl, hv⟩)
  | @operator n a ts us sum term hn ha hs ht =>
    have hsum : SumOf (ts ++ us) (Waiting.close sum term) := Folded.close hs ht
    have hplus : ∀ op ∈ sumOps, t.kind = op.kind →
        Holds (value n.identifier (some ⟨Waiting.close sum term, op⟩) none)
          (n :: a :: (ts ++ us ++ [t])) := by
      intro op hop hk
      rw [← List.append_nil (ts ++ us ++ [t])]
      exact .value hn ha (.some hsum hop hk) .none
    have htimes : ∀ op ∈ productOps, t.kind = op.kind →
        Holds (value n.identifier sum (some ⟨term, op⟩)) (n :: a :: (ts ++ us ++ [t])) := by
      intro op hop hk
      rw [List.append_assoc]
      exact .value hn ha hs (.some ht hop hk)
    simp only [move?] at hm
    split at hm
    next hk =>
      obtain rfl := Option.some.inj hm
      exact hplus .plus (by decide) hk
    next hk =>
      obtain rfl := Option.some.inj hm
      exact hplus .minus (by decide) hk
    next hk =>
      obtain rfl := Option.some.inj hm
      exact htimes .times (by decide) hk
    next hk =>
      obtain rfl := Option.some.inj hm
      exact htimes .divide (by decide) hk
    next hk =>
      obtain rfl := Option.some.inj hm
      exact .assign hn ha hsum hk
    next => cases hm

/-! ## One move of a run -/

section
variable {last t : Token} {s : Stage} (os : List Outcome)

theorem parse_shift {next : Stage} (h : s.move? t = some (.shift next)) :
    parse last s (.ok t :: os) = parse last next os := by
  rw [parse, h]

theorem parse_complete {i : Item} (h : s.move? t = some (.complete i)) :
    parse last s (.ok t :: os) =
      ((parse last item os).1.map (i :: ·), (parse last item os).2) := by
  rw [parse, h]

theorem parse_refuse (h : s.move? t = none) :
    parse last s (.ok t :: os) = (.error (s.refuse t), .ok t :: os) := by
  rw [parse, h]

end

/-- **All tokens.**  A run that delivers items from a stage on found no fault, and the items are the
tree of what the stage held and the run read. -/
theorem itemsOf_of_parse {last : Token} {s : Stage} {us : List Token} {os : List Outcome}
    {is : List Item} (hs : s.Holds us) (h : (parse last s os).1 = .ok is) :
    ∃ ts : List Token, os = ts.map .ok ∧ ItemsOf (us ++ ts) is := by
  induction os generalizing s us is with
  | nil =>
    by_cases hi : s = item
    · subst hi
      cases hs
      rw [parse, if_pos rfl] at h
      obtain rfl := Except.ok.inj h
      exact ⟨[], rfl, .nil⟩
    · rw [parse, if_neg hi] at h
      cases h
  | cons o os ih =>
    cases o with
    | error f => cases h
    | ok t =>
      cases hm : s.move? t with
      | none =>
        rw [parse_refuse os hm] at h
        cases h
      | some m =>
        have hf := follows_of_move? hs hm
        cases m with
        | shift next =>
          rw [parse_shift os hm] at h
          obtain ⟨ts, rfl, his⟩ := ih hf h
          rw [List.append_assoc] at his
          exact ⟨t :: ts, rfl, his⟩
        | complete i =>
          rw [parse_complete os hm] at h
          cases hr : (parse last item os).1 with
          | error f =>
            rw [hr] at h
            cases h
          | ok js =>
            rw [hr] at h
            obtain rfl := Except.ok.inj h
            obtain ⟨ts, rfl, hjs⟩ := ih .item hr
            refine ⟨t :: ts, rfl, ?_⟩
            have hall := ItemsOf.cons hf hjs
            rwa [List.append_assoc] at hall

/-! ## Along a tree -/

section
variable {last : Token} {ts : List Token}

theorem parse_of_termOf {id : Identifier} {sum : Option Waiting} {e : Expr} (h : TermOf ts e) (os : List Outcome) :
    parse last (value id sum none) (ts.map .ok ++ os) = parse last (operator id sum e) os := by
  induction h generalizing os with
  | @one ts e h =>
    obtain ⟨t, rfl, he⟩ := h
    have hm : (value id sum none).move? t = some (.shift (operator id sum e)) := by
      rw [move?, he, Option.map_some, Waiting.close]
    exact parse_shift os hm
  | @more ts us k op l r _ hop hk hr ih =>
    obtain ⟨t, rfl, he⟩ := hr
    have hshift : (operator id sum l).move? k = some (.shift (value id sum (some ⟨l, op⟩))) := by
      rcases List.mem_pair.mp hop with rfl | rfl
      all_goals simp only [move?, hk, Operator.kind]
    have hvalue : (value id sum (some ⟨l, op⟩)).move? t =
        some (.shift (operator id sum (.apply op l r))) := by
      rw [move?, he, Option.map_some, Waiting.close]
    rw [List.map_append, List.append_assoc, ih]
    show parse last (operator id sum l) (.ok k :: .ok t :: os) = _
    rw [parse_shift _ hshift, parse_shift _ hvalue]

/-- Through a sum the parser comes to its last term, before which the others wait. -/
theorem parse_of_sumOf (id : Identifier) {e : Expr} (h : SumOf ts e) :
    ∃ sum term, Waiting.close sum term = e ∧ ∀ os,
      parse last (value id none none) (ts.map .ok ++ os) = parse last (operator id sum term) os := by
  induction h with
  | @one ts e h => exact ⟨none, e, rfl, parse_of_termOf h⟩
  | @more ts us k op l r _ hop hk hr ih =>
    obtain ⟨sum, term, rfl, hrun⟩ := ih
    refine ⟨some ⟨Waiting.close sum term, op⟩, r, rfl, fun os => ?_⟩
    have hshift : (operator id sum term).move? k =
        some (.shift (value id (some ⟨Waiting.close sum term, op⟩) none)) := by
      rcases List.mem_pair.mp hop with rfl | rfl
      all_goals simp only [move?, hk, Operator.kind]
    rw [List.map_append, List.append_assoc, hrun]
    show parse last (operator id sum term) (.ok k :: (us.map .ok ++ os)) = _
    rw [parse_shift _ hshift, parse_of_termOf hr]

theorem parse_of_itemOf {i : Item} (h : ItemOf ts i) (os : List Outcome) :
    parse last item (ts.map .ok ++ os) =
      ((parse last item os).1.map (i :: ·), (parse last item os).2) := by
  cases h with
  | @declare d t n s ht hn hs =>
    have hm : item.move? t = some (.shift (declareType d t.pos)) := by
      cases d with
      | int => simp only [move?, ht, NumType.keyword]
      | float => simp only [move?, ht, NumType.keyword]
    have hname : (declareType d t.pos).move? n = some (.shift (declareName d t.pos n.identifier)) :=
      if_pos hn
    show parse last item (.ok t :: .ok n :: .ok s :: os) = _
    rw [parse_shift _ hm, parse_shift _ hname]
    exact parse_complete os (if_pos hs)
  | @assign n a s ts e hn ha he hs =>
    obtain ⟨sum, term, rfl, hrun⟩ := parse_of_sumOf n.identifier he
    have hm : item.move? n = some (.shift (target n.identifier)) := by
      simp only [move?, hn]
    have hassign : (target n.identifier).move? a = some (.shift (value n.identifier none none)) :=
      if_pos ha
    have hend : (operator n.identifier sum term).move? s =
        some (.complete (.assign n.identifier (Waiting.close sum term) none n.pos)) := by
      simp only [move?, hs]
      rfl
    show parse last item (.ok n :: .ok a :: ((ts ++ [s]).map .ok ++ os)) = _
    rw [parse_shift _ hm, parse_shift _ hassign, List.map_append, List.append_assoc, hrun]
    exact parse_complete os hend
  | @print t n s ht hn hs =>
    have hm : item.move? t = some (.shift (printWord t.pos)) := by
      simp only [move?, ht]
    have hname : (printWord t.pos).move? n = some (.shift (printName t.pos n.identifier)) :=
      if_pos hn
    show parse last item (.ok t :: .ok n :: .ok s :: os) = _
    rw [parse_shift _ hm, parse_shift _ hname]
    exact parse_complete os (if_pos hs)

theorem parse_of_itemsOf {is : List Item} (h : ItemsOf ts is) :
    parse last item (ts.map .ok) = (.ok is, []) := by
  induction h with
  | nil => rfl
  | cons hi _ ih =>
    rw [List.map_append, parse_of_itemOf hi, ih]
    rfl

end

/-- **A run delivers the tree of its tokens.** -/
theorem parse_eq_ok_iff {last : Token} {os : List Outcome} {is : List Item} :
    (parse last item os).1 = .ok is ↔ ∃ ts : List Token, os = ts.map .ok ∧ ItemsOf ts is := by
  constructor
  · exact itemsOf_of_parse .item
  · rintro ⟨ts, rfl, h⟩
    rw [parse_of_itemsOf h]

end Stage

/-! ## Texts -/

theorem Cursor.endToken_of_advance? {c d : Cursor} {o : Outcome} (h : c.advance? = some (o, d)) :
    d.endToken = c.endToken := by
  obtain ⟨gap, l, _, hrest, _, _, hpos⟩ := advance?_inv h
  rw [endToken, endToken, hrest, hpos, Position.past_append, Position.past_append]

theorem Cursor.all_eq_ok_iff {c : Cursor} {ts : List Token} :
    c.all.1 = .ok ts ↔ ∃ us : List Token, c.outcomes = us.map .ok ∧ ts = us ++ [c.endToken] := by
  induction hn : c.rest.length using Nat.strongRecOn generalizing c ts with
  | ind n ih =>
    subst hn
    cases hadv : c.advance? with
    | none =>
      rw [all_of_end hadv, outcomes_of_end hadv]
      constructor
      · intro h
        obtain rfl := Except.ok.inj h
        exact ⟨[], rfl, rfl⟩
      · rintro ⟨us, hus, rfl⟩
        obtain rfl := List.map_eq_nil_iff.mp hus.symm
        rfl
    | some od =>
      obtain ⟨o, d⟩ := od
      have hlt : d.rest.length < c.rest.length := length_lt_of_advance? hadv
      rw [outcomes_of_lexeme hadv, ← endToken_of_advance? hadv]
      cases o with
      | error f =>
        rw [all_of_fault hadv]
        constructor
        · intro h
          cases h
        · rintro ⟨us, hus, _⟩
          obtain ⟨t, _, _, ht, _⟩ := List.map_eq_cons_iff.mp hus.symm
          cases ht
      | ok t =>
        rw [all_of_token hadv]
        constructor
        · intro h
          cases hr : d.all.1 with
          | error f =>
            rw [hr] at h
            cases h
          | ok vs =>
            rw [hr] at h
            obtain rfl := Except.ok.inj h
            obtain ⟨us, hus, rfl⟩ := (ih _ hlt rfl).mp hr
            exact ⟨t :: us, congrArg (Except.ok t :: ·) hus, rfl⟩
        · rintro ⟨us, hus, rfl⟩
          obtain ⟨t', vs, rfl, ht, hvs⟩ := List.map_eq_cons_iff.mp hus.symm
          obtain rfl := Except.ok.inj ht
          rw [(ih _ hlt rfl).mpr ⟨vs, hvs.symm, rfl⟩]
          rfl

theorem tokenize_eq_ok_iff {text : String} {ts : List Token} :
    Source.tokenize text = .ok ts ↔
      ∃ us : List Token, (Stream.ofText text).outcomes = us.map .ok ∧
        ts = us ++ [(Stream.ofText text).last] := by
  have hall : Source.tokenize text = (Cursor.ofText text).all.1.mapError Fault.lexical := rfl
  rw [hall]
  refine Iff.trans ?_ Cursor.all_eq_ok_iff
  cases (Cursor.ofText text).all.1 with
  | ok us => exact ⟨fun h => congrArg _ (Except.ok.inj h), fun h => congrArg _ (Except.ok.inj h)⟩
  | error f => exact ⟨nofun, nofun⟩

/-- **A text has a program exactly if its tokens are a row of items.** -/
theorem parse_text_eq_ok_iff {text : String} {p : Program} :
    Source.parse text = .ok p ↔
      p.type = none ∧ ∃ ts last, Source.tokenize text = .ok (ts ++ [last]) ∧
        last.kind = .endOfText ∧ ItemsOf ts p.items := by
  have hrun : Source.parse text =
      (Stage.parse (Stream.ofText text).last .item (Stream.ofText text).outcomes).1.map
        fun is => { items := is } := rfl
  rw [hrun]
  constructor
  · intro h
    cases hr : (Stage.parse (Stream.ofText text).last .item (Stream.ofText text).outcomes).1 with
    | error f =>
      rw [hr] at h
      cases h
    | ok is =>
      rw [hr] at h
      obtain rfl := Except.ok.inj h
      obtain ⟨ts, hts, his⟩ := Stage.parse_eq_ok_iff.mp hr
      exact ⟨rfl, ts, _, tokenize_eq_ok_iff.mpr ⟨ts, hts, rfl⟩, rfl, his⟩
  · rintro ⟨htype, ts, last, htok, _, his⟩
    obtain ⟨us, hus, e⟩ := tokenize_eq_ok_iff.mp htok
    obtain ⟨rfl, _⟩ := List.append_inj' e rfl
    rw [Stage.parse_eq_ok_iff.mpr ⟨ts, hus, his⟩]
    obtain ⟨is, type⟩ := p
    obtain rfl : type = none := htype
    rfl

end DeskCalc
