import DeskCalc.Proofs.LookAhead
import DeskCalc.Tree.Descent

/-!
# Recursive descent and the stages

The parts of the parser and its stages do the same, one with calls and a reader, the other with a
stage and a stream.  They are compared step by step.  What a reader has still to deliver is a
stream, of which a look leaves all and a reading leaves the rest (`Reader.peek_stream`,
`Reader.next_stream`).  While the parts work, the stages stand somewhere too: `At R done st s` says
that they are at `st` where the reader `s` is, with the items `done` behind them, and that they will
come to `R`.  Every part takes the stages from the stage at which it begins to the one behind it,
and if it fails, then they come to the same fault in the same place (`Leads`).  For a loop this is
an invariant of its step (`Part.leads_loop`).

The stages keep a sum waiting while they read the next term; the parts close it as soon as they see
that no sign of a product follows, and there it makes no difference (`At.close`).

* `Stream.front`, `Stream.rest`, `Stream.run`   what comes next, what comes behind it, and what the
                      stages make of a stream;
* `Reader.Settled`    a reader that holds the end token is at the end;
* `Reader.parse_eq`   the parts and the stages agree, in what they deliver and in what they leave.
-/

namespace DeskCalc

/-! ## The front of a stream -/

namespace Stream

/-- what comes next; behind everything else this is the end token -/
def front (s : Stream) : Outcome := s.outcomes.head?.getD (.ok s.last)

def rest (s : Stream) : Stream := { s with outcomes := s.outcomes.tail }

/-- the items from a stage on, and the stream not used up -/
def run (st : Stage) (s : Stream) : Except Fault (List Item) × Stream :=
  ((Stage.parse s.last st s.outcomes).1,
    { s with outcomes := (Stage.parse s.last st s.outcomes).2 })

theorem parse_eq_run (s : Stream) :
    s.parse = ((s.run .item).1.map fun items => { items := items }, (s.run .item).2) := rfl

/-- no token but the last one is an end token -/
structure Closed (s : Stream) : Prop where
  last : s.last.kind = .endOfText
  inner : ∀ t, .ok t ∈ s.outcomes → t.kind ≠ .endOfText

section Run
variable {s : Stream} {st next : Stage} {t : Token} {f : LexicalFault} {i : Item}

theorem run_of_fault (h : s.front = .error f) (st : Stage) :
    s.run st = (.error (.lexical f), s.rest) := by
  obtain ⟨os, last⟩ := s
  cases os with
  | nil => cases h
  | cons o os =>
    obtain rfl : o = .error f := h
    rfl

theorem outcomes_of_front (hs : s.Closed) (h : s.front = .ok t) :
    (s.outcomes = [] ∧ t = s.last ∧ t.kind = .endOfText) ∨
      (s.outcomes = .ok t :: s.rest.outcomes ∧ t.kind ≠ .endOfText) := by
  obtain ⟨os, last⟩ := s
  cases os with
  | nil =>
    obtain rfl : last = t := Except.ok.inj h
    exact .inl ⟨rfl, rfl, hs.last⟩
  | cons o os =>
    obtain rfl : o = .ok t := h
    exact .inr ⟨rfl, hs.inner t List.mem_cons_self⟩

theorem outcomes_of_move? {m : Move} (hs : s.Closed) (h : s.front = .ok t)
    (hm : st.move? t = some m) : s.outcomes = .ok t :: s.rest.outcomes := by
  rcases outcomes_of_front hs h with ⟨-, -, hk⟩ | ⟨hout, -⟩
  · rw [st.move?_endOfText hk] at hm
    cases hm
  · exact hout

theorem run_of_shift (hs : s.Closed) (h : s.front = .ok t) (hm : st.move? t = some (.shift next)) :
    s.run st = s.rest.run next := by
  have hout := outcomes_of_move? hs h hm
  unfold run
  rw [hout, Stage.parse_shift _ hm]
  rfl

theorem run_of_complete (hs : s.Closed) (h : s.front = .ok t)
    (hm : st.move? t = some (.complete i)) :
    s.run st = ((s.rest.run .item).1.map (i :: ·), (s.rest.run .item).2) := by
  have hout := outcomes_of_move? hs h hm
  unfold run
  rw [hout, Stage.parse_complete _ hm]
  rfl

theorem run_of_refused (hs : s.Closed) (h : s.front = .ok t) (hm : st.move? t = none)
    (hend : st = .item → t.kind ≠ .endOfText) : s.run st = (.error (st.refuse t), s) := by
  rcases outcomes_of_front hs h with ⟨hout, rfl, hk⟩ | ⟨hout, -⟩
  · have hne : st ≠ .item := fun e => hend e hk
    unfold run
    rw [hout, Stage.parse, if_neg hne, ← hout]
  · unfold run
    rw [hout, Stage.parse_refuse _ hm, ← hout]

theorem run_of_end (hs : s.Closed) (h : s.front = .ok t) (hk : t.kind = .endOfText) :
    s.run .item = (.ok [], s) ∧ s.rest = s := by
  rcases outcomes_of_front hs h with ⟨hout, -, -⟩ | ⟨-, hne⟩
  · unfold run rest
    rw [hout, Stage.parse, if_pos rfl, List.tail_nil, ← hout]
    exact ⟨rfl, rfl⟩
  · exact absurd hk hne

end Run
end Stream

/-! ## Readers and their streams -/

namespace Reader

/-- a reader that holds the end token stands at the end of the text -/
def Settled (s : Reader) : Prop :=
  ∀ t, s.held = some t → t.kind = .endOfText →
    s.cursor.advance? = none ∧ t = s.cursor.endToken

theorem settled_of_none (c : Cursor) : (Reader.mk c none).Settled := by
  intro t h
  cases h

theorem skipBlanks_of_end {c : Cursor} (h : c.advance? = none) :
    c.skipBlanks.advance? = none ∧ c.skipBlanks.endToken = c.endToken := by
  have hblank := Cursor.blank_of_advance?_eq_none h
  have htake : c.rest.takeWhile isBlank = c.rest := List.takeWhile_eq_self_iff.mpr hblank
  have hdrop : c.rest.dropWhile isBlank = [] := List.dropWhile_eq_nil_iff.mpr hblank
  have hskip : c.skipBlanks = ⟨[], c.pos.past c.rest⟩ := by
    rw [Cursor.skipBlanks, htake, hdrop]
  rw [hskip]
  exact ⟨Cursor.advance?_of_blank _ (List.forall_mem_nil _), rfl⟩

theorem stream_of_end {c : Cursor} (h : c.advance? = none) : c.stream = ⟨[], c.endToken⟩ := by
  rw [Cursor.stream, Cursor.outcomes_of_end h]

theorem stream_of_lexeme {c d : Cursor} {o : Outcome} (h : c.advance? = some (o, d)) :
    c.stream = ⟨o :: d.outcomes, d.endToken⟩ := by
  rw [Cursor.stream, Cursor.outcomes_of_lexeme h, Cursor.endToken_of_advance? h]

theorem stream_of_held_end {c : Cursor} {t : Token} (h : t.kind = .endOfText) :
    (Reader.mk c (some t)).stream = ⟨[], t⟩ := if_pos h

theorem stream_of_held {c : Cursor} {t : Token} (h : t.kind ≠ .endOfText) :
    (Reader.mk c (some t)).stream = ⟨.ok t :: c.outcomes, c.endToken⟩ := if_neg h

theorem closed_stream (c : Cursor) : c.stream.Closed :=
  ⟨rfl, fun _ => Cursor.kind_ne_of_mem_outcomes⟩

theorem Settled.closed {s : Reader} (h : s.Settled) : s.stream.Closed := by
  obtain ⟨c, held⟩ := s
  cases held with
  | none => exact closed_stream c
  | some t =>
    by_cases hk : t.kind = .endOfText
    · rw [stream_of_held_end hk]
      exact ⟨hk, fun u hu => by cases hu⟩
    · rw [stream_of_held hk]
      refine ⟨rfl, fun u hu => ?_⟩
      rcases List.mem_cons.mp hu with hu | hu
      · obtain rfl := Except.ok.inj hu
        exact hk
      · exact (closed_stream c).inner u hu

/-- **Reading.**  The next token is the front of the stream, and the rest is left. -/
theorem next_stream {s : Reader} (h : s.Settled) :
    s.next.1 = s.stream.front ∧ s.next.2.stream = s.stream.rest ∧ s.next.2.Settled := by
  obtain ⟨c, held⟩ := s
  cases held with
  | some t =>
    have hnext : (Reader.mk c (some t)).next = (.ok t, ⟨c, none⟩) := rfl
    rw [hnext]
    by_cases hk : t.kind = .endOfText
    · obtain ⟨hend, ht⟩ := h t rfl hk
      rw [stream_of_held_end hk]
      refine ⟨rfl, ?_, settled_of_none c⟩
      rw [ht]
      exact stream_of_end hend
    · rw [stream_of_held hk]
      exact ⟨rfl, rfl, settled_of_none c⟩
  | none =>
    show _ = c.stream.front ∧ _ = c.stream.rest ∧ _
    cases hadv : c.advance? with
    | none =>
      obtain ⟨hend, htoken⟩ := skipBlanks_of_end hadv
      have hskip : (Reader.mk c.skipBlanks none).stream = ⟨[], c.skipBlanks.endToken⟩ :=
        stream_of_end hend
      rw [next_of_end hadv, stream_of_end hadv, hskip, htoken]
      exact ⟨rfl, rfl, settled_of_none _⟩
    | some od =>
      obtain ⟨o, d⟩ := od
      rw [next_of_advance? hadv, stream_of_lexeme hadv]
      exact ⟨rfl, rfl, settled_of_none d⟩

theorem peek_of_end {c : Cursor} (h : c.advance? = none) :
    (Reader.mk c none).peek = (.ok c.endToken, ⟨c.skipBlanks, some c.endToken⟩) := by
  simp only [peek, Cursor.scan, h, Option.getD_none, Except.toOption]

theorem peek_of_advance? {c d : Cursor} {o : Outcome} (h : c.advance? = some (o, d)) :
    (Reader.mk c none).peek = (o, ⟨d, o.toOption⟩) := by
  simp only [peek, Cursor.scan, h, Option.getD_some]

/-- **Looking.**  A token in front is seen and stays there, a fault in front is used up. -/
theorem peek_stream {s : Reader} (h : s.Settled) :
    s.peek.1 = s.stream.front ∧ s.peek.2.Settled ∧
      (∀ t, s.stream.front = .ok t → s.peek.2.stream = s.stream) ∧
      ∀ f, s.stream.front = .error f → s.peek.2.stream = s.stream.rest := by
  obtain ⟨c, held⟩ := s
  cases held with
  | some t =>
    have hpeek : (Reader.mk c (some t)).peek = (.ok t, ⟨c, some t⟩) := rfl
    have hfront : Except.ok t = (Reader.mk c (some t)).stream.front := (next_stream h).1
    rw [hpeek]
    refine ⟨hfront, h, fun _ _ => rfl, fun f hf => ?_⟩
    cases hfront.trans hf
  | none =>
    show _ = c.stream.front ∧ _ ∧ (∀ t, c.stream.front = _ → _ = c.stream) ∧
      ∀ f, c.stream.front = _ → _ = c.stream.rest
    cases hadv : c.advance? with
    | none =>
      obtain ⟨hend, htoken⟩ := skipBlanks_of_end hadv
      rw [peek_of_end hadv, stream_of_end hadv]
      refine ⟨rfl, ?_, fun t _ => stream_of_held_end rfl, fun f hf => ?_⟩
      · intro t ht _
        obtain rfl := Option.some.inj ht
        exact ⟨hend, htoken.symm⟩
      · cases hf
    | some od =>
      obtain ⟨o, d⟩ := od
      rw [peek_of_advance? hadv, stream_of_lexeme hadv]
      cases o with
      | error f =>
        refine ⟨rfl, settled_of_none d, fun t ht => ?_, fun _ _ => rfl⟩
        cases ht
      | ok t =>
        have hk : t.kind ≠ .endOfText := by
          refine (closed_stream c).inner t ?_
          rw [stream_of_lexeme hadv]
          exact List.mem_cons_self
        refine ⟨rfl, ?_, fun _ _ => stream_of_held hk, fun f hf => ?_⟩
        · intro u hu he
          obtain rfl := Option.some.inj hu
          exact absurd he hk
        · cases hf

end Reader

/-! ## Parts beside the stages -/

def Move.after (done : List Item) : Move → List Item
  | shift _ => done
  | complete i => done ++ [i]

/-- where the reader is the stages are at `st`, behind the items `done`, and they come to `R` -/
structure At (R : Except Fault (List Item) × Stream) (done : List Item) (st : Stage) (s : Reader) :
    Prop where
  settled : s.Settled
  run : R = ((s.stream.run st).1.map (done ++ ·), (s.stream.run st).2)

theorem Stage.move?_close {id : Identifier} {waiting : Option Waiting} {t : Token}
    (h : Part.productSign? t.kind = none) (e : Expr) :
    (Stage.operator id waiting e).move? t =
      (Stage.operator id none (Waiting.close waiting e)).move? t := by
  simp only [Stage.move?]
  cases hk : t.kind
  all_goals simp_all [Part.productSign?, Waiting.close]

theorem Stage.move?_operator_of_no_sign {id : Identifier} {e : Expr} {t : Token}
    (hproduct : Part.productSign? t.kind = none) (hsum : Part.sumSign? t.kind = none)
    (hne : t.kind ≠ .semicolon) : (Stage.operator id none e).move? t = none := by
  simp only [Stage.move?]
  cases hk : t.kind
  all_goals simp_all [Part.productSign?, Part.sumSign?]

namespace At
variable {R : Except Fault (List Item) × Stream} {done : List Item} {st st' : Stage}
  {s s' : Reader} {t : Token} {m : Move}

theorem of_stream (h : At R done st s) (hs : s'.Settled) (he : s'.stream = s.stream) :
    At R done st s' := ⟨hs, he ▸ h.run⟩

theorem fault (h : At R done st s) {f : LexicalFault} (hf : s.stream.front = .error f) :
    R = (.error (.lexical f), s.stream.rest) := by
  rw [h.run, Stream.run_of_fault hf]
  rfl

theorem refused (h : At R done st s) (hf : s.stream.front = .ok t) (hm : st.move? t = none)
    (hend : st = .item → t.kind ≠ .endOfText) : R = (.error (st.refuse t), s.stream) := by
  rw [h.run, Stream.run_of_refused h.settled.closed hf hm hend]
  rfl

theorem move (h : At R done st s) (hf : s.stream.front = .ok t) (hm : st.move? t = some m)
    (hs : s'.Settled) (he : s'.stream = s.stream.rest) : At R (m.after done) m.stage s' := by
  refine ⟨hs, ?_⟩
  rw [h.run, he]
  cases m with
  | shift next =>
    rw [Stream.run_of_shift h.settled.closed hf hm]
    rfl
  | complete i =>
    rw [Stream.run_of_complete h.settled.closed hf hm]
    show _ = ((s.stream.rest.run .item).1.map _, (s.stream.rest.run .item).2)
    cases (s.stream.rest.run .item).1 with
    | error f => rfl
    | ok is => simp [Except.map, Move.after]

theorem congr (h : At R done st s) (hitem : st ≠ .item) (hitem' : st' ≠ .item)
    (hwanted : st.wanted = st'.wanted)
    (hm : ∀ t, s.stream.front = .ok t → st.move? t = st'.move? t) : At R done st' s := by
  refine ⟨h.settled, ?_⟩
  have hc := h.settled.closed
  rw [h.run]
  cases hf : s.stream.front with
  | error f => rw [Stream.run_of_fault hf, Stream.run_of_fault hf]
  | ok t =>
    have hsame := hm t hf
    cases hm' : st'.move? t with
    | none =>
      rw [hm'] at hsame
      have hrefuse : st.refuse t = st'.refuse t := by rw [Stage.refuse, Stage.refuse, hwanted]
      rw [Stream.run_of_refused hc hf hsame fun e => absurd e hitem,
        Stream.run_of_refused hc hf hm' fun e => absurd e hitem', hrefuse]
    | some m =>
      rw [hm'] at hsame
      cases m with
      | shift next => rw [Stream.run_of_shift hc hf hsame, Stream.run_of_shift hc hf hm']
      | complete i => rw [Stream.run_of_complete hc hf hsame, Stream.run_of_complete hc hf hm']

/-- Where no sign of a product follows, a sum that waits may as well be closed. -/
theorem close {id : Identifier} {waiting : Option Waiting} {e : Expr}
    (h : At R done (.operator id waiting e) s)
    (hf : ∀ t, s.stream.front = .ok t → Part.productSign? t.kind = none) :
    At R done (.operator id none (Waiting.close waiting e)) s :=
  h.congr nofun nofun rfl fun t ht => Stage.move?_close (hf t ht) e

end At

/-- a part that has something has it as `Q` says, and one that fails does so as the stages do -/
structure Leads {α : Type} (R : Except Fault (List Item) × Stream) (r : Except Fault α × Reader)
    (Q : α → Reader → Prop) : Prop where
  ok : ∀ a, r.1 = .ok a → Q a r.2
  error : ∀ f, r.1 = .error f → r.2.Settled ∧ R = (.error f, r.2.stream)

theorem Leads.mono {α : Type} {R : Except Fault (List Item) × Stream}
    {r : Except Fault α × Reader} {Q Q' : α → Reader → Prop} (h : Leads R r Q)
    (hq : ∀ a, Q a r.2 → Q' a r.2) : Leads R r Q' :=
  ⟨fun a ha => hq a (h.ok a ha), h.error⟩

namespace Part
variable {α β : Type} {R : Except Fault (List Item) × Stream} {done : List Item} {st : Stage}
  {s : Reader} {t : Token} {k : Token.Kind}

theorem leads_pure {Q : α → Reader → Prop} {a : α} (h : Q a s) :
    Leads R ((pure a : Part α).run s) Q := by
  refine ⟨fun b hb => ?_, fun f hf => ?_⟩
  · obtain rfl := Except.ok.inj hb
    exact h
  · cases hf

theorem leads_bind {p : Part α} {g : α → Part β} {Q : α → Reader → Prop} {Q' : β → Reader → Prop}
    (hp : Leads R (p.run s) Q) (hg : ∀ a s', Q a s' → Leads R ((g a).run s') Q') :
    Leads R ((p >>= g).run s) Q' := by
  rcases hrun : p.run s with ⟨f | a, s'⟩
  · rw [run_bind_of_error hrun]
    rw [hrun] at hp
    refine ⟨fun b hb => ?_, fun f' hf => ?_⟩
    · cases hb
    · obtain rfl := Except.error.inj hf
      exact hp.error f rfl
  · rw [run_bind_of_ok hrun]
    rw [hrun] at hp
    exact hg a s' (hp.ok a rfl)

theorem leads_refuse {Q : α → Reader → Prop} (h : At R done st s) (hf : s.stream.front = .ok t)
    (hm : st.move? t = none) (hend : st = .item → t.kind ≠ .endOfText) :
    Leads R ((refuse st.wanted t : Part α).run s) Q := by
  refine ⟨fun a ha => ?_, fun f hf' => ?_⟩
  · cases ha
  · obtain rfl := Except.error.inj hf'
    exact ⟨h.settled, h.refused hf hm hend⟩

theorem leads_look (h : At R done st s) :
    Leads R (look.run s) fun t s' =>
      s.stream.front = .ok t ∧ s'.stream = s.stream ∧ At R done st s' := by
  obtain ⟨hfront, hsettled, hok, herror⟩ := Reader.peek_stream h.settled
  show Leads R (s.peek.1.mapError .lexical, s.peek.2) _
  cases hp : s.stream.front with
  | ok t =>
    rw [hfront, hp]
    refine ⟨fun u hu => ?_, fun f hf => ?_⟩
    · obtain rfl := Except.ok.inj hu
      exact ⟨rfl, hok t hp, h.of_stream hsettled (hok t hp)⟩
    · cases hf
  | error f =>
    rw [hfront, hp]
    refine ⟨fun u hu => ?_, fun f' hf => ?_⟩
    · cases hu
    · obtain rfl := Except.error.inj hf
      refine ⟨hsettled, ?_⟩
      rw [h.fault hp, herror f hp]

theorem leads_take {m : Move} (h : At R done st s) (hf : s.stream.front = .ok t)
    (hm : st.move? t = some m) :
    Leads R (take.run s) fun u s' => u = t ∧ At R (m.after done) m.stage s' := by
  obtain ⟨hfront, hrest, hsettled⟩ := Reader.next_stream h.settled
  show Leads R (s.next.1.mapError .lexical, s.next.2) _
  rw [hfront, hf]
  refine ⟨fun u hu => ?_, fun f hf => ?_⟩
  · obtain rfl := Except.ok.inj hu
    exact ⟨rfl, h.move hf hm hsettled hrest⟩
  · cases hf

theorem leads_expect {m : Token → Move} (h : At R done st s)
    (hm : ∀ t, t.kind = k → st.move? t = some (m t))
    (hne : ∀ t, s.stream.front = .ok t → t.kind ≠ k →
      st.move? t = none ∧ st ≠ .item ∧ st.wanted = some k) :
    Leads R ((expect k).run s) fun t s' => At R ((m t).after done) (m t).stage s' := by
  refine leads_bind (leads_look h) ?_
  rintro t s' ⟨hf, hs, h'⟩
  rw [← hs] at hf hne
  by_cases hk : t.kind = k
  · rw [if_pos hk]
    obtain ⟨hok, herror⟩ := leads_take h' hf (hm t hk)
    refine ⟨fun u hu => ?_, herror⟩
    obtain ⟨rfl, hat⟩ := hok u hu
    exact hat
  · obtain ⟨hnone, hitem, hw⟩ := hne t hf hk
    rw [if_neg hk, ← hw]
    exact leads_refuse h' hf hnone fun e => absurd e hitem

theorem leads_expect_front {m : Token → Move} (h : At R done st s) (hf : s.stream.front = .ok t)
    (hk : t.kind = k) (hm : ∀ t, t.kind = k → st.move? t = some (m t)) :
    Leads R ((expect k).run s) fun u s' => At R ((m u).after done) (m u).stage s' := by
  refine leads_expect h hm fun u hu hne => ?_
  obtain rfl := Except.ok.inj (hf.symm.trans hu)
  exact absurd hk hne

theorem leads_unexpected {Q : α → Reader → Prop} (h : At R done st s) (hw : st.wanted = none)
    (hm : ∀ t, s.stream.front = .ok t → st.move? t = none ∧ (st = .item → t.kind ≠ .endOfText)) :
    Leads R ((unexpected : Part α).run s) Q := by
  refine leads_bind (leads_look h) ?_
  rintro t s' ⟨hf, hs, h'⟩
  obtain ⟨hnone, hend⟩ := hm t hf
  rw [← hs] at hf
  rw [← hw]
  exact leads_refuse h' hf hnone hend

theorem leads_loop {step : α → Part (Option α)} {hadv : ∀ a, (step a).Advances}
    {I Q : α → Reader → Prop}
    (hstep : ∀ a s, I a s → Leads R ((step a).run s) fun o s' =>
      (o = none → Q a s') ∧ ∀ b, o = some b → I b s')
    {a : α} (h : I a s) : Leads R ((loop step hadv a).run s) Q := by
  show Leads R (loopRun step hadv a s) Q
  fun_induction loopRun step hadv a s with
  | case1 a s f s' hrun =>
    have hl := hstep a s h
    rw [hrun] at hl
    refine ⟨fun b hb => ?_, fun f' hf => ?_⟩
    · cases hb
    · obtain rfl := Except.error.inj hf
      exact hl.error f rfl
  | case2 a s s' hrun =>
    have hl := hstep a s h
    rw [hrun] at hl
    exact leads_pure ((hl.ok none rfl).1 rfl)
  | case3 a s b s' hrun ih =>
    have hl := hstep a s h
    rw [hrun] at hl
    exact ih ((hl.ok (some b) rfl).2 b rfl)

/-! ## Expressions -/

section Expressions
variable {id : Identifier} {waiting term' : Option Waiting}

theorem leads_identifier {m : Identifier → Move}
    (h : Leads R ((expect .name).run s) fun t s' =>
      At R ((m t.identifier).after done) (m t.identifier).stage s') :
    Leads R (identifier.run s) fun n s' => At R ((m n).after done) (m n).stage s' :=
  leads_bind h fun _ _ hat => leads_pure hat

theorem leads_value (h : At R done (.value id waiting term') s) :
    Leads R (value.run s) fun v s' =>
      At R done (.operator id waiting (Waiting.close term' v)) s' := by
  refine leads_bind (leads_look h) ?_
  rintro t s' ⟨hf, hs, h'⟩
  rw [← hs] at hf
  let m : Expr → Move := fun v => .shift (.operator id waiting (Waiting.close term' v))
  split
  next hk =>
    refine leads_bind (leads_expect_front (m := fun t => m (.literal t.text .int t.pos)) h' hf hk
      fun u hu => ?_) fun u s'' hat => leads_pure hat
    simp only [Stage.move?, Token.operand?, hu, Option.map_some, m]
  next hk =>
    refine leads_bind (leads_expect_front (m := fun t => m (.literal t.text .float t.pos)) h' hf hk
      fun u hu => ?_) fun u s'' hat => leads_pure hat
    simp only [Stage.move?, Token.operand?, hu, Option.map_some, m]
  next hk =>
    refine leads_bind (leads_identifier (m := fun n => m (.read n))
      (leads_expect_front h' hf hk fun u hu => ?_)) fun n s'' hat => leads_pure hat
    simp only [Stage.move?, Token.operand?, hu, Option.map_some, m]
  next hint hfloat hname =>
    refine leads_unexpected h' rfl fun u hu => ?_
    obtain rfl := Except.ok.inj (hf.symm.trans hu)
    refine ⟨?_, fun e => by cases e⟩
    unfold Stage.move? Token.operand?
    split
    all_goals simp_all

/-- Operands in a row: `first` is where the first of them is expected, `behind` where one is expected
behind an operator, and `at'` where an operator is expected behind what there is. -/
theorem leads_chain {sign? : Token.Kind → Option Operator} {hend : sign? .endOfText = none}
    {operand : Part Expr} (first : Stage) (at' : Expr → Stage) (behind : Expr → Operator → Stage)
    (P : Stream → Prop)
    (hsign : ∀ t op left, sign? t.kind = some op →
      (at' left).move? t = some (.shift (behind left op)))
    (hfirst : ∀ s, At R done first s → Leads R (operand.run s) fun e s' =>
      At R done (at' e) s' ∧ P s'.stream)
    (hbehind : ∀ left op s, At R done (behind left op) s → Leads R (operand.run s) fun e s' =>
      At R done (at' (.apply op left e)) s' ∧ P s'.stream)
    (h : At R done first s) :
    Leads R ((chain sign? hend operand).run s) fun e s' =>
      At R done (at' e) s' ∧ P s'.stream ∧
        ∀ t, s'.stream.front = .ok t → sign? t.kind = none := by
  refine leads_bind (hfirst s h) fun left s₁ hleft => ?_
  refine leads_loop (I := fun e s' => At R done (at' e) s' ∧ P s'.stream) ?_ hleft
  rintro e s₂ ⟨h₂, hp⟩
  refine leads_bind (leads_look h₂) ?_
  rintro t s₃ ⟨hf, hs, h₃⟩
  rw [← hs] at hf hp
  cases hop : sign? t.kind with
  | none =>
    refine leads_pure ⟨fun _ => ⟨h₃, hp, fun u hu => ?_⟩, fun b hb => ?_⟩
    · obtain rfl := Except.ok.inj (hf.symm.trans hu)
      exact hop
    · cases hb
  | some op =>
    refine leads_bind (leads_take h₃ hf (hsign t op e hop)) ?_
    rintro u s₄ ⟨-, h₄⟩
    refine leads_bind (hbehind e op s₄ h₄) fun right s₅ hright => leads_pure ⟨fun hb => ?_, ?_⟩
    · cases hb
    · rintro b hb
      obtain rfl := Option.some.inj hb
      exact hright

theorem leads_term (h : At R done (.value id waiting none) s) :
    Leads R (term.run s) fun e s' => At R done (.operator id waiting e) s' ∧
      ∀ t, s'.stream.front = .ok t → productSign? t.kind = none := by
  refine Leads.mono (leads_chain (.value id waiting none) (fun e => .operator id waiting e)
    (fun left op => .value id waiting (some ⟨left, op⟩)) (fun _ => True) ?_ ?_ ?_ h)
    fun e hq => ⟨hq.1, hq.2.2⟩
  · intro t op left hop
    unfold productSign? at hop
    split at hop
    next hk =>
      obtain rfl := Option.some.inj hop
      simp only [Stage.move?, hk]
    next hk =>
      obtain rfl := Option.some.inj hop
      simp only [Stage.move?, hk]
    next => cases hop
  · exact fun s hs => (leads_value hs).mono fun e he => ⟨he, trivial⟩
  · exact fun left op s hs => (leads_value hs).mono fun e he => ⟨he, trivial⟩

theorem leads_sum (h : At R done (.value id none none) s) :
    Leads R (sum.run s) fun e s' => At R done (.operator id none e) s' ∧
      (∀ t, s'.stream.front = .ok t → productSign? t.kind = none) ∧
      ∀ t, s'.stream.front = .ok t → sumSign? t.kind = none := by
  refine leads_chain (.value id none none) (fun e => .operator id none e)
    (fun left op => .value id (some ⟨left, op⟩) none)
    (fun s => ∀ t, s.front = .ok t → productSign? t.kind = none) ?_ ?_ ?_ h
  · intro t op left hop
    unfold sumSign? at hop
    split at hop
    next hk =>
      obtain rfl := Option.some.inj hop
      simp only [Stage.move?, hk, Waiting.close]
    next hk =>
      obtain rfl := Option.some.inj hop
      simp only [Stage.move?, hk, Waiting.close]
    next => cases hop
  · exact fun s hs => leads_term hs
  · intro left op s hs
    exact (leads_term hs).mono fun e he => ⟨he.1.close he.2, he.2⟩

end Expressions

/-! ## Items -/

/-- A stage that goes on with a token of one kind, and with no other. -/
theorem leads_expect_only {m : Token → Move} (h : At R done st s)
    (hm : ∀ t, st.move? t = if t.kind = k then some (m t) else none) (hw : st.wanted = some k) :
    Leads R ((expect k).run s) fun t s' => At R ((m t).after done) (m t).stage s' := by
  refine leads_expect h (fun t hk => by rw [hm, if_pos hk]) fun t _ hk => ⟨?_, ?_, hw⟩
  · rw [hm, if_neg hk]
  · rintro rfl
    cases hw

theorem leads_declaration (h : At R done .item s) (hf : s.stream.front = .ok t)
    (hk : t.kind = .intType ∨ t.kind = .floatType) :
    Leads R (declaration.run s) fun i s' => At R (done ++ [i]) .item s' := by
  have htype : ∃ d : NumType, typeOf t = pure d ∧
      Stage.item.move? t = some (.shift (.declareType d t.pos)) := by
    rcases hk with hk | hk
    · exact ⟨.int, by simp only [typeOf, hk], by simp only [Stage.move?, hk]⟩
    · exact ⟨.float, by simp only [typeOf, hk], by simp only [Stage.move?, hk]⟩
  obtain ⟨d, htype, hm⟩ := htype
  refine leads_bind (leads_take h hf hm) ?_
  rintro t s₁ ⟨rfl, h₁⟩
  rw [htype, run_bind_of_ok (run_pure d s₁)]
  refine leads_bind (leads_identifier (m := fun n => .shift (.declareName d t.pos n))
    (leads_expect_only h₁ (fun u => rfl) rfl)) fun n s₂ h₂ => ?_
  exact leads_bind (leads_expect_only (m := fun _ => .complete (.declare d n none t.pos)) h₂
    (fun u => rfl) rfl) fun _ _ h₃ => leads_pure h₃

theorem leads_statement (h : At R done .item s) (hf : s.stream.front = .ok t)
    (hk : t.kind = .name ∨ t.kind = .print) :
    Leads R (statement.run s) fun i s' => At R (done ++ [i]) .item s' := by
  refine leads_bind (leads_look h) ?_
  rintro u s₁ ⟨hu, hs, h₁⟩
  obtain rfl := Except.ok.inj (hf.symm.trans hu)
  rw [← hs] at hf
  split
  next hname =>
    refine leads_bind (leads_identifier (m := fun n => .shift (.target n))
      (leads_expect_front h₁ hf hname fun u hu => ?_)) fun n s₂ h₂ => ?_
    · simp only [Stage.move?, hu]
    refine leads_bind (leads_expect_only (m := fun _ => .shift (.value n none none)) h₂
      (fun u => rfl) rfl) fun _ s₃ h₃ => ?_
    refine leads_bind (leads_sum h₃) ?_
    rintro e s₄ ⟨h₄, hproduct, hsum⟩
    refine leads_bind (leads_expect (m := fun _ => .complete (.assign n e none n.pos)) h₄
      (fun u hu => ?_) fun u hu hne => ⟨?_, ?_, rfl⟩) fun _ _ h₅ => leads_pure h₅
    · simp only [Stage.move?, hu, Waiting.close]
    · exact Stage.move?_operator_of_no_sign (hproduct u hu) (hsum u hu) hne
    · exact fun hitem => by cases hitem
  next hprint =>
    refine leads_bind (leads_expect_front (m := fun t => .shift (.printWord t.pos)) h₁ hf hprint
      fun u hu => ?_) fun keyword s₂ h₂ => ?_
    · simp only [Stage.move?, hu]
    refine leads_bind (leads_identifier (m := fun n => .shift (.printName keyword.pos n))
      (leads_expect_only h₂ (fun u => rfl) rfl)) fun n s₃ h₃ => ?_
    exact leads_bind (leads_expect_only (m := fun _ => .complete (.print n none keyword.pos)) h₃
      (fun u => rfl) rfl) fun _ _ h₄ => leads_pure h₄
  next hname hprint =>
    rcases hk with hk | hk
    · exact absurd hk hname
    · exact absurd hk hprint

/-- Between items: the next one is read, or the text ends. -/
theorem leads_addItem (h : At R done .item s) :
    Leads R ((addItem done).run s) fun o s' =>
      (o = none → At R done .item s' ∧ ∃ t, s'.stream.front = .ok t ∧ t.kind = .endOfText) ∧
      ∀ items, o = some items → At R items .item s' := by
  refine leads_bind (leads_look h) ?_
  rintro t s₁ ⟨hf, hs, h₁⟩
  rw [← hs] at hf
  have hgo : ∀ {p : Part Item}, Leads R (p.run s₁) (fun i s' => At R (done ++ [i]) .item s') →
      Leads R ((do return some (done ++ [← p]) : Part (Option (List Item))).run s₁) fun o s' =>
        (o = none → At R done .item s' ∧ ∃ t, s'.stream.front = .ok t ∧ t.kind = .endOfText) ∧
        ∀ items, o = some items → At R items .item s' := by
    refine fun hp => leads_bind hp fun i s' hi => leads_pure ⟨fun e => ?_, fun items e => ?_⟩
    · cases e
    · obtain rfl := Option.some.inj e
      exact hi
  split
  next hk => exact hgo (leads_declaration h₁ hf (.inl hk))
  next hk => exact hgo (leads_declaration h₁ hf (.inr hk))
  next hk => exact hgo (leads_statement h₁ hf (.inl hk))
  next hk => exact hgo (leads_statement h₁ hf (.inr hk))
  next hk => exact leads_pure ⟨fun _ => ⟨h₁, t, hf, hk⟩, fun items e => by cases e⟩
  next =>
    refine leads_unexpected h₁ rfl fun u hu => ?_
    obtain rfl := Except.ok.inj (hf.symm.trans hu)
    refine ⟨?_, fun _ => ‹_›⟩
    unfold Stage.move?
    split
    all_goals simp_all

theorem leads_expect_end (h : At R done st s) (hf : s.stream.front = .ok t)
    (hk : t.kind = .endOfText) :
    Leads R ((expect .endOfText).run s) fun _ s' => s'.Settled ∧ s'.stream = s.stream := by
  refine leads_bind (leads_look h) ?_
  rintro u s₁ ⟨hu, hs, h₁⟩
  obtain rfl := Except.ok.inj (hf.symm.trans hu)
  obtain ⟨hfront, hrest, hsettled⟩ := Reader.next_stream h₁.settled
  rw [if_pos hk]
  show Leads R (s₁.next.1.mapError .lexical, s₁.next.2) _
  rw [hfront, hs, hf]
  refine ⟨fun _ _ => ⟨hsettled, ?_⟩, fun f e => by cases e⟩
  rw [hrest, hs]
  exact (Stream.run_of_end h.settled.closed hf hk).2

theorem leads_program (h : At R [] .item s) :
    Leads R (program.run s) fun p s' => s'.Settled ∧
      ∃ items, p = { items := items } ∧ R = (.ok items, s'.stream) := by
  refine leads_bind (leads_loop (I := fun items s => At R items .item s)
    (fun items s hs => leads_addItem hs) h) ?_
  rintro items s₁ ⟨h₁, t, hf, hk⟩
  have hR := h₁.run
  rw [(Stream.run_of_end h₁.settled.closed hf hk).1] at hR
  refine leads_bind (leads_expect_end h₁ hf hk) ?_
  rintro u s₂ ⟨h₂, hs⟩
  refine leads_pure ⟨h₂, items, rfl, ?_⟩
  rw [hR, hs]
  simp [Except.map]

end Part

/-- **Descent and stages agree.**  Whatever is in front of a reader, the parts make of it what the
stages make of its stream, and leave a reader that has still to deliver what the stages leave. -/
theorem Reader.parse_eq {s : Reader} (h : s.Settled) :
    s.parse.1 = s.stream.parse.1 ∧ s.parse.2.stream = s.stream.parse.2 ∧ s.parse.2.Settled := by
  have hat : At (s.stream.run .item) [] .item s := by
    refine ⟨h, ?_⟩
    cases hr : (s.stream.run .item).1 with
    | error f => exact Prod.ext hr rfl
    | ok items => exact Prod.ext hr rfl
  obtain ⟨hok, herror⟩ := Part.leads_program hat
  rw [s.stream.parse_eq_run]
  show (Part.program.run s).1 = _ ∧ (Part.program.run s).2.stream = _ ∧ (Part.program.run s).2.Settled
  cases hp : (Part.program.run s).1 with
  | ok p =>
    obtain ⟨hsettled, items, rfl, hR⟩ := hok p hp
    rw [hR]
    exact ⟨rfl, rfl, hsettled⟩
  | error f =>
    obtain ⟨hsettled, hR⟩ := herror f hp
    rw [hR]
    exact ⟨rfl, rfl, hsettled⟩

end DeskCalc
