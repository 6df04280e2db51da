import DeskCalc.Proofs.Descent
import DeskCalc.Proofs.ReportOrder

/-!
# One parser, call after call

A parser can be called again after it has delivered a program or a fault.  What it remembers is its
reader: the characters left, the position, and the token it has looked at and not taken.  This comes
to a place in the stream of the text, behind a number of outcomes (`exists_behind_calls`).  A call
moves the place in one of three ways (`parse_cases`): to the end, if it delivers a program; behind
the faulty lexeme, if it reports one; and before the token that it refuses, wherever in an item that
token was refused.  So the next call delivers what a parser delivers that starts in that place
(`call_resumes`).

Which place is meant is never in doubt, since the outcomes of a text stand one behind the other
(`Cursor.pairwise_places`): the position that a fault reports is that of one outcome, or of the end.

* `Reader.calls`, `Reader.call`   the reader behind a number of calls, and what the next one says;
* `Reader.scanned`                a reader of the text behind a number of outcomes;
* `Stream.behind`                 the stream behind a number of outcomes;
* `Stream.Stops`                  the three ways in which a run of the stages ends (`stops_run`).
-/

namespace DeskCalc

/-! ## Places of outcomes -/

def placeOf : Outcome → Position
  | .ok t => t.pos
  | .error f => f.pos

theorem Lexeme.placeOf_read (l : Lexeme) (p : Position) : placeOf (l.read p) = p := by
  unfold read
  split
  · split <;> rfl
  · rfl
  · split <;> rfl
  · split <;> rfl

theorem Position.eq_or_before_past (p : Position) (cs : List Char) :
    p = p.past cs ∨ p.Before (p.past cs) := by
  by_cases h : cs = []
  · exact .inl (by rw [h, past_nil])
  · exact .inr (before_past h p)

namespace Cursor
variable {c d : Cursor} {o : Outcome}

/-- the outcomes from a cursor on, and the end token behind them -/
def delivered (c : Cursor) : List Outcome := c.outcomes ++ [.ok c.endToken]

theorem delivered_of_end (h : c.advance? = none) : c.delivered = [.ok c.endToken] := by
  rw [delivered, outcomes_of_end h]
  rfl

theorem delivered_of_lexeme (h : c.advance? = some (o, d)) : c.delivered = o :: d.delivered := by
  rw [delivered, outcomes_of_lexeme h, ← endToken_of_advance? h]
  rfl

theorem place_of_advance? (h : c.advance? = some (o, d)) :
    (c.pos = placeOf o ∨ c.pos.Before (placeOf o)) ∧ (placeOf o).Before d.pos := by
  obtain ⟨gap, l, hg, hrest, hl, rfl, hpos⟩ := advance?_inv h
  have hne := Lexeme.chars_ne_nil_of_munch (Lexeme.munch_of_stands hl)
  rw [Lexeme.placeOf_read, hpos]
  exact ⟨Position.eq_or_before_past _ _, Position.before_past hne _⟩

/-- **Outcomes stand one behind the other**, and the end behind them all. -/
theorem pairwise_places (c : Cursor) :
    (∀ o ∈ c.delivered, c.pos = placeOf o ∨ c.pos.Before (placeOf o)) ∧
      (c.delivered.map placeOf).Pairwise Position.Before := by
  induction hn : c.rest.length using Nat.strongRecOn generalizing c with
  | ind n ih =>
    subst hn
    cases hadv : c.advance? with
    | none =>
      rw [delivered_of_end hadv]
      refine ⟨List.forall_mem_singleton.mpr ?_, List.pairwise_singleton _ _⟩
      exact Position.eq_or_before_past c.pos c.rest
    | some od =>
      obtain ⟨o, d⟩ := od
      obtain ⟨hplace, hbefore⟩ := place_of_advance? hadv
      obtain ⟨hall, hpairs⟩ := ih _ (length_lt_of_advance? hadv) d rfl
      have hlate : ∀ q ∈ d.delivered, (placeOf o).Before (placeOf q) := by
        intro q hq
        rcases hall q hq with heq | hlt
        · exact heq ▸ hbefore
        · exact hbefore.trans hlt
      rw [delivered_of_lexeme hadv, List.map_cons, List.pairwise_cons]
      refine ⟨List.forall_mem_cons.mpr ⟨hplace, fun q hq => .inr ?_⟩,
        List.forall_mem_map.mpr hlate, hpairs⟩
      rcases hplace with heq | hlt
      · exact heq ▸ hlate q hq
      · exact hlt.trans (hlate q hq)

theorem eq_of_place {i j : Nat} {o o' : Outcome} (hi : c.delivered[i]? = some o)
    (hj : c.delivered[j]? = some o') (h : placeOf o = placeOf o') : i = j := by
  have hpairs := (pairwise_places c).2
  rw [List.pairwise_map, List.pairwise_iff_getElem] at hpairs
  obtain ⟨hi', rfl⟩ := List.getElem?_eq_some_iff.mp hi
  obtain ⟨hj', rfl⟩ := List.getElem?_eq_some_iff.mp hj
  rcases Nat.lt_trichotomy i j with hlt | heq | hlt
  · exact absurd (h ▸ hpairs i j hi' hj' hlt) (Position.not_before_self _)
  · exact heq
  · exact absurd (h ▸ hpairs j i hj' hi' hlt) (Position.not_before_self _)

end Cursor

/-! ## Streams behind a number of outcomes -/

namespace Stream

/-- the stream behind `k` outcomes; behind the end there is still the end -/
def behind (s : Stream) (k : Nat) : Stream := { s with outcomes := s.outcomes.drop k }

theorem behind_behind (s : Stream) (j k : Nat) : (s.behind j).behind k = s.behind (j + k) := by
  simp [behind]

theorem rest_eq_behind (s : Stream) : s.rest = s.behind 1 := by
  simp [rest, behind]

/-- how a run ends that begins at `s`: at the end, behind a fault, or before a token it refuses -/
def Stops (s : Stream) (r : Except Fault (List Item) × Stream) : Prop :=
  (∃ items, r = (.ok items, ⟨[], s.last⟩)) ∨
  (∃ k f, (s.behind k).front = .error f ∧ r = (.error (.lexical f), s.behind (k + 1))) ∨
  ∃ k t x, (s.behind k).front = .ok t ∧ r = (.error (.grammar (.refused x t)), s.behind k)

section Stops
variable {s : Stream} {r : Except Fault (List Item) × Stream}

theorem Stops.of_rest (h : s.rest.Stops r) : s.Stops r := by
  rw [rest_eq_behind] at h
  rcases h with ⟨items, rfl⟩ | ⟨k, f, hf, rfl⟩ | ⟨k, t, x, hf, rfl⟩
  · exact .inl ⟨items, rfl⟩
  · rw [behind_behind] at hf ⊢
    exact .inr (.inl ⟨1 + k, f, hf, rfl⟩)
  · rw [behind_behind] at hf ⊢
    exact .inr (.inr ⟨1 + k, t, x, hf, rfl⟩)

theorem Stops.map (h : s.Stops r) (g : List Item → List Item) : s.Stops (r.1.map g, r.2) := by
  rcases h with ⟨items, rfl⟩ | ⟨k, f, hf, rfl⟩ | ⟨k, t, x, hf, rfl⟩
  · exact .inl ⟨g items, rfl⟩
  · exact .inr (.inl ⟨k, f, hf, rfl⟩)
  · exact .inr (.inr ⟨k, t, x, hf, rfl⟩)

end Stops

theorem stops_run {s : Stream} (hs : s.Closed) (st : Stage) : s.Stops (s.run st) := by
  obtain ⟨os, last⟩ := s
  induction os generalizing st with
  | nil =>
    by_cases hst : st = .item
    · subst hst
      exact .inl ⟨[], rfl⟩
    · have hm := st.move?_endOfText hs.last
      rw [run_of_refused hs rfl hm fun e => absurd e hst]
      exact .inr (.inr ⟨0, last, st.wanted, rfl, rfl⟩)
  | cons o os ih =>
    have hrest : (Stream.mk os last).Closed := ⟨hs.last, fun t ht => hs.inner t (.tail _ ht)⟩
    cases o with
    | error f => exact .inr (.inl ⟨0, f, rfl, rfl⟩)
    | ok t =>
      cases hm : st.move? t with
      | none =>
        rw [run_of_refused hs rfl hm fun _ => hs.inner t List.mem_cons_self]
        exact .inr (.inr ⟨0, t, st.wanted, rfl, rfl⟩)
      | some m =>
        cases m with
        | shift next =>
          rw [run_of_shift hs rfl hm]
          exact Stops.of_rest (s := ⟨.ok t :: os, last⟩) (ih next hrest)
        | complete i =>
          rw [run_of_complete hs rfl hm]
          exact (Stops.of_rest (s := ⟨.ok t :: os, last⟩) (ih .item hrest)).map _

end Stream

/-! ## Calls -/

namespace Reader

def calls (s : Reader) : Nat → Reader
  | 0 => s
  | n + 1 => (s.calls n).parse.2

def call (text : String) (n : Nat) : Except Fault Program := ((ofText text).calls n).parse.1

def scanned (text : String) (k : Nat) : Reader := (ofText text).after (List.replicate k .next)

section Text
variable {text : String} {n : Nat}

theorem scanned_succ (text : String) (k : Nat) :
    scanned text (k + 1) = (scanned text k).next.2 := by
  unfold scanned
  rw [List.replicate_succ', after_append]
  rfl

theorem stream_scanned (text : String) (k : Nat) :
    (scanned text k).Settled ∧ (scanned text k).stream = (Stream.ofText text).behind k := by
  induction k with
  | zero => exact ⟨settled_of_none _, rfl⟩
  | succ k ih =>
    obtain ⟨hsettled, hstream⟩ := ih
    obtain ⟨-, hrest, hnext⟩ := next_stream hsettled
    rw [scanned_succ]
    refine ⟨hnext, ?_⟩
    rw [hrest, hstream, Stream.rest_eq_behind, Stream.behind_behind]

theorem next_scanned (text : String) (k : Nat) :
    (scanned text k).next.1 = ((Stream.ofText text).behind k).front := by
  obtain ⟨hsettled, hstream⟩ := stream_scanned text k
  rw [(next_stream hsettled).1, hstream]

theorem exists_delivered (text : String) (k : Nat) :
    ∃ j, (Stream.ofText text).behind k = (Stream.ofText text).behind j ∧
      (Cursor.ofText text).delivered[j]? = some ((Stream.ofText text).behind k).front := by
  have hlast : (Stream.ofText text).last = (Cursor.ofText text).endToken := rfl
  have hout : (Stream.ofText text).outcomes = (Cursor.ofText text).outcomes := rfl
  unfold Stream.behind Stream.front Cursor.delivered
  rw [hlast, hout]
  by_cases hk : k < (Cursor.ofText text).outcomes.length
  · refine ⟨k, rfl, ?_⟩
    rw [List.getElem?_append_left hk, List.head?_drop, List.getElem?_eq_getElem hk]
    rfl
  · refine ⟨(Cursor.ofText text).outcomes.length, ?_, ?_⟩
    · rw [List.drop_length, List.drop_of_length_le (Nat.le_of_not_lt hk)]
    · rw [List.getElem?_concat_length, List.drop_of_length_le (Nat.le_of_not_lt hk)]
      rfl

/-- A place is that of one outcome, or the end. -/
theorem behind_eq_of_place {i j : Nat}
    (h : placeOf (scanned text i).next.1 = placeOf (scanned text j).next.1) :
    (Stream.ofText text).behind i = (Stream.ofText text).behind j := by
  obtain ⟨i', hi, hi'⟩ := exists_delivered text i
  obtain ⟨j', hj, hj'⟩ := exists_delivered text j
  rw [next_scanned, next_scanned] at h
  rw [hi, hj, Cursor.eq_of_place hi' hj' h]

theorem parse_cases {s : Reader} {j : Nat} (h : s.Settled)
    (hs : s.stream = (Stream.ofText text).behind j) :
    (∃ p k, s.parse.1 = .ok p ∧ s.parse.2.stream = (Stream.ofText text).behind k ∧
      s.parse.2.stream.outcomes = []) ∨
    (∃ k e, (scanned text k).next.1 = .error e ∧ s.parse.1 = .error (.lexical e) ∧
      s.parse.2.stream = (Stream.ofText text).behind (k + 1)) ∨
    ∃ k t x, (scanned text k).next.1 = .ok t ∧ s.parse.1 = .error (.grammar (.refused x t)) ∧
      s.parse.2.stream = (Stream.ofText text).behind k := by
  obtain ⟨hfst, hsnd, -⟩ := parse_eq h
  rw [hfst, hsnd, s.stream.parse_eq_run]
  have hstops := Stream.stops_run h.closed .item
  simp only [hs, Stream.Stops, Stream.behind_behind] at hstops ⊢
  rcases hstops with ⟨items, hr⟩ | ⟨k, f, hf, hr⟩ | ⟨k, t, x, hf, hr⟩
  · rw [hr]
    refine .inl ⟨_, (Stream.ofText text).outcomes.length, rfl, ?_, rfl⟩
    simp [Stream.behind]
  · rw [hr]
    exact .inr (.inl ⟨j + k, f, (next_scanned text _).trans hf, rfl, rfl⟩)
  · rw [hr]
    exact .inr (.inr ⟨j + k, t, x, (next_scanned text _).trans hf, rfl, rfl⟩)

theorem exists_behind_calls (text : String) (n : Nat) :
    ((ofText text).calls n).Settled ∧
      ∃ k, ((ofText text).calls n).stream = (Stream.ofText text).behind k := by
  induction n with
  | zero => exact ⟨settled_of_none _, 0, rfl⟩
  | succ n ih =>
    obtain ⟨hsettled, j, hj⟩ := ih
    refine ⟨(parse_eq hsettled).2.2, ?_⟩
    show ∃ k, ((ofText text).calls n).parse.2.stream = _
    rcases parse_cases hsettled hj with ⟨p, k, -, hk, -⟩ | ⟨k, e, -, -, hk⟩ | ⟨k, t, x, -, -, hk⟩
    · exact ⟨k, hk⟩
    · exact ⟨k + 1, hk⟩
    · exact ⟨k, hk⟩

theorem call_eq_iterate (text : String) (n : Nat) :
    call text n = (Nat.iterate (fun s => s.parse.2) n (Stream.ofText text)).parse.1 := by
  have hstream : ((ofText text).calls n).stream =
      Nat.iterate (fun s => s.parse.2) n (Stream.ofText text) := by
    induction n with
    | zero => rfl
    | succ n ih =>
      rw [Function.iterate_succ_apply', ← ih]
      exact (parse_eq (exists_behind_calls text n).1).2.1
  rw [call, (parse_eq (exists_behind_calls text n).1).1, hstream]

theorem call_of_stream {k : Nat}
    (h : ((ofText text).calls n).stream = (Stream.ofText text).behind k) :
    call text n = (scanned text k).parse.1 := by
  obtain ⟨hsettled, hstream⟩ := stream_scanned text k
  rw [call, (parse_eq (exists_behind_calls text n).1).1, (parse_eq hsettled).1, h, hstream]

theorem calls_of_ok {p : Program} (h : call text n = .ok p) :
    ((ofText text).calls (n + 1)).stream.outcomes = [] := by
  obtain ⟨hsettled, j, hj⟩ := exists_behind_calls text n
  rcases parse_cases hsettled hj with ⟨-, -, -, -, hnil⟩ | ⟨k, e, -, he, -⟩ | ⟨k, t, x, -, hf, -⟩
  · exact hnil
  · cases he.symm.trans h
  · cases hf.symm.trans h

theorem calls_of_fault {e : LexicalFault} (h : call text n = .error (.lexical e)) :
    ∃ k, (scanned text k).next.1 = .error e ∧
      ((ofText text).calls (n + 1)).stream = (Stream.ofText text).behind (k + 1) := by
  obtain ⟨hsettled, j, hj⟩ := exists_behind_calls text n
  rcases parse_cases hsettled hj with ⟨p, -, hp, -⟩ | ⟨k, e', ho, he, hk⟩ | ⟨k, t, x, -, hf, -⟩
  · cases hp.symm.trans h
  · cases he.symm.trans h
    exact ⟨k, ho, hk⟩
  · cases hf.symm.trans h

theorem fault_of_call {f : Fault} (h : call text n = .error f) :
    (∃ e, f = .lexical e) ∨ ∃ g, f = .grammar g := by
  obtain ⟨hsettled, j, hj⟩ := exists_behind_calls text n
  rcases parse_cases hsettled hj with ⟨p, -, hp, -⟩ | ⟨k, e, -, he, -⟩ | ⟨k, t, x, -, hf, -⟩
  · cases hp.symm.trans h
  · exact .inl ⟨e, Except.error.inj (h.symm.trans he)⟩
  · exact .inr ⟨_, Except.error.inj (h.symm.trans hf)⟩

theorem calls_of_refused {f : SyntaxFault} (h : call text n = .error (.grammar f)) :
    ∃ k t, (scanned text k).next.1 = .ok t ∧ f = .refused f.expected t ∧
      ((ofText text).calls (n + 1)).stream = (Stream.ofText text).behind k := by
  obtain ⟨hsettled, j, hj⟩ := exists_behind_calls text n
  rcases parse_cases hsettled hj with ⟨p, -, hp, -⟩ | ⟨k, e, -, he, -⟩ | ⟨k, t, x, ho, hf, hk⟩
  · cases hp.symm.trans h
  · cases he.symm.trans h
  · cases hf.symm.trans h
    exact ⟨k, t, ho, rfl, hk⟩

/-! ## Calls that change nothing any more -/

theorem parse_of_nil {s : Reader} (h : s.Settled) (hs : s.stream.outcomes = []) :
    s.parse.1 = .ok { items := [] } ∧ s.parse.2.stream = s.stream := by
  obtain ⟨hfst, hsnd, -⟩ := parse_eq h
  rw [hfst, hsnd]
  unfold Stream.parse
  rw [hs, Stage.parse, if_pos rfl, ← hs]
  exact ⟨rfl, rfl⟩

theorem parse_of_stray {s : Reader} {t : Token} (h : s.Settled) (hs : s.stream.front = .ok t)
    (hk : t.kind ∉ [.intType, .floatType, .name, .print, .endOfText]) :
    s.parse.1 = .error (.grammar (.refused none t)) ∧ s.parse.2.stream = s.stream := by
  obtain ⟨hfst, hsnd, -⟩ := parse_eq h
  have hm : Stage.item.move? t = none := by
    unfold Stage.move?
    split
    all_goals simp_all
  have hend : t.kind ≠ .endOfText := by
    rintro e
    simp [e] at hk
  rw [hfst, hsnd, s.stream.parse_eq_run, Stream.run_of_refused h.closed hs hm fun _ => hend]
  exact ⟨rfl, rfl⟩

/-- A parser whose stream a call leaves as it is says the same for ever. -/
theorem calls_stay {s : Stream} (hs : ∀ r : Reader, r.Settled → r.stream = s → r.parse.2.stream = s)
    (h : ((ofText text).calls n).stream = s) {m : Nat} (hm : n ≤ m) :
    ((ofText text).calls m).stream = s := by
  induction m, hm using Nat.le_induction with
  | base => exact h
  | succ m _ ih => exact hs _ (exists_behind_calls text m).1 ih

theorem call_of_nil (h : ((ofText text).calls n).stream.outcomes = []) {m : Nat} (hm : n ≤ m) :
    call text m = .ok { items := [] } := by
  have hstay : ((ofText text).calls m).stream = ((ofText text).calls n).stream :=
    calls_stay (fun r hr he => ((parse_of_nil hr (he ▸ h)).2).trans he) rfl hm
  exact (parse_of_nil (exists_behind_calls text m).1 (hstay ▸ h)).1

theorem call_of_stray {t : Token} (h : ((ofText text).calls n).stream.front = .ok t)
    (hk : t.kind ∉ [.intType, .floatType, .name, .print, .endOfText]) {m : Nat} (hm : n ≤ m) :
    call text m = .error (.grammar (.refused none t)) := by
  have hstay : ((ofText text).calls m).stream = ((ofText text).calls n).stream :=
    calls_stay (fun r hr he => ((parse_of_stray hr (he ▸ h) hk).2).trans he) rfl hm
  exact (parse_of_stray (exists_behind_calls text m).1 (hstay ▸ h) hk).1

end Text

/-- **One parser, call after call.**  Behind a program there is nothing left.  Behind a refused
token the next call begins with that token, and behind a faulty lexeme with what follows it; in both
cases it says what a parser says that has been brought there token by token.  So a token that begins
no item is refused by all calls from then on, and behind the end of the text all calls find an empty
program. -/
theorem call_resumes (text : String) (n : Nat) :
    call text n = (Nat.iterate (fun s => s.parse.2) n (Stream.ofText text)).parse.1 ∧
    (∀ f, call text n = .error f → (∃ e, f = .lexical e) ∨ ∃ g, f = .grammar g) ∧
    (∀ p, call text n = .ok p → call text (n + 1) = .ok { items := [] }) ∧
    (∀ f, call text n = .error (.grammar f) →
      (∃ k t, (scanned text k).next.1 = .ok t ∧ f = .refused f.expected t) ∧
      ∀ k t, (scanned text k).next.1 = .ok t → f = .refused f.expected t →
        call text (n + 1) = (scanned text k).parse.1) ∧
    (∀ e, call text n = .error (.lexical e) →
      (∃ k, (scanned text k).next.1 = .error e) ∧
      ∀ k, (scanned text k).next.1 = .error e →
        call text (n + 1) = (scanned text (k + 1)).parse.1) ∧
    ∀ f, call text n = .error (.grammar f) → ∀ m, n < m →
      (f.found ∉ [.intType, .floatType, .name, .print, .endOfText] →
        ∃ g, call text m = .error (.grammar g) ∧ g.expected = none ∧ g.found = f.found ∧
          g.text = f.text ∧ g.pos = f.pos) ∧
      (f.found = .endOfText → call text m = .ok { items := [] }) := by
  refine ⟨call_eq_iterate text n, fun f hf => fault_of_call hf, fun p hp => ?_, fun f hf => ?_,
    fun e he => ?_, fun f hf m hm => ?_⟩
  · exact call_of_nil (calls_of_ok hp) (Nat.le_refl _)
  · obtain ⟨k, t, ho, ht, hk⟩ := calls_of_refused hf
    refine ⟨⟨k, t, ho, ht⟩, fun k' t' ho' ht' => call_of_stream (hk.trans ?_)⟩
    apply behind_eq_of_place
    rw [ho, ho']
    exact (congrArg SyntaxFault.pos ht).symm.trans (congrArg SyntaxFault.pos ht')
  · obtain ⟨k, ho, hk⟩ := calls_of_fault he
    refine ⟨⟨k, ho⟩, fun k' ho' => call_of_stream (hk.trans ?_)⟩
    have hsame : (Stream.ofText text).behind k = (Stream.ofText text).behind k' :=
      behind_eq_of_place (by rw [ho, ho'])
    rw [← Stream.behind_behind, hsame, Stream.behind_behind]
  · obtain ⟨k, t, ho, ht, hk⟩ := calls_of_refused hf
    have hfront : ((ofText text).calls (n + 1)).stream.front = .ok t := by
      rw [hk, ← next_scanned, ho]
    have hfound : f.found = t.kind := congrArg SyntaxFault.found ht
    refine ⟨fun hstray => ?_, fun hend => ?_⟩
    · rw [hfound] at hstray
      exact ⟨_, call_of_stray hfront hstray hm, rfl, hfound.symm,
        (congrArg SyntaxFault.text ht).symm, (congrArg SyntaxFault.pos ht).symm⟩
    · have hclosed := (exists_behind_calls text (n + 1)).1.closed
      rcases Stream.outcomes_of_front hclosed hfront with ⟨hnil, -, -⟩ | ⟨-, hk⟩
      · exact call_of_nil hnil hm
      · exact absurd (hfound.symm.trans hend) hk

/-- The second `int` is refused, then the sign is faulty, then there is an item, and then the end;
and a `+` behind a name is refused by every call. -/
theorem call_resumes_mixture :
    call "int int a; @ b = 2;" 0 =
        .error (.grammar (.refused (some .name) ⟨.intType, ⟨1, 5⟩, none⟩)) ∧
      call "int int a; @ b = 2;" 1 = (scanned "int int a; @ b = 2;" 1).parse.1 ∧
      call "int int a; @ b = 2;" 1 = .error (.lexical (.illegalCharacter '@' ⟨1, 12⟩)) ∧
      call "int int a; @ b = 2;" 2 = (scanned "int int a; @ b = 2;" 5).parse.1 ∧
      call "int int a; @ b = 2;" 2 = .ok { items := [.assign { name := "b", pos := ⟨1, 14⟩ }
        (.literal "2" .int ⟨1, 18⟩) none ⟨1, 14⟩] } ∧
      call "int int a; @ b = 2;" 3 = .ok { items := [] } ∧
      ∀ m, 0 < m → ∃ g, call "int a + b;" m = .error (.grammar g) ∧ g.expected = none ∧
        g.found = .plus ∧ g.pos = ⟨1, 7⟩ := by
  obtain ⟨heq₀, -, -, hrefused, -, -⟩ := call_resumes "int int a; @ b = 2;" 0
  obtain ⟨heq₁, -, -, -, hfault, -⟩ := call_resumes "int int a; @ b = 2;" 1
  obtain ⟨heq₂, -, hok, -⟩ := call_resumes "int int a; @ b = 2;" 2
  obtain ⟨heq, -, -, -, -, hstray⟩ := call_resumes "int a + b;" 0
  have h₀ : call "int int a; @ b = 2;" 0 =
      .error (.grammar (.refused (some .name) ⟨.intType, ⟨1, 5⟩, none⟩)) := by
    rw [heq₀]
    decide +kernel
  have h₁ : call "int int a; @ b = 2;" 1 = .error (.lexical (.illegalCharacter '@' ⟨1, 12⟩)) := by
    rw [heq₁]
    decide +kernel
  have h₂ : call "int int a; @ b = 2;" 2 = .ok { items := [.assign { name := "b", pos := ⟨1, 14⟩ }
      (.literal "2" .int ⟨1, 18⟩) none ⟨1, 14⟩] } := by
    rw [heq₂]
    decide +kernel
  have h : call "int a + b;" 0 =
      .error (.grammar (.refused (some .semicolon) ⟨.plus, ⟨1, 7⟩, none⟩)) := by
    rw [heq]
    decide +kernel
  refine ⟨h₀, (hrefused _ h₀).2 1 ⟨.intType, ⟨1, 5⟩, none⟩ (by decide +kernel) rfl, h₁,
    (hfault _ h₁).2 4 (by decide +kernel), h₂, hok _ h₂, fun m hm => ?_⟩
  obtain ⟨g, hg, hexpected, hfound, -, hpos⟩ := (hstray _ h m hm).1 (by decide)
  exact ⟨g, hg, hexpected, hfound, hpos⟩

end Reader
end DeskCalc
