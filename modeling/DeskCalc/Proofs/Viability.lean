import DeskCalc.Proofs.Parsing

/-!
# Where a text goes wrong

The parser looks at one token after the other and never back.  It goes on as long as the kinds read
so far begin a sentence of the grammar (`Viable`), and the first thing that ends this is what it
reports: a faulty lexeme, or a token with which the kinds begin no sentence.  What comes behind is
not looked at.

Both halves go through the stage behind the tokens (`Stage.reach?`).

* A stage can always be brought to an end (`reach?_finish`), so the tokens that lead to it begin a
  sentence (`viable_of_reach?`).
* The tokens of a sentence lead from item to item (`reach?_of_sentence`), so a token that is refused
  begins none together with those before it (`viable_snoc_iff`).

What a text delivers is said by asking a reader again and again (`Reader.nexts`), and is the same as
the outcomes that the parser is given (`nexts_eq_iff`).
-/

namespace DeskCalc

/-- the kinds begin a sentence -/
def Viable (ks : List Token.Kind) : Prop := ∃ more, Sentence (ks ++ more)

/-! ## Stages along tokens -/

def Move.stage : Move → Stage
  | shift next => next
  | complete _ => .item

/-- a token of a kind, wherever it stands and whatever it is called -/
def Token.ofKind (k : Token.Kind) : Token := ⟨k, .start, none⟩

theorem map_kind_ofKind (ks : List Token.Kind) : (ks.map Token.ofKind).map Token.kind = ks := by
  rw [List.map_map]
  exact List.map_id ks

namespace Stage

/-- the stage behind a row of tokens, unless one of them is refused -/
def reach? : Stage → List Token → Option Stage
  | s, [] => some s
  | s, t :: ts => (s.move? t).bind fun m => m.stage.reach? ts

theorem reach?_append (s : Stage) (ts us : List Token) :
    s.reach? (ts ++ us) = (s.reach? ts).bind fun s' => s'.reach? us := by
  induction ts generalizing s with
  | nil => rfl
  | cons t ts ih =>
    simp only [List.cons_append, reach?, Option.bind_assoc, ih]

theorem reach?_snoc {s s' : Stage} {ts : List Token} (h : s.reach? ts = some s') (t : Token) :
    s.reach? (ts ++ [t]) = (s'.move? t).map Move.stage := by
  rw [reach?_append, h, Option.bind_some, reach?]
  cases s'.move? t <;> rfl

theorem exists_reach?_of_append {s s' : Stage} {ts us : List Token}
    (h : s.reach? (ts ++ us) = some s') : ∃ s'', s.reach? ts = some s'' := by
  rw [reach?_append] at h
  obtain ⟨s'', hs, -⟩ := Option.bind_eq_some_iff.mp h
  exact ⟨s'', hs⟩

theorem move?_endOfText (s : Stage) {t : Token} (h : t.kind = .endOfText) : s.move? t = none := by
  cases s <;> simp [move?, Token.operand?, h]

theorem exists_parse_ok_iff (last : Token) (s : Stage) (ts : List Token) :
    (∃ is, (parse last s (ts.map .ok)).1 = .ok is) ↔ s.reach? ts = some item := by
  induction ts generalizing s with
  | nil =>
    by_cases h : s = item
    · simp [parse, reach?, h]
    · simp [parse, reach?, h]
  | cons t ts ih =>
    rw [List.map_cons, reach?]
    cases hm : s.move? t with
    | none =>
      rw [parse_refuse _ hm]
      simp
    | some m =>
      rw [Option.bind_some, ← ih]
      cases m with
      | shift next =>
        rw [parse_shift _ hm]
        rfl
      | complete i =>
        rw [parse_complete _ hm]
        show _ ↔ ∃ is, (parse last item (ts.map .ok)).1 = .ok is
        cases (parse last item (ts.map .ok)).1 with
        | error f => simp [Except.map]
        | ok is => simp [Except.map]

theorem exists_itemsOf_iff_reach? {ts : List Token} :
    (∃ is, ItemsOf ts is) ↔ item.reach? ts = some item := by
  rw [← exists_parse_ok_iff (Token.ofKind .endOfText)]
  constructor
  · rintro ⟨is, h⟩
    exact ⟨is, parse_eq_ok_iff.mpr ⟨ts, rfl, h⟩⟩
  · rintro ⟨is, h⟩
    obtain ⟨us, hus, hi⟩ := parse_eq_ok_iff.mp h
    have e : ts = us := List.map_injective_iff.mpr (fun _ _ => Except.ok.inj) hus
    exact ⟨is, e ▸ hi⟩

/-! ## Viable kinds -/

/-- kinds that bring the item at hand to its end -/
def finish : Stage → List Token.Kind
  | item => []
  | declareType .. | printWord .. => [.name, .semicolon]
  | declareName .. | printName .. | operator .. => [.semicolon]
  | target .. => [.assign, .integer, .semicolon]
  | value .. => [.integer, .semicolon]

theorem reach?_finish (s : Stage) : s.reach? (s.finish.map Token.ofKind) = some item := by
  cases s <;> rfl

theorem sentence_of_reach? {ts : List Token} {last : Token} (h : item.reach? ts = some item)
    (hl : last.kind = .endOfText) : Sentence ((ts ++ [last]).map Token.kind) :=
  (exists_itemsOf_iff hl).mp (exists_itemsOf_iff_reach?.mpr h)

theorem viable_of_reach? {ts : List Token} {s : Stage} (h : item.reach? ts = some s) :
    Viable (ts.map Token.kind) := by
  have hend : item.reach? (ts ++ s.finish.map Token.ofKind) = some item := by
    rw [reach?_append, h]
    exact reach?_finish s
  have hs := sentence_of_reach? hend (rfl : (Token.ofKind .endOfText).kind = .endOfText)
  refine ⟨s.finish ++ [.endOfText], ?_⟩
  rw [List.map_append, List.map_append, map_kind_ofKind, List.append_assoc] at hs
  exact hs

/-- The tokens of a sentence lead from item to item, up to the last one, which is the end. -/
theorem reach?_of_sentence {us : List Token} (h : Sentence (us.map Token.kind)) :
    ∃ vs last, us = vs ++ [last] ∧ last.kind = .endOfText ∧ item.reach? vs = some item := by
  obtain ⟨vs, ws, rfl, hv, hw⟩ := mem_then.mp h
  obtain ⟨last, rfl, hl⟩ := mem_char.mp hw
  exact ⟨vs, last, rfl, hl, exists_itemsOf_iff_reach?.mp (exists_itemsOf_iff_star.mpr hv)⟩

/-- Tokens that begin a sentence are passed, or they are the whole of it. -/
theorem reach?_of_viable {ts : List Token} (h : Viable (ts.map Token.kind)) :
    (∃ s, item.reach? ts = some s) ∨
      ∃ us last, ts = us ++ [last] ∧ last.kind = .endOfText ∧ item.reach? us = some item := by
  obtain ⟨more, hs⟩ := h
  rw [← map_kind_ofKind more, ← List.map_append] at hs
  obtain ⟨vs, last, e, hl, hreach⟩ := reach?_of_sentence hs
  rcases List.append_eq_append_iff.mp e with ⟨as, rfl, -⟩ | ⟨bs, rfl, hb⟩
  · exact .inl (exists_reach?_of_append hreach)
  · cases bs with
    | nil =>
      rw [List.append_nil]
      exact .inl ⟨item, hreach⟩
    | cons b bs =>
      obtain ⟨hlast, hrest⟩ := List.cons.inj hb
      obtain ⟨rfl, -⟩ := List.append_eq_nil_iff.mp hrest.symm
      exact .inr ⟨vs, b, rfl, hlast ▸ hl, hreach⟩

theorem exists_reach?_of_viable {ts : List Token} (h : Viable (ts.map Token.kind))
    (hend : ∀ t ∈ ts, t.kind ≠ .endOfText) : ∃ s, item.reach? ts = some s := by
  rcases reach?_of_viable h with hs | ⟨us, last, rfl, hl, -⟩
  · exact hs
  · exact absurd hl (hend last (by simp))

/-- **One token more.**  At a stage exactly those tokens keep the kinds viable that the stage goes on
with, and the end of the text between two items. -/
theorem viable_snoc_iff {ts : List Token} {s : Stage} (h : item.reach? ts = some s) (t : Token) :
    Viable ((ts ++ [t]).map Token.kind) ↔
      s.move? t ≠ none ∨ (s = item ∧ t.kind = .endOfText) := by
  constructor
  · intro hv
    rcases reach?_of_viable hv with ⟨s', hs'⟩ | ⟨us, last, e, hl, hreach⟩
    · rw [reach?_snoc h] at hs'
      obtain ⟨m, hm, -⟩ := Option.map_eq_some_iff.mp hs'
      exact .inl (by simp [hm])
    · obtain ⟨rfl, ht⟩ := List.append_inj' e rfl
      obtain rfl := (List.cons.inj ht).1
      exact .inr ⟨Option.some.inj (h.symm.trans hreach), hl⟩
  · rintro (hm | ⟨rfl, hl⟩)
    · obtain ⟨m, hm⟩ := Option.ne_none_iff_exists'.mp hm
      have hnext : item.reach? (ts ++ [t]) = some m.stage := by
        rw [reach?_snoc h, hm]
        rfl
      exact viable_of_reach? hnext
    · refine ⟨[], ?_⟩
      rw [List.append_nil]
      exact sentence_of_reach? h hl

/-! ## How a run ends -/

section
variable {last : Token} {s s' : Stage} {ts : List Token}

/-- A run goes on behind tokens that are passed from the stage they lead to, with the items that were
complete before. -/
theorem parse_of_reach? (last : Token) (h : s.reach? ts = some s') :
    ∃ done : List Item, ∀ os, parse last s (ts.map .ok ++ os) =
      ((parse last s' os).1.map (done ++ ·), (parse last s' os).2) := by
  induction ts generalizing s with
  | nil =>
    obtain rfl := Option.some.inj h
    refine ⟨[], fun os => ?_⟩
    show parse last s os = _
    cases hr : (parse last s os).1 with
    | error f => exact Prod.ext hr rfl
    | ok is => exact Prod.ext hr rfl
  | cons t ts ih =>
    obtain ⟨m, hm, hs⟩ := Option.bind_eq_some_iff.mp h
    obtain ⟨done, hrun⟩ := ih hs
    cases m with
    | shift next =>
      refine ⟨done, fun os => ?_⟩
      rw [List.map_cons, List.cons_append, parse_shift _ hm]
      exact hrun os
    | complete i =>
      refine ⟨i :: done, fun os => ?_⟩
      rw [List.map_cons, List.cons_append, parse_complete _ hm]
      show ((parse last item (ts.map .ok ++ os)).1.map _, (parse last item (ts.map .ok ++ os)).2) = _
      have hrun' : parse last item (ts.map .ok ++ os) = _ := hrun os
      rw [hrun']
      cases (parse last s' os).1 with
      | error f => rfl
      | ok is => rfl

theorem parse_fault_of_reach? (h : s.reach? ts = some s') {os : List Outcome} {f : Fault}
    (hf : (parse last s' os).1 = .error f) :
    (parse last s (ts.map .ok ++ os)).1 = .error f := by
  obtain ⟨done, hrun⟩ := parse_of_reach? last h
  rw [hrun, hf]
  rfl

/-- Outcomes are tokens that are passed up to the end, or up to a fault, or up to a refused token. -/
theorem reach?_cases (s : Stage) (os : List Outcome) :
    (∃ ts s', os = ts.map .ok ∧ s.reach? ts = some s') ∨
    (∃ ts s' f rest, os = ts.map .ok ++ .error f :: rest ∧ s.reach? ts = some s') ∨
    ∃ ts s' t rest, os = ts.map .ok ++ .ok t :: rest ∧ s.reach? ts = some s' ∧
      s'.move? t = none := by
  induction os generalizing s with
  | nil => exact .inl ⟨[], s, rfl, rfl⟩
  | cons o os ih =>
    cases o with
    | error f => exact .inr (.inl ⟨[], s, f, os, rfl, rfl⟩)
    | ok t =>
      cases hm : s.move? t with
      | none => exact .inr (.inr ⟨[], s, t, os, rfl, rfl, hm⟩)
      | some m =>
        have hcons : ∀ {ts s'}, m.stage.reach? ts = some s' → s.reach? (t :: ts) = some s' := by
          intro ts s' h
          rw [reach?, hm]
          exact h
        rcases ih m.stage with ⟨ts, s', rfl, h⟩ | ⟨ts, s', f, rest, rfl, h⟩ |
          ⟨ts, s', u, rest, rfl, h, hu⟩
        · exact .inl ⟨t :: ts, s', rfl, hcons h⟩
        · exact .inr (.inl ⟨t :: ts, s', f, rest, rfl, hcons h⟩)
        · exact .inr (.inr ⟨t :: ts, s', u, rest, rfl, hcons h, hu⟩)

end

end Stage

/-! ## What a text delivers -/

namespace Reader

/-- what a reader delivers when it is asked for one token after the other -/
def nexts : Nat → Reader → List Outcome
  | 0, _ => []
  | n + 1, s => s.next.1 :: nexts n s.next.2

end Reader

theorem Lexeme.kind_ne_of_read {l : Lexeme} {p : Position} {t : Token} (h : l.read p = .ok t) :
    t.kind ≠ .endOfText := by
  cases l with
  | word letters =>
    rw [read] at h
    unfold Token.Kind.ofKeyword? at h
    split_ifs at h
    all_goals
      obtain rfl := Except.ok.inj h
      simp
  | whole digits =>
    obtain rfl := Except.ok.inj h
    simp
  | pointed digits fraction =>
    rw [read] at h
    split_ifs at h
    obtain rfl := Except.ok.inj h
    simp
  | sign c =>
    rw [read] at h
    unfold Token.Kind.ofSign? at h
    split_ifs at h
    all_goals
      obtain rfl := Except.ok.inj h
      simp

namespace Cursor
variable {c : Cursor}

theorem kind_ne_of_mem_outcomes {t : Token} (h : .ok t ∈ c.outcomes) : t.kind ≠ .endOfText := by
  induction hn : c.rest.length using Nat.strongRecOn generalizing c with
  | ind n ih =>
    subst hn
    cases hadv : c.advance? with
    | none =>
      rw [outcomes_of_end hadv] at h
      cases h
    | some od =>
      obtain ⟨o, d⟩ := od
      rw [outcomes_of_lexeme hadv] at h
      rcases List.mem_cons.mp h with rfl | h
      · obtain ⟨gap, l, -, -, -, hread, -⟩ := advance?_inv hadv
        exact Lexeme.kind_ne_of_read hread.symm
      · exact ih _ (length_lt_of_advance? hadv) h rfl

theorem next_of_nil (h : c.outcomes = []) : (Reader.mk c none).next.1 = .ok c.endToken := by
  cases hadv : c.advance? with
  | none =>
    show (c.advance?.getD _).1 = _
    rw [hadv]
    rfl
  | some od =>
    rw [outcomes_of_lexeme hadv] at h
    cases h

theorem next_of_cons {o : Outcome} {os : List Outcome} (h : c.outcomes = o :: os) :
    ∃ d : Cursor, (Reader.mk c none).next = (o, ⟨d, none⟩) ∧ d.outcomes = os ∧
      d.endToken = c.endToken := by
  cases hadv : c.advance? with
  | none =>
    rw [outcomes_of_end hadv] at h
    cases h
  | some od =>
    obtain ⟨o', d⟩ := od
    rw [outcomes_of_lexeme hadv] at h
    obtain ⟨rfl, hd⟩ := List.cons.inj h
    refine ⟨d, ?_, hd, endToken_of_advance? hadv⟩
    show ((c.advance?.getD _).1, Reader.mk (c.advance?.getD _).2 none) = _
    rw [hadv]
    rfl

/-- **Asked again and again**, a reader delivers the outcomes from its cursor on, and the end token
behind them. -/
theorem nexts_eq_iff {ts : List Token} (hend : ∀ t ∈ ts, t.kind ≠ .endOfText) (o : Outcome) :
    (Reader.mk c none).nexts (ts.length + 1) = ts.map .ok ++ [o] ↔
      (∃ rest, c.outcomes = ts.map .ok ++ o :: rest) ∨
        (c.outcomes = ts.map .ok ∧ o = .ok c.endToken) := by
  induction ts generalizing c with
  | nil =>
    cases hout : c.outcomes with
    | nil => simp [Reader.nexts, next_of_nil hout, eq_comm]
    | cons o' os =>
      obtain ⟨d, hnext, -⟩ := next_of_cons hout
      simp [Reader.nexts, hnext]
  | cons t ts ih =>
    obtain ⟨ht, hts⟩ := List.forall_mem_cons.mp hend
    rw [List.length_cons, Reader.nexts]
    cases hout : c.outcomes with
    | nil =>
      rw [next_of_nil hout]
      simp only [List.map_cons, List.cons_append, List.cons.injEq, Except.ok.injEq]
      constructor
      · rintro ⟨rfl, -⟩
        exact absurd rfl ht
      · simp
    | cons o' os =>
      obtain ⟨d, hnext, rfl, hlast⟩ := next_of_cons hout
      rw [hnext]
      simp only [List.map_cons, List.cons_append, List.cons.injEq, ih hts, hlast]
      grind

end Cursor

/-- scanned from its beginning, a text delivers the tokens `ts`, none of them its end, and then `o` -/
def Delivers (text : String) (ts : List Token) (o : Outcome) : Prop :=
  (Reader.ofText text).nexts (ts.length + 1) = ts.map .ok ++ [o] ∧
    ∀ t ∈ ts, t.kind ≠ .endOfText

/-- a text delivers tokens that begin a sentence, and then one with which they begin none -/
def Refuses (text : String) (ts : List Token) (t : Token) : Prop :=
  Delivers text ts (.ok t) ∧ Viable (ts.map Token.kind) ∧ ¬ Viable ((ts ++ [t]).map Token.kind)

/-! ## Texts -/

section Texts
variable {text : String} {ts : List Token}

theorem parse_eq_error_iff {f : Fault} :
    Source.parse text = .error f ↔
      (Stage.parse (Cursor.ofText text).endToken .item (Cursor.ofText text).outcomes).1 =
        .error f := by
  show (Stage.parse (Cursor.ofText text).endToken .item (Cursor.ofText text).outcomes).1.map _ =
    .error f ↔ _
  cases (Stage.parse (Cursor.ofText text).endToken .item (Cursor.ofText text).outcomes).1 with
  | error g => simp [Except.map]
  | ok is => simp [Except.map]

theorem parse_of_delivers {e : LexicalFault} (h : Delivers text ts (.error e))
    (hv : Viable (ts.map Token.kind)) : Source.parse text = .error (.lexical e) := by
  obtain ⟨hnexts, hend⟩ := h
  obtain ⟨s, hs⟩ := Stage.exists_reach?_of_viable hv hend
  rcases (Cursor.nexts_eq_iff hend _).mp hnexts with ⟨rest, hout⟩ | ⟨-, he⟩
  · rw [parse_eq_error_iff, hout]
    exact Stage.parse_fault_of_reach? hs rfl
  · cases he

theorem parse_of_refuses {t : Token} (h : Refuses text ts t) :
    ∃ k, Source.parse text = .error (.grammar (.refused k t)) := by
  obtain ⟨⟨hnexts, hend⟩, hv, hbad⟩ := h
  obtain ⟨s, hs⟩ := Stage.exists_reach?_of_viable hv hend
  rw [Stage.viable_snoc_iff hs, not_or, not_not] at hbad
  obtain ⟨hm, hitem⟩ := hbad
  refine ⟨s.wanted, ?_⟩
  rcases (Cursor.nexts_eq_iff hend _).mp hnexts with ⟨rest, hout⟩ | ⟨hout, ht⟩
  · rw [parse_eq_error_iff, hout]
    exact Stage.parse_fault_of_reach? hs (by rw [Stage.parse_refuse _ hm]; rfl)
  · obtain rfl := Except.ok.inj ht
    have hne : s ≠ .item := fun e => hitem ⟨e, rfl⟩
    rw [parse_eq_error_iff, hout, ← List.append_nil (ts.map _)]
    exact Stage.parse_fault_of_reach? hs (by rw [Stage.parse, if_neg hne]; rfl)

theorem kind_ne_of_outcomes {rest : List Outcome}
    (h : (Cursor.ofText text).outcomes = ts.map .ok ++ rest) :
    ∀ t ∈ ts, t.kind ≠ .endOfText := by
  intro t ht
  refine Cursor.kind_ne_of_mem_outcomes (c := Cursor.ofText text) ?_
  rw [h]
  exact List.mem_append_left _ (List.mem_map_of_mem ht)

/-- A fault of a text is its first faulty lexeme or its first refused token, and what comes before
begins a sentence. -/
theorem parse_error_cases {f : Fault} (h : Source.parse text = .error f) :
    (∃ ts e, f = .lexical e ∧ Delivers text ts (.error e) ∧ Viable (ts.map Token.kind)) ∨
      ∃ ts t k, f = .grammar (.refused k t) ∧ Refuses text ts t := by
  rcases Stage.reach?_cases .item (Cursor.ofText text).outcomes with
    ⟨ts, s, hout, hs⟩ | ⟨ts, s, e, rest, hout, hs⟩ | ⟨ts, s, t, rest, hout, hs, hm⟩
  · have hend := kind_ne_of_outcomes (hout.trans (List.append_nil _).symm)
    have hne : s ≠ .item := by
      rintro rfl
      obtain ⟨is, hok⟩ :=
        (Stage.exists_parse_ok_iff (Cursor.ofText text).endToken .item ts).mpr hs
      rw [parse_eq_error_iff, hout, hok] at h
      cases h
    have hbad : Refuses text ts (Cursor.ofText text).endToken := by
      refine ⟨⟨(Cursor.nexts_eq_iff hend _).mpr (.inr ⟨hout, rfl⟩), hend⟩,
        Stage.viable_of_reach? hs, ?_⟩
      rw [Stage.viable_snoc_iff hs, Stage.move?_endOfText s rfl]
      simp [hne]
    obtain ⟨k, hk⟩ := parse_of_refuses hbad
    exact .inr ⟨ts, _, k, Except.error.inj (h.symm.trans hk), hbad⟩
  · have hend := kind_ne_of_outcomes hout
    have hdel : Delivers text ts (.error e) :=
      ⟨(Cursor.nexts_eq_iff hend _).mpr (.inl ⟨rest, hout⟩), hend⟩
    have hv := Stage.viable_of_reach? hs
    exact .inl ⟨ts, e, Except.error.inj (h.symm.trans (parse_of_delivers hdel hv)), hdel, hv⟩
  · have hend := kind_ne_of_outcomes hout
    have ht : t.kind ≠ .endOfText :=
      Cursor.kind_ne_of_mem_outcomes (c := Cursor.ofText text) (by simp [hout])
    have hbad : Refuses text ts t := by
      refine ⟨⟨(Cursor.nexts_eq_iff hend _).mpr (.inl ⟨rest, hout⟩), hend⟩,
        Stage.viable_of_reach? hs, ?_⟩
      rw [Stage.viable_snoc_iff hs]
      simp [hm, ht]
    obtain ⟨k, hk⟩ := parse_of_refuses hbad
    exact .inr ⟨ts, t, k, Except.error.inj (h.symm.trans hk), hbad⟩

end Texts

/-- **The first thing that cannot go on.**  The fault of a text is a faulty lexeme exactly if the
tokens before it begin a sentence, and a refused token exactly if there is a token, perhaps the end,
with which the kinds cease to begin one; this is the token that is reported, whatever follows it. -/
theorem parse_viable (text : String) :
    (∀ e, Source.parse text = .error (.lexical e) ↔
      ∃ ts, Delivers text ts (.error e) ∧ Viable (ts.map Token.kind)) ∧
    ((∃ f, Source.parse text = .error (.grammar f)) ↔ ∃ ts t, Refuses text ts t) ∧
    ∀ f ts t, Source.parse text = .error (.grammar f) → Refuses text ts t →
      f.found = t.kind ∧ f.text = t.text ∧ f.pos = t.pos := by
  refine ⟨fun e => ⟨fun h => ?_, ?_⟩, ⟨?_, ?_⟩, fun f ts t h hbad => ?_⟩
  · rcases parse_error_cases h with ⟨ts, e', he, hdel, hv⟩ | ⟨ts, t, k, he, -⟩
    · obtain rfl := Fault.lexical.inj he
      exact ⟨ts, hdel, hv⟩
    · cases he
  · rintro ⟨ts, hdel, hv⟩
    exact parse_of_delivers hdel hv
  · rintro ⟨f, h⟩
    rcases parse_error_cases h with ⟨ts, e, he, -⟩ | ⟨ts, t, k, -, hbad⟩
    · cases he
    · exact ⟨ts, t, hbad⟩
  · rintro ⟨ts, t, hbad⟩
    obtain ⟨k, hk⟩ := parse_of_refuses hbad
    exact ⟨_, hk⟩
  · obtain ⟨k, hk⟩ := parse_of_refuses hbad
    obtain rfl := Fault.grammar.inj (Except.error.inj (h.symm.trans hk))
    exact ⟨rfl, rfl, rfl⟩

/-- In `a + @` the sign is reported, although a character behind it is none of the language; in
`int a @` it is the character. -/
theorem parse_viable_broken :
    Refuses "a + @" [⟨.name, ⟨1, 1⟩, some "a"⟩] ⟨.plus, ⟨1, 3⟩, none⟩ ∧
    (∃ f, Source.parse "a + @" = .error (.grammar f) ∧ f.found = .plus ∧ f.text = "PLUS" ∧
      f.pos = ⟨1, 3⟩) ∧
    Source.parse "int a @" = .error (.lexical (.illegalCharacter '@' ⟨1, 7⟩)) := by
  have hbad : Refuses "a + @" [⟨.name, ⟨1, 1⟩, some "a"⟩] ⟨.plus, ⟨1, 3⟩, none⟩ := by
    refine ⟨⟨by decide +kernel, by decide⟩,
      ⟨[.assign, .integer, .semicolon, .endOfText], by decide⟩, ?_⟩
    rw [Stage.viable_snoc_iff (s := .target { name := "a", pos := ⟨1, 1⟩ }) rfl]
    decide
  obtain ⟨-, hrefused, hfields⟩ := parse_viable "a + @"
  obtain ⟨f, hf⟩ := hrefused.mpr ⟨_, _, hbad⟩
  refine ⟨hbad, ⟨f, hf, hfields f _ _ hf hbad⟩, ((parse_viable "int a @").1 _).mpr ?_⟩
  exact ⟨[⟨.intType, ⟨1, 1⟩, none⟩, ⟨.name, ⟨1, 5⟩, some "a"⟩], ⟨by decide +kernel, by decide⟩,
    [.semicolon, .endOfText], by decide⟩

end DeskCalc
