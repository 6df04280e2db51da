import DeskCalc.Proofs.Viability

/-!
# Reading with look-ahead

A reader is asked for the next token, for a look at it, or for all tokens up to the end, in any
order.  Each demand takes something off the stream of the text, perhaps nothing, and leaves the rest
to the demands behind it.  So the outcomes taken so far, and those that repeated scanning delivers
from there on, are together what repeated scanning delivers from the beginning (`nexts_taken`).  One
step of this is a fact about any reader, whatever it has read and holds (`Demand.nexts_taken`).

The stream itself comes from the text (`Cuts`): the text is blanks and lexemes in turn, also where a
lexeme is none of the language, and scanning delivers one outcome for each lexeme and then the end.

* `Reader.drain`            the next token again and again, up to the end or a fault; this is what
                            the demand for all tokens does (`all_eq_drain`);
* `Reader.Demand`           `Demand.taken` what a demand takes off the stream, `Demand.out` the
                            reader behind it, `Demand.fault?` the fault it reports;
* `Reader.taken`, `Reader.after`   the same for a row of demands;
* `readings`                the outcomes of a row of pieces, each at its place.
-/

namespace DeskCalc

/-! ## Lexemes in a row, faulty ones among them -/

/-- the gaps and the tail are blanks, and every lexeme stands before what follows it -/
def Cuts : List Piece → List Char → Prop
  | [], tail => ∀ c ∈ tail, isBlank c = true
  | p :: ps, tail =>
    (∀ c ∈ p.gap, isBlank c = true) ∧ p.lexeme.Stands (joined ps ++ tail) ∧ Cuts ps tail

/-- the outcomes of a row of pieces behind the text `before` -/
def readings : List Char → List Piece → List Outcome
  | _, [] => []
  | before, p :: ps =>
    p.lexeme.read (Position.behind (before ++ p.gap)) :: readings (before ++ p.chars) ps

theorem kind_ne_of_mem_readings {before : List Char} {ps : List Piece} {t : Token}
    (h : .ok t ∈ readings before ps) : t.kind ≠ .endOfText := by
  induction ps generalizing before with
  | nil => cases h
  | cons p ps ih =>
    rcases List.mem_cons.mp h with h | h
    · exact Lexeme.kind_ne_of_read h.symm
    · exact ih h

theorem Lexeme.length_pos_of_stands {l : Lexeme} {rest : List Char} (h : l.Stands rest) :
    0 < l.chars.length :=
  List.length_pos_iff.mpr (chars_ne_nil_of_munch (munch_of_stands h))

theorem length_le_of_cuts {ps : List Piece} {tail : List Char} (h : Cuts ps tail) :
    ps.length ≤ (joined ps ++ tail).length := by
  induction ps with
  | nil => simp
  | cons p ps ih =>
    obtain ⟨-, hl, hps⟩ := h
    have hpos := Lexeme.length_pos_of_stands hl
    have hrest := ih hps
    rw [joined_cons_append]
    simp only [List.length_cons, List.length_append] at hrest ⊢
    omega

theorem exists_cuts (text : List Char) : ∃ ps tail, text = joined ps ++ tail ∧ Cuts ps tail := by
  induction hn : text.length using Nat.strongRecOn generalizing text with
  | ind n ih =>
    subst hn
    cases hadv : Cursor.advance? ⟨text, .start⟩ with
    | none => exact ⟨[], text, rfl, Cursor.blank_of_advance?_eq_none hadv⟩
    | some od =>
      obtain ⟨o, d⟩ := od
      obtain ⟨gap, l, hg, htext, hl, -, -⟩ := Cursor.advance?_inv hadv
      obtain ⟨ps, tail, e, hps⟩ := ih _ (Cursor.length_lt_of_advance? hadv) d.rest rfl
      refine ⟨⟨gap, l⟩ :: ps, tail, ?_, hg, e ▸ hl, hps⟩
      rw [joined_cons_append, ← e]
      exact htext

namespace Reader

/-! ## All tokens, one by one -/

def weight (s : Reader) : Nat := s.cursor.rest.length + s.held.toList.length

theorem next_of_held {s : Reader} {t : Token} (h : s.held = some t) :
    s.next = (.ok t, ⟨s.cursor, none⟩) := by
  unfold next
  rw [h]

theorem next_of_advance? {c d : Cursor} {o : Outcome} (h : c.advance? = some (o, d)) :
    (Reader.mk c none).next = (o, ⟨d, none⟩) := by
  show ((c.advance?.getD _).1, Reader.mk (c.advance?.getD _).2 none) = _
  rw [h]
  rfl

theorem next_of_end {c : Cursor} (h : c.advance? = none) :
    (Reader.mk c none).next = (.ok c.endToken, ⟨c.skipBlanks, none⟩) := by
  show ((c.advance?.getD _).1, Reader.mk (c.advance?.getD _).2 none) = _
  rw [h]
  rfl

theorem weight_lt_of_next {s s' : Reader} {t : Token} (h : s.next = (.ok t, s'))
    (hk : t.kind ≠ .endOfText) : s'.weight < s.weight := by
  obtain ⟨c, held⟩ := s
  cases held with
  | some u =>
    obtain ⟨-, rfl⟩ := Prod.mk.inj (next_of_held (s := ⟨c, some u⟩) rfl ▸ h)
    simp [weight]
  | none =>
    cases hadv : c.advance? with
    | none =>
      rw [next_of_end hadv] at h
      obtain ⟨ht, -⟩ := Prod.mk.inj h
      obtain rfl := Except.ok.inj ht
      exact absurd rfl hk
    | some od =>
      obtain ⟨o, d⟩ := od
      rw [next_of_advance? hadv] at h
      obtain ⟨-, rfl⟩ := Prod.mk.inj h
      have hlt := Cursor.length_lt_of_advance? hadv
      simp only [weight]
      omega

/-- read one token after the other, up to the end token or a fault -/
def drain (s : Reader) : List Outcome × Reader :=
  match _h : s.next with
  | (.error f, s') => ([.error f], s')
  | (.ok t, s') =>
    if _hk : t.kind = .endOfText then ([.ok t], s') else (.ok t :: s'.drain.1, s'.drain.2)
termination_by s.weight
decreasing_by all_goals exact weight_lt_of_next _h _hk

theorem drain_of_fault {s s' : Reader} {f : LexicalFault} (h : s.next = (.error f, s')) :
    s.drain = ([.error f], s') := by
  rw [drain]; split <;> simp_all

theorem drain_of_end {s s' : Reader} {t : Token} (h : s.next = (.ok t, s'))
    (hk : t.kind = .endOfText) : s.drain = ([.ok t], s') := by
  rw [drain]; split <;> simp_all

theorem drain_of_token {s s' : Reader} {t : Token} (h : s.next = (.ok t, s'))
    (hk : t.kind ≠ .endOfText) : s.drain = (.ok t :: s'.drain.1, s'.drain.2) := by
  rw [drain]; split <;> simp_all

theorem mapM_ok_cons (t : Token) (os : List Outcome) :
    (Except.ok t :: os).mapM (id : Outcome → Outcome) = (os.mapM id).map (t :: ·) := by
  rw [List.mapM_cons]
  show (os.mapM id).bind (fun ts => .ok (t :: ts)) = _
  cases os.mapM (id : Outcome → Outcome) <;> rfl

theorem cursor_all_eq_drain (c : Cursor) :
    (Reader.mk c none).all =
      ((Reader.mk c none).drain.1.mapM id, (Reader.mk c none).drain.2) := by
  induction hn : c.rest.length using Nat.strongRecOn generalizing c with
  | ind n ih =>
    subst hn
    show (c.all.1, Reader.mk c.all.2 none) = _
    cases hadv : c.advance? with
    | none =>
      rw [drain_of_end (next_of_end hadv) rfl, Cursor.all_of_end hadv]
      rfl
    | some od =>
      obtain ⟨o, d⟩ := od
      have hnext := next_of_advance? hadv
      cases o with
      | error f =>
        rw [drain_of_fault hnext, Cursor.all_of_fault hadv]
        rfl
      | ok t =>
        have hk : t.kind ≠ .endOfText := by
          obtain ⟨gap, l, -, -, -, hread, -⟩ := Cursor.advance?_inv hadv
          exact Lexeme.kind_ne_of_read hread.symm
        have hd : (d.all.1, Reader.mk d.all.2 none) = _ :=
          ih _ (Cursor.length_lt_of_advance? hadv) d rfl
        obtain ⟨hfst, hsnd⟩ := Prod.mk.inj hd
        rw [drain_of_token hnext hk, Cursor.all_of_token hadv, mapM_ok_cons, ← hfst, ← hsnd]

/-- **All tokens are the next ones in turn.** -/
theorem all_eq_drain (s : Reader) : s.all = (s.drain.1.mapM id, s.drain.2) := by
  obtain ⟨c, held⟩ := s
  cases held with
  | none => exact cursor_all_eq_drain c
  | some t =>
    have hnext : (Reader.mk c (some t)).next = (.ok t, ⟨c, none⟩) := rfl
    by_cases hk : t.kind = .endOfText
    · rw [drain_of_end hnext hk]
      exact if_pos hk
    · have hc := cursor_all_eq_drain c
      obtain ⟨hfst, hsnd⟩ := Prod.mk.inj hc
      rw [drain_of_token hnext hk, mapM_ok_cons, ← hfst, ← hsnd]
      exact if_neg hk

/-- Draining passes tokens and ends with a fault or with the end. -/
theorem drain_cases (s : Reader) :
    (∃ (us : List Token) (f : LexicalFault), s.drain.1 = us.map .ok ++ [.error f] ∧
      s.drain.1.mapM id = .error f) ∨
    ∃ us : List Token, s.drain.1 = us.map .ok ∧ s.drain.1.mapM id = .ok us := by
  induction s using drain.induct with
  | case1 s f s' hnext =>
    rw [drain_of_fault hnext]
    exact .inl ⟨[], f, rfl, rfl⟩
  | case2 s t s' hnext hk =>
    rw [drain_of_end hnext hk]
    exact .inr ⟨[t], rfl, rfl⟩
  | case3 s t s' hnext hk ih =>
    rw [drain_of_token hnext hk, mapM_ok_cons]
    rcases ih with ⟨us, f, hus, hf⟩ | ⟨us, hus, hok⟩
    · exact .inl ⟨t :: us, f, by rw [hus]; rfl, by rw [hf]; rfl⟩
    · exact .inr ⟨t :: us, by rw [hus]; rfl, by rw [hok]; rfl⟩

theorem nexts_succ_of_next {s s' : Reader} {o : Outcome} (h : s.next = (o, s')) (k : Nat) :
    s.nexts (k + 1) = o :: s'.nexts k := by
  rw [nexts, h]

theorem nexts_drain (s : Reader) (k : Nat) :
    s.nexts (s.drain.1.length + k) = s.drain.1 ++ s.drain.2.nexts k := by
  induction s using drain.induct with
  | case1 s f s' hnext =>
    rw [drain_of_fault hnext]
    show s.nexts (1 + k) = _
    rw [Nat.add_comm, nexts_succ_of_next hnext]
    rfl
  | case2 s t s' hnext hk =>
    rw [drain_of_end hnext hk]
    show s.nexts (1 + k) = _
    rw [Nat.add_comm, nexts_succ_of_next hnext]
    rfl
  | case3 s t s' hnext hk ih =>
    rw [drain_of_token hnext hk]
    show s.nexts (s'.drain.1.length + 1 + k) = _
    rw [Nat.add_right_comm, nexts_succ_of_next hnext, ih]
    rfl

/-! ## Demands -/

inductive Demand
  | next
  | peek
  | all

def faultOf {α : Type} : Except LexicalFault α → Option LexicalFault
  | .error f => some f
  | .ok _ => none

namespace Demand

def out (s : Reader) : Demand → Reader
  | next => s.next.2
  | peek => s.peek.2
  | all => s.all.2

def fault? (s : Reader) : Demand → Option LexicalFault
  | next => faultOf s.next.1
  | peek => faultOf s.peek.1
  | all => faultOf s.all.1

/-- what the demand takes off the stream: what `next` delivers, once or again and again, and of a
look ahead the fault, if it meets one -/
def taken (s : Reader) : Demand → List Outcome
  | next => [s.next.1]
  | peek => (faultOf s.peek.1).toList.map .error
  | all => s.drain.1

end Demand

theorem peek_of_token {s : Reader} {t : Token} (h : s.peek.1 = .ok t) :
    s.peek.2.held = some t ∧ s.peek.2.next = s.next := by
  obtain ⟨c, held⟩ := s
  cases held with
  | some u =>
    obtain rfl : u = t := Except.ok.inj h
    exact ⟨rfl, rfl⟩
  | none =>
    have hscan : c.scan.1 = .ok t := h
    have hheld : (Reader.mk c none).peek.2.held = some t := by
      show c.scan.1.toOption = some t
      rw [hscan]
      rfl
    refine ⟨hheld, ?_⟩
    rw [next_of_held hheld, ← hscan]
    rfl

theorem peek_of_fault {s : Reader} {f : LexicalFault} (h : s.peek.1 = .error f) :
    s.next = (.error f, s.peek.2) := by
  obtain ⟨c, held⟩ := s
  cases held with
  | some u => cases h
  | none =>
    have hscan : c.scan.1 = .error f := h
    have hpeek : (Reader.mk c none).peek.2 = ⟨c.scan.2, none⟩ := by
      show Reader.mk c.scan.2 c.scan.1.toOption = _
      rw [hscan]
      rfl
    rw [hpeek, ← hscan]
    rfl

/-- **One demand.**  What it takes and what is left to come are the stream before it. -/
theorem Demand.nexts_taken (s : Reader) (d : Demand) (k : Nat) :
    s.nexts ((d.taken s).length + k) = d.taken s ++ (d.out s).nexts k := by
  cases d with
  | next =>
    show s.nexts (1 + k) = _
    rw [Nat.add_comm]
    rfl
  | peek =>
    cases h : s.peek.1 with
    | ok t =>
      have hnone : peek.taken s = [] := by simp [taken, faultOf, h]
      rw [hnone]
      show s.nexts (0 + k) = s.peek.2.nexts k
      rw [Nat.zero_add]
      cases k with
      | zero => rfl
      | succ k => rw [nexts, nexts, (peek_of_token h).2]
    | error f =>
      have hone : peek.taken s = [.error f] := by simp [taken, faultOf, h]
      rw [hone]
      show s.nexts (1 + k) = .error f :: s.peek.2.nexts k
      rw [Nat.add_comm, nexts_succ_of_next (peek_of_fault h)]
  | all =>
    show s.nexts (s.drain.1.length + k) = s.drain.1 ++ s.all.2.nexts k
    rw [nexts_drain, all_eq_drain]

/-- A demand that reports a fault has taken it off the stream, behind nothing but tokens, and one that
reports none has taken nothing but tokens. -/
theorem Demand.taken_of_fault? (s : Reader) (d : Demand) :
    ∃ us : List Token, d.taken s = us.map .ok ++ (d.fault? s).toList.map .error := by
  cases d with
  | next =>
    cases h : s.next.1 with
    | ok t => exact ⟨[t], by simp [taken, fault?, faultOf, h]⟩
    | error f => exact ⟨[], by simp [taken, fault?, faultOf, h]⟩
  | peek => exact ⟨[], rfl⟩
  | all =>
    show ∃ us : List Token, s.drain.1 = us.map .ok ++ (faultOf s.all.1).toList.map .error
    rw [all_eq_drain]
    rcases drain_cases s with ⟨us, f, hus, hf⟩ | ⟨us, hus, hok⟩
    · exact ⟨us, by rw [hf, hus]; rfl⟩
    · exact ⟨us, by rw [hok, hus]; exact (List.append_nil _).symm⟩

/-! ## Rows of demands -/

def after (s : Reader) (ds : List Demand) : Reader := ds.foldl Demand.out s

def taken : Reader → List Demand → List Outcome
  | _, [] => []
  | s, d :: ds => d.taken s ++ (d.out s).taken ds

theorem after_append (s : Reader) (ds es : List Demand) :
    s.after (ds ++ es) = (s.after ds).after es := List.foldl_append

/-- **Nothing twice and nothing left out.** -/
theorem nexts_taken (s : Reader) (ds : List Demand) (k : Nat) :
    s.nexts ((s.taken ds).length + k) = s.taken ds ++ (s.after ds).nexts k := by
  induction ds generalizing s with
  | nil =>
    show s.nexts (0 + k) = _
    rw [Nat.zero_add]
    rfl
  | cons d ds ih =>
    rw [taken, List.length_append, Nat.add_assoc, Demand.nexts_taken, ih, List.append_assoc]
    rfl

theorem after_peeks {s : Reader} {t : Token} (h : s.held = some t) (k : Nat) :
    s.after (List.replicate k .peek) = s := by
  induction k with
  | zero => rfl
  | succ k ih =>
    have hpeek : s.peek.2 = s := by
      unfold peek
      rw [h]
    show (s.peek.2).after (List.replicate k .peek) = s
    rw [hpeek, ih]

/-- What a look ahead finds stays in front until it is read. -/
theorem peek_after_peeks {s : Reader} {t : Token} (h : s.peek.1 = .ok t) (k : Nat) :
    (s.after (List.replicate (k + 1) .peek)).peek.1 = .ok t ∧
      (s.after (List.replicate (k + 1) .peek)).next.1 = .ok t := by
  have hheld := (peek_of_token h).1
  have hafter : s.after (List.replicate (k + 1) .peek) = s.peek.2 := after_peeks hheld k
  rw [hafter, next_of_held hheld]
  refine ⟨?_, rfl⟩
  unfold peek at hheld ⊢
  rw [hheld]

/-! ## The stream of a text -/

theorem next_of_cuts {p : Piece} {ps : List Piece} {tail : List Char} (h : Cuts (p :: ps) tail)
    (before : List Char) :
    (Reader.mk ⟨joined (p :: ps) ++ tail, Position.behind before⟩ none).next =
      (p.lexeme.read (Position.behind (before ++ p.gap)),
        ⟨⟨joined ps ++ tail, Position.behind (before ++ p.chars)⟩, none⟩) := by
  obtain ⟨hg, hl, -⟩ := h
  have hadv := Cursor.advance?_of_stands (Position.behind before) hg hl
  rw [joined_cons_append, next_of_advance? hadv]
  simp only [← Position.past_start, ← Position.past_append, Piece.chars, List.append_assoc]

theorem nexts_of_blank {tail : List Char} (h : ∀ c ∈ tail, isBlank c = true) (q : Position)
    (n : Nat) :
    (Reader.mk ⟨tail, q⟩ none).nexts n =
      List.replicate n (.ok (Token.endAt (q.past tail))) := by
  induction n generalizing tail q with
  | zero => rfl
  | succ n ih =>
    have hskip : Cursor.skipBlanks ⟨tail, q⟩ = ⟨[], q.past tail⟩ := by
      have htake : tail.takeWhile isBlank = tail := List.takeWhile_eq_self_iff.mpr h
      have hdrop : tail.dropWhile isBlank = [] := List.dropWhile_eq_nil_iff.mpr h
      rw [Cursor.skipBlanks, htake, hdrop]
    have hrest := ih (List.forall_mem_nil _) (q.past tail)
    rw [nexts_succ_of_next (next_of_end (Cursor.advance?_of_blank q h)), hskip, hrest]
    rfl

theorem nexts_of_cuts {ps : List Piece} {tail : List Char} (h : Cuts ps tail) (before : List Char)
    (n : Nat) :
    (Reader.mk ⟨joined ps ++ tail, Position.behind before⟩ none).nexts (ps.length + n) =
      readings before ps ++
        List.replicate n (.ok (Token.endAt (Position.behind (before ++ (joined ps ++ tail))))) := by
  induction ps generalizing before with
  | nil =>
    show (Reader.mk ⟨tail, Position.behind before⟩ none).nexts (0 + n) = List.replicate n _
    rw [Nat.zero_add, nexts_of_blank h, ← Position.past_start, ← Position.past_append,
      Position.past_start]
    rfl
  | cons p ps ih =>
    have hplace : before ++ p.chars ++ (joined ps ++ tail) =
        before ++ (joined (p :: ps) ++ tail) := by
      rw [joined_cons_append, List.append_assoc, Piece.chars, List.append_assoc]
    rw [List.length_cons, Nat.add_right_comm, nexts_succ_of_next (next_of_cuts h before),
      ih h.2.2, hplace]
    rfl

/-- Scanning goes on right behind a lexeme, a faulty one or not. -/
theorem after_of_cuts {qs ps : List Piece} {tail : List Char} (h : Cuts (qs ++ ps) tail)
    (before : List Char) :
    (Reader.mk ⟨joined (qs ++ ps) ++ tail, Position.behind before⟩ none).after
        (List.replicate qs.length .next) =
      ⟨⟨joined ps ++ tail, Position.behind (before ++ joined qs)⟩, none⟩ := by
  induction qs generalizing before with
  | nil =>
    show Reader.mk _ none = _
    simp [joined]
  | cons q qs ih =>
    rw [List.cons_append] at h ⊢
    show (Reader.mk ⟨joined (q :: (qs ++ ps)) ++ tail, Position.behind before⟩ none).next.2.after
      (List.replicate qs.length .next) = _
    rw [next_of_cuts h before]
    have hrest := ih h.2.2 (before ++ q.chars)
    rw [hrest, List.append_assoc]
    rfl

/-- **The stream is read once.**  The text is blanks and lexemes in turn; scanning delivers one
outcome for each lexeme, at most as many as there are characters, then the end token for ever, and
goes on right behind a lexeme also where it is a fault.  Whatever is demanded of a reader in whatever
order, the outcomes taken are the front of this stream, and what is left is the rest of it.  A token
that is looked at is what the next looks and the next reading find; a fault that is reported is the
last outcome that its demand takes, behind tokens alone; and all tokens are the next ones in turn. -/
theorem stream_read_once (text : String) :
    (∃ ps tail, text.toList = joined ps ++ tail ∧ Cuts ps tail ∧ ps.length ≤ text.length ∧
      (∀ t, .ok t ∈ readings [] ps → t.kind ≠ .endOfText) ∧
      (∀ n, (ofText text).nexts (ps.length + n) = readings [] ps ++
        List.replicate n (.ok (Token.endAt (Position.behind text.toList)))) ∧
      ∀ qs p rs, ps = qs ++ p :: rs →
        (ofText text).after (List.replicate (qs.length + 1) .next) =
          ⟨⟨joined rs ++ tail, Position.behind (joined (qs ++ [p]))⟩, none⟩) ∧
    ∀ ds : List Demand,
      (∀ k, (ofText text).nexts (((ofText text).taken ds).length + k) =
        (ofText text).taken ds ++ ((ofText text).after ds).nexts k) ∧
      (∀ t, ((ofText text).after ds).peek.1 = .ok t → ∀ k,
        ((ofText text).after (ds ++ List.replicate (k + 1) .peek)).peek.1 = .ok t ∧
        ((ofText text).after (ds ++ List.replicate (k + 1) .peek)).next.1 = .ok t) ∧
      (∀ d : Demand, ∃ us : List Token, d.taken ((ofText text).after ds) =
        us.map .ok ++ (d.fault? ((ofText text).after ds)).toList.map .error) ∧
      ((ofText text).after ds).all =
        (((ofText text).after ds).drain.1.mapM id, ((ofText text).after ds).drain.2) := by
  constructor
  · obtain ⟨ps, tail, htext, hcuts⟩ := exists_cuts text.toList
    have hstart : ofText text = ⟨⟨joined ps ++ tail, Position.behind []⟩, none⟩ := by
      rw [← htext]
      rfl
    refine ⟨ps, tail, htext, hcuts, ?_, fun t => kind_ne_of_mem_readings, ?_, ?_⟩
    · have hle := length_le_of_cuts hcuts
      rwa [← htext, String.length_toList] at hle
    · intro n
      rw [hstart, nexts_of_cuts hcuts, htext]
      rfl
    · rintro qs p rs rfl
      have happ : qs ++ p :: rs = (qs ++ [p]) ++ rs := by simp
      rw [happ] at hstart hcuts
      have hafter := after_of_cuts hcuts []
      rw [List.length_append] at hafter
      rw [hstart]
      exact hafter
  · intro ds
    refine ⟨nexts_taken _ ds, fun t h k => ?_, fun d => d.taken_of_fault? _, all_eq_drain _⟩
    rw [after_append]
    exact peek_after_peeks h k

/-- Looks at a name, then all tokens up to a bad character, a look at a bad number, and the end. -/
theorem stream_read_once_faults :
    (ofText "a@ 1.").nexts 4 =
        [.ok ⟨.name, ⟨1, 1⟩, some "a"⟩, .error (.illegalCharacter '@' ⟨1, 2⟩),
          .error (.malformedDecimal "1." 0 ⟨1, 4⟩), .ok (.endAt ⟨1, 6⟩)] ∧
      ((ofText "a@ 1.").after [.peek, .peek]).next.1 = .ok ⟨.name, ⟨1, 1⟩, some "a"⟩ := by
  obtain ⟨-, hcalls⟩ := stream_read_once "a@ 1."
  obtain ⟨htaken, -⟩ := hcalls [.peek, .peek, .all, .peek, .next]
  obtain ⟨-, hpeek, -⟩ := hcalls []
  have hlist : (ofText "a@ 1.").taken [.peek, .peek, .all, .peek, .next] =
      [.ok ⟨.name, ⟨1, 1⟩, some "a"⟩, .error (.illegalCharacter '@' ⟨1, 2⟩),
        .error (.malformedDecimal "1." 0 ⟨1, 4⟩), .ok (.endAt ⟨1, 6⟩)] := by decide +kernel
  have hfront := htaken 0
  rw [hlist] at hfront
  exact ⟨hfront, (hpeek _ (by decide +kernel) 1).2⟩

end Reader
end DeskCalc
