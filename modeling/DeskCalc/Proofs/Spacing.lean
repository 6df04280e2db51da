import DeskCalc.Proofs.Relocation
import DeskCalc.Proofs.RoundTrip
import Mathlib.Logic.Relation

/-!
# Blanks do not matter

Blanks may be put into a text wherever no lexeme is torn apart, and a run of blanks may be exchanged
for another one.  The text is then split into the same lexemes, with other gaps between them: a
lexeme that was a token before what followed it is one before a blank, and before any text that
begins with the same character (`Lexeme.Valid.of_resembles`).  So its tokens are the same but for
their places, and of those nothing depends but the places that are reported.

* `Seam`                         a place in a text where no lexeme is torn apart;
* `Respacing`                    one edit of the blanks of a text;
* `exists_split_of_respacings`   the same lexemes behind any number of edits;
* `compile_respaced`             what follows for tokens, code and faults.
-/

namespace DeskCalc

/-! ## Edits -/

/-- the place between `before` and `after` is in no lexeme of the text that they make up: before it
stand some of the pieces of the text, or none or all of them, and blanks -/
def Seam (before after : List Char) : Prop :=
  ∃ ps qs tail gap, Split (before ++ after) (ps ++ qs) tail ∧ before = joined ps ++ gap ∧
    ∀ c ∈ gap, isBlank c = true

/-- blanks put in at a seam, and blanks in the place of others -/
inductive Respacing : List Char → List Char → Prop
  | insert {before run after : List Char} (h : Seam before after)
    (hr : ∀ c ∈ run, isBlank c = true) : Respacing (before ++ after) (before ++ (run ++ after))
  | replace {before run run' after : List Char} (hr : ∀ c ∈ run, isBlank c = true)
    (hr' : ∀ c ∈ run', isBlank c = true) (hne : run ≠ []) (hne' : run' ≠ []) :
    Respacing (before ++ (run ++ after)) (before ++ (run' ++ after))

/-! ## Lexemes before another text -/

/-- `rest'` is no more than `rest` to a lexeme before it: it begins alike, or with a blank, or is
empty -/
def Resembles (rest rest' : List Char) : Prop := rest'.head? = rest.head? ∨ Parted rest'

theorem Resembles.append_left {rest rest' : List Char} (h : Resembles rest rest')
    (w : List Char) : Resembles (w ++ rest) (w ++ rest') := by
  cases w with
  | nil => exact h
  | cons c cs => exact .inl rfl

theorem Resembles.stops {k : Char → Bool} {rest rest' : List Char} (h : Resembles rest rest')
    (hs : Stops k rest) (hk : Parted rest' → Stops k rest') : Stops k rest' := by
  rcases h with h | h
  · intro c hc
    rw [h] at hc
    exact hs c hc
  · exact hk h

theorem Lexeme.Valid.of_resembles {l : Lexeme} {rest rest' : List Char} (hv : l.Valid rest)
    (h : Resembles rest rest') : l.Valid rest' := by
  have hdigit : Stops isDigit rest → Stops isDigit rest' :=
    fun hs => h.stops hs fun hp => hp.stops.2.1
  cases l with
  | word letters => exact ⟨hv.1, hv.2.1, h.stops hv.2.2 fun hp => hp.stops.1⟩
  | whole digits =>
    refine ⟨hv.1, hv.2.1, hdigit hv.2.2.1, ?_⟩
    rcases h with h | h
    · rw [h]
      exact hv.2.2.2
    · exact h.stops.2.2
  | pointed digits fraction => exact ⟨hv.1, hv.2.1, hdigit hv.2.2.1, hv.2.2.2⟩
  | sign c => exact hv

theorem Reads.of_resembles {ps : List Piece} {rest rest' : List Char} (hr : Reads ps rest)
    (h : Resembles rest rest') : Reads ps rest' := by
  induction ps with
  | nil => trivial
  | cons p ps ih =>
    obtain ⟨hg, hv, hps⟩ := hr
    exact ⟨hg, hv.of_resembles (h.append_left (joined ps)), ih hps⟩

theorem joined_append (ps qs : List Piece) : joined (ps ++ qs) = joined ps ++ joined qs :=
  List.flatMap_append

theorem reads_append {ps qs : List Piece} {tail : List Char} :
    Reads (ps ++ qs) tail ↔ Reads ps (joined qs ++ tail) ∧ Reads qs tail := by
  induction ps with
  | nil => exact ⟨fun h => ⟨trivial, h⟩, fun h => h.2⟩
  | cons p ps ih =>
    show (_ ∧ p.lexeme.Valid (joined (ps ++ qs) ++ tail) ∧ Reads (ps ++ qs) tail) ↔
      (_ ∧ p.lexeme.Valid (joined ps ++ (joined qs ++ tail)) ∧ Reads ps (joined qs ++ tail)) ∧ _
    rw [ih, joined_append, List.append_assoc, and_assoc, and_assoc]

/-! ## Blanks in a row of pieces -/

theorem Lexeme.not_blank_of_mem {l : Lexeme} {rest : List Char} (h : l.Valid rest) :
    ∀ c ∈ l.chars, isBlank c = false := by
  cases l with
  | word letters => exact fun c hc => not_blank (.inl (h.2.1 c hc))
  | whole digits => exact fun c hc => not_blank (.inr (.inl (h.2.1 c hc)))
  | pointed digits fraction =>
    intro c hc
    rcases List.mem_append.mp hc with hc | hc
    · exact not_blank (.inr (.inl (h.1 c hc)))
    · rcases List.mem_cons.mp hc with rfl | hc
      · exact not_blank (.inr (.inr rfl))
      · exact not_blank (.inr (.inl (h.2.1 c hc)))
  | sign c => exact List.forall_mem_singleton.mpr (stands_of_valid h).1

theorem exists_gap {p : Piece} {w after rest : List Char} (hw : ∀ c ∈ w, isBlank c = true)
    (hv : p.lexeme.Valid rest) (e : p.gap ++ (p.lexeme.chars ++ rest) = w ++ after) :
    ∃ gap, p.gap = w ++ gap ∧ after = gap ++ (p.lexeme.chars ++ rest) := by
  rcases List.append_eq_append_iff.mp e with ⟨a, rfl, ha⟩ | ⟨gap, hgap, hafter⟩
  · cases a with
    | nil => exact ⟨[], by simp, by simpa using ha.symm⟩
    | cons d a =>
      have hblank : isBlank d = true := hw d (by simp)
      have hstop := Lexeme.stops_blank (Lexeme.stands_of_valid hv) d (by rw [ha]; rfl)
      rw [hblank] at hstop
      cases hstop
  · exact ⟨gap, hgap, hafter⟩

/-- Blanks in front of a row of pieces may be exchanged for others. -/
theorem exists_pieces_of_blank {qs : List Piece} {tail w w' after : List Char}
    (hr : Reads qs tail) (ht : ∀ c ∈ tail, isBlank c = true) (hw : ∀ c ∈ w, isBlank c = true)
    (hw' : ∀ c ∈ w', isBlank c = true) (e : joined qs ++ tail = w ++ after) :
    ∃ qs' tail', joined qs' ++ tail' = w' ++ after ∧ Reads qs' tail' ∧
      (∀ c ∈ tail', isBlank c = true) ∧ qs'.map Piece.lexeme = qs.map Piece.lexeme := by
  cases qs with
  | nil =>
    change tail = w ++ after at e
    subst e
    rw [List.forall_mem_append] at ht
    exact ⟨[], w' ++ after, rfl, trivial, List.forall_mem_append.mpr ⟨hw', ht.2⟩, rfl⟩
  | cons q qs =>
    obtain ⟨hg, hv, hqs⟩ := hr
    rw [joined_cons_append] at e
    obtain ⟨gap, hgap, rfl⟩ := exists_gap hw hv e
    rw [hgap, List.forall_mem_append] at hg
    refine ⟨⟨w' ++ gap, q.lexeme⟩ :: qs, tail, ?_,
      ⟨List.forall_mem_append.mpr ⟨hw', hg.2⟩, hv, hqs⟩, ht, rfl⟩
    rw [joined_cons_append, List.append_assoc]

/-- A blank is in no lexeme, so the place before it is a seam. -/
theorem exists_seam {ps : List Piece} {tail before after : List Char} {b : Char}
    (hr : Reads ps tail) (ht : ∀ c ∈ tail, isBlank c = true) (hb : isBlank b = true)
    (e : joined ps ++ tail = before ++ b :: after) :
    ∃ qs rs gap, ps = qs ++ rs ∧ before = joined qs ++ gap ∧ ∀ c ∈ gap, isBlank c = true := by
  induction ps generalizing before with
  | nil =>
    change tail = before ++ b :: after at e
    subst e
    exact ⟨[], [], before, rfl, rfl, (List.forall_mem_append.mp ht).1⟩
  | cons p ps ih =>
    obtain ⟨hg, hv, hps⟩ := hr
    have e' : p.chars ++ (joined ps ++ tail) = before ++ b :: after := by
      rw [← e, joined_cons_append, Piece.chars, List.append_assoc]
    rcases List.append_eq_append_iff.mp e' with ⟨behind, rfl, hrest⟩ | ⟨cs, hcs, hafter⟩
    · obtain ⟨qs, rs, gap, rfl, rfl, hgap⟩ := ih hps hrest
      refine ⟨p :: qs, rs, gap, rfl, ?_, hgap⟩
      rw [joined_cons_append, Piece.chars, List.append_assoc]
    · cases cs with
      | nil =>
        refine ⟨[p], ps, [], rfl, ?_, List.forall_mem_nil _⟩
        simpa [joined] using hcs.symm
      | cons d cs =>
        obtain ⟨rfl, -⟩ := List.cons.inj hafter
        rcases List.append_eq_append_iff.mp hcs with ⟨as, -, hchars⟩ | ⟨gap, hgap, -⟩
        · have hfalse := Lexeme.not_blank_of_mem hv b (by rw [hchars]; simp)
          rw [hb] at hfalse
          cases hfalse
        · rw [hgap, List.forall_mem_append] at hg
          exact ⟨[], p :: ps, before, rfl, rfl, hg.1⟩

theorem resembles_of_blank {run run' : List Char} (hr' : ∀ c ∈ run', isBlank c = true)
    (hne : run ≠ [] → run' ≠ []) (after : List Char) :
    Resembles (run ++ after) (run' ++ after) := by
  cases run' with
  | nil =>
    have hrun : run = [] := not_not.mp fun h => hne h rfl
    rw [hrun]
    exact .inl rfl
  | cons b run' =>
    refine .inr fun c hc => ?_
    obtain rfl := Option.some.inj hc
    exact hr' b List.mem_cons_self

/-- **At a seam** a run of blanks may be exchanged for another, if it is not taken away altogether:
the lexemes stay. -/
theorem exists_split_of_seam {before run run' after : List Char} (hseam : Seam before (run ++ after))
    (hr : ∀ c ∈ run, isBlank c = true) (hr' : ∀ c ∈ run', isBlank c = true)
    (hne : run ≠ [] → run' ≠ []) {ps : List Piece} {tail : List Char}
    (hs : Split (before ++ (run ++ after)) ps tail) :
    ∃ ps' tail', Split (before ++ (run' ++ after)) ps' tail' ∧
      ps'.map Piece.lexeme = ps.map Piece.lexeme := by
  obtain ⟨qs, rs, _, gap, hsplit, rfl, hgap⟩ := hseam
  obtain ⟨rfl, rfl⟩ := Split.unique hs hsplit
  obtain ⟨e, hreads, ht⟩ := hs
  obtain ⟨hqs, hrs⟩ := reads_append.mp hreads
  have erest : joined rs ++ tail = gap ++ (run ++ after) := by
    rw [joined_append, List.append_assoc, List.append_assoc] at e
    exact (List.append_cancel_left e).symm
  obtain ⟨rs', tail', erest', hrs', ht', hlex⟩ := exists_pieces_of_blank hrs ht
    (List.forall_mem_append.mpr ⟨hgap, hr⟩) (List.forall_mem_append.mpr ⟨hgap, hr'⟩)
    (erest.trans (List.append_assoc gap run after).symm)
  rw [List.append_assoc] at erest'
  have hqs' : Reads qs (joined rs' ++ tail') := by
    refine hqs.of_resembles ?_
    rw [erest, erest']
    exact (resembles_of_blank hr' hne after).append_left gap
  refine ⟨qs ++ rs', tail', ⟨?_, reads_append.mpr ⟨hqs', hrs'⟩, ht'⟩, ?_⟩
  · rw [joined_append, List.append_assoc, List.append_assoc, erest']
  · rw [List.map_append, List.map_append, hlex]

/-- **One edit** leaves the lexemes as they are. -/
theorem Respacing.exists_split {text text' : List Char} (h : Respacing text text')
    {ps : List Piece} {tail : List Char} (hs : Split text ps tail) :
    ∃ ps' tail', Split text' ps' tail' ∧ ps'.map Piece.lexeme = ps.map Piece.lexeme := by
  cases h with
  | @insert before run after hseam hr =>
    have hseam' : Seam before ([] ++ after) := hseam
    exact exists_split_of_seam hseam' (List.forall_mem_nil _) hr (fun h => absurd rfl h) hs
  | @replace before run run' after hr hr' hne hne' =>
    obtain ⟨b, run, rfl⟩ := List.exists_cons_of_ne_nil hne
    obtain ⟨qs, rs, gap, rfl, rfl, hgap⟩ :=
      exists_seam hs.reads hs.blank (hr b List.mem_cons_self) hs.text_eq.symm
    exact exists_split_of_seam ⟨qs, rs, tail, gap, hs, rfl, hgap⟩ hr hr' (fun _ => hne') hs

/-- **Any number of edits** leaves the lexemes as they are. -/
theorem exists_split_of_respacings {text text' : List Char}
    (h : Relation.ReflTransGen Respacing text text') {ps : List Piece} {tail : List Char}
    (hs : Split text ps tail) :
    ∃ ps' tail', Split text' ps' tail' ∧ ps'.map Piece.lexeme = ps.map Piece.lexeme := by
  induction h with
  | refl => exact ⟨ps, tail, hs, rfl⟩
  | tail _ hedit ih =>
    obtain ⟨qs, tail₁, hqs, hlex⟩ := ih
    obtain ⟨ps', tail', hs', hlex'⟩ := hedit.exists_split hqs
    exact ⟨ps', tail', hs', hlex'.trans hlex⟩

/-! ## Tokens -/

theorem Lexeme.Makes.unique {l : Lexeme} {rest : List Char} (hv : l.Valid rest)
    {k k' : Token.Kind} {v v' : Option String} (h : l.Makes k v) (h' : l.Makes k' v') :
    k = k' ∧ v = v' := by
  have e : Except.ok (Token.mk k .start v) = .ok (Token.mk k' .start v') :=
    (read_of_makes hv h .start).symm.trans (read_of_makes hv h' .start)
  obtain ⟨hk, -, hv⟩ := Token.mk.inj (Except.ok.inj e)
  exact ⟨hk, hv⟩

theorem words_of_tokensOf {tail tail' before before' : List Char} {ps ps' : List Piece}
    {ts ts' : List Token} (hr : Reads ps tail) (h : TokensOf tail before ps ts)
    (h' : TokensOf tail' before' ps' ts') (hlex : ps'.map Piece.lexeme = ps.map Piece.lexeme) :
    ts'.map Token.word = ts.map Token.word := by
  induction h generalizing before' ps' ts' with
  | done =>
    obtain rfl := List.map_eq_nil_iff.mp hlex
    cases h'
    rfl
  | @piece before p ps t ts hm _ _ ih =>
    obtain ⟨-, hv, hps⟩ := hr
    obtain ⟨p', ps', rfl, hp, hrest⟩ := List.map_eq_cons_iff.mp hlex
    cases h' with
    | @piece _ _ _ t' ts' hm' _ h' =>
      rw [hp] at hm'
      obtain ⟨hk, hvalue⟩ := hm.unique hv hm'
      rw [List.map_cons, List.map_cons, ih hps h' hrest, Token.word, Token.word, hk, hvalue]

theorem tokenize_respaced {text text' : String} {ts : List Token}
    (h : Source.tokenize text = .ok ts)
    (hr : Relation.ReflTransGen Respacing text.toList text'.toList) :
    ∃ ts', Source.tokenize text' = .ok ts' ∧ ts'.map Token.word = ts.map Token.word := by
  obtain ⟨ps, tail, hs, htokens⟩ := split_of_tokenize h
  obtain ⟨ps', tail', hs', hlex⟩ := exists_split_of_respacings hr hs
  obtain ⟨ts', htokens'⟩ := tokensOf_of_reads hs'.reads []
  exact ⟨ts', tokenize_of_split hs' htokens', words_of_tokensOf hs.reads htokens htokens' hlex⟩

/-! ## Trees and code -/

def nowhere : Position → Position := fun _ => .start

def Fault.unplaced (e : Fault) : Fault := e.moved nowhere

theorem map_moved_of_words {ts ts' : List Token} (h : ts'.map Token.word = ts.map Token.word) :
    ts'.map (·.moved nowhere) = ts.map (·.moved nowhere) := by
  have hmoved : ∀ us : List Token, us.map (·.moved nowhere) =
      (us.map Token.word).map fun w => ⟨w.1, .start, w.2⟩ := by
    intro us
    rw [List.map_map]
    rfl
  rw [hmoved, hmoved, h]

theorem parse_of_tokenize {text : String} {us : List Token} {last : Token}
    (h : Source.tokenize text = .ok (us ++ [last])) :
    Source.parse text =
      (Stage.parse last .item (us.map .ok)).1.map fun is => { items := is } := by
  obtain ⟨vs, hvs, e⟩ := tokenize_eq_ok_iff.mp h
  obtain ⟨rfl, hlast⟩ := List.append_inj' e rfl
  obtain rfl := List.singleton_inj.mp hlast
  rw [← hvs]
  rfl

theorem parse_moved_of_tokenize {text : String} {us : List Token} {last : Token}
    (h : Source.tokenize text = .ok (us ++ [last])) (f : Position → Position) :
    ((Source.parse text).map (·.moved f)).mapError (·.moved f) =
      (Stage.parse (last.moved f) .item ((us.map (·.moved f)).map .ok)).1.map
        fun is => { items := is } := by
  have houtcomes : (us.map (·.moved f)).map Except.ok = (us.map .ok).map (Outcome.moved · f) := by
    rw [List.map_map, List.map_map]
    rfl
  have hparse := Stage.parse_moved f last .item (us.map .ok)
  change (Stage.parse (last.moved f) .item _).1 = _ at hparse
  rw [parse_of_tokenize h, houtcomes, hparse]
  cases (Stage.parse last .item (us.map .ok)).1 <;> rfl

/-- Texts whose tokens are the same but for their places have the same program, or the same fault, but
for the places. -/
theorem parse_of_words {text text' : String} {ts ts' : List Token}
    (h : Source.tokenize text = .ok ts) (h' : Source.tokenize text' = .ok ts')
    (hw : ts'.map Token.word = ts.map Token.word) :
    ((Source.parse text').map (·.moved nowhere)).mapError (·.moved nowhere) =
      ((Source.parse text).map (·.moved nowhere)).mapError (·.moved nowhere) := by
  obtain ⟨us, -, rfl⟩ := tokenize_eq_ok_iff.mp h
  obtain ⟨us', -, rfl⟩ := tokenize_eq_ok_iff.mp h'
  have hmoved := map_moved_of_words hw
  rw [List.map_append, List.map_append] at hmoved
  obtain ⟨hus, hlast⟩ := List.append_inj' hmoved rfl
  replace hlast : (Stream.ofText text').last.moved nowhere =
      (Stream.ofText text).last.moved nowhere := List.singleton_inj.mp hlast
  rw [parse_moved_of_tokenize h, parse_moved_of_tokenize h', hus, hlast]

theorem compile_of_words {text text' : String} {ts ts' : List Token}
    (h : Source.tokenize text = .ok ts) (h' : Source.tokenize text' = .ok ts')
    (hw : ts'.map Token.word = ts.map Token.word) :
    (Source.compile text').mapError Fault.unplaced =
      (Source.compile text).mapError Fault.unplaced := by
  show (Source.compile text').mapError (·.moved nowhere) =
    (Source.compile text).mapError (·.moved nowhere)
  rw [source_compile_moved, source_compile_moved, parse_of_words h h' hw]

/-- **The layout of a text does not matter.**  Blanks put in between lexemes or at the ends, and
blanks exchanged for others, leave the kinds and the values of the tokens as they are.  The code is
the same, and where there is none the fault is the same but for its places. -/
theorem compile_respaced {text text' : String} {ts : List Token}
    (h : Source.tokenize text = .ok ts)
    (hr : Relation.ReflTransGen Respacing text.toList text'.toList) :
    (∃ ts', Source.tokenize text' = .ok ts' ∧ ts'.map Token.word = ts.map Token.word) ∧
    (∀ code, Source.compile text' = .ok code ↔ Source.compile text = .ok code) ∧
    ∀ f, Source.compile text = .error f →
      ∃ f', Source.compile text' = .error f' ∧ f'.unplaced = f.unplaced := by
  obtain ⟨ts', h', hw⟩ := tokenize_respaced h hr
  have hcompile := compile_of_words h h' hw
  refine ⟨⟨ts', h', hw⟩, ?_⟩
  cases hc : Source.compile text with
  | ok code =>
    cases hc' : Source.compile text' with
    | ok code' =>
      rw [hc, hc'] at hcompile
      obtain rfl : code' = code := Except.ok.inj hcompile
      exact ⟨fun _ => Iff.rfl, nofun⟩
    | error f' =>
      rw [hc, hc'] at hcompile
      cases hcompile
  | error f =>
    cases hc' : Source.compile text' with
    | ok code' =>
      rw [hc, hc'] at hcompile
      cases hcompile
    | error f' =>
      rw [hc, hc'] at hcompile
      refine ⟨fun _ => ⟨nofun, nofun⟩, fun g hg => ⟨f', rfl, ?_⟩⟩
      obtain rfl := Except.error.inj hg
      exact Except.error.inj hcompile

/-- A line feed between two numbers that stand side by side moves the fault of the second one, and
blanks in the place of a space leave the code as it is. -/
theorem compile_respaced_line :
    (∃ f, Source.compile "a=1.5\n.5;" = .error f ∧ f.unplaced = Fault.unplaced
      (.grammar (.refused (some .semicolon) ⟨.decimal, ⟨1, 6⟩, some ".5"⟩))) ∧
      Source.compile "int\t\na;print a;" = .ok "la p P" := by
  have hsplit : Split ("a=1.5".toList ++ ".5;".toList)
      ([⟨[], .word ['a']⟩, ⟨[], .sign '='⟩, ⟨[], .pointed ['1'] ['5']⟩] ++
        [⟨[], .pointed [] ['5']⟩, ⟨[], .sign ';'⟩]) [] := ⟨by decide, by decide, by decide⟩
  have hsplit' : Split ("int".toList ++ ([' '] ++ "a;print a;".toList))
      [⟨[], .word "int".toList⟩, ⟨[' '], .word ['a']⟩, ⟨[], .sign ';'⟩, ⟨[], .word "print".toList⟩,
        ⟨[' '], .word ['a']⟩, ⟨[], .sign ';'⟩] [] := ⟨by decide, by decide, by decide⟩
  have hinsert : Respacing ("a=1.5".toList ++ ".5;".toList)
      ("a=1.5".toList ++ (['\n'] ++ ".5;".toList)) :=
    .insert ⟨_, _, [], [], hsplit, by decide, by decide⟩ (by decide)
  have hreplace : Respacing ("int".toList ++ ([' '] ++ "a;print a;".toList))
      ("int".toList ++ (['\t', '\n'] ++ "a;print a;".toList)) :=
    .replace (by decide) (by decide) (by decide) (by decide)
  have hedit : Relation.ReflTransGen Respacing "a=1.5.5;".toList "a=1.5\n.5;".toList :=
    .single hinsert
  have hedit' : Relation.ReflTransGen Respacing "int a;print a;".toList
      "int\t\na;print a;".toList := .single hreplace
  obtain ⟨ts, hts⟩ := tokensOf_of_reads hsplit.reads []
  obtain ⟨ts', hts'⟩ := tokensOf_of_reads hsplit'.reads []
  have h : Source.tokenize "a=1.5.5;" = .ok ts := tokenize_of_split hsplit hts
  have h' : Source.tokenize "int a;print a;" = .ok ts' := tokenize_of_split hsplit' hts'
  obtain ⟨-, -, hfault⟩ := compile_respaced h hedit
  obtain ⟨-, hcode, -⟩ := compile_respaced h' hedit'
  have hbad : Source.compile "a=1.5.5;" =
      .error (.grammar (.refused (some .semicolon) ⟨.decimal, ⟨1, 6⟩, some ".5"⟩)) := by
    decide +kernel
  have hgood : Source.compile "int a;print a;" = .ok "la p P" := by decide +kernel
  exact ⟨hfault _ hbad, (hcode _).mpr hgood⟩

end DeskCalc
