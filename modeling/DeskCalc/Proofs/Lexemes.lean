import DeskCalc.Token.Reader
import Mathlib.Data.List.TakeWhile

/-!
# Longest lexemes

What a lexeme is, said without the reader: a run of characters of one class that is not followed by
another of its class.  `Lexeme.Stands l rest` says that of the lexeme `l` before the text `rest`, and
the reader cuts `l` off exactly there (`munch_of_stands`, `stands_of_munch`).  A lexeme that stands
is either a token (`Lexeme.Valid`, and `Lexeme.Makes` for which one) or a fault (`Lexeme.Fails`), and
never both.

* `Stops`                        a text that does not go on with a class of characters;
* `Cursor.advance?_of_stands`    a cursor before blanks and a lexeme;
* `Cursor.advance?_inv`          the blanks and the lexeme that a cursor has passed.
-/

namespace DeskCalc

/-! ## Runs -/

-- a run is decided by its characters, and not by a walk over all the characters there are
instance decidableRun (k : Char → Bool) (w : List Char) : Decidable (∀ c ∈ w, k c = true) :=
  decidable_of_iff (w.all k = true) List.all_eq_true

/-- the text does not begin with a character of the class `k` -/
def Stops (k : Char → Bool) (rest : List Char) : Prop := ∀ c ∈ rest.head?, k c = false

theorem stops_nil (k : Char → Bool) : Stops k [] := fun _ h => nomatch h

theorem stops_cons {k : Char → Bool} {c : Char} (h : k c = false) (cs : List Char) :
    Stops k (c :: cs) := by
  intro d hd
  obtain rfl := Option.some.inj hd
  exact h

instance (k : Char → Bool) : ∀ rest : List Char, Decidable (Stops k rest)
  | [] => isTrue (stops_nil k)
  | c :: cs => decidable_of_iff (k c = false) ⟨fun h => stops_cons h cs, fun h => h c rfl⟩

theorem takeWhile_run {k : Char → Bool} {w rest : List Char} (hw : ∀ c ∈ w, k c = true)
    (hr : Stops k rest) : (w ++ rest).takeWhile k = w := by
  rw [List.takeWhile_append_of_pos hw]
  cases rest with
  | nil => exact List.append_nil w
  | cons c cs =>
    have hc : ¬ k c = true := Bool.eq_false_iff.mp (hr c rfl)
    rw [List.takeWhile_cons_of_neg hc, List.append_nil]

theorem dropWhile_run {k : Char → Bool} {w rest : List Char} (hw : ∀ c ∈ w, k c = true)
    (hr : Stops k rest) : (w ++ rest).dropWhile k = rest := by
  rw [List.dropWhile_append_of_pos hw]
  cases rest with
  | nil => rfl
  | cons c cs =>
    have hc : ¬ k c = true := Bool.eq_false_iff.mp (hr c rfl)
    rw [List.dropWhile_cons_of_neg hc]

theorem stops_dropWhile (k : Char → Bool) (cs : List Char) : Stops k (cs.dropWhile k) := by
  induction cs with
  | nil => exact stops_nil k
  | cons c cs ih =>
    cases h : k c with
    | true =>
      rw [List.dropWhile_cons_of_pos h]
      exact ih
    | false =>
      rw [List.dropWhile_cons_of_neg (Bool.eq_false_iff.mp h)]
      exact stops_cons h cs

theorem mem_takeWhile {k : Char → Bool} {cs : List Char} : ∀ c ∈ cs.takeWhile k, k c = true :=
  fun _ h => List.mem_takeWhile_imp h

theorem isDigit_point : isDigit '.' = false := by decide

namespace Lexeme

/-! ## Longest readings -/

/-- the lexeme before the text `rest`, from which it takes nothing and to which it leaves nothing -/
def Stands : Lexeme → List Char → Prop
  | word letters, rest => letters ≠ [] ∧ (∀ c ∈ letters, isLetter c = true) ∧ Stops isLetter rest
  | whole digits, rest =>
    digits ≠ [] ∧ (∀ c ∈ digits, isDigit c = true) ∧ Stops isDigit rest ∧ rest.head? ≠ some '.'
  | pointed digits fraction, rest =>
    (∀ c ∈ digits, isDigit c = true) ∧ (∀ c ∈ fraction, isDigit c = true) ∧ Stops isDigit rest
  | sign c, _ => isBlank c = false ∧ isLetter c = false ∧ isDigit c = false ∧ c ≠ '.'

theorem munchNumber_whole {digits rest : List Char} (hd : ∀ c ∈ digits, isDigit c = true)
    (hr : Stops isDigit rest) (hp : rest.head? ≠ some '.') :
    munchNumber (digits ++ rest) = (whole digits, rest) := by
  unfold munchNumber
  rw [dropWhile_run hd hr, takeWhile_run hd hr]
  split
  next ds => exact absurd rfl hp
  next => rfl

theorem munchNumber_pointed {digits fraction rest : List Char}
    (hd : ∀ c ∈ digits, isDigit c = true) (hf : ∀ c ∈ fraction, isDigit c = true)
    (hr : Stops isDigit rest) :
    munchNumber (digits ++ '.' :: (fraction ++ rest)) = (pointed digits fraction, rest) := by
  have hp : Stops isDigit ('.' :: (fraction ++ rest)) := stops_cons isDigit_point _
  unfold munchNumber
  rw [dropWhile_run hd hp, takeWhile_run hd hp]
  show (pointed digits ((fraction ++ rest).takeWhile isDigit),
    (fraction ++ rest).dropWhile isDigit) = _
  rw [takeWhile_run hf hr, dropWhile_run hf hr]

private theorem not_letter_of_digit {c : Char} (h : isDigit c = true) : isLetter c = false := by
  have h9 : c ≤ '9' := by
    rw [isDigit, Bool.and_eq_true, decide_eq_true_eq, decide_eq_true_eq] at h
    exact h.2
  rw [isLetter, Bool.and_eq_false_iff]
  left
  rw [decide_eq_false_iff_not]
  intro ha
  exact absurd (Char.le_trans ha h9) (by decide)

private theorem munch_number {c : Char} (hc : isDigit c = true ∨ c = '.') (cs : List Char) :
    munch (c :: cs) = some (munchNumber (c :: cs)) := by
  have hl : isLetter c = false := by
    rcases hc with h | rfl
    · exact not_letter_of_digit h
    · decide
  have hn : (isDigit c || c == '.') = true := by
    rcases hc with h | rfl
    · rw [h, Bool.true_or]
    · decide
  rw [munch, hl, hn]
  rfl

/-- A lexeme that stands before a text is the one that is cut off. -/
theorem munch_of_stands {l : Lexeme} {rest : List Char} (h : l.Stands rest) :
    munch (l.chars ++ rest) = some (l, rest) := by
  cases l with
  | word letters =>
    obtain ⟨hne, hl, hr⟩ := h
    cases letters with
    | nil => exact absurd rfl hne
    | cons c cs =>
      have hc : isLetter c = true := hl c List.mem_cons_self
      have hcs : ∀ d ∈ cs, isLetter d = true := fun d hd => hl d (List.mem_cons_of_mem c hd)
      show munch (c :: (cs ++ rest)) = _
      rw [munch, hc, takeWhile_run hcs hr, dropWhile_run hcs hr]
      rfl
  | whole digits =>
    obtain ⟨hne, hd, hr, hp⟩ := h
    cases digits with
    | nil => exact absurd rfl hne
    | cons c cs =>
      show munch (c :: (cs ++ rest)) = _
      rw [munch_number (.inl (hd c List.mem_cons_self))]
      exact congrArg some (munchNumber_whole hd hr hp)
  | pointed digits fraction =>
    obtain ⟨hd, hf, hr⟩ := h
    have e := munchNumber_pointed hd hf hr
    have hcs : (pointed digits fraction).chars ++ rest = digits ++ '.' :: (fraction ++ rest) := by
      show (digits ++ '.' :: fraction) ++ rest = _
      rw [List.append_assoc, List.cons_append]
    rw [hcs]
    cases digits with
    | nil => exact (munch_number (.inr rfl) _).trans (congrArg some e)
    | cons c cs => exact (munch_number (.inl (hd c List.mem_cons_self)) _).trans (congrArg some e)
  | sign c =>
    obtain ⟨_, hl, hd, hp⟩ := h
    show munch (c :: rest) = _
    rw [munch, hl, hd, Bool.false_or, beq_eq_false_iff_ne.mpr hp]
    rfl

private theorem stands_munchNumber {c : Char} (hc : isDigit c = true ∨ c = '.')
    (cs : List Char) : (munchNumber (c :: cs)).1.Stands (munchNumber (c :: cs)).2 := by
  unfold munchNumber
  split
  next ds h =>
    exact ⟨mem_takeWhile, mem_takeWhile, stops_dropWhile isDigit ds⟩
  next hne =>
    have hd : isDigit c = true := by
      rcases hc with h | rfl
      · exact h
      · exact absurd (List.dropWhile_cons_of_neg (by decide)) (hne cs)
    refine ⟨?_, mem_takeWhile, stops_dropWhile isDigit _, ?_⟩
    · rw [List.takeWhile_cons_of_pos hd]
      exact List.cons_ne_nil _ _
    · intro hp
      obtain ⟨ds, hds⟩ := List.head?_eq_some_iff.mp hp
      exact hne ds hds

/-- What is cut off a text without a blank in front stands before what is left. -/
theorem stands_of_munch {cs rest : List Char} {l : Lexeme} (hb : Stops isBlank cs)
    (h : munch cs = some (l, rest)) : l.Stands rest := by
  cases cs with
  | nil => cases h
  | cons c cs =>
    rw [munch, Option.some.injEq] at h
    cases hl : isLetter c with
    | true =>
      rw [hl] at h
      obtain ⟨rfl, rfl⟩ := Prod.mk.inj h
      refine ⟨List.cons_ne_nil _ _, ?_, stops_dropWhile isLetter cs⟩
      intro d hd
      rcases List.mem_cons.mp hd with rfl | hd
      · exact hl
      · exact mem_takeWhile d hd
    | false =>
      rw [hl] at h
      cases hn : (isDigit c || c == '.') with
      | true =>
        rw [hn] at h
        have hc : isDigit c = true ∨ c = '.' := by
          rw [Bool.or_eq_true, beq_iff_eq] at hn
          exact hn
        have hs := stands_munchNumber hc cs
        have e : munchNumber (c :: cs) = (l, rest) := h
        rw [e] at hs
        exact hs
      | false =>
        rw [hn] at h
        obtain ⟨rfl, rfl⟩ := Prod.mk.inj h
        obtain ⟨hd, hp⟩ := Bool.or_eq_false_iff.mp hn
        exact ⟨hb c rfl, hl, hd, beq_eq_false_iff_ne.mp hp⟩

/-! ## Tokens and faults -/

def signs : List Char := ['=', '+', '-', '*', '/', ';']

theorem mem_signs {c : Char} :
    c ∈ signs ↔ c = '=' ∨ c = '+' ∨ c = '-' ∨ c = '*' ∨ c = '/' ∨ c = ';' := by
  simp [signs]

def keywords : List String := ["int", "float", "print"]

/-- the lexeme is a token before the text `rest` -/
def Valid : Lexeme → List Char → Prop
  | word letters, rest => letters ≠ [] ∧ (∀ c ∈ letters, isLetter c = true) ∧ Stops isLetter rest
  | whole digits, rest =>
    digits ≠ [] ∧ (∀ c ∈ digits, isDigit c = true) ∧ Stops isDigit rest ∧ rest.head? ≠ some '.'
  | pointed digits fraction, rest =>
    (∀ c ∈ digits, isDigit c = true) ∧ (∀ c ∈ fraction, isDigit c = true) ∧ Stops isDigit rest ∧
      1 ≤ fraction.length ∧ fraction.length ≤ 5
  | sign c, _ => c ∈ signs

instance : ∀ (l : Lexeme) (rest : List Char), Decidable (l.Valid rest)
  | word _, _ => inferInstanceAs (Decidable (_ ∧ _))
  | whole _, _ => inferInstanceAs (Decidable (_ ∧ _))
  | pointed _ _, _ => inferInstanceAs (Decidable (_ ∧ _))
  | sign c, _ => inferInstanceAs (Decidable (c ∈ signs))

/-- the kind and the spelling of the token that a lexeme is -/
inductive Makes : Lexeme → Token.Kind → Option String → Prop
  | int : Makes (word "int".toList) .intType none
  | float : Makes (word "float".toList) .floatType none
  | print : Makes (word "print".toList) .print none
  | name {letters : List Char} (h : String.ofList letters ∉ keywords) :
    Makes (word letters) .name (some (String.ofList letters))
  | integer {digits : List Char} : Makes (whole digits) .integer (some (String.ofList digits))
  | decimal {digits fraction : List Char} :
    Makes (pointed digits fraction) .decimal (some (String.ofList (digits ++ '.' :: fraction)))
  | assign : Makes (sign '=') .assign none
  | plus : Makes (sign '+') .plus none
  | minus : Makes (sign '-') .minus none
  | times : Makes (sign '*') .times none
  | divide : Makes (sign '/') .divide none
  | semicolon : Makes (sign ';') .semicolon none

/-- the fault of a lexeme at `p` that is no token before the text `rest` -/
inductive Fails (rest : List Char) (p : Position) : Lexeme → LexicalFault → Prop
  | character {c : Char} (hb : isBlank c = false) (hl : isLetter c = false)
    (hd : isDigit c = false) (hp : c ≠ '.') (hs : c ∉ signs) :
    Fails rest p (sign c) (.illegalCharacter c p)
  | fraction {digits fraction : List Char} (hd : ∀ c ∈ digits, isDigit c = true)
    (hf : ∀ c ∈ fraction, isDigit c = true) (hr : Stops isDigit rest)
    (hn : fraction.length = 0 ∨ 5 < fraction.length) :
    Fails rest p (pointed digits fraction)
      (.malformedDecimal (String.ofList (digits ++ '.' :: fraction)) fraction.length p)

theorem stands_of_valid {l : Lexeme} {rest : List Char} (h : l.Valid rest) : l.Stands rest := by
  cases l with
  | word letters => exact h
  | whole digits => exact h
  | pointed digits fraction => exact ⟨h.1, h.2.1, h.2.2.1⟩
  | sign c =>
    rcases mem_signs.mp h with rfl | rfl | rfl | rfl | rfl | rfl
    all_goals exact ⟨by decide, by decide, by decide, by decide⟩

theorem stands_of_fails {l : Lexeme} {rest : List Char} {p : Position} {f : LexicalFault}
    (h : l.Fails rest p f) : l.Stands rest := by
  cases h with
  | character hb hl hd hp hs => exact ⟨hb, hl, hd, hp⟩
  | fraction hd hf hr hn => exact ⟨hd, hf, hr⟩

theorem ofKeyword?_eq_none {w : String} (h : w ∉ keywords) : Token.Kind.ofKeyword? w = none := by
  have h1 : w ≠ "int" := fun e => h (e ▸ by decide)
  have h2 : w ≠ "float" := fun e => h (e ▸ by decide)
  have h3 : w ≠ "print" := fun e => h (e ▸ by decide)
  rw [Token.Kind.ofKeyword?, if_neg h1, if_neg h2, if_neg h3]

theorem read_of_makes {l : Lexeme} {rest : List Char} (hv : l.Valid rest) {k : Token.Kind}
    {v : Option String} (hm : l.Makes k v) (p : Position) : l.read p = .ok ⟨k, p, v⟩ := by
  cases hm with
  | name h => rw [read, spelling, chars, ofKeyword?_eq_none h]
  | decimal => exact if_pos hv.2.2.2
  | int | float | print | integer | assign | plus | minus | times | divide | semicolon => rfl

theorem read_of_fails {l : Lexeme} {rest : List Char} {p : Position} {f : LexicalFault}
    (h : l.Fails rest p f) : l.read p = .error f := by
  cases h with
  | @character c hb hl hd hp hs =>
    have hk : Token.Kind.ofSign? c = none := by
      have hne : ∀ d ∈ signs, c ≠ d := fun d hd e => hs (e ▸ hd)
      rw [Token.Kind.ofSign?, if_neg (hne '=' (by decide)), if_neg (hne '+' (by decide)),
        if_neg (hne '-' (by decide)), if_neg (hne '*' (by decide)),
        if_neg (hne '/' (by decide)), if_neg (hne ';' (by decide))]
    rw [read, hk]
  | fraction hd hf hr hn =>
    refine if_neg ?_
    rintro ⟨h1, h5⟩
    have h5' : _ ≤ 5 := h5
    omega

theorem makes_of_valid {l : Lexeme} {rest : List Char} (h : l.Valid rest) :
    ∃ k v, l.Makes k v := by
  cases l with
  | word letters =>
    by_cases hk : String.ofList letters ∈ keywords
    · have hw : letters = "int".toList ∨ letters = "float".toList ∨ letters = "print".toList := by
        simpa [keywords, ← String.toList_inj] using hk
      rcases hw with rfl | rfl | rfl
      · exact ⟨_, _, .int⟩
      · exact ⟨_, _, .float⟩
      · exact ⟨_, _, .print⟩
    · exact ⟨_, _, .name hk⟩
  | whole digits => exact ⟨_, _, .integer⟩
  | pointed digits fraction => exact ⟨_, _, .decimal⟩
  | sign c =>
    rcases mem_signs.mp h with rfl | rfl | rfl | rfl | rfl | rfl
    · exact ⟨_, _, .assign⟩
    · exact ⟨_, _, .plus⟩
    · exact ⟨_, _, .minus⟩
    · exact ⟨_, _, .times⟩
    · exact ⟨_, _, .divide⟩
    · exact ⟨_, _, .semicolon⟩

theorem valid_or_fails {l : Lexeme} {rest : List Char} (h : l.Stands rest) (p : Position) :
    l.Valid rest ∨ ∃ f, l.Fails rest p f := by
  cases l with
  | word letters => exact .inl h
  | whole digits => exact .inl h
  | pointed digits fraction =>
    by_cases hn : 1 ≤ fraction.length ∧ fraction.length ≤ 5
    · exact .inl ⟨h.1, h.2.1, h.2.2, hn⟩
    · exact .inr ⟨_, .fraction h.1 h.2.1 h.2.2 (by omega)⟩
  | sign c =>
    by_cases hs : c ∈ signs
    · exact .inl hs
    · exact .inr ⟨_, .character h.1 h.2.1 h.2.2.1 h.2.2.2 hs⟩

/-! ## Cursors -/

theorem not_blank {c : Char} (h : isLetter c = true ∨ isDigit c = true ∨ c = '.') :
    isBlank c = false := by
  rw [Bool.eq_false_iff]
  intro hb
  have hc : c = ' ' ∨ c = '\t' ∨ c = '\r' ∨ c = '\n' := by
    simpa [isBlank, or_assoc] using hb
  rcases hc with rfl | rfl | rfl | rfl <;> exact absurd h (by decide)

theorem stops_blank {l : Lexeme} {rest : List Char} (h : l.Stands rest) :
    Stops isBlank (l.chars ++ rest) := by
  cases l with
  | word letters =>
    obtain ⟨hne, hl, _⟩ := h
    cases letters with
    | nil => exact absurd rfl hne
    | cons c cs => exact stops_cons (not_blank (.inl (hl c List.mem_cons_self))) _
  | whole digits =>
    obtain ⟨hne, hd, _⟩ := h
    cases digits with
    | nil => exact absurd rfl hne
    | cons c cs => exact stops_cons (not_blank (.inr (.inl (hd c List.mem_cons_self)))) _
  | pointed digits fraction =>
    cases digits with
    | nil => exact stops_cons (not_blank (.inr (.inr rfl))) _
    | cons c cs => exact stops_cons (not_blank (.inr (.inl (h.1 c List.mem_cons_self)))) _
  | sign c => exact stops_cons h.1 _

end Lexeme

namespace Cursor

/-- A cursor before blanks and a lexeme reads the lexeme at the place behind the blanks. -/
theorem advance?_of_stands {gap rest : List Char} {l : Lexeme} (p : Position)
    (hg : ∀ c ∈ gap, isBlank c = true) (h : l.Stands rest) :
    advance? ⟨gap ++ (l.chars ++ rest), p⟩ =
      some (l.read (p.past gap), ⟨rest, (p.past gap).past l.chars⟩) := by
  have hb := Lexeme.stops_blank h
  have e : skipBlanks ⟨gap ++ (l.chars ++ rest), p⟩ = ⟨l.chars ++ rest, p.past gap⟩ := by
    rw [skipBlanks, dropWhile_run hg hb, takeWhile_run hg hb]
  rw [advance?, e, Lexeme.munch_of_stands h]
  rfl

theorem advance?_of_blank {gap : List Char} (p : Position) (hg : ∀ c ∈ gap, isBlank c = true) :
    advance? ⟨gap, p⟩ = none := by
  have e : (skipBlanks ⟨gap, p⟩).rest = [] := List.dropWhile_eq_nil_iff.mpr hg
  rw [advance?, e]
  rfl

theorem blank_of_advance?_eq_none {c : Cursor} (h : c.advance? = none) :
    ∀ x ∈ c.rest, isBlank x = true := by
  have hm : Lexeme.munch c.skipBlanks.rest = none := Option.map_eq_none_iff.mp h
  apply List.dropWhile_eq_nil_iff.mp
  show c.skipBlanks.rest = []
  cases e : c.skipBlanks.rest with
  | nil => rfl
  | cons x xs =>
    rw [e] at hm
    cases hm

/-- What a cursor has passed: blanks, and a lexeme that stands before what is left. -/
theorem advance?_inv {c d : Cursor} {o : Outcome} (h : c.advance? = some (o, d)) :
    ∃ (gap : List Char) (l : Lexeme),
      (∀ x ∈ gap, isBlank x = true) ∧ c.rest = gap ++ (l.chars ++ d.rest) ∧
      l.Stands d.rest ∧ o = l.read (c.pos.past gap) ∧ d.pos = (c.pos.past gap).past l.chars := by
  obtain ⟨⟨l, rest⟩, hm, he⟩ := Option.map_eq_some_iff.mp h
  obtain ⟨rfl, rfl⟩ := Prod.mk.inj he
  refine ⟨c.rest.takeWhile isBlank, l, mem_takeWhile, ?_, ?_, rfl, rfl⟩
  · have e : l.chars ++ rest = c.rest.dropWhile isBlank := Lexeme.chars_append_of_munch hm
    show c.rest = c.rest.takeWhile isBlank ++ (l.chars ++ rest)
    rw [e, List.takeWhile_append_dropWhile]
  · exact Lexeme.stands_of_munch (stops_dropWhile isBlank c.rest) hm

end Cursor
end DeskCalc
