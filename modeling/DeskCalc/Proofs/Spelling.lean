import DeskCalc.Proofs.RoundTrip
import DeskCalc.Proofs.Uses

/-!
# Spellings

A program that was read from a text has names and literals that a text can hold: a token has the
spelling of its lexeme (`spelled_of_tokensOf`), the parser copies it into the tree
(`spelled_of_itemsOf`), and a check changes neither names nor literals (`spelled_checkItems`).
-/

namespace DeskCalc

/-! ## Characters of names and literals -/

theorem IsName.not_mem {w : String} (h : IsName w) {c : Char} (hc : isLetter c = false) :
    c ∉ w.toList := by
  intro hmem
  rw [h.2.1 c hmem] at hc
  cases hc

theorem NumType.IsLiteral.not_mem {d : NumType} {w : String} (h : d.IsLiteral w) {c : Char}
    (hd : isDigit c = false) (hp : c ≠ '.') : c ∉ w.toList := by
  intro hmem
  cases d with
  | int =>
    rw [h.2 c hmem] at hd
    cases hd
  | float =>
    obtain ⟨digits, fraction, hw, hdigits, hfraction, -⟩ := h
    rw [hw, List.mem_append, List.mem_cons] at hmem
    rcases hmem with hmem | rfl | hmem
    · rw [hdigits c hmem] at hd
      cases hd
    · exact hp rfl
    · rw [hfraction c hmem] at hd
      cases hd

/-! ## Tokens -/

/-- a name or a literal is spelled as one -/
structure Token.Spelled (t : Token) : Prop where
  name : t.kind = .name → IsName t.text
  literal : ∀ d : NumType, t.kind = d.literal → d.IsLiteral t.text

theorem Token.spelled_of_fixed {t : Token} (h : t.kind.isSpelled = false) : t.Spelled where
  name hk := by
    rw [hk] at h
    cases h
  literal d hk := by
    rw [hk] at h
    cases d <;> cases h

theorem Lexeme.Makes.spelled {l : Lexeme} {k : Token.Kind} {v : Option String} {rest : List Char}
    (hm : l.Makes k v) (hv : l.Valid rest) (p : Position) : Token.Spelled ⟨k, p, v⟩ := by
  cases hm with
  | @name letters hk =>
    refine ⟨fun _ => ?_, fun d hd => by cases d <;> cases hd⟩
    show IsName (String.ofList letters)
    rw [IsName, String.toList_ofList]
    exact ⟨hv.1, hv.2.1, hk⟩
  | @integer digits =>
    refine ⟨nofun, fun d hd => ?_⟩
    cases d with
    | int =>
      show NumType.int.IsLiteral (String.ofList digits)
      rw [NumType.IsLiteral, String.toList_ofList]
      exact ⟨hv.1, hv.2.1⟩
    | float => cases hd
  | @decimal digits fraction =>
    refine ⟨nofun, fun d hd => ?_⟩
    cases d with
    | int => cases hd
    | float =>
      obtain ⟨hd, hf, -, hn⟩ := hv
      exact ⟨digits, fraction, String.toList_ofList, hd, hf, hn⟩
  | int | float | print | assign | plus | minus | times | divide | semicolon =>
    exact Token.spelled_of_fixed rfl

theorem spelled_of_tokensOf {tail before : List Char} {ps : List Piece} {ts : List Token}
    (hr : Reads ps tail) (h : TokensOf tail before ps ts) : ∀ t ∈ ts, t.Spelled := by
  induction h with
  | done => exact List.forall_mem_singleton.mpr (Token.spelled_of_fixed rfl)
  | @piece before p ps t ts hm _ _ ih =>
    obtain ⟨-, hv, hps⟩ := hr
    exact List.forall_mem_cons.mpr ⟨hm.spelled hv t.pos, ih hps⟩

/-! ## Trees -/

theorem Token.Spelled.operand? {t : Token} (ht : t.Spelled) {e : Expr} (h : t.operand? = some e) :
    e.Spelled := by
  unfold Token.operand? at h
  split at h
  next hk =>
    obtain rfl := Option.some.inj h
    exact ht.literal .int hk
  next hk =>
    obtain rfl := Option.some.inj h
    exact ht.literal .float hk
  next hk =>
    obtain rfl := Option.some.inj h
    exact ht.name hk
  next => cases h

theorem Folded.spelled {ops : List Operator} {part : List Token → Expr → Prop}
    (hpart : ∀ ts e, (∀ t ∈ ts, t.Spelled) → part ts e → e.Spelled) {ts : List Token} {e : Expr}
    (hts : ∀ t ∈ ts, t.Spelled) (h : Folded ops part ts e) : e.Spelled := by
  induction h with
  | @one ts e h => exact hpart ts e hts h
  | @more ts us k op l r _ _ _ hr ih =>
    rw [List.forall_mem_append, List.forall_mem_cons] at hts
    exact ⟨ih hts.1, hpart us r hts.2.2 hr⟩

theorem spelled_of_sumOf {ts : List Token} {e : Expr} (hts : ∀ t ∈ ts, t.Spelled)
    (h : SumOf ts e) : e.Spelled := by
  have hvalue : ∀ ts e, (∀ t ∈ ts, t.Spelled) → ValueOf ts e → e.Spelled := by
    rintro ts e hts ⟨t, rfl, he⟩
    exact (hts t List.mem_cons_self).operand? he
  exact Folded.spelled (fun _ _ => Folded.spelled hvalue) hts h

theorem spelled_of_itemOf {ts : List Token} {i : Item} (hts : ∀ t ∈ ts, t.Spelled)
    (h : ItemOf ts i) : i.Spelled := by
  cases h with
  | @declare d t n s _ hn _ => exact (hts n (by simp)).name hn
  | @assign n a s ts e hn _ he _ =>
    refine ⟨(hts n (by simp)).name hn, spelled_of_sumOf (fun t ht => hts t ?_) he⟩
    simp [ht]
  | @print t n s _ hn _ => exact (hts n (by simp)).name hn

theorem spelled_of_itemsOf {ts : List Token} {is : List Item} (hts : ∀ t ∈ ts, t.Spelled)
    (h : ItemsOf ts is) : ∀ i ∈ is, i.Spelled := by
  induction h with
  | nil => exact fun i hi => absurd hi List.not_mem_nil
  | cons hi _ ih =>
    rw [List.forall_mem_append] at hts
    exact List.forall_mem_cons.mpr ⟨spelled_of_itemOf hts.1 hi, ih hts.2⟩

/-- **A parsed program is spelled**: its names and literals are those of a text. -/
theorem spelled_of_parse {text : String} {p : Program} (h : Source.parse text = .ok p) :
    p.Spelled := by
  obtain ⟨-, ts, last, htok, -, his⟩ := parse_text_eq_ok_iff.mp h
  obtain ⟨ps, tail, hsplit, htokens⟩ := split_of_tokenize htok
  have hts := spelled_of_tokensOf hsplit.reads htokens
  rw [List.forall_mem_append] at hts
  exact spelled_of_itemsOf hts.1 his

/-! ## Checked trees -/

theorem Checked.spelled_as {c : Checked Expr} (h : c.node.Spelled) (s : CheckedType) :
    (c.as s).Spelled := by
  unfold Checked.as
  split <;> exact h

section Check
variable (t : SymbolTable)

theorem spelled_check_expr {e : Expr} (h : e.Spelled) : (e.check t).node.Spelled := by
  induction e with
  | const value declared type p => exact h
  | deref id type p =>
    show IsName (id.check t).node.name
    rw [name_check]
    exact h
  | binary op left right type p ihl ihr =>
    exact ⟨Checked.spelled_as (ihl h.1) _, Checked.spelled_as (ihr h.2) _⟩
  | convert inner type p ih => exact ih h

theorem spelled_check_item {i : Item} (h : i.Spelled) : (i.check t).node.Spelled := by
  cases i with
  | declare declared id type p =>
    show (checkDeclare t declared id p).node.Spelled
    unfold checkDeclare
    split <;> exact h
  | assign target value type p =>
    obtain ⟨s, type', hnode⟩ := exists_node_checkAssign t target value p
    rw [Item.check, hnode]
    refine ⟨?_, Checked.spelled_as (spelled_check_expr t h.2) s⟩
    rw [name_check]
    exact h.1
  | print id type p =>
    show IsName (id.check t).node.name
    rw [name_check]
    exact h

theorem spelled_checkItems {is : List Item} (h : ∀ i ∈ is, i.Spelled) :
    ∀ i ∈ (checkItems t is).node, i.Spelled := by
  induction is generalizing t with
  | nil => exact fun i hi => absurd hi List.not_mem_nil
  | cons i is ih =>
    rw [List.forall_mem_cons] at h
    rw [checkItems_cons]
    exact List.forall_mem_cons.mpr ⟨spelled_check_item t h.1, ih _ h.2⟩

end Check
end DeskCalc
