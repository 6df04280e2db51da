import DeskCalc.Tree.Parse
import Mathlib.Computability.RegularExpressions

/-!
# The grammar and its trees

The grammar has no nesting, so it is a regular expression over the kinds of tokens, written here as
it is documented: a row of declarations and statements up to the end, sums of terms, terms of values.
Beside it stand the trees, as relations between rows of tokens and what they are: the operators of
one rank are applied from the left (`Folded`), which makes a term of values and a sum of terms.

* `Grammar.program`, `Sentence`                       the grammar and its sentences;
* `ValueOf`, `TermOf`, `SumOf`, `ItemOf`, `ItemsOf`   the trees of rows of tokens;
* `Folded.close`                                      a waiting operator gets its right side;
* `exists_itemsOf_iff`                                the rows of tokens that have a tree are those
                                                      whose kinds the grammar allows.
-/

namespace DeskCalc

/-! ## Sentences -/

namespace Grammar
open RegularExpression

def value : RegularExpression Token.Kind := char .integer + char .decimal + char .name

def productSign : RegularExpression Token.Kind := char .times + char .divide

def sumSign : RegularExpression Token.Kind := char .plus + char .minus

def term : RegularExpression Token.Kind := value * (productSign * value).star

def sum : RegularExpression Token.Kind := term * (sumSign * term).star

def declaration : RegularExpression Token.Kind :=
  (char .intType + char .floatType) * (char .name * char .semicolon)

def statement : RegularExpression Token.Kind :=
  char .name * (char .assign * (sum * char .semicolon)) +
    char .print * (char .name * char .semicolon)

def program : RegularExpression Token.Kind :=
  (declaration + statement).star * char .endOfText

end Grammar

/-- the kinds are those of a program -/
def Sentence (ks : List Token.Kind) : Prop := ks ∈ Grammar.program.matches'

instance (ks : List Token.Kind) : Decidable (Sentence ks) :=
  decidable_of_iff _ (RegularExpression.rmatch_iff_matches' Grammar.program ks)

/-! ## Trees of rows of tokens -/

def Operator.kind : Operator → Token.Kind
  | plus => .plus
  | minus => .minus
  | times => .times
  | divide => .divide

def productOps : List Operator := [.times, .divide]

def sumOps : List Operator := [.plus, .minus]

def NumType.keyword : NumType → Token.Kind
  | int => .intType
  | float => .floatType

/-- the row is one token, which is the value `e` -/
def ValueOf (ts : List Token) (e : Expr) : Prop := ∃ t, ts = [t] ∧ t.operand? = some e

/-- parts with the operators `ops` between them, applied from the left -/
inductive Folded (ops : List Operator) (part : List Token → Expr → Prop) :
    List Token → Expr → Prop
  | one {ts : List Token} {e : Expr} (h : part ts e) : Folded ops part ts e
  | more {ts us : List Token} {k : Token} {op : Operator} {l r : Expr}
    (hl : Folded ops part ts l) (hop : op ∈ ops) (hk : k.kind = op.kind) (hr : part us r) :
    Folded ops part (ts ++ k :: us) (.apply op l r)

def TermOf : List Token → Expr → Prop := Folded productOps ValueOf

def SumOf : List Token → Expr → Prop := Folded sumOps TermOf

inductive ItemOf : List Token → Item → Prop
  | declare {d : NumType} {t n s : Token} (ht : t.kind = d.keyword) (hn : n.kind = .name)
    (hs : s.kind = .semicolon) : ItemOf [t, n, s] (.declare d n.identifier none t.pos)
  | assign {n a s : Token} {ts : List Token} {e : Expr} (hn : n.kind = .name)
    (ha : a.kind = .assign) (he : SumOf ts e) (hs : s.kind = .semicolon) :
    ItemOf (n :: a :: (ts ++ [s])) (.assign n.identifier e none n.pos)
  | print {t n s : Token} (ht : t.kind = .print) (hn : n.kind = .name)
    (hs : s.kind = .semicolon) : ItemOf [t, n, s] (.print n.identifier none t.pos)

inductive ItemsOf : List Token → List Item → Prop
  | nil : ItemsOf [] []
  | cons {ts us : List Token} {i : Item} {is : List Item} (hi : ItemOf ts i)
    (h : ItemsOf us is) : ItemsOf (ts ++ us) (i :: is)

/-! ## Waiting operators -/

section Waiting
variable {ops : List Operator} {part : List Token → Expr → Prop}

/-- the row is what waits for a right side: nothing, or a left side and an operator -/
inductive WaitsOf (ops : List Operator) (part : List Token → Expr → Prop) :
    List Token → Option Waiting → Prop
  | none : WaitsOf ops part [] none
  | some {ts : List Token} {k : Token} {op : Operator} {l : Expr} (hl : Folded ops part ts l)
    (hop : op ∈ ops) (hk : k.kind = op.kind) : WaitsOf ops part (ts ++ [k]) (some ⟨l, op⟩)

theorem Folded.close {ts us : List Token} {w : Option Waiting} {e : Expr}
    (hw : WaitsOf ops part ts w) (he : part us e) :
    Folded ops part (ts ++ us) (Waiting.close w e) := by
  cases hw with
  | none => exact .one he
  | some hl hop hk =>
    rw [List.append_assoc]
    exact .more hl hop hk he

end Waiting

/-! ## Which rows have a tree -/

section Language
open RegularExpression Language

theorem mem_char {k : Token.Kind} {ts : List Token} :
    ts.map Token.kind ∈ (char k).matches' ↔ ∃ t, ts = [t] ∧ t.kind = k :=
  List.map_eq_singleton_iff

theorem mem_then {P Q : RegularExpression Token.Kind} {ts : List Token} :
    ts.map Token.kind ∈ (P * Q).matches' ↔
      ∃ us vs, ts = us ++ vs ∧ us.map Token.kind ∈ P.matches' ∧ vs.map Token.kind ∈ Q.matches' := by
  rw [matches'_mul, mem_mul]
  constructor
  · rintro ⟨a, ha, b, hb, e⟩
    obtain ⟨us, vs, rfl, rfl, rfl⟩ := List.map_eq_append_iff.mp e.symm
    exact ⟨us, vs, rfl, ha, hb⟩
  · rintro ⟨us, vs, rfl, ha, hb⟩
    exact ⟨_, ha, _, hb, List.map_append.symm⟩

theorem mem_char_then {k : Token.Kind} {Q : RegularExpression Token.Kind} {ts : List Token} :
    ts.map Token.kind ∈ (char k * Q).matches' ↔
      ∃ t vs, ts = t :: vs ∧ t.kind = k ∧ vs.map Token.kind ∈ Q.matches' := by
  rw [mem_then]
  constructor
  · rintro ⟨us, vs, rfl, hu, hv⟩
    obtain ⟨t, rfl, ht⟩ := mem_char.mp hu
    exact ⟨t, vs, rfl, ht, hv⟩
  · rintro ⟨t, vs, rfl, ht, hv⟩
    exact ⟨[t], vs, rfl, mem_char.mpr ⟨t, rfl, ht⟩, hv⟩

theorem mem_star {P : RegularExpression Token.Kind} {ts : List Token} :
    ts.map Token.kind ∈ P.star.matches' ↔
      ∃ tss : List (List Token), ts = tss.flatten ∧ ∀ us ∈ tss, us.map Token.kind ∈ P.matches' := by
  rw [matches'_star, mem_kstar]
  constructor
  · rintro ⟨kss, e, hk⟩
    induction kss generalizing ts with
    | nil => exact ⟨[], List.map_eq_nil_iff.mp e, fun _ h => nomatch h⟩
    | cons ks kss ih =>
      obtain ⟨us, vs, rfl, rfl, e'⟩ := List.map_eq_append_iff.mp e
      obtain ⟨hu, hrest⟩ := List.forall_mem_cons.mp hk
      obtain ⟨tss, rfl, ht⟩ := ih e' hrest
      exact ⟨us :: tss, rfl, List.forall_mem_cons.mpr ⟨hu, ht⟩⟩
  · rintro ⟨tss, rfl, ht⟩
    refine ⟨tss.map (List.map Token.kind), List.map_flatten, ?_⟩
    intro y hy
    obtain ⟨us, hus, rfl⟩ := List.mem_map.mp hy
    exact ht us hus

theorem exists_valueOf_iff {ts : List Token} :
    (∃ e, ValueOf ts e) ↔ ts.map Token.kind ∈ Grammar.value.matches' := by
  rw [Grammar.value, matches'_add, matches'_add, mem_add, mem_add, mem_char, mem_char, mem_char]
  constructor
  · rintro ⟨e, t, rfl, he⟩
    unfold Token.operand? at he
    split at he
    · exact .inl (.inl ⟨t, rfl, ‹_›⟩)
    · exact .inl (.inr ⟨t, rfl, ‹_›⟩)
    · exact .inr ⟨t, rfl, ‹_›⟩
    · cases he
  · rintro ((⟨t, rfl, ht⟩ | ⟨t, rfl, ht⟩) | ⟨t, rfl, ht⟩)
    all_goals exact ⟨_, t, rfl, by rw [Token.operand?, ht]⟩

/-- **Parts and operators.**  If the rows that are parts are those that `P` allows, and the operators
those of `O`, then the rows that can be folded are those of a part and then of operators with parts. -/
theorem exists_folded_iff {ops : List Operator} {part : List Token → Expr → Prop}
    {P O : RegularExpression Token.Kind}
    (hO : ∀ ts : List Token,
      ts.map Token.kind ∈ O.matches' ↔ ∃ k, ∃ op ∈ ops, ts = [k] ∧ k.kind = op.kind)
    (hP : ∀ ts : List Token, (∃ e, part ts e) ↔ ts.map Token.kind ∈ P.matches')
    (ts : List Token) :
    (∃ e, Folded ops part ts e) ↔ ts.map Token.kind ∈ (P * (O * P).star).matches' := by
  rw [mem_then]
  constructor
  · rintro ⟨e, he⟩
    induction he with
    | @one ts e h =>
      exact ⟨ts, [], (List.append_nil ts).symm, (hP ts).mp ⟨e, h⟩, nil_mem_kstar _⟩
    | @more ts us k op l r _ hop hk hr ih =>
      obtain ⟨vs, ws, rfl, hv, hw⟩ := ih
      obtain ⟨tss, rfl, ht⟩ := mem_star.mp hw
      refine ⟨vs, (tss ++ [k :: us]).flatten, by simp, hv, mem_star.mpr ⟨_, rfl, ?_⟩⟩
      intro ys hys
      rcases List.mem_append.mp hys with hys | hys
      · exact ht ys hys
      · obtain rfl := List.mem_singleton.mp hys
        exact mem_then.mpr ⟨[k], us, rfl, (hO [k]).mpr ⟨k, op, hop, rfl, hk⟩, (hP us).mp ⟨r, hr⟩⟩
  · rintro ⟨vs, ws, rfl, hv, hw⟩
    obtain ⟨tss, rfl, ht⟩ := mem_star.mp hw
    obtain ⟨e, he⟩ := (hP vs).mpr hv
    replace he : Folded ops part vs e := .one he
    clear hv hw
    -- from the left, so that each operator finds all that stands before it folded
    induction tss generalizing vs e with
    | nil => exact ⟨e, by simpa using he⟩
    | cons us tss ih =>
      obtain ⟨os, ps, rfl, ho, hp⟩ := mem_then.mp (ht us List.mem_cons_self)
      obtain ⟨k, op, hop, rfl, hk⟩ := (hO os).mp ho
      obtain ⟨r, hr⟩ := (hP ps).mpr hp
      have hfold : Folded ops part (vs ++ k :: ps) (.apply op e r) := .more he hop hk hr
      have h := ih (vs ++ k :: ps) (fun y hy => ht y (List.mem_cons_of_mem _ hy)) _ hfold
      rwa [List.append_assoc] at h

theorem mem_productSign (ts : List Token) :
    ts.map Token.kind ∈ Grammar.productSign.matches' ↔
      ∃ k, ∃ op ∈ productOps, ts = [k] ∧ k.kind = op.kind := by
  rw [Grammar.productSign, matches'_add, mem_add, mem_char, mem_char]
  simp [productOps, Operator.kind, exists_or]

theorem mem_sumSign (ts : List Token) :
    ts.map Token.kind ∈ Grammar.sumSign.matches' ↔
      ∃ k, ∃ op ∈ sumOps, ts = [k] ∧ k.kind = op.kind := by
  rw [Grammar.sumSign, matches'_add, mem_add, mem_char, mem_char]
  simp [sumOps, Operator.kind, exists_or]

theorem exists_sumOf_iff (ts : List Token) :
    (∃ e, SumOf ts e) ↔ ts.map Token.kind ∈ Grammar.sum.matches' :=
  exists_folded_iff mem_sumSign
    (exists_folded_iff mem_productSign fun _ => exists_valueOf_iff) ts

theorem exists_itemOf_iff (ts : List Token) :
    (∃ i, ItemOf ts i) ↔
      ts.map Token.kind ∈ (Grammar.declaration + Grammar.statement).matches' := by
  rw [matches'_add, mem_add, Grammar.declaration, Grammar.statement, matches'_add, mem_add,
    mem_char_then, mem_char_then, mem_then]
  constructor
  · rintro ⟨i, hi⟩
    cases hi with
    | @declare d t n s ht hn hs =>
      refine .inl ⟨[t], [n, s], rfl, ?_, mem_char_then.mpr ⟨n, [s], rfl, hn, ?_⟩⟩
      · cases d with
        | int => exact .inl (mem_char.mpr ⟨t, rfl, ht⟩)
        | float => exact .inr (mem_char.mpr ⟨t, rfl, ht⟩)
      · exact mem_char.mpr ⟨s, rfl, hs⟩
    | @assign n a s ts e hn ha he hs =>
      refine .inr (.inl ⟨n, a :: (ts ++ [s]), rfl, hn, mem_char_then.mpr ⟨a, _, rfl, ha, ?_⟩⟩)
      exact mem_then.mpr
        ⟨ts, [s], rfl, (exists_sumOf_iff ts).mp ⟨e, he⟩, mem_char.mpr ⟨s, rfl, hs⟩⟩
    | @print t n s ht hn hs =>
      refine .inr (.inr ⟨t, [n, s], rfl, ht, mem_char_then.mpr ⟨n, [s], rfl, hn, ?_⟩⟩)
      exact mem_char.mpr ⟨s, rfl, hs⟩
  · rintro (⟨us, vs, rfl, hu, hv⟩ | ⟨n, vs, rfl, hn, hv⟩ | ⟨t, vs, rfl, ht, hv⟩)
    · obtain ⟨n, ss, rfl, hn, hss⟩ := mem_char_then.mp hv
      obtain ⟨s, rfl, hs⟩ := mem_char.mp hss
      rcases hu with hu | hu
      · obtain ⟨t, rfl, ht⟩ := mem_char.mp hu
        exact ⟨_, .declare (d := .int) ht hn hs⟩
      · obtain ⟨t, rfl, ht⟩ := mem_char.mp hu
        exact ⟨_, .declare (d := .float) ht hn hs⟩
    · obtain ⟨a, ws, rfl, ha, hw⟩ := mem_char_then.mp hv
      obtain ⟨us, ss, rfl, hu, hss⟩ := mem_then.mp hw
      obtain ⟨s, rfl, hs⟩ := mem_char.mp hss
      obtain ⟨e, he⟩ := (exists_sumOf_iff us).mpr hu
      exact ⟨_, .assign hn ha he hs⟩
    · obtain ⟨n, ss, rfl, hn, hss⟩ := mem_char_then.mp hv
      obtain ⟨s, rfl, hs⟩ := mem_char.mp hss
      exact ⟨_, .print ht hn hs⟩

theorem exists_itemsOf_iff_star {ts : List Token} :
    (∃ is, ItemsOf ts is) ↔
      ts.map Token.kind ∈ (Grammar.declaration + Grammar.statement).star.matches' := by
  rw [mem_star]
  constructor
  · rintro ⟨is, h⟩
    induction h with
    | nil => exact ⟨[], rfl, fun _ h => nomatch h⟩
    | @cons ts us i is hi _ ih =>
      obtain ⟨tss, rfl, ht⟩ := ih
      exact ⟨ts :: tss, rfl, List.forall_mem_cons.mpr ⟨(exists_itemOf_iff ts).mp ⟨i, hi⟩, ht⟩⟩
  · rintro ⟨tss, rfl, ht⟩
    induction tss with
    | nil => exact ⟨[], .nil⟩
    | cons us tss ih =>
      obtain ⟨hu, hrest⟩ := List.forall_mem_cons.mp ht
      obtain ⟨i, hi⟩ := (exists_itemOf_iff us).mpr hu
      obtain ⟨is, his⟩ := ih hrest
      exact ⟨i :: is, .cons hi his⟩

/-- **The grammar's sentences are the rows with trees.** -/
theorem exists_itemsOf_iff {ts : List Token} {last : Token} (hl : last.kind = .endOfText) :
    (∃ is, ItemsOf ts is) ↔ Sentence ((ts ++ [last]).map Token.kind) := by
  rw [exists_itemsOf_iff_star, Sentence, Grammar.program, mem_then]
  constructor
  · intro h
    exact ⟨ts, [last], rfl, h, mem_char.mpr ⟨last, rfl, hl⟩⟩
  · rintro ⟨us, vs, e, hu, hv⟩
    obtain ⟨v, rfl, _⟩ := mem_char.mp hv
    obtain ⟨rfl, _⟩ := List.append_inj' e rfl
    exact hu

example : Sentence [.name, .assign, .integer, .plus, .name, .semicolon, .endOfText] ∧
    ¬ Sentence [.name, .assign, .integer, .plus, .times, .name, .semicolon, .endOfText] := by
  decide

end Language
end DeskCalc
