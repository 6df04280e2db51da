import DeskCalc.Proofs.Grammar

/-!
# The shape of parsed trees

What a tree keeps of its tokens is their kinds and spellings, and the places of names, literals and
keywords; read from left to right it gives them back (`Program.flatten`).  A parsed tree has no marks
of a check, and its operators are grouped by rank and from the left (`Built`).  The other way round,
whatever tree has that shape is the tree of every row of tokens with its kinds and spellings, up to
the places (`exists_itemsOf_of_words`).

* `Trace`                             what a tree keeps of a token;
* `Unchecked`, `LeftAssociative`      no marks and no conversions; the grouping of operators;
* `unplaced`                          a tree with all its places forgotten.
-/

namespace DeskCalc

/-! ## Traces -/

/-- what a tree keeps of a token -/
structure Trace where
  kind : Token.Kind
  value : Option String
  pos : Option Position
deriving DecidableEq

namespace Token

/-- names and literals, which have a spelling of their own -/
def Kind.isSpelled : Kind → Bool
  | name | integer | decimal => true
  | _ => false

/-- names, literals and keywords, whose places a tree keeps -/
def Kind.isPlaced : Kind → Bool
  | intType | floatType | print | name | integer | decimal => true
  | _ => false

/-- the token has a spelling exactly if its kind wants one -/
def Proper (t : Token) : Prop := t.value.isSome = t.kind.isSpelled

def trace (t : Token) : Trace := ⟨t.kind, t.value, if t.kind.isPlaced then some t.pos else none⟩

def word (t : Token) : Kind × Option String := (t.kind, t.value)

end Token

namespace Trace

def sign (k : Token.Kind) : Trace := ⟨k, none, none⟩

def word (t : Trace) : Token.Kind × Option String := (t.kind, t.value)

end Trace

def NumType.literal : NumType → Token.Kind
  | int => .integer
  | float => .decimal

def Identifier.trace (id : Identifier) : Trace := ⟨.name, some id.name, some id.pos⟩

def Expr.flatten : Expr → List Trace
  | const value declared _ p => [⟨declared.literal, some value, some p⟩]
  | deref id _ _ => [id.trace]
  | binary op left right _ _ => left.flatten ++ .sign op.kind :: right.flatten
  | convert inner _ _ => inner.flatten

def Item.flatten : Item → List Trace
  | declare declared id _ p => [⟨declared.keyword, none, some p⟩, id.trace, .sign .semicolon]
  | assign target value _ _ =>
    target.trace :: .sign .assign :: (value.flatten ++ [.sign .semicolon])
  | print id _ p => [⟨.print, none, some p⟩, id.trace, .sign .semicolon]

/-- the tokens of a program from left to right, with the end -/
def Program.flatten (p : Program) : List Trace :=
  p.items.flatMap Item.flatten ++ [.sign .endOfText]

/-! ## Marks and grouping -/

def Identifier.Unchecked (id : Identifier) : Prop := id.type = none ∧ id.symbol = none

namespace Expr

/-- no mark of a check, and no conversion -/
def Unchecked : Expr → Prop
  | const _ _ t _ => t = none
  | deref id t _ => id.Unchecked ∧ t = none
  | binary _ left right t _ => left.Unchecked ∧ right.Unchecked ∧ t = none
  | convert .. => False

/-- the topmost node is a sum or a difference -/
def IsSum : Expr → Prop
  | binary op _ _ _ _ => op ∈ sumOps
  | _ => False

def IsLeaf : Expr → Prop
  | const .. | deref .. => True
  | _ => False

/-- products before sums, and both from the left: no sum stands on the right of a sum, nor on the
left of a product, and on the right of a product stands a leaf -/
def LeftAssociative : Expr → Prop
  | const .. | deref .. => True
  | binary op left right _ _ =>
    (op ∈ sumOps → ¬ right.IsSum) ∧ (op ∈ productOps → ¬ left.IsSum ∧ right.IsLeaf) ∧
      left.LeftAssociative ∧ right.LeftAssociative
  | convert inner _ _ => inner.LeftAssociative

end Expr

namespace Item

def Unchecked : Item → Prop
  | declare _ id t _ | print id t _ => id.Unchecked ∧ t = none
  | assign target value t _ => target.Unchecked ∧ value.Unchecked ∧ t = none

def LeftAssociative : Item → Prop
  | assign _ value _ _ => value.LeftAssociative
  | _ => True

end Item

namespace Program

def Unchecked (p : Program) : Prop := p.type = none ∧ ∀ i ∈ p.items, i.Unchecked

def LeftAssociative (p : Program) : Prop := ∀ i ∈ p.items, i.LeftAssociative

end Program

/-! ## What a parsed tree looks like -/

section Proper
variable {t : Token}

theorem Token.Proper.value_eq_some (h : t.Proper) (hk : t.kind.isSpelled = true) :
    t.value = some t.text := by
  have hs : t.value.isSome = true := h.trans hk
  obtain ⟨v, hv⟩ := Option.isSome_iff_exists.mp hs
  rw [Token.text, hv, Option.getD_some]

theorem Token.Proper.value_eq_none (h : t.Proper) (hk : t.kind.isSpelled = false) :
    t.value = none := by
  have hs : t.value.isSome = false := h.trans hk
  exact Option.isNone_iff_eq_none.mp (Option.isSome_eq_false_iff.mp hs)

theorem Token.Proper.trace_name (h : t.Proper) (hk : t.kind = .name) :
    t.trace = t.identifier.trace := by
  have hv := h.value_eq_some (by rw [hk]; rfl)
  rw [trace, hk, hv]
  rfl

theorem Token.Proper.trace_sign (h : t.Proper) {k : Kind} (hk : t.kind = k)
    (hs : k.isSpelled = false) (hp : k.isPlaced = false) : t.trace = .sign k := by
  have hv := h.value_eq_none (by rw [hk]; exact hs)
  rw [trace, hk, hv, hp]
  rfl

theorem Token.Proper.trace_keyword (h : t.Proper) {k : Kind} (hk : t.kind = k)
    (hs : k.isSpelled = false) (hp : k.isPlaced = true) : t.trace = ⟨k, none, some t.pos⟩ := by
  have hv := h.value_eq_none (by rw [hk]; exact hs)
  rw [trace, hk, hv, hp]
  rfl

end Proper

/-- the expression is unchecked, well grouped and flattens to the row -/
structure Built (ts : List Token) (e : Expr) : Prop where
  flatten : e.flatten = ts.map Token.trace
  unchecked : e.Unchecked
  leftAssociative : e.LeftAssociative

theorem built_of_valueOf {ts : List Token} {e : Expr} (hp : ∀ t ∈ ts, t.Proper)
    (h : ValueOf ts e) : Built ts e ∧ e.IsLeaf := by
  obtain ⟨t, rfl, he⟩ := h
  have ht : t.Proper := hp t List.mem_cons_self
  unfold Token.operand? at he
  split at he
  next hk =>
    obtain rfl := Option.some.inj he
    have hv := ht.value_eq_some (by rw [hk]; rfl)
    have htrace : t.trace = ⟨.integer, some t.text, some t.pos⟩ := by rw [Token.trace, hk, hv]; rfl
    exact ⟨⟨congrArg (fun x => [x]) htrace.symm, rfl, trivial⟩, trivial⟩
  next hk =>
    obtain rfl := Option.some.inj he
    have hv := ht.value_eq_some (by rw [hk]; rfl)
    have htrace : t.trace = ⟨.decimal, some t.text, some t.pos⟩ := by rw [Token.trace, hk, hv]; rfl
    exact ⟨⟨congrArg (fun x => [x]) htrace.symm, rfl, trivial⟩, trivial⟩
  next hk =>
    obtain rfl := Option.some.inj he
    exact ⟨⟨congrArg (fun x => [x]) (ht.trace_name hk).symm, ⟨⟨rfl, rfl⟩, rfl⟩, trivial⟩, trivial⟩
  next => cases he

theorem Built.apply {ts us : List Token} {k : Token} {op : Operator} {l r : Expr}
    (hl : Built ts l) (hr : Built us r) (hk : k.kind = op.kind) (hp : k.Proper)
    (hsum : op ∈ sumOps → ¬ r.IsSum) (hprod : op ∈ productOps → ¬ l.IsSum ∧ r.IsLeaf) :
    Built (ts ++ k :: us) (.apply op l r) := by
  have htrace : k.trace = .sign op.kind := by
    cases op <;> exact hp.trace_sign hk rfl rfl
  refine ⟨?_, ⟨hl.unchecked, hr.unchecked, rfl⟩,
    ⟨hsum, hprod, hl.leftAssociative, hr.leftAssociative⟩⟩
  show l.flatten ++ .sign op.kind :: r.flatten = _
  rw [hl.flatten, hr.flatten, List.map_append, List.map_cons, htrace]

theorem Expr.not_isSum_of_isLeaf {e : Expr} (h : e.IsLeaf) : ¬ e.IsSum := by
  cases e with
  | const | deref => exact id
  | binary | convert => exact absurd h id

theorem built_of_termOf {ts : List Token} {e : Expr} (hp : ∀ t ∈ ts, t.Proper)
    (h : TermOf ts e) : Built ts e ∧ ¬ e.IsSum := by
  induction h with
  | one h =>
    obtain ⟨hb, hleaf⟩ := built_of_valueOf hp h
    exact ⟨hb, Expr.not_isSum_of_isLeaf hleaf⟩
  | @more ts us k op l r _ hop hk hr ih =>
    rw [List.forall_mem_append, List.forall_mem_cons] at hp
    obtain ⟨hpl, hpk, hpr⟩ := hp
    obtain ⟨hl, hnl⟩ := ih hpl
    obtain ⟨hr, hleaf⟩ := built_of_valueOf hpr hr
    have hns : op ∉ sumOps := by
      rcases List.mem_pair.mp hop with rfl | rfl <;> decide
    exact ⟨hl.apply hr hk hpk (fun hs => absurd hs hns) fun _ => ⟨hnl, hleaf⟩, hns⟩

theorem built_of_sumOf {ts : List Token} {e : Expr} (hp : ∀ t ∈ ts, t.Proper)
    (h : SumOf ts e) : Built ts e := by
  induction h with
  | one h => exact (built_of_termOf hp h).1
  | @more ts us k op l r _ hop hk hr ih =>
    rw [List.forall_mem_append, List.forall_mem_cons] at hp
    obtain ⟨hpl, hpk, hpr⟩ := hp
    obtain ⟨hr, hnr⟩ := built_of_termOf hpr hr
    have hnp : op ∉ productOps := by
      rcases List.mem_pair.mp hop with rfl | rfl <;> decide
    exact (ih hpl).apply hr hk hpk (fun _ => hnr) fun hs => absurd hs hnp

theorem shape_of_itemOf {ts : List Token} {i : Item} (hp : ∀ t ∈ ts, t.Proper)
    (h : ItemOf ts i) : i.flatten = ts.map Token.trace ∧ i.Unchecked ∧ i.LeftAssociative := by
  cases h with
  | @declare d t n s ht hn hs =>
    rw [List.forall_mem_cons, List.forall_mem_cons, List.forall_mem_singleton] at hp
    have hkey : t.trace = ⟨d.keyword, none, some t.pos⟩ := by
      cases d <;> exact hp.1.trace_keyword ht rfl rfl
    refine ⟨?_, ⟨⟨rfl, rfl⟩, rfl⟩, trivial⟩
    rw [List.map_cons, List.map_cons, List.map_singleton, hkey, hp.2.1.trace_name hn,
      hp.2.2.trace_sign hs rfl rfl]
    rfl
  | @assign n a s ts e hn ha he hs =>
    rw [List.forall_mem_cons, List.forall_mem_cons, List.forall_mem_append,
      List.forall_mem_singleton] at hp
    obtain ⟨hpn, hpa, hpe, hps⟩ := hp
    have hb := built_of_sumOf hpe he
    refine ⟨?_, ⟨⟨rfl, rfl⟩, hb.unchecked, rfl⟩, hb.leftAssociative⟩
    rw [List.map_cons, List.map_cons, List.map_append, List.map_singleton, ← hb.flatten,
      hpn.trace_name hn, hpa.trace_sign ha rfl rfl, hps.trace_sign hs rfl rfl]
    rfl
  | @print t n s ht hn hs =>
    rw [List.forall_mem_cons, List.forall_mem_cons, List.forall_mem_singleton] at hp
    refine ⟨?_, ⟨⟨rfl, rfl⟩, rfl⟩, trivial⟩
    rw [List.map_cons, List.map_cons, List.map_singleton, hp.1.trace_keyword ht rfl rfl,
      hp.2.1.trace_name hn, hp.2.2.trace_sign hs rfl rfl]
    rfl

/-- **What is parsed flattens to its tokens**, has no marks, and is grouped by rank and from the
left. -/
theorem shape_of_itemsOf {ts : List Token} {is : List Item} (hp : ∀ t ∈ ts, t.Proper)
    (h : ItemsOf ts is) :
    is.flatMap Item.flatten = ts.map Token.trace ∧
      ∀ i ∈ is, i.Unchecked ∧ i.LeftAssociative := by
  induction h with
  | nil => exact ⟨rfl, fun _ h => nomatch h⟩
  | @cons ts us i is hi _ ih =>
    rw [List.forall_mem_append] at hp
    obtain ⟨hflat, hu, ha⟩ := shape_of_itemOf hp.1 hi
    obtain ⟨hrest, hall⟩ := ih hp.2
    refine ⟨?_, List.forall_mem_cons.mpr ⟨⟨hu, ha⟩, hall⟩⟩
    rw [List.flatMap_cons, hflat, hrest, List.map_append]

/-! ## Up to places -/

def Identifier.unplaced (id : Identifier) : Identifier := { id with pos := .start }

def Expr.unplaced : Expr → Expr
  | const value declared t _ => const value declared t .start
  | deref id t _ => deref id.unplaced t .start
  | binary op left right t _ => binary op left.unplaced right.unplaced t .start
  | convert inner t _ => convert inner.unplaced t .start

def Item.unplaced : Item → Item
  | declare declared id t _ => declare declared id.unplaced t .start
  | assign target value t _ => assign target.unplaced value.unplaced t .start
  | print id t _ => print id.unplaced t .start

def Program.unplaced (p : Program) : Program := { p with items := p.items.map Item.unplaced }

/-! ## Every tree of that shape is parsed -/

theorem unplaced_identifier {t : Token} {id : Identifier} (hu : id.Unchecked)
    (h : t.word = id.trace.word) : t.kind = .name ∧ t.identifier.unplaced = id.unplaced := by
  obtain ⟨hk, hv⟩ := Prod.mk.inj h
  obtain ⟨name, type, symbol, pos⟩ := id
  obtain ⟨rfl, rfl⟩ : type = none ∧ symbol = none := hu
  refine ⟨hk, ?_⟩
  rw [Token.identifier, Token.text, hv]
  rfl

/-- the row is a `part` that is `e` up to places -/
def Reading (part : List Token → Expr → Prop) (ts : List Token) (e : Expr) : Prop :=
  ∃ f, part ts f ∧ f.unplaced = e.unplaced

theorem Reading.one {ops : List Operator} {part : List Token → Expr → Prop} {ts : List Token}
    {e : Expr} (h : Reading part ts e) : Reading (Folded ops part) ts e := by
  obtain ⟨f, hf, hu⟩ := h
  exact ⟨f, .one hf, hu⟩

theorem Reading.more {ops : List Operator} {part : List Token → Expr → Prop} {ts us : List Token}
    {k : Token} {op : Operator} {l r : Expr} (hl : Reading (Folded ops part) ts l)
    (hr : Reading part us r) (hop : op ∈ ops) (hk : k.kind = op.kind) (p : Position) :
    Reading (Folded ops part) (ts ++ k :: us) (.binary op l r none p) := by
  obtain ⟨l', hl', hul⟩ := hl
  obtain ⟨r', hr', hur⟩ := hr
  refine ⟨.apply op l' r', .more hl' hop hk hr', ?_⟩
  show Expr.binary op l'.unplaced r'.unplaced none .start = _
  rw [hul, hur]
  rfl

theorem valueOf_of_words {e : Expr} (hu : e.Unchecked) (hleaf : e.IsLeaf) {ts : List Token}
    (h : ts.map Token.word = e.flatten.map Trace.word) : Reading ValueOf ts e := by
  cases e with
  | const value declared type pos =>
    obtain rfl : type = none := hu
    obtain ⟨t, rfl, ht⟩ := List.map_eq_singleton_iff.mp h
    obtain ⟨hk, hv⟩ := Prod.mk.inj ht
    have hop : t.operand? = some (.literal value declared t.pos) := by
      cases declared
      all_goals
        rw [Token.operand?, hk, Token.text, hv]
        rfl
    exact ⟨_, ⟨t, rfl, hop⟩, rfl⟩
  | deref id type pos =>
    obtain ⟨hid, rfl⟩ := hu
    obtain ⟨t, rfl, ht⟩ := List.map_eq_singleton_iff.mp h
    obtain ⟨hk, hi⟩ := unplaced_identifier hid ht
    have hop : t.operand? = some (.read t.identifier) := by rw [Token.operand?, hk]
    refine ⟨_, ⟨t, rfl, hop⟩, ?_⟩
    show Expr.deref t.identifier.unplaced none .start = _
    rw [hi]
    rfl
  | binary | convert => exact absurd hleaf id

/-- An expression is read back as a sum, and as a term if it is none. -/
theorem sumOf_of_words {e : Expr} (hu : e.Unchecked) (ha : e.LeftAssociative) {ts : List Token}
    (h : ts.map Token.word = e.flatten.map Trace.word) :
    Reading SumOf ts e ∧ (¬ e.IsSum → Reading TermOf ts e) := by
  induction e generalizing ts with
  | const | deref =>
    have hv := valueOf_of_words hu trivial h
    exact ⟨hv.one.one, fun _ => hv.one⟩
  | convert => exact absurd hu id
  | binary op l r type pos ihl ihr =>
    obtain ⟨hul, hur, rfl⟩ := hu
    obtain ⟨hsum, hprod, hal, har⟩ := ha
    rw [Expr.flatten, List.map_append, List.map_cons] at h
    obtain ⟨us, ws, rfl, hl, hw⟩ := List.map_eq_append_iff.mp h
    obtain ⟨k, vs, rfl, hk, hr⟩ := List.map_eq_cons_iff.mp hw
    replace hk : k.kind = op.kind := congrArg Prod.fst hk
    obtain ⟨hleft, hleft'⟩ := ihl hul hal hl
    by_cases hop : op ∈ sumOps
    · obtain ⟨-, hright⟩ := ihr hur har hr
      exact ⟨hleft.more (hright (hsum hop)) hop hk pos, fun hns => absurd hop hns⟩
    · have hop' : op ∈ productOps := by
        revert hop
        cases op <;> decide
      obtain ⟨hnl, hleaf⟩ := hprod hop'
      have hterm : Reading TermOf (us ++ k :: vs) (.binary op l r none pos) :=
        (hleft' hnl).more (valueOf_of_words hur hleaf hr) hop' hk pos
      exact ⟨hterm.one, fun _ => hterm⟩

theorem itemOf_of_words {i : Item} (hu : i.Unchecked) (ha : i.LeftAssociative) {ts : List Token}
    (h : ts.map Token.word = i.flatten.map Trace.word) :
    ∃ j, ItemOf ts j ∧ j.unplaced = i.unplaced := by
  cases i with
  | declare declared id type pos =>
    obtain ⟨hid, rfl⟩ := hu
    obtain ⟨t, us, rfl, ht, hus⟩ := List.map_eq_cons_iff.mp h
    obtain ⟨n, vs, rfl, hn, hvs⟩ := List.map_eq_cons_iff.mp hus
    obtain ⟨s, rfl, hs⟩ := List.map_eq_singleton_iff.mp hvs
    obtain ⟨hk, hi⟩ := unplaced_identifier hid hn
    refine ⟨_, .declare (congrArg Prod.fst ht) hk (congrArg Prod.fst hs), ?_⟩
    show Item.declare declared n.identifier.unplaced none .start = _
    rw [hi]
    rfl
  | assign target value type pos =>
    obtain ⟨hid, hv, rfl⟩ := hu
    obtain ⟨n, us, rfl, hn, hus⟩ := List.map_eq_cons_iff.mp h
    obtain ⟨a, vs, rfl, hassign, hvs⟩ := List.map_eq_cons_iff.mp hus
    rw [List.map_append] at hvs
    obtain ⟨ws, ss, rfl, hw, hss⟩ := List.map_eq_append_iff.mp hvs
    obtain ⟨s, rfl, hs⟩ := List.map_eq_singleton_iff.mp hss
    obtain ⟨hk, hi⟩ := unplaced_identifier hid hn
    obtain ⟨⟨e, he, hue⟩, -⟩ := sumOf_of_words hv ha hw
    refine ⟨_, .assign hk (congrArg Prod.fst hassign) he (congrArg Prod.fst hs), ?_⟩
    show Item.assign n.identifier.unplaced e.unplaced none .start = _
    rw [hi, hue]
    rfl
  | print id type pos =>
    obtain ⟨hid, rfl⟩ := hu
    obtain ⟨t, us, rfl, ht, hus⟩ := List.map_eq_cons_iff.mp h
    obtain ⟨n, vs, rfl, hn, hvs⟩ := List.map_eq_cons_iff.mp hus
    obtain ⟨s, rfl, hs⟩ := List.map_eq_singleton_iff.mp hvs
    obtain ⟨hk, hi⟩ := unplaced_identifier hid hn
    refine ⟨_, .print (congrArg Prod.fst ht) hk (congrArg Prod.fst hs), ?_⟩
    show Item.print n.identifier.unplaced none .start = _
    rw [hi]
    rfl

/-- **Every row of items of that shape is the tree of its own words.** -/
theorem itemsOf_of_words {is : List Item} (hu : ∀ i ∈ is, i.Unchecked)
    (ha : ∀ i ∈ is, i.LeftAssociative) {ts : List Token}
    (h : ts.map Token.word = (is.flatMap Item.flatten).map Trace.word) :
    ∃ js, ItemsOf ts js ∧ js.map Item.unplaced = is.map Item.unplaced := by
  induction is generalizing ts with
  | nil =>
    obtain rfl := List.map_eq_nil_iff.mp h
    exact ⟨[], .nil, rfl⟩
  | cons i is ih =>
    rw [List.forall_mem_cons] at hu ha
    rw [List.flatMap_cons, List.map_append] at h
    obtain ⟨us, vs, rfl, hus, hvs⟩ := List.map_eq_append_iff.mp h
    obtain ⟨j, hj, hji⟩ := itemOf_of_words hu.1 ha.1 hus
    obtain ⟨js, hjs, hjsi⟩ := ih hu.2 ha.2 hvs
    refine ⟨j :: js, .cons hj hjs, ?_⟩
    rw [List.map_cons, hji, hjsi, List.map_cons]

end DeskCalc
