import DeskCalc.Proofs.Uses
import Mathlib.Data.List.DropRight

/-!
# Symbol tables over time

A table begins empty.  It is emptied again, names are entered, and what an entry says of its name
is changed through a handle: in any order and any number, with handles that were given out before
the table was emptied or by another table.  Whatever came before, the table is a row of entries
with one entry for a name, in the order in which the names came (`names_after`), and a name has
the handle under which it is found (`handle?_eq_some_iff`).

A table of entries alone is searched from the front.  It can be kept with an index from names to
handles beside it, so that there are two records of the same names.  One step of a history changes
both alike (`Indexed.Agrees.perform`), so no history tells the two tables apart.

* `Change`, `Step`, `perform`, `after`   one step of a history, and the table behind a row of steps;
* `entered`                              the entries asked for since the table was emptied last;
* `Coherent`, `Enters`, `Changes`        what holds of the table, of a new entry and of a change;
* `Indexed`                              entries with an index.
-/

namespace DeskCalc
namespace SymbolTable

/-! ## Steps -/

/-- a change of what an entry says of its name -/
structure Change where
  apply : Symbol → Symbol
  keeps : ∀ s, (apply s).name = s.name

def Change.register (r : Option Char) : Change where
  apply s := { s with register := r }
  keeps _ := rfl

def Change.type (type : NumType) : Change where
  apply s := { s with type := type }
  keeps _ := rfl

inductive Step
  | init
  | enter (s : Symbol)
  | change (h : Handle) (c : Change)

def perform (t : SymbolTable) : Step → SymbolTable
  | .init => empty
  | .enter s => (t.enter s).2
  | .change h c => t.modify h c.apply

def after (steps : List Step) : SymbolTable := steps.foldl perform empty

@[simp] theorem perform_register (t : SymbolTable) (h : Handle) (r : Option Char) :
    t.perform (.change h (.register r)) = t.setRegister h r := rfl

@[simp] theorem perform_type (t : SymbolTable) (h : Handle) (type : NumType) :
    t.perform (.change h (.type type)) = t.setType h type := rfl

theorem after_append (steps more : List Step) :
    after (steps ++ more) = more.foldl perform (after steps) := List.foldl_append

theorem after_snoc (steps : List Step) (s : Step) :
    after (steps ++ [s]) = (after steps).perform s := after_append steps [s]

namespace Step

def isInit : Step → Bool
  | init => true
  | enter _ | change _ _ => false

def asked? : Step → Option Symbol
  | enter s => some s
  | init | change _ _ => none

end Step

/-- the entries that were asked for since the table was emptied last, in their order -/
def entered (steps : List Step) : List Symbol :=
  (steps.rtakeWhile fun s => !s.isInit).filterMap Step.asked?

theorem entered_snoc (steps : List Step) (s : Step) :
    entered (steps ++ [s]) = if s.isInit then [] else entered steps ++ s.asked?.toList := by
  have hlast : [s].filterMap Step.asked? = s.asked?.toList := by
    cases s <;> rfl
  unfold entered
  rw [List.rtakeWhile_concat]
  cases h : s.isInit with
  | true => rfl
  | false =>
    rw [Bool.not_false, if_pos rfl, List.filterMap_append, hlast]
    rfl

/-! ## Names -/

theorem names_change (t : SymbolTable) (h : Handle) (c : Change) :
    (t.perform (.change h c)).names = t.names := names_modify t h c.keeps

theorem nodup_names_perform {t : SymbolTable} (hn : t.names.Nodup) (s : Step) :
    (t.perform s).names.Nodup := by
  cases s with
  | init => exact nodup_names_empty
  | enter s => exact nodup_names_enter hn s
  | change h c => rwa [names_change]

theorem nodup_names_after (steps : List Step) : (after steps).names.Nodup := by
  induction steps using List.reverseRecOn with
  | nil => exact nodup_names_empty
  | append_singleton steps s ih =>
    rw [after_snoc]
    exact nodup_names_perform ih s

theorem names_enter_congr {t u : SymbolTable} (h : t.names = u.names) (s : Symbol) :
    (t.enter s).2.names = (u.enter s).2.names := by
  by_cases hs : s.name ∈ t.names
  · rw [enter_of_mem hs, enter_of_mem (h ▸ hs)]
    exact h
  · rw [names_enter_of_not_mem hs, names_enter_of_not_mem (h ▸ hs), h]

/-- **The order of entry.**  A table lists the names that were asked for since it was emptied
last, each in the place where it came first. -/
theorem names_after (steps : List Step) :
    (after steps).names = ((entered steps).map Symbol.name).eraseDups := by
  rw [← names_enterAll]
  induction steps using List.reverseRecOn with
  | nil => rfl
  | append_singleton steps s ih =>
    rw [after_snoc, entered_snoc]
    cases s with
    | init => rfl
    | enter s =>
      show ((after steps).enter s).2.names = (empty.enterAll (entered steps ++ [s])).names
      rw [enterAll_append]
      exact names_enter_congr ih s
    | change h c =>
      show _ = (empty.enterAll (entered steps ++ [])).names
      rw [names_change, ih, List.append_nil]

/-! ## Handles -/

theorem handle?_eq_names (t : SymbolTable) (name : String) :
    t.handle? name = t.names.idxOf? name := by
  rw [names, List.idxOf?, List.findIdx?_map]
  rfl

theorem handle?_eq_some_iff {t : SymbolTable} (hn : t.names.Nodup) {name : String} {h : Handle} :
    t.handle? name = some h ↔ t.name? h = some name := by
  rw [handle?_eq_names, name?_eq_names, List.idxOf?_eq_some_iff, List.getElem?_eq_some_iff]
  constructor
  · rintro ⟨hlt, hname, -⟩
    exact ⟨hlt, hname⟩
  · rintro ⟨hlt, hname⟩
    refine ⟨hlt, hname, fun j hj hname' => ?_⟩
    have heq : j = h := (hn.getElem_inj_iff).mp (hname'.trans hname.symm)
    omega

/-- what names, handles and entries of a table have to do with each other -/
structure Coherent (t : SymbolTable) : Prop where
  nodup : t.names.Nodup
  handle_iff : ∀ name h, t.handle? name = some h ↔ t.name? h = some name
  entry_iff : ∀ h, (∃ s, t.entry? h = some s) ↔ h < t.size
  listed : t.entries.map some = (List.range t.size).map t.entry?
  found : ∀ name, (t.lookup? name).map Prod.snd = t.find? name

theorem coherent_of_nodup {t : SymbolTable} (hn : t.names.Nodup) : t.Coherent where
  nodup := hn
  handle_iff _ _ := handle?_eq_some_iff hn
  entry_iff h := by
    rw [size, entry?, ← Option.isSome_iff_exists]
    simp
  listed := by
    apply List.ext_getElem?
    intro i
    by_cases hi : i < t.entries.length
    · simp [size, entry?, hi]
    · simp [size, hi]
  found := t.find?_eq_map_lookup?

/-! ## One step -/

/-- the answer and the table `r` when `s` was to be entered in `t` -/
structure Enters (t : SymbolTable) (s : Symbol) (r : Option Handle × SymbolTable) : Prop where
  refused_iff : r.1 = none ↔ ∃ h, t.handle? s.name = some h
  unchanged : r.1 = none → r.2 = t
  handle : r.1 ≠ none → r.1 = some t.size
  found : r.1 ≠ none → r.2.lookup? s.name = some (t.size, s)
  others : ∀ name, name ≠ s.name → r.2.lookup? name = t.lookup? name
  kept : ∀ h, h ≠ t.size → entry? r.2 h = t.entry? h

/-- the table `r` when the entry of `h` in `t` was to be changed by `c` -/
structure Changes (t : SymbolTable) (h : Handle) (c : Change) (r : SymbolTable) : Prop where
  handles : ∀ name, r.handle? name = t.handle? name
  names : ∀ k, r.name? k = t.name? k
  changed : r.entry? h = (t.entry? h).map c.apply
  kept : ∀ k, k ≠ h → r.entry? k = t.entry? k
  outside : t.size ≤ h → r = t

theorem handle?_snoc {t : SymbolTable} {s : Symbol} (hs : s.name ∉ t.names) (name : String) :
    handle? ⟨t.entries ++ [s]⟩ name = if s.name = name then some t.size else t.handle? name := by
  rw [handle?, List.findIdx?_append]
  show (t.handle? name).or _ = _
  by_cases h : s.name = name
  · subst h
    rw [handle?_eq_none_iff.mpr hs]
    simp [size]
  · simp [h]

theorem entry?_snoc_of_ne {t : SymbolTable} {h : Handle} (hne : h ≠ t.size) (s : Symbol) :
    entry? ⟨t.entries ++ [s]⟩ h = t.entry? h := by
  show (t.entries ++ [s])[h]? = t.entries[h]?
  rw [List.getElem?_append]
  split
  next => rfl
  next hle =>
    have hlt : t.entries.length < h := Nat.lt_of_le_of_ne (Nat.le_of_not_lt hle) (Ne.symm hne)
    rw [List.getElem?_eq_none (Nat.le_of_lt hlt), List.getElem?_eq_none]
    simp only [List.length_singleton]
    omega

theorem handle?_lt_size {t : SymbolTable} {name : String} {h : Handle}
    (hh : t.handle? name = some h) : h < t.size := by
  obtain ⟨hlt, -⟩ := List.findIdx?_eq_some_iff_getElem.mp hh
  exact hlt

theorem lookup?_snoc {t : SymbolTable} {s : Symbol} (hs : s.name ∉ t.names) (name : String) :
    lookup? ⟨t.entries ++ [s]⟩ name =
      if s.name = name then some (t.size, s) else t.lookup? name := by
  rw [lookup?, handle?_snoc hs]
  by_cases h : s.name = name
  · simp [h, entry?, size]
  · rw [if_neg h, if_neg h, lookup?]
    cases hh : t.handle? name with
    | none => rfl
    | some k =>
      have hlt := handle?_lt_size hh
      rw [Option.bind_some, Option.bind_some, entry?_snoc_of_ne (Nat.ne_of_lt hlt)]

theorem enters_enter (t : SymbolTable) (s : Symbol) : t.Enters s (t.enter s) := by
  by_cases hs : s.name ∈ t.names
  · have hhandle : ∃ h, t.handle? s.name = some h :=
      Option.ne_none_iff_exists'.mp (mt handle?_eq_none_iff.mp (not_not.mpr hs))
    rw [enter_of_mem hs]
    exact ⟨⟨fun _ => hhandle, fun _ => rfl⟩, fun _ => rfl, fun h => absurd rfl h,
      fun h => absurd rfl h, fun _ _ => rfl, fun _ _ => rfl⟩
  · have hnone : t.handle? s.name = none := handle?_eq_none_iff.mpr hs
    rw [enter_of_not_mem hs]
    refine ⟨?_, nofun, fun _ => rfl, fun _ => ?_, fun name hne => ?_, fun h hne => ?_⟩
    · simp [hnone]
    · exact (lookup?_snoc hs s.name).trans (if_pos rfl)
    · exact (lookup?_snoc hs name).trans (if_neg (Ne.symm hne))
    · exact entry?_snoc_of_ne hne s

theorem changes_modify (t : SymbolTable) (h : Handle) (c : Change) :
    t.Changes h c (t.modify h c.apply) := by
  have hnames : (t.modify h c.apply).names = t.names := names_change t h c
  have hentry : ∀ k, entry? (t.modify h c.apply) k =
      (t.entry? k).map fun s => if h = k then c.apply s else s := by
    intro k
    exact List.getElem?_modify c.apply h t.entries k
  refine ⟨fun name => ?_, fun k => ?_, ?_, fun k hne => ?_, fun hle => ?_⟩
  · rw [handle?_eq_names, hnames, handle?_eq_names]
  · rw [name?_eq_names, hnames, name?_eq_names]
  · rw [hentry]
    simp
  · rw [hentry]
    simp [Ne.symm hne]
  · exact congrArg SymbolTable.mk (List.modify_eq_self hle)

/-- A name keeps its handle as long as the table is not emptied. -/
theorem name?_perform {t : SymbolTable} {s : Step} (hs : s ≠ .init) {h : Handle} {name : String}
    (hh : t.name? h = some name) : (t.perform s).name? h = some name := by
  cases s with
  | init => exact absurd rfl hs
  | enter s =>
    have hlt : h ≠ t.size := by
      rw [name?_eq_names] at hh
      obtain ⟨hlt, -⟩ := List.getElem?_eq_some_iff.mp hh
      rw [names, List.length_map] at hlt
      exact Nat.ne_of_lt hlt
    exact (congrArg (Option.map Symbol.name) ((enters_enter t s).kept h hlt)).trans hh
  | change k c =>
    rw [name?_eq_names, names_change, ← name?_eq_names]
    exact hh

theorem name?_after {steps more : List Step} (hmore : ∀ s ∈ more, s ≠ .init) {h : Handle}
    {name : String} (hh : (after steps).name? h = some name) :
    (after (steps ++ more)).name? h = some name := by
  induction more using List.reverseRecOn with
  | nil => rwa [List.append_nil]
  | append_singleton more s ih =>
    obtain ⟨hrest, hs⟩ := List.forall_mem_append.mp hmore
    rw [← List.append_assoc, after_snoc]
    exact name?_perform (hs s List.mem_cons_self) (ih hrest)

/-! ## With an index -/

/-- entries, and beside them the handles of their names -/
structure Indexed where
  entries : Array Symbol := #[]
  index : Std.HashMap String Handle := ∅

namespace Indexed

/-- a name is known if the index has it -/
def enter (x : Indexed) (s : Symbol) : Option Handle × Indexed :=
  if x.index.contains s.name then (none, x)
  else (some x.entries.size, ⟨x.entries.push s, x.index.insert s.name x.entries.size⟩)

def perform (x : Indexed) : Step → Indexed
  | .init => {}
  | .enter s => (x.enter s).2
  | .change h c => { x with entries := x.entries.modify h c.apply }

def after (steps : List Step) : Indexed := steps.foldl perform {}

/-- both tables have the same entries, and the index finds the names where a search finds them -/
structure Agrees (x : Indexed) (t : SymbolTable) : Prop where
  entries : x.entries.toList = t.entries
  index : ∀ name : String, x.index[name]? = t.handle? name

theorem agrees_empty : Agrees {} empty := ⟨rfl, fun _ => Std.HashMap.getElem?_empty⟩

theorem Agrees.size {x : Indexed} {t : SymbolTable} (h : x.Agrees t) : x.entries.size = t.size := by
  rw [← Array.length_toList, h.entries]
  rfl

theorem Agrees.enter {x : Indexed} {t : SymbolTable} (h : x.Agrees t) (s : Symbol) :
    (x.enter s).1 = (t.enter s).1 ∧ (x.enter s).2.Agrees (t.enter s).2 := by
  have hknown : x.index.contains s.name = (t.handle? s.name).isSome := by
    rw [Std.HashMap.contains_eq_isSome_getElem?, h.index]
  unfold Indexed.enter
  rw [hknown]
  by_cases hs : s.name ∈ t.names
  · have hsome : (t.handle? s.name).isSome = true :=
      Option.isSome_iff_ne_none.mpr (mt handle?_eq_none_iff.mp (not_not.mpr hs))
    rw [if_pos hsome, enter_of_mem hs]
    exact ⟨rfl, h⟩
  · rw [handle?_eq_none_iff.mpr hs, enter_of_not_mem hs]
    refine ⟨congrArg some h.size, ?_, fun name => ?_⟩
    · show (x.entries.push s).toList = t.entries ++ [s]
      rw [Array.toList_push, h.entries]
    · show (x.index.insert s.name x.entries.size)[name]? = handle? ⟨t.entries ++ [s]⟩ name
      rw [Std.HashMap.getElem?_insert, handle?_snoc hs, h.index, h.size]
      simp only [beq_iff_eq]

/-- **One step** changes a table and its index alike. -/
theorem Agrees.perform {x : Indexed} {t : SymbolTable} (h : x.Agrees t) (s : Step) :
    (x.perform s).Agrees (t.perform s) := by
  cases s with
  | init => exact agrees_empty
  | enter s => exact (h.enter s).2
  | change k c =>
    refine ⟨?_, fun name => ?_⟩
    · show (x.entries.modify k c.apply).toList = t.entries.modify k c.apply
      rw [Array.toList_modify, h.entries]
    · exact (h.index name).trans ((changes_modify t k c).handles name).symm

theorem agrees_after (steps : List Step) : (after steps).Agrees (SymbolTable.after steps) := by
  induction steps using List.reverseRecOn with
  | nil => exact agrees_empty
  | append_singleton steps s ih =>
    rw [after_snoc, after, List.foldl_append]
    exact ih.perform s

end Indexed

/-! ## All steps -/

/-- **A row of entries without repetition.**  Behind every history names and handles belong
together, the names stand in the order in which they came, and an entry and a change do what they
should and nothing else.  A handle names its entry until the table is emptied.  A table with an
index answers alike. -/
theorem coherent_after (steps : List Step) :
    (after steps).Coherent ∧
    (after steps).names = ((entered steps).map Symbol.name).eraseDups ∧
    (∀ s, (after steps).Enters s ((after steps).enter s)) ∧
    (∀ h c, (after steps).Changes h c ((after steps).modify h c.apply)) ∧
    (∀ more, (∀ s ∈ more, s ≠ .init) → ∀ h name, (after steps).name? h = some name →
      (after (steps ++ more)).name? h = some name) ∧
    (Indexed.after steps).Agrees (after steps) ∧
    ∀ s, ((Indexed.after steps).enter s).1 = ((after steps).enter s).1 := by
  have hagrees := Indexed.agrees_after steps
  exact ⟨coherent_of_nodup (nodup_names_after steps), names_after steps, enters_enter _,
    changes_modify _, fun _ hmore _ _ => name?_after hmore, hagrees, fun s => (hagrees.enter s).1⟩

/-- `a` before the table is emptied, and then `b`, `a`, and `b` a second time -/
def reentries : List Step :=
  [.enter { name := "a", type := .int }, .init, .enter { name := "b", type := .float },
    .enter { name := "a", type := .float }, .enter { name := "b", type := .int }]

/-- The second `b` is refused, and `a` has the handle that came second.  It keeps it when a
type is changed and another name is entered; a handle that was never given out changes nothing. -/
theorem coherent_after_reentries :
    (after reentries).names = ["b", "a"] ∧
      (after reentries).handle? "a" = some 1 ∧
      ((after reentries).enter { name := "b", type := .int }).1 = none ∧
      (after reentries).setRegister 2 (some 'q') = after reentries ∧
      (((after reentries).setType 1 .int).enter { name := "c", type := .int }).2.name? 1 =
        some "a" ∧
      (Indexed.after reentries).index["a"]? = some 1 := by
  obtain ⟨hcoherent, hnames, henter, hchange, hkeep, hagrees, -⟩ := coherent_after reentries
  have hlist : (after reentries).names = ["b", "a"] := hnames.trans (by decide)
  have hname : (after reentries).name? 1 = some "a" := by
    rw [name?_eq_names, hlist]
    rfl
  have hhandle : (after reentries).handle? "a" = some 1 := (hcoherent.handle_iff "a" 1).mpr hname
  have hb : (after reentries).handle? "b" = some 0 := by
    refine (hcoherent.handle_iff "b" 0).mpr ?_
    rw [name?_eq_names, hlist]
    rfl
  refine ⟨hlist, hhandle, (henter _).refused_iff.mpr ⟨0, hb⟩, ?_, ?_, ?_⟩
  · rw [← perform_register]
    exact (hchange 2 (.register (some 'q'))).outside (by decide)
  · have hmore := hkeep [.change 1 (.type .int), .enter { name := "c", type := .int }] (by simp)
      1 "a" hname
    rwa [after_append, List.foldl_cons, perform_type] at hmore
  · rw [hagrees.index, hhandle]

end SymbolTable
end DeskCalc
