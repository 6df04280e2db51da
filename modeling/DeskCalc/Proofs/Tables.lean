import DeskCalc.SymbolTable
import Mathlib.Data.List.Induction
import Mathlib.Data.List.Nodup

/-!
# Symbol tables by name

A table is read by name in the checks and by handle in the code, and the two agree because no name
is entered twice.  Here a table is a function of names (`SymbolTable.find?`), and each operation is
said by what it does to that function.

* `find?`          the entry of a name; what `lookup?` finds is this entry (`find?_eq_map_lookup?`);
* `registerOf?`    the register of a name, and what `setRegister` does to it
                   (`registerOf?_setRegister`);
* `enterAll`       a row of entries, of which each is entered if its name is new: the names are the
                   old ones and the new ones without repetition (`names_enterAll`), and the entry
                   of a name is the first that came with it (`find?_enterAll`).
-/

namespace DeskCalc
namespace SymbolTable

def find? (t : SymbolTable) (name : String) : Option Symbol :=
  t.entries.find? fun s => s.name == name

theorem find?_nil (name : String) : find? ⟨[]⟩ name = none := rfl

theorem find?_cons (s : Symbol) (ss : List Symbol) (name : String) :
    find? ⟨s :: ss⟩ name = if s.name = name then some s else find? ⟨ss⟩ name := by
  show (s :: ss).find? (fun s => s.name == name) = _
  rw [List.find?_cons]
  by_cases e : s.name = name
  · rw [if_pos e, beq_iff_eq.mpr e]
  · rw [if_neg e, beq_eq_false_iff_ne.mpr e]
    rfl

theorem find?_append (ss us : List Symbol) (name : String) :
    find? ⟨ss ++ us⟩ name = (find? ⟨ss⟩ name).or (find? ⟨us⟩ name) := List.find?_append

theorem find?_eq_map_lookup? (t : SymbolTable) (name : String) :
    (t.lookup? name).map Prod.snd = t.find? name := by
  have e : t.find? name = (t.handle? name).bind t.entry? :=
    List.find?_eq_bind_findIdx?_getElem?
  rw [e, lookup?]
  cases t.handle? name with
  | none => rfl
  | some h =>
    show ((t.entry? h).map fun s => (h, s)).map Prod.snd = t.entry? h
    rw [Option.map_map]
    exact Option.map_id_fun' ▸ rfl

theorem find?_eq_none_iff {t : SymbolTable} {name : String} :
    t.find? name = none ↔ name ∉ t.names := by
  rw [find?, List.find?_eq_none, names, List.mem_map]
  constructor
  · rintro h ⟨s, hs, e⟩
    exact h s hs (beq_iff_eq.mpr e)
  · intro h s hs e
    exact h ⟨s, hs, beq_iff_eq.mp e⟩

theorem name_of_find? {t : SymbolTable} {name : String} {s : Symbol}
    (h : t.find? name = some s) : s.name = name := by
  have e := List.find?_some h
  exact beq_iff_eq.mp e

theorem find?_of_mem {t : SymbolTable} (hn : t.names.Nodup) {s : Symbol} (hs : s ∈ t.entries) :
    t.find? s.name = some s := by
  cases e : t.find? s.name with
  | none => exact absurd (List.mem_map_of_mem hs) (find?_eq_none_iff.mp e)
  | some s' =>
    have hs' : s' ∈ t.entries := List.mem_of_find?_eq_some e
    rw [List.inj_on_of_nodup_map hn hs' hs (name_of_find? e)]

/-! ## Registers -/

def registerOf? (t : SymbolTable) (name : String) : Option Char :=
  (t.find? name).bind Symbol.register

theorem names_modify (t : SymbolTable) (h : Handle) {f : Symbol → Symbol}
    (hf : ∀ s, (f s).name = s.name) : (t.modify h f).names = t.names := by
  apply List.ext_getElem?
  intro i
  show ((t.entries.modify h f).map Symbol.name)[i]? = (t.entries.map Symbol.name)[i]?
  rw [List.getElem?_map, List.getElem?_map, List.getElem?_modify]
  cases t.entries[i]? with
  | none => rfl
  | some s =>
    show some (Symbol.name (if h = i then f s else s)) = some s.name
    by_cases e : h = i
    · rw [if_pos e, hf]
    · rw [if_neg e]

theorem names_setRegister (t : SymbolTable) (h : Handle) (r : Option Char) :
    (t.setRegister h r).names = t.names := names_modify t h fun _ => rfl

/-- Noting a register under a handle changes the entry of the handle's name, and no other. -/
theorem find?_setRegister {t : SymbolTable} (hn : t.names.Nodup) {h : Handle} {s : Symbol}
    (hs : t.entry? h = some s) (r : Option Char) (name : String) :
    (t.setRegister h r).find? name =
      if s.name = name then some { s with register := r } else t.find? name := by
  obtain ⟨ss⟩ := t
  induction ss generalizing h with
  | nil => cases hs
  | cons x ss ih =>
    have hx : x.name ∉ ss.map Symbol.name ∧ (ss.map Symbol.name).Nodup := List.nodup_cons.mp hn
    cases h with
    | zero =>
      obtain rfl : x = s := Option.some.inj hs
      show find? ⟨{ x with register := r } :: ss⟩ name = _
      rw [find?_cons, find?_cons]
      by_cases e : x.name = name
      · rw [if_pos e, if_pos e]
      · rw [if_neg e, if_neg e, if_neg e]
    | succ h =>
      have hs' : entry? ⟨ss⟩ h = some s := hs
      have ih' : (setRegister ⟨ss⟩ h r).find? name = _ := ih hx.2 hs'
      show find? ⟨x :: (setRegister ⟨ss⟩ h r).entries⟩ name = _
      rw [find?_cons, find?_cons, ih']
      by_cases e : x.name = name
      · have hne : s.name ≠ name := fun e' =>
          hx.1 (e.trans e'.symm ▸ List.mem_map_of_mem (List.mem_of_getElem? hs'))
        rw [if_pos e, if_pos e, if_neg hne]
      · rw [if_neg e, if_neg e]

theorem registerOf?_setRegister {t : SymbolTable} (hn : t.names.Nodup) {h : Handle} {name : String}
    (hh : t.name? h = some name) (r : Option Char) (name' : String) :
    (t.setRegister h r).registerOf? name' = if name = name' then r else t.registerOf? name' := by
  obtain ⟨s, hs, rfl⟩ := Option.map_eq_some_iff.mp hh
  rw [registerOf?, find?_setRegister hn hs]
  by_cases hc : s.name = name'
  · rw [if_pos hc, if_pos hc]
    rfl
  · rw [if_neg hc, if_neg hc]
    rfl

theorem registerOf?_of_entry? {t : SymbolTable} (hn : t.names.Nodup) {h : Handle} {s : Symbol}
    (hs : t.entry? h = some s) : t.registerOf? s.name = s.register := by
  rw [registerOf?, find?_of_mem hn (List.mem_of_getElem? hs)]
  rfl

/-! ## Rows of entries -/

/-- a row of entries, each of them entered if its name is new -/
def enterAll (t : SymbolTable) (ss : List Symbol) : SymbolTable :=
  ss.foldl (fun t s => (t.enter s).2) t

theorem enterAll_nil (t : SymbolTable) : t.enterAll [] = t := rfl

theorem enterAll_cons (t : SymbolTable) (s : Symbol) (ss : List Symbol) :
    t.enterAll (s :: ss) = (t.enter s).2.enterAll ss := rfl

theorem enterAll_append (t : SymbolTable) (ss us : List Symbol) :
    t.enterAll (ss ++ us) = (t.enterAll ss).enterAll us := List.foldl_append

theorem names_enter_of_not_mem {t : SymbolTable} {s : Symbol} (h : s.name ∉ t.names) :
    (t.enter s).2.names = t.names ++ [s.name] := by
  rw [enter_of_not_mem h]
  show (t.entries ++ [s]).map Symbol.name = _
  rw [List.map_append]
  rfl

theorem nodup_names_empty : empty.names.Nodup := List.nodup_nil

theorem nodup_names_enter {t : SymbolTable} (hn : t.names.Nodup) (s : Symbol) :
    (t.enter s).2.names.Nodup := by
  by_cases h : s.name ∈ t.names
  · rw [enter_of_mem h]
    exact hn
  · rw [names_enter_of_not_mem h]
    exact List.nodup_append.mpr ⟨hn, List.nodup_singleton _, fun a ha b hb => by
      rw [List.mem_singleton.mp hb]
      exact fun e => h (e ▸ ha)⟩

theorem nodup_names_enterAll {t : SymbolTable} (hn : t.names.Nodup) (ss : List Symbol) :
    (t.enterAll ss).names.Nodup := by
  induction ss generalizing t with
  | nil => exact hn
  | cons s ss ih => exact ih (nodup_names_enter hn s)

theorem find?_enterAll (t : SymbolTable) (ss : List Symbol) (name : String) :
    (t.enterAll ss).find? name = (t.find? name).or (find? ⟨ss⟩ name) := by
  induction ss generalizing t with
  | nil => rw [enterAll_nil, find?_nil, Option.or_none]
  | cons s ss ih =>
    rw [enterAll_cons, ih, find?_cons]
    by_cases h : s.name ∈ t.names
    · rw [enter_of_mem h]
      by_cases e : s.name = name
      · cases hf : t.find? name with
        | none => exact absurd (e ▸ h) (find?_eq_none_iff.mp hf)
        | some _ => rfl
      · rw [if_neg e]
    · rw [enter_of_not_mem h]
      show (find? ⟨t.entries ++ [s]⟩ name).or _ = _
      rw [find?_append, find?_cons, Option.or_assoc]
      by_cases e : s.name = name
      · rw [if_pos e, if_pos e]
        rfl
      · rw [if_neg e, if_neg e]
        rfl

/-- The names of a row of entries, each in the place where it came first. -/
theorem names_enterAll (ss : List Symbol) :
    (empty.enterAll ss).names = (ss.map Symbol.name).eraseDups := by
  induction ss using List.reverseRecOn with
  | nil => rfl
  | append_singleton ss s ih =>
    rw [enterAll_append, List.map_append, List.eraseDups_append, ← ih]
    have hmem : s.name ∈ (empty.enterAll ss).names ↔ s.name ∈ ss.map Symbol.name := by
      rw [ih, List.mem_eraseDups]
    show ((empty.enterAll ss).enter s).2.names = _
    by_cases h : s.name ∈ (empty.enterAll ss).names
    · rw [enter_of_mem h]
      simp [List.removeAll, List.mem_map.mp (hmem.mp h)]
    · rw [names_enter_of_not_mem h]
      have h' : s.name ∉ ss.map Symbol.name := fun e => h (hmem.mpr e)
      simp [List.removeAll, List.mem_map.not.mp h', List.eraseDups_cons]

theorem entries_enterAll (t : SymbolTable) (ss : List Symbol)
    (h : (t.names ++ ss.map Symbol.name).Nodup) :
    (t.enterAll ss).entries = t.entries ++ ss := by
  induction ss generalizing t with
  | nil => exact (List.append_nil _).symm
  | cons s ss ih =>
    have hs : s.name ∉ t.names := fun hm =>
      (List.nodup_append.mp h).2.2 _ hm _ List.mem_cons_self rfl
    have h' : ((t.enter s).2.names ++ ss.map Symbol.name).Nodup := by
      rw [names_enter_of_not_mem hs, List.append_assoc]
      exact h
    rw [enterAll_cons, ih _ h', enter_of_not_mem hs, List.append_assoc]
    rfl

end SymbolTable
end DeskCalc
