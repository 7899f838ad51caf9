import Mathlib.Tactic.Common
import Abcout.Symbols

/-!
# Abcout.Proofs.Table — tables and sets of names

What insertion does to a table or set, with equality of names in place of the order; and the labels that have been
declared but have no address yet (`LabelTable.Unassigned`).
-/

namespace Abcout

section Insert

variable {α : Type}

theorem getElem?_insert_name (t : Std.ExtTreeMap String α) (k x : String) (v : α) :
    (t.insert k v)[x]? = if k = x then some v else t[x]? := by
  simp [Std.ExtTreeMap.getElem?_insert]

theorem getElem?_modify_name (t : Std.ExtTreeMap String α) (k x : String) (f : α → α) :
    (t.modify k f)[x]? = if k = x then t[x]?.map f else t[x]? := by
  rw [Std.ExtTreeMap.getElem?_modify]
  by_cases hk : k = x
  · subst hk
    rw [if_pos (Std.LawfulEqCmp.compare_eq_iff_eq.2 rfl), if_pos rfl]
  · rw [if_neg hk, if_neg (mt Std.LawfulEqCmp.compare_eq_iff_eq.1 hk)]

theorem mem_insert_name {t : Std.ExtTreeMap String α} {k x : String} {v : α} :
    x ∈ t.insert k v ↔ k = x ∨ x ∈ t := by
  simp

theorem mem_iff_exists_getElem? {t : Std.ExtTreeMap String α} {x : String} : x ∈ t ↔ ∃ v, t[x]? = some v := by
  rw [Std.ExtTreeMap.mem_iff_isSome_getElem?, Option.isSome_iff_exists]

theorem NameSet.mem_insertMany_names {s : NameSet} {names : List String} {x : String} :
    x ∈ s.insertMany names ↔ x ∈ s ∨ x ∈ names := by
  rw [Std.ExtTreeSet.mem_insertMany_list, List.contains_iff_mem]

theorem NameSet.mem_insert_name {s : NameSet} {k x : String} : x ∈ s.insert k ↔ k = x ∨ x ∈ s := by
  simp

theorem NameSet.not_mem_of_contains {s : NameSet} {x : String} (h : s.contains x = false) : x ∉ s := by
  intro hx
  rw [Std.ExtTreeSet.contains_iff_mem.2 hx] at h
  cases h

theorem not_mem_of_contains {t : Std.ExtTreeMap String α} {x : String} (h : t.contains x = false) : x ∉ t := by
  intro hx
  rw [Std.ExtTreeMap.contains_iff_mem.2 hx] at h
  cases h

end Insert

namespace LabelTable

theorem getElem?_declare (t : LabelTable) (names : List String) (x : String) :
    (t.declare names)[x]? = if x ∈ names then some none else t[x]? := by
  unfold declare
  induction names generalizing t with
  | nil => simp
  | cons name names ih =>
    rw [List.foldl_cons, ih, getElem?_insert_name]
    by_cases hx : x ∈ names
    · rw [if_pos hx, if_pos (List.mem_cons_of_mem _ hx)]
    · rw [if_neg hx]
      by_cases hn : name = x
      · rw [if_pos hn, if_pos (hn ▸ List.mem_cons_self)]
      · rw [if_neg hn, if_neg]
        rw [List.mem_cons, not_or]
        exact ⟨fun e => hn e.symm, hx⟩

theorem mem_declare {t : LabelTable} {names : List String} {x : String} :
    x ∈ t.declare names ↔ x ∈ t ∨ x ∈ names := by
  rw [Std.ExtTreeMap.mem_iff_isSome_getElem?, Std.ExtTreeMap.mem_iff_isSome_getElem?, getElem?_declare]
  by_cases hx : x ∈ names
  · simp [hx]
  · simp [hx]

/-- No label has an address. -/
def Unassigned (t : LabelTable) : Prop := ∀ (x : String) (v : Option UInt16), t[x]? = some v → v = none

theorem unassigned_empty : Unassigned ∅ := by
  intro x v hv
  simp at hv

theorem Unassigned.declare {t : LabelTable} (h : t.Unassigned) (names : List String) :
    (t.declare names).Unassigned := by
  intro x v hv
  rw [getElem?_declare] at hv
  split_ifs at hv
  · cases hv
    rfl
  · exact h x v hv

end LabelTable

end Abcout
