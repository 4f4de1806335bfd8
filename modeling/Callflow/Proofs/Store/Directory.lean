import Callflow.Store.Directory
import Mathlib.Data.String.Basic

/-!
# Directories in order

A directory is built in the order of its names (`Sorted`), and stays in order. So what it holds and
what it finds are the same: each value under one name (`Sorted.mem_values_iff`).
-/

namespace Callflow
namespace Directory

variable {α : Type}

/-- The names come in order, and none of them twice. -/
def Sorted (d : Directory α) : Prop := d.entries.Pairwise fun a b => a.1 < b.1

theorem of_mem_insertIn {name : String} {value : α} {entries : List (String × α)}
    {e : String × α} (h : e ∈ insertIn name value entries) : e = (name, value) ∨ e ∈ entries := by
  induction entries with
  | nil => exact Or.inl (List.mem_singleton.1 h)
  | cons first rest ih =>
    rw [insertIn] at h
    split at h
    · rcases List.mem_cons.1 h with rfl | h
      · exact Or.inl rfl
      · exact Or.inr (List.mem_cons_of_mem _ h)
    · split at h
      · exact List.mem_cons.1 h
      · rcases List.mem_cons.1 h with rfl | h
        · exact Or.inr List.mem_cons_self
        · exact (ih h).imp_right (List.mem_cons_of_mem _)

theorem Sorted.insert {d : Directory α} (h : d.Sorted) (name : String) (value : α) :
    (d.insert name value).Sorted := by
  rcases d with ⟨entries⟩
  induction entries with
  | nil => exact List.pairwise_singleton _ _
  | cons first rest ih =>
    rcases List.pairwise_cons.1 h with ⟨hfirst, hrest⟩
    show (insertIn name value (first :: rest)).Pairwise _
    rw [insertIn]
    split
    · rename_i hsame
      refine List.pairwise_cons.2 ⟨fun e he => ?_, hrest⟩
      rw [← hsame]
      exact hfirst e he
    · rename_i hdiffers
      split
      · rename_i hbefore
        refine List.pairwise_cons.2 ⟨fun e he => ?_, h⟩
        rcases List.mem_cons.1 he with rfl | he
        · exact hbefore
        · exact hbefore.trans (hfirst e he)
      · rename_i hafter
        refine List.pairwise_cons.2 ⟨fun e he => ?_, ih hrest⟩
        rcases of_mem_insertIn he with rfl | he
        · exact lt_of_le_of_ne (not_lt.1 hafter) hdiffers
        · exact hfirst e he

theorem Sorted.erase {d : Directory α} (h : d.Sorted) (name : String) : (d.erase name).Sorted :=
  List.Pairwise.sublist List.filter_sublist h

theorem find?_erase (d : Directory α) (name other : String) :
    (d.erase name).find? other = if name = other then none else d.find? other := by
  rcases d with ⟨entries⟩
  show findIn other (entries.filter _) = if name = other then none else findIn other entries
  induction entries with
  | nil => simp [findIn]
  | cons first rest ih =>
    by_cases hkept : first.1 = name
    · rw [List.filter_cons_of_neg (by simp [hkept]), ih]
      by_cases hasked : name = other
      · rw [if_pos hasked, if_pos hasked]
      · rw [if_neg hasked, if_neg hasked, findIn, if_neg (hkept ▸ hasked)]
    · rw [List.filter_cons_of_pos (by simp [hkept]), findIn, findIn, ih]
      by_cases hasked : first.1 = other
      · rw [if_pos hasked, if_pos hasked, if_neg (hasked ▸ Ne.symm hkept)]
      · rw [if_neg hasked, if_neg hasked]

theorem mem_of_find? {d : Directory α} {name : String} {value : α} (h : d.find? name = some value) :
    (name, value) ∈ d.entries := by
  rcases d with ⟨entries⟩
  change findIn name entries = some value at h
  induction entries with
  | nil => cases h
  | cons first rest ih =>
    rw [findIn] at h
    split at h
    · rename_i hsame
      cases h
      rw [← hsame]
      exact List.mem_cons_self
    · exact List.mem_cons_of_mem _ (ih h)

theorem Sorted.find?_of_mem {d : Directory α} (h : d.Sorted) {name : String} {value : α}
    (hmem : (name, value) ∈ d.entries) : d.find? name = some value := by
  rcases d with ⟨entries⟩
  show findIn name entries = some value
  change (name, value) ∈ entries at hmem
  induction entries with
  | nil => cases hmem
  | cons first rest ih =>
    rcases List.pairwise_cons.1 h with ⟨hfirst, hrest⟩
    rw [findIn]
    rcases List.mem_cons.1 hmem with rfl | hmem
    · rw [if_pos rfl]
    · rw [if_neg (hfirst _ hmem).ne, ih hrest hmem]

theorem Sorted.mem_values_iff {d : Directory α} (h : d.Sorted) {value : α} :
    value ∈ d.values ↔ ∃ name, d.find? name = some value := by
  constructor
  · intro hmem
    rcases List.mem_map.1 hmem with ⟨⟨name, _⟩, hentry, rfl⟩
    exact ⟨name, h.find?_of_mem hentry⟩
  · rintro ⟨name, hfound⟩
    exact List.mem_map.2 ⟨_, mem_of_find? hfound, rfl⟩

end Directory
end Callflow
