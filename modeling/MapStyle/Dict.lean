/-
Dictionaries with text keys.

A dictionary is a list of entries.  `insert` keeps the entries in ascending order of their keys
(code point by code point) and lets a new entry replace an old one of the same key; a look-up
afterwards finds the new entry, and finds under every other key what was there before.
-/
namespace MapStyle

/-- Entries by key, ascending when built by `insert`. -/
abbrev Dict (α : Type) := List (String × α)

namespace Dict

variable {α β : Type}

def get? : Dict α → String → Option α
  | [], _ => none
  | (k, a) :: rest, key => if k = key then some a else get? rest key

def has (d : Dict α) (key : String) : Bool := (d.get? key).isSome

/-- The dictionary with the entry `key`, which replaces an earlier one. -/
def insert (key : String) (a : α) : Dict α → Dict α
  | [] => [(key, a)]
  | (k, b) :: rest =>
    if key < k then (key, a) :: (k, b) :: rest
    else if key = k then (key, a) :: rest
    else (k, b) :: insert key a rest

/-- The dictionary of a list of entries; of two with one key the later counts. -/
def ofEntries (entries : List (String × α)) : Dict α :=
  entries.foldl (fun d e => d.insert e.1 e.2) []

def erase (key : String) (d : Dict α) : Dict α := d.filter (fun e => e.1 ≠ key)

theorem get?_insert_self (key : String) (a : α) (d : Dict α) :
    (d.insert key a).get? key = some a := by
  induction d with
  | nil => simp [insert, get?]
  | cons e rest ih =>
    obtain ⟨k, b⟩ := e
    by_cases hlt : key < k
    · simp [insert, hlt, get?]
    · by_cases heq : key = k
      · subst heq; simp [insert, get?]
      · simp [insert, hlt, heq, get?, Ne.symm heq, ih]

theorem get?_insert_of_ne {key other : String} (h : other ≠ key) (a : α) (d : Dict α) :
    (d.insert key a).get? other = d.get? other := by
  induction d with
  | nil => simp [insert, get?, Ne.symm h]
  | cons e rest ih =>
    obtain ⟨k, b⟩ := e
    by_cases hlt : key < k
    · simp [insert, hlt, get?, Ne.symm h]
    · by_cases heq : key = k
      · subst heq; simp [insert, get?, Ne.symm h]
      · simp [insert, hlt, heq, get?, ih]

theorem get?_erase_self (key : String) (d : Dict α) : (d.erase key).get? key = none := by
  induction d with
  | nil => rfl
  | cons e rest ih =>
    obtain ⟨k, b⟩ := e
    by_cases heq : k = key
    · rw [erase, List.filter_cons_of_neg (by simpa using heq)]
      exact ih
    · rw [erase, List.filter_cons_of_pos (by simpa using heq), get?, if_neg heq]
      exact ih

theorem get?_erase_of_ne {key other : String} (h : other ≠ key) (d : Dict α) :
    (d.erase key).get? other = d.get? other := by
  induction d with
  | nil => rfl
  | cons e rest ih =>
    obtain ⟨k, b⟩ := e
    by_cases heq : k = key
    · subst heq
      rw [erase, List.filter_cons_of_neg (by simp), get?, if_neg (Ne.symm h)]
      exact ih
    · rw [erase, List.filter_cons_of_pos (by simpa using heq), get?, get?]
      split
      · rfl
      · exact ih

end Dict
end MapStyle
