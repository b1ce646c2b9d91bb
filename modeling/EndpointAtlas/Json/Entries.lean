import EndpointAtlas.Text.Blank

/-!
Named entries in the order in which they are listed: names that are array indices first, in
ascending order, then all others in the order in which they arrived. Main statements: what `get?`
finds after `put` and after `erase`.
-/

set_option autoImplicit false

namespace EndpointAtlas

abbrev Entries (α : Type) := List (String × α)

namespace Entries

/-- The array index that a name spells, in its one spelling without leading zeros. -/
def index? (name : String) : Option Nat :=
  match name.toList with
  | ['0'] => some 0
  | digits =>
    if digits.head? ≠ some '0' ∧ !digits.isEmpty ∧ digits.all Text.isAsciiDigit then
      let n := digits.foldl (fun acc c => acc * 10 + (c.toNat - '0'.toNat)) 0
      if n < 0xFFFFFFFF then some n else none
    else none

/-- Does the new name `a` come before the name `b` that is there already? -/
def precedes (a b : String) : Bool :=
  match index? a, index? b with
  | some m, some n => m < n
  | some _, none => true
  | none, _ => false

variable {α : Type}

def get? (name : String) : Entries α → Option α
  | [] => none
  | (key, value) :: rest => if key = name then some value else get? name rest

def replace (name : String) (value : α) : Entries α → Entries α
  | [] => []
  | (key, old) :: rest =>
    if key = name then (key, value) :: rest else (key, old) :: replace name value rest

def insertNew (name : String) (value : α) : Entries α → Entries α
  | [] => [(name, value)]
  | (key, old) :: rest =>
    if precedes name key then (name, value) :: (key, old) :: rest
    else (key, old) :: insertNew name value rest

def put (name : String) (value : α) (entries : Entries α) : Entries α :=
  if (entries.get? name).isSome then entries.replace name value else entries.insertNew name value

def erase (name : String) (entries : Entries α) : Entries α := entries.filter (·.1 ≠ name)

def keys (entries : Entries α) : List String := entries.map (·.1)

def putAll (entries added : Entries α) : Entries α :=
  added.foldl (fun acc entry => acc.put entry.1 entry.2) entries

/-- The entries that a list of names and values gives; the last value of a name counts. -/
def ofList (entries : List (String × α)) : Entries α := putAll [] entries

theorem get?_replace (name other : String) (value : α) (entries : Entries α) :
    (entries.replace name value).get? other =
      if name = other then (entries.get? name).map (fun _ => value) else entries.get? other := by
  induction entries with
  | nil => simp [replace, get?]
  | cons entry rest ih =>
    obtain ⟨key, old⟩ := entry
    by_cases hk : key = name
    · subst hk
      by_cases ho : key = other <;> simp [replace, get?, ho]
    · by_cases ho : key = other
      · subst ho
        simp [replace, get?, hk, Ne.symm hk]
      · by_cases hn : name = other <;> simp_all [replace, get?]

theorem get?_insertNew (name other : String) (value : α) (entries : Entries α)
    (new : entries.get? name = none) :
    (entries.insertNew name value).get? other =
      if name = other then some value else entries.get? other := by
  induction entries with
  | nil => simp [insertNew, get?]
  | cons entry rest ih =>
    obtain ⟨key, old⟩ := entry
    have hk : key ≠ name := by
      intro h; simp [get?, h] at new
    have new' : get? name rest = none := by simpa [get?, hk] using new
    rw [insertNew]
    split
    · simp [get?]
    · by_cases ho : key = other
      · subst ho; simp [get?, Ne.symm hk]
      · simp [get?, ho, ih new']

theorem get?_put (name other : String) (value : α) (entries : Entries α) :
    (entries.put name value).get? other =
      if name = other then some value else entries.get? other := by
  unfold put
  split
  · rename_i h
    rw [get?_replace]
    obtain ⟨old, hold⟩ := Option.isSome_iff_exists.1 h
    simp [hold]
  · rename_i h
    exact get?_insertNew name other value entries (by simpa using h)

theorem get?_erase (name other : String) (entries : Entries α) :
    (entries.erase name).get? other = if name = other then none else entries.get? other := by
  induction entries with
  | nil => simp [erase, get?]
  | cons entry rest ih =>
    obtain ⟨key, old⟩ := entry
    simp only [erase] at ih ⊢
    by_cases hk : key = name
    · subst hk
      by_cases ho : key = other <;> simp_all [get?]
    · by_cases ho : key = other
      · subst ho; simp [get?, hk, Ne.symm hk]
      · by_cases hn : name = other <;> simp_all [get?]

end Entries

end EndpointAtlas
