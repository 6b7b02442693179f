import ScraperTimeline.Tree.Basic

/-!
Fields of a mapping as an ordered list of keys and values. `put` changes a value where its key stands
and appends a new key, so the keys of a list that is built by `put` are distinct.
-/
namespace ScraperTimeline.Fields

variable {α : Type}

/-- Sets the value of a key, at the key's place or at the end. -/
def put (key : String) (value : α) : List (String × α) → List (String × α)
  | [] => [(key, value)]
  | (k, v) :: rest => if k = key then (k, value) :: rest else (k, v) :: put key value rest

/-- The fields in order of first appearance, each with its last value. -/
def ofList (entries : List (String × α)) : List (String × α) :=
  entries.foldl (fun fields (key, value) => put key value fields) []

def keys (fields : List (String × α)) : List String := fields.map (·.1)

/-- What is given for a key, if anything; nothing at all if it is given twice. -/
def once? (key : String) (fields : List (String × α)) : Option (Option α) :=
  match fields.filter (·.1 = key) with
  | [] => some none
  | [(_, value)] => some (some value)
  | _ => none

def has (key : String) (fields : List (String × α)) : Bool := (fields.lookup key).isSome

@[simp] theorem lookup_put_self (key : String) (value : α) (fields : List (String × α)) :
    (put key value fields).lookup key = some value := by
  induction fields with
  | nil => simp [put]
  | cons entry rest ih =>
    obtain ⟨k, v⟩ := entry
    by_cases h : k = key
    · simp [put, h]
    · have : (key == k) = false := by simpa using Ne.symm h
      simp [put, h, List.lookup_cons, this, ih]

theorem lookup_put_of_ne {key other : String} (h : other ≠ key) (value : α)
    (fields : List (String × α)) : (put key value fields).lookup other = fields.lookup other := by
  induction fields with
  | nil =>
    have : (other == key) = false := by simpa using h
    simp [put, List.lookup_cons, this]
  | cons entry rest ih =>
    obtain ⟨k, v⟩ := entry
    by_cases hk : k = key
    · subst hk
      have : (other == k) = false := by simpa using h
      simp [put, List.lookup_cons, this]
    · simp only [put, hk, if_false, List.lookup_cons, ih]

theorem keys_put (key : String) (value : α) (fields : List (String × α)) :
    keys (put key value fields) = if key ∈ keys fields then keys fields else keys fields ++ [key] := by
  induction fields with
  | nil => simp [put, keys]
  | cons entry rest ih =>
    obtain ⟨k, v⟩ := entry
    by_cases h : k = key
    · simp [put, keys, h]
    · have hne : ¬key = k := fun e => h e.symm
      simp only [keys] at ih
      by_cases hm : key ∈ rest.map (·.1)
      · simp [put, keys, h, ih, hm]
      · simp [put, keys, h, ih, hm, hne]

end ScraperTimeline.Fields
