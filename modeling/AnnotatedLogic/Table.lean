/-!
# Tables

A table gives values to keys and lists the keys in the order in which they were entered.

* `get?`, `put`: the view of a table and the one way to change it. A new key is entered at the end;
  a key that is there keeps its place and gets the new value.
* `mapValues`: the same change to every value.
-/

namespace AnnotatedLogic

/-- Values under different keys, in the order of entry. -/
structure Table (κ ν : Type) where
  entries : List (κ × ν)
deriving DecidableEq

namespace Table

variable {κ ν : Type} [DecidableEq κ]

/-- No key at all. -/
def empty : Table κ ν := ⟨[]⟩

instance : Inhabited (Table κ ν) := ⟨empty⟩

/-- The value of a key among entries. -/
def find? (key : κ) : List (κ × ν) → Option ν
  | [] => none
  | (k, v) :: rest => if k = key then some v else find? key rest

/-- Enters a value in the place of its key, or at the end. -/
def enter (key : κ) (value : ν) : List (κ × ν) → List (κ × ν)
  | [] => [(key, value)]
  | (k, v) :: rest => if k = key then (key, value) :: rest else (k, v) :: enter key value rest

/-- The value of a key. -/
def get? (t : Table κ ν) (key : κ) : Option ν := find? key t.entries

/-- Gives a key a value. -/
def put (t : Table κ ν) (key : κ) (value : ν) : Table κ ν := ⟨enter key value t.entries⟩

/-- The keys, in the order of entry. -/
def keys (t : Table κ ν) : List κ := t.entries.map (·.1)

/-- The values, in the order in which their keys were entered. -/
def values (t : Table κ ν) : List ν := t.entries.map (·.2)

/-- Changes every value. -/
def mapValues (f : ν → ν) (t : Table κ ν) : Table κ ν :=
  ⟨t.entries.map fun e => (e.1, f e.2)⟩

/-- The table that gives each key its value. Of a key that is listed twice the last value counts. -/
def ofList (entries : List (κ × ν)) : Table κ ν :=
  entries.foldl (fun t e => t.put e.1 e.2) empty

theorem find?_enter_self (key : κ) (value : ν) (entries : List (κ × ν)) :
    find? key (enter key value entries) = some value := by
  induction entries with
  | nil => simp [enter, find?]
  | cons e rest ih =>
    obtain ⟨k, v⟩ := e
    by_cases h : k = key <;> simp [enter, find?, h, ih]

theorem find?_enter_of_ne {key other : κ} (h : other ≠ key) (value : ν)
    (entries : List (κ × ν)) : find? other (enter key value entries) = find? other entries := by
  induction entries with
  | nil => simp [enter, find?, h.symm]
  | cons e rest ih =>
    obtain ⟨k, v⟩ := e
    by_cases hk : k = key
    · subst hk; simp [enter, find?, h.symm]
    · rw [enter, if_neg hk, find?, find?, ih]

/-- A change of one key changes what the table says of this key and of no other. -/
theorem get?_put (t : Table κ ν) (key other : κ) (value : ν) :
    (t.put key value).get? other = if other = key then some value else t.get? other := by
  split
  · next h => subst h; exact find?_enter_self ..
  · next h => exact find?_enter_of_ne h ..

omit [DecidableEq κ] in
theorem keys_mapValues (f : ν → ν) (t : Table κ ν) : (t.mapValues f).keys = t.keys := by
  simp [mapValues, keys, Function.comp_def]

end Table

end AnnotatedLogic
