import AnnotatedLogic.Table
/-!
# Keys of tables

* `get?_eq_none`: a key without a value is not among the keys.
* `keys_put`: a new key comes last, one that is there keeps its place.
* `put_get?_self`: giving a key the value it has changes nothing.
* `keys_ofList`, `mem_of_get?_ofList`: what a table made of a list of entries holds.
-/

namespace AnnotatedLogic

namespace Table

variable {κ ν : Type} [DecidableEq κ]

theorem find?_eq_none {key : κ} {entries : List (κ × ν)} :
    find? key entries = none ↔ key ∉ entries.map (·.1) := by
  induction entries with
  | nil => simp [find?]
  | cons e rest ih =>
    obtain ⟨k, v⟩ := e
    by_cases h : k = key
    · simp [find?, h]
    · simp [find?, h, ih, Ne.symm h]

/-- A key without a value is not among the keys. -/
theorem get?_eq_none {t : Table κ ν} {key : κ} : t.get? key = none ↔ key ∉ t.keys :=
  find?_eq_none

theorem map_fst_enter (key : κ) (value : ν) (entries : List (κ × ν)) :
    (enter key value entries).map (·.1) =
      if key ∈ entries.map (·.1) then entries.map (·.1) else entries.map (·.1) ++ [key] := by
  induction entries with
  | nil => rfl
  | cons e rest ih =>
    obtain ⟨k, v⟩ := e
    by_cases h : k = key
    · simp [enter, h]
    · have hmem : key ∈ ((k, v) :: rest).map (·.1) ↔ key ∈ rest.map (·.1) := by
        simp [Ne.symm h]
      rw [enter, if_neg h, List.map_cons, ih]
      by_cases hr : key ∈ rest.map (·.1)
      · rw [if_pos hr, if_pos (hmem.2 hr)]
        rfl
      · rw [if_neg hr, if_neg fun h => hr (hmem.1 h)]
        rfl

/-- A new key comes last, one that is there keeps its place. -/
theorem keys_put (t : Table κ ν) (key : κ) (value : ν) :
    (t.put key value).keys = if key ∈ t.keys then t.keys else t.keys ++ [key] :=
  map_fst_enter ..

theorem enter_find?_self {key : κ} {value : ν} {entries : List (κ × ν)}
    (h : find? key entries = some value) : enter key value entries = entries := by
  induction entries with
  | nil => cases h
  | cons e rest ih =>
    obtain ⟨k, v⟩ := e
    by_cases hk : k = key
    · rw [find?, if_pos hk] at h
      cases h
      rw [enter, if_pos hk, hk]
    · rw [find?, if_neg hk] at h
      rw [enter, if_neg hk, ih h]

/-- Giving a key the value it has changes nothing. -/
theorem put_get?_self {t : Table κ ν} {key : κ} {value : ν} (h : t.get? key = some value) :
    t.put key value = t := by
  unfold put
  rw [enter_find?_self h]

theorem get?_mapValues (f : ν → ν) (t : Table κ ν) (key : κ) :
    (t.mapValues f).get? key = (t.get? key).map f := by
  unfold mapValues get?
  dsimp only
  induction t.entries with
  | nil => rfl
  | cons e rest ih =>
    rw [List.map_cons, find?, find?]
    split
    · rfl
    · exact ih

theorem keys_foldl_put (entries : List (κ × ν)) {t : Table κ ν}
    (h : (t.keys ++ entries.map (·.1)).Nodup) :
    (entries.foldl (fun t e => t.put e.1 e.2) t).keys = t.keys ++ entries.map (·.1) := by
  induction entries generalizing t with
  | nil => simp
  | cons e entries ih =>
    have hnew : e.1 ∉ t.keys := by
      intro hmem
      exact (List.nodup_append.1 h).2.2 e.1 hmem e.1 (by simp) rfl
    have hkeys : (t.put e.1 e.2).keys = t.keys ++ [e.1] := by rw [keys_put, if_neg hnew]
    rw [List.foldl_cons, ih (by rw [hkeys]; simpa using h), hkeys]
    simp

/-- A table with different keys lists them as they were entered. -/
theorem keys_ofList {entries : List (κ × ν)} (h : (entries.map (·.1)).Nodup) :
    (ofList entries).keys = entries.map (·.1) :=
  keys_foldl_put entries (t := empty) h

/-- A value in a table made of entries is the value of one of them. -/
theorem mem_of_get?_foldl_put {key : κ} {value : ν} (entries : List (κ × ν)) {t : Table κ ν}
    (h : (entries.foldl (fun t e => t.put e.1 e.2) t).get? key = some value) :
    t.get? key = some value ∨ (key, value) ∈ entries := by
  induction entries generalizing t with
  | nil => exact .inl h
  | cons e entries ih =>
    rcases ih h with hput | hmem
    · rw [get?_put] at hput
      split at hput
      · next hkey =>
        cases hput
        rw [hkey]
        exact .inr (by simp)
      · exact .inl hput
    · exact .inr (List.mem_cons_of_mem e hmem)

theorem mem_of_get?_ofList {key : κ} {value : ν} {entries : List (κ × ν)}
    (h : (ofList entries).get? key = some value) : (key, value) ∈ entries := by
  rcases mem_of_get?_foldl_put entries h with hempty | hmem
  · cases hempty
  · exact hmem

end Table

end AnnotatedLogic
