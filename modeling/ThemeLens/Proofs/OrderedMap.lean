import ThemeLens.OrderedMap

/-!
# Looking up in a map that keeps its order

A map is its list of entries, and what a key is bound to can be asked in two ways: walk to the
first entry with the key, or ask which entries there are. Without repeated keys the two agree
(`OrderedMap.get?_eq_some_iff`). Lookup goes through appended lists from the front
(`Entries.get?_append`), so a map that is built entry by entry is followed from one entry to the
next. What a scan sees of a map before it stops is a map again, that of the first entries (`take`).
-/

namespace ThemeLens

namespace Entries

variable {α : Type} {key : Text} {value : α} {entries more : List (Text × α)}

theorem put_of_notMem (h : key ∉ entries.map (·.1)) :
    put key value entries = entries ++ [(key, value)] := by
  induction entries with
  | nil => rfl
  | cons entry rest ih =>
    simp only [List.map_cons, List.mem_cons, not_or] at h
    rw [put, if_neg (Ne.symm h.1), ih h.2, List.cons_append]

theorem mem_put {entry : Text × α} (h : entry ∈ put key value entries) :
    entry = (key, value) ∨ entry ∈ entries := by
  induction entries with
  | nil => simpa [put] using h
  | cons first rest ih =>
    unfold put at h
    split at h
    · rcases List.mem_cons.mp h with h | h
      · exact .inl h
      · exact .inr (List.mem_cons_of_mem _ h)
    · rcases List.mem_cons.mp h with rfl | h
      · exact .inr List.mem_cons_self
      · exact (ih h).imp_right (List.mem_cons_of_mem _)

theorem get?_append (key : Text) (entries more : List (Text × α)) :
    get? key (entries ++ more) = (get? key entries).or (get? key more) := by
  induction entries with
  | nil => rfl
  | cons entry rest ih =>
    by_cases h : entry.1 = key
    · simp [get?, h]
    · simp [get?, h, ih]

theorem get?_eq_none_iff : get? key entries = none ↔ key ∉ entries.map (·.1) := by
  induction entries with
  | nil => simp [get?]
  | cons entry rest ih =>
    by_cases h : entry.1 = key
    · simp [get?, h]
    · simp only [get?, h, if_false, ih, List.map_cons, List.mem_cons, Ne.symm h, false_or]

theorem get?_eq_some_iff (hnodup : (entries.map (·.1)).Nodup) :
    get? key entries = some value ↔ (key, value) ∈ entries := by
  induction entries with
  | nil => simp [get?]
  | cons entry rest ih =>
    obtain ⟨hnew, hrest⟩ := List.nodup_cons.mp hnodup
    rw [List.mem_cons, get?]
    by_cases h : entry.1 = key
    · rw [if_pos h, Option.some.injEq]
      subst h
      constructor
      · rintro rfl
        exact .inl rfl
      · intro hmem
        rcases hmem with heq | hmem
        · rw [← heq]
        · exact absurd (List.mem_map_of_mem (f := (·.1)) hmem) hnew
    · rw [if_neg h, ih hrest]
      refine ⟨.inr, fun hmem => ?_⟩
      rcases hmem with rfl | hmem
      · exact absurd rfl h
      · exact hmem

theorem get?_of_isPrefix (hpre : entries <+: more) (h : get? key entries = some value) :
    get? key more = some value := by
  obtain ⟨rest, rfl⟩ := hpre
  rw [get?_append, h]
  rfl

end Entries

namespace OrderedMap

variable {α : Type} {m : OrderedMap α} {key : Text} {value : α}

/-- The map of the first entries. -/
def take (m : OrderedMap α) (n : Nat) : OrderedMap α :=
  ⟨m.entries.take n, ((List.take_sublist n m.entries).map (·.1)).nodup m.nodup⟩

theorem keys_isPrefix_keys_insert (m : OrderedMap α) (key : Text) (value : α) :
    m.keys <+: (m.insert key value).keys := by
  rw [keys_insert]
  split
  · exact List.prefix_rfl
  · exact List.prefix_append _ _

theorem get?_eq_some_iff : m.get? key = some value ↔ (key, value) ∈ m.entries :=
  Entries.get?_eq_some_iff m.nodup

theorem mem_of_mem_foldl_insert {entries : List (Text × α)} {entry : Text × α}
    (h : entry ∈ (entries.foldl (fun m entry => m.insert entry.1 entry.2) m).entries) :
    entry ∈ m.entries ∨ entry ∈ entries := by
  induction entries generalizing m with
  | nil => exact .inl h
  | cons first entries ih =>
    rcases ih h with h | h
    · rcases Entries.mem_put h with rfl | h
      · exact .inr List.mem_cons_self
      · exact .inl h
    · exact .inr (List.mem_cons_of_mem _ h)

/-- A map of entries has no other entries. -/
theorem mem_of_mem_ofList {entries : List (Text × α)} {entry : Text × α}
    (h : entry ∈ (ofList entries).entries) : entry ∈ entries := by
  rcases mem_of_mem_foldl_insert h with h | h
  · cases h
  · exact h

end OrderedMap

end ThemeLens
