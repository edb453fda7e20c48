import ThemeLens.Json.Reader
import ThemeLens.Proofs.OrderedMap

/-!
# Keys of objects

An object is kept as the list of its fields, and such a list can have a key twice. A value has
distinct keys when no object in it does; arrays are left out of account, since what is in them is
never asked for by key. Nothing in the type of a value says so, but a value that was read has
distinct keys, because the reader puts the fields of an object into a map before it hands them out
(`keysDistinct_of_read?`).
-/

namespace ThemeLens.Json

mutual

/-- No object has a key twice. -/
def KeysDistinct : Json → Prop
  | .obj fields => (fields.map (·.1)).Nodup ∧ FieldsDistinct fields
  | _ => True

/-- The values of fields have distinct keys. -/
def FieldsDistinct : List (Text × Json) → Prop
  | [] => True
  | (_, value) :: fields => KeysDistinct value ∧ FieldsDistinct fields

end

theorem fieldsDistinct_iff {fields : List (Text × Json)} :
    FieldsDistinct fields ↔ ∀ field ∈ fields, KeysDistinct field.2 := by
  induction fields with
  | nil => simp [FieldsDistinct]
  | cons field fields ih => simp [FieldsDistinct, ih]

/-- A map of fields has no other values than the fields, and its keys are distinct by its type. -/
theorem keysDistinct_ofList {fields : List (Text × Json)} (h : FieldsDistinct fields) :
    KeysDistinct (.obj (OrderedMap.ofList fields).entries) := by
  rw [fieldsDistinct_iff] at h
  refine ⟨(OrderedMap.ofList fields).nodup, fieldsDistinct_iff.mpr ?_⟩
  intro field hfield
  exact h field (OrderedMap.mem_of_mem_ofList hfield)

theorem keysDistinct_of_readName? {t rest : Text} {v : Json} (h : readName? t = some (v, rest)) :
    KeysDistinct v := by
  simp only [readName?, Option.orElse_eq_orElse, Option.orElse_eq_or, Option.or_eq_some_iff,
    Option.map_eq_some_iff] at h
  rcases h with ⟨_, -, h⟩ | ⟨-, ⟨_, -, h⟩ | ⟨-, _, -, h⟩⟩
  all_goals
    cases h
    trivial

/-- The induction is on the steps, for values and for fields at once: an object is one step for its
    brace and then the steps of its fields. -/
theorem keysDistinct_of_read (steps : Nat) :
    (∀ {room : Nat} {t rest : Text} {v : Json},
      readValue? steps room t = some (v, rest) → KeysDistinct v) ∧
    (∀ {room : Nat} {t rest : Text} {fields : List (Text × Json)},
      readFields? steps room t = some (fields, rest) → FieldsDistinct fields) := by
  induction steps with
  | zero =>
    refine ⟨?_, ?_⟩
    · intro room t rest v h
      unfold readValue? at h
      cases h
    · intro room t rest fields h
      unfold readFields? at h
      cases h
  | succ steps ih =>
    obtain ⟨ihValue, ihFields⟩ := ih
    refine ⟨?_, ?_⟩
    · intro room t rest v h
      unfold readValue? at h
      cases t with
      | nil => cases h
      | cons c t =>
        simp only at h
        split at h
        · -- a string
          obtain ⟨_, -, h⟩ := Option.map_eq_some_iff.mp h
          cases h
          trivial
        split at h
        · -- an array
          split at h
          · cases h
          · cases h
            trivial
          · obtain ⟨_, -, h⟩ := Option.map_eq_some_iff.mp h
            cases h
            trivial
        split at h
        · -- an object
          split at h
          · cases h
          · cases h
            exact ⟨List.nodup_nil, trivial⟩
          · obtain ⟨_, hfields, h⟩ := Option.map_eq_some_iff.mp h
            cases h
            exact keysDistinct_ofList (ihFields hfields)
        split at h
        · -- a number
          obtain ⟨_, -, h⟩ := Option.map_eq_some_iff.mp h
          cases h
          trivial
        · exact keysDistinct_of_readName? h
    · intro room t rest fields h
      unfold readFields? at h
      split at h
      · rename_i heq
        cases heq
        obtain ⟨⟨key, afterKey⟩, -, h⟩ := Option.bind_eq_some_iff.mp h
        dsimp only at h
        split at h
        · obtain ⟨⟨value, afterValue⟩, hvalue, h⟩ := Option.bind_eq_some_iff.mp h
          dsimp only at h
          split at h
          · cases h
            exact ⟨ihValue hvalue, trivial⟩
          · obtain ⟨_, hfields, h⟩ := Option.map_eq_some_iff.mp h
            cases h
            exact ⟨ihValue hvalue, ihFields hfields⟩
          · cases h
        · cases h
      · cases h

/-- **A value that was read has distinct keys.** -/
theorem keysDistinct_of_read? {room : Nat} {t : Text} {v : Json} (h : read? room t = some v) :
    v.KeysDistinct := by
  unfold read? at h
  obtain ⟨⟨value, rest⟩, hvalue, h⟩ := Option.bind_eq_some_iff.mp h
  obtain ⟨-, h⟩ := Option.ite_none_right_eq_some.mp h
  cases h
  exact (keysDistinct_of_read _).1 hvalue

end ThemeLens.Json
