import ThemeLens.Text.Basic

/-!
# Maps that keep the order of insertion

Declaration order is visible in everything this library answers: in the table of a theme, in
suggestions, in printed objects. Such a map is a list of entries with distinct keys. Inserting a
new key appends it; inserting a present key replaces the value and moves nothing (`keys_insert`).

The operations are first given on plain lists of entries, because JSON objects, which nest, hold
such a list without the proof. `OrderedMap` adds the proof that no key comes twice.
-/

namespace ThemeLens

namespace Entries

variable {α : Type}

/-- Replaces the value of a present key; appends a new one. -/
def put (key : Text) (value : α) : List (Text × α) → List (Text × α)
  | [] => [(key, value)]
  | entry :: rest => if entry.1 = key then (key, value) :: rest else entry :: put key value rest

/-- The value of the first entry with this key. -/
def get? (key : Text) : List (Text × α) → Option α
  | [] => none
  | entry :: rest => if entry.1 = key then some entry.2 else get? key rest

theorem keys_put (key : Text) (value : α) (entries : List (Text × α)) :
    (put key value entries).map (·.1) =
      if key ∈ entries.map (·.1) then entries.map (·.1) else entries.map (·.1) ++ [key] := by
  induction entries with
  | nil => simp [put]
  | cons entry rest ih =>
    by_cases h : entry.1 = key
    · simp [put, h]
    · simp only [put, h, if_false, List.map_cons, ih, List.mem_cons]
      split
      · rw [if_pos (Or.inr ‹_›)]
      · rw [if_neg (by rintro (h' | h') <;> simp_all)]; rfl

theorem nodup_put {key : Text} {value : α} {entries : List (Text × α)}
    (h : (entries.map (·.1)).Nodup) : ((put key value entries).map (·.1)).Nodup := by
  rw [keys_put]
  split
  · exact h
  · refine List.nodup_append.mpr ⟨h, by simp, ?_⟩
    rintro a ha b hb rfl
    simp_all

theorem get?_put_self (key : Text) (value : α) (entries : List (Text × α)) :
    get? key (put key value entries) = some value := by
  induction entries with
  | nil => simp [put, get?]
  | cons entry rest ih => by_cases h : entry.1 = key <;> simp [put, get?, h, ih]

theorem get?_put_of_ne {key other : Text} (hne : other ≠ key) (value : α)
    (entries : List (Text × α)) : get? other (put key value entries) = get? other entries := by
  induction entries with
  | nil => simp [put, get?, Ne.symm hne]
  | cons entry rest ih =>
    by_cases h : entry.1 = key
    · simp [put, get?, h, Ne.symm hne]
    · simp only [put, h, if_false, get?, ih]

end Entries

/-- Entries in order of insertion, each key once. -/
structure OrderedMap (α : Type) where
  entries : List (Text × α)
  nodup : (entries.map (·.1)).Nodup

namespace OrderedMap

variable {α : Type}

def empty : OrderedMap α := ⟨[], List.nodup_nil⟩

instance : EmptyCollection (OrderedMap α) := ⟨empty⟩

def size (m : OrderedMap α) : Nat := m.entries.length

def isEmpty (m : OrderedMap α) : Bool := m.entries.isEmpty

def keys (m : OrderedMap α) : List Text := m.entries.map (·.1)

def get? (m : OrderedMap α) (key : Text) : Option α := Entries.get? key m.entries

def contains (m : OrderedMap α) (key : Text) : Bool := (m.get? key).isSome

/-- Replaces the value of a present key in its place; appends a new key. -/
def insert (m : OrderedMap α) (key : Text) (value : α) : OrderedMap α :=
  ⟨Entries.put key value m.entries, Entries.nodup_put m.nodup⟩

/-- All entries inserted one after the other: the last value of a key wins, its first place
stays. -/
def ofList (entries : List (Text × α)) : OrderedMap α :=
  entries.foldl (fun m entry => m.insert entry.1 entry.2) ∅

@[ext] theorem ext {m n : OrderedMap α} (h : m.entries = n.entries) : m = n := by
  cases m; cases n; simp_all

theorem keys_insert (m : OrderedMap α) (key : Text) (value : α) :
    (m.insert key value).keys = if key ∈ m.keys then m.keys else m.keys ++ [key] :=
  Entries.keys_put key value m.entries

@[simp] theorem get?_insert_self (m : OrderedMap α) (key : Text) (value : α) :
    (m.insert key value).get? key = some value :=
  Entries.get?_put_self key value m.entries

theorem get?_insert_of_ne (m : OrderedMap α) {key other : Text} (h : other ≠ key) (value : α) :
    (m.insert key value).get? other = m.get? other :=
  Entries.get?_put_of_ne h value m.entries

end OrderedMap

end ThemeLens
