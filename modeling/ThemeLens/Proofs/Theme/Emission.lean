import ThemeLens.Proofs.DottedPath
import ThemeLens.Proofs.OrderedMap
import ThemeLens.Theme.Flatten

/-!
# Filling a table

Every leaf met on the way is put into the table at once, after a look at the rows already there.
The look is one-sided in time: a row is compared with the earlier ones only. This file shows that
the order does not matter. `Clash` is symmetric, so a list of rows goes in without complaint
exactly when no two of its rows clash, and then it is the table, row by row (`emitAll_ok_iff`).
-/

namespace ThemeLens

open DottedPath (Clash)

theorem Table.collides_iff {table : Table} {path : Text} :
    table.collides path = true ↔ ∃ row ∈ table.entries, Clash row.1 path := by
  simp only [Table.collides, List.any_eq_true, Bool.or_eq_true, beq_iff_eq,
    DottedPath.isBelow_iff, Clash, or_assoc]
  constructor
  · intro h
    obtain ⟨row, hmem, h | h | h⟩ := h
    · exact ⟨row, hmem, .inl h⟩
    · exact ⟨row, hmem, .inr (.inr h)⟩
    · exact ⟨row, hmem, .inr (.inl h)⟩
  · intro h
    obtain ⟨row, hmem, h | h | h⟩ := h
    · exact ⟨row, hmem, .inl h⟩
    · exact ⟨row, hmem, .inr (.inr h)⟩
    · exact ⟨row, hmem, .inr (.inl h)⟩

theorem Except.bind_eq_ok_iff {ε α β : Type} {x : Except ε α} {f : α → Except ε β} {b : β} :
    x.bind f = .ok b ↔ ∃ a, x = .ok a ∧ f a = .ok b := by
  cases x <;> simp [Except.bind]

namespace Theme

/-- Adds rows one after the other. -/
def emitAll (out : Table) : List (Text × Value) → Except Defect Table
  | [] => .ok out
  | row :: rows => (emit out row.1 row.2).bind fun out => emitAll out rows

@[simp] theorem emitAll_cons (out : Table) (row : Text × Value) (rows : List (Text × Value)) :
    emitAll out (row :: rows) = (emit out row.1 row.2).bind fun out => emitAll out rows := rfl

theorem emitAll_append (out : Table) (rows more : List (Text × Value)) :
    emitAll out (rows ++ more) = (emitAll out rows).bind fun out => emitAll out more := by
  induction rows generalizing out with
  | nil => rfl
  | cons row rows ih =>
    rw [List.cons_append, emitAll_cons, emitAll_cons]
    cases emit out row.1 row.2 with
    | error _ => rfl
    | ok out' => exact ih out'

theorem emit_eq_ok_iff {out out' : Table} {path : Text} {value : Value} :
    emit out path value = .ok out' ↔
      (∀ row ∈ out.entries, ¬ Clash row.1 path) ∧ out'.entries = out.entries ++ [(path, value)] := by
  unfold emit
  by_cases hc : out.collides path = true
  · rw [if_pos hc]
    obtain ⟨row, hmem, hclash⟩ := Table.collides_iff.mp hc
    constructor
    · intro h; cases h
    · rintro ⟨hfree, -⟩; exact absurd hclash (hfree row hmem)
  · rw [if_neg hc]
    have hfree : ∀ row ∈ out.entries, ¬ Clash row.1 path := fun row hmem hclash =>
      hc (Table.collides_iff.mpr ⟨row, hmem, hclash⟩)
    have hnew : path ∉ out.entries.map (·.1) := fun hmem => by
      obtain ⟨row, hrow, rfl⟩ := List.mem_map.mp hmem
      exact hfree row hrow (.inl rfl)
    have hput : (out.insert path value).entries = out.entries ++ [(path, value)] :=
      Entries.put_of_notMem hnew
    constructor
    · intro h; cases h; exact ⟨hfree, hput⟩
    · intro h
      obtain ⟨-, hout⟩ := h
      exact congrArg Except.ok (OrderedMap.ext (hput.trans hout.symm))

/-- Rows go in when they clash neither with what is there nor with one another. -/
theorem emitAll_eq_ok_iff {out out' : Table} {rows : List (Text × Value)} :
    emitAll out rows = .ok out' ↔
      (∀ row ∈ out.entries, ∀ new ∈ rows, ¬ Clash row.1 new.1) ∧
      rows.Pairwise (fun row new => ¬ Clash row.1 new.1) ∧
      out'.entries = out.entries ++ rows := by
  induction rows generalizing out with
  | nil =>
    constructor
    · intro h; cases h; simp
    · intro h
      obtain ⟨-, -, h⟩ := h
      exact congrArg Except.ok (OrderedMap.ext (by simpa using h.symm))
  | cons new rows ih =>
    rw [emitAll_cons, Except.bind_eq_ok_iff]
    constructor
    · intro h
      obtain ⟨mid, hmid, hrows⟩ := h
      obtain ⟨hfree, hentries⟩ := emit_eq_ok_iff.mp hmid
      obtain ⟨hold, hpair, hout⟩ := ih.mp hrows
      rw [hentries] at hold hout
      refine ⟨fun row hrow other hother => ?_, ?_, by simpa using hout⟩
      · rcases List.mem_cons.mp hother with rfl | hother
        · exact hfree row hrow
        · exact hold row (List.mem_append_left _ hrow) other hother
      · exact List.pairwise_cons.mpr
          ⟨fun other hother => hold new (List.mem_append_right _ (by simp)) other hother, hpair⟩
    · intro h
      obtain ⟨hold, hpair, hout⟩ := h
      obtain ⟨hhead, htail⟩ := List.pairwise_cons.mp hpair
      have hfree : ∀ row ∈ out.entries, ¬ Clash row.1 new.1 := fun row hrow =>
        hold row hrow new List.mem_cons_self
      have hmid : emit out new.1 new.2 = .ok (out.insert new.1 new.2) := by
        refine emit_eq_ok_iff.mpr ⟨hfree, Entries.put_of_notMem fun hmem => ?_⟩
        obtain ⟨row, hrow, heq⟩ := List.mem_map.mp hmem
        exact hfree row hrow (.inl heq)
      have hentries := (emit_eq_ok_iff.mp hmid).2
      refine ⟨_, hmid, ih.mpr ⟨fun row hrow other hother => ?_, htail, by rw [hentries]; simpa using hout⟩⟩
      rw [hentries] at hrow
      -- a row that is there now was there before, or is the one just put in
      rcases List.mem_append.mp hrow with hrow | hrow
      · exact hold row hrow other (List.mem_cons_of_mem _ hother)
      · obtain rfl := List.mem_singleton.mp hrow
        exact hhead other hother

/-- **The table of a list of rows** is that list, and there is one exactly when no two rows
    clash. -/
theorem emitAll_empty_eq_ok_iff {table : Table} {rows : List (Text × Value)} :
    emitAll ∅ rows = .ok table ↔
      rows.Pairwise (fun row new => ¬ Clash row.1 new.1) ∧ table.entries = rows := by
  rw [emitAll_eq_ok_iff]
  have hempty : (∅ : Table).entries = [] := rfl
  simp [hempty]

theorem exists_emitAll_empty {rows : List (Text × Value)}
    (h : rows.Pairwise fun row new => ¬ Clash row.1 new.1) :
    ∃ table, emitAll ∅ rows = .ok table := by
  have hnodup : (rows.map (·.1)).Nodup :=
    List.pairwise_map.mpr (h.imp fun hclash heq => hclash (.inl heq))
  exact ⟨⟨rows, hnodup⟩, emitAll_empty_eq_ok_iff.mpr ⟨h, rfl⟩⟩

end Theme

end ThemeLens
