import Mathlib.Data.Prod.Lex
import Mathlib.Order.Lattice
import ThemeLens.Proofs.Text.Place
import ThemeLens.Text.Position

/-!
# Lines and columns against offsets

An editor and the library name the same places in two ways, and every answer crosses from one to the
other. Positions are ordered like the places they name, by line and then by column, and each
character moves the position up in that order (`Position.lt_next`). So the position of a place grows
with its offset, and everything else follows from that.

In the other direction a position may name no place. Its offset is then the one of the last place
that is not beyond it (`exists_offsetAt`). A column that is too large is cut at the end of its line,
since the place behind the line feed is on the next line, and a line that is too large at the end of
the text, since there is no place behind that.
-/

namespace ThemeLens

namespace Position

variable {p q : Position} {c : Char} {s t : Text}

/-! ## 1. The order of positions -/

/-- Positions are ordered by line and, within a line, by column. -/
instance : LinearOrder Position :=
  LinearOrder.lift' (fun p => toLex (p.line, p.column)) (by
    intro p q h
    cases p
    cases q
    simpa using h)

theorem lt_iff : p < q ↔ p.line < q.line ∨ p.line = q.line ∧ p.column < q.column :=
  Prod.Lex.toLex_lt_toLex

theorem le_iff : p ≤ q ↔ p.line < q.line ∨ p.line = q.line ∧ p.column ≤ q.column :=
  Prod.Lex.toLex_le_toLex

theorem lt_next (p : Position) (c : Char) : p < p.next c := by
  rw [lt_iff]
  unfold next
  split
  · exact .inl (Nat.lt_succ_self _)
  · exact .inr ⟨rfl, Nat.lt_succ_self _⟩

/-- The position after a stretch of text that starts at `p`. -/
def advance (p : Position) (s : Text) : Position := s.foldl next p

theorem advance_append (p : Position) (s t : Text) :
    p.advance (s ++ t) = (p.advance s).advance t := List.foldl_append

theorem le_advance (p : Position) (s : Text) : p ≤ p.advance s := by
  induction s generalizing p with
  | nil => exact le_refl p
  | cons c s ih => exact le_trans (le_of_lt (lt_next p c)) (ih (p.next c))

theorem lt_advance (p : Position) (h : s ≠ []) : p < p.advance s := by
  cases s with
  | nil => exact absurd rfl h
  | cons c s => exact lt_of_lt_of_le (lt_next p c) (le_advance (p.next c) s)

theorem line_advance (p : Position) (s : Text) : (p.advance s).line = p.line + s.count '\n' := by
  induction s generalizing p with
  | nil => rfl
  | cons c s ih =>
    show ((p.next c).advance s).line = _
    rw [ih]
    by_cases hc : c = '\n'
    · simp [next, hc]
      omega
    · simp [next, hc]

theorem advance_of_notMem (p : Position) (h : '\n' ∉ s) :
    p.advance s = ⟨p.line, p.column + s.length⟩ := by
  induction s generalizing p with
  | nil => rfl
  | cons c s ih =>
    rw [List.mem_cons, not_or] at h
    show (p.next c).advance s = _
    rw [ih _ h.2]
    simp [next, Ne.symm h.1]
    omega

theorem line_add_column_advance_le (p : Position) (s : Text) :
    (p.advance s).line + (p.advance s).column ≤ p.line + p.column + s.length := by
  induction s generalizing p with
  | nil => exact Nat.le_refl _
  | cons c s ih =>
    have hnext : (p.next c).line + (p.next c).column ≤ p.line + p.column + 1 := by
      unfold next
      split
      · simp only
        omega
      · simp only
        omega
    have hrest := ih (p.next c)
    simp only [List.length_cons]
    show ((p.next c).advance s).line + ((p.next c).advance s).column ≤ _
    omega

/-- The position `column` characters into the line that is `line` lines further on; in the line of
    `p` itself they count from `p` on. -/
def ahead (p : Position) : (line column : Nat) → Position
  | 0, column => ⟨p.line, p.column + column⟩
  | line + 1, column => ⟨p.line + (line + 1), column⟩

theorem zero_ahead (line column : Nat) : ahead ⟨0, 0⟩ line column = ⟨line, column⟩ := by
  cases line <;> simp [ahead]

theorem le_ahead (p : Position) (line column : Nat) : p ≤ p.ahead line column := by
  rw [le_iff]
  cases line with
  | zero => exact .inr ⟨rfl, Nat.le_add_right _ _⟩
  | succ line => exact .inl (Nat.lt_add_of_pos_right (Nat.succ_pos line))

theorem ahead_next_zero (p : Position) (hc : c ≠ '\n') (column : Nat) :
    (p.next c).ahead 0 column = p.ahead 0 (column + 1) := by
  unfold next ahead
  rw [if_neg hc]
  simp only [Nat.add_assoc, Nat.add_comm 1]

theorem ahead_next_newline (p : Position) (line column : Nat) :
    (p.next '\n').ahead line column = p.ahead (line + 1) column := by
  unfold next
  rw [if_pos rfl]
  cases line with
  | zero => simp [ahead]
  | succ line => simp only [ahead, Nat.add_assoc, Nat.add_comm 1]

theorem ahead_next_succ (p : Position) (hc : c ≠ '\n') (line column : Nat) :
    (p.next c).ahead (line + 1) column = p.ahead (line + 1) column := by
  unfold next
  rw [if_neg hc]
  rfl

end Position

namespace Text

open Position (advance)

variable {s t : Text} {p q : Position}

/-! ## 2. From offsets to positions -/

/-- An offset at which the text can be cut: the start of a character, or the end of the text. -/
def IsPlace (t : Text) (o : Nat) : Prop := ∃ s s' : Text, t = s ++ s' ∧ s.size = o

/-- The first place of a text at or behind an offset has the offset `o`; for an offset past the end
    it is the end. -/
structure RoundsUp (t : Text) (offset o : Nat) : Prop where
  place : t.IsPlace o
  le : offset ≤ o ∨ t.size < offset ∧ o = t.size
  first : ∀ o', t.IsPlace o' → offset ≤ o' → o ≤ o'

theorem walk_position_append (p : Position) (s t : Text) :
    Position.walk p (s ++ t) s.size = p.advance s := by
  induction s generalizing p with
  | nil => cases t <;> simp [Position.walk, advance]
  | cons c s ih =>
    have hpos := c.utf8Size_pos
    rw [List.cons_append, Position.walk, size_cons, if_neg (by omega), Nat.add_sub_cancel_left, ih]
    rfl

theorem positionAt_append (s t : Text) : (s ++ t).positionAt s.size = advance ⟨0, 0⟩ s :=
  walk_position_append ⟨0, 0⟩ s t

/-- The walk to an offset ends at a place, the first one that it is not in front of. -/
theorem exists_roundsUp_walk (p : Position) (t : Text) (offset : Nat) :
    ∃ s s', t = s ++ s' ∧ Position.walk p t offset = p.advance s ∧ t.RoundsUp offset s.size := by
  induction t generalizing p offset with
  | nil =>
    refine ⟨[], [], rfl, rfl, ⟨[], [], rfl, rfl⟩, ?_, ?_⟩
    · rw [size_nil]
      omega
    · intro o' _ _
      exact Nat.zero_le o'
  | cons c t ih =>
    by_cases hzero : offset = 0
    · refine ⟨[], c :: t, rfl, ?_, ⟨[], c :: t, rfl, rfl⟩, .inl ?_, ?_⟩
      · rw [Position.walk, if_pos hzero]
        rfl
      · exact Nat.le_of_eq hzero
      · intro o' _ _
        exact Nat.zero_le o'
    · obtain ⟨s, s', rfl, hwalk, -, hle, hfirst⟩ := ih (p.next c) (offset - c.utf8Size)
      refine ⟨c :: s, s', rfl, ?_, ⟨c :: s, s', rfl, rfl⟩, ?_, ?_⟩
      · rw [Position.walk, if_neg hzero, hwalk]
        rfl
      · simp only [size_cons] at hle ⊢
        omega
      · rintro o' ⟨m, m', hm, rfl⟩ ho'
        cases m with
        | nil => exact absurd (Nat.le_zero.mp ho') hzero
        | cons d m =>
          obtain ⟨rfl, hrest⟩ := List.cons_eq_cons.mp hm
          simp only [size_cons] at ho' ⊢
          have := hfirst (size m) ⟨m, m', hrest, rfl⟩ (by omega)
          omega

/-- **The position of an offset** is the one of the next place. -/
theorem exists_roundsUp (t : Text) (offset : Nat) :
    ∃ o, t.RoundsUp offset o ∧ t.positionAt offset = t.positionAt o := by
  obtain ⟨s, s', rfl, hwalk, hrounds⟩ := exists_roundsUp_walk ⟨0, 0⟩ t offset
  refine ⟨_, hrounds, ?_⟩
  rw [positionAt_append]
  exact hwalk

theorem positionAt_lt_positionAt {o o' : Nat} (ho : t.IsPlace o) (ho' : t.IsPlace o') (h : o < o') :
    t.positionAt o < t.positionAt o' := by
  obtain ⟨s, s₁, rfl, rfl⟩ := ho
  obtain ⟨m, m₁, hm, rfl⟩ := ho'
  obtain ⟨between, rfl, rfl⟩ := exists_between hm (Nat.le_of_lt h)
  rw [positionAt_append, ← List.append_assoc, positionAt_append, Position.advance_append]
  refine Position.lt_advance _ ?_
  rintro rfl
  simp at h

theorem line_add_column_positionAt_le (t : Text) (offset : Nat) :
    (t.positionAt offset).line + (t.positionAt offset).column ≤ t.length := by
  obtain ⟨s, s', rfl, hwalk, -⟩ := exists_roundsUp_walk ⟨0, 0⟩ t offset
  have hle := Position.line_add_column_advance_le ⟨0, 0⟩ s
  unfold positionAt
  rw [hwalk, List.length_append]
  simp only at hle
  omega

/-! ## 3. From positions to offsets -/

/-- The last place of a text whose position is not beyond `p` has the offset `o`. -/
structure LastUpTo (t : Text) (p : Position) (o : Nat) : Prop where
  place : t.IsPlace o
  le : t.positionAt o ≤ p
  last : ∀ o', t.IsPlace o' → t.positionAt o' ≤ p → o' ≤ o

theorem LastUpTo.unique {o o' : Nat} (h : t.LastUpTo p o) (h' : t.LastUpTo p o') : o = o' :=
  Nat.le_antisymm (h'.last o h.place h.le) (h.last o' h'.place h'.le)

/-- Read from `p` on, the text up to the place `o` does not lead beyond `q`, and one character more
    does. -/
def StopsAt (t : Text) (p q : Position) (o : Nat) : Prop :=
  ∃ s s', t = s ++ s' ∧ s.size = o ∧ p.advance s ≤ q ∧
    ∀ c, s'.head? = some c → q < (p.advance s).next c

theorem StopsAt.here (hle : p ≤ q) (hnext : ∀ c, t.head? = some c → q < p.next c) :
    t.StopsAt p q 0 := ⟨[], t, rfl, rfl, hle, hnext⟩

theorem StopsAt.cons {c : Char} {o : Nat} (h : t.StopsAt (p.next c) q o) :
    StopsAt (c :: t) p q (c.utf8Size + o) := by
  obtain ⟨s, s', rfl, rfl, hle, hnext⟩ := h
  exact ⟨c :: s, s', rfl, rfl, hle, hnext⟩

/-- Positions grow along the text, so where it first leads beyond a position there is nothing of it
    left behind that does not. -/
theorem StopsAt.lastUpTo {o : Nat} (h : t.StopsAt ⟨0, 0⟩ p o) : t.LastUpTo p o := by
  obtain ⟨s, s', rfl, rfl, hle, hnext⟩ := h
  refine ⟨⟨s, s', rfl, rfl⟩, ?_, ?_⟩
  · rw [positionAt_append]
    exact hle
  · rintro o' ⟨m, m', hm, rfl⟩ hle'
    by_contra hbeyond
    obtain ⟨between, rfl, rfl⟩ := exists_between hm (by omega)
    rw [hm, positionAt_append, Position.advance_append] at hle'
    cases between with
    | nil => simp at hbeyond
    | cons c between =>
      have hlt := hnext c rfl
      have hback := Position.le_advance ((advance ⟨0, 0⟩ s).next c) between
      exact absurd (lt_of_lt_of_le hlt hback) (not_lt_of_ge hle')

theorem stopsAt_columnSize (p : Position) (t : Text) (column : Nat) :
    t.StopsAt p (p.ahead 0 column) (columnSize t column) := by
  induction t generalizing p column with
  | nil =>
    refine .here (Position.le_ahead p 0 column) ?_
    intro c hc
    cases hc
  | cons c t ih =>
    cases column with
    | zero =>
      refine .here (Position.le_ahead p 0 0) ?_
      intro d _
      exact Position.lt_next p d
    | succ column =>
      unfold columnSize
      split
      · rename_i hc
        refine .here (Position.le_ahead p 0 _) ?_
        intro d hd
        obtain rfl : c = d := Option.some.inj hd
        rw [hc, Position.lt_iff]
        exact .inl (Nat.lt_succ_self _)
      · rename_i hc
        have hrest := ih (p.next c) column
        rw [Position.ahead_next_zero p hc] at hrest
        exact hrest.cons

/-- The walk to a line and a column stops in front of the first character that leads beyond. -/
theorem stopsAt_offsetOf (p : Position) (t : Text) (line column : Nat) :
    t.StopsAt p (p.ahead line column) (offsetOf t line column) := by
  induction t generalizing p line with
  | nil =>
    refine .here (Position.le_ahead p line column) ?_
    intro c hc
    cases hc
  | cons c t ih =>
    cases line with
    | zero => exact stopsAt_columnSize p (c :: t) column
    | succ line =>
      unfold offsetOf
      split
      · rename_i hc
        have hrest := ih (p.next c) line
        rw [hc, Position.ahead_next_newline, ← hc] at hrest
        exact hrest.cons
      · rename_i hc
        have hrest := ih (p.next c) (line + 1)
        rw [Position.ahead_next_succ p hc] at hrest
        exact hrest.cons

/-- **The offset of a position** is the one of the last place up to it. -/
theorem lastUpTo_offsetAt (t : Text) (p : Position) : t.LastUpTo p (t.offsetAt p) := by
  have hstops := stopsAt_offsetOf ⟨0, 0⟩ t p.line p.column
  rw [Position.zero_ahead] at hstops
  exact hstops.lastUpTo

theorem offsetAt_positionAt {o : Nat} (ho : t.IsPlace o) : t.offsetAt (t.positionAt o) = o := by
  refine LastUpTo.unique (lastUpTo_offsetAt t _) ⟨ho, le_refl _, ?_⟩
  intro o' ho' hle
  by_contra hlt
  exact absurd (positionAt_lt_positionAt ho ho' (Nat.lt_of_not_le hlt)) (not_lt_of_ge hle)

theorem offsetAt_le_offsetAt (t : Text) (h : p ≤ q) : t.offsetAt p ≤ t.offsetAt q :=
  have hp := lastUpTo_offsetAt t p
  (lastUpTo_offsetAt t q).last _ hp.place (le_trans hp.le h)

theorem IsPlace.le_size {o : Nat} (h : t.IsPlace o) : o ≤ t.size := by
  obtain ⟨s, s', rfl, rfl⟩ := h
  rw [size_append]
  exact Nat.le_add_right _ _

/-! ## 4. Positions that name no place -/

/-- `line` is a line of the text, without its line feed, and `above` is all that is before it. -/
structure IsLine (t above line : Text) : Prop where
  starts : ∀ c, above.getLast? = some c → c = '\n'
  whole : '\n' ∉ line
  ends : ∃ rest, t = above ++ line ++ rest ∧ ∀ c, rest.head? = some c → c = '\n'

theorem advance_of_isLine {above line : Text} (h : t.IsLine above line) :
    advance ⟨0, 0⟩ (above ++ line) = ⟨above.count '\n', line.length⟩ := by
  have hcolumn : (advance ⟨0, 0⟩ above).column = 0 := by
    rcases List.eq_nil_or_concat above with rfl | ⟨front, c, rfl⟩
    · rfl
    · rw [List.concat_eq_append] at h ⊢
      obtain rfl : c = '\n' := h.starts c List.getLast?_concat
      rw [Position.advance_append]
      rfl
  rw [Position.advance_append, Position.advance_of_notMem _ h.whole, hcolumn,
    Position.line_advance]
  simp

theorem offsetAt_of_isLine {above line : Text} (h : t.IsLine above line) {column : Nat}
    (hcolumn : line.length ≤ column) :
    t.offsetAt ⟨above.count '\n', column⟩ = size (above ++ line) := by
  have hend := advance_of_isLine h
  obtain ⟨rest, htext, hrest⟩ := h.ends
  have hstops : t.StopsAt ⟨0, 0⟩ ⟨above.count '\n', column⟩ (size (above ++ line)) := by
    refine ⟨above ++ line, rest, htext, rfl, ?_, ?_⟩
    · rw [hend, Position.le_iff]
      exact .inr ⟨rfl, hcolumn⟩
    · intro c hc
      rw [hend, hrest c hc, Position.lt_iff]
      exact .inl (Nat.lt_succ_self _)
  exact LastUpTo.unique (lastUpTo_offsetAt t _) hstops.lastUpTo

theorem offsetAt_of_count_lt (h : t.count '\n' < p.line) : t.offsetAt p = t.size := by
  have hstops : t.StopsAt ⟨0, 0⟩ p t.size := by
    refine ⟨t, [], (List.append_nil t).symm, rfl, ?_, ?_⟩
    · rw [Position.le_iff, Position.line_advance]
      exact .inl (by simpa using h)
    · intro c hc
      cases hc
  exact LastUpTo.unique (lastUpTo_offsetAt t p) hstops.lastUpTo

/-! ## 5. Spans and ranges -/

theorem spanOf?_of_le (t : Text) (h : p ≤ q) :
    t.spanOf? ⟨p, q⟩ = some ⟨t.offsetAt p, t.offsetAt q⟩ :=
  if_pos ⟨offsetAt_le_offsetAt t h, offsetAt_le_size t q⟩

theorem spanOf?_rangeOf {start stop : Nat} (hstart : t.IsPlace start) (hstop : t.IsPlace stop)
    (hle : start ≤ stop) : t.spanOf? (t.rangeOf ⟨start, stop⟩) = some ⟨start, stop⟩ := by
  have hrange : t.rangeOf ⟨start, stop⟩ = ⟨t.positionAt start, t.positionAt stop⟩ := by
    unfold rangeOf Span.clampTo
    rw [Nat.min_eq_left hstart.le_size, Nat.min_eq_left hstop.le_size]
  rw [hrange]
  unfold spanOf?
  rw [offsetAt_positionAt hstart, offsetAt_positionAt hstop]
  exact if_pos ⟨hle, hstop.le_size⟩

/-- What can be cut out of a text comes back from the editor as the span it was cut out of. -/
theorem spanOf?_rangeOf_of_slice? {span : Span} {m : Text} (h : t.slice? span = some m) :
    t.spanOf? (t.rangeOf span) = some span := by
  obtain ⟨s, s', rfl, hstart, hstop⟩ := slice?_eq_some_iff.mp h
  refine spanOf?_rangeOf ⟨s, m ++ s', List.append_assoc _ _ _, hstart⟩ ⟨s ++ m, s', rfl, ?_⟩ ?_
  · rw [size_append, hstart, hstop]
  · exact Nat.le.intro hstop

/-- **Lines and columns against offsets.** Positions of places grow with the offset, an offset
    between places has the position of the next one, and a position has the offset of the last
    place up to it. So offsets survive the way to a position and back, what is too large is cut at
    the end of the line or of the text, and ranges in order are spans. Where the length of a text
    fits into 32 bits, so do all lines and columns. -/
theorem positions_agree_with_offsets (t : Text) :
    (∀ o o', t.IsPlace o → t.IsPlace o' → o < o' → t.positionAt o < t.positionAt o') ∧
    (∀ offset, ∃ o, t.RoundsUp offset o ∧ t.positionAt offset = t.positionAt o) ∧
    (∀ p, t.LastUpTo p (t.offsetAt p)) ∧
    (∀ o, t.IsPlace o → t.offsetAt (t.positionAt o) = o) ∧
    (∀ above line column, t.IsLine above line → line.length ≤ column →
      t.offsetAt ⟨above.count '\n', column⟩ = size (above ++ line)) ∧
    (∀ p, t.count '\n' < p.line → t.offsetAt p = t.size) ∧
    (∀ r : Range, r.start ≤ r.stop → (t.spanOf? r).isSome) ∧
    (∀ s : Span, t.IsPlace s.start → t.IsPlace s.stop → s.start ≤ s.stop →
      t.spanOf? (t.rangeOf s) = some s) ∧
    (t.length < UInt32.size → ∀ offset,
      (t.positionAt offset).line < UInt32.size ∧ (t.positionAt offset).column < UInt32.size) := by
  refine ⟨?_, exists_roundsUp t, lastUpTo_offsetAt t, ?_, ?_, ?_, ?_, ?_, ?_⟩
  · intro o o' ho ho' h
    exact positionAt_lt_positionAt ho ho' h
  · intro o ho
    exact offsetAt_positionAt ho
  · intro above line column hline hcolumn
    exact offsetAt_of_isLine hline hcolumn
  · intro p h
    exact offsetAt_of_count_lt h
  · intro r h
    rw [spanOf?_of_le t h]
    rfl
  · intro s hstart hstop hle
    exact spanOf?_rangeOf hstart hstop hle
  · intro h offset
    have := line_add_column_positionAt_le t offset
    omega

end Text

end ThemeLens
