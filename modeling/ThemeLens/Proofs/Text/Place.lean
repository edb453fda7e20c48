import ThemeLens.Text.Basic

/-!
# Places as splits of a text

A byte offset is a number, and most numbers are no place of a text. What a proof wants instead is
the two halves: a place is a way of writing the text as `s ++ t`, and its offset is the size of
`s`. The functions of the model walk to an offset; this file says once which halves they return,
so that nothing after it walks.

The offset determines the split (`append_inj_of_size`), and `seek` finds it when there is one
(`seek_append`). When there is none it stops at the last split before it, which makes its offset
the given one rounded down to a place (`roundsDown_seek`).
-/

namespace ThemeLens

namespace Text

/-! ## 1. Offsets determine splits -/

theorem size_eq_zero_iff {t : Text} : t.size = 0 ↔ t = [] := by
  refine ⟨fun h => ?_, fun h => by rw [h]; rfl⟩
  have := length_le_size t
  exact List.eq_nil_of_length_eq_zero (by omega)

/-- Of two splits of a text, the later one goes on from the earlier one. -/
theorem exists_between {s t s' t' : Text} (h : s ++ t = s' ++ t') (hle : s.size ≤ s'.size) :
    ∃ m, s' = s ++ m ∧ t = m ++ t' := by
  rcases List.append_eq_append_iff.mp h with ⟨m, hs', ht⟩ | ⟨m, hs, ht'⟩
  · exact ⟨m, hs', ht⟩
  · have hsize := congrArg size hs
    rw [size_append] at hsize
    obtain rfl : m = [] := size_eq_zero_iff.mp (by omega)
    rw [List.append_nil] at hs
    refine ⟨[], ?_, ?_⟩
    · rw [hs, List.append_nil]
    · exact ht'.symm

theorem append_inj_of_size {s t s' t' : Text} (h : s ++ t = s' ++ t') (hsize : s.size = s'.size) :
    s = s' ∧ t = t' := by
  obtain ⟨m, hs', ht⟩ := exists_between h (Nat.le_of_eq hsize)
  rw [hs', size_append] at hsize
  obtain rfl : m = [] := size_eq_zero_iff.mp (by omega)
  rw [List.append_nil] at hs'
  exact ⟨hs'.symm, ht⟩

/-! ## 2. Going to an offset -/

theorem walk_append (before s t : Text) : walk before (s ++ t) s.size = ⟨s.reverse ++ before, t⟩ := by
  induction s generalizing before with
  | nil =>
    cases t with
    | nil => rfl
    | cons c t =>
      have := c.utf8Size_pos
      rw [List.nil_append, walk, if_neg (by rw [size_nil]; omega)]
      rfl
  | cons c s ih =>
    rw [List.cons_append, walk, size_cons, if_pos (Nat.le_add_right _ _), Nat.add_sub_cancel_left,
      ih]
    simp

theorem seek_append (s t : Text) : (s ++ t).seek s.size = ⟨s.reverse, t⟩ := by
  rw [seek, walk_append, List.append_nil]

theorem before_le_offset_walk (before t : Text) (distance : Nat) :
    before.size ≤ (walk before t distance).offset := by
  induction t generalizing before distance with
  | nil => exact Nat.le_refl _
  | cons c t ih =>
    rw [walk]
    split
    · exact Nat.le_trans (Nat.le_add_left _ _) (ih (c :: before) _)
    · exact Nat.le_refl _

theorem size_le_offset_walk (before s t : Text) {distance : Nat} (h : s.size ≤ distance) :
    before.size + s.size ≤ (walk before (s ++ t) distance).offset := by
  induction s generalizing before distance with
  | nil => exact before_le_offset_walk before t distance
  | cons c s ih =>
    rw [size_cons] at h ⊢
    rw [List.cons_append, walk, if_pos (by omega)]
    have := ih (c :: before) (show size s ≤ distance - c.utf8Size by omega)
    rw [size_cons] at this
    omega

/-- The last place of a text at or before an offset has the offset `o`. -/
structure RoundsDown (t : Text) (offset o : Nat) : Prop where
  place : ∃ s s' : Text, t = s ++ s' ∧ s.size = o
  le : o ≤ offset
  last : ∀ s s' : Text, t = s ++ s' → s.size ≤ offset → s.size ≤ o

theorem RoundsDown.unique {t : Text} {offset o o' : Nat} (h : RoundsDown t offset o)
    (h' : RoundsDown t offset o') : o = o' := by
  obtain ⟨s, s', ht, rfl⟩ := h.place
  obtain ⟨m, m', ht', rfl⟩ := h'.place
  exact Nat.le_antisymm (h'.last s s' ht h.le) (h.last m m' ht' h'.le)

theorem roundsDown_seek (t : Text) (offset : Nat) :
    RoundsDown t offset (t.seek offset).offset where
  place := ⟨_, _, (text_seek t offset).symm, size_reverse _⟩
  le := offset_seek_le t offset
  last := by
    intro s s' h hle
    rw [h]
    have := size_le_offset_walk [] s s' hle
    rwa [size_nil, Nat.zero_add] at this

theorem place?_eq_some_iff {t : Text} {offset : Nat} {k : Cursor} :
    t.place? offset = some k ↔ k.text = t ∧ k.offset = offset := by
  unfold place?
  constructor
  · intro h
    obtain ⟨hoffset, rfl⟩ := Option.ite_none_right_eq_some.mp h |>.imp_right Option.some.inj
    exact ⟨text_seek t offset, hoffset⟩
  · intro h
    obtain ⟨rfl, rfl⟩ := h
    have hseek : k.text.seek k.offset = k := by
      rw [Cursor.text, Cursor.offset, ← size_reverse, seek_append, List.reverse_reverse]
    rw [hseek]
    exact if_pos rfl

/-- **The characters of a span** are the middle of a text between halves of the right sizes. -/
theorem slice?_eq_some_iff {t m : Text} {start stop : Nat} :
    t.slice? ⟨start, stop⟩ = some m ↔
      ∃ s s', t = s ++ m ++ s' ∧ s.size = start ∧ start + m.size = stop := by
  unfold slice?
  constructor
  · intro h
    obtain ⟨hle, h⟩ := Option.ite_none_right_eq_some.mp h
    obtain ⟨k, hk, h⟩ := Option.bind_eq_some_iff.mp h
    obtain ⟨k', hk', rfl⟩ := Option.map_eq_some_iff.mp h
    obtain ⟨rfl, hstart⟩ := place?_eq_some_iff.mp hk
    obtain ⟨hafter, hlength⟩ := place?_eq_some_iff.mp hk'
    refine ⟨k.before.reverse, k'.after, ?_, ?_, ?_⟩
    · rw [List.append_assoc, ← Cursor.text, hafter, Cursor.text]
    · rw [size_reverse]
      exact hstart
    · simp only [Cursor.offset, Span.length] at hlength hle
      rw [size_reverse, hlength]
      omega
  · intro h
    obtain ⟨s, s', rfl, rfl, rfl⟩ := h
    have hfirst : (s ++ m ++ s').place? s.size = some ⟨s.reverse, m ++ s'⟩ :=
      place?_eq_some_iff.mpr ⟨by simp [Cursor.text], size_reverse s⟩
    have hsecond : (m ++ s').place? m.size = some ⟨m.reverse, s'⟩ :=
      place?_eq_some_iff.mpr ⟨by simp [Cursor.text], size_reverse m⟩
    rw [if_pos (Nat.le_add_right _ _), hfirst, Option.bind_some, Span.length,
      Nat.add_sub_cancel_left, hsecond, Option.map_some, List.reverse_reverse]

/-! ## 3. Editing -/

/-- The text with a span of it replaced, if the span is ordered and both its ends are places. -/
def splice? (t : Text) (s : Span) (new : Text) : Option Text :=
  if s.start ≤ s.stop then
    (t.place? s.start).bind fun k =>
      (t.place? s.stop).map fun k' => k.before.reverse ++ new ++ k'.after
  else none

theorem splice?_append (s m s' new : Text) :
    (s ++ m ++ s').splice? ⟨s.size, s.size + m.size⟩ new = some (s ++ new ++ s') := by
  have hstart : (s ++ m ++ s').place? s.size = some ⟨s.reverse, m ++ s'⟩ :=
    place?_eq_some_iff.mpr ⟨by simp [Cursor.text], size_reverse s⟩
  have hstop : (s ++ m ++ s').place? (s.size + m.size) = some ⟨(s ++ m).reverse, s'⟩ :=
    place?_eq_some_iff.mpr
      ⟨by simp [Cursor.text], by rw [Cursor.offset, size_reverse, size_append]⟩
  unfold splice?
  rw [if_pos (Nat.le_add_right _ _), hstart, Option.bind_some, hstop, Option.map_some,
    List.reverse_reverse]

end Text

/-! ## 4. Lines -/

/-- What is before the line of a place is nothing or ends in a line feed. -/
theorem Cursor.exists_lineStart (k : Cursor) :
    ∃ above line, k.text = above ++ line ++ k.after ∧ above.size = k.lineStart ∧
      k.offset = (above ++ line).size ∧ ∀ c, above.getLast? = some c → c = '\n' := by
  have hsplit := List.takeWhile_append_dropWhile (p := (· != '\n')) (l := k.before)
  refine ⟨(k.before.dropWhile (· != '\n')).reverse, (k.before.takeWhile (· != '\n')).reverse,
    ?_, Text.size_reverse _, ?_, ?_⟩
  · rw [← List.reverse_append, hsplit, Cursor.text]
  · rw [← List.reverse_append, hsplit, Text.size_reverse, Cursor.offset]
  · intro c hc
    rw [List.getLast?_reverse] at hc
    have h := List.head?_dropWhile_not (· != '\n') k.before
    rw [hc] at h
    simpa using h

end ThemeLens
