import ThemeLens.Proofs.Hover.Certain
import ThemeLens.Proofs.Hover.Guess

/-!
# Hovers under the cursor

A hover is about what is under the cursor, so its span goes up to the cursor or around it. A path that
ends in a dot is one still being typed, and the cursor behind that dot is the one place where this
fails (`BehindDot`). A certain hover there is about the path without the dot, and its span ends in front
of the dot, one byte before the cursor.

There is no second such place (`touches_iff_not_behindDot`). What a cursor inside a path leads to goes
through the segment it reaches into, so it is no shorter than what is typed, but for a dot at the end;
and a bare name is looked for around the cursor in the first place. All this is about cursors in the
text. For an offset behind the end only one thing is said here, that no certain hover has one.
-/

namespace ThemeLens

namespace Hover

variable {text p : Text} {table : Table} {offset o radius : Nat} {h : Hover} {a : Accessor}

/-- The place `o` is the end of the accessor `a`, whose path is `p` and a dot. -/
structure BehindDot (text : Text) (o : Nat) (a : Accessor) (p : Text) : Prop where
  mem : a ∈ Accessor.within text ⟨0, text.size⟩
  stop : a.stop = o
  path : a.path = p ++ ['.']

/-! ## 1. Certain hovers -/

theorem BehindDot.stop_eq (hdot : BehindDot text o a p) : o = a.pathStart + p.size + 1 := by
  rw [← hdot.stop, Accessor.stop, hdot.path, Text.size_append, Text.size_dot, Nat.add_assoc]

/-- The point query finds the accessor that ends there, with all of its path typed. -/
theorem BehindDot.of_at? (hdot : BehindDot text (text.seek offset).offset a p) {hit : Accessor.Hit}
    (hhit : Accessor.at? text offset = some hit) :
    hit.accessor = a ∧ hit.typed.size = a.path.size := by
  obtain ⟨-, hmem, -⟩ := Accessor.at?_eq_some_iff.mp hhit
  have htouch : a ∈ Accessor.touching text (text.seek offset).offset := by
    refine List.mem_filter.mpr ⟨hdot.mem, Span.touches_iff.mpr ⟨?_, Nat.le_of_eq hdot.stop.symm⟩⟩
    rw [← hdot.stop]
    exact Nat.le_add_right _ _
  have haccessor := Accessor.eq_of_mem_touching hmem htouch
  obtain ⟨-, -, -, hoffset⟩ := Accessor.exists_path_of_at? hhit
  rw [haccessor, ← hdot.stop, Accessor.stop] at hoffset
  exact ⟨haccessor, (Nat.add_left_cancel hoffset).symm⟩

/-- **Behind the dot a certain hover is about the path without it.** -/
theorem BehindDot.of_certain? (hdot : BehindDot text (text.seek offset).offset a p)
    (hh : certain? text offset table = some h) :
    h.path = p ∧ h.span = ⟨a.pathStart, a.pathStart + p.size⟩ := by
  obtain ⟨hit, hhit, q, value, hthrough, -, rfl⟩ := certain?_eq_some_iff.mp hh
  obtain ⟨haccessor, htyped⟩ := hdot.of_at? hhit
  rw [htyped, haccessor] at hthrough
  obtain rfl : q = p := hthrough.undotted.unique (.inr hdot.path)
  rw [haccessor]
  exact ⟨rfl, rfl⟩

theorem touches_iff_of_certain? (hh : certain? text offset table = some h) :
    h.span.touches (text.seek offset).offset = true ↔
      ¬ ∃ a p, BehindDot text (text.seek offset).offset a p := by
  constructor
  · rintro htouch ⟨a, p, hdot⟩
    obtain ⟨-, hspan⟩ := hdot.of_certain? hh
    have hstop := (Span.touches_iff.mp htouch).2
    rw [hspan, hdot.stop_eq] at hstop
    exact Nat.not_succ_le_self _ hstop
  · intro hnone
    obtain ⟨hit, hhit, q, value, hthrough, -, rfl⟩ := certain?_eq_some_iff.mp hh
    obtain ⟨more, hpath, -, hoffset⟩ := Accessor.exists_path_of_at? hhit
    rw [hpath] at hthrough
    rw [Span.touches_iff, hoffset]
    refine ⟨Nat.le_add_right _ _, Nat.add_le_add_left ?_ _⟩
    rcases hthrough.le_or_dotted with htyped | ⟨hundotted, hsize⟩
    · exact htyped
    · have hdotted : hit.accessor.path = q ++ ['.'] := hpath.trans hundotted
      obtain ⟨-, hmem, -⟩ := Accessor.at?_eq_some_iff.mp hhit
      refine absurd ⟨hit.accessor, q, (List.mem_filter.mp hmem).1, ?_, hdotted⟩ hnone
      rw [hoffset, hsize, Accessor.stop, hdotted]

/-! ## 2. All hovers -/

theorem touches_of_guessed? (hh : guessed? text offset table radius = some h) :
    h.confidence = .inferred ∧ h.span.touches (text.seek offset).offset = true := by
  obtain ⟨run, value, hrun, -, -, rfl⟩ := guessed?_eq_some_iff.mp hh
  exact ⟨rfl, hrun.touches⟩

/-- **A hover is about what is under the cursor**, which for an offset between places is the one before
    it. A certain hover has its cursor in the text. With the cursor there, the span of a hover touches
    it, unless the hover is certain and the cursor behind the dot that ends a path; and then the hover
    is about the path without that dot, and its span ends one byte before the cursor. -/
theorem touches_iff_not_behindDot (hh : at? text offset table radius = some h) :
    (h.confidence = .high → offset ≤ text.size) ∧
      (offset ≤ text.size → ∃ o, text.RoundsDown offset o ∧
        (h.span.touches o = true ↔ ¬ (h.confidence = .high ∧ ∃ a p, BehindDot text o a p)) ∧
        (h.confidence = .high → ∀ a p, BehindDot text o a p →
          h.path = p ∧ h.span = ⟨a.pathStart, a.pathStart + p.size⟩ ∧ h.span.stop + 1 = o)) := by
  rcases Option.or_eq_some_iff.mp hh with hcertain | ⟨-, hguessed⟩
  · obtain ⟨-, hhigh⟩ : at? text offset table radius = some h ∧ h.confidence = .high :=
      at?_eq_some_high_iff.mpr hcertain
    obtain ⟨hit, hhit, -⟩ := certain?_eq_some_iff.mp hcertain
    obtain ⟨hle, -⟩ := Accessor.at?_eq_some_iff.mp hhit
    refine ⟨fun _ => hle, fun _ => ⟨_, text.roundsDown_seek offset, ?_, ?_⟩⟩
    · rw [touches_iff_of_certain? hcertain]
      simp only [hhigh, true_and]
    · intro _ a p hdot
      obtain ⟨hpath, hspan⟩ := hdot.of_certain? hcertain
      refine ⟨hpath, hspan, ?_⟩
      rw [hspan, hdot.stop_eq]
  · obtain ⟨hinferred, htouches⟩ := touches_of_guessed? hguessed
    have hhigh : h.confidence ≠ .high := by
      rw [hinferred]
      decide
    refine ⟨fun h => absurd h hhigh, fun _ => ⟨_, text.roundsDown_seek offset, ?_, ?_⟩⟩
    · exact iff_of_true htouches fun hdot => hhigh hdot.1
    · exact fun h => absurd h hhigh

/-- A cursor behind the dot of `theme.a.`, and a table that has `a`. -/
theorem at?_dotTyped :
    let text : Text := ['t', 'h', 'e', 'm', 'e', '.', 'a', '.']
    let table : Table := ⟨[(['a'], .scalar (.bool true))], by decide⟩
    BehindDot text 8 ⟨0, .plain, 6, ['a', '.']⟩ ['a'] ∧
      at? text 8 table 0 = some ⟨['a'], .scalar (.bool true), .high, ⟨6, 7⟩⟩ := by
  intro text table
  refine ⟨⟨by decide +kernel, rfl, rfl⟩, ?_⟩
  have hhit : Accessor.at? text 8 = some ⟨⟨0, .plain, 6, ['a', '.']⟩, ['a', '.']⟩ := by
    decide +kernel
  simp only [at?, certain?, hhit, Option.bind_some]
  rfl

/-- Behind `theme.a.` the hover is about `a`, and its span ends in front of the dot. -/
theorem touches_iff_not_behindDot_dotTyped :
    let text : Text := ['t', 'h', 'e', 'm', 'e', '.', 'a', '.']
    let table : Table := ⟨[(['a'], .scalar (.bool true))], by decide⟩
    let h : Hover := ⟨['a'], .scalar (.bool true), .high, ⟨6, 7⟩⟩
    at? text 8 table 0 = some h ∧ 8 ≤ text.size ∧ text.RoundsDown 8 8 ∧
      BehindDot text 8 ⟨0, .plain, 6, ['a', '.']⟩ ['a'] ∧ h.span.touches 8 = false ∧
      h.path = ['a'] ∧ h.span.stop + 1 = 8 := by
  intro text table h
  obtain ⟨hdot, hat⟩ := at?_dotTyped
  obtain ⟨hin, hunder⟩ := touches_iff_not_behindDot hat
  have hle : 8 ≤ text.size := hin rfl
  obtain ⟨o, ho, htouches, hbehind⟩ := hunder hle
  obtain rfl : o = 8 := ho.unique (text.roundsDown_seek 8)
  obtain ⟨hpath, -, hstop⟩ := hbehind rfl _ _ hdot
  have hnot : ¬ h.span.touches 8 = true := fun htouch => htouches.mp htouch ⟨rfl, _, _, hdot⟩
  exact ⟨hat, hle, ho, hdot, Bool.eq_false_iff.mpr hnot, hpath, hstop⟩

/-- Not every hover is in the text and touches its cursor. -/
theorem not_forall_touches :
    ¬ ∀ text offset table radius h, at? text offset table radius = some h →
      offset ≤ text.size ∧ ∃ o, text.RoundsDown offset o ∧ h.span.touches o = true := by
  intro hall
  obtain ⟨-, hat⟩ := at?_dotTyped
  obtain ⟨-, o, ho, htouches⟩ := hall _ _ _ _ _ hat
  obtain rfl : o = 8 := ho.unique (Text.roundsDown_seek _ 8)
  revert htouches
  decide

end Hover

end ThemeLens
