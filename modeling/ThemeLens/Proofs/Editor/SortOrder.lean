import Mathlib.Data.Nat.Init
import ThemeLens.Editor
import ThemeLens.Proofs.Completion.Listing

/-!
# Items sorted by their sort texts

An editor is free to sort the items of a completion, and it does so by their sort texts, as strings.
The sort text of an item is its place in the list, written out with zeros in front. Numerals of one
width compare as their numbers do (`padded_lt_padded`), so as long as five digits are enough, sorting
gives the order of the list back.

Five digits are not always enough. The item behind a hundred thousand others has a sort text of six
digits, which as a string stands in front of `99999`; a list keeps its order exactly when it has no
such item (`sortTexts_pairwise_iff`). Nothing keeps a list from having one. A table of single segments
is listed in full (`length_forPath`), however long it is.
-/

namespace ThemeLens

/-! ## 1. Numerals of one width -/

namespace Editor

/-- A numeral with zeros in front of it, at least `width` digits wide. -/
def padded (width n : Nat) : Text :=
  List.replicate (width - (Nat.toDigits 10 n).length) '0' ++ Nat.toDigits 10 n

theorem sortKey_eq_padded (index : Nat) : sortKey index = padded 5 index := rfl

theorem length_padded {width n : Nat} (h : (Nat.toDigits 10 n).length ≤ width) :
    (padded width n).length = width := by
  rw [padded, List.length_append, List.length_replicate, Nat.sub_add_cancel h]

theorem length_toDigits_mono {i j : Nat} (h : i ≤ j) :
    (Nat.toDigits 10 i).length ≤ (Nat.toDigits 10 j).length := by
  have hdigits {n : Nat} := Nat.length_toDigits_le_iff (n := n) (b := 10) (by decide)
    (Nat.length_toDigits_pos (b := 10) (n := j))
  exact hdigits.mpr (Nat.lt_of_le_of_lt h (hdigits.mp (Nat.le_refl _)))

theorem length_toDigits_div {width n : Nat} (hwidth : 0 < width)
    (h : (Nat.toDigits 10 n).length ≤ width + 1) : (Nat.toDigits 10 (n / 10)).length ≤ width := by
  rw [Nat.toDigits_eq_if (by decide)] at h
  split at h
  · rename_i hlt
    rw [Nat.div_eq_of_lt hlt, Nat.toDigits_zero]
    exact hwidth
  · rw [List.length_append, List.length_singleton] at h
    exact Nat.le_of_succ_le_succ h

theorem padded_one {n : Nat} (hn : n < 10) : padded 1 n = [Nat.digitChar n] := by
  rw [padded, Nat.toDigits_of_lt_base hn]
  rfl

/-- The last digit comes off the end. -/
theorem padded_succ {width : Nat} (hwidth : 0 < width) (n : Nat) :
    padded (width + 1) n = padded width (n / 10) ++ [Nat.digitChar (n % 10)] := by
  unfold padded
  rw [Nat.toDigits_eq_if (by decide)]
  split
  · rename_i hlt
    -- one digit, and `n / 10` is written as the last of the zeros
    obtain ⟨w, rfl⟩ := Nat.exists_eq_succ_of_ne_zero (Nat.ne_of_gt hwidth)
    rw [Nat.div_eq_of_lt hlt, Nat.mod_eq_of_lt hlt, Nat.toDigits_zero]
    simp [List.replicate_succ']
  · rw [List.length_append, List.length_singleton, Nat.add_sub_add_right, List.append_assoc]

theorem append_lt_append_of_lt {s t : Text} (hlength : s.length = t.length) (h : s < t)
    (x y : Text) : s ++ x < t ++ y := by
  induction s generalizing t with
  | nil =>
    obtain rfl : t = [] := List.eq_nil_of_length_eq_zero hlength.symm
    exact absurd h (List.not_lt_nil [])
  | cons c s ih =>
    cases t with
    | nil => cases hlength
    | cons d t =>
      rw [List.cons_append, List.cons_append, List.cons_lt_cons_iff]
      rcases List.cons_lt_cons_iff.mp h with hlt | ⟨rfl, hlt⟩
      · exact .inl hlt
      · exact .inr ⟨rfl, ih (Nat.succ.inj hlength) hlt⟩

theorem digitChar_lt_digitChar {a b : Nat} (h : a < b) (hb : b < 10) :
    Nat.digitChar a < Nat.digitChar b := by
  rw [Char.lt_def, UInt32.lt_iff_toNat_lt]
  show (Nat.digitChar a).toNat < (Nat.digitChar b).toNat
  rw [Nat.toNat_digitChar_of_lt_ten hb, Nat.toNat_digitChar_of_lt_ten (Nat.lt_trans h hb)]
  exact Nat.add_lt_add_left h 48

/-- **Numerals of one width compare as their numbers do.** The induction is on the width, and the last
    digit counts only if the numbers without it are the same. -/
theorem padded_lt_padded {width : Nat} (hwidth : 0 < width) {i j : Nat} (h : i < j)
    (hj : (Nat.toDigits 10 j).length ≤ width) : padded width i < padded width j := by
  induction width, hwidth using Nat.le_induction generalizing i j with
  | base =>
    have hlt : j < 10 := (Nat.length_toDigits_le_iff (by decide) (by decide)).mp hj
    rw [padded_one hlt, padded_one (Nat.lt_trans h hlt)]
    exact List.cons_lt_cons_iff.mpr (.inl (digitChar_lt_digitChar h hlt))
  | succ width hwidth ih =>
    rw [padded_succ hwidth, padded_succ hwidth]
    have hdiv := length_toDigits_div hwidth hj
    rcases Nat.lt_or_eq_of_le (Nat.div_le_div_right (c := 10) (Nat.le_of_lt h)) with hlt | heq
    · have hi := Nat.le_trans (length_toDigits_mono (Nat.le_of_lt hlt)) hdiv
      have hlength : (padded width (i / 10)).length = (padded width (j / 10)).length := by
        rw [length_padded hi, length_padded hdiv]
      exact append_lt_append_of_lt hlength (ih hlt hdiv) _ _
    · rw [heq]
      have hmod : i % 10 < j % 10 := by omega
      have hdigit := digitChar_lt_digitChar hmod (Nat.mod_lt j (by decide))
      exact List.append_left_lt (List.cons_lt_cons_iff.mpr (.inl hdigit))

/-! ## 2. Lists of any length -/

/-- A table with the first numbers for keys. -/
def numbered (count : Nat) : Table where
  entries := (List.range count).map fun i => (Nat.toDigits 10 i, .scalar (.bool true))
  nodup := by
    rw [List.map_map]
    refine List.Pairwise.map _ ?_ List.nodup_range
    intro i j hne h
    have hread := congrArg (Nat.ofDigitChars 10 · 0) h
    exact hne (by simpa using hread)

theorem size_numbered (count : Nat) : (numbered count).size = count := by
  simp [numbered, OrderedMap.size]

theorem isSegment_of_mem_keys_numbered {count : Nat} {key : Text}
    (h : key ∈ (numbered count).keys) : Suggestion.IsSegment key := by
  rw [OrderedMap.keys, numbered, List.map_map] at h
  obtain ⟨i, -, rfl⟩ := List.mem_map.mp h
  refine ⟨Nat.toDigits_ne_nil, ?_⟩
  intro hdot
  have hdigit := Nat.isDigit_of_mem_toDigits (by decide) (by decide) hdot
  revert hdigit
  decide

/-! ## 3. The items of a list -/

theorem map_sortText_completionItems (text : Text) (c : Completion) :
    (completionItems text c).map (·.sortText) = (List.range c.suggestions.length).map sortKey := by
  apply List.ext_getElem
  · simp [completionItems]
  · intro i _ _
    simp [completionItems, CompletionItem.ofSuggestion]

theorem sortKeys_pairwise {count : Nat} (h : count ≤ 100000) :
    ((List.range count).map sortKey).Pairwise (· < ·) := by
  rw [List.pairwise_map]
  refine List.pairwise_lt_range.imp_of_mem ?_
  intro i j _ hj hlt
  have hdigits : (Nat.toDigits 10 j).length ≤ 5 :=
    (Nat.length_toDigits_le_iff (by decide) (by decide)).mpr
      (Nat.lt_of_lt_of_le (List.mem_range.mp hj) h)
  rw [sortKey_eq_padded, sortKey_eq_padded]
  exact padded_lt_padded (by decide) hlt hdigits

/-- The numeral of 100000 has one digit more, and it is the lesser string. -/
theorem length_le_of_sortTexts_pairwise {text : Text} {c : Completion}
    (h : ((completionItems text c).map (·.sortText)).Pairwise (· < ·)) :
    c.suggestions.length ≤ 100000 := by
  rw [map_sortText_completionItems, List.pairwise_map] at h
  by_contra hlong
  have hlt := List.pairwise_iff_getElem.mp h 99999 100000 (by simp; omega) (by simp; omega) (by decide)
  rw [List.getElem_range, List.getElem_range] at hlt
  exact absurd hlt (by decide)

/-- **Sort texts keep the order of a list** for its first hundred thousand items, and for all of them
    exactly if there are no more. -/
theorem sortTexts_pairwise_iff (text : Text) (c : Completion) :
    (((completionItems text c).take 100000).map (·.sortText)).Pairwise (· < ·) ∧
      (((completionItems text c).map (·.sortText)).Pairwise (· < ·) ↔
        c.suggestions.length ≤ 100000) := by
  refine ⟨?_, length_le_of_sortTexts_pairwise, ?_⟩
  · rw [List.map_take, map_sortText_completionItems, ← List.map_take, List.take_range]
    exact sortKeys_pairwise (Nat.min_le_left _ _)
  · intro hshort
    rw [map_sortText_completionItems]
    exact sortKeys_pairwise hshort

/-- Behind `theme.`, with a hundred thousand and one numbers to choose from, the items do not stay in
    order. -/
theorem not_forall_sortTexts_pairwise :
    ¬ ∀ text offset table c, Completion.at? text offset table .never = some c →
      ((completionItems text c).map (·.sortText)).Pairwise (· < ·) := by
  intro hall
  have hhit : Accessor.at? Accessor.keyword 6 = some ⟨⟨0, .plain, 6, []⟩, []⟩ := by decide +kernel
  obtain ⟨table, hkeys, hsize⟩ : ∃ table : Table,
      (∀ key ∈ table.keys, Suggestion.IsSegment key) ∧ table.size = 100001 :=
    ⟨numbered 100001, fun _ => isSegment_of_mem_keys_numbered, size_numbered 100001⟩
  have hpairwise := hall Accessor.keyword 6 table _ (by rw [Completion.at?, hhit, Option.map_some])
  have hlong : 100001 ≤ 100000 := by
    rw [← hsize, ← Suggestion.length_forPath hkeys]
    exact length_le_of_sortTexts_pairwise hpairwise
  exact absurd hlong (by decide)

end Editor

end ThemeLens
