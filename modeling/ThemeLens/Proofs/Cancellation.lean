import ThemeLens.Cancellation

/-!
# What a cancelled scan serves

A scan polls once before each of its items, and all that the answers decide is a number: how many
polls say no before the first that says yes (`granted`). The scan serves that many items, the first
ones (`served_eq_take`). What the later polls would have said makes no difference, and of two scans
over the same items the one that is stopped earlier serves a beginning of what the other serves.
-/

namespace ThemeLens.Polls

variable {α : Type} {polls polls' : Polls}

/-- The number of polls that say no before the first that says yes, of `limit` polls in turn. -/
def granted (polls : Polls) (limit : Nat) : Nat :=
  ((List.range limit).takeWhile fun i => !polls i).length

theorem servedFrom_eq_take (polls : Polls) (i : Nat) (items : List α) :
    servedFrom polls i items =
      items.take ((List.range' i items.length).takeWhile fun j => !polls j).length := by
  induction items generalizing i with
  | nil => rfl
  | cons item items ih =>
    rw [servedFrom, List.length_cons, List.range'_succ, List.takeWhile_cons]
    by_cases hyes : polls i = true
    · simp [hyes]
    · simp [hyes, ih]

/-- **A scan serves as many items as polls say no**, from the first on. -/
theorem served_eq_take (polls : Polls) (items : List α) :
    served polls items = items.take (polls.granted items.length) := by
  rw [served, servedFrom_eq_take, granted, List.range_eq_range']

theorem served_isPrefix_served {items : List α}
    (h : polls.granted items.length ≤ polls'.granted items.length) :
    served polls items <+: served polls' items := by
  rw [served_eq_take, served_eq_take]
  exact List.take_prefix_take_left h

end ThemeLens.Polls
