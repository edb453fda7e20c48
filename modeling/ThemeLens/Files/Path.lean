import ThemeLens.Text.Basic

/-!
# Paths of files

Paths are texts, and most of what is done with them goes by their text alone: the directory above
a path is the path without its last part, whether or not anything exists there. Slashes and parts
that are a single dot count for nothing at the end of a path, except that a path may be the root
`/` or a lone dot.
-/

namespace ThemeLens.Path

/-- Drops what counts for nothing at the end of a path, which is given backwards. -/
def trimEndFrom : Text → Text
  | [] => []
  | ['/'] => ['/']
  | '/' :: rest => trimEndFrom rest
  | '.' :: '/' :: rest => trimEndFrom ('/' :: rest)
  | c :: rest => c :: rest

/-- The path of the directory above; the root and the empty path have none. -/
def parent? (path : Text) : Option Text :=
  let backwards := trimEndFrom path.reverse
  if backwards = [] ∨ backwards = ['/'] then none
  else some (trimEndFrom (backwards.dropWhile (· != '/'))).reverse

/-- The path of an entry of a directory. -/
def join (directory name : Text) : Text :=
  if directory.isEmpty || directory.getLast? == some '/' then directory ++ name
  else directory ++ '/' :: name

theorem length_trimEndFrom_le (t : Text) : (trimEndFrom t).length ≤ t.length := by
  fun_induction trimEndFrom t <;> simp_all <;> omega

theorem trimEndFrom_cases (t : Text) :
    trimEndFrom t = [] ∨ trimEndFrom t = ['/'] ∨ ∃ c rest, trimEndFrom t = c :: rest ∧ c ≠ '/' := by
  fun_induction trimEndFrom t with
  | case1 => simp
  | case2 => simp
  | case3 _ _ ih => exact ih
  | case4 _ ih => exact ih
  | case5 c rest h₁ h₂ h₃ =>
    refine Or.inr (Or.inr ⟨c, rest, rfl, fun hc => ?_⟩)
    subst hc
    exact h₂ rfl

/-- The directory above a path has a shorter path. -/
theorem length_parent?_lt {path above : Text} (h : parent? path = some above) :
    above.length < path.length := by
  simp only [parent?] at h
  split at h
  · simp at h
  · rename_i hne
    simp only [Option.some.injEq] at h
    rw [← h, List.length_reverse]
    have h₁ := length_trimEndFrom_le ((trimEndFrom path.reverse).dropWhile (· != '/'))
    have h₂ := length_trimEndFrom_le path.reverse
    rw [List.length_reverse] at h₂
    rcases trimEndFrom_cases path.reverse with h' | h' | ⟨c, rest, h', hc⟩
    · exact absurd (Or.inl h') hne
    · exact absurd (Or.inr h') hne
    · rw [h'] at h₁ h₂ ⊢
      have hdrop : (c :: rest).dropWhile (· != '/') = rest.dropWhile (· != '/') := by
        simp [hc]
      have := (List.dropWhile_suffix (· != '/') (l := rest)).length_le
      rw [hdrop] at h₁ ⊢
      simp only [List.length_cons] at h₂
      omega

/-- A directory and all those above it, nearest first. -/
def upwards (directory : Text) : List Text :=
  directory ::
    match _h : parent? directory with
    | none => []
    | some above => upwards above
termination_by directory.length
decreasing_by exact length_parent?_lt _h

end ThemeLens.Path
