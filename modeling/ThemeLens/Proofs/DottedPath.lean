import Mathlib.Data.List.DropRight
import ThemeLens.DottedPath
import ThemeLens.Proofs.Text.Nesting

/-!
# Boundaries and nodes

A path that is being typed has a boundary, its part up to the last dot. A boundary is empty or ends
in a dot, and any text of that kind is the boundary of whatever is typed behind it without a dot
(`boundary_append`).

The paths of a table are told apart by nodes. A path is within a node when it is the node's own or
goes on below it, so the nodes on the way to one path stand above one another (`eq_or_isBelow`).
-/

namespace ThemeLens.DottedPath

/-! ## 1. Boundaries -/

theorem boundary_eq (path : Text) :
    boundary path = [] ∨ ∃ front, boundary path = front ++ ['.'] := by
  unfold boundary
  cases h : path.reverse.dropWhile (· != '.') with
  | nil => exact .inl rfl
  | cons c t =>
    have hc := Text.head?_dropWhile (· != '.') path.reverse c (by rw [h]; rfl)
    obtain rfl : c = '.' := by simpa using hc
    exact .inr ⟨t.reverse, List.reverse_cons⟩

theorem boundary_append {front part : Text} (hfront : front = [] ∨ ∃ t, front = t ++ ['.'])
    (hpart : '.' ∉ part) : boundary (front ++ part) = front := by
  have hstop : ∀ c, front.reverse.head? = some c → (c != '.') = false := by
    intro c hc
    rcases hfront with rfl | ⟨t, rfl⟩
    · cases hc
    · rw [List.reverse_append] at hc
      cases hc
      rfl
  have hall : ∀ c ∈ part.reverse, (c != '.') = true := by
    intro c hc
    rw [bne_iff_ne]
    rintro rfl
    exact hpart (List.mem_reverse.mp hc)
  rw [boundary, List.reverse_append, Text.dropWhile_stretch hall hstop, List.reverse_reverse]

theorem boundary_eq_self {front : Text} (hfront : front = [] ∨ ∃ t, front = t ++ ['.']) :
    boundary front = front := by
  have h := boundary_append hfront List.not_mem_nil
  rwa [List.append_nil] at h

theorem partialSegment_append_dot (front rest : Text) :
    partialSegment (front ++ '.' :: rest) = partialSegment rest := by
  unfold partialSegment
  rw [List.reverse_append, List.reverse_cons, List.append_assoc, List.takeWhile_append]
  split
  · rename_i hlength
    -- no dot in `rest`: all of it is taken, and the dot in front of it is where that ends
    have hall := (List.takeWhile_prefix (· != '.') (l := rest.reverse)).eq_of_length hlength
    rw [hall]
    simp
  · rfl

theorem rdropWhile_dot_eq_self_iff {path : Text} :
    path.rdropWhile (· == '.') = path ↔ path.getLast? ≠ some '.' := by
  rw [List.rdropWhile_eq_self_iff]
  rcases List.eq_nil_or_concat path with rfl | ⟨front, c, rfl⟩
  · simp
  · simp

/-! ## 2. Nodes -/

/-- Is `path` at `node`, or below it? -/
def isWithin (path node : Text) : Bool := path == node || isBelow path node

/-- The number of the first of some paths that is within a node. -/
def firstWithin (paths : List Text) (node : Text) : Nat := paths.findIdx (isWithin · node)

theorem isWithin_iff {path node : Text} :
    isWithin path node = true ↔ path = node ∨ isBelow path node = true := by
  rw [isWithin, Bool.or_eq_true, beq_iff_eq]

theorem isWithin_iff_exists {path node : Text} :
    isWithin path node = true ↔ path = node ∨ ∃ rest, path = node ++ '.' :: rest := by
  rw [isWithin_iff, isBelow_iff]

/-- Of two nodes that a path is within, one is within the other. -/
theorem eq_or_isBelow {path q q' : Text} (h : isWithin path q = true)
    (h' : isWithin path q' = true) : q = q' ∨ isBelow q q' = true ∨ isBelow q' q = true := by
  rcases isWithin_iff_exists.mp h with rfl | ⟨rest, rfl⟩
  · exact (isWithin_iff.mp h').imp_right .inl
  rcases isWithin_iff_exists.mp h' with rfl | ⟨rest', heq⟩
  · exact .inr (.inr (isBelow_iff.mpr ⟨rest, rfl⟩))
  rcases List.append_eq_append_iff.mp heq with ⟨m, rfl, hm⟩ | ⟨m, rfl, hm⟩
  · cases m with
    | nil => exact .inl (List.append_nil q).symm
    | cons c m =>
      cases hm
      exact .inr (.inr (isBelow_iff.mpr ⟨m, rfl⟩))
  · cases m with
    | nil => exact .inl (List.append_nil q')
    | cons c m =>
      cases hm
      exact .inr (.inl (isBelow_iff.mpr ⟨m, rfl⟩))

/-- One path is the other, or goes on below it. -/
def Clash (p q : Text) : Prop :=
  p = q ∨ (∃ rest, p = q ++ '.' :: rest) ∨ ∃ rest, q = p ++ '.' :: rest

theorem Clash.symm {p q : Text} (h : Clash p q) : Clash q p := by
  rcases h with h | h | h
  · exact .inl h.symm
  · exact .inr (.inr h)
  · exact .inr (.inl h)

/-- A first path within a node stays the first when more paths follow. -/
theorem firstWithin_append {paths : List Text} {node : Text} (more : List Text)
    (h : ∃ path ∈ paths, isWithin path node = true) :
    firstWithin (paths ++ more) node = firstWithin paths node ∧
      firstWithin paths node < paths.length := by
  have hlt := List.findIdx_lt_length.mpr h
  refine ⟨?_, hlt⟩
  rw [firstWithin, List.findIdx_append, if_pos hlt]
  rfl

theorem length_le_firstWithin_append {paths : List Text} {node : Text} (more : List Text)
    (h : ¬ ∃ path ∈ paths, isWithin path node = true) :
    paths.length ≤ firstWithin (paths ++ more) node := by
  rw [firstWithin, List.findIdx_append, if_neg (mt List.findIdx_lt_length.mp h)]
  exact Nat.le_add_left _ _

/-! ## 3. Keys -/

theorem join_intercalate {keys : List Text} (hnamed : ∀ key ∈ keys, key ≠ [])
    (key : Text) :
    join (['.'].intercalate keys) key = ['.'].intercalate (keys ++ [key]) := by
  induction keys with
  | nil => simp [join]
  | cons first keys ih =>
    have hfirst : first ≠ [] := hnamed first List.mem_cons_self
    cases keys with
    | nil => simp [join, hfirst]
    | cons second keys =>
      have hrest := ih fun key hkey => hnamed key (List.mem_cons_of_mem _ hkey)
      rw [List.cons_append, List.cons_append, List.intercalate_cons_cons, List.intercalate_cons_cons,
        ← List.cons_append, ← hrest]
      have hsecond : ['.'].intercalate (second :: keys) ≠ [] := by
        have := hnamed second (by simp)
        cases keys <;> simp [List.intercalate_cons_cons, this]
      simp [join, hsecond]

end ThemeLens.DottedPath
