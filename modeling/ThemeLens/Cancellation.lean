/-!
# Cancellation

A long scan asks before each item whether it should stop. All that a scan can learn are the
answers in turn, so a cancel check is modelled by them: `polls i` is the answer to poll `i`, and a
check that looks at the clock, at a flag or at nothing is the same kind of thing. `served` is what
every scan does with it: it keeps the items before the first poll that answers yes.

`Tokens` is the usual source of such a check: flags that are raised once and never lowered, each
shared by any number of tokens.
-/

namespace ThemeLens

/-- The answers of a cancel check, by the number of the poll. -/
abbrev Polls := Nat → Bool

namespace Polls

/-- Never cancelled. -/
def never : Polls := fun _ => false

/-- Cancelled from the poll after the first `n` on. -/
def after (n : Nat) : Polls := fun i => decide (n ≤ i)

/-- The items before the first poll that answers yes, one poll for each item; `i` polls have been
answered before. -/
def servedFrom {α : Type} (polls : Polls) (i : Nat) : List α → List α
  | [] => []
  | x :: xs => if polls i then [] else x :: servedFrom polls (i + 1) xs

/-- The items that are served before the check cancels. -/
def served {α : Type} (polls : Polls) (items : List α) : List α := servedFrom polls 0 items

theorem servedFrom_never {α : Type} (i : Nat) (items : List α) :
    servedFrom never i items = items := by
  induction items generalizing i with
  | nil => rfl
  | cons x xs ih =>
    change x :: servedFrom never (i + 1) xs = x :: xs
    rw [ih]

/-- Without cancellation everything is served. -/
@[simp] theorem served_never {α : Type} (items : List α) : served never items = items :=
  servedFrom_never 0 items

theorem servedFrom_isPrefix {α : Type} (polls : Polls) (i : Nat) (items : List α) :
    servedFrom polls i items <+: items := by
  induction items generalizing i with
  | nil => exact List.nil_prefix
  | cons x xs ih =>
    unfold servedFrom
    split
    · exact List.nil_prefix
    · exact List.cons_prefix_cons.mpr ⟨rfl, ih (i + 1)⟩

end Polls

/-- Cancellation flags and the tokens that look at them. -/
structure Tokens where
  /-- Which flags are raised, by number. -/
  raised : List Bool
  /-- The flag of each token, in order of issue. -/
  flagOf : List Nat
  deriving DecidableEq, Repr

namespace Tokens

def none : Tokens := ⟨[], []⟩

/-- Issues a token with a flag of its own. -/
def issue (t : Tokens) : Tokens := ⟨t.raised ++ [false], t.flagOf ++ [t.raised.length]⟩

/-- Issues a token that shares the flag of another. -/
def share (t : Tokens) (token : Nat) : Tokens :=
  { t with flagOf := t.flagOf ++ (t.flagOf[token]?).toList }

/-- Raises the flag of a token, and so cancels all that share it. -/
def cancel (t : Tokens) (token : Nat) : Tokens :=
  match t.flagOf[token]? with
  | some flag => { t with raised := t.raised.set flag true }
  | Option.none => t

def isCancelled (t : Tokens) (token : Nat) : Bool :=
  ((t.flagOf[token]?).bind fun flag => t.raised[flag]?).getD false

/-- A token as a cancel check: while a scan runs its flag stays as it is. -/
def polls (t : Tokens) (token : Nat) : Polls := fun _ => t.isCancelled token

/-- The state of every token, in order of issue. -/
def states (t : Tokens) : List Bool := (List.range t.flagOf.length).map t.isCancelled

end Tokens

end ThemeLens
