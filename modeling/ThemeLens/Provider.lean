import ThemeLens.Theme.Flatten

/-!
# Published tables

Queries read the latest published table while others are being built. A publication takes the
next version, installs its snapshot unless a higher version is already there, and clears the mark
of staleness. These are three steps because publishers may run at once: their steps interleave in
any order, each step as a whole, and the highest version wins whatever the order. `publish` is the
three in a row.
-/

namespace ThemeLens

/-- A table with the version it was published as. Versions have no bound here. Where they are counted
in 64 bits this supposes fewer than 2 ^ 64 publications: the count begins again behind them. -/
structure Snapshot where
  version : Nat
  table : Table

/-- The state that publishers and readers share. -/
structure Provider where
  current : Option Snapshot
  /-- How many versions have been taken, as a number without bound (see `Snapshot`). -/
  taken : Nat
  /-- Is the published table known to be out of date? -/
  stale : Bool

namespace Provider

/-- Nothing published yet. -/
def initial : Provider := ⟨none, 0, false⟩

/-! ## The steps of a publication -/

/-- Takes the next version; the first is 1. -/
def take (p : Provider) : Nat × Provider := (p.taken + 1, { p with taken := p.taken + 1 })

/-- Installs a snapshot, unless the current one has a higher version. -/
def install (p : Provider) (s : Snapshot) : Provider :=
  match p.current with
  | some current => if s.version < current.version then p else { p with current := some s }
  | none => { p with current := some s }

/-- Marks the published table as up to date. -/
def settle (p : Provider) : Provider := { p with stale := false }

/-- Marks the published table as out of date. -/
def invalidate (p : Provider) : Provider := { p with stale := true }

/-! ## Whole operations -/

/-- Publishes a table; the answer is its snapshot. -/
def publish (p : Provider) (table : Table) : Snapshot × Provider :=
  let (version, p) := p.take
  let snapshot : Snapshot := ⟨version, table⟩
  (snapshot, (p.install snapshot).settle)

/-- Flattens a theme and publishes its table. A theme with a defect changes nothing: the last
table stays, and so does the mark of staleness. -/
def rebuild (p : Provider) (theme : Theme) (callableKey : Text) :
    Except Defect (Snapshot × Provider) :=
  (theme.flatten callableKey).map p.publish

/-- Publishes tables one after the other, which is one of the orders in which publishers that run
at once may finish. -/
def publishAll (p : Provider) (tables : List Table) : Provider :=
  tables.foldl (fun p table => (p.publish table).2) p

end Provider

end ThemeLens
