import ThemeLens.Provider

/-!
# Publishing at once

`Provider.publish` is three steps in a row. When several threads publish, each call still takes its
three steps in this order, and each step as a whole, but the steps of other calls, invalidations
and readings fall between them. `Step` is one step of one thread, `Run` is any number of them in
any order: a list of calls, one for each table to be published, and the events so far.

A run has no state of its own beside the provider. How far a call is and which version it holds is
read off the past, and the rules of `Step` are the program of a call: it takes one version, then
tries once to install its own table under that version, then clears the mark once. A call that has
taken nothing has not begun. Versions are counted without bound, as in `Snapshot`.

Every event of a run was a step from a shorter run (`Run.split`), so whatever a rule asks for is
true of the past of its event. `Run.publish` goes back to whole calls: the three steps of a call
with nothing between them are `publish`.
-/

namespace ThemeLens.Provider

/-! ## 1. Steps and runs -/

/-- What a thread does in one step. Calls are numbered by the tables they publish. -/
inductive Event
  /-- A call takes its version. -/
  | take (call version : Nat)
  /-- A call offers its snapshot, which is installed or not. -/
  | install (call : Nat) (snapshot : Snapshot)
  /-- A call clears the mark of staleness and is finished. -/
  | settle (call : Nat)
  | invalidate
  /-- A reader sees the current snapshot. -/
  | read (seen : Option Snapshot)

/-- One step, after the events of the past. -/
inductive Step (tables : List Table) (past : List Event) (p : Provider) : Event → Provider → Prop
  | take {call : Nat} (hcall : call < tables.length) (hfirst : ∀ version, .take call version ∉ past) :
      Step tables past p (.take call p.take.1) p.take.2
  | install {call : Nat} {snapshot : Snapshot} (htable : tables[call]? = some snapshot.table)
      (htaken : .take call snapshot.version ∈ past) (hfirst : ∀ other, .install call other ∉ past) :
      Step tables past p (.install call snapshot) (p.install snapshot)
  | settle {call : Nat} (hinstalled : ∃ snapshot, .install call snapshot ∈ past)
      (hfirst : .settle call ∉ past) : Step tables past p (.settle call) p.settle
  | invalidate : Step tables past p .invalidate p.invalidate
  | read : Step tables past p (.read p.current) p

/-- The events of any number of steps from the start, and the provider they lead to. -/
inductive Run (tables : List Table) : List Event → Provider → Prop
  | start : Run tables [] initial
  | snoc {past : List Event} {p p' : Provider} {event : Event} (run : Run tables past p)
      (step : Step tables past p event p') : Run tables (past ++ [event]) p'

/-- A call that has begun and is not finished. -/
def InFlight (past : List Event) (call : Nat) : Prop :=
  (∃ version, .take call version ∈ past) ∧ .settle call ∉ past

variable {tables : List Table} {past later : List Event} {p p' : Provider} {event : Event}
  {call version : Nat} {snapshot : Snapshot}

/-! ## 2. The past of an event -/

/-- **Each event was a step** from the run before it. -/
theorem Run.split (h : Run tables (past ++ event :: later) p) :
    ∃ q q', Run tables past q ∧ Step tables past q event q' := by
  generalize hall : past ++ event :: later = all at h
  induction h generalizing later with
  | start => simp at hall
  | snoc run step ih =>
    rcases List.eq_nil_or_concat later with rfl | ⟨later, last, rfl⟩
    · obtain ⟨rfl, hlast⟩ := List.append_inj' hall rfl
      cases hlast
      exact ⟨_, _, run, step⟩
    · rw [List.concat_eq_append, ← List.cons_append, ← List.append_assoc] at hall
      exact ih (List.append_inj' hall rfl).1

theorem Run.lt_of_take (h : Run tables past p) (htake : .take call version ∈ past) :
    call < tables.length := by
  obtain ⟨before, later, rfl⟩ := List.append_of_mem htake
  obtain ⟨_, _, -, step⟩ := h.split
  cases step with
  | take hcall _ => exact hcall

/-- A call installs its own table under the version that it took before. -/
theorem Run.of_install (h : Run tables (past ++ .install call snapshot :: later) p) :
    .take call snapshot.version ∈ past ∧ tables[call]? = some snapshot.table := by
  obtain ⟨_, _, -, step⟩ := h.split
  cases step with
  | install htable htaken _ => exact ⟨htaken, htable⟩

theorem Run.of_mem_install (h : Run tables past p) (hinstall : .install call snapshot ∈ past) :
    .take call snapshot.version ∈ past ∧ tables[call]? = some snapshot.table := by
  obtain ⟨before, later, rfl⟩ := List.append_of_mem hinstall
  obtain ⟨htake, htable⟩ := h.of_install
  exact ⟨List.mem_append_left _ htake, htable⟩

/-- A call finishes once, and only after it has installed. -/
theorem Run.of_settle (h : Run tables (past ++ .settle call :: later) p) :
    (∃ snapshot, .install call snapshot ∈ past) ∧ .settle call ∉ past := by
  obtain ⟨_, _, -, step⟩ := h.split
  cases step with
  | settle hinstalled hfirst => exact ⟨hinstalled, hfirst⟩

theorem Run.install_of_settle (h : Run tables past p) (hsettle : .settle call ∈ past) :
    ∃ snapshot, .install call snapshot ∈ past := by
  obtain ⟨before, later, rfl⟩ := List.append_of_mem hsettle
  obtain ⟨⟨snapshot, hinstall⟩, -⟩ := h.of_settle
  exact ⟨snapshot, List.mem_append_left _ hinstall⟩

/-! ## 3. Whole calls -/

/-- The events of a call that nothing interrupts. -/
def whole (call : Nat) (snapshot : Snapshot) : List Event :=
  [.take call snapshot.version, .install call snapshot, .settle call]

/-- **Three steps of a call in a row publish its table.** -/
theorem Run.publish {table : Table} (h : Run tables past p) (htable : tables[call]? = some table)
    (hfirst : ∀ version, .take call version ∉ past) :
    Run tables (past ++ whole call (p.publish table).1) (p.publish table).2 := by
  have hcall : call < tables.length := (List.getElem?_eq_some_iff.mp htable).1
  have hinstall (other : Snapshot) : .install call other ∉ past := fun hmem =>
    hfirst _ (h.of_mem_install hmem).1
  have hsettle : .settle call ∉ past := fun hmem =>
    let ⟨other, hother⟩ := h.install_of_settle hmem
    hinstall other hother
  have htaken := h.snoc (.take hcall hfirst)
  have hinstalled : Run tables _ (p.take.2.install ⟨p.take.1, table⟩) := htaken.snoc
    (.install htable (List.mem_append_right _ List.mem_cons_self) (by simpa using hinstall))
  have hsettled := hinstalled.snoc
    (.settle ⟨_, List.mem_append_right _ List.mem_cons_self⟩ (by simpa using hsettle))
  rw [List.append_assoc, List.append_assoc] at hsettled
  exact hsettled

/-- The first `n` tables published one after the other, while no call behind them has begun. -/
theorem exists_run_publishAll_take {n : Nat} (hn : n ≤ tables.length) :
    ∃ past, Run tables past (initial.publishAll (tables.take n)) ∧
      (∀ call version, .take call version ∈ past → call < n) ∧
      ∀ call < n, .settle call ∈ past := by
  induction n with
  | zero => exact ⟨[], .start, by simp, by simp⟩
  | succ n ih =>
    obtain ⟨past, hrun, hbegun, hsettled⟩ := ih (Nat.le_of_succ_le hn)
    have htable : tables[n]? = some tables[n] := List.getElem?_eq_getElem hn
    have hnext := hrun.publish htable fun version hmem => absurd (hbegun n version hmem) (by simp)
    rw [List.take_add_one, htable, publishAll, List.foldl_append]
    refine ⟨_, hnext, fun call version hmem => ?_, fun call hlt => ?_⟩
    · rcases List.mem_append.mp hmem with hmem | hmem
      · exact Nat.lt_succ_of_lt (hbegun call version hmem)
      · simp only [whole, List.mem_cons, Event.take.injEq, reduceCtorEq, List.not_mem_nil,
          or_false] at hmem
        omega
    · rcases Nat.lt_succ_iff_lt_or_eq.mp hlt with hlt | rfl
      · exact List.mem_append_left _ (hsettled call hlt)
      · exact List.mem_append_right _ (by simp [whole])

/-- Publishing tables one after the other is a run in which every call finishes. -/
theorem exists_run_publishAll (tables : List Table) :
    ∃ past, Run tables past (initial.publishAll tables) ∧
      ∀ call < tables.length, .settle call ∈ past := by
  obtain ⟨past, hrun, -, hsettled⟩ := exists_run_publishAll_take (Nat.le_refl tables.length)
  rw [List.take_length] at hrun
  exact ⟨past, hrun, hsettled⟩

end ThemeLens.Provider
