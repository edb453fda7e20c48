import ThemeLens.Proofs.Provider.Versions

/-!
# Which invalidations are lost

An invalidation marks the published table as out of date, and the mark should stay until a newer
table is there. It does not always. A call clears the mark in a step of its own, after it has
installed, and it clears it without asking whether its table is the current one or whether the mark
is older than its table. An invalidation that falls into the gap is lost, and so is one that falls
while a call is still on its way that has long been overtaken (`not_keepsInvalidations`).

These are the only ones. After the current table was installed, an invalidation is lost exactly when
a call that was in flight at that moment finishes later (`Run.lost_iff_inFlight`). A call that
begins after the invalidation cannot lose it: its version is higher than all before, so by the time
it finishes a newer table is current.
-/

namespace ThemeLens.Provider

variable {tables : List Table} {past middle later : List Event} {p p' : Provider} {event : Event}
  {call version : Nat} {snapshot : Snapshot}

/-! ## 1. The mark -/

theorem stale_install (p : Provider) (snapshot : Snapshot) :
    (p.install snapshot).stale = p.stale := by
  rcases install_cases p snapshot with ⟨_, -, -, heq⟩ | ⟨-, heq⟩
  · rw [heq]
  · rw [heq]

/-- Only invalidating and finishing move the mark. -/
theorem Step.stale_cases (h : Step tables past p event p') :
    (event = .invalidate ∧ p'.stale = true) ∨
      (∃ call, event = .settle call ∧ p'.stale = false) ∨
        (∀ call, event ≠ .settle call) ∧ p'.stale = p.stale := by
  cases h with
  | take => exact .inr (.inr ⟨fun _ h => (by cases h), rfl⟩)
  | install => exact .inr (.inr ⟨fun _ h => (by cases h), stale_install p _⟩)
  | settle => exact .inr (.inl ⟨_, rfl, rfl⟩)
  | invalidate => exact .inl ⟨rfl, rfl⟩
  | read => exact .inr (.inr ⟨fun _ h => (by cases h), rfl⟩)

/-- **The mark of the last invalidation** stays until a call finishes. -/
theorem Run.stale_iff_of_last (h : Run tables (past ++ .invalidate :: later) p)
    (hlast : .invalidate ∉ later) : p.stale = true ↔ ∀ call, .settle call ∉ later := by
  generalize hall : past ++ .invalidate :: later = all at h
  induction h generalizing later with
  | start => simp at hall
  | @snoc before q q' event run step ih =>
    rcases List.eq_nil_or_concat later with rfl | ⟨later, last, rfl⟩
    · obtain ⟨-, hlast⟩ := List.append_inj' hall rfl
      cases hlast
      cases step
      exact ⟨fun _ _ h => (by cases h), fun _ => rfl⟩
    · rw [List.concat_eq_append] at hall hlast ⊢
      rw [← List.cons_append, ← List.append_assoc] at hall
      obtain ⟨hbefore, hevent⟩ := List.append_inj' hall rfl
      cases hevent
      rw [List.mem_append, List.mem_singleton, not_or] at hlast
      have hrest := ih hlast.1 hbefore
      rcases step.stale_cases with ⟨rfl, -⟩ | ⟨call, rfl, hfalse⟩ | ⟨hne, heq⟩
      · exact absurd rfl hlast.2
      · rw [hfalse]
        refine ⟨fun h => (by cases h), fun hnone => absurd ?_ (hnone call)⟩
        exact List.mem_append_right _ (List.mem_singleton_self _)
      · rw [heq, hrest]
        refine forall_congr' fun call => not_congr ?_
        rw [List.mem_append, List.mem_singleton]
        exact (or_iff_left (Ne.symm (hne call))).symm

/-! ## 2. Which calls are in flight -/

/-- Versions taken later are higher. -/
theorem Run.lt_of_take_later {call' version' : Nat} (h : Run tables (past ++ later) p)
    (htake : .take call version ∈ past) (hlater : .take call' version' ∈ later) :
    version < version' := by
  have hmem {events : List Event} {call version : Nat} (htake : .take call version ∈ events) :
      version ∈ (takes events).map (·.2) :=
    List.mem_map.mpr ⟨_, mem_takes.mpr htake, rfl⟩
  have hsorted : ((takes (past ++ later)).map (·.2)).Pairwise (· < ·) := by
    rw [h.versions_eq]
    exact List.pairwise_lt_range' 1
  rw [takes, List.filterMap_append, List.map_append] at hsorted
  exact (List.pairwise_append.mp hsorted).2.2 _ (hmem htake) _ (hmem hlater)

/-- A call that finishes while a snapshot is current took its version before anything that follows
    the installing of that snapshot. -/
theorem Run.inFlight_of_settle {before : List Event} {other : Nat}
    (h : Run tables (before ++ .install call snapshot :: middle ++ .invalidate :: later) p)
    (hcurrent : p.current = some snapshot) (hsettle : .settle other ∈ later) :
    InFlight (before ++ .install call snapshot :: middle) other := by
  constructor
  · obtain ⟨offered, hinstall⟩ := h.install_of_settle
      (List.mem_append_right _ (List.mem_cons_of_mem _ hsettle))
    refine ⟨offered.version, ?_⟩
    rcases List.mem_append.mp (h.of_mem_install hinstall).1 with htake | htake
    · exact htake
    · -- taken later, its version would be above that of the current snapshot
      have hle := h.version_le_versionSeen hinstall
      rw [hcurrent] at hle
      have hfirst := h
      rw [List.append_assoc] at hfirst
      have hlt := h.lt_of_take_later (List.mem_append_left _ hfirst.of_install.1) htake
      exact absurd hle (Nat.not_le_of_lt hlt)
  · obtain ⟨first, last, rfl⟩ := List.append_of_mem hsettle
    rw [← List.cons_append, ← List.append_assoc] at h
    exact fun hmem => h.of_settle.2 (List.mem_append_left _ hmem)

/-! ## 3. Lost invalidations -/

/-- **An invalidation is lost exactly when a call in flight finishes after it.** Here it is the last
    one, and it comes after the current snapshot was installed. -/
theorem Run.lost_iff_inFlight {before : List Event}
    (h : Run tables (before ++ .install call snapshot :: middle ++ .invalidate :: later) p)
    (hcurrent : p.current = some snapshot) (hlast : .invalidate ∉ later) :
    p.stale = false ↔ ∃ other,
      InFlight (before ++ .install call snapshot :: middle) other ∧ .settle other ∈ later := by
  have hmark := h.stale_iff_of_last hlast
  constructor
  · intro hfalse
    rw [hfalse] at hmark
    have hsettled : ¬ ∀ call, .settle call ∉ later := fun hnone => by cases hmark.mpr hnone
    obtain ⟨other, hsettle⟩ := not_forall_not.mp hsettled
    exact ⟨other, h.inFlight_of_settle hcurrent hsettle, hsettle⟩
  · rintro ⟨other, -, hsettle⟩
    rw [Bool.eq_false_iff]
    exact fun htrue => hmark.mp htrue other hsettle

/-- The table is invalidated between the last two steps of the only call. -/
theorem lost_iff_inFlight_ofGap :
    let snapshot : Snapshot := ⟨1, ∅⟩
    ∃ p, Run [∅] [.take 0 1, .install 0 snapshot, .invalidate, .settle 0] p ∧
      p.current = some snapshot ∧ p.stale = false ∧
      ∃ other, InFlight [.take 0 1, .install 0 snapshot] other ∧ .settle other ∈ [Event.settle 0] := by
  intro snapshot
  have hinstalled : Run [∅] [.take 0 1, .install 0 snapshot] ⟨some snapshot, 1, false⟩ :=
    .snoc (.snoc .start (.take (by decide) (by simp)))
      (.install rfl List.mem_cons_self (by simp))
  have hrun : Run [∅] ([.take 0 1] ++ .install 0 snapshot :: [] ++ .invalidate :: [.settle 0])
      ⟨some snapshot, 1, false⟩ :=
    .snoc (.snoc hinstalled .invalidate) (.settle ⟨snapshot, by simp⟩ (by simp))
  exact ⟨_, hrun, rfl, rfl, (hrun.lost_iff_inFlight rfl (by simp)).mp rfl⟩

/-- Whenever all calls are finished and no mark is set, nothing was invalidated after the current
    snapshot was installed. -/
def KeepsInvalidations (tables : List Table) : Prop :=
  ∀ past p, Run tables past p → (∀ call, ¬ InFlight past call) → p.stale = false →
    ∀ before call snapshot after, past = before ++ .install call snapshot :: after →
      p.current = some snapshot → .invalidate ∉ after

/-- A call that was overtaken clears the mark of a table that is not its own. The second call has
    finished when its table is invalidated; then the first one offers an older table, which is not
    installed, and finishes. -/
theorem not_keepsInvalidations : ¬ ∀ tables, KeepsInvalidations tables := by
  intro hkeeps
  have htaken : Run [∅, ∅] [.take 0 1, .take 1 2] ⟨none, 2, false⟩ :=
    .snoc (.snoc .start (.take (by decide) (by simp))) (.take (by decide) (by simp))
  have hpublished : Run [∅, ∅] [.take 0 1, .take 1 2, .install 1 ⟨2, ∅⟩, .settle 1]
      ⟨some ⟨2, ∅⟩, 2, false⟩ :=
    .snoc (.snoc htaken (.install rfl (by simp) (by simp))) (.settle ⟨⟨2, ∅⟩, by simp⟩ (by simp))
  have hrun : Run [∅, ∅]
      ([.take 0 1, .take 1 2] ++ .install 1 ⟨2, ∅⟩ ::
        [.settle 1, .invalidate, .install 0 ⟨1, ∅⟩, .settle 0]) ⟨some ⟨2, ∅⟩, 2, false⟩ :=
    .snoc (.snoc (.snoc hpublished .invalidate) (.install rfl (by simp) (by simp)))
      (.settle ⟨⟨1, ∅⟩, by simp⟩ (by simp))
  refine hkeeps _ _ _ hrun ?_ rfl _ _ _ _ rfl rfl (by simp)
  rintro call ⟨⟨version, htake⟩, hsettle⟩
  simp at htake hsettle
  omega

end ThemeLens.Provider
