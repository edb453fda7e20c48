import Mathlib.Data.List.Nodup
import Mathlib.Data.List.Perm.Basic
import ThemeLens.Proofs.Provider.Interleaving

/-!
# The newest version wins

Calls that run at once may install in another order than the one in which they took their versions.
Three things hold all the same, at every moment of every run. The versions taken so far are
1, 2, 3, … in the order of taking (`Run.versions_eq`). What is current is the newest of the
snapshots that calls have offered, and nothing is current before the first (`Run.isNewest`). And no
reader sees an older version than a reader before it (`Run.readings_pairwise`).

Each is kept by one step, because a step moves one thing only: the counter moves when a version is
taken (`Step.taken_cases`), what is current may change when a call installs
(`Step.current_cases`). When all calls have finished, the last version has been taken and offered,
so it is the one that is current (`Run.versionSeen_of_settled`).
-/

namespace ThemeLens.Provider

variable {tables : List Table} {past : List Event} {p p' : Provider} {event : Event}
  {call version : Nat} {snapshot : Snapshot}

/-! ## 1. What the events say -/

def Event.taken? : Event → Option (Nat × Nat)
  | .take call version => some (call, version)
  | _ => none

def Event.seen? : Event → Option (Option Snapshot)
  | .read seen => some seen
  | _ => none

/-- The calls with the versions they took, in the order of taking. -/
def takes (past : List Event) : List (Nat × Nat) := past.filterMap Event.taken?

/-- What readers saw, in the order of reading. -/
def readings (past : List Event) : List (Option Snapshot) := past.filterMap Event.seen?

/-- The version that a reader sees; 0 before anything is published. -/
def versionSeen : Option Snapshot → Nat
  | none => 0
  | some snapshot => snapshot.version

/-- Nothing that calls have offered is newer than this, and it is one of the snapshots offered; or
    there is nothing and nothing was offered. -/
def IsNewest (past : List Event) : Option Snapshot → Prop
  | none => ∀ call offered, .install call offered ∉ past
  | some snapshot => (∃ call, .install call snapshot ∈ past) ∧
      ∀ call offered, .install call offered ∈ past → offered.version ≤ snapshot.version

theorem mem_takes : (call, version) ∈ takes past ↔ .take call version ∈ past := by
  rw [takes, List.mem_filterMap]
  constructor
  · rintro ⟨event, hmem, htaken⟩
    cases event with
    | take call' version' =>
      cases htaken
      exact hmem
    | install | settle | invalidate | read => cases htaken
  · intro hmem
    exact ⟨_, hmem, rfl⟩

theorem filterMap_snoc {α β : Type} (f : α → Option β) (past : List α) (event : α) :
    (past ++ [event]).filterMap f = past.filterMap f ++ (f event).toList := by
  rw [List.filterMap_append]
  cases h : f event with
  | none => simp [h]
  | some b => simp [h]

theorem takes_append (past : List Event) (event : Event) :
    takes (past ++ [event]) = takes past ++ event.taken?.toList :=
  filterMap_snoc _ _ _

theorem readings_append (past : List Event) (event : Event) :
    readings (past ++ [event]) = readings past ++ event.seen?.toList :=
  filterMap_snoc _ _ _

/-! ## 2. What a step moves -/

/-- A snapshot is installed unless the current one has a higher version. -/
theorem install_cases (p : Provider) (snapshot : Snapshot) :
    (∃ current, p.current = some current ∧ snapshot.version < current.version ∧
        p.install snapshot = p) ∨
      (∀ current, p.current = some current → current.version ≤ snapshot.version) ∧
        p.install snapshot = { p with current := some snapshot } := by
  unfold install
  cases hcurrent : p.current with
  | none => exact .inr ⟨fun _ h => (by cases h), rfl⟩
  | some current =>
    by_cases hlt : snapshot.version < current.version
    · exact .inl ⟨current, rfl, hlt, if_pos hlt⟩
    · refine .inr ⟨fun _ h => ?_, if_neg hlt⟩
      cases h
      exact Nat.le_of_not_lt hlt

/-- Where nothing is current that the counter has not reached, a publication takes effect. -/
theorem publish_of_le (h : ∀ current, p.current = some current → current.version ≤ p.taken)
    (table : Table) : p.publish table =
      (⟨p.taken + 1, table⟩, ⟨some ⟨p.taken + 1, table⟩, p.taken + 1, false⟩) := by
  have hinstall : p.take.2.install ⟨p.taken + 1, table⟩ =
      ⟨some ⟨p.taken + 1, table⟩, p.taken + 1, p.stale⟩ := by
    rcases install_cases p.take.2 ⟨p.taken + 1, table⟩ with ⟨current, hcurrent, hlt, -⟩ | ⟨-, heq⟩
    · have hle := h current hcurrent
      change p.taken + 1 < current.version at hlt
      omega
    · exact heq
  change (_, (p.take.2.install ⟨p.taken + 1, table⟩).settle) = _
  rw [hinstall]
  rfl

theorem taken_install (p : Provider) (snapshot : Snapshot) :
    (p.install snapshot).taken = p.taken := by
  rcases install_cases p snapshot with ⟨_, -, -, heq⟩ | ⟨-, heq⟩
  · rw [heq]
  · rw [heq]

/-- Only taking a version moves the counter. -/
theorem Step.taken_cases (h : Step tables past p event p') :
    (event.taken? = none ∧ p'.taken = p.taken) ∨
      ∃ call, event = .take call (p.taken + 1) ∧ p'.taken = p.taken + 1 ∧
        ∀ version, .take call version ∉ past := by
  cases h with
  | take hcall hfirst => exact .inr ⟨_, rfl, rfl, hfirst⟩
  | install => exact .inl ⟨rfl, taken_install p _⟩
  | settle => exact .inl ⟨rfl, rfl⟩
  | invalidate => exact .inl ⟨rfl, rfl⟩
  | read => exact .inl ⟨rfl, rfl⟩

/-- Only installing changes what is current. -/
theorem Step.current_cases (h : Step tables past p event p') :
    ((∀ call snapshot, event ≠ .install call snapshot) ∧ p'.current = p.current) ∨
      ∃ call snapshot, event = .install call snapshot ∧ p' = p.install snapshot := by
  cases h with
  | take => exact .inl ⟨fun _ _ h => (by cases h), rfl⟩
  | install => exact .inr ⟨_, _, rfl, rfl⟩
  | settle => exact .inl ⟨fun _ _ h => (by cases h), rfl⟩
  | invalidate => exact .inl ⟨fun _ _ h => (by cases h), rfl⟩
  | read => exact .inl ⟨fun _ _ h => (by cases h), rfl⟩

/-- What a reader sees after a step is no older than what one saw before it. -/
theorem Step.versionSeen_le (h : Step tables past p event p') :
    versionSeen p.current ≤ versionSeen p'.current := by
  rcases h.current_cases with ⟨-, heq⟩ | ⟨call, snapshot, -, rfl⟩
  · exact Nat.le_of_eq (congrArg versionSeen heq.symm)
  · rcases install_cases p snapshot with ⟨_, -, -, heq⟩ | ⟨hle, heq⟩
    · exact Nat.le_of_eq (congrArg (versionSeen ·.current) heq.symm)
    · rw [heq]
      cases hcurrent : p.current with
      | none => exact Nat.zero_le _
      | some current => exact hle current hcurrent

/-! ## 3. The versions taken -/

/-- **Versions are counted** in the order of taking. -/
theorem Run.versions_eq (h : Run tables past p) :
    (takes past).map (·.2) = List.range' 1 p.taken := by
  induction h with
  | start => rfl
  | snoc run step ih =>
    rw [takes_append, List.map_append, ih]
    rcases step.taken_cases with ⟨hnone, heq⟩ | ⟨call, rfl, heq, -⟩
    · rw [hnone, heq]
      exact List.append_nil _
    · rw [heq, List.range'_1_concat, Nat.add_comm 1]
      rfl

/-- Each call takes one version. -/
theorem Run.nodup_takes (h : Run tables past p) : ((takes past).map (·.1)).Nodup := by
  induction h with
  | start => exact List.nodup_nil
  | @snoc past p p' event run step ih =>
    rw [takes_append, List.map_append]
    rcases step.taken_cases with ⟨hnone, -⟩ | ⟨call, rfl, -, hfirst⟩
    · rw [hnone]
      simpa using ih
    · refine List.nodup_append.mpr ⟨ih, List.nodup_singleton call, ?_⟩
      intro other hother last hlast heq
      obtain ⟨⟨first, version⟩, hmem, rfl⟩ := List.mem_map.mp hother
      obtain rfl : first = call := heq.trans (List.mem_singleton.mp hlast)
      exact hfirst version (mem_takes.mp hmem)

theorem Run.version_unique {version' : Nat} (h : Run tables past p)
    (htake : .take call version ∈ past) (htake' : .take call version' ∈ past) :
    version = version' :=
  congrArg Prod.snd
    (List.inj_on_of_nodup_map h.nodup_takes (mem_takes.mpr htake) (mem_takes.mpr htake') rfl)

theorem Run.exists_take_iff (h : Run tables past p) :
    (∃ call, .take call version ∈ past) ↔ 1 ≤ version ∧ version ≤ p.taken := by
  have hmem : version ∈ (takes past).map (·.2) ↔ ∃ call, .take call version ∈ past := by
    simp only [List.mem_map, Prod.exists, mem_takes, exists_eq_right]
  rw [← hmem, h.versions_eq, List.mem_range'_1]
  omega

/-! ## 4. What is current -/

theorem isNewest_append_of_ne {current : Option Snapshot}
    (hne : ∀ call snapshot, event ≠ .install call snapshot) (h : IsNewest past current) :
    IsNewest (past ++ [event]) current := by
  have hmem {call : Nat} {offered : Snapshot} :
      .install call offered ∈ past ++ [event] ↔ .install call offered ∈ past := by
    rw [List.mem_append, List.mem_singleton]
    exact or_iff_left (Ne.symm (hne call offered))
  cases current with
  | none => exact fun call offered hoffered => h call offered (hmem.mp hoffered)
  | some snapshot =>
    obtain ⟨⟨call, hcall⟩, hmax⟩ := h
    exact ⟨⟨call, hmem.mpr hcall⟩, fun call offered hoffered => hmax call offered (hmem.mp hoffered)⟩

/-- Whatever is offered, the newest is current afterwards. -/
theorem isNewest_install (h : IsNewest past p.current) :
    IsNewest (past ++ [.install call snapshot]) (p.install snapshot).current := by
  have hmem {call' : Nat} {offered : Snapshot}
      (hoffered : .install call' offered ∈ past ++ [.install call snapshot]) :
      .install call' offered ∈ past ∨ offered = snapshot := by
    rcases List.mem_append.mp hoffered with hmem | hmem
    · exact .inl hmem
    · cases List.mem_singleton.mp hmem
      exact .inr rfl
  rcases install_cases p snapshot with ⟨current, hcurrent, hlt, heq⟩ | ⟨hle, heq⟩
  · rw [heq, hcurrent]
    rw [hcurrent] at h
    obtain ⟨⟨first, hfirst⟩, hmax⟩ := h
    refine ⟨⟨first, List.mem_append_left _ hfirst⟩, fun call' offered hoffered => ?_⟩
    rcases hmem hoffered with hoffered | rfl
    · exact hmax call' offered hoffered
    · exact Nat.le_of_lt hlt
  · rw [heq]
    refine ⟨⟨call, by simp⟩, fun call' offered hoffered => ?_⟩
    rcases hmem hoffered with hoffered | rfl
    · cases hcurrent : p.current with
      | none =>
        rw [hcurrent] at h
        exact absurd hoffered (h call' offered)
      | some current =>
        rw [hcurrent] at h
        exact Nat.le_trans (h.2 call' offered hoffered) (hle current hcurrent)
    · exact Nat.le_refl _

/-- **What is current is the newest** of what calls have offered. -/
theorem Run.isNewest (h : Run tables past p) : IsNewest past p.current := by
  induction h with
  | start =>
    intro call offered hmem
    cases hmem
  | snoc run step ih =>
    rcases step.current_cases with ⟨hne, heq⟩ | ⟨call, snapshot, rfl, rfl⟩
    · rw [heq]
      exact isNewest_append_of_ne hne ih
    · exact isNewest_install ih

/-- What a call has offered is no newer than what is current. -/
theorem Run.version_le_versionSeen (h : Run tables past p)
    (hinstall : .install call snapshot ∈ past) : snapshot.version ≤ versionSeen p.current := by
  have hnewest := h.isNewest
  cases hcurrent : p.current with
  | none =>
    rw [hcurrent] at hnewest
    exact absurd hinstall (hnewest call snapshot)
  | some current =>
    rw [hcurrent] at hnewest
    exact hnewest.2 call snapshot hinstall

theorem Run.versionSeen_le_taken (h : Run tables past p) : versionSeen p.current ≤ p.taken := by
  have hnewest := h.isNewest
  cases hcurrent : p.current with
  | none => exact Nat.zero_le _
  | some current =>
    rw [hcurrent] at hnewest
    obtain ⟨call, hinstall⟩ := hnewest.1
    exact (h.exists_take_iff.mp ⟨call, (h.of_mem_install hinstall).1⟩).2

/-! ## 5. What readers see -/

theorem Step.seen_eq {seen : Option Snapshot} (h : Step tables past p event p')
    (hseen : event.seen? = some seen) : seen = p.current := by
  cases h with
  | read =>
    cases hseen
    rfl
  | take | install | settle | invalidate => cases hseen

/-- **No reader sees an older version than a reader before it**, and none has seen a newer one than
    the current. -/
theorem Run.readings_pairwise (h : Run tables past p) :
    (readings past).Pairwise (fun seen later => versionSeen seen ≤ versionSeen later) ∧
      ∀ seen ∈ readings past, versionSeen seen ≤ versionSeen p.current := by
  induction h with
  | start =>
    refine ⟨.nil, fun seen hseen => ?_⟩
    cases hseen
  | @snoc past p p' event run step ih =>
    obtain ⟨hpair, hle⟩ := ih
    have hnext := step.versionSeen_le
    rw [readings_append]
    cases hseen : event.seen? with
    | none =>
      rw [Option.toList_none, List.append_nil]
      exact ⟨hpair, fun seen hmem => Nat.le_trans (hle seen hmem) hnext⟩
    | some last =>
      obtain rfl := step.seen_eq hseen
      rw [Option.toList_some]
      refine ⟨List.pairwise_append.mpr ⟨hpair, List.pairwise_singleton _ _, ?_⟩, ?_⟩
      · intro seen hmem last hlast
        rw [List.mem_singleton.mp hlast]
        exact hle seen hmem
      · intro seen hmem
        rcases List.mem_append.mp hmem with hmem | hmem
        · exact Nat.le_trans (hle seen hmem) hnext
        · rw [List.mem_singleton.mp hmem]
          exact hnext

/-! ## 6. When all calls have finished -/

/-- Every call that has finished has taken a version, so the counter stands at their number. -/
theorem Run.taken_of_settled (h : Run tables past p)
    (hsettled : ∀ call < tables.length, .settle call ∈ past) : p.taken = tables.length := by
  have hmem (call : Nat) : call ∈ (takes past).map (·.1) ↔ call ∈ List.range tables.length := by
    rw [List.mem_range, List.mem_map]
    constructor
    · rintro ⟨⟨_, version⟩, htake, rfl⟩
      exact h.lt_of_take (mem_takes.mp htake)
    · intro hlt
      obtain ⟨snapshot, hinstall⟩ := h.install_of_settle (hsettled call hlt)
      exact ⟨_, mem_takes.mpr (h.of_mem_install hinstall).1, rfl⟩
  have hperm := (List.perm_ext_iff_of_nodup h.nodup_takes List.nodup_range).mpr hmem
  calc p.taken = ((takes past).map (·.2)).length := by rw [h.versions_eq, List.length_range']
    _ = ((takes past).map (·.1)).length := by rw [List.length_map, List.length_map]
    _ = tables.length := by rw [hperm.length_eq, List.length_range]

theorem Run.versionSeen_of_settled (h : Run tables past p)
    (hsettled : ∀ call < tables.length, .settle call ∈ past) :
    versionSeen p.current = tables.length := by
  rw [← h.taken_of_settled hsettled]
  refine Nat.le_antisymm h.versionSeen_le_taken ?_
  rcases Nat.eq_zero_or_pos p.taken with hzero | hpos
  · rw [hzero]
    exact Nat.zero_le _
  · -- the call with the last version has offered it
    obtain ⟨call, htake⟩ := h.exists_take_iff.mpr ⟨hpos, Nat.le_refl p.taken⟩
    obtain ⟨snapshot, hinstall⟩ := h.install_of_settle (hsettled call (h.lt_of_take htake))
    rw [h.version_unique htake (h.of_mem_install hinstall).1]
    exact h.version_le_versionSeen hinstall

theorem versionSeen_publishAll (tables : List Table) :
    versionSeen (initial.publishAll tables).current = tables.length := by
  obtain ⟨past, hrun, hsettled⟩ := exists_run_publishAll tables
  exact hrun.versionSeen_of_settled hsettled

/-- **The newest version wins**, however the steps fall. The versions taken are 1, 2, … in the order
    of taking, one for each call. Nothing is current until a call has installed, and then it is the
    table of one call under the version of that call, the highest of those that have installed. So
    readers never go back, and when all calls have finished the version is their number. -/
theorem Run.newest_wins (h : Run tables past p) :
    (takes past).map (·.2) = List.range' 1 (takes past).length ∧
      ((takes past).map (·.1)).Nodup ∧
      (p.current = none ↔ ∀ call offered, .install call offered ∉ past) ∧
      (∀ snapshot, p.current = some snapshot →
        (∃ call, .install call snapshot ∈ past ∧ .take call snapshot.version ∈ past ∧
          tables[call]? = some snapshot.table) ∧
        ∀ call offered, .install call offered ∈ past → offered.version ≤ snapshot.version) ∧
      ((readings past).Pairwise fun seen later => versionSeen seen ≤ versionSeen later) ∧
      ((∀ call < tables.length, .settle call ∈ past) →
        versionSeen p.current = tables.length) := by
  have hnewest := h.isNewest
  refine ⟨?_, h.nodup_takes, ?_, ?_, h.readings_pairwise.1, h.versionSeen_of_settled⟩
  · have hlength := congrArg List.length h.versions_eq
    rw [List.length_map, List.length_range'] at hlength
    rw [h.versions_eq, hlength]
  · cases hcurrent : p.current with
    | none =>
      rw [hcurrent] at hnewest
      exact ⟨fun _ => hnewest, fun _ => rfl⟩
    | some snapshot =>
      rw [hcurrent] at hnewest
      obtain ⟨call, hinstall⟩ := hnewest.1
      exact ⟨fun h => (by cases h), fun hnone => absurd hinstall (hnone call snapshot)⟩
  · intro snapshot hcurrent
    rw [hcurrent] at hnewest
    obtain ⟨⟨call, hinstall⟩, hmax⟩ := hnewest
    obtain ⟨htake, htable⟩ := h.of_mem_install hinstall
    exact ⟨⟨call, hinstall, htake, htable⟩, hmax⟩

/-- Two calls, of which the later one installs first: the other one finds a higher version. -/
theorem newest_wins_overtaken :
    let old : Table := ∅
    let new : Table := ⟨[(['a'], .scalar (.bool true))], by decide⟩
    let past : List Event := [.take 0 1, .take 1 2, .install 1 ⟨2, new⟩, .read (some ⟨2, new⟩),
      .install 0 ⟨1, old⟩, .read (some ⟨2, new⟩), .settle 0, .settle 1]
    ∃ p, Run [old, new] past p ∧ p.current = some ⟨2, new⟩ ∧
      (takes past).map (·.2) = List.range' 1 2 ∧
      (∀ call offered, .install call offered ∈ past → offered.version ≤ 2) ∧
      versionSeen p.current = 2 := by
  intro old new past
  have htaken : Run [old, new] [.take 0 1, .take 1 2] ⟨none, 2, false⟩ :=
    .snoc (.snoc .start (.take (by decide) (by simp))) (.take (by decide) (by simp))
  have hover : Run [old, new] [.take 0 1, .take 1 2, .install 1 ⟨2, new⟩, .read (some ⟨2, new⟩)]
      ⟨some ⟨2, new⟩, 2, false⟩ :=
    .snoc (.snoc htaken (.install rfl (by simp) (by simp))) .read
  have hrun : Run [old, new] past ⟨some ⟨2, new⟩, 2, false⟩ :=
    .snoc (.snoc (.snoc (.snoc hover (.install rfl (by simp) (by simp))) .read)
      (.settle ⟨⟨1, old⟩, by simp⟩ (by simp))) (.settle ⟨⟨2, new⟩, by simp⟩ (by simp))
  obtain ⟨hversions, -, -, hcurrent, -, hfinished⟩ := hrun.newest_wins
  refine ⟨_, hrun, rfl, hversions, (hcurrent _ rfl).2, hfinished fun call hcall => ?_⟩
  have hcases : call = 0 ∨ call = 1 := by
    have : call < 2 := hcall
    omega
  rcases hcases with rfl | rfl
  · simp [past]
  · simp [past]

end ThemeLens.Provider
