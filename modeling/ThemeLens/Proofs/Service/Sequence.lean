import Mathlib.Data.List.Induction
import ThemeLens.Proofs.Provider.Versions
import ThemeLens.Service

/-!
# A service is its past

Requests come one after another: themes and tables to publish, invalidations, and queries. This file
says what a service knows after any number of them, in terms of the requests alone. It is three
things (`Reflects`): how many publications succeeded, which table came last, and whether an
invalidation came after it.

A request does one of three things to them. It publishes a table, it invalidates, or it does nothing
at all, which is what queries do and also what a theme with a defect does: the version that a
publication would take is only taken once there is a table. So a reload that is refused can be struck
from the sequence, and no later answer tells the difference (`answers_refused`).
-/

namespace ThemeLens.Service

/-! ## 1. Requests and their answers -/

inductive Request
  | reload (theme : Theme)
  | publish (table : Table)
  | invalidate
  | complete (text : Text) (offset : Nat) (polls : Polls)
  | hover (text : Text) (offset : Nat)
  | labels (text : Text) (window : Span) (polls : Polls)

inductive Answer
  | published (snapshot : Snapshot)
  | refused (defect : Defect)
  | invalidated
  | completion (resolution : Resolution Completion)
  | hover (resolution : Resolution Hover)
  | labels (labels : List InlineLabel)

def Request.IsQuery : Request → Prop
  | reload _ | publish _ | invalidate => False
  | complete _ _ _ | hover _ _ | labels _ _ _ => True

def serve (s : Service) : Request → Answer × Service
  | .reload theme =>
    match s.reload theme with
    | .ok (snapshot, s') => (.published snapshot, s')
    | .error defect => (.refused defect, s)
  | .publish table =>
    let (snapshot, s') := s.publish table
    (.published snapshot, s')
  | .invalidate => (.invalidated, s.invalidate)
  | .complete text offset polls => (.completion (s.complete text offset polls), s)
  | .hover text offset => (.hover (s.hover text offset), s)
  | .labels text window polls => (.labels (s.labels text window polls), s)

/-- The service behind a sequence of requests. -/
def after (s : Service) (requests : List Request) : Service :=
  requests.foldl (fun s request => (s.serve request).2) s

/-- The answers to a sequence of requests. -/
def answers (s : Service) : List Request → List Answer
  | [] => []
  | request :: later => (s.serve request).1 :: (s.serve request).2.answers later

/-! ## 2. The past -/

/-- The table that a request publishes, if it publishes one. -/
def Request.published? (callableKey : Text) : Request → Option Table
  | reload theme => (theme.flatten callableKey).toOption
  | publish table => some table
  | _ => none

/-- The tables of the successful publications, in their order. -/
def published (callableKey : Text) (past : List Request) : List Table :=
  past.filterMap (·.published? callableKey)

/-- Among invalidations and successful publications the last is an invalidation. -/
def InvalidatedLast (callableKey : Text) (past : List Request) : Prop :=
  ∃ before later, past = before ++ .invalidate :: later ∧ published callableKey later = []

/-- A service knows of its past how much was published, the last table, and whether an invalidation
    came after it. -/
structure Reflects (settings : Settings) (past : List Request) (s : Service) : Prop where
  settings_eq : s.settings = settings
  taken_eq : s.provider.taken = (published settings.callableKey past).length
  current_eq : s.provider.current = (published settings.callableKey past).getLast?.map
    (Snapshot.mk (published settings.callableKey past).length)
  stale_iff : s.provider.stale = true ↔ InvalidatedLast settings.callableKey past

variable {settings : Settings} {past : List Request} {request : Request} {s : Service}
  {callableKey : Text} {theme : Theme} {table : Table} {defect : Defect}

theorem published_snoc (callableKey : Text) (past : List Request) (request : Request) :
    published callableKey (past ++ [request]) =
      published callableKey past ++ (request.published? callableKey).toList :=
  Provider.filterMap_snoc _ _ _

theorem invalidatedLast_snoc_iff :
    InvalidatedLast callableKey (past ++ [request]) ↔
      request = .invalidate ∨
        request.published? callableKey = none ∧ InvalidatedLast callableKey past := by
  constructor
  · rintro ⟨before, later, hsplit, hnone⟩
    rcases List.eq_nil_or_concat later with rfl | ⟨rest, last, rfl⟩
    · have hlast := (List.append_inj' hsplit rfl).2
      exact .inl (List.singleton_inj.mp hlast)
    · rw [List.concat_eq_append, ← List.cons_append, ← List.append_assoc] at hsplit
      obtain ⟨rfl, hlast⟩ := List.append_inj' hsplit rfl
      obtain rfl := List.singleton_inj.mp hlast
      rw [List.concat_eq_append, published_snoc, List.append_eq_nil_iff,
        Option.toList_eq_nil_iff] at hnone
      exact .inr ⟨hnone.2, before, rest, rfl, hnone.1⟩
  · rintro (rfl | ⟨hnone, before, later, rfl, hlater⟩)
    · exact ⟨past, [], rfl, rfl⟩
    · refine ⟨before, later ++ [request], by simp, ?_⟩
      rw [published_snoc, hlater, hnone]
      rfl

/-! ## 3. One request -/

/-- The counter is never behind the current version, so a publication takes effect. -/
theorem Reflects.publish_eq (h : Reflects settings past s) (table : Table) :
    let version := (published settings.callableKey past).length + 1
    s.publish table = (⟨version, table⟩, ⟨⟨some ⟨version, table⟩, version, false⟩, settings⟩) := by
  have htaken := h.taken_eq
  have hbounded : ∀ current, s.provider.current = some current →
      current.version ≤ s.provider.taken := by
    intro current hcurrent
    rw [h.current_eq] at hcurrent
    obtain ⟨last, -, rfl⟩ := Option.map_eq_some_iff.mp hcurrent
    exact Nat.le_of_eq htaken.symm
  rw [publish, Provider.publish_of_le hbounded, htaken, h.settings_eq]

theorem published?_eq_some_cases (h : request.published? callableKey = some table) :
    request = .publish table ∨
      ∃ theme, request = .reload theme ∧ theme.flatten callableKey = .ok table := by
  cases request with
  | publish table' =>
    cases h
    exact .inl rfl
  | reload theme =>
    cases hflat : theme.flatten callableKey with
    | ok table' =>
      rw [Request.published?, hflat] at h
      cases h
      exact .inr ⟨theme, rfl, hflat⟩
    | error defect =>
      rw [Request.published?, hflat] at h
      cases h
  | invalidate | complete | hover | labels => cases h

/-- A request that publishes is answered with the next version, and its table is the current one. -/
theorem Reflects.serve_published (h : Reflects settings past s)
    (hpub : request.published? settings.callableKey = some table) :
    let version := (published settings.callableKey past).length + 1
    s.serve request = (.published ⟨version, table⟩,
      ⟨⟨some ⟨version, table⟩, version, false⟩, settings⟩) := by
  intro version
  have hanswer : s.serve request = (.published (s.publish table).1, (s.publish table).2) := by
    rcases published?_eq_some_cases hpub with rfl | ⟨theme, rfl, hflat⟩
    · rfl
    · rw [serve, reload, Provider.rebuild, h.settings_eq, hflat, publish, h.settings_eq]
      rfl
  rw [hanswer, h.publish_eq]

/-- A theme with a defect is refused, and nothing happens. -/
theorem Reflects.serve_refused (h : Reflects settings past s)
    (hflat : theme.flatten settings.callableKey = .error defect) :
    s.serve (.reload theme) = (.refused defect, s) := by
  rw [serve, reload, Provider.rebuild, h.settings_eq, hflat]
  rfl

theorem serve_query (h : request.IsQuery) : (s.serve request).2 = s := by
  cases request with
  | reload | publish | invalidate => exact h.elim
  | complete | hover | labels => rfl

theorem Reflects.serve_idle (h : Reflects settings past s)
    (hpub : request.published? settings.callableKey = none) (hne : request ≠ .invalidate) :
    (s.serve request).2 = s := by
  cases request with
  | reload theme =>
    cases hflat : theme.flatten settings.callableKey with
    | ok table =>
      rw [Request.published?, hflat] at hpub
      cases hpub
    | error defect => rw [h.serve_refused hflat]
  | publish table => cases hpub
  | invalidate => exact absurd rfl hne
  | complete | hover | labels => rfl

/-- **What a service knows of its past it knows one request later.** -/
theorem Reflects.serve (h : Reflects settings past s) (request : Request) :
    Reflects settings (past ++ [request]) (s.serve request).2 := by
  cases hpub : request.published? settings.callableKey with
  | some table =>
    have htables : published settings.callableKey (past ++ [request]) =
        published settings.callableKey past ++ [table] := by
      rw [published_snoc, hpub]
      rfl
    rw [h.serve_published hpub]
    refine ⟨rfl, ?_, ?_, ?_⟩
    · rw [htables, List.length_append]
      rfl
    · rw [htables, List.getLast?_concat, List.length_append]
      rfl
    · -- a publication settles the service, and is no invalidation
      rw [invalidatedLast_snoc_iff, hpub]
      simp only [Bool.false_eq_true, reduceCtorEq, false_and, or_false, false_iff]
      rintro rfl
      cases hpub
  | none =>
    have htables : published settings.callableKey (past ++ [request]) =
        published settings.callableKey past := by
      rw [published_snoc, hpub]
      exact List.append_nil _
    by_cases hinv : request = .invalidate
    · subst hinv
      refine ⟨h.settings_eq, htables ▸ h.taken_eq, htables ▸ h.current_eq, ?_⟩
      rw [invalidatedLast_snoc_iff]
      exact ⟨fun _ => .inl rfl, fun _ => rfl⟩
    · rw [h.serve_idle hpub hinv]
      refine ⟨h.settings_eq, htables ▸ h.taken_eq, htables ▸ h.current_eq, ?_⟩
      rw [invalidatedLast_snoc_iff, h.stale_iff]
      exact ⟨fun hlast => .inr ⟨hpub, hlast⟩, fun hlast => (hlast.resolve_left hinv).2⟩

/-! ## 4. Any number of requests -/

theorem reflects_start (settings : Settings) : Reflects settings [] (start settings) where
  settings_eq := rfl
  taken_eq := rfl
  current_eq := rfl
  stale_iff := by
    refine ⟨fun h => (by cases h), ?_⟩
    rintro ⟨before, later, hsplit, -⟩
    cases before <;> cases hsplit

theorem after_snoc (s : Service) (past : List Request) (request : Request) :
    s.after (past ++ [request]) = ((s.after past).serve request).2 := by
  rw [after, List.foldl_append]
  rfl

/-- **A service knows of its past just that**, whatever the past is. -/
theorem reflects_after (settings : Settings) (past : List Request) :
    Reflects settings past ((start settings).after past) := by
  induction past using List.reverseRecOn with
  | nil => exact reflects_start settings
  | append_singleton past request ih =>
    rw [after_snoc]
    exact ih.serve request

/-- A refused reload leaves no trace in what is answered later. -/
theorem Reflects.answers_refused (h : Reflects settings past s)
    (hflat : theme.flatten settings.callableKey = .error defect) (later : List Request) :
    s.answers (.reload theme :: later) = .refused defect :: s.answers later ∧
      s.after (.reload theme :: later) = s.after later := by
  rw [answers, after, List.foldl_cons, h.serve_refused hflat]
  exact ⟨rfl, rfl⟩

/-- A question finds a table missing only before the first publication, and is otherwise one to the
    last table. -/
theorem Reflects.ask_eq {α : Type} (h : Reflects settings past s) (query : Table → Option α) :
    (s.ask query = .missingTable ↔ published settings.callableKey past = []) ∧
      ∀ table, (published settings.callableKey past).getLast? = some table →
        s.ask query = .ofOption (query table) := by
  have hcurrent := h.current_eq
  cases hlast : (published settings.callableKey past).getLast? with
  | none =>
    rw [hlast] at hcurrent
    rw [ask, hcurrent]
    exact ⟨⟨fun _ => List.getLast?_eq_none_iff.mp hlast, fun _ => rfl⟩, fun _ h => (by cases h)⟩
  | some table =>
    rw [hlast] at hcurrent
    rw [ask, hcurrent]
    refine ⟨⟨fun hmissing => ?_, fun hnil => ?_⟩, fun table' h' => ?_⟩
    · simp only [Option.map_some] at hmissing
      cases hanswer : query table <;> rw [hanswer] at hmissing <;> cases hmissing
    · rw [hnil] at hlast
      cases hlast
    · cases h'
      rfl

theorem Reflects.labels_eq (h : Reflects settings past s) (text : Text) (window : Span)
    (polls : Polls) :
    (published settings.callableKey past = [] → s.labels text window polls = []) ∧
      ∀ table, (published settings.callableKey past).getLast? = some table →
        s.labels text window polls =
          InlineLabel.within text window table settings.labelStyle polls := by
  have hcurrent := h.current_eq
  refine ⟨fun hnil => ?_, fun table hlast => ?_⟩
  · rw [hnil] at hcurrent
    rw [labels, hcurrent]
    rfl
  · rw [hlast] at hcurrent
    rw [labels, hcurrent, h.settings_eq]
    rfl

/-- **A new service, after any requests.** What is current, what the next version is and whether the
    service is stale are told by the publications that succeeded and the invalidations among them. A
    theme with a defect is refused and changes nothing, for itself and for all that follows; neither
    does a query, and what a query answers is what the last table answers. -/
theorem after_start (settings : Settings) (requests : List Request) :
    let s := (start settings).after requests
    let tables := published settings.callableKey requests
    s.provider.current = tables.getLast?.map (Snapshot.mk tables.length) ∧
      s.provider.taken = tables.length ∧
      (s.provider.stale = true ↔ InvalidatedLast settings.callableKey requests) ∧
      (∀ theme defect, theme.flatten settings.callableKey = .error defect →
        s.serve (.reload theme) = (.refused defect, s) ∧
        ∀ later, s.answers (.reload theme :: later) = .refused defect :: s.answers later ∧
          s.after (.reload theme :: later) = s.after later) ∧
      (∀ request, request.IsQuery → (s.serve request).2 = s) ∧
      (∀ text offset polls,
        (s.complete text offset polls = .missingTable ↔ tables = []) ∧
        ∀ table, tables.getLast? = some table →
          s.complete text offset polls = .ofOption (Completion.at? text offset table polls)) ∧
      (∀ text offset,
        (s.hover text offset = .missingTable ↔ tables = []) ∧
        ∀ table, tables.getLast? = some table →
          s.hover text offset =
            .ofOption (Hover.at? text offset table settings.hoverLineWindow)) ∧
      ∀ text window polls,
        (tables = [] → s.labels text window polls = []) ∧
        ∀ table, tables.getLast? = some table →
          s.labels text window polls =
            InlineLabel.within text window table settings.labelStyle polls := by
  intro s tables
  have h : Reflects settings requests s := reflects_after settings requests
  refine ⟨h.current_eq, h.taken_eq, h.stale_iff, fun theme defect hflat => ?_,
    fun request hquery => serve_query hquery, fun text offset polls => ?_, fun text offset => ?_,
    h.labels_eq⟩
  · exact ⟨h.serve_refused hflat, h.answers_refused hflat⟩
  · exact h.ask_eq fun table => Completion.at? text offset table polls
  · rw [hover, h.settings_eq]
    exact h.ask_eq fun table => Hover.at? text offset table settings.hoverLineWindow

/-- A table, an invalidation, and then a theme that contains itself: the table stays, stale as it is,
    and hovers go on reading it. -/
theorem after_start_refused :
    let settings : Settings := ⟨30, 5, ['s'], []⟩
    let table : Table := ⟨[(['a'], .scalar (.bool true))], by decide⟩
    let loop : Theme := ⟨#[.composite ⟨[(['l'], 0)], by decide⟩], 0⟩
    let s := (start settings).after [.publish table, .invalidate]
    loop.flatten ['s'] = .error ⟨['l'], .cycle⟩ ∧
      s.serve (.reload loop) = (.refused ⟨['l'], .cycle⟩, s) ∧
      s.provider.current = some ⟨1, table⟩ ∧ s.provider.stale = true ∧
      (s.serve (.hover ['a'] 0)).2 = s ∧
      s.hover ['a'] 0 = .ofOption (Hover.at? ['a'] 0 table 5) := by
  intro settings table loop s
  have hflat : loop.flatten ['s'] = .error ⟨['l'], .cycle⟩ := by
    simp [Theme.flatten, Theme.visitAll, Theme.visit, loop, Theme.node?]
    rfl
  obtain ⟨hcurrent, -, hstale, hrefused, hquery, -, hhover, -⟩ :=
    after_start settings [.publish table, .invalidate]
  exact ⟨hflat, (hrefused loop _ hflat).1, hcurrent, hstale.mpr ⟨[.publish table], [], rfl, rfl⟩,
    hquery _ trivial, (hhover ['a'] 0).2 table rfl⟩

end ThemeLens.Service
