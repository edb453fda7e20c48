import ThemeLens.Accessor.Basic
import ThemeLens.Proofs.DottedPath

/-!
# The path behind a keyword

What may follow `theme.` is a language of its own: nothing, or names with single dots between
them, and one more dot at the end while the next name is still missing. The reader takes the
longest beginning that is in the language, and it does so in one pass that only remembers whether
the last character could be followed by a dot.

Two facts carry everything else. A text that the pass reads whole is one of the language and
conversely (`isPath_iff`), and the pass goes through such a text to whatever follows it
(`pathFrom_append`). Longest reading, and every law about editing a path, are consequences.
-/

namespace ThemeLens.Accessor

open Text (IsName)

/-- A path as far as it is typed. -/
inductive IsPath : Text → Prop
  | empty : IsPath []
  | names {names : List Text} (hne : names ≠ []) (hn : ∀ n ∈ names, IsName n) :
      IsPath (['.'].intercalate names)
  | dotted {names : List Text} (hne : names ≠ []) (hn : ∀ n ∈ names, IsName n) :
      IsPath (['.'].intercalate names ++ ['.'])

/-- The longest beginning of a text that is a path. -/
def LongestPath (t path : Text) : Prop :=
  IsPath path ∧ path <+: t ∧ ∀ p, IsPath p → p <+: t → p.length ≤ path.length

/-! ## 1. One pass over a path -/

/-- Does a name end where `t` ends, if one did (`afterIdent`) where `t` begins? -/
def identAfter (afterIdent : Bool) : Text → Bool
  | [] => afterIdent
  | c :: t => identAfter (isIdent c) t

theorem identAfter_append (b : Bool) (s t : Text) :
    identAfter b (s ++ t) = identAfter (identAfter b s) t := by
  induction s generalizing b with
  | nil => rfl
  | cons c s ih => exact ih (isIdent c)

theorem isIdent_dot : isIdent '.' = false := by decide

theorem pathFrom_isPrefix (b : Bool) (t : Text) : pathFrom b t <+: t := by
  induction t generalizing b with
  | nil => exact List.nil_prefix
  | cons c t ih =>
    rw [pathFrom]
    split
    · exact List.cons_prefix_cons.mpr ⟨rfl, ih true⟩
    · split
      · exact List.cons_prefix_cons.mpr ⟨rfl, ih false⟩
      · exact List.nil_prefix

/-- One character of a path, and the rest of the path read from the state behind it. -/
theorem pathFrom_cons_eq_self_iff {b : Bool} {c : Char} {t : Text} :
    pathFrom b (c :: t) = c :: t ↔
      (isIdent c = true ∨ c = '.' ∧ b = true) ∧ pathFrom (isIdent c) t = t := by
  rw [pathFrom]
  by_cases hi : isIdent c = true
  · simp [hi]
  · rw [if_neg hi]
    by_cases hd : (c == '.' && b) = true
    · rw [if_pos hd]
      simp only [Bool.and_eq_true, beq_iff_eq] at hd
      obtain ⟨rfl, rfl⟩ := hd
      simp [isIdent_dot]
    · rw [if_neg hd]
      simp only [Bool.and_eq_true, beq_iff_eq] at hd
      simp [hi, hd]

theorem pathFrom_cons_of_reads {b : Bool} {c : Char} (t : Text)
    (h : isIdent c = true ∨ c = '.' ∧ b = true) :
    pathFrom b (c :: t) = c :: pathFrom (isIdent c) t := by
  rw [pathFrom]
  rcases h with h | ⟨rfl, rfl⟩
  · rw [if_pos h, h]
  · rfl

theorem pathFrom_cons_of_stops {b : Bool} {c : Char} (t : Text)
    (h : ¬ (isIdent c = true ∨ c = '.' ∧ b = true)) : pathFrom b (c :: t) = [] := by
  simp only [not_or, not_and, Bool.not_eq_true] at h
  rw [pathFrom, if_neg (by simp [h.1]), if_neg (by simpa using h.2)]

/-- **A path is read through to what follows it.** -/
theorem pathFrom_append {b : Bool} {s : Text} (h : pathFrom b s = s) (t : Text) :
    pathFrom b (s ++ t) = s ++ pathFrom (identAfter b s) t := by
  induction s generalizing b with
  | nil => rfl
  | cons c s ih =>
    obtain ⟨hc, hs⟩ := pathFrom_cons_eq_self_iff.mp h
    rw [List.cons_append, pathFrom_cons_of_reads _ hc, ih hs, identAfter, List.cons_append]

theorem pathFrom_append_eq_self_iff {b : Bool} {s t : Text} :
    pathFrom b (s ++ t) = s ++ t ↔ pathFrom b s = s ∧ pathFrom (identAfter b s) t = t := by
  induction s generalizing b with
  | nil => simp [pathFrom, identAfter]
  | cons c s ih =>
    rw [List.cons_append, pathFrom_cons_eq_self_iff, pathFrom_cons_eq_self_iff, ih, identAfter,
      and_assoc]

theorem pathFrom_pathFrom (b : Bool) (t : Text) : pathFrom b (pathFrom b t) = pathFrom b t := by
  induction t generalizing b with
  | nil => rfl
  | cons c t ih =>
    by_cases hc : isIdent c = true ∨ c = '.' ∧ b = true
    · rw [pathFrom_cons_of_reads t hc, pathFrom_cons_of_reads _ hc, ih]
    · rw [pathFrom_cons_of_stops t hc]
      rfl

/-- Nothing that the pass could read whole is longer than what it reads. -/
theorem isPrefix_pathFrom {b : Bool} {p t : Text} (hp : pathFrom b p = p) (ht : p <+: t) :
    p <+: pathFrom b t := by
  obtain ⟨rest, rfl⟩ := ht
  rw [pathFrom_append hp]
  exact List.prefix_append _ _

/-! ## 2. The language of the pass -/

theorem pathFrom_of_idents {b : Bool} {n : Text} (h : ∀ c ∈ n, isIdent c = true) :
    pathFrom b n = n := by
  induction n generalizing b with
  | nil => rfl
  | cons c n ih =>
    have hc := h c List.mem_cons_self
    exact pathFrom_cons_eq_self_iff.mpr
      ⟨.inl hc, ih fun d hd => h d (List.mem_cons_of_mem _ hd)⟩

theorem identAfter_of_idents {b : Bool} {n : Text} (hne : n ≠ []) (h : ∀ c ∈ n, isIdent c = true) :
    identAfter b n = true := by
  induction n generalizing b with
  | nil => exact absurd rfl hne
  | cons c n ih =>
    have hc := h c List.mem_cons_self
    cases n with
    | nil => exact hc
    | cons d n => exact ih (b := isIdent c) (by simp) fun e he => h e (List.mem_cons_of_mem _ he)

theorem pathFrom_name_dot {b : Bool} {n : Text} (hn : IsName n) (t : Text) :
    pathFrom b (n ++ '.' :: t) = n ++ '.' :: pathFrom false t := by
  rw [pathFrom_append (pathFrom_of_idents hn.2), identAfter_of_idents hn.1 hn.2,
    pathFrom_cons_of_reads t (.inr ⟨rfl, rfl⟩)]
  rfl

theorem pathFrom_intercalate {names : List Text} (hne : names ≠ []) (hn : ∀ n ∈ names, IsName n) :
    pathFrom false (['.'].intercalate names) = ['.'].intercalate names ∧
      identAfter false (['.'].intercalate names) = true := by
  induction names with
  | nil => exact absurd rfl hne
  | cons n names ih =>
    have hname := hn n List.mem_cons_self
    cases names with
    | nil =>
      rw [List.intercalate_singleton]
      exact ⟨pathFrom_of_idents hname.2, identAfter_of_idents hname.1 hname.2⟩
    | cons m names =>
      obtain ⟨ihp, ihs⟩ := ih (by simp) fun n hn' => hn n (List.mem_cons_of_mem _ hn')
      rw [List.intercalate_cons_cons, List.append_assoc, List.singleton_append]
      refine ⟨by rw [pathFrom_name_dot hname, ihp], ?_⟩
      rw [identAfter_append]
      exact ihs

theorem IsPath.ofName {n : Text} (hn : IsName n) : IsPath n := by
  have h := @IsPath.names [n] (by simp) (by simpa using hn)
  rwa [List.intercalate_singleton] at h

theorem IsPath.nameDot {n t : Text} (hn : IsName n) (ht : IsPath t) : IsPath (n ++ '.' :: t) := by
  have hcons {names : List Text} (hnames : ∀ m ∈ names, IsName m) : ∀ m ∈ n :: names, IsName m := by
    intro m hm
    rcases List.mem_cons.mp hm with rfl | hm
    · exact hn
    · exact hnames m hm
  cases ht with
  | empty =>
    have h := @IsPath.dotted [n] (by simp) (by simpa using hn)
    rwa [List.intercalate_singleton] at h
  | @names names hne hnames =>
    have h := @IsPath.names (n :: names) (by simp) (hcons hnames)
    cases names with
    | nil => exact absurd rfl hne
    | cons m names => simpa [List.intercalate_cons_cons] using h
  | @dotted names hne hnames =>
    have h := @IsPath.dotted (n :: names) (by simp) (hcons hnames)
    cases names with
    | nil => exact absurd rfl hne
    | cons m names => simpa [List.intercalate_cons_cons] using h

/-- A text read whole, from a place where no dot may follow, is a path. The induction takes one
    name off the front; what is left is empty, or begins with the dot that the name allows. -/
theorem isPath_of_pathFrom {t : Text} (h : pathFrom false t = t) : IsPath t := by
  induction hlen : t.length using Nat.strongRecOn generalizing t with
  | _ len ih =>
    cases t with
    | nil => exact .empty
    | cons c t =>
      have hsplit := List.takeWhile_append_dropWhile (p := isIdent) (l := c :: t)
      generalize hn : (c :: t).takeWhile isIdent = n at hsplit
      generalize hr : (c :: t).dropWhile isIdent = r at hsplit
      have hc : isIdent c = true := by
        rcases (pathFrom_cons_eq_self_iff.mp h).1 with hc | ⟨-, hb⟩
        · exact hc
        · cases hb
      have hname : IsName n := by
        refine ⟨?_, fun d hd => List.mem_takeWhile_imp (hn ▸ hd)⟩
        rw [← hn, List.takeWhile_cons_of_pos hc]
        simp
      rw [← hsplit] at h hlen ⊢
      have hrest := (pathFrom_append_eq_self_iff.mp h).2
      rw [identAfter_of_idents hname.1 hname.2] at hrest
      cases r with
      | nil =>
        rw [List.append_nil]
        exact .ofName hname
      | cons d r =>
        have hd : isIdent d = false := Text.head?_dropWhile isIdent (c :: t) d (by rw [hr]; rfl)
        obtain ⟨hdot, hr'⟩ := pathFrom_cons_eq_self_iff.mp hrest
        obtain rfl : d = '.' := by simpa [hd] using hdot
        have hlt : r.length < len := by
          rw [← hlen, List.length_append, List.length_cons]
          omega
        exact .nameDot hname (ih r.length hlt hr' rfl)

theorem isPath_iff {t : Text} : IsPath t ↔ pathFrom false t = t := by
  refine ⟨fun h => ?_, isPath_of_pathFrom⟩
  cases h with
  | empty => rfl
  | names hne hn => exact (pathFrom_intercalate hne hn).1
  | dotted hne hn =>
    obtain ⟨hp, hs⟩ := pathFrom_intercalate hne hn
    rw [pathFrom_append hp, hs]
    rfl

/-- **The path that is read is the longest.** -/
theorem longestPath_iff {t path : Text} : LongestPath t path ↔ path = pathFrom false t := by
  have hread : IsPath (pathFrom false t) := isPath_iff.mpr (pathFrom_pathFrom false t)
  constructor
  · intro h
    obtain ⟨hpath, hpre, hmax⟩ := h
    have hle := isPrefix_pathFrom (isPath_iff.mp hpath) hpre
    exact hle.eq_of_length_le (hmax _ hread (pathFrom_isPrefix false t))
  · rintro rfl
    exact ⟨hread, pathFrom_isPrefix false t,
      fun p hp hpre => (isPrefix_pathFrom (isPath_iff.mp hp) hpre).length_le⟩

/-- In a path no dot stands in front of another one. -/
theorem getLast?_ne_dot_of_pathFrom {q rest : Text}
    (h : pathFrom false (q ++ '.' :: rest) = q ++ '.' :: rest) : q.getLast? ≠ some '.' := by
  obtain ⟨-, hdot⟩ := pathFrom_append_eq_self_iff.mp h
  obtain ⟨hstate, -⟩ := pathFrom_cons_eq_self_iff.mp hdot
  rw [isIdent_dot] at hstate
  rcases List.eq_nil_or_concat q with rfl | ⟨front, c, rfl⟩
  · simp
  rintro hlast
  rw [List.concat_eq_append, List.getLast?_concat] at hlast
  cases hlast
  rw [List.concat_eq_append, identAfter_append] at hstate
  simp [identAfter, isIdent_dot] at hstate

/-- A boundary is a path behind which a name may follow. -/
theorem pathFrom_boundary {typed : Text} (h : pathFrom false typed = typed) :
    pathFrom false (DottedPath.boundary typed) = DottedPath.boundary typed ∧
      identAfter false (DottedPath.boundary typed) = false := by
  constructor
  · rw [← DottedPath.boundary_append_partialSegment typed] at h
    exact (pathFrom_append_eq_self_iff.mp h).1
  · rcases DottedPath.boundary_eq typed with hnil | ⟨front, hdot⟩
    · rw [hnil]
      rfl
    · rw [hdot, identAfter_append]
      rfl

/-! ## 3. The keyword -/

theorem keyword_size_pos : 0 < keyword.size := by decide

/-- What follows a keyword gives the path, what is before it everything else. -/
theorem ofKeyword?_eq_some_iff {k : Cursor} {a : Accessor} :
    ofKeyword? k = some a ↔
      ∃ rest, k.after = keyword ++ rest ∧ a.path = pathFrom false rest ∧
        opening? k.before = some (a.start, a.form) ∧ a.pathStart = k.offset + keyword.size := by
  unfold ofKeyword?
  constructor
  · intro h
    obtain ⟨path, hpath, h⟩ := Option.bind_eq_some_iff.mp h
    obtain ⟨⟨start, form⟩, hopen, rfl⟩ := Option.map_eq_some_iff.mp h
    obtain ⟨rest, hstrip, rfl⟩ := Option.map_eq_some_iff.mp hpath
    exact ⟨rest, Text.strip?_eq_some_iff.mp hstrip, rfl, hopen, rfl⟩
  · intro h
    obtain ⟨rest, hafter, hpath, hopen, hstart⟩ := h
    have hread : readPath? k.after = some a.path := by
      rw [readPath?, Text.strip?_eq_some_iff.mpr hafter, hpath]
      rfl
    rw [hread, Option.bind_some, hopen, ← hstart]
    rfl

end ThemeLens.Accessor
