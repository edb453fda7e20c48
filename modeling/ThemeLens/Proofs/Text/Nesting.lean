import Mathlib.Data.List.TakeWhile
import ThemeLens.Text.Basic

/-!
# Words and nested brackets

The vocabulary in which the grammar of accessors is written. A *name* is a word of identifier
characters, a *gap* and a *blank* are stretches of the two kinds of white space, and a text is
*balanced* when its brackets of one kind pair up.

Readers do not look for balance. They count: up at one bracket, down at the other, and they stop at
the bracket that finds the count at zero. `Closes` is that count, and the point of this file is
that it recognises exactly the balanced texts (`balanced_iff_closes`). A reader that goes backwards
counts the same with the two brackets exchanged, which is why balance is also shown to survive
reversal.
-/

namespace ThemeLens.Text

/-! ## 1. Words -/

/-- A word of identifier characters. -/
def IsName (t : Text) : Prop := t ≠ [] ∧ ∀ c ∈ t, isIdent c = true

/-- Any amount of the white space allowed inside an arrow head. -/
def IsGap (t : Text) : Prop := ∀ c ∈ t, isGap c = true

/-- Any amount of Unicode white space. -/
def IsBlank (t : Text) : Prop := ∀ c ∈ t, isBlank c = true

theorem IsGap.isBlank {t : Text} (h : IsGap t) : IsBlank t := fun c hc => isBlank_of_isGap (h c hc)

theorem IsBlank.reverse {t : Text} (h : IsBlank t) : IsBlank t.reverse := fun c hc =>
  h c (List.mem_reverse.mp hc)

theorem IsGap.reverse {t : Text} (h : IsGap t) : IsGap t.reverse := fun c hc =>
  h c (List.mem_reverse.mp hc)

theorem isGap_iff_all {t : Text} : t.all ThemeLens.isGap = true ↔ IsGap t := List.all_eq_true

/-! ## 2. Where a stretch of one class ends -/

section Stretch

variable {p : Char → Bool} {s t : Text}

theorem takeWhile_stretch (hs : ∀ c ∈ s, p c = true) (ht : ∀ c, t.head? = some c → p c = false) :
    (s ++ t).takeWhile p = s := by
  rw [List.takeWhile_append_of_pos hs]
  cases t with
  | nil => simp
  | cons c t => simp [ht c rfl]

theorem dropWhile_stretch (hs : ∀ c ∈ s, p c = true) (ht : ∀ c, t.head? = some c → p c = false) :
    (s ++ t).dropWhile p = t := by
  rw [List.dropWhile_append_of_pos hs]
  cases t with
  | nil => rfl
  | cons c t => simp [ht c rfl]

theorem head?_dropWhile (p : Char → Bool) (t : Text) :
    ∀ c, (t.dropWhile p).head? = some c → p c = false := by
  intro c hc
  have h := List.head?_dropWhile_not p t
  rw [hc] at h
  simpa using h

end Stretch

theorem cut_of_notMem {mark : Char} {t : Text} (h : mark ∉ t) : cut mark t = (t, none) := by
  have hall : ∀ c ∈ t, (c != mark) = true := fun c hc => by
    simp only [bne_iff_ne]
    rintro rfl
    exact h hc
  have htake := takeWhile_stretch (t := []) hall (by simp)
  have hdrop := dropWhile_stretch (t := []) hall (by simp)
  rw [List.append_nil] at htake hdrop
  rw [cut, htake, hdrop]
  rfl

theorem cut_mark {mark : Char} {t : Text} (h : mark ∉ t) (rest : Text) :
    cut mark (t ++ mark :: rest) = (t, some rest) := by
  have hall : ∀ c ∈ t, (c != mark) = true := fun c hc => by
    simp only [bne_iff_ne]
    rintro rfl
    exact h hc
  have hstop : ∀ c, (mark :: rest).head? = some c → (c != mark) = false := fun c hc => by
    cases hc
    simp
  rw [cut, takeWhile_stretch hall hstop, dropWhile_stretch hall hstop]
  rfl

theorem exists_mark_or_notMem (mark : Char) (t : Text) :
    mark ∉ t ∨ ∃ front rest, t = front ++ mark :: rest ∧ mark ∉ front := by
  by_cases h : mark ∈ t
  · obtain ⟨front, rest, rfl, hfront⟩ := List.eq_append_cons_of_mem h
    exact .inr ⟨front, rest, rfl, hfront⟩
  · exact .inl h

/-- A word with blanks around it. -/
def Padded (word t : Text) : Prop :=
  ∃ blank₁ blank₂, IsBlank blank₁ ∧ IsBlank blank₂ ∧ t = blank₁ ++ word ++ blank₂

theorem padded_trim (t : Text) : Padded (trim t) t := by
  have h₁ := List.takeWhile_append_dropWhile (p := isBlank) (l := t)
  have h₂ := List.takeWhile_append_dropWhile (p := isBlank) (l := (trimStart t).reverse)
  refine ⟨t.takeWhile isBlank, ((trimStart t).reverse.takeWhile isBlank).reverse,
    fun c hc => List.mem_takeWhile_imp hc,
    fun c hc => List.mem_takeWhile_imp (List.mem_reverse.mp hc), ?_⟩
  rw [trim, trimEnd, List.append_assoc, ← List.reverse_append, h₂, List.reverse_reverse, trimStart,
    h₁]

/-- Trimming takes off the blanks and nothing of the word, if that neither begins nor ends with
    one. -/
theorem trim_eq_iff_padded {word t : Text} (hne : word ≠ [])
    (hhead : ∀ c, word.head? = some c → isBlank c = false)
    (hlast : ∀ c, word.getLast? = some c → isBlank c = false) :
    trim t = word ↔ Padded word t := by
  constructor
  · rintro rfl
    exact padded_trim t
  · intro h
    obtain ⟨blank₁, blank₂, h₁, h₂, rfl⟩ := h
    have hstart : trimStart (blank₁ ++ word ++ blank₂) = word ++ blank₂ := by
      rw [trimStart, List.append_assoc]
      refine dropWhile_stretch h₁ fun c hc => hhead c ?_
      obtain ⟨d, word, rfl⟩ := List.exists_cons_of_ne_nil hne
      exact hc
    rw [trim, hstart, trimEnd, List.reverse_append,
      dropWhile_stretch h₂.reverse fun c hc => hlast c (by rwa [List.head?_reverse] at hc),
      List.reverse_reverse]

theorem IsName.trim_eq_iff {name t : Text} (h : IsName name) : trim t = name ↔ Padded name t := by
  refine trim_eq_iff_padded h.1 ?_ ?_
  · intro c hc
    exact isBlank_eq_false_of_isIdent (h.2 c (List.mem_of_mem_head? hc))
  · intro c hc
    exact isBlank_eq_false_of_isIdent (h.2 c (List.mem_of_mem_getLast? hc))

/-! ## 3. Balance -/

/-- Brackets of one kind pair up; everything else is free. -/
inductive Balanced (opener closer : Char) : Text → Prop
  | nil : Balanced opener closer []
  | plain {c : Char} {t : Text} (ho : c ≠ opener) (hc : c ≠ closer)
      (ht : Balanced opener closer t) : Balanced opener closer (c :: t)
  | nest {s t : Text} (hs : Balanced opener closer s) (ht : Balanced opener closer t) :
      Balanced opener closer (opener :: s ++ closer :: t)

/-- Read from `depth` open brackets on, the count never falls below zero and ends at it. -/
def Closes (opener closer : Char) : Nat → Text → Prop
  | depth, [] => depth = 0
  | depth, c :: t =>
    if c = closer then ∃ d, depth = d + 1 ∧ Closes opener closer d t
    else if c = opener then Closes opener closer (depth + 1) t
    else Closes opener closer depth t

variable {opener closer : Char} {depth : Nat} {s t : Text}

@[simp] theorem closes_nil : Closes opener closer depth [] ↔ depth = 0 := Iff.rfl

@[simp] theorem closes_closer :
    Closes opener closer depth (closer :: t) ↔ ∃ d, depth = d + 1 ∧ Closes opener closer d t := by
  simp [Closes]

theorem closes_opener (hne : opener ≠ closer) :
    Closes opener closer depth (opener :: t) ↔ Closes opener closer (depth + 1) t := by
  simp [Closes, hne]

theorem closes_plain {c : Char} (ho : c ≠ opener) (hc : c ≠ closer) :
    Closes opener closer depth (c :: t) ↔ Closes opener closer depth t := by
  simp [Closes, ho, hc]

/-- One step of the count, as readers write it. They stop at a closer that finds the count at
    zero; past any other character this is what is left to close. -/
theorem closes_cons_iff {c : Char} (hne : opener ≠ closer) (hstop : ¬ (c = closer ∧ depth = 0)) :
    Closes opener closer depth (c :: t) ↔
      Closes opener closer
        (if c = opener then depth + 1 else if c = closer then depth - 1 else depth) t := by
  by_cases ho : c = opener
  · subst ho
    rw [if_pos rfl, closes_opener hne]
  by_cases hc : c = closer
  · subst hc
    obtain ⟨m, rfl⟩ := Nat.exists_eq_succ_of_ne_zero fun hzero => hstop ⟨rfl, hzero⟩
    rw [if_neg ho, if_pos rfl, closes_closer]
    simp
  · rw [if_neg ho, if_neg hc, closes_plain ho hc]

theorem not_closes_zero_closer : ¬ Closes opener closer 0 (closer :: t) := by
  intro h
  obtain ⟨d, hd, -⟩ := closes_closer.mp h
  exact absurd hd (by simp)

/-- What a beginning leaves open, the rest has to close. -/
theorem closes_le_of_append {depth' : Nat} (hne : opener ≠ closer)
    (h : Closes opener closer depth (s ++ t)) (h' : Closes opener closer depth' s) :
    depth' ≤ depth := by
  induction s generalizing depth depth' with
  | nil =>
    obtain rfl : depth' = 0 := h'
    exact Nat.zero_le _
  | cons c s ih =>
    rw [List.cons_append] at h
    by_cases hc : c = closer
    · subst hc
      obtain ⟨n, rfl, hrest⟩ := closes_closer.mp h
      obtain ⟨n', rfl, hrest'⟩ := closes_closer.mp h'
      exact Nat.succ_le_succ (ih hrest hrest')
    by_cases ho : c = opener
    · subst ho
      exact Nat.le_of_succ_le_succ
        (ih ((closes_opener hne).mp h) ((closes_opener hne).mp h'))
    · exact ih ((closes_plain ho hc).mp h) ((closes_plain ho hc).mp h')

/-- A balanced stretch leaves the count as it was. -/
theorem Balanced.closes_append (hne : opener ≠ closer) (h : Balanced opener closer s) :
    Closes opener closer depth (s ++ t) ↔ Closes opener closer depth t := by
  induction h generalizing depth t with
  | nil => rfl
  | plain ho hc _ ih => rw [List.cons_append, closes_plain ho hc, ih]
  | nest _ _ ihs iht =>
    rw [List.append_assoc, List.cons_append, closes_opener hne, ihs, List.cons_append,
      closes_closer]
    simp [iht]

/-- A text that closes `depth` brackets: as many balanced stretches, each ended by a closer, and
    one more behind them. -/
def Stretches (opener closer : Char) : Nat → Text → Prop
  | 0, t => Balanced opener closer t
  | depth + 1, t =>
    ∃ s rest, t = s ++ closer :: rest ∧ Balanced opener closer s ∧
      Stretches opener closer depth rest

/-- The count tells nothing but the number of stretches. The induction is along the text, at every
    depth at once, since an opener asks for one stretch more. -/
theorem Closes.stretches (h : Closes opener closer depth t) :
    Stretches opener closer depth t := by
  induction t generalizing depth with
  | nil =>
    obtain rfl : depth = 0 := h
    exact .nil
  | cons c t ih =>
    by_cases hc : c = closer
    · subst hc
      obtain ⟨d, rfl, hd⟩ := closes_closer.mp h
      exact ⟨[], t, rfl, .nil, ih hd⟩
    by_cases ho : c = opener
    · subst ho
      rw [closes_opener hc] at h
      obtain ⟨s, rest, rfl, hs, hrest⟩ := ih h
      cases depth with
      | zero => exact .nest hs hrest
      | succ d =>
        obtain ⟨s', rest', rfl, hs', hrest'⟩ := hrest
        exact ⟨c :: s ++ closer :: s', rest', by simp, .nest hs hs', hrest'⟩
    · rw [closes_plain ho hc] at h
      cases depth with
      | zero => exact .plain ho hc (ih h)
      | succ d =>
        obtain ⟨s, rest, rfl, hs, hrest⟩ := ih h
        exact ⟨c :: s, rest, rfl, .plain ho hc hs, hrest⟩

/-- **Counting recognises balance.** -/
theorem balanced_iff_closes (hne : opener ≠ closer) :
    Balanced opener closer t ↔ Closes opener closer 0 t := by
  constructor
  · intro h
    have hcl : Closes opener closer 0 (t ++ []) := (h.closes_append hne).mpr rfl
    rwa [List.append_nil] at hcl
  · exact Closes.stretches

/-- Behind an opener and part of what it holds, the opener is still open. -/
theorem not_balanced_cons (hne : opener ≠ closer) (h : Balanced opener closer (s ++ t)) :
    ¬ Balanced opener closer (opener :: s) := by
  intro hopen
  rw [balanced_iff_closes hne] at h hopen
  exact absurd (closes_le_of_append hne h ((closes_opener hne).mp hopen)) (by decide)

theorem balanced_of_plain (h : ∀ c ∈ t, c ≠ opener ∧ c ≠ closer) : Balanced opener closer t := by
  induction t with
  | nil => exact .nil
  | cons c t ih =>
    obtain ⟨ho, hc⟩ := h c List.mem_cons_self
    exact .plain ho hc (ih fun c hc => h c (List.mem_cons_of_mem _ hc))

theorem Balanced.append (hs : Balanced opener closer s) (ht : Balanced opener closer t) :
    Balanced opener closer (s ++ t) := by
  induction hs with
  | nil => exact ht
  | plain ho hc _ ih => exact .plain ho hc ih
  | nest hs _ _ ih =>
    rw [List.append_assoc, List.cons_append]
    exact .nest hs ih

/-- Brackets of one kind say nothing about those of another. -/
theorem Balanced.enclosed {c e : Char} (h : Balanced opener closer t)
    (hc : c ≠ opener ∧ c ≠ closer) (he : e ≠ opener ∧ e ≠ closer) :
    Balanced opener closer (c :: t ++ [e]) :=
  .plain hc.1 hc.2 (h.append (.plain he.1 he.2 .nil))

/-- Read backwards, brackets pair up with their parts exchanged. -/
theorem Balanced.reverse (h : Balanced opener closer t) : Balanced closer opener t.reverse := by
  induction h with
  | nil => exact .nil
  | plain ho hc _ ih =>
    rw [List.reverse_cons]
    exact ih.append (.plain hc ho .nil)
  | @nest s t _ _ ihs iht =>
    have hrev : (opener :: s ++ closer :: t).reverse =
        t.reverse ++ (closer :: s.reverse ++ opener :: []) := by simp
    rw [hrev]
    exact iht.append (.nest ihs .nil)

end ThemeLens.Text
