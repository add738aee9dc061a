import SchemaRefs.Path

/-!
# Paths and their texts

The text of a path does not tell a slash inside a name from one between two steps, an empty name
from none, or a name of digits from a position. So not every path can be read back from its text. A
step that can is legible (`Step.IsLegible`): reading its text gives the step again, and the text is
one non-empty piece.

What is read from a text has only legible steps (`isLegible_of_mem_parse`), whatever the text is.
This decides both directions: a path of legible steps is read back from its text (`parse_text`), and
no other path is ever read, so that irregular steps cannot make up for each other
(`text_read_back_iff_legible`).
-/

namespace SchemaRefs

namespace Step

variable {step : Step}

/-! ## Positions -/

theorem digitsValue_eq_ofDigitChars (digits : List Char) :
    digitsValue digits = Nat.ofDigitChars 10 digits 0 := by
  have hstep : (fun (n : Nat) (c : Char) => n * 10 + (c.toNat - 48)) =
      fun n c => 10 * n + (c.toNat - '0'.toNat) := by
    funext n c
    rw [Nat.mul_comm]
    rfl
  rw [digitsValue, Nat.ofDigitChars, hstep]

theorem digitsValue_toDigits (position : Nat) :
    digitsValue (Nat.toDigits 10 position) = position := by
  rw [digitsValue_eq_ofDigitChars]
  exact Nat.ofDigitChars_toDigits (by decide) (by decide)

theorem all_isDigit_positionText (position : Nat) :
    (positionText position).toList.all Char.isDigit = true := by
  rw [positionText, String.toList_ofList]
  exact List.all_eq_true.mpr fun c hmem => Nat.isDigit_of_mem_toDigits (by decide) (by decide) hmem

theorem ofChars_positionText {position : Nat} (h : position < positionBound) :
    ofChars (positionText position).toList = .index position := by
  have hdigits := all_isDigit_positionText position
  have htext : (positionText position).toList = Nat.toDigits 10 position := String.toList_ofList
  rw [htext] at hdigits ⊢
  have hvalue := digitsValue_toDigits position
  rw [ofChars, if_pos ⟨Nat.toDigits_ne_nil, hdigits, by rwa [hvalue]⟩, hvalue]

/-! ## Legible steps -/

/-- The name reads as a position: it has only digits, and their number is within bounds. -/
def ReadsAsPosition (name : String) : Prop :=
  name.toList.all Char.isDigit = true ∧ digitsValue name.toList < positionBound

/-- The step can be read back from its text. A name must not be empty, have a slash or read as a
position, and a position has to be within the bounds of positions. -/
def IsLegible : Step → Prop
  | .key name => name ≠ "" ∧ '/' ∉ name.toList ∧ ¬ ReadsAsPosition name
  | .index position => position < positionBound

theorem IsLegible.text_ne_nil (h : step.IsLegible) : step.text.toList ≠ [] := by
  cases step with
  | key name => exact fun hnil => h.1 (String.toList_eq_nil_iff.mp hnil)
  | index position =>
    rw [text, positionText, String.toList_ofList]
    exact Nat.toDigits_ne_nil

theorem IsLegible.slash_not_mem_text (h : step.IsLegible) : '/' ∉ step.text.toList := by
  cases step with
  | key name => exact h.2.1
  | index position =>
    exact fun hmem => absurd (List.all_eq_true.mp (all_isDigit_positionText position) '/' hmem)
      (by decide)

theorem IsLegible.ofChars_text (h : step.IsLegible) : ofChars step.text.toList = step := by
  cases step with
  | key name =>
    have hname : ¬ (name.toList ≠ [] ∧ name.toList.all Char.isDigit = true ∧
        digitsValue name.toList < positionBound) := fun hread => h.2.2 hread.2
    rw [text, ofChars, if_neg hname, String.ofList_toList]
  | index position => exact ofChars_positionText h

/-- What is read from a piece is legible: digits are taken for a name only if no position is so
large. -/
theorem isLegible_ofChars {piece : List Char} (hne : piece ≠ []) (hslash : '/' ∉ piece) :
    (ofChars piece).IsLegible := by
  unfold ofChars
  split
  · next hread => exact hread.2.2
  · next hname =>
    refine ⟨fun hempty => hne ?_, ?_, fun hread => hname ?_⟩
    · rw [← String.toList_ofList (l := piece), hempty]
      rfl
    · rwa [String.toList_ofList]
    · rw [ReadsAsPosition, String.toList_ofList] at hread
      exact ⟨hne, hread⟩

end Step

namespace Path

/-! ## Pieces of a text -/

theorem pieces_eq_splitOn (cs : List Char) : pieces cs = cs.splitOn '/' := by
  induction cs with
  | nil => rfl
  | cons c rest ih =>
    rw [pieces, List.splitOn_cons_eq_if_modifyHead, ih]
    by_cases hc : c = '/'
    · simp [hc]
    · rw [if_neg hc, if_neg (by simpa using hc)]
      cases hrest : rest.splitOn '/' with
      | nil => exact absurd hrest (List.splitOn_ne_nil _ _)
      | cons piece others => rfl

theorem slash_not_mem_of_mem_pieces {cs piece : List Char} (h : piece ∈ pieces cs) :
    '/' ∉ piece := by
  induction cs generalizing piece with
  | nil =>
    rw [pieces, List.mem_singleton] at h
    rw [h]
    exact List.not_mem_nil
  | cons c rest ih =>
    rw [pieces] at h
    split at h
    · rcases List.mem_cons.mp h with rfl | hmem
      · exact List.not_mem_nil
      · exact ih hmem
    · next hc =>
      split at h
      · next first others hrest =>
        rcases List.mem_cons.mp h with rfl | hmem
        · have hfirst : '/' ∉ first := ih (hrest ▸ List.mem_cons_self)
          exact fun hmem => (List.mem_cons.mp hmem).elim (fun heq => hc heq.symm) hfirst
        · exact ih (hrest ▸ List.mem_cons_of_mem _ hmem)
      · rw [List.mem_singleton] at h
        rw [h, List.mem_singleton]
        exact fun heq => hc heq.symm

/-! ## Reading -/

theorem isLegible_of_mem_parse {text : String} {step : Step} (h : step ∈ (parse text).steps) :
    step.IsLegible := by
  obtain ⟨piece, hpiece, rfl⟩ := List.mem_map.mp h
  obtain ⟨hmem, hne⟩ := List.mem_filter.mp hpiece
  exact Step.isLegible_ofChars (by simpa using hne) (slash_not_mem_of_mem_pieces hmem)

/-- A path of legible steps is read back from its text, whose pieces are the texts of the steps. -/
theorem parse_text {path : Path} (h : ∀ step ∈ path.steps, step.IsLegible) :
    parse path.text = path := by
  obtain ⟨steps⟩ := path
  rcases Decidable.em (steps = []) with rfl | hne
  · rfl
  have hpieces : pieces (text ⟨steps⟩).toList = steps.map fun step => step.text.toList := by
    rw [pieces_eq_splitOn, text, String.toList_intercalate, List.map_map]
    refine List.splitOn_intercalate '/' (fun piece hpiece => ?_) (by simpa using hne)
    obtain ⟨step, hstep, rfl⟩ := List.mem_map.mp hpiece
    exact (h step hstep).slash_not_mem_text
  have hkept : (steps.map fun step => step.text.toList).filter (fun piece => !piece.isEmpty) =
      steps.map fun step => step.text.toList := by
    refine List.filter_eq_self.mpr fun piece hpiece => ?_
    obtain ⟨step, hstep, rfl⟩ := List.mem_map.mp hpiece
    simpa using (h step hstep).text_ne_nil
  have hread : steps.map (Step.ofChars ∘ fun step => step.text.toList) = steps.map id :=
    List.map_congr_left fun step hstep => (h step hstep).ofChars_text
  rw [parse, hpieces, hkept, List.map_map, hread, List.map_id]

/-- Reading a text, writing what was read and reading that again changes nothing. A path is read
back from its own text exactly if no name in it is empty, has a slash or reads as a position, where
all positions are within bounds. -/
theorem text_read_back_iff_legible :
    (∀ text, parse (parse text).text = parse text) ∧
    ∀ path, parse path.text = path ↔
      (∀ name, .key name ∈ path.steps → name ≠ "" ∧ '/' ∉ name.toList ∧
        ¬ (name.toList.all Char.isDigit = true ∧
          Step.digitsValue name.toList < Step.positionBound)) ∧
      ∀ position, .index position ∈ path.steps → position < Step.positionBound := by
  refine ⟨fun text => parse_text fun step => isLegible_of_mem_parse,
    fun path => ⟨fun hback => ?_, fun hsteps => ?_⟩⟩
  · have hlegible : ∀ step ∈ path.steps, step.IsLegible := by
      rw [← hback]
      exact fun step => isLegible_of_mem_parse
    exact ⟨fun name => hlegible (.key name), fun position => hlegible (.index position)⟩
  · refine parse_text fun step hstep => ?_
    cases step with
    | key name => exact hsteps.1 name hstep
    | index position => exact hsteps.2 position hstep

/-- A signed number and digits beyond the last position are names, and are read back as such, next
to the last position. An empty name and a slash do not make up for each other: the text of the
second path has two pieces, but other ones. -/
theorem irregular_steps_not_read_back :
    parse (text ⟨[.key "+1", .key "018446744073709551616", .index 18446744073709551615]⟩) =
        ⟨[.key "+1", .key "018446744073709551616", .index 18446744073709551615]⟩ ∧
      parse (text ⟨[.key "", .key "a/b"]⟩) ≠ ⟨[.key "", .key "a/b"]⟩ := by
  refine ⟨(text_read_back_iff_legible.2 _).mpr ⟨fun name hname => ?_, fun position hposition => ?_⟩,
    fun hback => ?_⟩
  · simp only [List.mem_cons, Step.key.injEq, reduceCtorEq, List.not_mem_nil, or_false] at hname
    rcases hname with rfl | rfl <;> decide +kernel
  · simp only [List.mem_cons, Step.index.injEq, reduceCtorEq, List.not_mem_nil,
      or_false, false_or] at hposition
    rw [hposition]
    decide +kernel
  · exact ((text_read_back_iff_legible.2 _).mp hback).1 "" List.mem_cons_self |>.1 rfl

end Path

end SchemaRefs
