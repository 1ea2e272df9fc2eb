import Mathlib.Algebra.Group.Nat.Even
import Scaffold.Slash

/-! The scan for foreign slashes. It is inside quotes behind an odd number of them, and it stops at
the first foreign slash that is not. -/
namespace Scaffold.Slash

variable {slash : Slash} {inQuotes : Bool} {offset position : Nat} {t : Text}

/-- Whether the scan is inside quotes behind `t`. -/
def quotedAfter (inQuotes : Bool) (t : Text) : Bool := inQuotes == decide (Even (t.count '"'))

@[simp] theorem quotedAfter_nil (inQuotes : Bool) : quotedAfter inQuotes [] = inQuotes := by
  simp [quotedAfter]

@[simp] theorem quotedAfter_cons (inQuotes : Bool) (c : Char) (t : Text) :
    quotedAfter inQuotes (c :: t) = quotedAfter (if c = '"' then !inQuotes else inQuotes) t := by
  unfold quotedAfter
  by_cases quote : c = '"'
  · have toggled : decide (Even ((c :: t).count '"')) = !decide (Even (t.count '"')) := by
      rw [← decide_not, decide_eq_decide, quote, List.count_cons_self, Nat.even_add_one]
    rw [toggled, if_pos quote]
    cases inQuotes <;> cases decide (Even (t.count '"')) <;> rfl
  · have kept : (c :: t).count '"' = t.count '"' := List.count_cons_of_ne quote
    rw [kept, if_neg quote]

/-- A foreign slash stands outside quotes behind `before`. -/
structure IsBare (slash : Slash) (t before : Text) : Prop where
  even : Even (before.count '"')
  cut : ∃ after, t = before ++ slash.foreign :: after

theorem scanForeign_append (slash : Slash) (inQuotes : Bool) (offset : Nat) (s t : Text) :
    slash.scanForeign inQuotes offset (s ++ t) = (slash.scanForeign inQuotes offset s).or
      (slash.scanForeign (quotedAfter inQuotes s) (offset + Text.byteLength s) t) := by
  induction s generalizing inQuotes offset with
  | nil => simp [scanForeign]
  | cons c s ih =>
    rw [List.cons_append, scanForeign, scanForeign, quotedAfter_cons, Text.byteLength_cons,
      ← Nat.add_assoc]
    split
    · exact ih _ _
    · split
      · rfl
      · exact ih _ _

theorem scanForeign_eq_some (found : slash.scanForeign inQuotes offset t = some position) :
    ∃ before after, t = before ++ slash.foreign :: after ∧ quotedAfter inQuotes before = false ∧
      position = offset + Text.byteLength before ∧
      slash.scanForeign inQuotes offset before = none := by
  induction t generalizing inQuotes offset with
  | nil => cases found
  | cons c t ih =>
    have later {inside : Bool}
        (goesOn : ∀ s : Text, slash.scanForeign inQuotes offset (c :: s) =
          slash.scanForeign inside (offset + c.utf8Size) s)
        (kept : inside = if c = '"' then !inQuotes else inQuotes) :
        ∃ before after, c :: t = before ++ slash.foreign :: after ∧
          quotedAfter inQuotes before = false ∧ position = offset + Text.byteLength before ∧
          slash.scanForeign inQuotes offset before = none := by
      rw [goesOn] at found
      obtain ⟨before, after, whole, outside, place, clean⟩ := ih found
      refine ⟨c :: before, after, by rw [whole]; rfl, ?_, ?_, by rw [goesOn, clean]⟩
      · rw [quotedAfter_cons, ← kept, outside]
      · rw [place, Text.byteLength_cons, Nat.add_assoc]
    by_cases quote : c = '"'
    · exact later (fun s => by rw [scanForeign, if_pos quote]) (if_pos quote).symm
    · by_cases bare : c = slash.foreign ∧ !inQuotes
      · rw [scanForeign, if_neg quote, if_pos bare] at found
        cases found
        exact ⟨[], t, by rw [bare.1]; rfl, by simpa using bare.2, rfl, rfl⟩
      · exact later (fun s => by rw [scanForeign, if_neg quote, if_neg bare]) (if_neg quote).symm

theorem scanForeign_of_isBare {before : Text} (bare : slash.IsBare t before) :
    slash.findForeign? t = (slash.findForeign? before).or (some (Text.byteLength before)) := by
  obtain ⟨even, after, rfl⟩ := bare
  have outside : quotedAfter false before = false := by simp [quotedAfter, even]
  have stops : slash.scanForeign false (0 + Text.byteLength before) (slash.foreign :: after) =
      some (Text.byteLength before) := by
    have plain : slash.foreign ≠ '"' := by cases slash <;> decide
    rw [scanForeign, if_neg plain, if_pos ⟨rfl, rfl⟩, Nat.zero_add]
  rw [findForeign?, scanForeign_append, outside, stops, findForeign?]

theorem findForeign?_eq_none_iff :
    slash.findForeign? t = none ↔ ∀ before, ¬slash.IsBare t before := by
  constructor
  · intro clean before bare
    rw [scanForeign_of_isBare bare] at clean
    simp at clean
  · intro clean
    by_contra found
    obtain ⟨position, stops⟩ := Option.ne_none_iff_exists'.1 found
    obtain ⟨before, after, whole, outside, _⟩ := scanForeign_eq_some stops
    exact clean before ⟨by simpa [quotedAfter] using outside, after, whole⟩

/-- A slash in front of another one is there already when the text is cut before the other. -/
theorem IsBare.earlier {before earlier : Text} (bare : slash.IsBare t before)
    (other : slash.IsBare t earlier) (shorter : earlier.length < before.length) :
    slash.IsBare before earlier := by
  obtain ⟨_, after, rfl⟩ := bare
  obtain ⟨even, rest, whole⟩ := other
  refine ⟨even, ?_⟩
  rcases List.append_eq_append_iff.1 whole with ⟨more, longer, _⟩ | ⟨more, longer, behind⟩
  · rw [longer, List.length_append] at shorter
    omega
  · cases more with
    | nil =>
      rw [longer, List.append_nil] at shorter
      omega
    | cons c more =>
      obtain ⟨rfl, _⟩ := List.cons.inj behind
      exact ⟨more, longer⟩

/-- The first foreign slash outside quotes stands behind `before`. -/
structure IsFirstBare (slash : Slash) (t before : Text) : Prop extends slash.IsBare t before where
  first : ∀ earlier, slash.IsBare t earlier → before.length ≤ earlier.length

/-- The scan reports the bytes before the first foreign slash outside quotes. -/
theorem findForeign?_eq_some_iff :
    slash.findForeign? t = some position ↔
      ∃ before, slash.IsFirstBare t before ∧ Text.byteLength before = position := by
  constructor
  · intro found
    obtain ⟨before, after, whole, outside, place, clean⟩ := scanForeign_eq_some found
    have bare : slash.IsBare t before := ⟨by simpa [quotedAfter] using outside, after, whole⟩
    refine ⟨before, ⟨bare, fun earlier other => ?_⟩, by rw [place, Nat.zero_add]⟩
    by_contra shorter
    exact findForeign?_eq_none_iff.1 clean earlier (bare.earlier other (Nat.lt_of_not_le shorter))
  · rintro ⟨before, ⟨bare, first⟩, rfl⟩
    have clean : slash.findForeign? before = none := by
      rw [findForeign?_eq_none_iff]
      rintro earlier ⟨even, rest, shorter⟩
      obtain ⟨_, after, whole⟩ := bare
      have inside := first earlier ⟨even, rest ++ slash.foreign :: after, by
        rw [whole, shorter, List.append_assoc, List.cons_append]⟩
      rw [shorter, List.length_append, List.length_cons] at inside
      omega
    rw [scanForeign_of_isBare bare, clean, Option.none_or]

end Scaffold.Slash
