import Scaffold.Text.Basic

/-! Blank characters, the Unicode property White_Space, and texts without blanks at their ends. -/
namespace Scaffold.Text

def isBlank (c : Char) : Bool :=
  let n := c.toNat
  (0x09 ≤ n && n ≤ 0x0D) || n == 0x20 || n == 0x85 || n == 0xA0 || n == 0x1680 ||
    (0x2000 ≤ n && n ≤ 0x200A) || n == 0x2028 || n == 0x2029 || n == 0x202F || n == 0x205F ||
    n == 0x3000

def trimStart (t : Text) : Text := t.dropWhile isBlank

def trimEnd (t : Text) : Text := (t.reverse.dropWhile isBlank).reverse

def trim (t : Text) : Text := trimEnd (trimStart t)

/-- Trimming takes nothing but blanks from either end. -/
theorem trimStart_eq_drop (t : Text) :
    ∃ blanks, t = blanks ++ trimStart t ∧ ∀ c ∈ blanks, isBlank c := by
  refine ⟨t.takeWhile isBlank, by simp [trimStart], fun c member => ?_⟩
  exact (List.all_eq_true.1 List.all_takeWhile) c member

theorem trimEnd_eq_take (t : Text) :
    ∃ blanks, t = trimEnd t ++ blanks ∧ ∀ c ∈ blanks, isBlank c := by
  obtain ⟨blanks, whole, all⟩ := trimStart_eq_drop t.reverse
  refine ⟨blanks.reverse, ?_, fun c member => all c (List.mem_reverse.1 member)⟩
  rw [trimEnd, ← List.reverse_append, ← trimStart, ← whole, List.reverse_reverse]

theorem trim_eq_middle (t : Text) :
    ∃ left right, t = left ++ trim t ++ right ∧ ∀ c ∈ left ++ right, isBlank c := by
  obtain ⟨left, start, leftBlank⟩ := trimStart_eq_drop t
  obtain ⟨right, stop, rightBlank⟩ := trimEnd_eq_take (trimStart t)
  refine ⟨left, right, ?_, List.forall_mem_append.2 ⟨leftBlank, rightBlank⟩⟩
  rw [trim, List.append_assoc, ← stop, ← start]

/-- The end of a text with ink in it is trimmed alone. -/
theorem trimEnd_append (s : Text) {t : Text} (ink : ∃ c ∈ t, !isBlank c) :
    trimEnd (s ++ t) = s ++ trimEnd t := by
  obtain ⟨c, inside, dark⟩ := ink
  have stops : (t.reverse.dropWhile isBlank).isEmpty = false := by
    cases rest : t.reverse.dropWhile isBlank with
    | cons => rfl
    | nil =>
      have cut := List.takeWhile_append_dropWhile (p := isBlank) (l := t.reverse)
      rw [rest, List.append_nil] at cut
      have early : c ∈ t.reverse.takeWhile isBlank := by rw [cut]; simpa using inside
      simp [List.all_eq_true.1 List.all_takeWhile c early] at dark
  simp [trimEnd, List.dropWhile_append, stops]

theorem getLast?_trimEnd (t : Text) : (trimEnd t).getLast?.any isBlank = false := by
  rw [trimEnd, List.getLast?_reverse]
  have stop := List.head?_dropWhile_not isBlank t.reverse
  cases first : (t.reverse.dropWhile isBlank).head? with
  | none => rfl
  | some c => simpa [first] using stop

theorem mem_of_mem_append_blanks {kept blanks : Text} {c : Char} (all : ∀ d ∈ blanks, isBlank d)
    (ink : !isBlank c) (member : c ∈ kept ++ blanks) : c ∈ kept := by
  rcases List.mem_append.1 member with stays | gone
  · exact stays
  · simp [all c gone] at ink

theorem mem_trimEnd {t : Text} {c : Char} (member : c ∈ t) (ink : !isBlank c) :
    c ∈ trimEnd t := by
  obtain ⟨blanks, whole, all⟩ := trimEnd_eq_take t
  rw [whole] at member
  exact mem_of_mem_append_blanks all ink member

theorem mem_of_mem_trimEnd {t : Text} {c : Char} (member : c ∈ trimEnd t) : c ∈ t := by
  obtain ⟨blanks, whole, _⟩ := trimEnd_eq_take t
  rw [whole]
  exact List.mem_append_left _ member

theorem mem_trim {t : Text} {c : Char} (member : c ∈ t) (ink : !isBlank c) : c ∈ trim t := by
  obtain ⟨blanks, whole, all⟩ := trimStart_eq_drop t
  rw [whole, List.mem_append, or_comm, ← List.mem_append] at member
  exact mem_trimEnd (mem_of_mem_append_blanks all ink member) ink

theorem mem_of_mem_trim {t : Text} {c : Char} (member : c ∈ trim t) : c ∈ t :=
  (List.dropWhile_sublist isBlank).subset (mem_of_mem_trimEnd member)

theorem head?_trim (t : Text) : (trim t).head?.any isBlank = false := by
  obtain ⟨back, whole, _⟩ := trimEnd_eq_take (trimStart t)
  have stop := List.head?_dropWhile_not isBlank t
  cases first : (trim t).head? with
  | none => rfl
  | some c =>
    have same : (t.dropWhile isBlank).head? = some c := by
      rw [← trimStart, whole, List.head?_append, ← trim, first, Option.some_or]
    simpa [same] using stop

theorem trim_eq_self_iff {t : Text} :
    trim t = t ↔ t.head?.any isBlank = false ∧ t.getLast?.any isBlank = false := by
  constructor
  · intro same
    exact ⟨same ▸ head?_trim t, same ▸ getLast?_trimEnd (trimStart t)⟩
  · rintro ⟨front, back⟩
    have start : trimStart t = t := by
      cases t with
      | nil => rfl
      | cons c t =>
        have dark : isBlank c = false := by simpa using front
        simp [trimStart, dark]
    rw [trim, start, trimEnd]
    rw [← List.head?_reverse] at back
    cases reversed : t.reverse with
    | nil => simpa using reversed.symm
    | cons c rest =>
      have dark : ¬isBlank c := by simpa [reversed] using back
      rw [List.dropWhile_cons_of_neg dark, ← reversed, List.reverse_reverse]

@[simp] theorem trim_trim (t : Text) : trim (trim t) = trim t :=
  trim_eq_self_iff.2 ⟨head?_trim t, getLast?_trimEnd (trimStart t)⟩

end Scaffold.Text
