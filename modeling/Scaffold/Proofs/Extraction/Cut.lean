import Scaffold.Proofs.Extraction

/-! Where a text may be cut for its anchor. A drive in front of it is the root of what is looked
for. Behind the drive each separator in front of the first operator or quote ends a row of names,
and the names lead from the root to the directory of the cut. -/
namespace Scaffold.Anchor

def IsDriveLetter (c : Char) : Prop := 'A' ≤ c ∧ c ≤ 'Z' ∨ 'a' ≤ c ∧ c ≤ 'z'

instance (c : Char) : Decidable (IsDriveLetter c) := inferInstanceAs (Decidable (_ ∨ _))

/-- How a text starts: with a drive, behind which the names of the `body` are read from the root of
the drive, or with no drive, and then the names of the whole text are read from `base`. -/
inductive Starts (base : Path) : Text → Text → Text → Path → Prop
  | drive {letter : Char} (body : Text) (ascii : IsDriveLetter letter) :
      Starts base (letter :: ':' :: body) [letter, ':'] body ⟨[letter, ':', '/']⟩
  | bare {t : Text} (plain : ∀ letter body, t = letter :: ':' :: body → ¬IsDriveLetter letter) :
      Starts base t [] t base

/-- A separator follows `cut`, in front of the first operator or quote. -/
structure IsCut (slash : Slash) (body cut : Text) : Prop where
  clean : ∀ c ∈ cut, c ≠ '>' ∧ c ≠ ':' ∧ c ≠ '"'
  split : ∃ rest, body = cut ++ slash.separator :: rest

variable {slash : Slash} {base home : Path} {t drive body cut : Text}

theorem isAlpha_iff {c : Char} : c.isAlpha ↔ IsDriveLetter c := by
  change (decide ('A' ≤ c ∧ c ≤ 'Z') || (decide ('a' ≤ c) && decide (c ≤ 'z'))) = true ↔ _
  rw [Bool.or_eq_true, Bool.and_eq_true]
  simp only [decide_eq_true_eq]
  exact Iff.rfl

theorem starts_iff : Starts base t drive body home ↔
    Grammar.splitDrive t = (drive, body) ∧ home = rootOf base drive := by
  constructor
  · rintro (⟨body, ascii⟩ | ⟨plain⟩)
    · exact ⟨by rw [Grammar.splitDrive, if_pos (isAlpha_iff.2 ascii)], rfl⟩
    · rcases Grammar.splitDrive_cases t with ⟨letter, rest, alpha, whole, -⟩ | split
      · exact absurd (isAlpha_iff.1 alpha) (plain letter rest whole)
      · exact ⟨split, rfl⟩
  · rintro ⟨split, rfl⟩
    unfold Grammar.splitDrive at split
    split at split
    next letter rest =>
      split at split
      next alpha =>
        cases split
        exact .drive _ (isAlpha_iff.1 alpha)
      next other =>
        cases split
        refine .bare ?_
        rintro _ _ ⟨⟩ ascii
        exact other (isAlpha_iff.2 ascii)
    next other =>
      cases split
      exact .bare fun letter rest whole => absurd whole (other letter rest)

theorem mem_cutsBefore_takeWhile {p : Char → Bool} {mark : Char} (kept : p mark) :
    cut ∈ cutsBefore mark (t.takeWhile p) ↔
      ∃ rest, t = cut ++ mark :: rest ∧ ∀ c ∈ cut, p c := by
  constructor
  · intro member
    obtain ⟨inner, taken⟩ := cutsBefore_origin member
    refine ⟨inner ++ t.dropWhile p, ?_, fun c inside => ?_⟩
    · rw [← List.cons_append, ← List.append_assoc, ← taken, List.takeWhile_append_dropWhile]
    · have early : c ∈ t.takeWhile p := by
        rw [taken]
        exact List.mem_append_left _ inside
      exact List.all_eq_true.1 List.all_takeWhile c early
  · rintro ⟨rest, rfl, clean⟩
    rw [List.takeWhile_append_of_pos clean, List.takeWhile_cons_of_pos kept]
    exact cutsBefore_complete _ _ _

theorem isCut_iff : IsCut slash body cut ↔ cut ∈ cutsBefore slash.separator (front body) := by
  rw [front, mem_cutsBefore_takeWhile (by cases slash <;> decide)]
  simp only [Bool.not_eq_true', Bool.or_eq_false_iff, decide_eq_false_iff_not, and_assoc]
  exact ⟨fun ⟨clean, rest, split⟩ => ⟨rest, split, clean⟩,
    fun ⟨rest, split, clean⟩ => ⟨clean, rest, split⟩⟩

end Scaffold.Anchor
