import Scaffold.Proofs.Extraction.Refusal
import Scaffold.Proofs.Slash

/-! The search for an anchor, in any text. Each separator in front of the first operator or quote
cuts the text, and the anchor lies at the last cut whose directory is there. Cutting loses nothing:
the text goes on where the anchor ends, and the path of the anchor is its root with plain names
behind it. -/
namespace Scaffold

namespace Anchor

variable {slash : Slash} {base home : Path} {probe : Path → Bool} {t drive body cut : Text}
  {a : Anchor}

theorem cutsBefore_sorted (mark : Char) (t : Text) :
    (cutsBefore mark t).Pairwise fun short long => short.length < long.length := by
  induction t with
  | nil => exact List.Pairwise.nil
  | cons c t ih =>
    have shifted : ((cutsBefore mark t).map (c :: ·)).Pairwise
        fun short long => short.length < long.length :=
      List.pairwise_map.2 (ih.imp fun shorter => Nat.succ_lt_succ shorter)
    rw [cutsBefore]
    split
    · refine List.pairwise_cons.2 ⟨fun long member => ?_, shifted⟩
      obtain ⟨inner, _, rfl⟩ := List.mem_map.1 member
      exact Nat.succ_pos _
    · exact shifted

/-- The anchor lies at `cut`, and no longer cut names a directory that is there. -/
structure IsLongest (slash : Slash) (probe : Path → Bool) (drive body : Text) (home : Path)
    (cut : Text) (a : Anchor) : Prop where
  isCut : IsCut slash body cut
  passes : probe a.path
  last : ∀ longer, IsCut slash body longer → cut.length < longer.length →
    probe (home.joinAll (namesOf slash longer)) = false
  root : a.root = home
  path : a.path = home.joinAll (namesOf slash cut)
  text : a.text = drive ++ cut
  tail : a.tail = body.drop cut.length

theorem checkSeparators_eq_ok_iff :
    checkSeparators slash t = .ok () ↔ ∀ before, ¬slash.IsBare t before := by
  rw [← Slash.findForeign?_eq_none_iff, checkSeparators]
  cases slash.findForeign? t <;> simp

/-- The search finds the anchor of the longest cut. -/
theorem find_eq_ok_iff (starts : Starts base t drive body home) : find slash base probe t = .ok a ↔
    (∀ before, ¬slash.IsBare t before) ∧ ∃ cut, IsLongest slash probe drive body home cut a := by
  obtain ⟨split, rfl⟩ := starts_iff.1 starts
  simp only [find, bind_eq_ok_iff, ← checkSeparators_eq_ok_iff, split]
  constructor
  · rintro ⟨_, clean, chosen⟩
    refine ⟨clean, ?_⟩
    split at chosen
    · cases chosen
    · split at chosen
      next cut found =>
        cases chosen
        obtain ⟨member, passes, last⟩ := (find?_last List.length (cutsBefore_sorted _ _)).1 found
        exact ⟨cut, isCut_iff.2 member, passes, fun longer isCut => last longer (isCut_iff.1 isCut),
          rfl, rfl, rfl, rfl⟩
      next => cases chosen
  · rintro ⟨clean, cut, longest⟩
    have member := isCut_iff.1 longest.isCut
    have there : probe ((rootOf base drive).joinAll (namesOf slash cut)) :=
      longest.path ▸ longest.passes
    have found := (find?_last (q := fun cut => probe (directoryOf slash (rootOf base drive) cut))
      List.length (cutsBefore_sorted _ _)).2 ⟨member, there,
        fun longer inside => longest.last longer (isCut_iff.2 inside)⟩
    refine ⟨(), clean, ?_⟩
    rw [if_neg (List.ne_nil_of_mem member), found]
    obtain ⟨root, path, text, tail⟩ := a
    obtain ⟨_, _, _, rfl, rfl, rfl, rfl⟩ := longest
    rfl

/-- Of the cuts that name a directory one is the longest. -/
theorem exists_isLongest (isCut : IsCut slash body cut)
    (passes : probe (home.joinAll (namesOf slash cut))) (drive : Text) :
    ∃ longest a, IsLongest slash probe drive body home longest a := by
  cases found : (cutsBefore slash.separator (front body)).reverse.find?
      fun cut => probe (home.joinAll (namesOf slash cut)) with
  | none =>
    rw [List.find?_eq_none] at found
    exact absurd passes (found cut (List.mem_reverse.2 (isCut_iff.1 isCut)))
  | some longest =>
    obtain ⟨member, passes, last⟩ := (find?_last List.length (cutsBefore_sorted _ _)).1 found
    exact ⟨longest, ⟨_, _, _, _⟩, isCut_iff.2 member, passes,
      fun longer isCut => last longer (isCut_iff.1 isCut), rfl, rfl, rfl, rfl⟩

theorem Starts.append (starts : Starts base t drive body home) : drive ++ body = t := by
  cases starts <;> rfl

theorem Starts.quote_notMem (starts : Starts base t drive body home) : '"' ∉ drive := by
  cases starts with
  | bare => exact List.not_mem_nil
  | drive body ascii =>
    simp only [List.mem_cons, List.not_mem_nil, or_false, not_or]
    refine ⟨?_, by decide⟩
    rintro rfl
    exact absurd ascii (by decide)

namespace IsLongest

section

variable (longest : IsLongest slash probe drive body home cut a)

include longest

theorem text_append_tail : a.text ++ a.tail = drive ++ body := by
  obtain ⟨rest, split⟩ := longest.isCut.split
  rw [longest.text, longest.tail, split, List.drop_left, List.append_assoc]

theorem head?_tail : a.tail.head? = some slash.separator := by
  obtain ⟨rest, split⟩ := longest.isCut.split
  rw [longest.tail, split, List.drop_left, List.head?_cons]

theorem path_eq_joinAll : a.path = a.root.joinAll (namesOf slash cut) := by
  rw [longest.path, longest.root]

end

end IsLongest

theorem exists_starts (base : Path) (t : Text) : ∃ drive body home, Starts base t drive body home :=
  ⟨_, _, _, starts_iff.2 ⟨rfl, rfl⟩⟩

theorem text_append_tail_of_find (found : find slash base probe t = .ok a) :
    a.text ++ a.tail = t ∧ a.tail.head? = some slash.separator := by
  obtain ⟨drive, body, home, starts⟩ := exists_starts base t
  obtain ⟨_, cut, longest⟩ := (find_eq_ok_iff starts).1 found
  exact ⟨longest.text_append_tail.trans starts.append, longest.head?_tail⟩

/-- A text without bare foreign slashes has none in front of its first quote. -/
theorem IsCut.foreign_notMem (starts : Starts base t drive body home) (isCut : IsCut slash body cut)
    (clean : ∀ before, ¬slash.IsBare t before) : slash.foreign ∉ cut := by
  intro member
  obtain ⟨before, after, rfl⟩ := List.append_of_mem member
  obtain ⟨rest, split⟩ := isCut.split
  have front : '"' ∉ before :=
    fun quote => (isCut.clean '"' (List.mem_append_left _ quote)).2.2 rfl
  refine clean (drive ++ before) ⟨?_, after ++ slash.separator :: rest, ?_⟩
  · rw [List.count_eq_zero.2 (by simp [starts.quote_notMem, front])]
    exact Even.zero
  · rw [← starts.append, split]
    simp

/-- The names of a cut are plain: none is a path that would replace the one it is joined to. -/
theorem IsCut.plain_names (starts : Starts base t drive body home) (isCut : IsCut slash body cut)
    (clean : ∀ before, ¬slash.IsBare t before) {n : Text} (member : n ∈ namesOf slash cut) :
    n ≠ [] ∧ '/' ∉ n ∧ '\\' ∉ n := by
  obtain ⟨piece, filled⟩ := List.mem_filter.1 member
  obtain ⟨s, inside, rfl⟩ := List.mem_map.1 piece
  have kept {c : Char} (here : c ∈ Text.trim s) : c ≠ slash.separator ∧ c ≠ slash.foreign := by
    obtain ⟨apart, early⟩ := Text.mem_of_mem_splitOn inside (Text.mem_of_mem_trim here)
    exact ⟨apart, fun same => isCut.foreign_notMem starts clean (same ▸ early)⟩
  refine ⟨by simpa using filled, fun here => ?_, fun here => ?_⟩
  · cases slash
    · exact (kept here).2 rfl
    · exact (kept here).1 rfl
  · cases slash
    · exact (kept here).1 rfl
    · exact (kept here).2 rfl

/-- Seen from its root, an anchor lies below the names that lead to it. -/
theorem components_innerPath {names : List Text} (path : a.path = a.root.joinAll names)
    (plain : ∀ n ∈ names, '/' ∉ n) :
    a.path.stripPrefix? a.root ≠ none ∧ a.innerPath.sameAs (Path.joinAll ⟨['/']⟩ names) := by
  obtain ⟨rest, stripped, relative, steps⟩ := a.root.exists_stripPrefix?_joinAll plain
  rw [← path] at stripped
  have filled : Path.text ⟨['/']⟩ ≠ [] := List.cons_ne_nil _ _
  refine ⟨by rw [stripped]; exact Option.some_ne_none rest, ?_⟩
  rw [innerPath, stripped, Path.sameAs, decide_eq_true_eq,
    Path.components_join_of_ne_nil filled relative, steps,
    Path.components_joinAll_of_ne_nil filled plain]

/-- The names of a text are read from its drive, or from the base. The search succeeds when no
foreign slash is bare and some cut names a directory that is there, and takes the last such cut. The
text goes on with a separator where the anchor ends, the path of the anchor is its root with the
names of the cut behind it, none of which replaces the root, and the anchor has the same names below
the slash when seen from the root. -/
theorem find_longest (slash : Slash) (base : Path) (probe : Path → Bool) (t : Text) :
    ∃ drive body home, Starts base t drive body home ∧
      ((∃ a, find slash base probe t = .ok a) ↔
        (∀ before, ¬slash.IsBare t before) ∧
          ∃ cut, IsCut slash body cut ∧ probe (home.joinAll (namesOf slash cut))) ∧
      ∀ a, find slash base probe t = .ok a →
        a.text ++ a.tail = t ∧ a.tail.head? = some slash.separator ∧
        ∃ cut, IsLongest slash probe drive body home cut a ∧
          a.path = a.root.joinAll (namesOf slash cut) ∧
          (∀ n ∈ namesOf slash cut, n ≠ [] ∧ '/' ∉ n ∧ '\\' ∉ n) ∧
          a.path.stripPrefix? a.root ≠ none ∧
          a.innerPath.sameAs (Path.joinAll ⟨['/']⟩ (namesOf slash cut)) := by
  obtain ⟨drive, body, home, starts⟩ := exists_starts base t
  refine ⟨drive, body, home, starts, ?_, fun a found => ?_⟩
  · simp only [find_eq_ok_iff starts]
    constructor
    · rintro ⟨a, clean, cut, longest⟩
      exact ⟨clean, cut, longest.isCut, longest.path ▸ longest.passes⟩
    · rintro ⟨clean, cut, isCut, passes⟩
      obtain ⟨longest, a, isLongest⟩ := exists_isLongest isCut passes drive
      exact ⟨a, clean, longest, isLongest⟩
  · obtain ⟨clean, cut, longest⟩ := (find_eq_ok_iff starts).1 found
    have plain : ∀ n ∈ namesOf slash cut, n ≠ [] ∧ '/' ∉ n ∧ '\\' ∉ n :=
      fun n member => longest.isCut.plain_names starts clean member
    obtain ⟨whole, led⟩ := text_append_tail_of_find found
    exact ⟨whole, led, cut, longest, longest.path_eq_joinAll, plain,
      components_innerPath longest.path_eq_joinAll fun n member => (plain n member).2.1⟩

end Anchor

end Scaffold
