import Scaffold.Path.Basic
import Scaffold.Script.Reader

/-! Names that pass the rules can be given to entries, and a name tells whether it is the name of a
file. -/
namespace Scaffold

theorem Text.cutAtLast?_append {mark : Char} (before : Text) {rest : Text} (last : mark ∉ rest) :
    Text.cutAtLast? mark (before ++ mark :: rest) = some (before, mark :: rest) := by
  induction before with
  | nil => simp [Text.cutAtLast?, Text.cutAtLast?_eq_none_iff.2 last]
  | cons c before ih => simp [Text.cutAtLast?, ih]

namespace Extension

theorem symbol_alphanumeric {e : Extension} (listed : e ∈ catalog) :
    e.symbol ≠ [] ∧ ∀ c ∈ e.symbol, c.isAlphanum := by
  have all : (catalog.all fun e => !e.symbol.isEmpty && e.symbol.all Char.isAlphanum) = true := by
    decide +kernel
  simpa using List.all_eq_true.1 all e listed

theorem dot_notMem_symbol {e : Extension} (listed : e ∈ catalog) : '.' ∉ e.symbol :=
  fun dot => by simpa using (symbol_alphanumeric listed).2 '.' dot

theorem getLast?_append_dotted {e : Extension} (listed : e ∈ catalog) (base : Text) :
    ∃ c, (base ++ e.dotted).getLast? = some c ∧ c.isAlphanum := by
  obtain ⟨some_symbol, plain⟩ := symbol_alphanumeric listed
  have some_last : e.symbol.getLast?.isSome := by simpa using some_symbol
  obtain ⟨c, last⟩ := Option.isSome_iff_exists.1 some_last
  refine ⟨c, ?_, plain c (List.mem_of_getLast? last)⟩
  simp [dotted, List.getLast?_append, List.getLast?_cons, last]

theorem lookup?_eq_some {suffix : Text} {e : Extension} (found : lookup? suffix = some e) :
    e ∈ catalog ∧ Text.lower suffix = e.dotted := by
  unfold lookup? at found
  split at found
  next symbol =>
    unfold resolve? at found
    have same := List.find?_some found
    refine ⟨List.mem_of_find?_eq_some found, ?_⟩
    simp only [decide_eq_true_eq] at same
    rw [dotted, same]
    rfl
  next => contradiction

theorem lookup?_dotted {suffix : Text} {e : Extension} (found : lookup? suffix = some e) :
    lookup? e.dotted = some e := by
  obtain ⟨listed, lowered⟩ := lookup?_eq_some found
  unfold lookup? at found
  split at found
  next symbol =>
    have same : Text.lower symbol = e.symbol := (List.cons.inj lowered).2
    simpa [dotted, lookup?, resolve?, lower_symbol listed, same] using found
  next => contradiction

end Extension

namespace Naming

def namesFile (name : Text) : Bool :=
  ((Text.cutAtLast? '.' name).bind fun cut => Extension.lookup? cut.2).isSome

theorem fault?_eq_none_iff {name : Text} :
    fault? name = none ↔ name ≠ [] ∧ (∀ c ∈ name, ¬isForbidden c) ∧
      (∀ c ∈ name.head?.toList ++ name.getLast?.toList, ¬isBoundary c) ∧
      name.length ≤ maxLength := by
  unfold fault?
  split
  next empty => simp [empty]
  next filled =>
    split
    next c forbidden =>
      have member := List.mem_of_find?_eq_some forbidden
      have bad := List.find?_some forbidden
      simp only [reduceCtorEq, false_iff, not_and]
      exact fun _ clean => absurd bad (clean c member)
    next clean =>
      rw [List.find?_eq_none] at clean
      split
      next c boundary =>
        have member := List.mem_of_find?_eq_some boundary
        have bad := List.find?_some boundary
        simp only [reduceCtorEq, false_iff, not_and]
        exact fun _ _ ends => absurd bad (ends c member)
      next ends =>
        rw [List.find?_eq_none] at ends
        split
        next long =>
          simp only [reduceCtorEq, false_iff, not_and]
          intro _ _ _ short
          omega
        next short => exact ⟨fun _ => ⟨filled, clean, ends, by omega⟩, fun _ => rfl⟩

theorem validate_eq_ok_iff {name : Text} : validate name = .ok () ↔ fault? name = none := by
  unfold validate
  split
  next fault found => simp [found]
  next none_left => simp [none_left]

theorem classify_eq_error_iff {name : Text} {fault : Fault} :
    classify name = .error fault ↔ fault? name = some fault := by
  unfold classify
  cases fault? name <;> simp

theorem head?_ne_dot {name : Text} (valid : fault? name = none) : name.head? ≠ some '.' := by
  intro dot
  obtain ⟨_, _, ends, _⟩ := fault?_eq_none_iff.1 valid
  exact ends '.' (by simp [dot]) (by decide)

theorem isName_of_fault?_eq_none {name : Text} (valid : fault? name = none) :
    Path.IsName name := by
  obtain ⟨filled, clean, _, _⟩ := fault?_eq_none_iff.1 valid
  refine ⟨filled, fun slash => clean '/' slash (by decide), ?_, ?_⟩
  · rintro rfl; exact head?_ne_dot valid rfl
  · rintro rfl; exact head?_ne_dot valid rfl

theorem isName_of_validate {name : Text} (valid : validate name = .ok ()) : Path.IsName name :=
  isName_of_fault?_eq_none (validate_eq_ok_iff.1 valid)

/-- A directory keeps its name, and a file is named by what stands before the last dot and a listed
suffix. -/
theorem classify_eq_ok {name : Text} {found : Classified} (classified : classify name = .ok found) :
    fault? name = none ∧
      ((found = .directory name ∧ namesFile name = false) ∨
      ∃ base symbol e, name = base ++ '.' :: symbol ∧ Extension.lookup? ('.' :: symbol) = some e ∧
        found = .file base e.dotted e) := by
  unfold classify at classified
  split at classified
  next => contradiction
  next valid =>
    refine ⟨valid, ?_⟩
    split at classified
    next undotted =>
      cases classified
      exact .inl ⟨rfl, by simp [namesFile, undotted]⟩
    next base suffix cut =>
      split at classified
      next e found =>
        cases classified
        obtain ⟨whole, symbol, dotted, _⟩ := Text.cutAtLast?_eq_some cut
        obtain ⟨_, lowered⟩ := Extension.lookup?_eq_some found
        exact .inr ⟨base, symbol, e, by rw [whole, dotted], by rw [← dotted, found],
          by rw [lowered]⟩
      next unlisted =>
        cases classified
        exact .inl ⟨rfl, by simp [namesFile, cut, unlisted]⟩

theorem plain_of_isAlphanum {c : Char} (plain : c.isAlphanum) :
    ¬isForbidden c ∧ ¬isBoundary c ∧ ¬Text.isBlank c := by
  refine ⟨?_, ?_, ?_⟩
  · intro forbidden
    simp only [isForbidden, decide_eq_true_eq, List.mem_cons, List.not_mem_nil, or_false]
      at forbidden
    rcases forbidden with rfl | rfl | rfl | rfl | rfl | rfl | rfl | rfl | rfl <;> cases plain
  · intro boundary
    simp only [isBoundary, decide_eq_true_eq, List.mem_cons, List.not_mem_nil, or_false]
      at boundary
    rcases boundary with rfl | rfl | rfl | rfl <;> cases plain
  · have code : c.toNat = c.val.toNat := rfl
    have spelled : (decide ('A'.val ≤ c.val ∧ c.val ≤ 'Z'.val) ||
        decide ('a'.val ≤ c.val) && decide (c.val ≤ 'z'.val) ||
        decide ('0'.val ≤ c.val) && decide (c.val ≤ '9'.val)) = true := plain
    have inside : 0x20 < c.toNat ∧ c.toNat < 0x85 := by
      simp only [Bool.or_eq_true, Bool.and_eq_true, decide_eq_true_eq,
        UInt32.le_iff_toNat_le] at spelled
      simp at spelled
      omega
    simp [Text.isBlank]
    omega

section

variable {base symbol : Text} {e : Extension} (valid : fault? (base ++ '.' :: symbol) = none)
  (found : Extension.lookup? ('.' :: symbol) = some e)

include valid in
theorem base_ne_nil : base ≠ [] := by
  rintro rfl
  exact head?_ne_dot valid rfl

include valid found in
theorem fault?_fileName : fault? (base ++ e.dotted) = none := by
  obtain ⟨_, clean, ends, short⟩ := fault?_eq_none_iff.1 valid
  obtain ⟨listed, lowered⟩ := Extension.lookup?_eq_some found
  have plain := (Extension.symbol_alphanumeric listed).2
  have length : e.symbol.length = symbol.length := by
    rw [← (List.cons.inj lowered).2]
    exact Text.length_lower symbol
  obtain ⟨c, rest, rfl⟩ := List.exists_cons_of_ne_nil (base_ne_nil valid)
  refine fault?_eq_none_iff.2 ⟨by simp, ?_, ?_, ?_⟩
  · intro d member
    rcases List.mem_append.1 member with front | suffix
    · exact clean d (List.mem_append_left _ front)
    · rcases List.mem_cons.1 suffix with rfl | inside
      · decide
      · exact (plain_of_isAlphanum (plain d inside)).1
  · intro d member
    rcases List.mem_append.1 member with first | last
    · exact ends d (List.mem_append_left _ first)
    · obtain ⟨z, atEnd, alphanumeric⟩ := Extension.getLast?_append_dotted listed (c :: rest)
      rw [atEnd] at last
      obtain rfl : d = z := by simpa using last
      exact (plain_of_isAlphanum alphanumeric).2.1
  · simpa [Extension.dotted, length] using short

include found in
theorem cutAtLast?_fileName : Text.cutAtLast? '.' (base ++ e.dotted) = some (base, e.dotted) :=
  Text.cutAtLast?_append base (Extension.dot_notMem_symbol (Extension.lookup?_eq_some found).1)

end

theorem classify_fullName {name : Text} {found : Classified}
    (classified : classify name = .ok found) : classify found.fullName = .ok found := by
  obtain ⟨valid, ⟨rfl, _⟩ | ⟨base, symbol, e, rfl, listed, rfl⟩⟩ := classify_eq_ok classified
  · exact classified
  · have lowered : Text.lower e.dotted = e.dotted :=
      congrArg ('.' :: ·) (Extension.lower_symbol (Extension.lookup?_eq_some listed).1)
    simp only [Classified.fullName, classify, fault?_fileName valid listed,
      cutAtLast?_fileName listed, Extension.lookup?_dotted listed, lowered]

/-- The name of an entry has no more blanks at its ends than the name it was found by. -/
theorem trim_fullName {name : Text} {found : Classified} (classified : classify name = .ok found)
    (trimmed : Text.trim name = name) : Text.trim found.fullName = found.fullName := by
  obtain ⟨valid, ⟨rfl, _⟩ | ⟨base, symbol, e, rfl, listed, rfl⟩⟩ := classify_eq_ok classified
  · exact trimmed
  · obtain ⟨front, _⟩ := Text.trim_eq_self_iff.1 trimmed
    obtain ⟨c, rest, rfl⟩ := List.exists_cons_of_ne_nil (base_ne_nil valid)
    obtain ⟨z, atEnd, alphanumeric⟩ :=
      Extension.getLast?_append_dotted (Extension.lookup?_eq_some listed).1 (c :: rest)
    refine Text.trim_eq_self_iff.2 ⟨front, ?_⟩
    rw [Classified.fullName, atEnd]
    simpa using (plain_of_isAlphanum alphanumeric).2.2

end Naming

theorem Script.readName_valid {name : Text} {argument : Argument}
    (read : readName name = .ok argument) : Naming.fault? name = none := by
  unfold readName at read
  split at read
  next => contradiction
  next classified => exact (Naming.classify_eq_ok classified).1
  next classified => exact (Naming.classify_eq_ok classified).1

theorem Script.readName_directory {name : Text} {argument : Argument}
    (read : readName name = .ok argument) (kind : argument.isFile = false) :
    argument = .directory name := by
  unfold readName at read
  split at read
  next => contradiction
  next base classified =>
    cases read
    obtain ⟨_, ⟨same, _⟩ | ⟨_, _, _, _, _, same⟩⟩ := Naming.classify_eq_ok classified
    · cases same; rfl
    · cases same
  next => cases read; cases kind

/-- A name that is read gives a directory or a file, and the name itself tells which. -/
theorem Script.readName_eq_ok {name : Text} {argument : Argument}
    (read : readName name = .ok argument) :
    argument.isText = false ∧ Path.IsName argument.value ∧
      Naming.namesFile argument.value = argument.isFile := by
  unfold readName at read
  split at read
  next => contradiction
  next base classified =>
    cases read
    obtain ⟨valid, ⟨same, plain⟩ | ⟨_, _, _, _, _, same⟩⟩ := Naming.classify_eq_ok classified
    · cases same
      exact ⟨rfl, Naming.isName_of_fault?_eq_none valid, plain⟩
    · cases same
  next base suffix _ classified =>
    cases read
    obtain ⟨valid, ⟨same, _⟩ | ⟨_, _, e, rfl, listed, same⟩⟩ := Naming.classify_eq_ok classified
    · cases same
    · cases same
      refine ⟨rfl, Naming.isName_of_fault?_eq_none (Naming.fault?_fileName valid listed), ?_⟩
      simp [Naming.namesFile, Argument.value, Naming.cutAtLast?_fileName listed,
        Extension.lookup?_dotted listed, Argument.isFile]

end Scaffold
