import Mathlib.Data.List.Nodup
import Scaffold.Proofs.Naming

/-! Classifying a name, told without the order of its tests. A name is refused for the first rule
that it breaks. One that breaks none is the name of a file when a symbol of the catalog stands
behind its last dot, and the name that the entry is given is found to be the same entry. -/
namespace Scaffold

theorem Text.toLower_isAlphanum {c : Char} (plain : c.toLower.isAlphanum) : c.isAlphanum := by
  unfold Char.toLower at plain
  split at plain
  next upper =>
    have capital : c.isUpper := decide_eq_true upper
    change ((c.isUpper || c.isLower) || c.isDigit) = true
    rw [capital, Bool.true_or, Bool.true_or]
  next => exact plain

namespace Extension

/-- Whether no number of a list comes twice or is the place of a bit of `seen`. -/
def allNew (seen : Nat) : List Nat → Bool
  | [] => true
  | n :: numbers => !seen.testBit n && allNew (seen ||| 1 <<< n) numbers

theorem nodup_of_allNew {seen : Nat} {numbers : List Nat} (new : allNew seen numbers) :
    numbers.Nodup ∧ ∀ n ∈ numbers, seen.testBit n = false := by
  induction numbers generalizing seen with
  | nil => simp
  | cons n numbers ih =>
    simp only [allNew, Bool.and_eq_true, Bool.not_eq_true'] at new
    obtain ⟨here, later⟩ := new
    obtain ⟨nodup, unseen⟩ := ih later
    simp only [Nat.testBit_or, Bool.or_eq_false_iff] at unseen
    have apart : n ∉ numbers := fun member => by simpa using (unseen n member).2
    exact ⟨List.nodup_cons.2 ⟨apart, nodup⟩,
      List.forall_mem_cons.2 ⟨here, fun m member => (unseen m member).1⟩⟩

/-- The characters of a symbol as the digits of one number, in a range that keeps the listed symbols
apart. -/
def symbolCode (symbol : Text) : Nat := symbol.foldl (fun n c => n * 256 + c.toNat) 0 % 2034

theorem symbol_injective {e other : Extension} (listed : e ∈ catalog)
    (otherListed : other ∈ catalog) (same : e.symbol = other.symbol) : e = other := by
  -- Marking the codes takes one pass, where the kernel is slow to compare all pairs of symbols.
  have new : allNew 0 (catalog.map (symbolCode ·.symbol)) := by decide +kernel
  exact List.inj_on_of_nodup_map (nodup_of_allNew new).1 listed otherListed
    (congrArg symbolCode same)

theorem resolve?_eq_some_iff {symbol : Text} {e : Extension} :
    resolve? symbol = some e ↔ e ∈ catalog ∧ Text.lower symbol = e.symbol := by
  have sound {other : Extension} (found : resolve? symbol = some other) :
      other ∈ catalog ∧ Text.lower symbol = other.symbol := by
    unfold resolve? at found
    have same := List.find?_some found
    simp only [decide_eq_true_eq] at same
    exact ⟨List.mem_of_find?_eq_some found, same.symm⟩
  constructor
  · exact sound
  · rintro ⟨listed, same⟩
    cases found : resolve? symbol with
    | none =>
      have missing := List.find?_eq_none.1 found e listed
      simp [same] at missing
    | some other =>
      obtain ⟨otherListed, otherSame⟩ := sound found
      rw [symbol_injective otherListed listed (otherSame.symm.trans same)]

end Extension

namespace Naming

/-- A slash, a colon, a wildcard, a quote or one of the signs of a shell. -/
inductive Barred : Char → Prop
  | backslash : Barred '\\'
  | slash : Barred '/'
  | colon : Barred ':'
  | star : Barred '*'
  | question : Barred '?'
  | quote : Barred '"'
  | less : Barred '<'
  | greater : Barred '>'
  | pipe : Barred '|'

/-- A blank or one of the signs that join words stands between others only. -/
inductive Inner : Char → Prop
  | blank : Inner ' '
  | dot : Inner '.'
  | hyphen : Inner '-'
  | underscore : Inner '_'

/-- The rules that a name may break. Each is told with the rules that are looked at before it. -/
inductive Breaks (name : Text) : Fault → Prop
  | empty (nothing : name = []) : Breaks name .empty
  | forbidden {before after : Text} {c : Char} (whole : name = before ++ c :: after)
      (bad : Barred c) (first : ∀ d ∈ before, ¬Barred d) : Breaks name (.forbidden c)
  | front {rest : Text} {c : Char} (whole : name = c :: rest) (clean : ∀ d ∈ name, ¬Barred d)
      (bad : Inner c) : Breaks name (.boundary c)
  | back {before : Text} {c : Char} (whole : name = before ++ [c])
      (clean : ∀ d ∈ name, ¬Barred d) (start : ∀ d ∈ name.head?, ¬Inner d)
      (bad : Inner c) : Breaks name (.boundary c)
  | tooLong (filled : name ≠ []) (clean : ∀ d ∈ name, ¬Barred d)
      (ends : ∀ d ∈ name.head?.toList ++ name.getLast?.toList, ¬Inner d)
      (long : 30 < name.length) : Breaks name (.tooLong name.length)

theorem isForbidden_iff {c : Char} : isForbidden c ↔ Barred c := by
  simp only [isForbidden, decide_eq_true_eq, List.mem_cons, List.not_mem_nil, or_false]
  constructor
  · rintro (rfl | rfl | rfl | rfl | rfl | rfl | rfl | rfl | rfl) <;> constructor
  · rintro ⟨⟩ <;> decide

theorem isBoundary_iff {c : Char} : isBoundary c ↔ Inner c := by
  simp only [isBoundary, decide_eq_true_eq, List.mem_cons, List.not_mem_nil, or_false]
  constructor
  · rintro (rfl | rfl | rfl | rfl) <;> constructor
  · rintro ⟨⟩ <;> decide

section

variable {name : Text} {fault : Fault}

theorem find?_eq_none_iff {t : Text} {p : Char → Bool} {bad : Char → Prop}
    (told : ∀ {c}, p c ↔ bad c) : t.find? p = none ↔ ∀ d ∈ t, ¬bad d := by
  simp only [List.find?_eq_none, told]

theorem breaks_of_fault? (found : fault? name = some fault) : Breaks name fault := by
  unfold fault? at found
  split at found
  next nothing =>
    cases found
    exact .empty nothing
  next filled =>
    split at found
    next c first =>
      cases found
      obtain ⟨bad, before, after, whole, early⟩ := List.find?_eq_some_iff_append.1 first
      have clean : before.find? isForbidden = none := by simpa using early
      exact .forbidden whole (isForbidden_iff.1 bad) ((find?_eq_none_iff isForbidden_iff).1 clean)
    next none_forbidden =>
      have clean := (find?_eq_none_iff isForbidden_iff).1 none_forbidden
      split at found
      next c first =>
        cases found
        have bad := isBoundary_iff.1 (List.find?_some first)
        rw [List.find?_append, Option.or_eq_some_iff] at first
        rcases first with atFront | ⟨goodFront, atBack⟩
        · have led := List.mem_of_find?_eq_some atFront
          obtain ⟨rest, whole⟩ := List.head?_eq_some_iff.1 (by simpa using led)
          exact .front whole clean bad
        · have last := List.mem_of_find?_eq_some atBack
          obtain ⟨before, whole⟩ := List.getLast?_eq_some_iff.1 (by simpa using last)
          have start := (find?_eq_none_iff isBoundary_iff).1 goodFront
          exact .back whole clean (by simpa using start) bad
      next none_boundary =>
        split at found
        next long =>
          cases found
          exact .tooLong filled clean ((find?_eq_none_iff isBoundary_iff).1 none_boundary) long
        next => cases found

theorem fault?_of_breaks (broken : Breaks name fault) : fault? name = some fault := by
  cases broken with
  | empty nothing => rw [fault?, if_pos nothing]
  | forbidden whole bad first =>
    have early := (find?_eq_none_iff isForbidden_iff).2 first
    have found : name.find? isForbidden = some _ :=
      List.find?_eq_some_iff_append.2 ⟨isForbidden_iff.2 bad, _, _, whole, by simpa using early⟩
    rw [fault?, if_neg (by simp [whole]), found]
  | front whole clean bad =>
    rw [fault?, if_neg (by simp [whole]), (find?_eq_none_iff isForbidden_iff).2 clean]
    simp [whole, isBoundary_iff.2 bad]
  | back whole clean start bad =>
    have front : name.head?.toList.find? isBoundary = none :=
      (find?_eq_none_iff isBoundary_iff).2 (by simpa using start)
    rw [fault?, if_neg (by simp [whole]), (find?_eq_none_iff isForbidden_iff).2 clean]
    dsimp only
    rw [List.find?_append, front]
    simp [whole, isBoundary_iff.2 bad]
  | tooLong filled clean ends long =>
    rw [fault?, if_neg filled, (find?_eq_none_iff isForbidden_iff).2 clean]
    dsimp only
    rw [(find?_eq_none_iff isBoundary_iff).2 ends]
    exact if_pos long

theorem fault?_eq_some_iff : fault? name = some fault ↔ Breaks name fault :=
  ⟨breaks_of_fault?, fault?_of_breaks⟩

theorem fault?_eq_none_of_keeps (keeps : ∀ fault, ¬Breaks name fault) : fault? name = none := by
  cases found : fault? name with
  | none => rfl
  | some fault => exact absurd (breaks_of_fault? found) (keeps fault)

theorem validate_eq_error_iff : validate name = .error fault ↔ fault? name = some fault := by
  unfold validate
  cases fault? name <;> simp

end

/-- Behind the last dot of `name` stands the symbol of `e`, up to the case of ASCII letters. -/
structure HasExtension (name base symbol : Text) (e : Extension) : Prop where
  whole : name = base ++ '.' :: symbol
  last : '.' ∉ symbol
  listed : e ∈ Extension.catalog
  same : Text.lower symbol = Text.lower e.symbol

section

variable {name base symbol : Text} {e : Extension}

theorem hasExtension_iff : HasExtension name base symbol e ↔
    Text.cutAtLast? '.' name = some (base, '.' :: symbol) ∧
      Extension.lookup? ('.' :: symbol) = some e := by
  have listed : Extension.lookup? ('.' :: symbol) = Extension.resolve? symbol := rfl
  rw [listed, Extension.resolve?_eq_some_iff]
  constructor
  · rintro ⟨rfl, last, listed, same⟩
    exact ⟨Text.cutAtLast?_append base last, listed, same.trans (Extension.lower_symbol listed)⟩
  · rintro ⟨cut, listed, same⟩
    obtain ⟨whole, rest, dotted, last⟩ := Text.cutAtLast?_eq_some cut
    cases dotted
    exact ⟨whole, last, listed, same.trans (Extension.lower_symbol listed).symm⟩

/-- A listed suffix is written in ASCII letters and digits, so that lowering it in any way that is
right for ASCII comes to the same. -/
theorem HasExtension.isAlphanum (suffixed : HasExtension name base symbol e) {c : Char}
    (member : c ∈ symbol) : c.isAlphanum := by
  have lowered : c.toLower ∈ e.symbol := by
    rw [← Extension.lower_symbol suffixed.listed, ← suffixed.same]
    exact List.mem_map_of_mem member
  exact Text.toLower_isAlphanum ((Extension.symbol_alphanumeric suffixed.listed).2 _ lowered)

theorem HasExtension.unique {otherBase otherSymbol : Text} {other : Extension}
    (suffixed : HasExtension name base symbol e)
    (again : HasExtension name otherBase otherSymbol other) :
    otherBase = base ∧ otherSymbol = symbol ∧ other = e := by
  obtain ⟨cut, found⟩ := hasExtension_iff.1 suffixed
  obtain ⟨otherCut, otherFound⟩ := hasExtension_iff.1 again
  rw [cut] at otherCut
  cases otherCut
  rw [found] at otherFound
  cases otherFound
  exact ⟨rfl, rfl, rfl⟩

/-- A name that breaks no rule is that of a file when it has a listed suffix, and that of a
directory when it has none. -/
theorem classify_cases (valid : fault? name = none) :
    (∃ base symbol e, HasExtension name base symbol e ∧
      classify name = .ok (.file base e.dotted e)) ∨
    (∀ base symbol e, ¬HasExtension name base symbol e) ∧
      classify name = .ok (.directory name) := by
  cases cut : Text.cutAtLast? '.' name with
  | none =>
    refine .inr ⟨fun base symbol e suffixed => ?_, by simp [classify, valid, cut]⟩
    have dotted := (hasExtension_iff.1 suffixed).1
    rw [cut] at dotted
    cases dotted
  | some parts =>
    obtain ⟨base, suffix⟩ := parts
    obtain ⟨-, symbol, rfl, -⟩ := Text.cutAtLast?_eq_some cut
    cases listed : Extension.lookup? ('.' :: symbol) with
    | some e =>
      have lowered := (Extension.lookup?_eq_some listed).2
      exact .inl ⟨base, symbol, e, hasExtension_iff.2 ⟨cut, listed⟩,
        by simp [classify, valid, cut, listed, lowered]⟩
    | none =>
      refine .inr ⟨fun otherBase otherSymbol e suffixed => ?_,
        by simp [classify, valid, cut, listed]⟩
      obtain ⟨otherCut, found⟩ := hasExtension_iff.1 suffixed
      rw [cut] at otherCut
      cases otherCut
      rw [listed] at found
      cases found

theorem classify_eq_file_iff (valid : fault? name = none) {suffix : Text} :
    classify name = .ok (.file base suffix e) ↔
      suffix = e.dotted ∧ ∃ symbol, HasExtension name base symbol e := by
  rcases classify_cases valid with ⟨b, s, f, suffixed, found⟩ | ⟨plain, found⟩
  · rw [found]
    constructor
    · rintro ⟨⟩
      exact ⟨rfl, s, suffixed⟩
    · rintro ⟨rfl, symbol, again⟩
      obtain ⟨rfl, -, rfl⟩ := suffixed.unique again
      rfl
  · rw [found]
    constructor
    · rintro ⟨⟩
    · rintro ⟨-, symbol, suffixed⟩
      exact absurd suffixed (plain base symbol e)

theorem classify_eq_directory_iff (valid : fault? name = none) {kept : Text} :
    classify name = .ok (.directory kept) ↔
      kept = name ∧ ∀ base symbol e, ¬HasExtension name base symbol e := by
  rcases classify_cases valid with ⟨b, s, f, suffixed, found⟩ | ⟨plain, found⟩
  · rw [found]
    constructor
    · rintro ⟨⟩
    · rintro ⟨-, plain⟩
      exact absurd suffixed (plain b s f)
  · rw [found]
    constructor
    · rintro ⟨⟩
      exact ⟨rfl, plain⟩
    · rintro ⟨rfl, -⟩
      rfl

theorem categoryOf_eq_ok_iff {category : Category} :
    Extension.categoryOf name = .ok category ↔
      ∃ base symbol e, HasExtension name base symbol e ∧ e.category = category := by
  simp only [hasExtension_iff, Extension.categoryOf]
  constructor
  · intro found
    split at found
    next => cases found
    next base suffix cut =>
      obtain ⟨-, symbol, rfl, -⟩ := Text.cutAtLast?_eq_some cut
      split at found
      next e listed =>
        cases found
        exact ⟨base, symbol, e, ⟨cut, listed⟩, rfl⟩
      next => cases found
  · rintro ⟨base, symbol, e, ⟨cut, listed⟩, rfl⟩
    simp only [cut, listed]

theorem HasExtension.dotted_eq (suffixed : HasExtension name base symbol e) :
    e.dotted = '.' :: Text.lower symbol := by
  rw [suffixed.same, Extension.lower_symbol suffixed.listed]
  rfl

/-- A name is refused for the first rule that it breaks. One that keeps them all is that of a file
if and only if it has a listed suffix, and its category is that of the suffix. The name of the entry
is found to be the same entry again; it is as long as the name that was given, and differs from it
in the case of the suffix alone. -/
theorem classify_canonical (name : Text) :
    (∀ fault, (classify name = .error fault ↔ Breaks name fault) ∧
      (validate name = .error fault ↔ Breaks name fault)) ∧
    ((∀ fault, ¬Breaks name fault) →
      (∀ base suffix e, classify name = .ok (.file base suffix e) ↔
        suffix = e.dotted ∧ ∃ symbol, HasExtension name base symbol e) ∧
      (∀ kept, classify name = .ok (.directory kept) ↔
        kept = name ∧ ∀ base symbol e, ¬HasExtension name base symbol e) ∧
      ∀ category, Extension.categoryOf name = .ok category ↔
        ∃ base suffix e, classify name = .ok (.file base suffix e) ∧ e.category = category) ∧
    ∀ found, classify name = .ok found →
      classify found.fullName = .ok found ∧ found.fullName.length = name.length ∧
      (found = .directory name ∨ ∃ base symbol e, found = .file base e.dotted e ∧ base ≠ [] ∧
        HasExtension name base symbol e ∧ (∀ c ∈ symbol, c.isAlphanum) ∧
        found.fullName = base ++ '.' :: Text.lower symbol) := by
  refine ⟨fun fault => ?_, fun keeps => ?_, fun found classified => ?_⟩
  · rw [classify_eq_error_iff, validate_eq_error_iff, fault?_eq_some_iff]
    exact ⟨Iff.rfl, Iff.rfl⟩
  · have valid := fault?_eq_none_of_keeps keeps
    refine ⟨fun base suffix e => classify_eq_file_iff valid,
      fun kept => classify_eq_directory_iff valid, fun category => ?_⟩
    simp only [categoryOf_eq_ok_iff, classify_eq_file_iff valid]
    constructor
    · rintro ⟨base, symbol, e, suffixed, same⟩
      exact ⟨base, e.dotted, e, ⟨rfl, symbol, suffixed⟩, same⟩
    · rintro ⟨base, suffix, e, ⟨-, symbol, suffixed⟩, same⟩
      exact ⟨base, symbol, e, suffixed, same⟩
  · have again := classify_fullName classified
    have valid := (classify_eq_ok classified).1
    rcases classify_cases valid with ⟨base, symbol, e, suffixed, other⟩ | ⟨-, other⟩
    · rw [other] at classified
      cases classified
      have kept : fault? (base ++ '.' :: symbol) = none := suffixed.whole ▸ valid
      have filled : base ≠ [] := base_ne_nil kept
      have spelled : (Classified.file base e.dotted e).fullName =
          base ++ '.' :: Text.lower symbol :=
        congrArg (base ++ ·) suffixed.dotted_eq
      refine ⟨again, ?_, .inr ⟨base, symbol, e, rfl, filled, suffixed,
        fun c => suffixed.isAlphanum, spelled⟩⟩
      rw [spelled, suffixed.whole]
      simp
    · rw [other] at classified
      cases classified
      exact ⟨again, rfl, .inl rfl⟩

end

end Naming

end Scaffold
