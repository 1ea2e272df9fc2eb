import Scaffold.Proofs.Extraction.Opaque
import Scaffold.Proofs.Script.Misplaced
import Scaffold.Proofs.Slash

/-! What is quoted. The scan for foreign slashes flips at each quote and knows of nothing else. A
command has its texts in the blocks of its clauses. The two say the same of every character but the
quotes themselves, so what the grammar accepts is not refused for its slashes. -/
namespace Scaffold

/-- The scan goes on behind `before` inside quotes, or outside of them. -/
def Slash.Resumes (slash : Slash) (before : Text) (inQuotes : Bool) : Prop :=
  ∀ rest, slash.findForeign? (before ++ rest) =
    slash.scanForeign inQuotes (Text.byteLength before) rest

theorem Slash.resumes_quotedAfter {slash : Slash} {before : Text}
    (clean : slash.findForeign? before = none) :
    slash.Resumes before (quotedAfter false before) := by
  intro rest
  rw [findForeign?, scanForeign_append, ← findForeign?, clean, Option.none_or, Nat.zero_add]

theorem Slash.findForeign?_initial {slash : Slash} {before after : Text}
    (clean : slash.findForeign? (before ++ after) = none) : slash.findForeign? before = none := by
  rw [findForeign?, scanForeign_append, Option.or_eq_none_iff] at clean
  exact clean.1

namespace Text

variable {front inside behind before after : Text} {c : Char}

/-- Behind the first of two quotes and not behind the second one lies what is between them. -/
theorem between_quotes (outside : '"' ∉ front) (closed : '"' ∉ inside) (open_end : '"' ∉ behind)
    (whole : front ++ '"' :: (inside ++ '"' :: behind) = before ++ c :: after) (plain : c ≠ '"')
    (odd : ¬Even (before.count '"')) :
    ∃ early late, inside = early ++ c :: late ∧ before = front ++ '"' :: early := by
  rcases List.append_eq_append_iff.1 whole with ⟨more, longer, rest⟩ | ⟨more, longer, -⟩
  · cases more with
    | nil => exact absurd (List.cons.inj rest).1.symm plain
    | cons quote early =>
      obtain ⟨rfl, opened⟩ := List.cons.inj rest
      rcases List.append_eq_append_iff.1 opened with ⟨late, deeper, last⟩ | ⟨late, between, last⟩
      · cases late with
        | nil => exact absurd (List.cons.inj last).1.symm plain
        | cons quote late =>
          obtain ⟨rfl, rfl⟩ : '"' = quote ∧ behind = late ++ c :: after := by simpa using last
          rw [List.mem_append, not_or] at open_end
          have pair : before.count '"' = 2 := by
            simp [longer, deeper, List.count_eq_zero.2 outside, List.count_eq_zero.2 closed,
              List.count_eq_zero.2 open_end.1]
          rw [pair] at odd
          exact absurd (by decide) odd
      · cases late with
        | nil => exact absurd (List.cons.inj last).1 plain
        | cons d late =>
          obtain ⟨rfl, -⟩ := List.cons.inj last
          exact ⟨early, late, between, longer⟩
  · apply absurd _ odd
    rw [longer, List.mem_append, not_or] at outside
    simp [List.count_eq_zero.2 outside.1]

end Text

namespace Command

variable {slash : Slash} {c : Command} {before after : Text} {x : Char}

/-- Behind `before`, the character `x` belongs to the text of one of the blocks. -/
def Quotes (slash : Slash) (c : Command) (before : Text) (x : Char) : Prop :=
  ∃ front op segment block back early late,
    c.items = front ++ (op, ⟨segment, some block⟩) :: back ∧ block.content = early ++ x :: late ∧
      before = restText slash front ++ op.lexeme slash ++ segment ++ ':' :: '"' :: early

theorem even_quotes {items : List (Operation × Clause)} (joined : Joined items) :
    Even ((restText slash items).count '"') := by
  induction items with
  | nil => simp [restText]
  | cons item items ih =>
    obtain ⟨⟨joint, valid⟩, later⟩ := List.forall_mem_cons.1 joined
    rw [restText_cons, List.count_append, List.count_append, valid.count_quotes,
      List.count_eq_zero.2 (Operation.quote_notMem_lexeme slash joint), Nat.zero_add]
    exact Even.add ⟨_, Nat.two_mul _⟩ (ih later)

theorem exists_item_of_restText {items : List (Operation × Clause)}
    (whole : restText slash items = before ++ x :: after) :
    ∃ front op clause back inside more, items = front ++ (op, clause) :: back ∧
      op.lexeme slash ++ clause.text = inside ++ x :: more ∧
        before = restText slash front ++ inside := by
  induction items generalizing before with
  | nil => simp [restText] at whole
  | cons item items ih =>
    have later {rest : Text} (behind : restText slash items = rest ++ x :: after)
        (longer : before = item.1.lexeme slash ++ item.2.text ++ rest) :
        ∃ front op clause back inside more, item :: items = front ++ (op, clause) :: back ∧
          op.lexeme slash ++ clause.text = inside ++ x :: more ∧
            before = restText slash front ++ inside := by
      obtain ⟨front, op, clause, back, inside, more, parts, here, rfl⟩ := ih behind
      exact ⟨item :: front, op, clause, back, inside, more, by rw [parts]; rfl, here,
        by rw [longer, restText_cons, List.append_assoc, List.append_assoc, List.append_assoc]⟩
    rw [restText_cons] at whole
    rcases List.append_eq_append_iff.1 whole with ⟨rest, longer, behind⟩ | ⟨more, here, behind⟩
    · exact later behind longer
    · cases more with
      | nil =>
        rw [List.append_nil] at here
        have none_left : restText slash items = [] ++ x :: after := behind.symm
        exact later none_left (by rw [here, List.append_nil])
      | cons d more =>
        obtain ⟨rfl, -⟩ := List.cons.inj behind
        exact ⟨[], item.1, item.2, items, before, more, rfl, here, rfl⟩

/-- The characters behind an odd number of quotes are those that the blocks quote. -/
theorem quotes_iff (valid : c.WellFormed) (whole : c.text slash = before ++ x :: after)
    (plain : x ≠ '"') : c.Quotes slash before x ↔ ¬Even (before.count '"') := by
  have joined := wellFormed_iff_joined.1 valid
  constructor
  · rintro ⟨front, op, segment, block, back, early, late, parts, content, rfl⟩
    rw [parts] at joined
    obtain ⟨earlier, here⟩ := joined_append.1 joined
    obtain ⟨⟨joint, proper⟩, -⟩ := List.forall_mem_cons.1 here
    obtain ⟨closed, -⟩ := proper.2 block rfl
    rw [content, List.mem_append, not_or] at closed
    have single : (restText slash front ++ op.lexeme slash ++ segment ++
        ':' :: '"' :: early).count '"' = (restText slash front).count '"' + 1 := by
      simp [List.count_eq_zero.2 (Operation.quote_notMem_lexeme slash joint),
        List.count_eq_zero.2 (Grammar.quote_notMem_of_segmentChars proper.1.1),
        List.count_eq_zero.2 closed.1]
    rw [single, Nat.even_add_one, not_not]
    exact even_quotes earlier
  · intro odd
    rw [← restText_items] at whole
    obtain ⟨front, op, ⟨segment, block⟩, back, inside, more, parts, here, rfl⟩ :=
      exists_item_of_restText whole
    rw [parts] at joined
    obtain ⟨earlier, here'⟩ := joined_append.1 joined
    obtain ⟨⟨joint, proper⟩, -⟩ := List.forall_mem_cons.1 here'
    rw [List.count_append, Nat.even_add, iff_true_left (even_quotes earlier)] at odd
    have bare : '"' ∉ op.lexeme slash ++ segment := by
      rw [List.mem_append, not_or]
      exact ⟨Operation.quote_notMem_lexeme slash joint,
        Grammar.quote_notMem_of_segmentChars proper.1.1⟩
    cases block with
    | none =>
      apply absurd _ odd
      simp only [Clause.text, Option.map_none, Option.getD_none, List.append_nil] at here
      rw [here, List.mem_append, not_or] at bare
      simp [List.count_eq_zero.2 bare.1]
    | some b =>
      obtain ⟨closed, stray⟩ := proper.2 b rfl
      have shape : (op.lexeme slash ++ segment ++ [':']) ++ '"' :: (b.content ++ '"' :: b.stray) =
          inside ++ x :: more := by
        rw [← here]
        simp [Clause.text, Block.text]
      have outside : '"' ∉ op.lexeme slash ++ segment ++ [':'] := by
        rw [List.mem_append, not_or]
        exact ⟨bare, by decide⟩
      obtain ⟨early, late, content, rfl⟩ := Text.between_quotes outside closed
        (Grammar.quote_notMem_of_segmentChars stray) shape plain odd
      exact ⟨front, op, segment, b, back, early, late, parts, content, by simp⟩

end Command

namespace Grammar

/-- Where the grammar accepts a text, the scan is inside quotes at just those characters that its
blocks quote, quotes apart, and it finds nothing. So a text is validated when a command stands
behind its drive, and for no other reason. Whatever it is given, the scan reports the first foreign
slash behind an even number of quotes. -/
theorem scan_agrees (slash : Slash) (t : Text) :
    (isCommand slash t → slash.findForeign? t = none ∧ Even (t.count '"') ∧
      (∃ c : Command, c.WellFormed ∧ t = c.text slash) ∧
      ∀ c : Command, c.WellFormed → t = c.text slash →
        ∀ before x after, t = before ++ x :: after → x ≠ '"' →
          ∃ inQuotes, slash.Resumes before inQuotes ∧
            (inQuotes = true ↔ c.Quotes slash before x)) ∧
    (Extraction.validate slash t = .ok () ↔ isCommand slash (splitDrive (Text.trim t)).2) ∧
    ∀ position, slash.findForeign? t = some position ↔
      ∃ before, slash.IsFirstBare t before ∧ Text.byteLength before = position := by
  refine ⟨fun accepted => ?_, ?_, fun position => Slash.findForeign?_eq_some_iff⟩
  · have alive : State.start.run slash t ≠ .refused := by
      rcases isCommand_iff_ends.1 accepted with ends | ends <;> rw [ends] <;> decide
    have clean : slash.findForeign? t = none := scanForeign_of_alive alive 0
    obtain ⟨c, valid, rfl⟩ := Command.isCommand_iff.1 accepted
    have even : Even ((c.text slash).count '"') := by
      rw [← Command.restText_items]
      exact Command.even_quotes (Command.wellFormed_iff_joined.1 valid)
    refine ⟨clean, even, ⟨c, valid, rfl⟩, fun b validToo same before x after whole plain => ?_⟩
    rw [whole] at clean
    refine ⟨_, Slash.resumes_quotedAfter (Slash.findForeign?_initial clean), ?_⟩
    rw [Command.quotes_iff validToo (same.symm.trans whole) plain]
    simp [Slash.quotedAfter]
  · rw [Extraction.validate_eq_ok_iff]
    exact ⟨And.right, fun accepted => ⟨checkSeparators_of_isCommand accepted, accepted⟩⟩

end Grammar

end Scaffold
