import Scaffold.Script.Command

/-! The texts that the grammar accepts are the texts of well-formed commands. What may follow in
each state of the reading is found from the end of the text to its start. -/
namespace Scaffold

/-- Clauses that may stand behind another clause, each with an operation that joins it. -/
abbrev Command.Joined (rest : List (Operation × Clause)) : Prop :=
  ∀ item ∈ rest, item.1.isJoint ∧ item.2.WellFormed

namespace Grammar

/-- Clauses with their operations, as they stand behind another clause. -/
def Tail (slash : Slash) (t : Text) : Prop :=
  ∃ rest, Command.Joined rest ∧ t = Command.restText slash rest

def Clauses (slash : Slash) (t : Text) : Prop :=
  ∃ (clause : Clause) (after : Text), clause.WellFormed ∧ Tail slash after ∧
    t = clause.text ++ after

/-- What completes a command that has been read up to the state. -/
def State.Completes (slash : Slash) : State → Text → Prop
  | .start, t => ∃ c : Command, c.WellFormed ∧ t = c.text slash
  | .gap, t => Clauses slash t
  | .ink, t => ∃ segment block after, segment.all isSegmentChar ∧
      (∀ b ∈ block, Block.WellFormed b) ∧ Tail slash after ∧
      t = Clause.text ⟨segment, block⟩ ++ after
  | .colon, t => (∃ u, Clauses slash u ∧ t = '>' :: u) ∨
      ∃ b after, Block.WellFormed b ∧ Tail slash after ∧ ':' :: t = b.text ++ after
  | .quoted, t => ∃ b after, Block.WellFormed b ∧ Tail slash after ∧
      ':' :: '"' :: t = b.text ++ after
  | .stray, t => ∃ stray after, stray.all isSegmentChar ∧ Tail slash after ∧ t = stray ++ after
  | .strayColon, t => ∃ u, Clauses slash u ∧ t = '>' :: u
  | .refused, _ => False

def State.Ends (s : State) : Prop := s = .ink ∨ s = .stray

theorem isCommand_iff_ends {slash : Slash} {t : Text} :
    isCommand slash t ↔ (State.start.run slash t).Ends := by
  unfold isCommand State.Ends
  cases State.start.run slash t <;> simp

section

variable {slash : Slash} {t : Text}

theorem Tail.nil : Tail slash [] := ⟨[], by simp, rfl⟩

theorem Tail.cons (op : Operation) (joint : op.isJoint) (clauses : Clauses slash t) :
    Tail slash (op.lexeme slash ++ t) := by
  obtain ⟨clause, _, valid, ⟨rest, joined, rfl⟩, rfl⟩ := clauses
  refine ⟨(op, clause) :: rest, List.forall_mem_cons.2 ⟨⟨joint, valid⟩, joined⟩, ?_⟩
  simp [Command.restText]

theorem Tail.operator {c : Char} (operator : c = slash.separator ∨ c = '>')
    (clauses : Clauses slash t) : Tail slash (c :: t) := by
  rcases operator with rfl | rfl
  · exact Tail.cons .enter rfl clauses
  · exact Tail.cons .next rfl clauses

theorem State.Completes.ink_of_tail (tail : Tail slash t) : State.ink.Completes slash t :=
  ⟨[], none, t, rfl, by simp, tail, rfl⟩

theorem State.Completes.stray_of_tail (tail : Tail slash t) : State.stray.Completes slash t :=
  ⟨[], t, rfl, tail, rfl⟩

theorem State.Completes.nil {s : State} (ends : s.Ends) : s.Completes slash [] := by
  rcases ends with rfl | rfl
  · exact .ink_of_tail .nil
  · exact .stray_of_tail .nil

theorem State.Completes.gap_cons {c : Char} (later : (blankOrInk c).Completes slash t) :
    State.gap.Completes slash (c :: t) := by
  unfold blankOrInk at later
  split at later
  next => exact later.elim
  next plain =>
    have here : isSegmentChar c := by simpa using plain
    split at later
    next =>
      obtain ⟨⟨segment, block⟩, after, ⟨⟨all, d, inside, ink⟩, blocks⟩, tail, rfl⟩ := later
      exact ⟨⟨c :: segment, block⟩, after,
        ⟨⟨by simp_all, d, List.mem_cons_of_mem _ inside, ink⟩, blocks⟩, tail, rfl⟩
    next ink =>
      obtain ⟨segment, block, after, all, blocks, tail, rfl⟩ := later
      exact ⟨⟨c :: segment, block⟩, after,
        ⟨⟨by simp_all, c, List.mem_cons_self, by simpa using ink⟩, blocks⟩, tail, rfl⟩

theorem State.Completes.ink_cons {c : Char} (later : (State.ink.next slash c).Completes slash t) :
    State.ink.Completes slash (c :: t) := by
  simp only [State.next] at later
  split at later
  next here =>
    obtain ⟨segment, block, after, all, blocks, tail, rfl⟩ := later
    exact ⟨c :: segment, block, after, by simp_all, blocks, tail, rfl⟩
  next =>
    split at later
    next operator => exact .ink_of_tail (.operator operator later)
    next =>
      split at later
      next colon =>
        subst colon
        rcases later with ⟨u, clauses, rfl⟩ | ⟨b, after, valid, tail, same⟩
        · exact .ink_of_tail (Tail.cons .leave rfl clauses)
        · exact ⟨[], some b, after, rfl, by simpa using valid, tail, same⟩
      next => exact later.elim

theorem State.Completes.quoted_cons {c : Char}
    (later : (State.quoted.next slash c).Completes slash t) :
    State.quoted.Completes slash (c :: t) := by
  simp only [State.next] at later
  split at later
  next closes =>
    obtain ⟨stray, after, all, tail, rfl⟩ := later
    exact ⟨⟨[], stray⟩, after, ⟨by simp, all⟩, tail, by simp [Block.text, closes]⟩
  next inside =>
    obtain ⟨⟨content, stray⟩, after, ⟨plain, all⟩, tail, same⟩ := later
    refine ⟨⟨c :: content, stray⟩, after, ⟨?_, all⟩, tail, ?_⟩
    · simp only [List.mem_cons, not_or]
      exact ⟨Ne.symm inside, plain⟩
    · simpa [Block.text] using same

theorem State.Completes.stray_cons {c : Char}
    (later : (State.stray.next slash c).Completes slash t) :
    State.stray.Completes slash (c :: t) := by
  simp only [State.next] at later
  split at later
  next here =>
    obtain ⟨stray, after, all, tail, rfl⟩ := later
    exact ⟨c :: stray, after, by simp_all, tail, rfl⟩
  next =>
    split at later
    next operator => exact .stray_of_tail (.operator operator later)
    next =>
      split at later
      next colon =>
        obtain ⟨u, clauses, rfl⟩ := later
        subst colon
        exact .stray_of_tail (Tail.cons .leave rfl clauses)
      next => exact later.elim

/-- What completes the command after one more character completes it with the character in front. -/
theorem State.Completes.cons {s : State} {c : Char}
    (later : (s.next slash c).Completes slash t) : s.Completes slash (c :: t) := by
  cases s with
  | start =>
    simp only [State.next] at later
    split at later
    next same =>
      obtain ⟨clause, _, valid, ⟨rest, joined, rfl⟩, rfl⟩ := later
      exact ⟨⟨clause, rest⟩, ⟨valid, joined⟩, by rw [same]; rfl⟩
    next => exact later.elim
  | gap => exact gap_cons later
  | ink => exact ink_cons later
  | colon =>
    simp only [State.next] at later
    split at later
    next up => exact .inl ⟨t, later, by rw [up]⟩
    next =>
      split at later
      next quote => exact .inr (by rw [quote]; exact later)
      next => exact later.elim
  | quoted => exact quoted_cons later
  | stray => exact stray_cons later
  | strayColon =>
    simp only [State.next] at later
    split at later
    next up => exact ⟨t, later, by rw [up]⟩
    next => exact later.elim
  | refused => exact later.elim

theorem State.completes_of_ends {s : State} (ends : (s.run slash t).Ends) :
    s.Completes slash t := by
  induction t generalizing s with
  | nil => exact .nil ends
  | cons c t ih => exact .cons (ih ends)

end

section

variable (slash : Slash)

theorem State.run_append (s : State) (t u : Text) :
    s.run slash (t ++ u) = (s.run slash t).run slash u := List.foldl_append

/-- A state that every character keeps is kept by the text. -/
theorem State.run_of_stays {s : State} {t : Text} (stays : ∀ c ∈ t, s.next slash c = s) :
    s.run slash t = s := by
  induction t with
  | nil => rfl
  | cons c t ih =>
    obtain ⟨here, there⟩ := List.forall_mem_cons.1 stays
    calc s.run slash (c :: t) = (s.next slash c).run slash t := rfl
      _ = s := by rw [here, ih there]

theorem run_separator (t : Text) :
    State.start.run slash (slash.separator :: t) = State.gap.run slash t := by
  cases slash <;> rfl

theorem run_opened (t : Text) :
    State.ink.run slash (':' :: '"' :: t) = State.quoted.run slash t := by
  cases slash <;> rfl

theorem run_ink {t : Text} (all : t.all isSegmentChar) : State.ink.run slash t = .ink := by
  apply State.run_of_stays
  intro c member
  rw [State.next, if_pos (List.all_eq_true.1 all c member)]

theorem run_stray {t : Text} (all : t.all isSegmentChar) : State.stray.run slash t = .stray := by
  apply State.run_of_stays
  intro c member
  rw [State.next, if_pos (List.all_eq_true.1 all c member)]

theorem run_quoted {t : Text} (inside : '"' ∉ t) : State.quoted.run slash t = .quoted := by
  apply State.run_of_stays
  intro c member
  rw [State.next, if_neg]
  rintro rfl
  exact inside member

theorem run_segment {t : Text} (segment : IsSegment t) : State.gap.run slash t = .ink := by
  induction t with
  | nil => simp [IsSegment] at segment
  | cons c t ih =>
    obtain ⟨all, d, inside, ink⟩ := segment
    obtain ⟨here, there⟩ : isSegmentChar c ∧ t.all isSegmentChar := by simpa using all
    have first : State.gap.next slash c = if Text.isBlank c then .gap else .ink := by
      simp [State.next, State.blankOrInk, here]
    change (State.gap.next slash c).run slash t = .ink
    rw [first]
    split
    next blank =>
      rcases List.mem_cons.1 inside with rfl | later
      · simp [blank] at ink
      · exact ih ⟨there, d, later, ink⟩
    next => exact run_ink slash there

theorem run_block {b : Block} (valid : b.WellFormed) : State.ink.run slash b.text = .stray := by
  rw [Block.text, List.cons_append, List.cons_append, run_opened, State.run_append,
    run_quoted slash valid.1]
  exact run_stray slash valid.2

theorem run_clause {c : Clause} (valid : c.WellFormed) : (State.gap.run slash c.text).Ends := by
  obtain ⟨segment, block⟩ := c
  rw [Clause.text, State.run_append, run_segment slash valid.1]
  cases block with
  | none => exact .inl rfl
  | some b => exact .inr (run_block slash (valid.2 b rfl))

theorem run_lexeme {s : State} (ends : s.Ends) {op : Operation} (joint : op.isJoint) :
    s.run slash (op.lexeme slash) = .gap := by
  rcases ends with rfl | rfl <;> cases op <;> cases joint <;> cases slash <;> rfl

theorem run_restText {s : State} (ends : s.Ends) {rest : List (Operation × Clause)}
    (joined : Command.Joined rest) :
    (s.run slash (Command.restText slash rest)).Ends := by
  induction rest generalizing s with
  | nil => exact ends
  | cons item rest ih =>
    obtain ⟨⟨joint, valid⟩, later⟩ := List.forall_mem_cons.1 joined
    rw [Command.restText_cons, State.run_append, State.run_append, run_lexeme slash ends joint]
    exact ih (run_clause slash valid) later

end

end Grammar

/-- The grammar accepts the well-formed commands and nothing else. -/
theorem Command.isCommand_iff {slash : Slash} {t : Text} :
    Grammar.isCommand slash t ↔ ∃ c : Command, c.WellFormed ∧ t = c.text slash := by
  rw [Grammar.isCommand_iff_ends]
  constructor
  · exact Grammar.State.completes_of_ends (s := .start)
  · rintro ⟨c, valid, rfl⟩
    rw [text, List.cons_append, Grammar.run_separator, Grammar.State.run_append]
    exact Grammar.run_restText slash (Grammar.run_clause slash valid.1) valid.2

end Scaffold
