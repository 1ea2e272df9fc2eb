import Mathlib.Computability.Language
import Scaffold.Proofs.Grammar.Route
import Scaffold.Proofs.Grammar.Unambiguous

/-! The two languages of the surface syntax as regular expressions. The texts that the grammar
accepts are the words of these expressions, and each word is taken apart in one way. -/
namespace Scaffold.Grammar

open Computability

def oneOf (p : Char → Bool) : Language Char := {t | ∃ c, p c ∧ t = [c]}

def segment : Language Char :=
  (oneOf isSegmentChar)∗ * oneOf (fun c => isSegmentChar c && !Text.isBlank c) *
    (oneOf isSegmentChar)∗

/-- A colon, a quoted text, and what is passed over behind it. -/
def block : Language Char :=
  {[':', '"']} * (oneOf (· ≠ '"'))∗ * {['"']} * (oneOf isSegmentChar)∗

def clause : Language Char := segment * (1 + block)

def joint (slash : Slash) : Language Char := {[slash.separator]} + {['>']} + {[':', '>']}

def commands (slash : Slash) : Language Char :=
  {[slash.separator]} * clause * (joint slash * clause)∗

def group (slash : Slash) : Language Char := {[slash.separator]} * segment

def paths (slash : Slash) : Language Char :=
  oneOf Char.isAlpha * {[':']} * (group slash)∗ + group slash * (group slash)∗

theorem mem_singleton {t u : Text} : t ∈ ({u} : Language Char) ↔ t = u := Iff.rfl

theorem mem_kstar_oneOf {p : Char → Bool} {t : Text} : t ∈ (oneOf p)∗ ↔ t.all p := by
  rw [Language.mem_kstar, List.all_eq_true]
  constructor
  · rintro ⟨parts, rfl, each⟩ c member
    obtain ⟨part, inside, here⟩ := List.mem_flatten.1 member
    obtain ⟨d, holds, rfl⟩ := each part inside
    obtain rfl := List.mem_singleton.1 here
    exact holds
  · intro all
    have whole : t = (t.map ([·])).flatten := by rw [← List.flatMap_def, List.flatMap_singleton']
    refine ⟨t.map ([·]), whole, fun part member => ?_⟩
    obtain ⟨c, inside, rfl⟩ := List.mem_map.1 member
    exact ⟨c, all c inside, rfl⟩

theorem mem_segment {t : Text} : t ∈ segment ↔ IsSegment t := by
  simp only [segment, Language.mem_mul, mem_kstar_oneOf]
  constructor
  · rintro ⟨_, ⟨before, front, _, ⟨c, inked, rfl⟩, rfl⟩, behind, back, rfl⟩
    simp only [Bool.and_eq_true] at inked
    exact ⟨by simp [front, back, inked.1], c, by simp, inked.2⟩
  · rintro ⟨all, c, member, ink⟩
    obtain ⟨before, behind, rfl⟩ := List.append_of_mem member
    simp only [List.all_append, List.all_cons, Bool.and_eq_true] at all
    obtain ⟨front, here, back⟩ := all
    exact ⟨before ++ [c], ⟨before, front, [c], ⟨c, by simp [here, ink], rfl⟩, rfl⟩, behind, back,
      by simp⟩

theorem mem_block {t : Text} : t ∈ block ↔ ∃ b : Block, b.WellFormed ∧ t = b.text := by
  have quoteless (u : Text) : (u.all fun c => decide (c ≠ '"')) ↔ '"' ∉ u := by
    rw [List.all_eq_true]
    constructor
    · intro all member
      simpa using all '"' member
    · intro clean c member
      rw [decide_eq_true_eq]
      rintro rfl
      exact clean member
  simp only [block, Language.mem_mul, mem_kstar_oneOf, mem_singleton, quoteless]
  constructor
  · rintro ⟨_, ⟨_, ⟨_, rfl, content, plain, rfl⟩, _, rfl, rfl⟩, stray, all, rfl⟩
    exact ⟨⟨content, stray⟩, ⟨plain, all⟩, by simp [Block.text]⟩
  · rintro ⟨⟨content, stray⟩, ⟨plain, all⟩, rfl⟩
    exact ⟨_, ⟨_, ⟨_, rfl, content, plain, rfl⟩, _, rfl, rfl⟩, stray, all, by simp [Block.text]⟩

theorem mem_clause {t : Text} : t ∈ clause ↔ ∃ c : Clause, c.WellFormed ∧ t = c.text := by
  simp only [clause, Language.mem_mul, mem_segment, Language.mem_add, Language.mem_one, mem_block]
  constructor
  · rintro ⟨s, proper, _, rfl | ⟨b, valid, rfl⟩, rfl⟩
    · exact ⟨⟨s, none⟩, ⟨proper, by simp⟩, rfl⟩
    · exact ⟨⟨s, some b⟩, ⟨proper, by simpa using valid⟩, rfl⟩
  · rintro ⟨⟨s, found⟩, ⟨proper, blocks⟩, rfl⟩
    cases found with
    | none => exact ⟨s, proper, [], .inl rfl, rfl⟩
    | some b => exact ⟨s, proper, b.text, .inr ⟨b, blocks b rfl, rfl⟩, rfl⟩

theorem mem_joint {slash : Slash} {t : Text} :
    t ∈ joint slash ↔ ∃ op : Operation, op.isJoint ∧ t = op.lexeme slash := by
  simp only [joint, Language.mem_add, mem_singleton]
  constructor
  · rintro ((rfl | rfl) | rfl)
    · exact ⟨.enter, rfl, rfl⟩
    · exact ⟨.next, rfl, rfl⟩
    · exact ⟨.leave, rfl, rfl⟩
  · rintro ⟨op, joint, rfl⟩
    cases op <;> cases joint <;> simp [Operation.lexeme]

theorem mem_kstar_joined {slash : Slash} {t : Text} :
    t ∈ (joint slash * clause)∗ ↔
      ∃ rest, Command.Joined rest ∧ t = Command.restText slash rest := by
  rw [Language.mem_kstar]
  constructor
  · rintro ⟨parts, rfl, each⟩
    induction parts with
    | nil => exact ⟨[], by simp, rfl⟩
    | cons part parts ih =>
      obtain ⟨here, there⟩ := List.forall_mem_cons.1 each
      obtain ⟨rest, joined, later⟩ := ih there
      obtain ⟨_, first, _, second, rfl⟩ := Language.mem_mul.1 here
      obtain ⟨op, isJoint, rfl⟩ := mem_joint.1 first
      obtain ⟨c, valid, rfl⟩ := mem_clause.1 second
      refine ⟨(op, c) :: rest, List.forall_mem_cons.2 ⟨⟨isJoint, valid⟩, joined⟩, ?_⟩
      rw [List.flatten_cons, later]
      rfl
  · rintro ⟨rest, joined, rfl⟩
    refine ⟨rest.map fun item => item.1.lexeme slash ++ item.2.text, rfl, fun part member => ?_⟩
    obtain ⟨⟨op, c⟩, inside, rfl⟩ := List.mem_map.1 member
    obtain ⟨isJoint, valid⟩ := joined _ inside
    exact Language.mem_mul.2
      ⟨_, mem_joint.2 ⟨op, isJoint, rfl⟩, _, mem_clause.2 ⟨c, valid, rfl⟩, rfl⟩

/-- The expression of commands has the texts of well-formed commands for its words. -/
theorem mem_commands {slash : Slash} {t : Text} :
    t ∈ commands slash ↔ ∃ c : Command, c.WellFormed ∧ t = c.text slash := by
  simp only [commands, Language.mem_mul, mem_singleton, mem_clause, mem_kstar_joined]
  constructor
  · rintro ⟨_, ⟨_, rfl, _, ⟨first, valid, rfl⟩, rfl⟩, _, ⟨rest, joined, rfl⟩, rfl⟩
    exact ⟨⟨first, rest⟩, ⟨valid, joined⟩, rfl⟩
  · rintro ⟨⟨first, rest⟩, ⟨valid, joined⟩, rfl⟩
    exact ⟨_, ⟨_, rfl, _, ⟨first, valid, rfl⟩, rfl⟩, _, ⟨rest, joined, rfl⟩, rfl⟩

theorem mem_group {slash : Slash} {t : Text} :
    t ∈ group slash ↔ ∃ s, IsSegment s ∧ t = slash.separator :: s := by
  simp only [group, Language.mem_mul, mem_singleton, mem_segment]
  constructor
  · rintro ⟨_, rfl, s, proper, rfl⟩
    exact ⟨s, proper, rfl⟩
  · rintro ⟨s, proper, rfl⟩
    exact ⟨_, rfl, s, proper, rfl⟩

theorem mem_kstar_group {slash : Slash} {t : Text} :
    t ∈ (group slash)∗ ↔
      ∃ segments, (∀ s ∈ segments, IsSegment s) ∧ t = Command.spelled slash segments := by
  rw [Language.mem_kstar]
  constructor
  · rintro ⟨parts, rfl, each⟩
    induction parts with
    | nil => exact ⟨[], by simp, rfl⟩
    | cons part parts ih =>
      obtain ⟨here, there⟩ := List.forall_mem_cons.1 each
      obtain ⟨segments, proper, later⟩ := ih there
      obtain ⟨s, first, rfl⟩ := mem_group.1 here
      exact ⟨s :: segments, List.forall_mem_cons.2 ⟨first, proper⟩,
        by rw [List.flatten_cons, later]; rfl⟩
  · rintro ⟨segments, proper, rfl⟩
    refine ⟨segments.map (slash.separator :: ·), ?_, fun part member => ?_⟩
    · induction segments with
      | nil => rfl
      | cons s segments ih =>
        rw [Command.spelled, ih (List.forall_mem_cons.1 proper).2]
        rfl
    · obtain ⟨s, inside, rfl⟩ := List.mem_map.1 member
      exact mem_group.2 ⟨s, proper s inside, rfl⟩

/-- The expression of paths has the texts of well-formed routes for its words. -/
theorem mem_paths {slash : Slash} {t : Text} :
    t ∈ paths slash ↔ ∃ r : Route, r.WellFormed ∧ t = r.text slash := by
  simp only [paths, Language.mem_add, Language.mem_mul, mem_singleton, mem_kstar_group, mem_group]
  constructor
  · rintro (⟨_, ⟨_, ⟨letter, alpha, rfl⟩, _, rfl, rfl⟩, _, ⟨segments, proper, rfl⟩, rfl⟩ |
      ⟨_, ⟨s, first, rfl⟩, _, ⟨segments, proper, rfl⟩, rfl⟩)
    · exact ⟨⟨some letter, segments⟩, ⟨by simpa using alpha, proper, by simp⟩, rfl⟩
    · exact ⟨⟨none, s :: segments⟩, ⟨by simp, List.forall_mem_cons.2 ⟨first, proper⟩, by simp⟩, rfl⟩
  · rintro ⟨⟨drive, segments⟩, ⟨letters, proper, filled⟩, rfl⟩
    match drive, segments with
    | some letter, segments =>
      exact .inl ⟨_, ⟨_, ⟨letter, letters letter rfl, rfl⟩, _, rfl, rfl⟩, _,
        ⟨segments, proper, rfl⟩, rfl⟩
    | none, [] => exact absurd rfl (filled rfl)
    | none, s :: segments =>
      obtain ⟨here, there⟩ := List.forall_mem_cons.1 proper
      exact .inr ⟨_, ⟨s, here, rfl⟩, _, ⟨segments, there, rfl⟩, rfl⟩

/-- What the grammar accepts: the words of two regular expressions, where a path must not end in a
blank. Each is taken apart in exactly one way, a command into its clauses with an operation between
each two of them, a path into a drive and segments. -/
theorem accepts_unambiguously (slash : Slash) (t : Text) :
    ((isCommand slash t ↔ t ∈ commands slash) ∧
      (isCommand slash t ↔ ∃ c : Command, c.WellFormed ∧ t = c.text slash) ∧
      ∀ c d : Command, c.WellFormed ∧ t = c.text slash → d.WellFormed ∧ t = d.text slash →
        c = d) ∧
    ((isPath slash t ↔ t.getLast?.any Text.isBlank = false ∧ t ∈ paths slash) ∧
      (isPath slash t ↔ t.getLast?.any Text.isBlank = false ∧
        ∃ r : Route, r.WellFormed ∧ t = r.text slash) ∧
      ∀ r q : Route, r.WellFormed ∧ t = r.text slash → q.WellFormed ∧ t = q.text slash →
        r = q) := by
  refine ⟨⟨?_, Command.isCommand_iff, ?_⟩, ?_, isPath_iff, ?_⟩
  · rw [Command.isCommand_iff, mem_commands]
  · rintro c d ⟨valid, rfl⟩ ⟨otherValid, same⟩
    exact Command.text_injective valid otherValid same
  · rw [isPath_iff, mem_paths]
  · rintro r q ⟨valid, rfl⟩ ⟨otherValid, same⟩
    exact Route.text_injective valid otherValid same

end Scaffold.Grammar
