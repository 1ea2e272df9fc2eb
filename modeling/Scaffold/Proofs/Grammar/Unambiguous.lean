import Scaffold.Proofs.Script.Reading

/-! A command is taken apart in one way only: its clauses and operations are found again from its
text. -/
namespace Scaffold

namespace Command

variable {slash : Slash}

theorem block_text_injective {b other : Block} {rest more : List (Operation × Clause)}
    (valid : b.WellFormed) (otherValid : other.WellFormed) (joined : Joined rest)
    (otherJoined : Joined more)
    (same : b.text ++ restText slash rest = other.text ++ restText slash more) :
    b = other ∧ restText slash rest = restText slash more := by
  -- The two scans that the reader makes find the parts of a block again.
  have parts {b : Block} {rest : List (Operation × Clause)} (valid : b.WellFormed)
      (joined : Joined rest) :
      let inside := (b.text ++ restText slash rest).drop 2
      let behind := (inside.dropWhile (· ≠ '"')).tail
      inside.takeWhile (· ≠ '"') = b.content ∧
        behind.takeWhile (!Script.endsStray slash ·) = b.stray ∧
        behind.dropWhile (!Script.endsStray slash ·) = restText slash rest := by
    have shape : (b.text ++ restText slash rest).drop 2 =
        b.content ++ '"' :: (b.stray ++ restText slash rest) := by simp [Block.text]
    have content := Text.cut_append (· ≠ '"') (s := b.content)
      (t := '"' :: (b.stray ++ restText slash rest))
      (by intro c member; simpa using fun same : c = '"' => valid.1 (same ▸ member)) (by simp)
    have stray := Text.cut_append (!Script.endsStray slash ·) (s := b.stray)
      (t := restText slash rest)
      (by
        intro c member
        simp [Script.endsStray_eq_false (List.all_eq_true.1 valid.2 c member)])
      (by intro c first; simp [Script.endsStray_head?_restText joined c first])
    simp only [shape, content.1, content.2, List.tail_cons]
    exact ⟨trivial, stray⟩
  obtain ⟨content, stray, behind⟩ := parts valid joined
  obtain ⟨otherContent, otherStray, otherBehind⟩ := parts otherValid otherJoined
  rw [same] at content stray behind
  obtain ⟨c, s⟩ := b
  obtain ⟨d, u⟩ := other
  obtain rfl : c = d := content.symm.trans otherContent
  obtain rfl : s = u := stray.symm.trans otherStray
  exact ⟨rfl, behind.symm.trans otherBehind⟩

theorem block_text_ne_restText (b : Block) (t : Text) {rest : List (Operation × Clause)}
    (joined : Joined rest) : b.text ++ t ≠ restText slash rest := by
  intro same
  have opened : Operation.read? slash (restText slash rest) =
      some (.openText, b.content ++ '"' :: (b.stray ++ t)) := by
    rw [← same]
    simp [Block.text, Operation.read?]
  exact Script.read?_restText_ne_openText joined _ opened

theorem clause_text_injective {clause other : Clause} {rest more : List (Operation × Clause)}
    (valid : clause.WellFormed) (otherValid : other.WellFormed) (joined : Joined rest)
    (otherJoined : Joined more)
    (same : clause.text ++ restText slash rest = other.text ++ restText slash more) :
    clause = other ∧ restText slash rest = restText slash more := by
  obtain ⟨segment, behind⟩ := Script.cut_segment slash valid joined
  obtain ⟨otherSegment, otherBehind⟩ := Script.cut_segment slash otherValid otherJoined
  rw [same] at segment behind
  obtain ⟨s, block⟩ := clause
  obtain ⟨u, otherBlock⟩ := other
  obtain rfl : s = u := segment.symm.trans otherSegment
  have after := behind.symm.trans otherBehind
  match block, otherBlock with
  | none, none => exact ⟨rfl, after⟩
  | some b, none => exact absurd after (block_text_ne_restText b _ otherJoined)
  | none, some b => exact absurd after.symm (block_text_ne_restText b _ joined)
  | some b, some d =>
    obtain ⟨rfl, last⟩ :=
      block_text_injective (valid.2 b rfl) (otherValid.2 d rfl) joined otherJoined after
    exact ⟨rfl, last⟩

theorem restText_injective {rest more : List (Operation × Clause)} (joined : Joined rest)
    (otherJoined : Joined more) (same : restText slash rest = restText slash more) :
    rest = more := by
  have filled (op : Operation) (clause : Clause) (rest : List (Operation × Clause)) :
      restText slash ((op, clause) :: rest) ≠ [] := by
    simp [restText, Operation.lexeme_ne_nil]
  induction rest generalizing more with
  | nil =>
    cases more with
    | nil => rfl
    | cons item more => exact absurd same.symm (filled item.1 item.2 more)
  | cons item rest ih =>
    obtain ⟨op, clause⟩ := item
    cases more with
    | nil => exact absurd same (filled op clause rest)
    | cons otherItem more =>
      obtain ⟨other, next⟩ := otherItem
      obtain ⟨⟨_, valid⟩, later⟩ := List.forall_mem_cons.1 joined
      obtain ⟨⟨_, otherValid⟩, otherLater⟩ := List.forall_mem_cons.1 otherJoined
      have reads := congrArg (Operation.read? slash) same
      rw [Script.read?_restText, Script.read?_restText, Option.some.injEq, Prod.mk.injEq] at reads
      obtain ⟨rfl, behind⟩ := reads
      obtain ⟨rfl, after⟩ := clause_text_injective valid otherValid later otherLater behind
      rw [ih later otherLater after]

/-- No two commands have the same text. -/
theorem text_injective {c d : Command} (valid : c.WellFormed) (otherValid : d.WellFormed)
    (same : c.text slash = d.text slash) : c = d := by
  obtain ⟨first, rest⟩ := c
  obtain ⟨other, more⟩ := d
  obtain ⟨clauses, after⟩ := clause_text_injective valid.1 otherValid.1 valid.2 otherValid.2
    (List.cons.inj same).2
  obtain rfl : first = other := clauses
  obtain rfl : rest = more := restText_injective valid.2 otherValid.2 after
  rfl

end Command

end Scaffold
