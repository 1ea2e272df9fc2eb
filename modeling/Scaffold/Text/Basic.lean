/-! Texts are lists of characters. Positions in a text count the bytes of its UTF-8 form. -/
namespace Scaffold

abbrev Text := List Char

abbrev Bytes := List UInt8

namespace Text

def byteLength : Text → Nat
  | [] => 0
  | c :: t => c.utf8Size + byteLength t

@[simp] theorem byteLength_nil : byteLength [] = 0 := rfl

@[simp] theorem byteLength_cons (c : Char) (t : Text) :
    byteLength (c :: t) = c.utf8Size + byteLength t := rfl

@[simp] theorem byteLength_append (s t : Text) :
    byteLength (s ++ t) = byteLength s + byteLength t := by
  induction s with
  | nil => simp
  | cons c s ih => simp [ih, Nat.add_assoc]

theorem byteLength_le_of_sublist {s t : Text} (part : s.Sublist t) :
    byteLength s ≤ byteLength t := by
  induction part with
  | slnil => exact Nat.le_refl _
  | cons c part ih =>
    rw [byteLength_cons]
    omega
  | cons_cons c part ih =>
    rw [byteLength_cons, byteLength_cons]
    omega

def utf8 (t : Text) : Bytes := t.flatMap String.utf8EncodeChar

@[simp] theorem utf8_append (s t : Text) : utf8 (s ++ t) = utf8 s ++ utf8 t := by simp [utf8]

/-- The byte length is the number of bytes in the UTF-8 form. -/
theorem length_utf8 (t : Text) : (utf8 t).length = byteLength t := by
  induction t with
  | nil => rfl
  | cons c t ih => simpa [utf8] using ih

/-- Lowers the ASCII letters and leaves every other character alone. -/
def lower (t : Text) : Text := t.map Char.toLower

@[simp] theorem length_lower (t : Text) : (lower t).length = t.length := by simp [lower]

/-- Cuts `t` before the last `mark`, which then leads the second part. -/
def cutAtLast? (mark : Char) : Text → Option (Text × Text)
  | [] => none
  | c :: t =>
    match cutAtLast? mark t with
    | some (before, after) => some (c :: before, after)
    | none => if c = mark then some ([], c :: t) else none

theorem cutAtLast?_eq_none_iff {mark : Char} {t : Text} :
    cutAtLast? mark t = none ↔ mark ∉ t := by
  induction t with
  | nil => simp [cutAtLast?]
  | cons c t ih =>
    cases h : cutAtLast? mark t <;> simp [h, cutAtLast?, ← ih, eq_comm]

/-- Nothing is lost, and the mark does not come again. -/
theorem cutAtLast?_eq_some {mark : Char} {t before after : Text}
    (h : cutAtLast? mark t = some (before, after)) :
    t = before ++ after ∧ ∃ rest, after = mark :: rest ∧ mark ∉ rest := by
  induction t generalizing before with
  | nil => simp [cutAtLast?] at h
  | cons c t ih =>
    cases hc : cutAtLast? mark t with
    | some cut =>
      simp only [cutAtLast?, hc, Option.some.injEq, Prod.mk.injEq] at h
      have found : cutAtLast? mark t = some (cut.1, after) := by rw [hc, ← h.2]
      obtain ⟨whole, last⟩ := ih found
      exact ⟨by rw [← h.1, List.cons_append, ← whole], last⟩
    | none =>
      simp only [cutAtLast?, hc] at h
      split at h
      next same =>
        cases h
        exact ⟨rfl, t, by rw [same], cutAtLast?_eq_none_iff.1 hc⟩
      next => contradiction

end Text

end Scaffold
