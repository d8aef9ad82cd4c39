import JsonEdit.Path.Key
import JsonEdit.Proofs.Number.Alike
import JsonEdit.Proofs.Path.Text

/-!
# Each key has one text

The reader of integers takes more texts than the printer writes: a plus sign, zeros at the front, a minus
sign before zero, digits of any number. An integer that has been read is a key only if it is written by the
very text that it was read from. So a text is read as a key if and only if it is the text of this key.

The text of a key stands in a path between quotes, where any characters can stand, and the path is read
back with the same text in its last step.
-/

namespace JsonEdit.ObjectKey

/-! ### Integers -/

theorem natOfDigits?_toDigits (n : Nat) : natOfDigits? (Nat.toDigits 10 n) = some n := by
  have hnonempty : (Nat.toDigits 10 n).isEmpty = false :=
    List.isEmpty_eq_false_iff.mpr Nat.toDigits_ne_nil
  have hdigits : (Nat.toDigits 10 n).all Char.isDigit = true := by
    rw [List.all_eq_true]
    intro c hc
    exact Nat.isDigit_of_mem_toDigits (by decide) (by decide) hc
  rw [natOfDigits?, hnonempty, hdigits, Nat.ofDigitChars_toDigits (by decide) (by decide)]
  rfl

/-- The digits of a natural number do not begin with a sign. -/
theorem intOfChars?_toDigits (n : Nat) : intOfChars? (Nat.toDigits 10 n) = some (n : Int) := by
  have hsign : ∀ c rest, Nat.toDigits 10 n = c :: rest → c ≠ '-' ∧ c ≠ '+' := by
    intro c rest hcons
    have hdigit : c.isDigit = true :=
      Nat.isDigit_of_mem_toDigits (b := 10) (n := n) (by decide) (by decide) (hcons ▸ List.mem_cons_self)
    constructor <;> rintro rfl <;> exact absurd hdigit (by decide)
  rw [intOfChars?]
  · rw [natOfDigits?_toDigits, Option.map_some]
  · intro rest hcons
    exact (hsign '-' rest hcons).1 rfl
  · intro rest hcons
    exact (hsign '+' rest hcons).2 rfl

theorem intOfChars?_intText (n : Int) : intOfChars? (intText n).toList = some n := by
  unfold intText
  by_cases hnegative : n < 0
  · have hchars : ("-" ++ String.ofList (Nat.toDigits 10 n.natAbs)).toList =
        '-' :: Nat.toDigits 10 n.natAbs := by
      simp
    rw [if_pos hnegative, hchars, intOfChars?, natOfDigits?_toDigits, Option.map_some]
    congr 1
    omega
  · rw [if_neg hnegative, String.toList_ofList, intOfChars?_toDigits]
    congr 1
    omega

/-! ### Keys and their texts -/

/-- A text is read as a key if and only if the key is written so. -/
class Canonical (α : Type) [ObjectKey α] : Prop where
  ofText?_eq_some_iff : ∀ {text : String} {key : α}, ofText? text = some key ↔ text = ObjectKey.text key

instance : Canonical String where
  ofText?_eq_some_iff := Option.some_inj

instance : Canonical Char where
  ofText?_eq_some_iff := by
    intro text key
    change (match text.toList with | [key] => some key | _ => none) = some key ↔
      text = String.ofList [key]
    rw [String.ext_iff, String.toList_ofList]
    split
    · rename_i c hchars
      rw [hchars, Option.some_inj, List.cons.injEq, and_iff_left rfl]
    · rename_i hother
      constructor
      · intro hnone
        cases hnone
      · intro hchars
        exact absurd hchars (hother key)

instance : Canonical Bool where
  ofText?_eq_some_iff := by
    intro text key
    change (if text = "true" then some true else if text = "false" then some false else none) =
      some key ↔ text = if key then "true" else "false"
    by_cases htrue : text = "true"
    · subst htrue
      cases key <;> decide
    · by_cases hfalse : text = "false"
      · subst hfalse
        cases key <;> decide
      · cases key <;> simp [htrue, hfalse]

/-- What the printer does not write is refused after it was read, whatever the width. -/
instance (kind : IntegerKind) : Canonical kind.Value where
  ofText?_eq_some_iff := by
    intro text key
    change ((intOfChars? text.toList).bind kind.value?).filter _ = some key ↔ text = intText key.val
    rw [Option.filter_eq_some_iff, decide_eq_true_eq]
    constructor
    · rintro ⟨-, htext⟩
      exact htext.symm
    · rintro rfl
      refine ⟨?_, rfl⟩
      rw [intOfChars?_intText, Option.bind_some]
      exact IntegerKind.value?_eq_some_iff.mpr rfl

/-! ### Keys in paths -/

variable {α : Type} [ObjectKey α]

/-- A step to a key is read back from the text of its path. -/
theorem parse_text_key (key : α) :
    Path.parse (Path.root.child (.key (text key))).text = .ok (Path.root.child (.key (text key))) := by
  apply Path.parse_text
  · intro step hstep
    rw [List.mem_singleton.mp hstep]
    trivial
  · intro step hstep
    rw [List.mem_singleton.mp hstep]
    trivial

def last? (α : Type) [ObjectKey α] (path : Path) : Option α :=
  (path.getLast?.bind Step.entryKey?).bind ofText?

/-- Each key has one text, and it is also read back from the last step of the path that is read from the
text of a path to it. -/
structure RoundTrips (α : Type) [ObjectKey α] : Prop extends Canonical α where
  last?_parse : ∀ key : α, ∃ path, Path.parse (Path.root.child (.key (text key))).text = .ok path ∧
    last? α path = some key

/-- **A key is read back from its text**, and from the last step of a path to it. -/
theorem roundTrips [Canonical α] : RoundTrips α where
  last?_parse := by
    intro key
    refine ⟨_, parse_text_key key, ?_⟩
    exact Canonical.ofText?_eq_some_iff.mpr rfl

/-- **Keys of every type have one text each**, whether they are integers of some width, characters, strings
or booleans. -/
theorem roundTrips_all :
    (∀ kind : IntegerKind, RoundTrips kind.Value) ∧ RoundTrips Char ∧ RoundTrips String ∧
      RoundTrips Bool := by
  refine ⟨?_, roundTrips, roundTrips, roundTrips⟩
  intro kind
  exact roundTrips

/-- Texts of one, of minus zero and of an integer that is too large, and the only text of seven. -/
example : ["+1", "01", "-0", "256", "7"].map (fun text => (ofText? text : Option IntegerKind.u8.Value)) =
    [none, none, none, none, some ⟨7, by decide⟩] := by
  decide

end JsonEdit.ObjectKey
