import JsonEdit.Proofs.Patch.Lasting
import JsonEdit.Proofs.Patch.Plain

/-!
# Plain operations keep trees tidy

Sums are written without an exponent, so a tree that is tidy stays tidy under patches that carry tidy
trees. The difference of two trees carries clean ones, and it has no nested patch whose paths could lead
to keys.
-/

namespace JsonEdit

def Json.TidyPart : Json → Prop
  | .number value => value.normal = value
  | .object entries => Entries.Distinct entries
  | _ => True

theorem Json.lasting_tidyPart : Lasting TidyPart where
  array _ := trivial
  string _ := trivial
  object := Iff.rfl
  sum hsum := by
    obtain ⟨_, _, decimal, -, -, -, rfl⟩ := Number.add?_eq_some_iff.mp hsum
    exact (rfl : decimal.toNumber.normal = decimal.toNumber)

namespace Operation

variable {bound height : Nat} {mode : PatchMode}

mutual

theorem Plain.every : {operation : Operation} → {height : Nat} → operation.Plain bound height →
    operation.Every (.lasting Json.TidyPart)
  | .set _, _, hplain => hplain.1.1
  | .addNumber _, _, _ => trivial
  | .editString _, _, _ => fun edit _ => by cases edit <;> simp [StringEdit.Every, PatchParts.lasting]
  | .editArray _, _, hplain => PlainArrayEdits.every hplain.2
  | .editObject _, _, hplain => PlainObjectEdits.every hplain.2

theorem PlainArrayEdits.every : {edits : List (SequenceEdit Json Operation)} → {height : Nat} →
    PlainArrayEdits bound height edits → EveryArrayEdits (.lasting Json.TidyPart) edits
  | [], _, _ => trivial
  | .insert _ _ :: _, _, hplain =>
      ⟨⟨trivial, fun value hvalue => (hplain.1.2 value hvalue).1.1⟩, PlainArrayEdits.every hplain.2⟩
  | .append _ :: _, _, hplain =>
      ⟨fun value hvalue => (hplain.1 value hvalue).1.1, PlainArrayEdits.every hplain.2⟩
  | .delete _ _ :: _, _, hplain => ⟨⟨trivial, trivial⟩, PlainArrayEdits.every hplain.2⟩
  | .modify _ _ :: _, _, hplain =>
      ⟨⟨trivial, Plain.every hplain.1.2⟩, PlainArrayEdits.every hplain.2⟩

theorem PlainObjectEdits.every : {edits : List (MapEdit String Json Operation)} → {height : Nat} →
    PlainObjectEdits bound height edits → EveryObjectEdits (.lasting Json.TidyPart) edits
  | [], _, _ => trivial
  | .add _ _ :: _, _, hplain => ⟨hplain.1.1.1, PlainObjectEdits.every hplain.2⟩
  | .remove _ :: _, _, hplain => ⟨trivial, PlainObjectEdits.every hplain.2⟩
  | .modify _ _ :: _, _, hplain => ⟨Plain.every hplain.1, PlainObjectEdits.every hplain.2⟩

end

theorem tidy_apply (operation : Operation) (hplain : operation.Plain bound height) (path : Path)
    {value result : Json} (hvalue : value.Tidy)
    (happly : apply mode path operation value = .ok result) : result.Tidy :=
  every_apply Json.lasting_tidyPart operation hplain.every path hvalue result happly

end Operation

end JsonEdit
