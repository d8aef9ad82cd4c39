import JsonEdit.Json.Printer
import JsonEdit.Patch.Apply
import JsonEdit.Patch.Diff
import JsonEdit.Patch.Document

/-!
# Patches as texts

The two jobs of the command line: the text of the patch between two texts, and the text of a document
after a patch that is given as a text. What cannot be read is reported, the document before the patch.
-/

namespace JsonEdit

namespace Patch

/-- The text of the patch that makes one document of another. -/
def textBetween (source target : String) : Except Fault String := do
  let source ← Json.ofText source
  let target ← Json.ofText target
  return (Patch.between source target).toJson.indentedText

/-- The text of a document after a patch. -/
def applyText (mode : PatchMode) (document patch : String) : Except Fault String := do
  let document ← Json.ofText document
  let patch ← Patch.ofJson (← Json.ofText patch)
  return (← patch.apply mode document).compactText

end Patch

/-- The mode that an argument names; without one it is strict. -/
def PatchMode.ofArgument : Option String → Except Fault PatchMode
  | none => .ok .strict
  | some name => PatchMode.ofName name

end JsonEdit
