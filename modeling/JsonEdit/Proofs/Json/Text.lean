import JsonEdit.Proofs.Json.Parsed

/-!
# The texts of a tree

Both texts of a tree are read as the same tree: the one that was written, with the exponents of its
numbers in their normal form. Nothing else is lost on the way, and neither is the value of a number.

A tree that was read has normal exponents already, repeats no key and is not too deep to be read again.
So it is read from both of its texts as it is.
-/

namespace JsonEdit

theorem Exponent.value_normal (exponent : Exponent) : exponent.normal.value = exponent.value := by
  match hsign : exponent.sign with
  | some .minus | some .plus | none => simp [normal, value, hsign]

theorem Scientific.boundedExponent_normal (exponent : Exponent) :
    boundedExponent exponent.normal = boundedExponent exponent := by
  match hsign : exponent.sign with
  | some .minus | some .plus | none =>
      rw [boundedExponent, boundedExponent, Exponent.value_normal]
      simp [Exponent.normal, hsign]

/-- The mark of an exponent and a plus sign in front of it do not change what a number is equal to. -/
theorem Number.scientific_normal (number : Number) :
    number.normal.scientific = number.scientific := by
  have hexponents : number.normal.exponent.map Scientific.boundedExponent =
      number.exponent.map Scientific.boundedExponent := by
    rw [normal, Option.map_map]
    exact congrArg (Option.map · number.exponent) (funext Scientific.boundedExponent_normal)
  rw [scientific, scientific, Scientific.ofNumber, Scientific.ofNumber, hexponents]
  rfl

namespace Json

/-- Exponents in another form write the same data. -/
theorem canonical_normal (value : Json) : value.normal.canonical = value.canonical := by
  induction value using Json.induct with
  | array items ih =>
      rw [normal_array, canonical_array, canonical_array, List.map_map]
      exact congrArg Canonical.array (List.map_congr_left ih)
  | object entries ih =>
      rw [normal_object, canonical_object, canonical_object, List.map_map]
      refine congrArg Canonical.ofEntries (List.map_congr_left ?_)
      intro entry hentry
      exact congrArg (Prod.mk entry.1) (ih entry hentry)
  | number value => exact congrArg Canonical.number (Number.scientific_normal value)
  | null | bool value | string value => rfl

/-- **Both texts of a tree are read back,** with the exponents of its numbers in normal form, and so as
a tree that is equal to it. -/
theorem parse_texts {value : Json} (hkeyed : value.Keyed) (hdepth : value.depth ≤ Reader.depthLimit)
    (hunmarked : value.Unmarked) :
    parse value.compactText = .ok value.normal ∧ parse value.indentedText = .ok value.normal ∧
      value.normal == value := by
  have hlegible : value.Legible 0 := ⟨hunmarked, by rwa [Nat.zero_add]⟩
  exact ⟨parse_toText .compact hkeyed hlegible, parse_toText .indented hkeyed hlegible,
    beq_iff.mpr (canonical_normal value)⟩

/-- An object with a key that is quoted, an empty list and a number with a large mark. -/
theorem parse_texts_nested :
    let large : Number := { whole := 1, exponent := some ⟨true, none, [0, 7], by decide⟩ }
    let small : Number := { whole := 1, exponent := some ⟨false, some .plus, [0, 7], by decide⟩ }
    let value : Json := .object [("z\n\"", .array [.number large, .array []]), ("a", .string "é")]
    let result : Json := .object [("z\n\"", .array [.number small, .array []]), ("a", .string "é")]
    value.Keyed ∧ value.depth ≤ Reader.depthLimit ∧ value.Unmarked ∧
      parse value.compactText = .ok result ∧ parse value.indentedText = .ok result ∧
      result == value := by
  intro large small value result
  have hkeyed : value.Keyed := by
    simp [value, Keyed, Every, EveryItem, EveryEntry, Entries.Distinct]
  have hdepth : value.depth ≤ Reader.depthLimit := by decide
  have hunmarked : value.Unmarked := by
    simp [value, Unmarked, Every, EveryItem, EveryEntry, Reader.numberKey]
  exact ⟨hkeyed, hdepth, hunmarked, parse_texts hkeyed hdepth hunmarked⟩

/-! ### Trees that were read -/

/-- **Printing is a normal form of reading.** Every tree that is read from some text is tidy and not too
deep, and both of its texts are read as just this tree. -/
theorem parse_texts_of_parse {text : String} {value : Json} (hparse : parse text = .ok value) :
    value.Tidy ∧ value.depth ≤ 127 ∧ parse value.compactText = .ok value ∧
      parse value.indentedText = .ok value := by
  obtain ⟨htidy, ⟨hunmarked, hdepth⟩, -⟩ := sound_of_parse hparse
  rw [Nat.zero_add] at hdepth
  have hclean : value.Clean := ⟨htidy, hunmarked⟩
  exact ⟨htidy, hdepth, hclean.parse_toText .compact hdepth, hclean.parse_toText .indented hdepth⟩

/-- A repeated key outside and inside, a surrogate without a partner, and an exponent. -/
theorem parse_texts_of_parse_repeated :
    ∃ value, parse "\x7b\"b\": 0, \"c\": \"\\ud83d\", \"b\": [\x7b\"k\": 1, \"k\": 4E07\x7d]\x7d" = .ok value ∧
      value.compactText = "\x7b\"b\":[\x7b\"k\":4e+07\x7d],\"c\":\"\uFFFD\"\x7d" ∧
        value.Tidy ∧ value.depth ≤ 127 ∧ parse value.compactText = .ok value ∧
          parse value.indentedText = .ok value := by
  have hread :
      (parse "\x7b\"b\": 0, \"c\": \"\\ud83d\", \"b\": [\x7b\"k\": 1, \"k\": 4E07\x7d]\x7d").toOption.map
        compactText = some "\x7b\"b\":[\x7b\"k\":4e+07\x7d],\"c\":\"\uFFFD\"\x7d" := by decide +kernel
  obtain ⟨value, hvalue, htext⟩ := Option.map_eq_some_iff.mp hread
  have hparse := toOption_eq_some_iff.mp hvalue
  exact ⟨value, hparse, htext, parse_texts_of_parse hparse⟩

end Json

end JsonEdit
