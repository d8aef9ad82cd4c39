import JsonEdit.Patch.Text
import JsonEdit.Proofs.Json.Parsed
import JsonEdit.Proofs.Patch.Tidy

/-!
# Patches as texts

What the first job writes, the second one reads, unless the reader has to refuse it. It refuses a text
with more than 127 lists and objects open at once, and the document of a difference is deeper than the
two trees. And it takes an object that begins with a certain key for a number, so a result that has
such an object can be written but not read. Nothing else goes wrong, and nothing is changed on the way.
-/

namespace JsonEdit

namespace Patch

variable {source target : Json} (options : DiffOptions)

/-! ### The document of a difference -/

theorem plain_between (hsource : source.Within (2 ^ 64)) (htarget : target.Within (2 ^ 64))
    (hclean : target.Clean) : between source target options = [] ∨
      ∃ operation : Operation, operation.Plain (2 ^ 64) target.depth ∧
        between source target options = [(Path.root, operation)] := by
  unfold between
  split
  · rename_i operation hoperation
    exact .inr ⟨operation, Operation.plain_between? options source target operation target.depth
      hoperation hsource htarget ⟨hclean, Nat.le_refl _⟩, rfl⟩
  · exact .inl rfl

/-- Every difference can be stored. -/
theorem storable_between (hsource : source.Within (2 ^ 64)) (htarget : target.Within (2 ^ 64))
    (hclean : target.Clean) : Operation.StorablePatch (between source target options) := by
  rcases plain_between options hsource htarget hclean with hnil | ⟨operation, hplain, hsingle⟩
  · rw [hnil]
    trivial
  · rw [hsingle]
    exact ⟨.inl rfl, Operation.storable_of_plain operation hplain, trivial⟩

/-- The document of a difference is clean, and three times as deep as the second tree at most, with four
levels more. -/
theorem cleanTo_toJson_between (hsource : source.Within (2 ^ 64)) (htarget : target.Within (2 ^ 64))
    (hclean : target.Clean) :
    (between source target options).toJson.CleanTo (3 * target.depth + 4) := by
  refine Json.cleanTo_array.mpr ?_
  rcases plain_between options hsource htarget hclean with hnil | ⟨operation, hplain, hsingle⟩
  · rw [hnil]
    exact fun document hdocument => by cases hdocument
  · rw [hsingle]
    exact List.forall_mem_singleton.mpr (Operation.cleanTo_toJson operation hplain)

/-- A difference leaves tidy trees tidy. -/
theorem tidy_apply_between (hsource : source.Within (2 ^ 64)) (htarget : target.Within (2 ^ 64))
    (hclean : target.Clean) {tree result : Json} (htree : tree.Tidy)
    (happly : (between source target options).apply .strict tree = .ok result) : result.Tidy := by
  rcases plain_between options hsource htarget hclean with hnil | ⟨operation, hplain, hsingle⟩
  · rw [hnil] at happly
    cases happly
    exact htree
  · rw [hsingle, apply, Operation.applyPatch_root] at happly
    exact Operation.tidy_apply operation hplain Path.root htree happly

/-! ### The two jobs -/

theorem textBetween_eq {s t : String} (hsource : Json.parse s = .ok source)
    (htarget : Json.parse t = .ok target) :
    textBetween s t = .ok (between source target).toJson.indentedText := by
  rw [textBetween, Json.ofText, Json.ofText, hsource, htarget]
  rfl

/-- A patch is carried out like its text, if the text is read back. -/
theorem applyText_indentedText (mode : PatchMode) {s : String} (hsource : Json.parse s = .ok source)
    {patch : Patch} (hstorable : Operation.StorablePatch patch) (hclean : patch.toJson.Clean)
    (hdepth : patch.toJson.depth ≤ Reader.depthLimit) :
    applyText mode s patch.toJson.indentedText = (patch.apply mode source).map Json.compactText := by
  rw [applyText, Json.ofText, Json.ofText, Json.indentedText, hsource,
    hclean.parse_toText .indented hdepth]
  simp only [Except.mapError, bind, Except.bind, ofJson_toJson hstorable]
  cases patch.apply mode source <;> rfl

/-- A patch whose document is too deep is refused. -/
theorem exists_applyText_eq_error (mode : PatchMode) (s : String) {patch : Patch}
    (hclean : patch.toJson.Clean) (hdepth : Reader.depthLimit < patch.toJson.depth) :
    ∃ fault, applyText mode s patch.toJson.indentedText = .error fault := by
  have hnot : ¬patch.toJson.Legible 0 := fun hlegible => by
    have hle := hlegible.2
    omega
  obtain ⟨error, herror⟩ := Json.exists_parse_toText_eq_error .indented hclean.1.keyed
    hclean.2.guarded hnot
  rw [applyText, Json.ofText, Json.ofText, Json.indentedText, herror]
  cases Json.parse s <;> exact ⟨_, rfl⟩

/-- **The two jobs are inverse as far as texts can be read.** There is always a patch. It is carried out
if and only if its document is not too deep, and then what is written equals the second tree. That text
is read back as it was written if and only if no object in it begins with the key that stands for a
number, which none does if the second tree does not have this key. The document is at most about three
times as deep as the second tree. -/
theorem applyText_textBetween {s t : String} (hsource : Json.parse s = .ok source)
    (htarget : Json.parse t = .ok target) (hs : s.length < 2 ^ 64) (ht : t.length < 2 ^ 64) :
    ∃ patch, textBetween s t = .ok patch ∧
      (between source target).toJson.depth ≤ 3 * target.depth + 4 ∧
      ((between source target).toJson.depth ≤ Reader.depthLimit →
        ∃ result, applyText .strict s patch = .ok result.compactText ∧ result == target ∧
          (result.Unmarked → Json.parse result.compactText = .ok result) ∧
          (¬result.Unmarked → ∃ error, Json.parse result.compactText = .error error) ∧
          (target.Markless → result.Unmarked)) ∧
      (Reader.depthLimit < (between source target).toJson.depth →
        ∃ fault, applyText .strict s patch = .error fault) := by
  obtain ⟨hsourceTidy, -, hsourceWithin⟩ := Json.sound_of_parse hsource
  obtain ⟨htargetTidy, htargetLegible, htargetWithin⟩ := Json.sound_of_parse htarget
  have hsourceWithin := hsourceWithin.mono hs
  have htargetWithin := htargetWithin.mono ht
  have htargetClean : target.Clean := ⟨htargetTidy, htargetLegible.1⟩
  obtain ⟨hclean, hbound⟩ := cleanTo_toJson_between {} hsourceWithin htargetWithin htargetClean
  refine ⟨_, textBetween_eq hsource htarget, hbound, fun hdepth => ?_, fun hdepth => ?_⟩
  · have hstorable := storable_between {} hsourceWithin htargetWithin htargetClean
    obtain ⟨result, happly, hequal⟩ :=
      (gives_between source target source {} (BEq.refl source)).exists_ok
        (Operation.fits_self {} source target)
    have htidy := tidy_apply_between {} hsourceWithin htargetWithin htargetClean hsourceTidy happly
    refine ⟨result, ?_, hequal, fun hunmarked => ?_, fun hmarked => ?_,
      Json.unmarked_of_beq hequal htidy.keyed⟩
    · rw [applyText_indentedText .strict hsource hstorable hclean hdepth, happly]
      rfl
    · have hle := Json.depth_le_of_beq hequal htidy.keyed
      have hlimit := htargetLegible.2
      exact Json.Clean.parse_toText ⟨htidy, hunmarked⟩ .compact (by omega)
    · exact Json.exists_parse_toText_eq_error .compact htidy.keyed
        (Json.guarded_of_beq hequal htidy.keyed htargetLegible.1) fun hlegible => hmarked hlegible.1
  · exact exists_applyText_eq_error .strict s hclean hdepth

/-- Of three entries one goes, one comes and two change: an array into another one, element by element,
and a boolean into an array. -/
theorem applyText_textBetween_edits :
    let s := "\x7b\"k\":[1,\"xyz\"],\"m\":null,\"n\":false\x7d"
    let t := "\x7b\"n\":[],\"k\":[2,\"xz\",[]],\"o\":\"\"\x7d"
    ∃ source target, Json.parse s = .ok source ∧ Json.parse t = .ok target ∧
      ∃ patch, textBetween s t = .ok patch ∧
        ∃ result : Json, applyText .strict s patch = .ok result.compactText ∧ result == target ∧
          Json.parse result.compactText = .ok result := by
  intro s t
  let source : Json := .object [("k", .array [.number { whole := 1 }, .string "xyz"]), ("m", .null),
    ("n", .bool false)]
  let target : Json := .object [("n", .array []),
    ("k", .array [.number { whole := 2 }, .string "xz", .array []]), ("o", .string "")]
  have hsourceClean : source.Clean := by
    simp [source, Json.Clean, Json.Tidy, Json.Unmarked, Json.Every, Json.EveryEntry, Json.EveryItem,
      Entries.Distinct, Reader.numberKey]
    rfl
  have htargetClean : target.Clean := by
    simp [target, Json.Clean, Json.Tidy, Json.Unmarked, Json.Every, Json.EveryEntry, Json.EveryItem,
      Entries.Distinct, Reader.numberKey]
    rfl
  have hmarkless : target.Markless := by
    simp [target, Json.Markless, Json.Every, Json.EveryEntry, Json.EveryItem, Reader.numberKey]
  have hs : source.compactText = s := by decide +kernel
  have ht : target.compactText = t := by decide +kernel
  have hsource : Json.parse s = .ok source := hs ▸ hsourceClean.parse_toText .compact (by decide)
  have htarget : Json.parse t = .ok target := ht ▸ htargetClean.parse_toText .compact (by decide)
  obtain ⟨patch, hpatch, hdepth, hshallow, -⟩ :=
    applyText_textBetween hsource htarget (by decide) (by decide)
  obtain ⟨result, hresult, hequal, hread, -, hunmarked⟩ := hshallow (hdepth.trans (by decide))
  exact ⟨source, target, hsource, htarget, patch, hpatch, result, hresult, hequal,
    hread (hunmarked hmarkless)⟩

/-! ### A document that is too deep -/

theorem depth_nested (n : Nat) : ((fun tree => Json.array [tree])^[n] .null).depth = n := by
  induction n with
  | zero => rfl
  | succ n ih =>
      rw [Function.iterate_succ_apply', Json.depth, Json.itemsDepth, Json.itemsDepth, ih, Nat.max_zero]

theorem clean_nested (n : Nat) : ((fun tree => Json.array [tree])^[n] .null).Clean := by
  induction n with
  | zero => exact ⟨trivial, trivial⟩
  | succ n ih =>
      rw [Function.iterate_succ_apply']
      exact Json.clean_array.mpr (List.forall_mem_singleton.mpr ih)

/-- A difference that sets an array of 126 levels is stored at 128 levels. -/
theorem not_forall_applyText_textBetween :
    ¬∀ (s t : String) (source target : Json), Json.parse s = .ok source → Json.parse t = .ok target →
      ∃ patch output tree, textBetween s t = .ok patch ∧ applyText .strict s patch = .ok output ∧
        Json.parse output = .ok tree ∧ tree == target := by
  intro hall
  obtain ⟨deep, hdepth, hclean, hkind⟩ :
      ∃ deep : Json, deep.depth = 126 ∧ deep.Clean ∧ deep.kind = .array :=
    ⟨_, depth_nested 126, clean_nested 126, by rw [Function.iterate_succ_apply']; rfl⟩
  have hsource : Json.parse "null" = .ok .null := by cbv
  have htarget : Json.parse deep.compactText = .ok deep :=
    hclean.parse_toText .compact (hdepth.trans_le (by decide))
  obtain ⟨patch, output, tree, hpatch, houtput, -⟩ :=
    hall "null" deep.compactText .null deep hsource htarget
  have hbetween : between .null deep = [(Path.root, .set deep)] := by
    have hne : Json.null.kind ≠ deep.kind := by
      rw [hkind]
      decide
    rw [between, Operation.between?_of_kind_ne {} hne]
  have hdocument : (between .null deep).toJson.Clean := by
    rw [hbetween]
    exact Json.clean_array.mpr (List.forall_mem_singleton.mpr
      (Operation.cleanTo_described_one (by decide) ⟨hclean, Nat.le_refl _⟩).1)
  have htooDeep : Reader.depthLimit < (between .null deep).toJson.depth := by
    rw [hbetween]
    refine Nat.lt_of_not_le fun hle => ?_
    have hstep := Json.depth_array_le_iff.mp hle _ List.mem_cons_self
    have hvalue : deep.depth ≤ 125 :=
      Json.depth_object_le_iff.mp hstep ("value", deep) (by simp [Operation.fields])
    omega
  rw [textBetween_eq hsource htarget] at hpatch
  cases hpatch
  obtain ⟨fault, hfault⟩ := exists_applyText_eq_error .strict "null" hdocument htooDeep
  rw [hfault] at houtput
  cases houtput

/-! ### A key that stands for a number -/

theorem between_exchanged {gone kept new : String} (hgone : gone ≠ kept) (hnew : new ≠ kept)
    (hne : gone ≠ new) :
    between (.object [(gone, .null), (kept, .null)]) (.object [(new, .null), (kept, .null)]) =
      [(Path.root, .editObject [.remove gone, .add new .null])] := by
  have hunequal : (Json.object [(gone, .null), (kept, .null)] ==
      .object [(new, .null), (kept, .null)]) = false := by
    refine Bool.eq_false_iff.mpr fun hequal => ?_
    have hkey := Json.object_beq_iff.mp hequal gone
    simp [Entries.find?_cons, hne.symm, hgone.symm] at hkey
  have hnull : Operation.between? {} .null .null = none :=
    Operation.between?_eq_none_of_beq {} (BEq.refl Json.null)
  rw [between, Operation.between?, hunequal]
  simp [Operation.betweenObjects, Operation.entryChanges, hnull, Entries.firsts, Entries.erase,
    Entries.has, Entries.find?_cons, hgone, hnew, hne, hgone.symm, hnew.symm, hne.symm]

/-- Between documents that are not deep either. The key is the second one in both trees, and the first one
in the result, where the entry in front of it is gone and the new one comes last. -/
theorem not_forall_applyText_textBetween_shallow :
    ¬∀ (s t : String) (source target : Json), Json.parse s = .ok source → Json.parse t = .ok target →
      (between source target).toJson.depth ≤ Reader.depthLimit →
      ∃ patch output tree, textBetween s t = .ok patch ∧ applyText .strict s patch = .ok output ∧
        Json.parse output = .ok tree ∧ tree == target := by
  intro hall
  let source : Json := .object [("a", .null), (Reader.numberKey, .null)]
  let target : Json := .object [("b", .null), (Reader.numberKey, .null)]
  let result : Json := .object [(Reader.numberKey, .null), ("b", .null)]
  have hsourceClean : source.Clean := by
    simp [source, Json.Clean, Json.Tidy, Json.Unmarked, Json.Every, Json.EveryEntry, Entries.Distinct,
      Reader.numberKey]
  have htargetClean : target.Clean := by
    simp [target, Json.Clean, Json.Tidy, Json.Unmarked, Json.Every, Json.EveryEntry, Entries.Distinct,
      Reader.numberKey]
  have hsourceWithin : source.Within (2 ^ 64) := by
    simp [source, Json.Within, Json.Every, Json.EveryEntry]
  have htargetWithin : target.Within (2 ^ 64) := by
    simp [target, Json.Within, Json.Every, Json.EveryEntry]
  have hbetween : between source target =
      [(Path.root, .editObject [.remove "a", .add "b" .null])] :=
    between_exchanged (by decide) (by decide) (by decide)
  have hkeyed : result.Keyed := by
    simp [result, Json.Keyed, Json.Every, Json.EveryEntry, Entries.Distinct, Reader.numberKey]
  have hguarded : result.Guarded := by
    simp [result, Json.Guarded, Json.Every, Json.EveryEntry]
  have hmarked : ¬result.Legible 0 := by
    simp [result, Json.Legible, Json.Unmarked, Json.Every, Json.EveryEntry]
  have hsource : Json.parse source.compactText = .ok source :=
    hsourceClean.parse_toText .compact (by decide)
  have htarget : Json.parse target.compactText = .ok target :=
    htargetClean.parse_toText .compact (by decide)
  obtain ⟨hclean, hbound⟩ := cleanTo_toJson_between {} hsourceWithin htargetWithin htargetClean
  have hdepth : (between source target).toJson.depth ≤ Reader.depthLimit := hbound.trans (by decide)
  obtain ⟨patch, output, tree, hpatch, houtput, hread, -⟩ := hall _ _ source target hsource htarget hdepth
  rw [textBetween_eq hsource htarget] at hpatch
  cases hpatch
  have hstorable := storable_between {} hsourceWithin htargetWithin htargetClean
  have happly : (between source target).apply .strict source = .ok result := by
    rw [hbetween]
    rfl
  rw [applyText_indentedText .strict hsource hstorable hclean hdepth, happly] at houtput
  cases houtput
  obtain ⟨error, herror⟩ := Json.exists_parse_toText_eq_error .compact hkeyed hguarded hmarked
  cases herror.symm.trans hread

end Patch

end JsonEdit
