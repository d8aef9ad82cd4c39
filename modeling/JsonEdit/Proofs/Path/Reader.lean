import JsonEdit.Proofs.Path.Quoted

/-!
# The reader takes what the grammar spells

Each reader takes a part of the text exactly if the grammar spells that part, provided that no character
of a name follows. From the readers of names, positions and quoted strings this passes on to steps and
to whole paths.
-/

namespace JsonEdit

namespace Path

/-! ### Readers and what they read -/

def Ends (chars : List Char) : Prop := ∀ c ∈ chars.head?, isNameChar c = false

/-- The reader takes exactly what is spelled: it takes all of it where no character of a name follows,
and what it takes is spelled. -/
structure Exact {α : Type} (spelled : α → List Char → Prop) (read : List Char → Read α) : Prop where
  complete {value : α} {front rest : List Char} (hfront : spelled value front) (hrest : Ends rest) :
    read (front ++ rest) = .ok (value, rest)
  sound {value : α} {chars rest : List Char} (hread : read chars = .ok (value, rest)) :
    ∃ front, spelled value front ∧ chars = front ++ rest

/-- The table of letters and digits begins behind ASCII. -/
theorem isAlphanumeric_of_ascii {c : Char} (hascii : c.toNat < 0x80) :
    Text.isAlphanumeric c = c.isAlphanum := by
  have hfirsts : (Text.alphanumericBlocks.all fun block => Nat.ble 0x80 block.1) = true := by
    decide +kernel
  have hblocks : Text.alphanumericBlocks.contains c = false := by
    refine List.any_eq_false.mpr fun block hblock => ?_
    have hfirst := Nat.le_of_ble_eq_true (List.all_eq_true.mp hfirsts block hblock)
    simp only [Bool.and_eq_true, decide_eq_true_eq, not_and, not_le]
    omega
  rw [Text.isAlphanumeric, hblocks, Bool.or_false]

def marks : List Char := ['"', '.', '[', ']', '\x7b', '\x7d', ',']

/-- No mark is a character of a name. -/
theorem isNameChar_of_mark {c : Char} (hc : c ∈ marks) : isNameChar c = false := by
  simp only [marks, List.mem_cons, List.not_mem_nil, or_false] at hc
  rcases hc with rfl | rfl | rfl | rfl | rfl | rfl | rfl
  all_goals
    rw [isNameChar, isAlphanumeric_of_ascii (by decide)]
    rfl

theorem ends_cons_of_mark {c : Char} (hc : c ∈ marks)
    (rest : List Char) : Ends (c :: rest) := by
  rintro _ ⟨⟩
  exact isNameChar_of_mark hc

theorem isNameChar_of_isDigit {c : Char} (hc : c.isDigit) : isNameChar c := by
  rw [isNameChar, Text.isAlphanumeric, Char.isAlphanum, hc, Bool.or_true]
  rfl

/-- A run of characters of one kind ends where another character stands, or at the end. -/
theorem span_append {p : Char → Bool} {token rest : List Char} (htoken : ∀ c ∈ token, p c)
    (hrest : ∀ c ∈ rest.head?, p c = false) :
    (token ++ rest).takeWhile p = token ∧ (token ++ rest).dropWhile p = rest := by
  rw [List.takeWhile_append_of_pos htoken, List.dropWhile_append_of_pos htoken]
  cases rest with
  | nil => exact ⟨List.append_nil _, rfl⟩
  | cons c rest =>
      have hc : ¬p c = true := by simpa using hrest c rfl
      rw [List.takeWhile_cons_of_neg hc, List.dropWhile_cons_of_neg hc, List.append_nil]
      exact ⟨rfl, rfl⟩

theorem positionOfDigits_eq (digits : List Char) :
    positionOfDigits digits = Nat.ofDigitChars 10 digits 0 := by
  simp only [positionOfDigits, Nat.ofDigitChars, Nat.mul_comm _ 10]

theorem exact_readPosition : Exact PositionSpelled readPosition where
  complete := by
    rintro position front rest ⟨hne, hdigits, hvalue, hbound⟩ hrest
    have hnondigit : ∀ c ∈ rest.head?, c.isDigit = false := fun c hc =>
      Bool.eq_false_iff.mpr fun hdigit => by
        have hname := hrest c hc
        rw [isNameChar_of_isDigit hdigit] at hname
        cases hname
    obtain ⟨htake, hdrop⟩ := span_append hdigits hnondigit
    have hbound' : ¬positionBound ≤ position := Nat.not_le.mpr hbound
    rw [readPosition]
    simp only [htake, hdrop, positionOfDigits_eq, hvalue, List.isEmpty_eq_false_iff.mpr hne, hbound',
      decide_false, Bool.or_self, Bool.false_eq_true, if_false]
  sound := by
    intro position chars rest hread
    simp only [readPosition] at hread
    split at hread
    · cases hread
    · rename_i hfits
      simp only [Bool.or_eq_true, decide_eq_true_eq, not_or] at hfits
      obtain ⟨hsome, hbound⟩ := hfits
      cases hread
      refine ⟨chars.takeWhile Char.isDigit, ⟨?_, ?_, ?_, Nat.not_le.mp hbound⟩, ?_⟩
      · simpa using hsome
      · exact fun c hc => List.all_eq_true.mp List.all_takeWhile c hc
      · rw [positionOfDigits_eq]
      · exact List.takeWhile_append_dropWhile.symm

theorem expect_eq_ok_iff {wanted : Char} {chars rest : List Char} :
    expect wanted chars = .ok rest ↔ chars = wanted :: rest := by
  cases chars with
  | nil => simp [expect]
  | cons found tail =>
      rw [expect]
      split
      · rename_i hfound
        simp [hfound]
      · rename_i hfound
        simp [hfound]

theorem exact_readQuoted : Exact (QuotedSpelled escapedUnit?) readQuoted where
  complete := by
    rintro name front rest ⟨pieces, body, hbody, rfl, rfl⟩ -
    rw [List.cons_append, List.cons_append, List.append_assoc, List.singleton_append, readQuoted,
      expect, if_pos rfl]
    exact readQuotedBody_row hbody [] rest
  sound := by
    intro name chars rest hread
    unfold readQuoted at hread
    split at hread
    · cases hread
    · rename_i hexpect
      obtain ⟨pieces, body, hbody, rfl, rfl⟩ := row_of_readQuotedBody hread
      rw [expect_eq_ok_iff.mp hexpect]
      exact ⟨_, ⟨pieces, body, hbody, rfl, rfl⟩, by simp⟩

theorem readName_quote (rest : List Char) : readName ('"' :: rest) = readQuoted ('"' :: rest) := by
  rw [readName, readQuoted, expect, if_pos rfl]

theorem readName_plain {chars : List Char} (hquote : chars.head? ≠ some '"') :
    readName chars =
      if (chars.takeWhile isNameChar).isEmpty then .error ⟨.emptyField, chars⟩
      else .ok (String.ofList (chars.takeWhile isNameChar), chars.dropWhile isNameChar) := by
  rw [readName]
  rintro rest rfl
  exact hquote rfl

theorem exact_readName : Exact (NameSpelled escapedUnit?) readName where
  complete := by
    intro name front rest hfront hrest
    cases hfront with
    | plain hname hchars =>
        obtain ⟨htake, hdrop⟩ := span_append hchars hrest
        have hne : name.toList ≠ [] := by simpa using hname
        have hquote : (name.toList ++ rest).head? ≠ some '"' := by
          rw [List.head?_append_of_ne_nil _ hne]
          intro hhead
          have hmark := hchars _ (List.mem_of_mem_head? hhead)
          rw [isNameChar_of_mark (by decide)] at hmark
          cases hmark
        rw [readName_plain hquote, htake, hdrop, if_neg (by simpa using hne), String.ofList_toList]
    | quoted hname =>
        have hread := exact_readQuoted.complete hname hrest
        obtain ⟨pieces, body, -, rfl, -⟩ := hname
        rwa [List.cons_append, List.cons_append, ← readName_quote] at hread
  sound := by
    intro name chars rest hread
    by_cases hquote : chars.head? = some '"'
    · obtain ⟨tail, rfl⟩ := List.head?_eq_some_iff.mp hquote
      rw [readName_quote] at hread
      obtain ⟨front, hfront, hchars⟩ := exact_readQuoted.sound hread
      exact ⟨front, .quoted hfront, hchars⟩
    · rw [readName_plain hquote] at hread
      split at hread
      · cases hread
      · rename_i hsome
        cases hread
        have hname : String.ofList (chars.takeWhile isNameChar) ≠ "" := by simpa using hsome
        refine ⟨_, .plain hname ?_, ?_⟩
        · rw [String.toList_ofList]
          exact fun c hc => List.all_eq_true.mp List.all_takeWhile c hc
        · rw [String.toList_ofList, List.takeWhile_append_dropWhile]

section Separated

variable {α : Type} {spelled : α → List Char → Prop} {item : List Char → Read α}
  {consumes : Consumes item} {close : Char} {chars rest after : List Char} {value : α}
  {values : List α}

theorem readSeparated_last (hitem : item chars = .ok (value, close :: rest)) :
    readSeparated item consumes close chars = .ok ([value], rest) := by
  rw [readSeparated]
  split
  all_goals
    rename_i heq
    rw [hitem] at heq
    cases heq
  rw [if_pos rfl]

theorem readSeparated_next (hclose : close ≠ ',') (hitem : item chars = .ok (value, ',' :: rest))
    (hothers : readSeparated item consumes close rest = .ok (values, after)) :
    readSeparated item consumes close chars = .ok (value :: values, after) := by
  rw [readSeparated]
  split
  all_goals
    rename_i heq
    rw [hitem] at heq
    cases heq
  rw [if_neg (Ne.symm hclose), if_pos rfl, hothers]

/-- If each item is taken as it is spelled, so are items with commas between them. -/
theorem exact_readSeparated (consumes : Consumes item) (hitem : Exact spelled item)
    (hclose : close ∈ [']', '\x7d']) :
    Exact (fun values chars => ∃ body, Separated spelled values body ∧ chars = body ++ [close])
      (readSeparated item consumes close) where
  complete := by
    rintro values _ rest ⟨body, hbody, rfl⟩ -
    have hmark : close ≠ ',' ∧ close ∈ marks := by
      rcases (by simpa using hclose : close = ']' ∨ close = '\x7d') with rfl | rfl <;> decide
    have hends : Ends (close :: rest) := ends_cons_of_mark hmark.2 rest
    rw [List.append_assoc, List.singleton_append]
    induction hbody with
    | last hfront => exact readSeparated_last (hitem.complete hfront hends)
    | cons hfront _ ih =>
        rw [List.append_assoc, List.cons_append]
        exact readSeparated_next hmark.1 (hitem.complete hfront (ends_cons_of_mark (by decide) _)) ih
  sound := by
    intro values chars rest hread
    fun_induction readSeparated item consumes close chars generalizing values rest with
    | case3 chars value after hvalue =>
        cases hread
        obtain ⟨front, hfront, rfl⟩ := hitem.sound hvalue
        exact ⟨_, ⟨front, .last hfront, rfl⟩, by simp⟩
    | case5 chars value after others more hothers hvalue hcomma ih =>
        cases hread
        obtain ⟨front, hfront, rfl⟩ := hitem.sound hvalue
        obtain ⟨_, ⟨body, hbody, rfl⟩, rfl⟩ := ih hothers
        exact ⟨_, ⟨_, .cons hfront hbody, rfl⟩, by simp⟩
    | _ => cases hread

end Separated

/-! ### Steps -/

theorem stepOfPositions_eq {positions : List Nat} (hplural : 2 ≤ positions.length) :
    stepOfPositions positions = .indices positions := by
  match positions, hplural with
  | _ :: _ :: _, _ => rfl

theorem stepOfKeys_eq {texts : List String} (hplural : 2 ≤ texts.length) :
    stepOfKeys texts = .keys texts := by
  match texts, hplural with
  | _ :: _ :: _, _ => rfl

theorem spelled_stepOfPositions {positions : List Nat} {body : List Char}
    (hbody : Separated PositionSpelled positions body) :
    (stepOfPositions positions).Spelled escapedUnit? ('[' :: body ++ [']']) := by
  cases hbody with
  | last hposition => exact .index hposition
  | @cons position others front rest hposition hothers =>
      have hplural : 2 ≤ (position :: others).length :=
        Nat.succ_le_succ (List.length_pos_iff.mpr hothers.ne_nil)
      rw [stepOfPositions_eq hplural]
      exact .indices hplural (.cons hposition hothers)

theorem spelled_stepOfKeys {texts : List String} {body : List Char}
    (hbody : Separated (QuotedSpelled escapedUnit?) texts body) :
    (stepOfKeys texts).Spelled escapedUnit? ('\x7b' :: body ++ ['\x7d']) := by
  cases hbody with
  | last htext => exact .key htext
  | @cons text others front rest htext hothers =>
      have hplural : 2 ≤ (text :: others).length :=
        Nat.succ_le_succ (List.length_pos_iff.mpr hothers.ne_nil)
      rw [stepOfKeys_eq hplural]
      exact .keys hplural (.cons htext hothers)

theorem exact_positions :
    Exact (fun positions chars => ∃ body, Separated PositionSpelled positions body ∧ chars = body ++ [']'])
      (readSeparated readPosition consumes_readPosition ']') :=
  exact_readSeparated consumes_readPosition exact_readPosition List.mem_cons_self

theorem exact_keys :
    Exact (fun texts chars => ∃ body, Separated (QuotedSpelled escapedUnit?) texts body ∧
        chars = body ++ ['\x7d'])
      (readSeparated readQuoted consumes_readQuoted '\x7d') :=
  exact_readSeparated consumes_readQuoted exact_readQuoted
    (List.mem_cons_of_mem _ List.mem_cons_self)

theorem readBracket_positions {positions : List Nat} {body rest : List Char}
    (hbody : Separated PositionSpelled positions body) (hrest : Ends rest) :
    readBracket (body ++ [']'] ++ rest) = .ok (stepOfPositions positions, rest) := by
  rw [readBracket, exact_positions.complete ⟨body, hbody, rfl⟩ hrest]
  -- a position begins with a digit, and the star is none
  intro more heq
  obtain ⟨position, front, others, ⟨hne, hdigits, -⟩, rfl⟩ := hbody.exists_front
  obtain ⟨c, digits, rfl⟩ := List.exists_cons_of_ne_nil hne
  cases heq
  exact absurd (hdigits '*' List.mem_cons_self) (by decide)

theorem readBrace_keys {texts : List String} {body rest : List Char}
    (hbody : Separated (QuotedSpelled escapedUnit?) texts body) (hrest : Ends rest) :
    readBrace (body ++ ['\x7d'] ++ rest) = .ok (stepOfKeys texts, rest) := by
  rw [readBrace, exact_keys.complete ⟨body, hbody, rfl⟩ hrest]
  all_goals
    intro more heq
    obtain ⟨text, front, others, ⟨pieces, inner, -, rfl, -⟩, rfl⟩ := hbody.exists_front
    cases heq

theorem spelled_of_readBracket {step : Step} {chars rest : List Char}
    (hread : readBracket chars = .ok (step, rest)) :
    ∃ front, step.Spelled escapedUnit? ('[' :: front) ∧ chars = front ++ rest := by
  unfold readBracket at hread
  split at hread
  · split at hread
    · cases hread
    · rename_i hclose
      cases hread
      rw [expect_eq_ok_iff.mp hclose]
      exact ⟨_, .elements, rfl⟩
  · split at hread
    · cases hread
    · rename_i hseparated
      cases hread
      obtain ⟨_, ⟨body, hbody, rfl⟩, rfl⟩ := exact_positions.sound hseparated
      exact ⟨_, spelled_stepOfPositions hbody, rfl⟩

theorem spelled_of_readBrace {step : Step} {chars rest : List Char}
    (hread : readBrace chars = .ok (step, rest)) :
    ∃ front, step.Spelled escapedUnit? ('\x7b' :: front) ∧ chars = front ++ rest := by
  unfold readBrace at hread
  split at hread
  · cases hread
    exact ⟨_, .values, rfl⟩
  · split at hread
    · cases hread
    · rename_i hclose
      cases hread
      rw [expect_eq_ok_iff.mp hclose]
      exact ⟨_, .names, rfl⟩
  · cases hread
  · split at hread
    · cases hread
    · rename_i hseparated
      cases hread
      obtain ⟨_, ⟨body, hbody, rfl⟩, rfl⟩ := exact_keys.sound hseparated
      exact ⟨_, spelled_stepOfKeys hbody, rfl⟩

theorem exact_readStep : Exact (Step.Spelled escapedUnit?) readStep where
  complete := by
    intro step front rest hfront hrest
    cases hfront with
    | field hname => rw [List.cons_append, readStep, exact_readName.complete hname hrest]
    | index hposition => exact readBracket_positions (.last hposition) hrest
    | indices hplural hpositions =>
        rw [← stepOfPositions_eq hplural]
        exact readBracket_positions hpositions hrest
    | elements => rfl
    | values => rfl
    | names => rfl
    | key htext => exact readBrace_keys (.last htext) hrest
    | keys hplural htexts =>
        rw [← stepOfKeys_eq hplural]
        exact readBrace_keys htexts hrest
  sound := by
    intro step chars rest hread
    unfold readStep at hread
    split at hread
    · split at hread
      · cases hread
      · rename_i hname
        cases hread
        obtain ⟨front, hfront, rfl⟩ := exact_readName.sound hname
        exact ⟨_, .field hfront, rfl⟩
    · obtain ⟨front, hfront, rfl⟩ := spelled_of_readBracket hread
      exact ⟨_, hfront, rfl⟩
    · obtain ⟨front, hfront, rfl⟩ := spelled_of_readBrace hread
      exact ⟨_, hfront, rfl⟩
    · cases hread

/-! ### Whole paths -/

/-- A step begins with a mark, so a name ends in front of it. -/
theorem exists_cons_of_spelled {unit? : Char → Char → Char → Char → Option Text.CodeUnit} {step : Step}
    {chars : List Char} (hstep : step.Spelled unit? chars) :
    ∃ c ∈ marks, ∃ more, chars = c :: more := by
  cases hstep <;> exact ⟨_, by decide, _, rfl⟩

theorem ends_of_row {path : Path} {chars : List Char}
    (hchars : Row (Step.Spelled escapedUnit?) path chars) : Ends chars := by
  cases hchars with
  | nil => simp [Ends]
  | cons hstep _ =>
      obtain ⟨c, hc, more, rfl⟩ := exists_cons_of_spelled hstep
      exact ends_cons_of_mark hc _

theorem readSteps_of_ne_nil {chars : List Char} (hchars : chars ≠ []) :
    readSteps chars = match readStep chars with
      | .error stop => .error stop
      | .ok (step, rest) => (readSteps rest).map (step :: ·) := by
  rw [readSteps, List.isEmpty_eq_false_iff.mpr hchars, if_neg Bool.false_ne_true]
  split
  · rename_i hread
    rw [hread]
  · rename_i step rest hread
    rw [hread]
    dsimp only
    cases readSteps rest <;> rfl

/-- Steps are read up to the end exactly if the characters spell them one after another. -/
theorem readSteps_eq_ok_iff {path : Path} {chars : List Char} :
    readSteps chars = .ok path ↔ Row (Step.Spelled escapedUnit?) path chars := by
  constructor
  · intro hread
    fun_induction readSteps chars generalizing path with
    | case1 chars hempty =>
        cases hread
        rw [List.isEmpty_iff.mp hempty]
        exact .nil
    | case4 chars _ step rest hstep steps hsteps ih =>
        cases hread
        obtain ⟨front, hfront, rfl⟩ := exact_readStep.sound hstep
        exact .cons hfront (ih hsteps)
    | _ => cases hread
  · intro hchars
    induction hchars with
    | nil => rw [readSteps, List.isEmpty_nil, if_pos rfl]
    | @cons step steps front rest hstep hsteps ih =>
        have hread := exact_readStep.complete hstep (ends_of_row hsteps)
        have hchars : front ++ rest ≠ [] := by
          obtain ⟨c, -, more, rfl⟩ := exists_cons_of_spelled hstep
          exact List.cons_ne_nil _ _
        rw [readSteps_of_ne_nil hchars, hread]
        exact congrArg (Except.map _) ih

/-- A point is no step without a name, so it is free to stand for the root. -/
theorem not_row_point {path : Path} : ¬Row (Step.Spelled escapedUnit?) path ['.'] := by
  intro hrow
  have hread : readStep ['.'] = .error ⟨.emptyField, []⟩ := rfl
  have hpath := readSteps_eq_ok_iff.mpr hrow
  rw [readSteps_of_ne_nil (List.cons_ne_nil _ _), hread] at hpath
  cases hpath

/-- **A text is read as a path exactly if it spells the path.** -/
theorem parse_eq_ok_iff {text : String} {path : Path} :
    parse text = .ok path ↔ path.Spelled escapedUnit? text.toList := by
  rw [parse, ofChars?, Spelled]
  by_cases hpoint : text.toList = ['.']
  · have hnone : ¬Row (Step.Spelled escapedUnit?) path text.toList := hpoint ▸ not_row_point
    rw [if_pos hpoint, or_iff_right hnone, and_iff_left hpoint, Except.ok.injEq, eq_comm]
  · rw [if_neg hpoint, or_iff_left fun hroot => hpoint hroot.2, ← readSteps_eq_ok_iff]
    cases readSteps text.toList <;> simp

/-! ### The documented escapes -/

/-- A unit that is documented is read. -/
theorem escapedUnit?_of_codeUnit? {a b c d : Char} {unit : Text.CodeUnit}
    (hunit : Text.codeUnit? a b c d = some unit) : escapedUnit? a b c d = some unit := by
  by_cases hplus : a = '+'
  · -- a plus sign is no hexadecimal digit
    subst hplus
    cases hunit
  · rwa [escapedUnit?, if_neg hplus]

/-- A unit that is read is documented, unless it begins with a plus sign. -/
theorem unitsWithin_of_not_plus {chars : List Char} (hplus : ¬['\\', 'u', '+'] <:+: chars) :
    UnitsWithin escapedUnit? Text.codeUnit? chars := by
  intro a b c d unit hwithin hunit
  have ha : a ≠ '+' := by
    rintro rfl
    exact hplus (List.IsInfix.trans ⟨[], [b, c, d], rfl⟩ hwithin)
  rwa [escapedUnit?, if_neg ha] at hunit

/-- **What is read as a path.** The reader takes the documented grammar with a plus sign allowed in
place of the first digit behind `\u`. So it takes every text of the documented grammar, and no other
text without such a sign. -/
theorem parse_eq_ok_iff_spelled (text : String) (path : Path) :
    (parse text = .ok path ↔ path.Spelled escapedUnit? text.toList) ∧
    (path.Spelled Text.codeUnit? text.toList → parse text = .ok path) ∧
    (¬['\\', 'u', '+'] <:+: text.toList →
      (parse text = .ok path ↔ path.Spelled Text.codeUnit? text.toList)) := by
  have hread : path.Spelled Text.codeUnit? text.toList → parse text = .ok path := fun hspelled =>
    parse_eq_ok_iff.mpr (hspelled.mono fun _ _ _ _ _ _ => escapedUnit?_of_codeUnit?)
  refine ⟨parse_eq_ok_iff, hread, fun hplus => ⟨fun hparse => ?_, hread⟩⟩
  exact (parse_eq_ok_iff.mp hparse).mono (unitsWithin_of_not_plus hplus)

/-- The two surrogates of one character in a key. -/
theorem parse_eq_ok_iff_spelled_pair :
    parse ".a\x7b\"\\ud83d\\ude00\"\x7d" = .ok [.field "a", .key "😀"] ∧
      Path.Spelled Text.codeUnit? [.field "a", .key "😀"] ".a\x7b\"\\ud83d\\ude00\"\x7d".toList := by
  have hhigh : Piece.Spelled Text.codeUnit? (.unit 0xD83D) "\\ud83d".toList := .unit rfl
  have hlow : Piece.Spelled Text.codeUnit? (.unit 0xDE00) "\\ude00".toList := .unit rfl
  have hkey : QuotedSpelled Text.codeUnit? "😀" "\"\\ud83d\\ude00\"".toList :=
    ⟨_, _, .cons hhigh (.cons hlow .nil), rfl, rfl⟩
  have hname : ∀ c ∈ "a".toList, isNameChar c := by
    intro c hc
    obtain rfl : c = 'a' := List.mem_singleton.mp hc
    rfl
  have hfield : Step.Spelled Text.codeUnit? (.field "a") ".a".toList :=
    .field (.plain (by decide) hname)
  have hspelled : Path.Spelled Text.codeUnit? [.field "a", .key "😀"]
      ".a\x7b\"\\ud83d\\ude00\"\x7d".toList :=
    .inl (.cons hfield (.cons (Step.Spelled.key hkey) .nil))
  have hplus : ¬['\\', 'u', '+'] <:+: ".a\x7b\"\\ud83d\\ude00\"\x7d".toList := by decide
  obtain ⟨-, hread, hdocumented⟩ := parse_eq_ok_iff_spelled ".a\x7b\"\\ud83d\\ude00\"\x7d"
    [.field "a", .key "😀"]
  exact ⟨hread hspelled, (hdocumented hplus).mp (hread hspelled)⟩

theorem not_row_plus {pieces : List Piece} {more : List Char} :
    ¬Row (Piece.Spelled Text.codeUnit?) pieces ('\\' :: 'u' :: '+' :: more) := by
  intro hrow
  generalize hbody : '\\' :: 'u' :: '+' :: more = body at hrow
  cases hrow with
  | nil => cases hbody
  | cons hpiece _ =>
      cases hpiece with
      | plain _ hbackslash =>
          cases hbody
          exact hbackslash rfl
      | letter hletter =>
          cases hbody
          exact ne_unit_of_escaped? (escaped?_eq_some_iff.mpr hletter) rfl
      | unit hunit =>
          cases hbody
          cases hunit

/-- The documented grammar is not the whole of what is read: `\u+041` is read as the letter A. -/
theorem not_forall_parse_eq_ok_iff :
    ¬∀ (text : String) (path : Path),
      parse text = .ok path ↔ path.Spelled Text.codeUnit? text.toList := by
  intro hall
  have hunit : Piece.Spelled escapedUnit? (.unit 0x41) "\\u+041".toList := .unit rfl
  have hquoted : QuotedSpelled escapedUnit? "A" "\"\\u+041\"".toList :=
    ⟨_, _, .cons hunit .nil, rfl, rfl⟩
  have hread : parse ".\"\\u+041\"" = .ok [.field "A"] :=
    parse_eq_ok_iff.mpr (.inl (.cons (Step.Spelled.field (.quoted hquoted)) .nil))
  have hspelled : Path.Spelled Text.codeUnit? [.field "A"]
      ['.', '"', '\\', 'u', '+', '0', '4', '1', '"'] := (hall _ _).mp hread
  generalize hchars : ['.', '"', '\\', 'u', '+', '0', '4', '1', '"'] = chars at hspelled
  obtain hrow | ⟨hroot, -⟩ := hspelled
  · rcases hrow with _ | ⟨hstep, ⟨⟩⟩
    rw [List.append_nil] at hchars
    cases hstep with
    | field hname =>
        cases hname with
        | plain => cases hchars
        | quoted hquoted =>
            obtain ⟨pieces, body, hbody, rfl, -⟩ := hquoted
            have htail : ['\\', 'u', '+', '0', '4', '1'] ++ ['"'] = body ++ ['"'] :=
              (List.cons.inj (List.cons.inj hchars).2).2
            obtain rfl := List.append_cancel_right htail
            exact not_row_plus hbody
  · cases hroot

end Path

end JsonEdit
