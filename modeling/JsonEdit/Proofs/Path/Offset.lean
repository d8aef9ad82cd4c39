import JsonEdit.Proofs.Path.Reader

/-!
# Where a path is misread

A reader that stops says what it met and where. What it says is true of the characters before and after
that place, and the offset of the error counts the bytes before it.
-/

namespace JsonEdit

theorem Text.byteCount_append (front rest : List Char) :
    byteCount (front ++ rest) = byteCount front + byteCount rest := by
  induction front with
  | nil => rw [List.nil_append, byteCount, Nat.zero_add]
  | cons c front ih => rw [List.cons_append, byteCount, byteCount, ih, Nat.add_assoc]

namespace Path

/-- What the misreading says holds of the characters before and after the place it is reported at. -/
def Misread.IsTrueAt (before after : List Char) : Misread → Prop
  | .unexpectedChar found => after.head? = some found
  | .unexpectedEnd => after = []
  | .emptyField => before.getLast? = some '.' ∧ ∀ c ∈ after.head?, isNameChar c = false ∧ c ≠ '"'
  | .invalidIndex => before.getLast? = some '[' ∨ before.getLast? = some ','
  | .invalidEscape => after.head? = some '\\'

/-- The reader of `chars` stopped at a place in them where the misreading is true; `before` stands before
them in the text. -/
def Stop.IsTrueIn (before chars : List Char) (stop : Stop) : Prop :=
  ∃ read, chars = read ++ stop.rest ∧ stop.misread.IsTrueAt (before ++ read) stop.rest

def ParseError.IsTrueOf (chars : List Char) (error : ParseError) : Prop :=
  ∃ before after, chars = before ++ after ∧ error.offset = Text.byteCount before ∧
    error.misread.IsTrueAt before after

/-- Wherever the reader stops behind an opening, it stops truly. -/
def Truthful {α : Type} (opening : List Char → Prop) (read : List Char → Read α) : Prop :=
  ∀ before chars stop, opening before → read chars = .error stop → stop.IsTrueIn before chars

section

variable {before chars rest : List Char} {stop : Stop}

theorem isTrueIn_here {misread : Misread} (htrue : misread.IsTrueAt before chars) :
    Stop.IsTrueIn before chars ⟨misread, chars⟩ :=
  ⟨[], rfl, by rwa [List.append_nil]⟩

theorem isTrueIn_append (front : List Char) (htrue : stop.IsTrueIn (before ++ front) rest) :
    stop.IsTrueIn before (front ++ rest) := by
  obtain ⟨read, rfl, hmisread⟩ := htrue
  exact ⟨front ++ read, (List.append_assoc _ _ _).symm, by rwa [← List.append_assoc]⟩

theorem isTrueIn_unexpected (before chars : List Char) :
    (unexpected chars).IsTrueIn before chars := by
  cases chars <;> exact isTrueIn_here rfl

theorem isTrueIn_of_expect {wanted : Char} (hread : expect wanted chars = .error stop) :
    stop.IsTrueIn before chars := by
  unfold expect at hread
  split at hread
  · cases hread
    exact isTrueIn_unexpected before []
  · split at hread
    · cases hread
    · cases hread
      exact isTrueIn_unexpected before _

/-- Every bad escape is reported at the backslash that begins it. -/
theorem isTrueIn_of_readQuotedBody {read : List Char}
    (hread : readQuotedBody read chars = .error stop) : stop.IsTrueIn before chars := by
  fun_induction readQuotedBody read chars generalizing before with
  | case1 =>
      cases hread
      exact isTrueIn_here rfl
  | case2 => cases hread
  | case3 | case4 | case7 | case11 | case12 =>
      cases hread
      exact isTrueIn_here rfl
  | case5 read a b c d _ _ _ e f g h more _ _ _ ih =>
      exact isTrueIn_append ['\\', 'u', a, b, c, d, '\\', 'u', e, f, g, h] (ih hread)
  | case6 read a b c d _ _ _ e f g h more _ _ _ ih =>
      exact isTrueIn_append ['\\', 'u', a, b, c, d] (ih hread)
  | case8 read a b c d _ _ _ other _ _ ih => exact isTrueIn_append ['\\', 'u', a, b, c, d] (ih hread)
  | case9 read a b c d rest _ _ _ ih => exact isTrueIn_append ['\\', 'u', a, b, c, d] (ih hread)
  | case10 read letter rest _ _ _ ih => exact isTrueIn_append ['\\', letter] (ih hread)
  | case13 read c rest _ _ _ _ ih => exact isTrueIn_append [c] (ih hread)

theorem truthful_readQuoted : Truthful (fun _ => True) readQuoted := by
  intro before chars stop _ hread
  unfold readQuoted at hread
  split at hread
  · rename_i hexpect
    cases hread
    exact isTrueIn_of_expect hexpect
  · rename_i hexpect
    rw [expect_eq_ok_iff.mp hexpect]
    exact isTrueIn_append ['"'] (isTrueIn_of_readQuotedBody hread)

theorem truthful_readName : Truthful (fun before => before.getLast? = some '.') readName := by
  intro before chars stop hpoint hread
  by_cases hquote : chars.head? = some '"'
  · obtain ⟨rest, rfl⟩ := List.head?_eq_some_iff.mp hquote
    rw [readName_quote] at hread
    exact truthful_readQuoted _ _ _ trivial hread
  · rw [readName_plain hquote] at hread
    split at hread
    · rename_i hempty
      cases hread
      refine isTrueIn_here ⟨hpoint, fun c hc => ?_⟩
      obtain ⟨more, rfl⟩ := List.head?_eq_some_iff.mp hc
      refine ⟨Bool.eq_false_iff.mpr fun hname => ?_, fun heq => hquote (heq ▸ rfl)⟩
      rw [List.takeWhile_cons_of_pos hname] at hempty
      cases hempty
    · cases hread

theorem truthful_readPosition :
    Truthful (fun before => before.getLast? = some '[' ∨ before.getLast? = some ',') readPosition := by
  intro before chars stop hopening hread
  unfold readPosition at hread
  dsimp only at hread
  split at hread
  · cases hread
    exact isTrueIn_here hopening
  · cases hread

/-- If the items are misread truly behind a comma, so are items with commas between them. -/
theorem truthful_readSeparated {α : Type} {opening : List Char → Prop} {spelled : α → List Char → Prop}
    {item : List Char → Read α} (consumes : Consumes item) {close : Char} (hitem : Exact spelled item)
    (htruthful : Truthful opening item) (hcomma : ∀ before, opening (before ++ [','])) :
    Truthful opening (readSeparated item consumes close) := by
  intro before chars stop hopening hread
  fun_induction readSeparated item consumes close chars generalizing before with
  | case1 chars stop' hstop =>
      cases hread
      exact htruthful before chars stop hopening hstop
  | case2 chars value hvalue =>
      cases hread
      obtain ⟨front, -, rfl⟩ := hitem.sound hvalue
      exact isTrueIn_append front (isTrueIn_unexpected _ _)
  | case3 => cases hread
  | case4 chars value rest stop' hothers hvalue hcomma' ih =>
      cases hread
      obtain ⟨front, -, rfl⟩ := hitem.sound hvalue
      rw [List.append_cons]
      refine isTrueIn_append (front ++ [',']) (ih _ ?_ hothers)
      rw [← List.append_assoc]
      exact hcomma _
  | case5 => cases hread
  | case6 chars value next rest hvalue _ _ =>
      cases hread
      obtain ⟨front, -, rfl⟩ := hitem.sound hvalue
      exact isTrueIn_append front (isTrueIn_unexpected _ _)

theorem truthful_readBracket :
    Truthful (fun before => before.getLast? = some '[') readBracket := by
  intro before chars stop hopening hread
  unfold readBracket at hread
  split at hread
  · split at hread
    · rename_i hexpect
      cases hread
      exact isTrueIn_append ['*'] (isTrueIn_of_expect hexpect)
    · cases hread
  · split at hread
    · rename_i hseparated
      cases hread
      refine truthful_readSeparated _ exact_readPosition truthful_readPosition ?_ _ _ _
        (.inl hopening) hseparated
      exact fun before => .inr (List.getLast?_concat)
    · cases hread

theorem truthful_readBrace : Truthful (fun _ => True) readBrace := by
  intro before chars stop _ hread
  unfold readBrace at hread
  split at hread
  · cases hread
  · split at hread
    · rename_i hexpect
      cases hread
      exact isTrueIn_append ['*', ':'] (isTrueIn_of_expect hexpect)
    · cases hread
  · cases hread
    exact isTrueIn_append ['*'] (isTrueIn_unexpected _ _)
  · split at hread
    · rename_i hseparated
      cases hread
      exact truthful_readSeparated _ exact_readQuoted truthful_readQuoted (fun _ => trivial) _ _ _
        trivial hseparated
    · cases hread

theorem truthful_readStep : Truthful (fun _ => True) readStep := by
  intro before chars stop _ hread
  unfold readStep at hread
  split at hread
  · split at hread
    · rename_i hname
      cases hread
      exact isTrueIn_append ['.'] (truthful_readName _ _ _ List.getLast?_concat hname)
    · cases hread
  · exact isTrueIn_append ['['] (truthful_readBracket _ _ _ List.getLast?_concat hread)
  · exact isTrueIn_append ['\x7b'] (truthful_readBrace _ _ _ trivial hread)
  · cases hread
    exact isTrueIn_unexpected _ _

theorem isTrueIn_of_readSteps (hread : readSteps chars = .error stop) : stop.IsTrueIn before chars := by
  fun_induction readSteps chars generalizing before with
  | case1 => cases hread
  | case2 chars _ stop' hstep =>
      cases hread
      exact truthful_readStep _ _ _ trivial hstep
  | case3 chars _ step rest hstep stop' hsteps ih =>
      cases hread
      obtain ⟨front, -, rfl⟩ := exact_readStep.sound hstep
      exact isTrueIn_append front (ih hsteps)
  | case4 => cases hread

/-- An error that is reported is true of the text. -/
theorem isTrueOf_of_parse {text : String} {error : ParseError} (hparse : parse text = .error error) :
    error.IsTrueOf text.toList := by
  unfold parse ofChars? at hparse
  split at hparse
  · cases hparse
  · split at hparse
    · cases hparse
    · rename_i stop hread
      cases hparse
      have htrue : stop.IsTrueIn [] text.toList := isTrueIn_of_readSteps hread
      obtain ⟨read, hchars, hmisread⟩ := htrue
      refine ⟨read, stop.rest, hchars, ?_, hmisread⟩
      rw [hchars, Text.byteCount_append, Nat.add_sub_cancel_right]

end

end Path

end JsonEdit
