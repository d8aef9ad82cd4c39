import JsonEdit.Proofs.Path.Offset

/-!
# Reading a path at byte positions

A text can also be read by moving a position through its bytes and slicing the text there. A slice has
no value if one of its ends lies beyond the text or inside a character, and neither has a position that
is set to such a place, or a round of a loop that does not come nearer to the end.

A position is compared with the characters that are left at it: from in front of a character every step
of the cursor leads in front of a character or to the end.
-/

namespace JsonEdit

namespace Path

/-- Steps that move a position through the bytes of a text, or misread it, or have no result. -/
abbrev Cursor := StateT Nat (ExceptT ParseError Option)

namespace Cursor

/-- The characters from a byte position on, if it lies in front of a character or at the end. -/
def charsFrom? : List Char → Nat → Option (List Char)
  | [], place => if place = 0 then some [] else none
  | c :: rest, place =>
    if place = 0 then some (c :: rest)
    else if place < c.utf8Size then none
    else charsFrom? rest (place - c.utf8Size)

def slice? (text : List Char) (start stop : Nat) : Option (List Char) := do
  let front ← charsFrom? text start
  let back ← charsFrom? text stop
  if start ≤ stop then some (front.take (front.length - back.length)) else none

/-- The unit that a slice of four bytes spells. Four bytes that are fewer characters hold one that is no
digit. -/
def unitOfSlice? : List Char → Option Text.CodeUnit
  | [a, b, c, d] => escapedUnit? a b c d
  | _ => none

section

variable (text : List Char)

def moveTo (place : Nat) : Cursor Unit := do
  let _ ← charsFrom? text place
  set place

def peek : Cursor (Option Char) := do
  let rest ← charsFrom? text (← get)
  return rest.head?

def bump : Cursor (Option Char) := do
  match ← peek text with
  | none => return none
  | some c =>
    moveTo text ((← get) + c.utf8Size)
    return some c

def back? (place : Nat) (taken : Char) : Option Nat :=
  if taken.utf8Size ≤ place then some (place - taken.utf8Size) else none

def unexpected {α : Type} (found : Char) : Cursor α := do
  let start ← back? (← get) found
  throw ⟨.unexpectedChar found, start⟩

def unexpectedEnd {α : Type} : Cursor α := do
  throw ⟨.unexpectedEnd, ← get⟩

def expect (wanted : Char) : Cursor Unit := do
  match ← bump text with
  | none => unexpectedEnd
  | some found => if found = wanted then return else unexpected found

/-- Goes round until there is a result. Each round has to leave fewer bytes than the one before. -/
def loop {State Result : Type} (round : State → Cursor (State ⊕ Result)) (state : State)
    (place : Nat) : ExceptT ParseError Option (Result × Nat) := do
  match ← round state place with
  | (.inr result, after) => return (result, after)
  | (.inl next, after) =>
    if _hless : Text.byteCount text - after < Text.byteCount text - place then loop round next after
    else (none : Option _)
termination_by Text.byteCount text - place

def skipRound (p : Char → Bool) (_ : Unit) : Cursor (Unit ⊕ Unit) := do
  match ← peek text with
  | none => return .inr ()
  | some c =>
    if p c then
      let _ ← bump text
      return .inl ()
    else return .inr ()

def skipWhile (p : Char → Bool) : Cursor Unit := loop text (skipRound text p) ()

/-- A unit after its `\u`; the escape began at `offset`. A slice that is not there is a bad escape. -/
def unit (offset : Nat) : Cursor Text.CodeUnit := do
  let place ← get
  match (slice? text place (place + 4)).bind unitOfSlice? with
  | none => throw ⟨.invalidEscape, offset⟩
  | some unit =>
    moveTo text (place + 4)
    return unit

def codePoint (first : Text.CodeUnit) (offset : Nat) : Cursor Char := do
  if first.isHigh then
    let saved ← get
    let rest ← charsFrom? text saved
    if ['\\', 'u'].isPrefixOf rest then
      moveTo text (saved + 2)
      let second ← unit text offset
      if second.isLow then return first.pair second
      else
        moveTo text saved
        return Text.replacement
    else return Text.replacement
  else return first.single

def escape (offset : Nat) : Cursor Char := do
  match ← bump text with
  | none => throw ⟨.invalidEscape, offset⟩
  | some letter =>
    if letter = 'u' then
      let first ← unit text offset
      codePoint text first offset
    else
      match escaped? letter with
      | none => throw ⟨.invalidEscape, offset⟩
      | some c => return c

def quotedRound (read : List Char) : Cursor (List Char ⊕ String) := do
  let offset ← get
  match ← bump text with
  | none => throw ⟨.unexpectedEnd, offset⟩
  | some c =>
    if c = '"' then return .inr (String.ofList read.reverse)
    else if c = '\\' then
      let c ← escape text offset
      return .inl (c :: read)
    else return .inl (c :: read)

def quotedBody (read : List Char) : Cursor String := loop text (quotedRound text) read

def quoted : Cursor String := do
  expect text '"'
  quotedBody text []

def name : Cursor String := do
  if (← peek text) = some '"' then quoted text
  else
    let start ← get
    skipWhile text isNameChar
    let stop ← get
    if start = stop then throw ⟨.emptyField, start⟩
    else
      let chars ← slice? text start stop
      return String.ofList chars

def position : Cursor Nat := do
  let start ← get
  skipWhile text Char.isDigit
  let digits ← slice? text start (← get)
  if digits.isEmpty || positionBound ≤ positionOfDigits digits then throw ⟨.invalidIndex, start⟩
  else return positionOfDigits digits

def separatedRound {α : Type} (item : Cursor α) (close : Char) (items : List α) :
    Cursor (List α ⊕ List α) := do
  match ← bump text with
  | none => unexpectedEnd
  | some found =>
    if found = close then return .inr items.reverse
    else if found = ',' then
      let next ← item
      return .inl (next :: items)
    else unexpected found

def separated {α : Type} (item : Cursor α) (close : Char) : Cursor (List α) := do
  let first ← item
  loop text (separatedRound text item close) [first]

def bracket : Cursor Step := do
  if (← peek text) = some '*' then
    let _ ← bump text
    expect text ']'
    return .elements
  else
    let positions ← separated text (position text) ']'
    return stepOfPositions positions

def brace : Cursor Step := do
  if (← peek text) = some '*' then
    let _ ← bump text
    match ← bump text with
    | none => unexpectedEnd
    | some found =>
      if found = '\x7d' then return .values
      else if found = ':' then
        expect text '\x7d'
        return .names
      else unexpected found
  else
    let texts ← separated text (quoted text) '\x7d'
    return stepOfKeys texts

def step (c : Char) : Cursor Step := do
  if c = '.' then
    let _ ← bump text
    let name ← name text
    return .field name
  else if c = '[' then
    let _ ← bump text
    bracket text
  else if c = '\x7b' then
    let _ ← bump text
    brace text
  else throw ⟨.unexpectedChar c, ← get⟩

def stepsRound (steps : Path) : Cursor (Path ⊕ Path) := do
  match ← peek text with
  | none => return .inr steps.reverse
  | some c =>
    let next ← step text c
    return .inl (next :: steps)

def stepsAfter (steps : Path) : Cursor Path := loop text (stepsRound text) steps

end

def parse? (text : String) : Option (Except ParseError Path) :=
  if text.toList = [] ∨ text.toList = ['.'] then some (.ok root)
  else (stepsAfter text.toList []).run' 0

/-! ### Positions and what is left -/

/-- The position at which these characters are left. -/
def placeOf (text rest : List Char) : Nat := Text.byteCount text - Text.byteCount rest

section

variable {text front rest : List Char} {c : Char}

theorem placeOf_append (htext : front ++ rest <:+ text) :
    placeOf text (front ++ rest) + Text.byteCount front = placeOf text rest := by
  obtain ⟨before, rfl⟩ := htext
  simp only [placeOf, Text.byteCount_append]
  omega

theorem placeOf_cons (htext : c :: rest <:+ text) :
    placeOf text (c :: rest) + c.utf8Size = placeOf text rest := by
  have happend : placeOf text ([c] ++ rest) + Text.byteCount [c] = placeOf text rest :=
    placeOf_append htext
  simpa [Text.byteCount] using happend

/-- There is something from a position on if and only if it lies between two characters. -/
theorem charsFrom?_eq_some_iff {place : Nat} :
    charsFrom? text place = some rest ↔ ∃ before, text = before ++ rest ∧ place = Text.byteCount before := by
  constructor
  · intro hrest
    fun_induction charsFrom? text place with
    | case1 | case3 =>
        cases hrest
        exact ⟨[], rfl, rfl⟩
    | case2 | case4 => cases hrest
    | case5 c tail place hzero hsize ih =>
        obtain ⟨before, rfl, hbefore⟩ := ih hrest
        exact ⟨c :: before, rfl, by rw [Text.byteCount]; omega⟩
  · rintro ⟨before, rfl, rfl⟩
    induction before with
    | nil => cases rest <;> rfl
    | cons c before ih =>
        have hsize := Char.utf8Size_pos c
        rw [Text.byteCount, List.cons_append, charsFrom?, if_neg (by omega), if_neg (by omega),
          Nat.add_sub_cancel_left, ih]

theorem charsFrom?_placeOf (htext : rest <:+ text) :
    charsFrom? text (placeOf text rest) = some rest := by
  obtain ⟨before, rfl⟩ := htext
  rw [placeOf, Text.byteCount_append, Nat.add_sub_cancel_right]
  exact charsFrom?_eq_some_iff.mpr ⟨before, rfl, rfl⟩

theorem slice?_placeOf (htext : front ++ rest <:+ text) :
    slice? text (placeOf text (front ++ rest)) (placeOf text rest) = some front := by
  have hle := Nat.le.intro (placeOf_append htext)
  have hrest := (List.suffix_append front rest).trans htext
  rw [slice?, charsFrom?_placeOf htext, charsFrom?_placeOf hrest]
  simp only [Option.bind_eq_bind, Option.bind_some, if_pos hle]
  rw [List.length_append, Nat.add_sub_cancel_right, List.take_left]

theorem prefix_of_slice? {stop : Nat} {chars : List Char} (htext : rest <:+ text)
    (hslice : slice? text (placeOf text rest) stop = some chars) : chars <+: rest := by
  rw [slice?, charsFrom?_placeOf htext] at hslice
  simp only [Option.bind_eq_bind, Option.bind_some, Option.bind_eq_some_iff] at hslice
  obtain ⟨back, -, hchars⟩ := hslice
  split at hchars
  · cases hchars
    exact List.take_prefix _ _
  · cases hchars

end

/-! ### Steps of the cursor -/

section

variable {α β : Type} {cursor : Cursor α} {next : α → Cursor β} {place after : Nat} {value : α}
  {error : ParseError}

theorem bind_ok (hcursor : cursor place = some (.ok (value, after))) :
    (cursor >>= next) place = next value after := by
  change (cursor place >>= fun result => next result.1 result.2 : ExceptT ParseError Option _) = _
  rw [hcursor]
  rfl

theorem bind_error (hcursor : cursor place = some (.error error)) :
    (cursor >>= next) place = some (.error error) := by
  change (cursor place >>= fun result => next result.1 result.2 : ExceptT ParseError Option _) = _
  rw [hcursor]
  rfl

theorem get_bind {next : Nat → Cursor β} : ((get : Cursor Nat) >>= next) place = next place place := rfl

theorem lift_bind {slice : Option α} (hslice : slice = some value) :
    ((slice : Cursor α) >>= next) place = next value place := by
  subst hslice
  rfl

end

section

variable {text rest : List Char} {c : Char}

theorem moveTo_placeOf (place : Nat) (hrest : rest <:+ text) :
    moveTo text (placeOf text rest) place = some (.ok ((), placeOf text rest)) := by
  rw [moveTo, lift_bind (charsFrom?_placeOf hrest)]
  rfl

theorem peek_placeOf (hrest : rest <:+ text) :
    peek text (placeOf text rest) = some (.ok (rest.head?, placeOf text rest)) := by
  rw [peek, get_bind, lift_bind (charsFrom?_placeOf hrest)]
  rfl

theorem bump_nil : bump text (placeOf text []) = some (.ok (none, placeOf text [])) := by
  rw [bump, bind_ok (peek_placeOf (List.nil_suffix))]
  rfl

theorem bump_cons (hrest : c :: rest <:+ text) :
    bump text (placeOf text (c :: rest)) = some (.ok (some c, placeOf text rest)) := by
  have htail := (List.suffix_cons c rest).trans hrest
  rw [bump, bind_ok (peek_placeOf hrest)]
  simp only [List.head?_cons]
  rw [get_bind, placeOf_cons hrest, bind_ok (moveTo_placeOf _ htail)]
  rfl

/-- The result of a reader of characters, with positions for the characters that are left. -/
def placed {α : Type} (text : List Char) : Read α → Except ParseError (α × Nat)
  | .ok (value, rest) => .ok (value, placeOf text rest)
  | .error stop => .error ⟨stop.misread, placeOf text stop.rest⟩

theorem unexpected_placeOf {α : Type} (hrest : c :: rest <:+ text) :
    (unexpected c : Cursor α) (placeOf text rest) =
      some (placed text (.error (Path.unexpected (c :: rest)))) := by
  have hback : back? (placeOf text rest) c = some (placeOf text (c :: rest)) := by
    rw [back?, ← placeOf_cons hrest, if_pos (Nat.le_add_left _ _), Nat.add_sub_cancel_right]
  rw [unexpected, get_bind, lift_bind hback]
  rfl

theorem expect_placeOf (wanted : Char) (hrest : rest <:+ text) :
    expect text wanted (placeOf text rest) =
      some (placed text ((Path.expect wanted rest).map fun after => ((), after))) := by
  rw [expect]
  cases rest with
  | nil =>
      rw [bind_ok bump_nil]
      rfl
  | cons found rest =>
      rw [bind_ok (bump_cons hrest), Path.expect]
      dsimp only
      split
      · rfl
      · exact unexpected_placeOf hrest

section Loop

variable {State Result : Type} {round : State → Cursor (State ⊕ Result)} {state next : State}
  {result : Result} {place after : Nat} {error : ParseError} {tail left : List Char}

theorem loop_done (hround : round state place = some (.ok (.inr result, after))) :
    loop text round state place = some (.ok (result, after)) := by
  rw [loop, hround]
  rfl

theorem loop_error (hround : round state place = some (.error error)) :
    loop text round state place = some (.error error) := by
  rw [loop, hround]
  rfl

/-- A round that takes a character comes nearer to the end. -/
theorem loop_next (htext : c :: tail <:+ text) (hleft : left <:+ tail)
    (hround : round state (placeOf text (c :: tail)) = some (.ok (.inl next, placeOf text left))) :
    loop text round state (placeOf text (c :: tail)) = loop text round next (placeOf text left) := by
  have hless : Text.byteCount text - placeOf text left <
      Text.byteCount text - placeOf text (c :: tail) := by
    have hsize := Char.utf8Size_pos c
    obtain ⟨taken, rfl⟩ := hleft
    obtain ⟨before, rfl⟩ := htext
    simp only [placeOf, Text.byteCount_append, Text.byteCount]
    omega
  rw [loop, hround]
  exact dif_pos hless

end Loop

theorem skipWhile_placeOf (p : Char → Bool) (hrest : rest <:+ text) :
    skipWhile text p (placeOf text rest) = some (.ok ((), placeOf text (rest.dropWhile p))) := by
  induction rest with
  | nil =>
      refine loop_done ?_
      rw [skipRound, bind_ok (peek_placeOf hrest)]
      rfl
  | cons c rest ih =>
      by_cases hc : p c
      · have hround : skipRound text p () (placeOf text (c :: rest)) =
            some (.ok (.inl (), placeOf text rest)) := by
          rw [skipRound, bind_ok (peek_placeOf hrest)]
          dsimp only [List.head?_cons]
          rw [if_pos hc, bind_ok (bump_cons hrest)]
          rfl
        rw [skipWhile, loop_next hrest List.suffix_rfl hround, List.dropWhile_cons_of_pos hc]
        exact ih ((List.suffix_cons c rest).trans hrest)
      · rw [List.dropWhile_cons_of_neg hc]
        refine loop_done ?_
        rw [skipRound, bind_ok (peek_placeOf hrest)]
        dsimp only [List.head?_cons]
        rw [if_neg hc]
        rfl

end

end Cursor

end Path

end JsonEdit
