import JsonEdit.Proofs.Json.Reader

/-!
# What reading gives

A tree that was read is tidy and legible, and its strings and arrays are no longer than the text. The
invariant says this of everything that the reader holds: of the elements and entries of each open list
and object, at the depth at which they will stand.
-/

namespace JsonEdit

namespace Reader

structure SoundValue (bound opened : Nat) (value : Json) : Prop where
  tidy : value.Tidy
  legible : value.Legible opened
  within : value.Within bound

/-- The elements of an open list, with so many characters left. -/
structure SoundItems (bound left opened : Nat) (items : List Json) : Prop where
  opened_lt : opened < depthLimit
  length_lt : items.length + left < bound
  values : ∀ item ∈ items, SoundValue bound (opened + 1) item

structure SoundEntries (bound opened : Nat) (entries : Entries Json) : Prop where
  opened_lt : opened < depthLimit
  distinct : entries.Distinct
  unmarked : (entries.map Prod.fst).head? ≠ some numberKey
  values : ∀ entry ∈ entries, SoundValue bound (opened + 1) entry.2

def SoundFrames (bound left : Nat) : List Frame → Prop
  | [] => True
  | .list items :: frames => SoundItems bound left frames.length items ∧ SoundFrames bound left frames
  | .object entries key :: frames =>
    SoundEntries bound frames.length entries ∧ (entries = [] → key ≠ numberKey) ∧
      SoundFrames bound left frames

def Sound (bound left : Nat) : Reader → Prop
  | .valueDue frames | .numberColonDue frames | .numberTextDue frames | .afterNumber _ frames =>
    SoundFrames bound left frames
  | .itemDue items frames | .afterItem items frames =>
    SoundItems bound left frames.length items ∧ SoundFrames bound left frames
  | .keyDue entries frames | .afterEntry entries frames =>
    SoundEntries bound frames.length entries ∧ SoundFrames bound left frames
  | .colonDue entries key frames => SoundFrames bound left (.object entries key :: frames)
  | .done value => SoundValue bound 0 value

variable {bound left later opened : Nat}

theorem SoundItems.mono {items : List Json} (hsound : SoundItems bound left opened items)
    (hle : later ≤ left) : SoundItems bound later opened items :=
  ⟨hsound.opened_lt, by have hlength := hsound.length_lt; omega, hsound.values⟩

theorem SoundFrames.mono {frames : List Frame} (hsound : SoundFrames bound left frames)
    (hle : later ≤ left) : SoundFrames bound later frames := by
  induction frames with
  | nil => trivial
  | cons frame frames ih =>
      cases frame with
      | list items => exact ⟨hsound.1.mono hle, ih hsound.2⟩
      | object entries key => exact ⟨hsound.1, hsound.2.1, ih hsound.2.2⟩

/-- An element joins an open list. -/
theorem SoundItems.cons {items : List Json} {value : Json}
    (hsound : SoundItems bound left opened items) (hlt : later < left)
    (hvalue : SoundValue bound (opened + 1) value) :
    SoundItems bound later opened (value :: items) := by
  refine ⟨hsound.opened_lt, ?_, List.forall_mem_cons.mpr ⟨hvalue, hsound.values⟩⟩
  have hlength := hsound.length_lt
  rw [List.length_cons]
  omega

/-- An entry joins an open object. -/
theorem SoundEntries.put {entries : Entries Json} {key : String} {value : Json}
    (hsound : SoundEntries bound opened entries) (hkey : entries = [] → key ≠ numberKey)
    (hvalue : SoundValue bound (opened + 1) value) :
    SoundEntries bound opened (entries.put key value) := by
  refine ⟨hsound.opened_lt, hsound.distinct.put key value, ?_, fun entry hentry => ?_⟩
  · rw [Entries.keys_put]
    cases entries with
    | nil =>
        rintro ⟨⟩
        exact hkey rfl rfl
    | cons entry rest => exact hsound.unmarked
  · rcases Entries.mem_put hentry with heq | hmem
    · rw [heq]
      exact hvalue
    · exact hsound.values entry hmem

/-- A complete value goes to the innermost open list or object. -/
theorem sound_complete {frames : List Frame} {value : Json}
    (hframes : SoundFrames bound left frames) (hlt : later < left)
    (hvalue : SoundValue bound frames.length value) : (complete value frames).Sound bound later := by
  match frames with
  | [] => exact hvalue
  | .list items :: frames =>
      exact ⟨hframes.1.cons hlt hvalue, hframes.2.mono (Nat.le_of_lt hlt)⟩
  | .object entries key :: frames =>
      exact ⟨hframes.1.put hframes.2.1 hvalue, hframes.2.2.mono (Nat.le_of_lt hlt)⟩

theorem SoundItems.array {items : List Json} (hsound : SoundItems bound left opened items) :
    SoundValue bound opened (.array items.reverse) := by
  refine ⟨Json.tidy_array.mpr ?_, Json.legible_array.mpr ⟨hsound.opened_lt, ?_⟩,
    Json.within_array.mpr ⟨?_, ?_⟩⟩
  · exact fun item hitem => (hsound.values item (List.mem_reverse.mp hitem)).tidy
  · exact fun item hitem => (hsound.values item (List.mem_reverse.mp hitem)).legible
  · have hlength := hsound.length_lt
    rw [List.length_reverse]
    omega
  · exact fun item hitem => (hsound.values item (List.mem_reverse.mp hitem)).within

theorem SoundEntries.object {entries : Entries Json} (hsound : SoundEntries bound opened entries) :
    SoundValue bound opened (.object entries) := by
  refine ⟨Json.tidy_object.mpr ⟨hsound.distinct, ?_⟩,
    Json.legible_object.mpr ⟨hsound.opened_lt, hsound.unmarked, ?_⟩, Json.within_object.mpr ?_⟩
  · exact fun entry hentry => (hsound.values entry hentry).tidy
  · exact fun entry hentry => (hsound.values entry hentry).legible
  · exact fun entry hentry => (hsound.values entry hentry).within

/-! ### One lexeme -/

/-- A word is no number, and a string is within the bound. -/
def SoundToken (bound : Nat) : Token → Prop
  | .word (.ok value) => value = .null ∨ ∃ truth, value = .bool truth
  | .string (.ok text) => text.length < bound
  | _ => True

theorem soundToken_beginning {lone : Json.LoneSurrogate} {c : Char} {rest : List Char}
    (hlength : rest.length < bound) : SoundToken bound (Lexeme.beginning lone c rest).1.token := by
  unfold Lexeme.beginning
  split
  · rename_i token htoken
    unfold Lexeme.punctuation? at htoken
    split at htoken <;> cases htoken <;> trivial
  · split
    · cases hread : Json.readString lone [] none rest with
      | error stop => trivial
      | ok pair =>
          have hle := Json.length_readString_le hread
          rw [Json.settle_none, List.length_nil, Nat.zero_add] at hle
          change pair.1.length < bound
          omega
    · split
      · cases Number.read (c :: rest) <;> trivial
      · split
        · rename_i value letters hword
          have hvalue : value = .null ∨ ∃ truth, value = .bool truth := by
            unfold Lexeme.word? at hword
            split at hword <;> cases hword <;> simp
          cases Lexeme.readWord letters rest with
          | error stop => trivial
          | ok after => exact hvalue
        · trivial

theorem soundToken_next? {lone : Json.LoneSurrogate} {chars rest : List Char} {lexeme : Lexeme}
    (hnext : Lexeme.next? lone chars = some (lexeme, rest)) (hlength : chars.length ≤ bound) :
    SoundToken bound lexeme.token := by
  induction chars with
  | nil => cases hnext
  | cons c tail ih =>
      rw [List.length_cons] at hlength
      rw [Lexeme.next?] at hnext
      split at hnext
      · exact ih hnext (by omega)
      · have hsound : SoundToken bound (Lexeme.beginning lone c tail).1.token :=
          soundToken_beginning (by omega)
        rwa [Option.some.inj hnext] at hsound

theorem SoundFrames.length_le {frames : List Frame} (hframes : SoundFrames bound left frames) :
    frames.length ≤ depthLimit := by
  match frames with
  | [] => exact Nat.zero_le _
  | .list items :: frames => exact hframes.1.opened_lt
  | .object entries key :: frames => exact hframes.1.opened_lt

theorem continueWith_eq_ok {α : Type} {next : α → Except Halt Reader} {read : Except Stop α}
    {after : Reader} (hstep : continueWith next read = .ok after) :
    ∃ value, read = .ok value ∧ next value = .ok after := by
  cases read with
  | error stop => cases hstep
  | ok value => exact ⟨value, rfl, hstep⟩

theorem sound_beginValue {frames : List Frame} {lexeme : Lexeme} {after : Reader}
    (hstep : beginValue frames lexeme = .ok after) (hframes : SoundFrames bound left frames)
    (hleft : left < bound) (hlt : later < left) (htoken : SoundToken bound lexeme.token) :
    after.Sound bound later := by
  have hopened := hframes.length_le
  have hlater : SoundFrames bound later frames := hframes.mono (Nat.le_of_lt hlt)
  obtain ⟨token, start⟩ := lexeme
  cases token with
  | openList =>
      rcases Nat.lt_or_ge frames.length depthLimit with hlimit | hlimit
      · cases (if_neg (Nat.not_le.mpr hlimit)).symm.trans hstep
        exact ⟨⟨hlimit, by rw [List.length_nil]; omega, by simp⟩, hlater⟩
      · cases (if_pos hlimit).symm.trans hstep
  | openObject =>
      rcases Nat.lt_or_ge frames.length depthLimit with hlimit | hlimit
      · cases (if_neg (Nat.not_le.mpr hlimit)).symm.trans hstep
        exact ⟨⟨hlimit, .nil, by simp, by simp⟩, hlater⟩
      · cases (if_pos hlimit).symm.trans hstep
  | word read =>
      obtain ⟨value, rfl, hnext⟩ := continueWith_eq_ok hstep
      cases hnext
      rcases htoken with rfl | ⟨truth, rfl⟩
      · exact sound_complete hframes hlt ⟨trivial, ⟨trivial, hopened⟩, trivial⟩
      · exact sound_complete hframes hlt ⟨trivial, ⟨trivial, hopened⟩, trivial⟩
  | number read =>
      obtain ⟨number, rfl, hnext⟩ := continueWith_eq_ok hstep
      cases hnext
      exact sound_complete hframes hlt
        ⟨Number.normal_normal number, ⟨trivial, hopened⟩, trivial⟩
  | string read =>
      obtain ⟨text, rfl, hnext⟩ := continueWith_eq_ok hstep
      cases hnext
      exact sound_complete hframes hlt ⟨trivial, ⟨trivial, hopened⟩, htoken⟩
  | _ => cases hstep

theorem sound_beginNumberText {frames : List Frame} {lexeme : Lexeme} {after : Reader}
    (hstep : beginNumberText frames lexeme = .ok after) (hframes : SoundFrames bound left frames)
    (hlt : later < left) : after.Sound bound later := by
  obtain ⟨token, start⟩ := lexeme
  cases token with
  | string read =>
      obtain ⟨text, rfl, hnext⟩ := continueWith_eq_ok hstep
      cases hread : Number.readAll text.toList with
      | error stop =>
          rw [hread] at hnext
          cases hnext
      | ok number =>
          rw [hread] at hnext
          cases hnext
          exact hframes.mono (Nat.le_of_lt hlt)
  | word read =>
      obtain ⟨value, rfl, hnext⟩ := continueWith_eq_ok hstep
      split at hnext <;> cases hnext
  | number read =>
      obtain ⟨number, rfl, hnext⟩ := continueWith_eq_ok hstep
      cases hnext
  | _ => cases hstep

section Step

variable {frames : List Frame} {lexeme : Lexeme} {after : Reader}

theorem sound_itemDue {items : List Json} (hstep : (itemDue items frames).step lexeme = .ok after)
    (hsound : (itemDue items frames).Sound bound left) (hleft : left < bound) (hlt : later < left)
    (htoken : SoundToken bound lexeme.token) : after.Sound bound later := by
  by_cases hclose : lexeme.token = .closeList
  · obtain ⟨token, start⟩ := lexeme
    cases hclose
    cases items with
    | nil =>
        cases hstep
        exact sound_complete hsound.2 hlt hsound.1.array
    | cons item rest => cases hstep
  · rw [step_itemDue hclose] at hstep
    exact sound_beginValue hstep hsound hleft hlt htoken

theorem sound_afterItem {items : List Json} (hstep : (afterItem items frames).step lexeme = .ok after)
    (hsound : (afterItem items frames).Sound bound left) (hlt : later < left) :
    after.Sound bound later := by
  obtain ⟨token, start⟩ := lexeme
  cases token with
  | comma =>
      cases hstep
      exact ⟨hsound.1.mono (Nat.le_of_lt hlt), hsound.2.mono (Nat.le_of_lt hlt)⟩
  | closeList =>
      cases hstep
      exact sound_complete hsound.2 hlt hsound.1.array
  | _ => cases hstep

theorem sound_keyDue {entries : Entries Json} (hstep : (keyDue entries frames).step lexeme = .ok after)
    (hsound : (keyDue entries frames).Sound bound left) (hlt : later < left) :
    after.Sound bound later := by
  have hframes := hsound.2.mono (Nat.le_of_lt hlt)
  obtain ⟨token, start⟩ := lexeme
  cases token with
  | string read =>
      obtain ⟨key, rfl, hnext⟩ := continueWith_eq_ok hstep
      split at hnext
      · cases hnext
        exact hframes
      · rename_i hmarked
        cases hnext
        refine ⟨hsound.1, fun hnil hkey => hmarked ?_, hframes⟩
        rw [hnil, hkey]
        rfl
  | closeObject =>
      cases entries with
      | nil =>
          cases hstep
          exact sound_complete hsound.2 hlt hsound.1.object
      | cons entry rest => cases hstep
  | _ => cases hstep

theorem sound_colonDue {entries : Entries Json} {key : String}
    (hstep : (colonDue entries key frames).step lexeme = .ok after)
    (hsound : (colonDue entries key frames).Sound bound left) (hlt : later < left) :
    after.Sound bound later := by
  obtain ⟨token, start⟩ := lexeme
  cases token with
  | colon =>
      cases hstep
      exact SoundFrames.mono hsound (Nat.le_of_lt hlt)
  | _ => cases hstep

theorem sound_afterEntry {entries : Entries Json}
    (hstep : (afterEntry entries frames).step lexeme = .ok after)
    (hsound : (afterEntry entries frames).Sound bound left) (hlt : later < left) :
    after.Sound bound later := by
  obtain ⟨token, start⟩ := lexeme
  cases token with
  | comma =>
      cases hstep
      exact ⟨hsound.1, hsound.2.mono (Nat.le_of_lt hlt)⟩
  | closeObject =>
      cases hstep
      exact sound_complete hsound.2 hlt hsound.1.object
  | _ => cases hstep

theorem sound_numberColonDue (hstep : (numberColonDue frames).step lexeme = .ok after)
    (hsound : (numberColonDue frames).Sound bound left) (hlt : later < left) :
    after.Sound bound later := by
  obtain ⟨token, start⟩ := lexeme
  cases token with
  | colon =>
      cases hstep
      exact SoundFrames.mono hsound (Nat.le_of_lt hlt)
  | _ => cases hstep

theorem sound_afterNumber {number : Number} (hstep : (afterNumber number frames).step lexeme = .ok after)
    (hsound : (afterNumber number frames).Sound bound left) (hlt : later < left) :
    after.Sound bound later := by
  obtain ⟨token, start⟩ := lexeme
  cases token with
  | closeObject =>
      cases hstep
      have hopened := SoundFrames.length_le hsound
      exact sound_complete hsound hlt ⟨Number.normal_normal number, ⟨trivial, hopened⟩, trivial⟩
  | _ => cases hstep

/-- **One more lexeme leaves the reader sound**, whatever was due. -/
theorem sound_step {reader : Reader} (hstep : reader.step lexeme = .ok after)
    (hsound : reader.Sound bound left) (hleft : left < bound) (hlt : later < left)
    (htoken : SoundToken bound lexeme.token) : after.Sound bound later := by
  cases reader with
  | valueDue frames => exact sound_beginValue hstep hsound hleft hlt htoken
  | itemDue items frames => exact sound_itemDue hstep hsound hleft hlt htoken
  | afterItem items frames => exact sound_afterItem hstep hsound hlt
  | keyDue entries frames => exact sound_keyDue hstep hsound hlt
  | colonDue entries key frames => exact sound_colonDue hstep hsound hlt
  | afterEntry entries frames => exact sound_afterEntry hstep hsound hlt
  | numberColonDue frames => exact sound_numberColonDue hstep hsound hlt
  | numberTextDue frames => exact sound_beginNumberText hstep hsound hlt
  | afterNumber number frames => exact sound_afterNumber hstep hsound hlt
  | done value => cases hstep

end Step

/-- Reading from a sound state gives a sound tree. -/
theorem sound_run {lone : Json.LoneSurrogate} {reader : Reader} {chars : List Char} {value : Json}
    (hrun : run lone reader chars = .ok value) (hsound : reader.Sound bound chars.length)
    (hlength : chars.length < bound) : SoundValue bound 0 value := by
  induction reader, chars using run.induct lone with
  | case1 reader chars hnext =>
      rw [run_of_end hnext] at hrun
      cases reader with
      | done value =>
          cases hrun
          exact hsound
      | _ => cases hrun
  | case2 reader chars lexeme rest hnext halt hstep =>
      rw [run_of_halt hnext hstep] at hrun
      cases hrun
  | case3 reader chars lexeme rest hnext after hstep ih =>
      rw [run_of_step hnext hstep] at hrun
      have hlt := Lexeme.length_of_next? hnext
      have htoken := soundToken_next? hnext (Nat.le_of_lt hlength)
      exact ih hrun (sound_step hstep hsound hlength hlt htoken) (by omega)

end Reader

namespace Json

/-- **A tree that was read** is tidy and legible, and its strings and arrays are no longer than the
text. -/
theorem sound_of_parse {text : String} {value : Json} (hparse : parse text = .ok value) :
    value.Tidy ∧ value.Legible 0 ∧ value.Within (text.length + 1) := by
  have hlength : text.toList.length < text.length + 1 := by
    rw [String.length_toList]
    omega
  have hsound := Reader.sound_run (read_eq_ok_iff.mp hparse) trivial hlength
  exact ⟨hsound.tidy, hsound.legible, hsound.within⟩

end Json

end JsonEdit
