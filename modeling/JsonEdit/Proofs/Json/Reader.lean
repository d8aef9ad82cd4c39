import JsonEdit.Proofs.Json.Every
import JsonEdit.Proofs.Json.Quoted
import JsonEdit.Proofs.Number.Reader

/-!
# Reading a written tree

A written tree is read back, in either layout, with the exponents of its numbers in normal form. There
are two things that the reader does not take: more than 127 lists and objects inside each other, and an
object that begins with the key that stands for a number. Where one of them occurs reading fails.

The reader is followed from value to value: with a value due, and then the characters of a tree, it
either completes that tree or halts.
-/

namespace JsonEdit

/-- If the condition holds the result is the second one, and otherwise reading halts. -/
def Reads (condition : Prop) (result next : Except Halt Json) : Prop :=
  (condition → result = next) ∧ (¬condition → ∃ halt, result = .error halt)

namespace Reads

variable {condition other : Prop} {first second third : Except Halt Json}

theorem of_eq (hcondition : condition) (heq : first = second) : Reads condition first second :=
  ⟨fun _ => heq, fun hnot => absurd hcondition hnot⟩

theorem of_halt (hcondition : ¬condition) (hhalt : ∃ halt, first = .error halt) :
    Reads condition first second :=
  ⟨fun h => absurd h hcondition, fun _ => hhalt⟩

theorem congr (hreads : Reads condition first second) (hiff : condition ↔ other) :
    Reads other first second := by
  rwa [← propext hiff]

theorem trans (hfirst : Reads condition first second) (hsecond : Reads other second third) :
    Reads (condition ∧ other) first third := by
  constructor
  · rintro ⟨hcondition, hother⟩
    rw [hfirst.1 hcondition, hsecond.1 hother]
  · intro hnot
    by_cases hcondition : condition
    · rw [hfirst.1 hcondition]
      exact hsecond.2 fun hother => hnot ⟨hcondition, hother⟩
    · exact hfirst.2 hcondition

end Reads

namespace Json

/-- The reader takes the tree with so many lists and objects open. -/
def Legible (opened : Nat) (tree : Json) : Prop :=
  tree.Unmarked ∧ opened + tree.depth ≤ Reader.depthLimit

/-- An object that begins with the key that stands for a number has another entry. -/
def Guarded : Json → Prop :=
  Every fun
    | .object entries =>
      (entries.map Prod.fst).head? = some Reader.numberKey → 2 ≤ entries.length
    | _ => True

theorem legible_array {opened : Nat} {items : List Json} :
    (array items).Legible opened ↔
      opened < Reader.depthLimit ∧ ∀ item ∈ items, item.Legible (opened + 1) := by
  unfold Legible
  rw [unmarked_array]
  by_cases hopened : opened < Reader.depthLimit
  · obtain ⟨more, hmore⟩ := Nat.exists_eq_add_of_lt hopened
    have hdepth : opened + (array items).depth ≤ Reader.depthLimit ↔
        ∀ item ∈ items, item.depth ≤ more := by
      rw [← depth_array_le_iff, hmore]
      omega
    have hitem : ∀ item : Json, opened + 1 + item.depth ≤ Reader.depthLimit ↔ item.depth ≤ more := by
      intro item
      rw [hmore]
      omega
    simp only [hdepth, hitem, and_iff_right hopened]
    exact forall₂_and.symm
  · have hdepth : 1 ≤ (array items).depth := by
      rw [depth]
      omega
    refine iff_of_false (fun h => ?_) fun h => hopened h.1
    have hbound := h.2
    omega

theorem legible_object {opened : Nat} {entries : Entries Json} :
    (object entries).Legible opened ↔
      opened < Reader.depthLimit ∧ (entries.map Prod.fst).head? ≠ some Reader.numberKey ∧
        ∀ entry ∈ entries, entry.2.Legible (opened + 1) := by
  unfold Legible
  rw [unmarked_object]
  by_cases hopened : opened < Reader.depthLimit
  · obtain ⟨more, hmore⟩ := Nat.exists_eq_add_of_lt hopened
    have hdepth : opened + (object entries).depth ≤ Reader.depthLimit ↔
        ∀ entry ∈ entries, entry.2.depth ≤ more := by
      rw [← depth_object_le_iff, hmore]
      omega
    have hentry : ∀ value : Json, opened + 1 + value.depth ≤ Reader.depthLimit ↔
        value.depth ≤ more := by
      intro value
      rw [hmore]
      omega
    simp only [hdepth, hentry, and_iff_right hopened, and_assoc]
    exact and_congr_right fun _ => forall₂_and.symm
  · have hdepth : 1 ≤ (object entries).depth := by
      rw [depth]
      omega
    refine iff_of_false (fun h => ?_) fun h => hopened h.1
    have hbound := h.2
    omega

theorem guarded_array {items : List Json} :
    (array items).Guarded ↔ ∀ item ∈ items, item.Guarded := by
  rw [Guarded, every_array]
  exact and_iff_right trivial

theorem guarded_object {entries : Entries Json} :
    (object entries).Guarded ↔
      ((entries.map Prod.fst).head? = some Reader.numberKey → 2 ≤ entries.length) ∧
        ∀ entry ∈ entries, entry.2.Guarded := by
  rw [Guarded, every_object]

theorem Unmarked.guarded {tree : Json} (hunmarked : tree.Unmarked) : tree.Guarded :=
  Every.mono hunmarked fun value hvalue => by
    cases value with
    | object entries => exact fun hhead => absurd hhead hvalue
    | _ => trivial

/-- An object with one entry begins with the same key as every object that it equals. -/
theorem two_le_length_of_head?_ne {entries others : Entries Json}
    (hsame : ∀ key, (entries.find? key).map canonical = (others.find? key).map canonical)
    (hmarked : (entries.map Prod.fst).head? = some Reader.numberKey)
    (hfirst : (others.map Prod.fst).head? ≠ some Reader.numberKey) : 2 ≤ entries.length := by
  match entries, hmarked with
  | [(first, value)], hmarked =>
      have hnumber : first = Reader.numberKey := Option.some.inj hmarked
      cases others with
      | nil =>
          have hkey := hsame first
          rw [Entries.find?_cons, if_pos rfl] at hkey
          cases hkey
      | cons entry rest =>
          have hkey := hsame entry.1
          rw [Entries.find?_cons, Entries.find?_cons, if_pos rfl] at hkey
          split at hkey
          · rename_i heq
            exact absurd (congrArg some (heq.symm.trans hnumber)) hfirst
          · cases hkey
  | _ :: _ :: rest, _ => exact Nat.le_add_left 2 rest.length

/-- What holds of all parts of a tree holds of the parts of every equal tree, as far as it depends on
equal parts alone. -/
theorem every_of_beq {given goal : Json → Prop}
    (hnode : ∀ left right : Json, left == right → left.Keyed → given right → goal left)
    {left right : Json} (hequal : left == right) (hkeyed : left.Keyed) (hright : right.Every given) :
    left.Every goal := by
  induction left using Json.induct generalizing right with
  | array items ih =>
      match right, kind_eq_of_beq hequal with
      | .array others, _ =>
          have hmap := array_beq_iff.mp hequal
          refine every_array.mpr ⟨hnode _ _ hequal hkeyed hright.self, fun item hitem => ?_⟩
          obtain ⟨other, hother, hcanonical⟩ :=
            List.mem_map.mp (hmap ▸ List.mem_map_of_mem (f := canonical) hitem)
          exact ih item hitem (beq_iff.mpr hcanonical.symm) (keyed_array.mp hkeyed item hitem)
            ((every_array.mp hright).2 other hother)
  | object entries ih =>
      match right, kind_eq_of_beq hequal with
      | .object others, _ =>
          obtain ⟨hdistinct, hvalues⟩ := keyed_object.mp hkeyed
          refine every_object.mpr ⟨hnode _ _ hequal hkeyed hright.self, fun entry hentry => ?_⟩
          have hkey := object_beq_iff.mp hequal entry.1
          rw [hdistinct.find?_of_mem hentry, Option.map_some] at hkey
          obtain ⟨other, hother, hcanonical⟩ := Option.map_eq_some_iff.mp hkey.symm
          exact ih entry hentry (beq_iff.mpr hcanonical.symm) (hvalues entry hentry)
            ((every_object.mp hright).2 _ (Entries.mem_of_find? hother))
  | _ => exact hnode _ _ hequal hkeyed hright.self

theorem guarded_of_beq {left right : Json} (hequal : left == right) (hkeyed : left.Keyed)
    (hunmarked : right.Unmarked) : left.Guarded := by
  refine every_of_beq (fun left right hequal _ hfirst => ?_) hequal hkeyed hunmarked
  cases left with
  | object entries =>
      match right, kind_eq_of_beq hequal with
      | .object others, _ =>
          exact fun hmarked => two_le_length_of_head?_ne (object_beq_iff.mp hequal) hmarked hfirst
  | _ => trivial

/-- No object has the key that stands for a number. -/
def Markless : Json → Prop :=
  Every fun
    | .object entries => ∀ entry ∈ entries, entry.1 ≠ Reader.numberKey
    | _ => True

/-- In whatever order the keys of a tree stand, one that none of its objects has is never the first. -/
theorem unmarked_of_beq {left right : Json} (hequal : left == right) (hkeyed : left.Keyed)
    (hmarkless : right.Markless) : left.Unmarked := by
  refine every_of_beq (fun left right hequal hkeyed hnone => ?_) hequal hkeyed hmarkless
  cases left with
  | object entries =>
      match right, kind_eq_of_beq hequal with
      | .object others, _ =>
          have hkey := object_beq_iff.mp hequal Reader.numberKey
          rw [Entries.find?_eq_none_iff.mpr hnone, Option.map_none, Option.map_eq_none_iff] at hkey
          intro hfirst
          obtain ⟨entry, hentry, hnumber⟩ := List.mem_map.mp (List.mem_of_head? hfirst)
          exact Entries.find?_eq_none_iff.mp hkey entry hentry hnumber
  | _ => trivial

end Json

/-! ### One lexeme -/

namespace Lexeme

variable {lone : Json.LoneSurrogate}

theorem next?_cons {c : Char} (hblank : isBlank c = false) (rest : List Char) :
    next? lone (c :: rest) = some (beginning lone c rest) := by
  rw [next?, if_neg (by simp [hblank])]

theorem next?_replicate (count : Nat) (chars : List Char) :
    next? lone (List.replicate count ' ' ++ chars) = next? lone chars := by
  induction count with
  | zero => rfl
  | succ count ih =>
      rw [List.replicate_succ, List.cons_append, next?, if_pos (by decide), ih]

theorem next?_lineBreak (layout : Layout) (depth : Nat) (chars : List Char) :
    next? lone (layout.lineBreak depth ++ chars) = next? lone chars := by
  cases layout with
  | compact => rfl
  | indented =>
      rw [Layout.lineBreak, List.cons_append, next?, if_pos (by decide), next?_replicate]

theorem next?_punctuation {c : Char} {token : Token} (htoken : punctuation? c = some token)
    (hblank : isBlank c = false) (rest : List Char) :
    next? lone (c :: rest) = some (⟨token, c :: rest⟩, rest) := by
  rw [next?_cons hblank, beginning, htoken]

theorem next?_quoted (text : String) (rest : List Char) :
    next? lone (Json.quoted text ++ rest) =
      some (⟨.string (.ok text), Json.quoted text ++ rest⟩, rest) := by
  have hquoted : Json.quoted text ++ rest =
      '"' :: (text.toList.flatMap Json.quotedChar ++ '"' :: rest) := by
    rw [Json.quoted, List.cons_append, List.cons_append, List.append_assoc, List.singleton_append]
  rw [hquoted, next?_cons (by decide), beginning, show punctuation? '"' = none from rfl]
  simp only [if_true, Json.readString_quoted, ofRead]

/-- A minus sign or a digit begins a number. -/
theorem next?_numeral {c : Char} (hc : c = '-' ∨ ∃ digit : Digit, c = digit.char) (rest : List Char) :
    next? lone (c :: rest) = some (ofRead (c :: rest) .number (Number.read (c :: rest))) := by
  have hfirst : isBlank c = false ∧ punctuation? c = none ∧ c ≠ '"' ∧ (c = '-' || c.isDigit) := by
    rcases hc with rfl | ⟨digit, rfl⟩
    · exact ⟨by decide, rfl, by decide, by decide⟩
    · revert digit
      decide
  obtain ⟨hblank, hpunctuation, hquote, hnumber⟩ := hfirst
  rw [next?_cons hblank, beginning, hpunctuation]
  simp only [if_neg hquote, if_pos hnumber]

theorem next?_number (number : Number) {rest : List Char} (hrest : Number.Ends rest) :
    next? lone (number.chars ++ rest) =
      some (⟨.number (.ok number), number.chars ++ rest⟩, rest) := by
  obtain ⟨c, tail, hchars, hc⟩ := number.head_chars
  have hread := Number.read_append hrest number
  rw [hchars, List.cons_append] at hread ⊢
  rw [next?_numeral hc, hread, ofRead]

theorem next?_word {c : Char} {value : Json} {letters : List Char} (hword : word? c = some (value, letters))
    (hfirst : isBlank c = false ∧ punctuation? c = none ∧ c ≠ '"' ∧ ¬(c = '-' || c.isDigit))
    (rest : List Char) :
    next? lone (c :: (letters ++ rest)) = some (⟨.word (.ok value), c :: (letters ++ rest)⟩, rest) := by
  obtain ⟨hblank, hpunctuation, hquote, hnumber⟩ := hfirst
  have hread : ∀ letters, readWord letters (letters ++ rest) = .ok rest := by
    intro letters
    induction letters with
    | nil => rfl
    | cons letter letters ih => rw [List.cons_append, readWord, if_pos rfl, ih]
  rw [next?_cons hblank, beginning, hpunctuation]
  simp only [if_neg hquote, if_neg hnumber, hword, hread, Except.map, ofRead]

end Lexeme

namespace Reader

variable {lone : Json.LoneSurrogate} {reader after : Reader} {chars rest : List Char} {lexeme : Lexeme}

theorem run_of_step (hnext : Lexeme.next? lone chars = some (lexeme, rest))
    (hstep : reader.step lexeme = .ok after) : run lone reader chars = run lone after rest := by
  rw [run]
  split
  · rename_i hnone
    rw [hnext] at hnone
    cases hnone
  · rename_i hsome
    rw [hnext] at hsome
    cases hsome
    rw [hstep]

theorem run_of_halt {halt : Halt} (hnext : Lexeme.next? lone chars = some (lexeme, rest))
    (hstep : reader.step lexeme = .error halt) : run lone reader chars = .error halt := by
  rw [run]
  split
  · rename_i hnone
    rw [hnext] at hnone
    cases hnone
  · rename_i hsome
    rw [hnext] at hsome
    cases hsome
    rw [hstep]

theorem run_of_end (hnext : Lexeme.next? lone chars = none) : run lone reader chars = reader.finish := by
  rw [run]
  split
  · rfl
  · rename_i hsome
    rw [hnext] at hsome
    cases hsome

theorem run_congr {chars' : List Char} (hnext : Lexeme.next? lone chars = Lexeme.next? lone chars') :
    run lone reader chars = run lone reader chars' := by
  cases hsome : Lexeme.next? lone chars' with
  | none => rw [run_of_end hsome, run_of_end (hnext.trans hsome)]
  | some pair =>
      obtain ⟨lexeme, rest⟩ := pair
      cases hstep : reader.step lexeme with
      | error halt => rw [run_of_halt hsome hstep, run_of_halt (hnext.trans hsome) hstep]
      | ok after => rw [run_of_step hsome hstep, run_of_step (hnext.trans hsome) hstep]

theorem run_lineBreak (layout : Layout) (depth : Nat) (chars : List Char) :
    run lone reader (layout.lineBreak depth ++ chars) = run lone reader chars :=
  run_congr (Lexeme.next?_lineBreak layout depth chars)

/-! ### The first lexeme of a value -/

variable (layout : Layout) (depth : Nat)

theorem write_array_eq (items : List Json) : ∃ tail,
    (Json.array items).write layout depth = '[' :: tail := by
  rw [Json.write, Json.bracketed]
  split
  · exact ⟨_, rfl⟩
  · exact ⟨_, rfl⟩

theorem write_object_eq (entries : Entries Json) : ∃ tail,
    (Json.object entries).write layout depth = '\x7b' :: tail := by
  rw [Json.write, Json.bracketed]
  split
  · exact ⟨_, rfl⟩
  · exact ⟨_, rfl⟩

def firstToken : Json → Token
  | .null => .word (.ok .null)
  | .bool value => .word (.ok (.bool value))
  | .number value => .number (.ok value.normal)
  | .string value => .string (.ok value)
  | .array _ => .openList
  | .object _ => .openObject

theorem next?_write (lone : Json.LoneSurrogate) (value : Json) (hrest : Number.Ends rest) : ∃ start after,
    Lexeme.next? lone (value.write layout depth ++ rest) = some (⟨firstToken value, start⟩, after) := by
  match value with
  | .null =>
      have hword : Lexeme.word? 'n' = some (.null, ['u', 'l', 'l']) := rfl
      exact ⟨_, _, Lexeme.next?_word hword (by decide) rest⟩
  | .bool true =>
      have hword : Lexeme.word? 't' = some (.bool true, ['r', 'u', 'e']) := rfl
      exact ⟨_, _, Lexeme.next?_word hword (by decide) rest⟩
  | .bool false =>
      have hword : Lexeme.word? 'f' = some (.bool false, ['a', 'l', 's', 'e']) := rfl
      exact ⟨_, _, Lexeme.next?_word hword (by decide) rest⟩
  | .number value => exact ⟨_, _, Lexeme.next?_number value.normal hrest⟩
  | .string value => exact ⟨_, _, Lexeme.next?_quoted value rest⟩
  | .array items =>
      obtain ⟨tail, htail⟩ := write_array_eq layout depth items
      rw [htail]
      exact ⟨_, _, Lexeme.next?_punctuation rfl (by decide) _⟩
  | .object entries =>
      obtain ⟨tail, htail⟩ := write_object_eq layout depth entries
      rw [htail]
      exact ⟨_, _, Lexeme.next?_punctuation rfl (by decide) _⟩

theorem step_itemDue {items : List Json} {frames : List Frame} (hne : lexeme.token ≠ .closeList) :
    step (.itemDue items frames) lexeme = beginValue (.list items :: frames) lexeme := by
  obtain ⟨token, start⟩ := lexeme
  cases token with
  | closeList => exact absurd rfl hne
  | _ => rfl

/-- Where an element may stand a value is read like anywhere else. -/
theorem run_itemDue (items : List Json) (frames : List Frame) (value : Json)
    (hrest : Number.Ends rest) :
    run lone (.itemDue items frames) (value.write layout depth ++ rest) =
      run lone (.valueDue (.list items :: frames)) (value.write layout depth ++ rest) := by
  obtain ⟨start, after, hnext⟩ := next?_write layout depth lone value hrest
  have hstep : step (.itemDue items frames) ⟨firstToken value, start⟩ =
      step (.valueDue (.list items :: frames)) ⟨firstToken value, start⟩ :=
    step_itemDue (by cases value <;> simp [firstToken])
  cases hresult : step (.valueDue (.list items :: frames)) ⟨firstToken value, start⟩ with
  | error halt => rw [run_of_halt hnext hresult, run_of_halt hnext (hstep.trans hresult)]
  | ok reader => rw [run_of_step hnext hresult, run_of_step hnext (hstep.trans hresult)]

/-! ### Leaves -/

/-- What follows a written value cannot go on with a number. -/
theorem ends_lineBreak (c : Char) (chars : List Char) (hc : Digit.ofChar? c = none ∧ c ≠ '.' ∧ c ≠ 'e' ∧ c ≠ 'E') :
    Number.Ends (layout.lineBreak depth ++ c :: chars) := by
  cases layout with
  | compact =>
      rintro _ ⟨⟩
      exact hc
  | indented =>
      rintro _ ⟨⟩
      decide

/-- A value without elements and entries is one lexeme. -/
theorem run_leaf (frames : List Frame) (value : Json) (hrest : Number.Ends rest)
    (hleaf : value.isContainer = false) :
    run lone (.valueDue frames) (value.write layout depth ++ rest) =
      run lone (complete value.normal frames) rest := by
  match value with
  | .null =>
      have hword : Lexeme.word? 'n' = some (.null, ['u', 'l', 'l']) := rfl
      exact run_of_step (Lexeme.next?_word hword (by decide) rest) rfl
  | .bool true =>
      have hword : Lexeme.word? 't' = some (.bool true, ['r', 'u', 'e']) := rfl
      exact run_of_step (Lexeme.next?_word hword (by decide) rest) rfl
  | .bool false =>
      have hword : Lexeme.word? 'f' = some (.bool false, ['a', 'l', 's', 'e']) := rfl
      exact run_of_step (Lexeme.next?_word hword (by decide) rest) rfl
  | .number value =>
      refine run_of_step (Lexeme.next?_number value.normal hrest) ?_
      change Except.ok (complete (.number value.normal.normal) frames) = _
      rw [Number.normal_normal, Json.normal]
  | .string value => exact run_of_step (Lexeme.next?_quoted value rest) rfl

/-- After the key that stands for a number there is no value that another entry may follow. -/
theorem run_numberTextDue (frames : List Frame) (value : Json) (chars : List Char) : ∃ halt,
    run lone (.numberTextDue frames) (value.write layout depth ++ ',' :: chars) = .error halt := by
  have hends : Number.Ends (',' :: chars) := by
    rintro _ ⟨⟩
    decide
  match value with
  | .string text =>
      cases hread : Number.readAll text.toList with
      | error stop =>
          refine ⟨.withinNumberText (.ofStop text.toList stop), ?_⟩
          refine run_of_halt (Lexeme.next?_quoted text _) ?_
          rw [step, beginNumberText]
          simp only [continueWith, hread]
      | ok number =>
          refine ⟨.stop ⟨.trailingComma, ',' :: chars, 1⟩, ?_⟩
          have hnumber : step (.numberTextDue frames)
              ⟨.string (.ok text), Json.quoted text ++ ',' :: chars⟩ = .ok (.afterNumber number frames) := by
            rw [step, beginNumberText]
            simp only [continueWith, hread]
          exact (run_of_step (Lexeme.next?_quoted text _) hnumber).trans
            (run_of_halt (Lexeme.next?_punctuation rfl (by decide) chars) rfl)
  | .null | .bool true | .bool false | .number _ | .array _ | .object _ =>
      obtain ⟨start, after, hnext⟩ := next?_write layout depth lone _ hends
      exact ⟨_, run_of_halt hnext rfl⟩

/-! ### Arrays -/

/-- The written value is read back wherever a value is due, if it is legible there. -/
def ReadsBack (lone : Json.LoneSurrogate) (layout : Layout) (value : Json) : Prop :=
  ∀ (depth : Nat) (frames : List Frame) (rest : List Char), frames.length ≤ depthLimit →
    Number.Ends rest →
    Reads (value.Legible frames.length)
      (run lone (.valueDue frames) (value.write layout depth ++ rest))
      (run lone (complete value.normal frames) rest)

theorem ends_comma (chars : List Char) : Number.Ends (',' :: chars) := by
  rintro _ ⟨⟩
  decide

theorem writeItems_singleton (item : Json) (chars : List Char) :
    Json.writeItems layout depth [item] ++ chars =
      layout.lineBreak depth ++ (item.write layout depth ++ chars) := by
  simp [Json.writeItems]

theorem writeItems_cons_cons (item next : Json) (others : List Json) (chars : List Char) :
    Json.writeItems layout depth (item :: next :: others) ++ chars =
      layout.lineBreak depth ++ (item.write layout depth ++
        ',' :: (Json.writeItems layout depth (next :: others) ++ chars)) := by
  rw [Json.writeItems]
  simp

theorem reads_items {items : List Json} (hitems : ∀ item ∈ items, ReadsBack lone layout item)
    (hne : items ≠ []) (seen : List Json) {frames : List Frame} (hframes : frames.length < depthLimit)
    (outer : Nat) (rest : List Char) :
    Reads (∀ item ∈ items, item.Legible (frames.length + 1))
      (run lone (.itemDue seen frames)
        (Json.writeItems layout depth items ++ (layout.lineBreak outer ++ ']' :: rest)))
      (run lone (complete (.array (seen.reverse ++ items.map Json.normal)) frames) rest) := by
  induction items generalizing seen with
  | nil => exact absurd rfl hne
  | cons item more ih =>
      obtain ⟨hitem, hmore⟩ := List.forall_mem_cons.mp hitems
      cases more with
      | nil =>
          have hends : Number.Ends (layout.lineBreak outer ++ ']' :: rest) :=
            ends_lineBreak layout outer ']' rest (by decide)
          have hlast : run lone (.afterItem (item.normal :: seen) frames)
              (layout.lineBreak outer ++ ']' :: rest) =
              run lone (complete (.array (seen.reverse ++ [item.normal])) frames) rest := by
            rw [run_lineBreak, run_of_step (Lexeme.next?_punctuation rfl (by decide) rest) rfl, closeList,
              List.reverse_cons]
          have hfirst := hitem depth (.list seen :: frames) _ hframes hends
          rw [← run_itemDue layout depth seen frames item hends] at hfirst
          rw [writeItems_singleton, run_lineBreak, List.map_cons, List.map_nil, ← hlast]
          exact hfirst.congr List.forall_mem_singleton.symm
      | cons next others =>
          have hcomma : run lone (.afterItem (item.normal :: seen) frames)
              (',' :: (Json.writeItems layout depth (next :: others) ++
                (layout.lineBreak outer ++ ']' :: rest))) =
              run lone (.itemDue (item.normal :: seen) frames)
                (Json.writeItems layout depth (next :: others) ++
                  (layout.lineBreak outer ++ ']' :: rest)) :=
            run_of_step (Lexeme.next?_punctuation rfl (by decide) _) rfl
          have hends := ends_comma
            (Json.writeItems layout depth (next :: others) ++ (layout.lineBreak outer ++ ']' :: rest))
          have hfirst := hitem depth (.list seen :: frames) _ hframes hends
          rw [← run_itemDue layout depth seen frames item hends] at hfirst
          have hrest := ih hmore (List.cons_ne_nil next others) (item.normal :: seen)
          rw [← hcomma, List.reverse_cons, List.append_assoc, List.singleton_append] at hrest
          rw [writeItems_cons_cons, run_lineBreak]
          exact (hfirst.trans hrest).congr List.forall_mem_cons.symm

theorem write_ne_nil (value : Json) : value.write layout depth ≠ [] := by
  intro hnil
  obtain ⟨start, after, hnext⟩ := next?_write layout depth .refused value
    (show Number.Ends [] from fun c hc => by cases hc)
  rw [hnil] at hnext
  cases hnext

theorem isEmpty_writeItems (items : List Json) :
    (Json.writeItems layout depth items).isEmpty = items.isEmpty := by
  cases items with
  | nil => rfl
  | cons item rest => simp [Json.writeItems, write_ne_nil]

theorem readsBack_array {items : List Json} (hitems : ∀ item ∈ items, ReadsBack lone layout item) :
    ReadsBack lone layout (.array items) := by
  intro depth frames rest _ _
  refine Reads.congr ?_ Json.legible_array.symm
  by_cases hopened : frames.length < depthLimit
  · have hopen : ∀ tail, run lone (.valueDue frames) ('[' :: tail) = run lone (.itemDue [] frames) tail := by
      intro tail
      refine run_of_step (Lexeme.next?_punctuation rfl (by decide) tail) ?_
      exact if_neg (Nat.not_le.mpr hopened)
    rw [Json.write, Json.bracketed, isEmpty_writeItems, Json.normal_array]
    cases items with
    | nil =>
        refine Reads.of_eq ⟨hopened, by simp⟩ ((hopen _).trans ?_)
        exact run_of_step (Lexeme.next?_punctuation rfl (by decide) rest) rfl
    | cons item more =>
        have hreads := reads_items layout (depth + 1) hitems (List.cons_ne_nil item more) [] hopened
          depth rest
        rw [← hopen] at hreads
        simpa [hopened] using hreads
  · obtain ⟨tail, htail⟩ := write_array_eq layout depth items
    rw [htail]
    refine Reads.of_halt (fun h => hopened h.1) ⟨.stop ⟨.tooDeep, '[' :: (tail ++ rest), 1⟩, ?_⟩
    refine run_of_halt (Lexeme.next?_punctuation rfl (by decide) (tail ++ rest)) ?_
    exact if_pos (Nat.not_lt.mp hopened)

/-! ### Objects -/

theorem writeEntries_singleton (entry : String × Json) (chars : List Char) :
    Json.writeEntries layout depth [entry] ++ chars =
      layout.lineBreak depth ++ (Json.quoted entry.1 ++ (layout.colon ++
        (entry.2.write layout depth ++ chars))) := by
  simp [Json.writeEntries]

theorem writeEntries_cons_cons (entry next : String × Json) (others : Entries Json)
    (chars : List Char) :
    Json.writeEntries layout depth (entry :: next :: others) ++ chars =
      layout.lineBreak depth ++ (Json.quoted entry.1 ++ (layout.colon ++
        (entry.2.write layout depth ++
          ',' :: (Json.writeEntries layout depth (next :: others) ++ chars)))) := by
  rw [Json.writeEntries]
  simp

theorem run_colon (entries : Entries Json) (key : String) (frames : List Frame) (chars : List Char) :
    run lone (.colonDue entries key frames) (layout.colon ++ chars) =
      run lone (.valueDue (.object entries key :: frames)) chars := by
  cases layout with
  | compact => exact run_of_step (Lexeme.next?_punctuation rfl (by decide) chars) rfl
  | indented =>
      refine (run_of_step (Lexeme.next?_punctuation rfl (by decide) (' ' :: chars)) rfl).trans ?_
      exact run_congr (Lexeme.next?_replicate 1 chars)

theorem run_numberColonDue (frames : List Frame) (value : Json) (chars : List Char) : ∃ halt,
    run lone (.numberColonDue frames)
      (layout.colon ++ (value.write layout depth ++ ',' :: chars)) = .error halt := by
  have hcolon : run lone (.numberColonDue frames)
      (layout.colon ++ (value.write layout depth ++ ',' :: chars)) =
      run lone (.numberTextDue frames) (value.write layout depth ++ ',' :: chars) := by
    cases layout with
    | compact => exact run_of_step (Lexeme.next?_punctuation rfl (by decide) _) rfl
    | indented =>
        refine (run_of_step (Lexeme.next?_punctuation rfl (by decide) (' ' :: _)) rfl).trans ?_
        exact run_congr (Lexeme.next?_replicate 1 _)
  rw [hcolon]
  exact run_numberTextDue layout depth frames value chars

/-- A key with its colon, unless it is the first one and stands for a number. -/
theorem run_key (seen : Entries Json) (key : String) (frames : List Frame) (chars : List Char)
    (hkey : seen = [] → key ≠ numberKey) :
    run lone (.keyDue seen frames) (Json.quoted key ++ (layout.colon ++ chars)) =
      run lone (.valueDue (.object seen key :: frames)) chars := by
  rw [← run_colon]
  refine run_of_step (Lexeme.next?_quoted key (layout.colon ++ chars)) ?_
  refine if_neg fun hmarked => ?_
  simp only [Bool.and_eq_true, List.isEmpty_iff, decide_eq_true_eq] at hmarked
  exact hkey hmarked.1 hmarked.2

theorem reads_entries {entries : Entries Json}
    (hentries : ∀ entry ∈ entries, ReadsBack lone layout entry.2) (hne : entries ≠ [])
    (seen : Entries Json) (hdistinct : Entries.Distinct (seen ++ entries))
    (hfirst : seen = [] → (entries.map Prod.fst).head? ≠ some numberKey)
    {frames : List Frame} (hframes : frames.length < depthLimit) (outer : Nat) (rest : List Char) :
    Reads (∀ entry ∈ entries, entry.2.Legible (frames.length + 1))
      (run lone (.keyDue seen frames)
        (Json.writeEntries layout depth entries ++ (layout.lineBreak outer ++ '\x7d' :: rest)))
      (run lone
        (complete (.object (seen ++ entries.map fun entry => (entry.1, entry.2.normal))) frames)
        rest) := by
  induction entries generalizing seen with
  | nil => exact absurd rfl hne
  | cons entry more ih =>
      obtain ⟨hentry, hmore⟩ := List.forall_mem_cons.mp hentries
      have hkey : seen = [] → entry.1 ≠ numberKey := fun hseen heq => hfirst hseen (congrArg some heq)
      have hfresh : seen.find? entry.1 = none := by
        refine Entries.find?_eq_none_iff.mpr fun other hother => ?_
        exact (List.pairwise_append.mp hdistinct).2.2 other hother entry List.mem_cons_self
      have hput : seen.put entry.1 entry.2.normal = seen ++ [(entry.1, entry.2.normal)] :=
        Entries.put_of_find?_eq_none hfresh _
      cases more with
      | nil =>
          have hends : Number.Ends (layout.lineBreak outer ++ '\x7d' :: rest) :=
            ends_lineBreak layout outer '\x7d' rest (by decide)
          have hlast : run lone (complete entry.2.normal (.object seen entry.1 :: frames))
              (layout.lineBreak outer ++ '\x7d' :: rest) =
              run lone (complete (.object (seen ++ [(entry.1, entry.2.normal)])) frames) rest := by
            rw [complete, hput, run_lineBreak]
            exact run_of_step (Lexeme.next?_punctuation rfl (by decide) rest) rfl
          have hvalue := hentry depth (.object seen entry.1 :: frames) _ hframes hends
          rw [hlast] at hvalue
          rw [writeEntries_singleton, run_lineBreak, run_key layout seen entry.1 frames _ hkey]
          exact hvalue.congr (by simp)
      | cons next others =>
          have hcomma : run lone (complete entry.2.normal (.object seen entry.1 :: frames))
              (',' :: (Json.writeEntries layout depth (next :: others) ++
                (layout.lineBreak outer ++ '\x7d' :: rest))) =
              run lone (.keyDue (seen ++ [(entry.1, entry.2.normal)]) frames)
                (Json.writeEntries layout depth (next :: others) ++
                  (layout.lineBreak outer ++ '\x7d' :: rest)) := by
            rw [complete, hput]
            exact run_of_step (Lexeme.next?_punctuation rfl (by decide) _) rfl
          have hends := ends_comma (Json.writeEntries layout depth (next :: others) ++
            (layout.lineBreak outer ++ '\x7d' :: rest))
          have hvalue := hentry depth (.object seen entry.1 :: frames) _ hframes hends
          rw [hcomma] at hvalue
          have hdistinct' :
              Entries.Distinct (seen ++ [(entry.1, entry.2.normal)] ++ next :: others) := by
            rw [Entries.distinct_iff_nodup] at hdistinct ⊢
            simpa using hdistinct
          have hrest := ih hmore (List.cons_ne_nil next others) (seen ++ [(entry.1, entry.2.normal)])
            hdistinct' (fun hnil => by simp at hnil)
          rw [writeEntries_cons_cons, run_lineBreak, run_key layout seen entry.1 frames _ hkey]
          rw [List.append_assoc, List.singleton_append] at hrest
          exact (hvalue.trans hrest).congr (by simp)

theorem isEmpty_writeEntries (entries : Entries Json) :
    (Json.writeEntries layout depth entries).isEmpty = entries.isEmpty := by
  cases entries with
  | nil => rfl
  | cons entry rest => simp [Json.writeEntries, Json.quoted]

theorem readsBack_object {entries : Entries Json}
    (hentries : ∀ entry ∈ entries, ReadsBack lone layout entry.2) (hdistinct : entries.Distinct)
    (hguarded : (entries.map Prod.fst).head? = some numberKey → 2 ≤ entries.length) :
    ReadsBack lone layout (.object entries) := by
  intro depth frames rest _ _
  refine Reads.congr ?_ Json.legible_object.symm
  by_cases hopened : frames.length < depthLimit
  · have hopen : ∀ tail,
        run lone (.valueDue frames) ('\x7b' :: tail) = run lone (.keyDue [] frames) tail := by
      intro tail
      refine run_of_step (Lexeme.next?_punctuation rfl (by decide) tail) ?_
      exact if_neg (Nat.not_le.mpr hopened)
    rw [Json.write, Json.bracketed, isEmpty_writeEntries, Json.normal_object]
    match entries with
    | [] =>
        refine Reads.of_eq ⟨hopened, by simp⟩ ((hopen _).trans ?_)
        exact run_of_step (Lexeme.next?_punctuation rfl (by decide) rest) rfl
    | entry :: more =>
        by_cases hmarked : entry.1 = numberKey
        · match more with
          | [] => exact absurd (hguarded (congrArg some hmarked)) (by simp)
          | next :: others =>
              refine Reads.of_halt (fun h => h.2.1 (congrArg some hmarked)) ?_
              simp only [List.isEmpty_cons, Bool.false_eq_true, if_false, List.cons_append,
                List.append_assoc]
              rw [hopen, writeEntries_cons_cons, run_lineBreak]
              have hkey : ∀ chars, run lone (.keyDue [] frames) (Json.quoted entry.1 ++ chars) =
                  run lone (.numberColonDue frames) chars := by
                intro chars
                refine run_of_step (Lexeme.next?_quoted entry.1 chars) ?_
                exact if_pos (by simp [hmarked])
              rw [hkey]
              exact run_numberColonDue layout (depth + 1) frames entry.2 _
        · have hreads := reads_entries layout (depth + 1) hentries (List.cons_ne_nil entry more) []
            hdistinct (fun _ => by simpa using hmarked) hopened depth rest
          rw [← hopen] at hreads
          simpa [hopened, hmarked] using hreads
  · obtain ⟨tail, htail⟩ := write_object_eq layout depth entries
    rw [htail]
    refine Reads.of_halt (fun h => hopened h.1) ⟨.stop ⟨.tooDeep, '\x7b' :: (tail ++ rest), 1⟩, ?_⟩
    refine run_of_halt (Lexeme.next?_punctuation rfl (by decide) (tail ++ rest)) ?_
    exact if_pos (Nat.not_lt.mp hopened)

/-- **A written value is read back.** -/
theorem readsBack {value : Json} (hkeyed : value.Keyed) (hguarded : value.Guarded) :
    ReadsBack lone layout value := by
  induction value using Json.induct with
  | array items ih =>
      have hkeyed := Json.keyed_array.mp hkeyed
      have hguarded := Json.guarded_array.mp hguarded
      exact readsBack_array layout fun item hitem => ih item hitem (hkeyed item hitem) (hguarded item hitem)
  | object entries ih =>
      obtain ⟨hdistinct, hkeyed⟩ := Json.keyed_object.mp hkeyed
      obtain ⟨hmarked, hguarded⟩ := Json.guarded_object.mp hguarded
      exact readsBack_object layout
        (fun entry hentry => ih entry hentry (hkeyed entry hentry) (hguarded entry hentry)) hdistinct
        hmarked
  | null | bool value | number value | string value =>
      intro depth frames rest hframes hrest
      exact Reads.of_eq ⟨trivial, hframes⟩ (run_leaf layout depth frames _ hrest rfl)

end Reader

namespace Json

theorem read_eq_ok_iff {lone : LoneSurrogate} {chars : List Char} {value : Json} :
    read lone chars = .ok value ↔ Reader.run lone (.valueDue []) chars = .ok value := by
  rw [read]
  split
  · rename_i hrun
    rw [hrun, Except.ok.injEq, Except.ok.injEq]
  all_goals
    rename_i hrun
    simp [hrun]

/-- **The text of a tree is read back** if the tree is legible, and cannot be read otherwise. -/
theorem read_write (lone : LoneSurrogate) (layout : Layout) {value : Json} (hkeyed : value.Keyed)
    (hguarded : value.Guarded) :
    (value.Legible 0 → read lone (value.write layout 0) = .ok value.normal) ∧
      (¬value.Legible 0 → ∃ error, read lone (value.write layout 0) = .error error) := by
  have hback : Reader.ReadsBack lone layout value := Reader.readsBack layout hkeyed hguarded
  have hreads : Reads (value.Legible 0) _ _ :=
    hback 0 [] [] (Nat.zero_le _) fun c hc => by cases hc
  have hdone : Reader.run lone (.done value.normal) [] = .ok value.normal := Reader.run_of_end rfl
  rw [List.append_nil, Reader.complete, hdone] at hreads
  constructor
  · exact fun hlegible => read_eq_ok_iff.mpr (hreads.1 hlegible)
  · intro hnot
    obtain ⟨halt, hhalt⟩ := hreads.2 hnot
    rw [read, hhalt]
    cases halt with
    | stop stop => exact ⟨_, rfl⟩
    | withinNumberText error => exact ⟨_, rfl⟩

/-- **A written tree is read back** with the exponents of its numbers in normal form. -/
theorem parse_toText (layout : Layout) {value : Json} (hkeyed : value.Keyed)
    (hlegible : value.Legible 0) : parse (value.toText layout) = .ok value.normal := by
  rw [parse, toText, String.toList_ofList]
  exact (read_write .replaced layout hkeyed hlegible.1.guarded).1 hlegible

/-- A clean tree that is not too deep is read back from either of its texts. -/
theorem Clean.parse_toText {value : Json} (hclean : value.Clean) (layout : Layout)
    (hdepth : value.depth ≤ Reader.depthLimit) : parse (value.toText layout) = .ok value := by
  have hparse := Json.parse_toText layout hclean.1.keyed ⟨hclean.2, by rwa [Nat.zero_add]⟩
  rwa [hclean.1.normal_eq] at hparse

/-- The text of a tree that is not legible is refused. -/
theorem exists_parse_toText_eq_error (layout : Layout) {value : Json} (hkeyed : value.Keyed)
    (hguarded : value.Guarded) (hnot : ¬value.Legible 0) :
    ∃ error, parse (value.toText layout) = .error error := by
  rw [parse, toText, String.toList_ofList]
  exact (read_write .replaced layout hkeyed hguarded).2 hnot

end Json

end JsonEdit
