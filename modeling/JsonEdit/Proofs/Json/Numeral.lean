import JsonEdit.Proofs.Json.Text
import JsonEdit.Proofs.Number.Grammar

/-!
# A text that is one number

A tree is read lexeme by lexeme, and a number as a text of its own. On a text that begins with a minus
sign or a digit and does not end in a blank both read the same: the first lexeme is a number, and any
character behind it is too many. So there is one grammar of numbers, and the two results differ in the
form of the exponent only.
-/

namespace JsonEdit

theorem Digit.exists_char_of_isDigit {c : Char} (hc : c.isDigit) : ∃ digit : Digit, c = digit.char := by
  have hascii : '0'.toNat ≤ c.toNat ∧ c.toNat < '0'.toNat + 10 := by
    rw [Char.isDigit, Bool.and_eq_true, decide_eq_true_eq, decide_eq_true_eq,
      ge_iff_le, UInt32.le_iff_toNat_le, UInt32.le_iff_toNat_le] at hc
    exact ⟨hc.1, Nat.lt_succ_of_le hc.2⟩
  have hdigit : ofChar? c = some ⟨c.toNat - '0'.toNat, by omega⟩ := dif_pos hascii
  exact ⟨_, (char_of_ofChar? hdigit).symm⟩

namespace Lexeme

variable {lone : Json.LoneSurrogate}

theorem next?_eq_none_iff {chars : List Char} :
    next? lone chars = none ↔ ∀ c ∈ chars, isBlank c := by
  induction chars with
  | nil => simp [next?]
  | cons c rest ih =>
      rw [next?]
      split
      · rename_i hblank
        rw [ih, List.forall_mem_cons, and_iff_right hblank]
      · rename_i hblank
        simp [hblank]

/-- Only blanks can be behind a lexeme where the text does not end in a blank, so nothing is. -/
theorem eq_nil_of_isBlank {text front rest : List Char} (htext : text = front ++ rest)
    (hlast : ∀ c ∈ text.getLast?, isBlank c = false) (hblank : ∀ c ∈ rest, isBlank c) : rest = [] := by
  by_contra hne
  have hend : rest.getLast hne ∈ text.getLast? := by
    rw [htext, List.getLast?_append_of_ne_nil _ hne, List.getLast?_eq_getLast_of_ne_nil hne]
    rfl
  exact absurd (hblank _ (List.getLast_mem hne)) (by simp [hlast _ hend])

end Lexeme

namespace Reader

variable {lone : Json.LoneSurrogate} {chars rest : List Char} {tree value : Json}

/-- Behind a complete tree only blanks may stand. -/
theorem run_done_eq_ok_iff :
    run lone (.done value) chars = .ok tree ↔ (∀ c ∈ chars, Lexeme.isBlank c) ∧ value = tree := by
  rw [← Lexeme.next?_eq_none_iff]
  cases hnext : Lexeme.next? lone chars with
  | none =>
      rw [run_of_end hnext, finish, Except.ok.injEq]
      exact (and_iff_right rfl).symm
  | some next =>
      obtain ⟨lexeme, rest⟩ := next
      rw [run_of_halt hnext rfl]
      simp

/-- What is read at a minus sign or a digit is a number with nothing but blanks behind it. -/
theorem run_numeral_eq_ok_iff {c : Char} (hc : c = '-' ∨ ∃ digit : Digit, c = digit.char) :
    run lone (.valueDue []) (c :: chars) = .ok tree ↔
      ∃ number rest, Number.read (c :: chars) = .ok (number, rest) ∧
        (∀ c ∈ rest, Lexeme.isBlank c) ∧ .number number.normal = tree := by
  have hnext : Lexeme.next? lone (c :: chars) = _ := Lexeme.next?_numeral hc chars
  cases hread : Number.read (c :: chars) with
  | error stop =>
      rw [hread] at hnext
      rw [run_of_halt hnext rfl]
      simp
  | ok result =>
      obtain ⟨number, rest⟩ := result
      rw [hread] at hnext
      have hstep : run lone (.valueDue []) (c :: chars) = run lone (.done (.number number.normal)) rest :=
        run_of_step hnext rfl
      rw [hstep, run_done_eq_ok_iff]
      simp

end Reader

namespace Json

variable {text : String} {tree : Json}

/-- Where no blank ends the text, the number is all that there is. -/
theorem parse_numeral_eq_ok_iff (hfirst : ∃ c ∈ text.toList.head?, c = '-' ∨ c.isDigit)
    (hlast : ∀ c ∈ text.toList.getLast?, Lexeme.isBlank c = false) :
    parse text = .ok tree ↔
      ∃ number, Number.parse? text = some number ∧ .number number.normal = tree := by
  obtain ⟨c, hc, hnumeral⟩ := hfirst
  obtain ⟨rest, hchars⟩ := List.head?_eq_some_iff.mp hc
  have hnumeral' : c = '-' ∨ ∃ digit : Digit, c = digit.char :=
    hnumeral.imp_right Digit.exists_char_of_isDigit
  rw [parse, read_eq_ok_iff, hchars, Reader.run_numeral_eq_ok_iff hnumeral', ← hchars]
  refine exists_congr fun number => ?_
  rw [Number.parse?_eq_some_iff]
  constructor
  · rintro ⟨after, hread, hblank, htree⟩
    have htext := Number.of_read hread
    rw [Lexeme.eq_nil_of_isBlank htext hlast hblank, List.append_nil] at htext
    exact ⟨by rw [Number.text, ← htext, String.ofList_toList], htree⟩
  · rintro ⟨htext, htree⟩
    refine ⟨[], ?_, by simp, htree⟩
    have hends : Number.Ends [] := fun c hc => by cases hc
    have hread := Number.read_append hends number
    rw [List.append_nil] at hread
    rw [htext, Number.text, String.toList_ofList, hread]

/-- **There is one grammar of numbers.** A text that begins with a minus sign or a digit and does not end
in a blank is read as a number if and only if it matches the regular expression, and if and only if it
is read as a tree. The tree is then an equal number, whose text differs in the normal form of the
exponent only. -/
theorem parse_numeral (hfirst : ∃ c ∈ text.toList.head?, c = '-' ∨ c.isDigit)
    (hlast : ∀ c ∈ text.toList.getLast?, Lexeme.isBlank c = false) :
    ((Number.parse? text).isSome ↔ text.toList ∈ Number.Grammar.number.matches') ∧
      ((Number.parse? text).isSome ↔ ∃ tree, parse text = .ok tree) ∧
        ∀ number, Number.parse? text = some number → number.text = text ∧
          ∃ read : Number, parse text = .ok (.number read) ∧ read == number ∧
            read.text.toList = Number.normalChars text.toList := by
  refine ⟨Number.Grammar.isSome_parse?_iff, ?_, fun number hnumber => ?_⟩
  · rw [Option.isSome_iff_exists]
    constructor
    · rintro ⟨number, hnumber⟩
      exact ⟨_, (parse_numeral_eq_ok_iff hfirst hlast).mpr ⟨number, hnumber, rfl⟩⟩
    · rintro ⟨tree, htree⟩
      obtain ⟨number, hnumber, -⟩ := (parse_numeral_eq_ok_iff hfirst hlast).mp htree
      exact ⟨number, hnumber⟩
  · have htext := Number.parse?_eq_some_iff.mp hnumber
    refine ⟨htext.symm, number.normal, ?_, ?_, ?_⟩
    · exact (parse_numeral_eq_ok_iff hfirst hlast).mpr ⟨number, hnumber, rfl⟩
    · exact Number.beq_iff.mpr number.scientific_normal
    · rw [htext, Number.text, Number.text, String.toList_ofList, String.toList_ofList,
        Number.chars_normal]

/-- A large mark without a sign, behind a fraction that ends in a zero. -/
theorem parse_numeral_mark :
    let text := "-1.50E007"
    (∃ c ∈ text.toList.head?, c = '-' ∨ c.isDigit) ∧
      (∀ c ∈ text.toList.getLast?, Lexeme.isBlank c = false) ∧
        text.toList ∈ Number.Grammar.number.matches' ∧
          ∃ number read : Number, Number.parse? text = some number ∧ number.text = text ∧
            parse text = .ok (.number read) ∧ read == number ∧ read.text = "-1.50e+007" := by
  intro text
  have hfirst : ∃ c ∈ text.toList.head?, c = '-' ∨ c.isDigit := ⟨'-', by decide, .inl rfl⟩
  have hlast : ∀ c ∈ text.toList.getLast?, Lexeme.isBlank c = false := by
    have hend : text.toList.getLast? = some '7' := by decide +kernel
    rw [hend]
    rintro _ ⟨⟩
    rfl
  have hsome : (Number.parse? text).isSome := by decide +kernel
  obtain ⟨hgrammar, -, hnumbers⟩ := parse_numeral hfirst hlast
  obtain ⟨number, hnumber⟩ := Option.isSome_iff_exists.mp hsome
  obtain ⟨htext, read, hread, hequal, hnormal⟩ := hnumbers number hnumber
  have hwritten : Number.normalChars text.toList = "-1.50e+007".toList := by decide +kernel
  exact ⟨hfirst, hlast, hgrammar.mp hsome, number, read, hnumber, htext, hread, hequal,
    String.toList_inj.mp (hnormal.trans hwritten)⟩

end Json

end JsonEdit
