import JsonEdit.Path.Parser
import JsonEdit.Proofs.Path.Grammar

/-!
# Quoted strings in paths

What is read between quotes is what pieces spell. A unit is read on its own unless it and the next piece
are the surrogates of one character, and the reader looks ahead to tell; so reading follows the cases of
the decoded pieces, one or two at a time.
-/

namespace JsonEdit

namespace Path

theorem escaped?_eq_some_iff {letter c : Char} :
    escaped? letter = some c ↔ (letter, c) ∈ Piece.letters := by
  constructor
  · intro hescaped
    unfold escaped? at hescaped
    split at hescaped <;> cases hescaped <;> decide
  · intro hletter
    simp only [Piece.letters, List.mem_cons, List.not_mem_nil, or_false, Prod.mk.injEq] at hletter
    rcases hletter with ⟨rfl, rfl⟩ | ⟨rfl, rfl⟩ | ⟨rfl, rfl⟩ | ⟨rfl, rfl⟩ | ⟨rfl, rfl⟩ | ⟨rfl, rfl⟩ |
      ⟨rfl, rfl⟩ | ⟨rfl, rfl⟩
    all_goals rfl

theorem ne_unit_of_escaped? {letter c : Char} (hescaped : escaped? letter = some c) : letter ≠ 'u' := by
  rintro rfl
  cases hescaped

section Quoted

variable {a b c d e f g h : Char} {first second unit : Text.CodeUnit} {rest : List Char}

theorem readQuotedBody_plain (read : List Char) (hquote : c ≠ '"') (hbackslash : c ≠ '\\')
    (rest : List Char) : readQuotedBody read (c :: rest) = readQuotedBody (c :: read) rest := by
  rw [readQuotedBody]
  all_goals
    intros
    contradiction

theorem readQuotedBody_letter (read : List Char) {letter : Char} (hescaped : escaped? letter = some c)
    (rest : List Char) :
    readQuotedBody read ('\\' :: letter :: rest) = readQuotedBody (c :: read) rest := by
  rw [readQuotedBody]
  · rw [hescaped]
  · exact fun _ _ _ _ _ heq _ => ne_unit_of_escaped? hescaped heq

theorem readQuotedBody_single (read : List Char) (hunit : escapedUnit? a b c d = some unit)
    (hhigh : unit.isHigh = false) (rest : List Char) :
    readQuotedBody read ('\\' :: 'u' :: a :: b :: c :: d :: rest) =
      readQuotedBody (unit.single :: read) rest := by
  rw [readQuotedBody, hunit]
  simp only [hhigh, Bool.false_eq_true, if_false]

theorem readQuotedBody_pair (read : List Char) (hfirst : escapedUnit? a b c d = some first)
    (hhigh : first.isHigh = true) (hsecond : escapedUnit? e f g h = some second)
    (hlow : second.isLow = true) (rest : List Char) :
    readQuotedBody read
        ('\\' :: 'u' :: a :: b :: c :: d :: '\\' :: 'u' :: e :: f :: g :: h :: rest) =
      readQuotedBody (first.pair second :: read) rest := by
  rw [readQuotedBody, hfirst]
  simp only [hhigh, hsecond, hlow, if_true]

theorem readQuotedBody_unpaired (read : List Char) (hfirst : escapedUnit? a b c d = some first)
    (hhigh : first.isHigh = true) (hsecond : escapedUnit? e f g h = some second)
    (hlow : second.isLow = false) (rest : List Char) :
    readQuotedBody read
        ('\\' :: 'u' :: a :: b :: c :: d :: '\\' :: 'u' :: e :: f :: g :: h :: rest) =
      readQuotedBody (Text.replacement :: read) ('\\' :: 'u' :: e :: f :: g :: h :: rest) := by
  rw [readQuotedBody, hfirst]
  simp only [hhigh, hsecond, hlow, if_true, Bool.false_eq_true, if_false]

theorem readQuotedBody_lone (read : List Char) (hunit : escapedUnit? a b c d = some unit)
    (hhigh : unit.isHigh = true) (hrest : ∀ tail, rest ≠ '\\' :: 'u' :: tail) :
    readQuotedBody read ('\\' :: 'u' :: a :: b :: c :: d :: rest) =
      readQuotedBody (Text.replacement :: read) rest := by
  rw [readQuotedBody, hunit]
  simp only [hhigh, if_true]
  split
  · exact absurd rfl (hrest _)
  · exact absurd rfl (hrest _)
  · rfl

theorem single_of_isHigh (hhigh : unit.isHigh = true) : unit.single = Text.replacement := by
  rw [Text.CodeUnit.single, hhigh, Bool.true_or, if_pos rfl]

def Alone (unit : Text.CodeUnit) (pieces : List Piece) : Prop :=
  unit.isHigh = true → ∀ second, pieces.head? = some (.unit second) → second.isLow = false

theorem decode_alone {pieces : List Piece} (halone : Alone unit pieces) :
    Piece.decode (.unit unit :: pieces) = unit.single :: Piece.decode pieces := by
  match pieces with
  | [] => rfl
  | .character c :: rest => rfl
  | .unit second :: rest =>
      rw [Piece.decode, if_neg]
      intro hpair
      obtain ⟨hhigh, hlow⟩ := Bool.and_eq_true_iff.mp hpair
      rw [halone hhigh second rfl] at hlow
      cases hlow

theorem readQuotedBody_alone (read : List Char) (hunit : escapedUnit? a b c d = some unit)
    {pieces : List Piece} {body : List Char} (hbody : Row (Piece.Spelled escapedUnit?) pieces body)
    (halone : Alone unit pieces) (rest : List Char) :
    readQuotedBody read ('\\' :: 'u' :: a :: b :: c :: d :: (body ++ '"' :: rest)) =
      readQuotedBody (unit.single :: read) (body ++ '"' :: rest) := by
  cases hhigh : unit.isHigh with
  | false => exact readQuotedBody_single read hunit hhigh _
  | true =>
      rw [single_of_isHigh hhigh]
      cases hbody with
      | nil => exact readQuotedBody_lone read hunit hhigh (by simp)
      | cons hpiece hpieces =>
          cases hpiece with
          | plain hquote hbackslash => exact readQuotedBody_lone read hunit hhigh (by simp [hbackslash])
          | letter hletter =>
              have hne := ne_unit_of_escaped? (escaped?_eq_some_iff.mpr hletter)
              exact readQuotedBody_lone read hunit hhigh (by simp [hne])
          | unit hsecond =>
              exact readQuotedBody_unpaired read hunit hhigh hsecond (halone hhigh _ rfl) _

theorem reverse_cons_append (c : Char) (read chars : List Char) :
    (c :: read).reverse ++ chars = read.reverse ++ c :: chars := by
  rw [List.reverse_cons, List.append_assoc, List.singleton_append]

/-- A quoted string is read up to its closing quote. -/
theorem readQuotedBody_row {pieces : List Piece} {body : List Char}
    (hbody : Row (Piece.Spelled escapedUnit?) pieces body) (read rest : List Char) :
    readQuotedBody read (body ++ '"' :: rest) =
      .ok (String.ofList (read.reverse ++ Piece.decode pieces), rest) := by
  fun_induction Piece.decode pieces generalizing body read with
  | case1 =>
      cases hbody
      rw [List.nil_append, readQuotedBody, List.append_nil]
  | case2 c pieces ih =>
      rcases hbody with _ | ⟨hpiece, hpieces⟩
      rw [← reverse_cons_append, ← ih hpieces, List.append_assoc]
      cases hpiece with
      | plain hquote hbackslash => exact readQuotedBody_plain read hquote hbackslash _
      | letter hletter => exact readQuotedBody_letter read (escaped?_eq_some_iff.mpr hletter) _
  | case3 first second pieces hpair ih =>
      obtain ⟨hhigh, hlow⟩ := Bool.and_eq_true_iff.mp hpair
      rcases hbody with _ | ⟨⟨⟩ | ⟨⟩ | hfirst, _ | ⟨⟨⟩ | ⟨⟩ | hsecond, hpieces⟩⟩
      rw [← reverse_cons_append, ← ih hpieces, List.append_assoc, List.append_assoc]
      exact readQuotedBody_pair read hfirst hhigh hsecond hlow _
  | case4 first second pieces hpair ih =>
      have halone : Alone first (.unit second :: pieces) := by
        rintro hhigh _ ⟨⟩
        simpa [hhigh] using hpair
      rcases hbody with _ | ⟨⟨⟩ | ⟨⟩ | hfirst, hpieces⟩
      rw [← reverse_cons_append, ← ih hpieces, List.append_assoc]
      exact readQuotedBody_alone read hfirst hpieces halone rest
  | case5 first pieces hother ih =>
      have halone : Alone first pieces := by
        intro _ second hsecond
        obtain ⟨tail, htail⟩ := List.head?_eq_some_iff.mp hsecond
        exact absurd htail (hother second tail)
      rcases hbody with _ | ⟨⟨⟩ | ⟨⟩ | hfirst, hpieces⟩
      rw [← reverse_cons_append, ← ih hpieces, List.append_assoc]
      exact readQuotedBody_alone read hfirst hpieces halone rest

theorem exists_of_head?_unit {pieces : List Piece} {body : List Char}
    (hbody : Row (Piece.Spelled escapedUnit?) pieces body) (hhead : pieces.head? = some (.unit unit)) :
    ∃ a b c d more, body = '\\' :: 'u' :: a :: b :: c :: d :: more ∧
      escapedUnit? a b c d = some unit := by
  rcases hbody with _ | ⟨hpiece, hpieces⟩
  · cases hhead
  · cases Option.some.inj hhead
    cases hpiece with
    | unit hunit => exact ⟨_, _, _, _, _, rfl, hunit⟩

/-- What is read up to the closing quote was spelled by pieces. -/
theorem row_of_readQuotedBody {read chars : List Char} {name : String}
    (hread : readQuotedBody read chars = .ok (name, rest)) :
    ∃ pieces body, Row (Piece.Spelled escapedUnit?) pieces body ∧ chars = body ++ '"' :: rest ∧
      name = String.ofList (read.reverse ++ Piece.decode pieces) := by
  fun_induction readQuotedBody read chars with
  | case2 read after =>
      cases hread
      exact ⟨[], [], .nil, rfl, by rw [Piece.decode, List.append_nil]⟩
  | case5 read a b c d first hfirst hhigh e f g h more second hsecond hlow ih =>
      obtain ⟨pieces, body, hbody, rfl, rfl⟩ := ih hread
      refine ⟨.unit first :: .unit second :: pieces, _,
        .cons (.unit hfirst) (.cons (.unit hsecond) hbody), by simp, ?_⟩
      rw [Piece.decode, if_pos (Bool.and_eq_true_iff.mpr ⟨hhigh, hlow⟩), reverse_cons_append]
  | case6 read a b c d first hfirst hhigh e f g h more second hsecond hlow ih =>
      obtain ⟨pieces, body, hbody, hchars, rfl⟩ := ih hread
      have halone : Alone first pieces := by
        intro _ next hnext
        obtain ⟨a', b', c', d', tail, rfl, hunit⟩ := exists_of_head?_unit hbody hnext
        cases hchars
        rw [hsecond] at hunit
        cases hunit
        exact Bool.eq_false_iff.mpr hlow
      refine ⟨.unit first :: pieces, _, .cons (.unit hfirst) hbody, by simp [hchars], ?_⟩
      rw [decode_alone halone, single_of_isHigh hhigh, reverse_cons_append]
  | case8 read a b c d first hfirst hhigh other hpair hother ih =>
      obtain ⟨pieces, body, hbody, rfl, rfl⟩ := ih hread
      have halone : Alone first pieces := by
        intro _ next hnext
        obtain ⟨a', b', c', d', tail, rfl, -⟩ := exists_of_head?_unit hbody hnext
        exact absurd rfl (hother _)
      refine ⟨.unit first :: pieces, _, .cons (.unit hfirst) hbody, rfl, ?_⟩
      rw [decode_alone halone, single_of_isHigh hhigh, reverse_cons_append]
  | case9 read a b c d after first hfirst hhigh ih =>
      obtain ⟨pieces, body, hbody, rfl, rfl⟩ := ih hread
      refine ⟨.unit first :: pieces, _, .cons (.unit hfirst) hbody, rfl, ?_⟩
      rw [decode_alone fun h => absurd h hhigh, reverse_cons_append]
  | case10 read letter after hunit c hletter ih =>
      obtain ⟨pieces, body, hbody, rfl, rfl⟩ := ih hread
      refine ⟨.character c :: pieces, _, .cons (.letter (escaped?_eq_some_iff.mp hletter)) hbody, rfl, ?_⟩
      rw [Piece.decode, reverse_cons_append]
  | case13 read c after hquote _ hletter hend ih =>
      have hbackslash : c ≠ '\\' := by
        rintro rfl
        cases after with
        | nil => exact hend rfl rfl
        | cons letter tail => exact hletter letter tail rfl rfl
      obtain ⟨pieces, body, hbody, rfl, rfl⟩ := ih hread
      refine ⟨.character c :: pieces, _, .cons (.plain hquote hbackslash) hbody, rfl, ?_⟩
      rw [Piece.decode, reverse_cons_append]
  | _ => cases hread

end Quoted

end Path

end JsonEdit
