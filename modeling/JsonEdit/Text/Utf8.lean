import JsonEdit.Text.Surrogate

/-!
# Bytes as text

Bytes are read as UTF-8. What is not well formed is read as U+FFFD: one for each longest beginning of
a well-formed sequence, and one for each byte that begins none. A well-formed sequence spells a code
point in as few bytes as possible, below U+110000 and not a surrogate; that restricts the second byte.
-/

namespace JsonEdit.Text.Utf8

/-- The bytes that may follow a leading byte: the range of the second one, and how many more there
are after it, each from 0x80 to 0xBF. -/
structure Following where
  least : UInt8
  greatest : UInt8
  more : Nat

def following? (lead : UInt8) : Option Following :=
  if 0xC2 ≤ lead && lead ≤ 0xDF then some ⟨0x80, 0xBF, 0⟩
  else if lead = 0xE0 then some ⟨0xA0, 0xBF, 1⟩
  else if lead = 0xED then some ⟨0x80, 0x9F, 1⟩
  else if 0xE1 ≤ lead && lead ≤ 0xEF then some ⟨0x80, 0xBF, 1⟩
  else if lead = 0xF0 then some ⟨0x90, 0xBF, 2⟩
  else if 0xF1 ≤ lead && lead ≤ 0xF3 then some ⟨0x80, 0xBF, 2⟩
  else if lead = 0xF4 then some ⟨0x80, 0x8F, 2⟩
  else none

def leadBits (lead : UInt8) (more : Nat) : Nat :=
  lead.toNat % (if more = 0 then 32 else if more = 1 then 16 else 8)

/-- A sequence that has begun: the code point so far and the bytes that are to follow. -/
structure Open where
  codePoint : Nat
  next : Following

/-- Decodes bytes; `begun` is the sequence that the bytes before them have begun. -/
def decodeFrom (begun : Option Open) : List UInt8 → List Char
  | [] => if begun.isSome then [replacement] else []
  | byte :: rest =>
    match begun with
    | some sequence =>
      if sequence.next.least ≤ byte && byte ≤ sequence.next.greatest then
        let codePoint := sequence.codePoint * 64 + byte.toNat % 64
        match sequence.next.more with
        | 0 => Char.ofNat codePoint :: decodeFrom none rest
        | more + 1 => decodeFrom (some ⟨codePoint, 0x80, 0xBF, more⟩) rest
      else replacement :: fresh byte rest
    | none => fresh byte rest
where
  /-- decodes from a byte at which no sequence has begun -/
  fresh (byte : UInt8) (rest : List UInt8) : List Char :=
    if byte < 0x80 then Char.ofNat byte.toNat :: decodeFrom none rest
    else
      match following? byte with
      | some next => decodeFrom (some ⟨leadBits byte next.more, next⟩) rest
      | none => replacement :: decodeFrom none rest

def decode (bytes : List UInt8) : String := String.ofList (decodeFrom none bytes)

end JsonEdit.Text.Utf8
