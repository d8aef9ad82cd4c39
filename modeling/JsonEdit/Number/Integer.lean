import JsonEdit.Number.Power

/-!
# Integers of a fixed width

An integer kind is a width in bits, with or without a sign. Its values are the integers that fit.
-/

namespace JsonEdit

/-- The integers of a fixed width, and the name by which messages refer to them. -/
structure IntegerKind where
  name : String
  signed : Bool
  bits : Nat
  deriving DecidableEq

namespace IntegerKind

def i8 : IntegerKind := ⟨"i8", true, 8⟩
def i16 : IntegerKind := ⟨"i16", true, 16⟩
def i32 : IntegerKind := ⟨"i32", true, 32⟩
def i64 : IntegerKind := ⟨"i64", true, 64⟩
def i128 : IntegerKind := ⟨"i128", true, 128⟩
def isize : IntegerKind := ⟨"isize", true, 64⟩
def u8 : IntegerKind := ⟨"u8", false, 8⟩
def u16 : IntegerKind := ⟨"u16", false, 16⟩
def u32 : IntegerKind := ⟨"u32", false, 32⟩
def u64 : IntegerKind := ⟨"u64", false, 64⟩
def u128 : IntegerKind := ⟨"u128", false, 128⟩
def usize : IntegerKind := ⟨"usize", false, 64⟩

def all : List IntegerKind :=
  [i8, i16, i32, i64, i128, isize, u8, u16, u32, u64, u128, usize]

def named? (name : String) : Option IntegerKind := all.find? fun kind => kind.name = name

def least (kind : IntegerKind) : Int := if kind.signed then -(pow2 (kind.bits - 1) : Int) else 0

def greatest (kind : IntegerKind) : Int :=
  if kind.signed then (pow2 (kind.bits - 1) : Int) - 1 else (pow2 kind.bits : Int) - 1

def holds (kind : IntegerKind) (n : Int) : Bool := kind.least ≤ n && n ≤ kind.greatest

abbrev Value (kind : IntegerKind) := { n : Int // kind.holds n }

def value? (kind : IntegerKind) (n : Int) : Option kind.Value :=
  if hfits : kind.holds n then some ⟨n, hfits⟩ else none

end IntegerKind

end JsonEdit
