import Folio.Text.Basic

/-!
# UTF-8

`encode` writes text as bytes. Reading goes over the bytes once and tells characters from ill-formed
stretches: a stretch is as long as some character could still have begun with it. `decode?` accepts
well-formed bytes only, `decodeLossy` puts U+FFFD in place of each ill-formed stretch.
-/
namespace Folio.Utf8

def encode (t : Text) : Bytes := t.flatMap String.utf8EncodeChar

def ofString (s : String) : Bytes := encode s.toList

@[simp] theorem encode_nil : encode [] = [] := rfl

@[simp] theorem encode_cons (c : Char) (t : Text) :
    encode (c :: t) = String.utf8EncodeChar c ++ encode t := rfl

@[simp] theorem encode_append (s t : Text) : encode (s ++ t) = encode s ++ encode t := by
  simp [encode]

def size (t : Text) : Nat := (encode t).length

def isTail (b : UInt8) : Bool := 0x80 ≤ b && b ≤ 0xBF

/-- Whether `b` may follow the first byte `lead` of a character of three or four bytes: the overlong
forms, the surrogates and all above U+10FFFF are kept out here. -/
def maySecond (lead b : UInt8) : Bool :=
  if lead = 0xE0 then 0xA0 ≤ b && b ≤ 0xBF
  else if lead = 0xED then 0x80 ≤ b && b ≤ 0x9F
  else if lead = 0xF0 then 0x90 ≤ b && b ≤ 0xBF
  else if lead = 0xF4 then 0x80 ≤ b && b ≤ 0x8F
  else isTail b

/-- The six low bits of a continuation byte. -/
def tailBits (b : UInt8) : Nat := b.toNat % 64

/-- The characters in order, with `none` for each ill-formed stretch. -/
def scan : Bytes → List (Option Char)
  | [] => []
  | a :: rest =>
    if a < 0x80 then some (Char.ofNat a.toNat) :: scan rest
    else if 0xC2 ≤ a && a ≤ 0xDF then
      match rest with
      | [] => [none]
      | b :: rest =>
        if isTail b then some (Char.ofNat (a.toNat % 32 * 64 + tailBits b)) :: scan rest
        else none :: scan (b :: rest)
    else if 0xE0 ≤ a && a ≤ 0xEF then
      match rest with
      | [] => [none]
      | [b] => if maySecond a b then [none] else none :: scan [b]
      | b :: c :: rest =>
        if !maySecond a b then none :: scan (b :: c :: rest)
        else if !isTail c then none :: scan (c :: rest)
        else some (Char.ofNat ((a.toNat % 16 * 64 + tailBits b) * 64 + tailBits c)) :: scan rest
    else if 0xF0 ≤ a && a ≤ 0xF4 then
      match rest with
      | [] => [none]
      | [b] => if maySecond a b then [none] else none :: scan [b]
      | [b, c] =>
        if !maySecond a b then none :: scan [b, c]
        else if !isTail c then none :: scan [c]
        else [none]
      | b :: c :: d :: rest =>
        if !maySecond a b then none :: scan (b :: c :: d :: rest)
        else if !isTail c then none :: scan (c :: d :: rest)
        else if !isTail d then none :: scan (d :: rest)
        else some (Char.ofNat (((a.toNat % 8 * 64 + tailBits b) * 64 + tailBits c) * 64
          + tailBits d)) :: scan rest
    else none :: scan rest

/-- The text of well-formed bytes. -/
def decode? (bytes : Bytes) : Option Text := (scan bytes).mapM id

/-- The character U+FFFD, which stands for bytes that are no text. -/
def replacement : Char := '\uFFFD'

/-- The text of any bytes, with the replacement character for each ill-formed stretch. -/
def decodeLossy (bytes : Bytes) : Text := (scan bytes).map (·.getD replacement)

end Folio.Utf8
