/-
Percent-encoding and UTF-8, as Python has them.

* `decodeUtf8` — `bytes.decode("utf-8", errors="replace")`: a maximal piece of
  an ill-formed sequence becomes one U+FFFD;
* `quote`, `unquote` — the functions of `urllib.parse`.
-/
import Newsforge.IpAddress

namespace Percent

open PyText

/-! ### UTF-8 -/

/-- A sequence that has begun: how many bytes are missing, in which range the
next one has to be, and the bits so far. -/
structure Pending where
  missing : ℕ
  low : UInt8
  high : UInt8
  bits : ℕ

/-- U+FFFD. -/
def replacement : Char := Char.ofNat 0xFFFD

/-- The first byte of a sequence: a character of its own, or the bytes it asks
for; any other byte is replaced. -/
def startUtf8 (b : UInt8) : Char ⊕ Pending :=
  if b < 0x80 then .inl (Char.ofNat b.toNat)
  else if 0xC2 ≤ b && b ≤ 0xDF then .inr ⟨1, 0x80, 0xBF, b.toNat % 32⟩
  else if 0xE0 ≤ b && b ≤ 0xEF then
    -- no overlong forms, no surrogates
    .inr ⟨2, if b = 0xE0 then 0xA0 else 0x80, if b = 0xED then 0x9F else 0xBF, b.toNat % 16⟩
  else if 0xF0 ≤ b && b ≤ 0xF4 then
    .inr ⟨3, if b = 0xF0 then 0x90 else 0x80, if b = 0xF4 then 0x8F else 0xBF, b.toNat % 8⟩
  else .inl replacement

/-- Decode the bytes behind a sequence that may have begun. -/
def decodeFrom : Option Pending → List UInt8 → Text
  | none, [] => []
  | some _, [] => [replacement]
  | none, b :: bs =>
    match startUtf8 b with
    | .inl c => c :: decodeFrom none bs
    | .inr p => decodeFrom (some p) bs
  | some p, b :: bs =>
    if p.low ≤ b && b ≤ p.high then
      let bits := p.bits * 64 + b.toNat % 64
      if p.missing ≤ 1 then Char.ofNat bits :: decodeFrom none bs
      else decodeFrom (some ⟨p.missing - 1, 0x80, 0xBF, bits⟩) bs
    else
      -- the byte is not part of the sequence: it is looked at again
      match startUtf8 b with
      | .inl c => replacement :: c :: decodeFrom none bs
      | .inr q => replacement :: decodeFrom (some q) bs

/-- `bytes.decode("utf-8", errors="replace")`. -/
def decodeUtf8 (bs : List UInt8) : Text := decodeFrom none bs

/-! ### quote and unquote -/

/-- `_ALWAYS_SAFE`. -/
def isAlwaysSafe (c : Char) : Bool :=
  c.isAlphanum || c == '_' || c == '.' || c == '-' || c == '~'

/-- `'%{:02X}'.format(b)`. -/
def pctByte (b : UInt8) : Text :=
  ['%', (b.toNat / 16).digitChar.toUpper, (b.toNat % 16).digitChar.toUpper]

/-- `quote(s, safe)`: each byte of a character that is not safe is escaped. -/
def quote (safe s : Text) : Text :=
  s.flatMap fun c =>
    if isAlwaysSafe c || safe.contains c then [c] else (String.utf8EncodeChar c).flatMap pctByte

/-- `unquote_to_bytes` of an ASCII text: a percent sign in front of two
hexadecimal digits is an escape. -/
def unquoteToBytes : Text → List UInt8
  | '%' :: a :: b :: s =>
    if IPAddress.isHexDigit a && IPAddress.isHexDigit b then
      UInt8.ofNat (IPAddress.hexDigit a * 16 + IPAddress.hexDigit b) :: unquoteToBytes s
    else 0x25 :: unquoteToBytes (a :: b :: s)
  | c :: s => UInt8.ofNat c.toNat :: unquoteToBytes s
  | [] => []

/-- `unquote(s)`: the ASCII runs of the text are decoded one by one. -/
def unquote (s : Text) : Text :=
  (s.splitBy fun a b => isAsciiChar a == isAsciiChar b).flatMap fun run =>
    if isAscii run then decodeUtf8 (unquoteToBytes run) else run

end Percent
