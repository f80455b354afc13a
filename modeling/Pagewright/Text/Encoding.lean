import Pagewright.Text.Basic

namespace Pagewright.Text

def encode (t : Text) : ByteArray :=
  (String.ofList t).toByteArray

def decode? (bytes : ByteArray) : Option Text :=
  bytes.utf8Decode?.map Array.toList

@[simp]
theorem decode?_encode (t : Text) : decode? (encode t) = some t := by
  simp [decode?, encode]

/-- The bytes that may follow the first byte of a character: how many of them there are, and
the range of the first of them. Later ones range from 0x80 to 0xBF. -/
structure Continuation where
  count : Nat
  low : Nat
  high : Nat

/-- What may follow a byte that starts a character of several bytes. The ranges leave out
longer forms of shorter characters, surrogates, and what lies past the last character. -/
def continuation? (lead : Nat) : Option Continuation :=
  if 0xC2 ≤ lead && lead ≤ 0xDF then some ⟨1, 0x80, 0xBF⟩
  else if lead = 0xE0 then some ⟨2, 0xA0, 0xBF⟩
  else if lead = 0xED then some ⟨2, 0x80, 0x9F⟩
  else if 0xE1 ≤ lead && lead ≤ 0xEF then some ⟨2, 0x80, 0xBF⟩
  else if lead = 0xF0 then some ⟨3, 0x90, 0xBF⟩
  else if 0xF1 ≤ lead && lead ≤ 0xF3 then some ⟨3, 0x80, 0xBF⟩
  else if lead = 0xF4 then some ⟨3, 0x80, 0x8F⟩
  else none

def continuing : Continuation → List UInt8 → List UInt8
  | ⟨n + 1, low, high⟩, b :: bs =>
    if low ≤ b.toNat && b.toNat ≤ high then b :: continuing ⟨n, 0x80, 0xBF⟩ bs else []
  | _, _ => []
termination_by structural _ bytes => bytes

def codePoint (lead : Nat) (rest : List UInt8) : Nat :=
  rest.foldl (fun n b => n * 0x40 + (b.toNat - 0x80)) (lead % Nat.pow 2 (6 - rest.length))

def replacement : Char := '\uFFFD'

/-- The text that bytes hold, with one replacement character for every longest start of a
character that is not completed, and for every byte that starts none. Bytes still to be passed
over are counted by `skip`. -/
def decodeLossyFrom : Nat → List UInt8 → Text
  | _, [] => []
  | skip + 1, _ :: bs => decodeLossyFrom skip bs
  | 0, b :: bs =>
    if b.toNat < 0x80 then Char.ofNat b.toNat :: decodeLossyFrom 0 bs
    else match continuation? b.toNat with
      | none => replacement :: decodeLossyFrom 0 bs
      | some next =>
        let rest := continuing next bs
        if rest.length = next.count then
          Char.ofNat (codePoint b.toNat rest) :: decodeLossyFrom rest.length bs
        else replacement :: decodeLossyFrom rest.length bs

def decodeLossy (bytes : ByteArray) : Text :=
  decodeLossyFrom 0 bytes.toList

end Pagewright.Text
