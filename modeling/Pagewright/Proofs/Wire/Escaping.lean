import Pagewright.Json.Reader
import Pagewright.Proofs.Wire.Query
import Pagewright.Text.Encoding

namespace Pagewright.Wire

open Syntax

def isUnreserved (b : UInt8) : Bool :=
  let c := Char.ofNat b.toNat
  b.toNat < 128 && (c.isAlphanum || "-_.!~*'()".toList.contains c)

def hexDigit (n : Nat) : Char :=
  if n < 10 then Char.ofNat (48 + n) else Char.ofNat (55 + n)

def escapeByte (b : UInt8) : Text :=
  if isUnreserved b then [Char.ofNat b.toNat]
  else ['%', hexDigit (b.toNat / 16), hexDigit (b.toNat % 16)]

def bytes (t : Text) : List UInt8 :=
  t.flatMap String.utf8EncodeChar

def escape (t : Text) : Text :=
  (bytes t).flatMap escapeByte

def unescapedBytes : Text → List UInt8
  | [] => []
  | '%' :: a :: b :: t =>
    match Json.hexValue? a, Json.hexValue? b with
    | some x, some y => UInt8.ofNat (16 * x + y) :: unescapedBytes t
    | _, _ => 37 :: unescapedBytes (a :: b :: t)
  | c :: t => (if c = '+' then [32] else String.utf8EncodeChar c) ++ unescapedBytes t

def unescape (t : Text) : Text :=
  let bs := (unescapedBytes t).toByteArray
  (Text.decode? bs).getD (Text.decodeLossy bs)

theorem decode?_bytes (t : Text) : Text.decode? (bytes t).toByteArray = some t := by
  have h := Text.decode?_encode t
  rw [Text.encode, String.toByteArray_ofList] at h
  exact h

/-- What holds of the bytes by their numbers holds of every byte. -/
theorem byte_of_number {P : UInt8 → Prop} (h : ∀ n < 256, P (UInt8.ofNat n)) (b : UInt8) : P b := by
  have hb := h b.toNat b.toNat_lt
  rwa [UInt8.ofNat_toNat] at hb

theorem unreserved_char {b : UInt8} (h : isUnreserved b = true) :
    Char.ofNat b.toNat ≠ '%' ∧ Char.ofNat b.toNat ≠ '+' ∧ Char.ofNat b.toNat ≠ '&' ∧
      Char.ofNat b.toNat ≠ '=' ∧ String.utf8EncodeChar (Char.ofNat b.toNat) = [b] := by
  exact byte_of_number (P := fun b => isUnreserved b = true → Char.ofNat b.toNat ≠ '%' ∧
    Char.ofNat b.toNat ≠ '+' ∧ Char.ofNat b.toNat ≠ '&' ∧ Char.ofNat b.toNat ≠ '=' ∧
      String.utf8EncodeChar (Char.ofNat b.toNat) = [b]) (by decide +kernel) b h

theorem hexDigit_value {n : Nat} (h : n < 16) :
    Json.hexValue? (hexDigit n) = some n ∧ hexDigit n ≠ '&' ∧ hexDigit n ≠ '=' := by
  revert n
  decide

/-- What a byte is escaped to: a character of its own, or two digits. -/
theorem escapeByte_cases (b : UInt8) :
    (∃ c, escapeByte b = [c] ∧ c ≠ '%' ∧ c ≠ '+' ∧ String.utf8EncodeChar c = [b]) ∨
    ∃ x y u v, escapeByte b = ['%', x, y] ∧ Json.hexValue? x = some u ∧ Json.hexValue? y = some v ∧
      UInt8.ofNat (16 * u + v) = b := by
  unfold escapeByte
  have hb := b.toNat_lt
  split
  · obtain ⟨h1, h2, -, -, h3⟩ := unreserved_char ‹_›
    exact .inl ⟨_, rfl, h1, h2, h3⟩
  · refine .inr ⟨_, _, _, _, rfl, (hexDigit_value (by omega)).1,
      (hexDigit_value (by omega)).1, ?_⟩
    rw [Nat.div_add_mod, UInt8.ofNat_toNat]

theorem escapeByte_apart {b : UInt8} {c : Char} (h : c ∈ escapeByte b) : c ≠ '&' ∧ c ≠ '=' := by
  unfold escapeByte at h
  have hb := b.toNat_lt
  split at h
  · obtain ⟨-, -, h1, h2, -⟩ := unreserved_char ‹_›
    obtain rfl := List.mem_singleton.mp h
    exact ⟨h1, h2⟩
  · simp only [List.mem_cons, List.not_mem_nil, or_false] at h
    rcases h with rfl | rfl | rfl
    · decide
    · exact (hexDigit_value (by omega)).2
    · exact (hexDigit_value (by omega)).2

theorem unescapedBytes_other {c : Char} {t : Text} (hp : c ≠ '%') (hq : c ≠ '+') :
    unescapedBytes (c :: t) = String.utf8EncodeChar c ++ unescapedBytes t := by
  rw [unescapedBytes, if_neg hq]
  intro _ _ _ h
  exact absurd h hp

theorem unescapedBytes_escape (bs : List UInt8) : unescapedBytes (bs.flatMap escapeByte) = bs := by
  induction bs with
  | nil => rfl
  | cons b bs ih =>
    rw [List.flatMap_cons]
    rcases escapeByte_cases b with ⟨c, hc, hp, hq, hb⟩ | ⟨x, y, u, v, hxy, hx, hy, hb⟩
    · rw [hc, List.singleton_append, unescapedBytes_other hp hq, hb, ih, List.singleton_append]
    · rw [hxy, List.cons_append, List.cons_append, List.cons_append, List.nil_append,
        unescapedBytes, hx, hy, ih]
      simp only [hb]

theorem unescapedBytes_name {t : Text} (h : ∀ c ∈ t, Identifier.isPart c = true) :
    unescapedBytes t = bytes t := by
  induction t with
  | nil => rfl
  | cons c cs ih =>
    have hc := h c (by simp)
    rw [unescapedBytes_other, ih fun d hd => h d (by simp [hd])]
    · rfl
    · rintro rfl
      exact absurd hc (by decide)
    · rintro rfl
      exact absurd hc (by decide)

/-- Browsers escape texts in a way that servers undo. -/
theorem unescape_undoes : Undoes unescape escape where
  back t := by
    simp only [unescape, escape, unescapedBytes_escape, decode?_bytes, Option.getD_some]
  apart t c hc := by
    obtain ⟨b, -, hcb⟩ := List.mem_flatMap.mp hc
    exact escapeByte_apart hcb
  name id hid := by
    have hpart : ∀ c ∈ id, Identifier.isPart c = true := by
      obtain ⟨d, ds, rfl, hd, hds⟩ := hid
      simpa using ⟨isPart_of_isStart hd, hds⟩
    simp only [unescape, unescapedBytes_name hpart, decode?_bytes, Option.getD_some]

end Pagewright.Wire
