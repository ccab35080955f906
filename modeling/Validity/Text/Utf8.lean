/-!
UTF-8. Decoding stops at the first ill-formed part, or writes a replacement character for each.
An ill-formed part is as long as the octets that could still begin a character.
-/
namespace Validity.Text.Utf8

inductive Reason where
  /-- No character begins with this octet. -/
  | start
  /-- An octet is missing in the middle of a character. -/
  | continuation
  /-- The text ends inside a character. -/
  | ending
  deriving DecidableEq, Repr

structure Fault where
  octet : UInt8
  position : Nat
  width : Nat
  reason : Reason
  deriving DecidableEq, Repr

def Reason.message : Reason → String
  | .start => "invalid start byte"
  | .continuation => "invalid continuation byte"
  | .ending => "unexpected end of data"

def Fault.message (f : Fault) : String :=
  let place :=
    if f.width = 1 then
      "byte 0x" ++ String.ofList [Nat.digitChar (f.octet.toNat / 16),
        Nat.digitChar (f.octet.toNat % 16)] ++ " in position " ++ toString f.position
    else
      "bytes in position " ++ toString f.position ++ "-" ++ toString (f.position + f.width - 1)
  "'utf-8' codec can't decode " ++ place ++ ": " ++ f.reason.message

structure Lead where
  bits : Nat
  low : Nat
  high : Nat
  more : Nat

/-- The characters of several octets by their first one. Overlong forms, surrogates and numbers
above the last code point are shut out by the range of the second octet. -/
def lead? (b : Nat) : Option Lead :=
  if b < 0xC2 then none
  else if b < 0xE0 then some ⟨b - 0xC0, 0x80, 0xBF, 0⟩
  else if b = 0xE0 then some ⟨0, 0xA0, 0xBF, 1⟩
  else if b = 0xED then some ⟨0xD, 0x80, 0x9F, 1⟩
  else if b < 0xF0 then some ⟨b - 0xE0, 0x80, 0xBF, 1⟩
  else if b = 0xF0 then some ⟨0, 0x90, 0xBF, 2⟩
  else if b < 0xF4 then some ⟨b - 0xF0, 0x80, 0xBF, 2⟩
  else if b = 0xF4 then some ⟨4, 0x80, 0x8F, 2⟩
  else none

inductive Item where
  | char (c : Char) (more : Nat)
  | bad (reason : Reason) (more : Nat)

def scanTail (bits seen : Nat) : Nat → List UInt8 → Item
  | 0, _ => .char (Char.ofNat bits) seen
  | _ + 1, [] => .bad .ending seen
  | n + 1, b :: bs =>
    if 0x80 ≤ b.toNat ∧ b.toNat ≤ 0xBF then
      scanTail (64 * bits + (b.toNat - 0x80)) (seen + 1) n bs
    else .bad .continuation seen

def scan (b : UInt8) (bs : List UInt8) : Item :=
  if b.toNat < 0x80 then .char (Char.ofNat b.toNat) 0
  else
    match lead? b.toNat with
    | none => .bad .start 0
    | some l =>
      match bs with
      | [] => .bad .ending 0
      | c :: cs =>
        if l.low ≤ c.toNat ∧ c.toNat ≤ l.high then
          scanTail (64 * l.bits + (c.toNat - 0x80)) 1 l.more cs
        -- the second octet may begin a character of its own
        else .bad .continuation 0

def decodeFrom (position : Nat) : List UInt8 → Except Fault (List Char)
  | [] => .ok []
  | b :: bs =>
    match scan b bs with
    | .bad r n => .error ⟨b, position, n + 1, r⟩
    | .char c n => do
      let rest ← decodeFrom (position + n + 1) (bs.drop n)
      return c :: rest
  termination_by bs => bs.length
  decreasing_by simp only [List.length_drop, List.length_cons]; omega

def decode (bs : List UInt8) : Except Fault (List Char) :=
  decodeFrom 0 bs

def decodeLossy : List UInt8 → List Char
  | [] => []
  | b :: bs =>
    match scan b bs with
    | .bad _ n => '�' :: decodeLossy (bs.drop n)
    | .char c n => c :: decodeLossy (bs.drop n)
  termination_by bs => bs.length
  decreasing_by all_goals simp only [List.length_drop, List.length_cons]; omega

end Validity.Text.Utf8
