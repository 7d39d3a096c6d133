/-! Reading UTF-8, with the place of the first fault. -/

namespace SiteContent.Text

/-- Where a byte sequence stops being UTF-8. -/
inductive Utf8Fault where
  | invalid (length start : Nat)
  | incomplete (start : Nat)
  deriving Repr, DecidableEq

def Utf8Fault.message : Utf8Fault → String
  | .invalid n i =>
    "invalid utf-8 sequence of " ++ toString n ++ " bytes from index " ++ toString i
  | .incomplete i => "incomplete utf-8 byte sequence from index " ++ toString i

namespace Utf8

def isContinuation (b : UInt8) : Bool :=
  0x80 ≤ b && b < 0xC0

/-- Whether a lead byte and the byte after it open a sequence that is neither overlong, a
surrogate, nor beyond the last code point. -/
def opens (lead second : UInt8) : Bool :=
  isContinuation second &&
    if lead == 0xE0 then 0xA0 ≤ second
    else if lead == 0xED then second < 0xA0
    else if lead == 0xF0 then 0x90 ≤ second
    else if lead == 0xF4 then second < 0x90
    else true

def low (b : UInt8) : Nat :=
  b.toNat % 64

/-- Decodes the bytes from position `i` on. -/
def decodeFrom (i : Nat) : List UInt8 → Except Utf8Fault (List Char)
  | [] => .ok []
  | a :: r =>
    if a < 0x80 then (decodeFrom (i + 1) r).map (Char.ofNat a.toNat :: ·)
    else if a < 0xC2 || 0xF4 < a then .error (.invalid 1 i)
    else
      match r with
      | [] => .error (.incomplete i)
      | b :: r =>
        if !opens a b then .error (.invalid 1 i)
        else if a < 0xE0 then
          (decodeFrom (i + 2) r).map (Char.ofNat (a.toNat % 32 * 64 + low b) :: ·)
        else
          match r with
          | [] => .error (.incomplete i)
          | c :: r =>
            if !isContinuation c then .error (.invalid 2 i)
            else if a < 0xF0 then
              (decodeFrom (i + 3) r).map
                (Char.ofNat ((a.toNat % 16 * 64 + low b) * 64 + low c) :: ·)
            else
              match r with
              | [] => .error (.incomplete i)
              | d :: r =>
                if !isContinuation d then .error (.invalid 3 i)
                else
                  (decodeFrom (i + 4) r).map
                    (Char.ofNat (((a.toNat % 8 * 64 + low b) * 64 + low c) * 64 + low d) :: ·)

end Utf8

def decodeUtf8 (bytes : List UInt8) : Except Utf8Fault String :=
  (Utf8.decodeFrom 0 bytes).map String.ofList

end SiteContent.Text
