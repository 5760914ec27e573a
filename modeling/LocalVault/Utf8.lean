import LocalVault.Text

namespace LocalVault

/-- The bytes that follow the first one of a character, from `position` on. `text[position]` is
undefined behind the end. -/
def followedBy (text : Bytes) (position : Nat) : Nat → Option Bool
  | 0 => some true
  | count + 1 => do
    let b ← text[position]?
    if isContinuation b then followedBy text (position + 1) count else some false

/-- The second byte is looked at behind four first bytes only. -/
def secondRefused (text : Bytes) (index : Nat) (first : UInt8) : Option Bool :=
  if first = 0xE0 ∨ first = 0xED ∨ first = 0xF0 ∨ first = 0xF4 then do
    let second ← text[index + 1]?
    some (isForbiddenSecond first second)
  else some false

/-- How many bytes the first one announces. -/
def announcedLength (first : UInt8) : Option Nat :=
  if 0xC2 ≤ first ∧ first ≤ 0xDF then some 2
  else if 0xE0 ≤ first ∧ first ≤ 0xEF then some 3
  else if 0xF0 ≤ first ∧ first ≤ 0xF4 then some 4
  else none

theorem announcedLength_pos {first : UInt8} {length : Nat} (h : announcedLength first = some length) :
    0 < length := by
  unfold announcedLength at h
  grind

/-- The loop of `is_valid_utf8`. -/
def validUtf8From (text : Bytes) (index : Nat) : Option Bool :=
  if index < text.length then
    match text[index]? with
    | none => none
    | some first =>
      if first ≤ 0x7F then validUtf8From text (index + 1)
      else match h : announcedLength first with
        | none => some false
        | some length =>
          if text.length < index + length then some false
          else match followedBy text (index + 1) (length - 1) with
            | none => none
            | some false => some false
            | some true =>
              match secondRefused text index first with
              | none => none
              | some true => some false
              | some false =>
                have := announcedLength_pos h
                validUtf8From text (index + length)
  else some true
termination_by text.length - index

namespace FileScanner

/-- `is_valid_utf8` of the scanner; no value where it would read behind the end. -/
def isValidUtf8 (text : Bytes) : Option Bool := validUtf8From text 0

end FileScanner

namespace RestoreEngine

/-- `is_valid_utf8` of the restore engine. -/
def isValidUtf8 (text : Bytes) : Option Bool := validUtf8From text 0

end RestoreEngine
end LocalVault
