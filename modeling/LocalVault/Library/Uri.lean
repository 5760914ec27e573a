import Mathlib.Algebra.BigOperators.Ring.Finset
import Mathlib.Algebra.Order.BigOperators.Group.List
import Mathlib.Algebra.Order.Ring.Int
import Mathlib.Data.List.Sort
import Mathlib.Data.List.TakeWhile

namespace LocalVault.Library.Uri

def percent : UInt8 := 0x25
def hash : UInt8 := 0x23
def ampersand : UInt8 := 0x26
def separator : UInt8 := 0x2F
def equals : UInt8 := 0x3D
def question : UInt8 := 0x3F

/-- The bytes of `0123456789ABCDEF`. -/
def hexadecimal : List UInt8 :=
  [0x30, 0x31, 0x32, 0x33, 0x34, 0x35, 0x36, 0x37, 0x38, 0x39, 0x41, 0x42, 0x43, 0x44, 0x45, 0x46]

def hexDigit (n : UInt8) : UInt8 := hexadecimal.getD n.toNat 0

/-- The value of a hexadecimal digit, in either case. -/
def hexValue (b : UInt8) : Option UInt8 :=
  if 0x30 ≤ b ∧ b ≤ 0x39 then some (b - 0x30)
  else if 0x41 ≤ b ∧ b ≤ 0x46 then some (b - 0x37)
  else if 0x61 ≤ b ∧ b ≤ 0x66 then some (b - 0x57)
  else none

def octet (high low : UInt8) : Option UInt8 := do
  let h ← hexValue high
  let l ← hexValue low
  some (h * 16 + l)

def escape (b : UInt8) : List UInt8 := [percent, hexDigit (b >>> 4), hexDigit (b &&& 0x0F)]

/-- Percent encoding of the bytes that are not plain. -/
def encode (plain : UInt8 → Bool) (bytes : List UInt8) : List UInt8 :=
  bytes.flatMap fun b => if plain b then [b] else escape b

/-- The byte that an escape at the front stands for. -/
def escaped : List UInt8 → Option UInt8
  | first :: high :: low :: _ => if first = percent then octet high low else none
  | _ => none

/-- Percent decoding behind `skip` bytes. An escaped zero ends the text, and a `%` that no
two digits follow stands for itself. -/
def decodeFrom : Nat → List UInt8 → List UInt8
  | _, [] => []
  | skip + 1, _ :: rest => decodeFrom skip rest
  | 0, b :: rest =>
    match escaped (b :: rest) with
    | some o => if o = 0 then [] else o :: decodeFrom 2 rest
    | none => b :: decodeFrom 0 rest

def decode (text : List UInt8) : List UInt8 := decodeFrom 0 text

/-- `file:` -/
def scheme : List UInt8 := [0x66, 0x69, 0x6C, 0x65, 0x3A]

def localhost : List UInt8 := [0x6C, 0x6F, 0x63, 0x61, 0x6C, 0x68, 0x6F, 0x73, 0x74]

/-- What follows the authority, when there is one and it is one of this machine. -/
def dropAuthority (text : List UInt8) : Option (List UInt8) :=
  if text.take 2 = [separator, separator] then
    let authority := (text.drop 2).takeWhile (· ≠ separator)
    if authority = [] ∨ authority = localhost then
      some ((text.drop 2).dropWhile (· ≠ separator))
    else none
  else some text

/-- The parameters of a query; one without a name is left out. -/
def parameters (query : List UInt8) : List (List UInt8 × List UInt8) :=
  ((query.splitOn ampersand).map fun parameter =>
    (decode (parameter.takeWhile (· ≠ equals)),
      decode ((parameter.dropWhile (· ≠ equals)).drop 1))).filter (·.1 ≠ [])

structure Parsed where
  path : List UInt8
  parameters : List (List UInt8 × List UInt8)
  deriving DecidableEq

/-- The reading of a file URI: the scheme, an authority, the path up to `?` or `#`
and the parameters up to `#`. -/
def parse (uri : List UInt8) : Option Parsed :=
  if uri.take scheme.length = scheme then do
    let text ← dropAuthority (uri.drop scheme.length)
    let text := text.takeWhile (· ≠ hash)
    some { path := decode (text.takeWhile (· ≠ question)),
           parameters := parameters ((text.dropWhile (· ≠ question)).drop 1) }
  else none

theorem octet_escape (b : UInt8) : octet (hexDigit (b >>> 4)) (hexDigit (b &&& 0x0F)) = some b := by
  have h : ∀ n : Fin 256, octet (hexDigit (UInt8.ofNat n >>> 4))
      (hexDigit (UInt8.ofNat n &&& 0x0F)) = some (UInt8.ofNat n) := by
    decide +kernel
  have hb := h ⟨b.toNat, b.toNat_lt⟩
  rwa [UInt8.ofNat_toNat] at hb

/-- The digits of an escape are digits. -/
theorem escape_mem {b c : UInt8} (h : c ∈ escape b) : c = percent ∨ c ∈ hexadecimal := by
  have hdigits : ∀ n : Fin 256, hexDigit (UInt8.ofNat n >>> 4) ∈ hexadecimal ∧
      hexDigit (UInt8.ofNat n &&& 0x0F) ∈ hexadecimal := by
    decide +kernel
  obtain ⟨hhigh, hlow⟩ := hdigits ⟨b.toNat, b.toNat_lt⟩
  rw [UInt8.ofNat_toNat] at hhigh hlow
  simp only [escape, List.mem_cons, List.not_mem_nil, or_false] at h
  rcases h with h | rfl | rfl
  · exact .inl h
  · exact .inr hhigh
  · exact .inr hlow

section Encode

variable {plain : UInt8 → Bool} {bytes rest : List UInt8} {b c : UInt8}

theorem encode_cons : encode plain (b :: bytes) =
    (if plain b then [b] else escape b) ++ encode plain bytes := rfl

theorem encode_append {bytes' : List UInt8} :
    encode plain (bytes ++ bytes') = encode plain bytes ++ encode plain bytes' :=
  List.flatMap_append

/-- Only plain bytes, `%` and digits are written. -/
theorem encode_mem (h : c ∈ encode plain bytes) :
    plain c = true ∨ c = percent ∨ c ∈ hexadecimal := by
  obtain ⟨b, -, hc⟩ := List.mem_flatMap.mp h
  split at hc
  · rename_i hb
    rw [List.mem_singleton.mp hc]
    exact .inl hb
  · exact .inr (escape_mem hc)

theorem escaped_none (h : b ≠ percent) : escaped (b :: rest) = none := by
  unfold escaped
  split
  · rename_i he
    cases he
    exact if_neg h
  · rfl

theorem decode_cons (h : b ≠ percent) : decode (b :: rest) = b :: decode rest := by
  unfold decode
  rw [decodeFrom, escaped_none h]

theorem decode_escape (h : b ≠ 0) : decode (escape b ++ rest) = b :: decode rest := by
  have he : escaped (escape b ++ rest) = some b := by
    change (if percent = percent then octet _ _ else none) = _
    rw [if_pos rfl, octet_escape]
  change decodeFrom 0 (percent :: _ :: _ :: rest) = _
  rw [decodeFrom]
  change (match escaped (escape b ++ rest) with
    | some o => if o = 0 then [] else o :: decodeFrom 2 (_ :: _ :: rest)
    | none => _) = _
  rw [he]
  exact if_neg h

/-- What was encoded is read back. -/
theorem decode_encode (hp : plain percent = false) (hz : 0 ∉ bytes) :
    decode (encode plain bytes ++ rest) = bytes ++ decode rest := by
  induction bytes with
  | nil => rfl
  | cons b bytes ih =>
    have hz' : 0 ∉ bytes := fun h => hz (List.mem_cons_of_mem _ h)
    have hb : b ≠ 0 := by
      rintro rfl
      exact hz List.mem_cons_self
    rw [encode_cons, List.append_assoc]
    split
    · rename_i hplain
      have hne : b ≠ percent := by
        rintro rfl
        simp [hp] at hplain
      rw [List.singleton_append, decode_cons hne, ih hz', List.cons_append]
    · rw [decode_escape hb, ih hz', List.cons_append]

end Encode

end LocalVault.Library.Uri
