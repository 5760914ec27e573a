import Mathlib.Algebra.BigOperators.Ring.Finset
import Mathlib.Algebra.Order.BigOperators.Group.List
import Mathlib.Algebra.Order.Ring.Int
import Mathlib.Data.List.Sort
import LocalVault.Library.Lockstep

namespace LocalVault.Library

/-! Records of one size, one behind the other in a file. -/

/-- A type whose values are the blocks of `size` bytes. -/
structure Codec (ρ : Type) where
  size : Nat
  encode : ρ → List UInt8
  decode : List UInt8 → ρ
  length_encode : ∀ r, (encode r).length = size
  decode_encode : ∀ r, decode (encode r) = r
  encode_decode : ∀ bytes, bytes.length = size → encode (decode bytes) = bytes

section LittleEndian

/-- The lowest `width` bytes of a number, the least first. -/
def littleEndian : Nat → Nat → List UInt8
  | 0, _ => []
  | width + 1, n => UInt8.ofNat n :: littleEndian width (n / 256)

def ofLittleEndian : List UInt8 → Nat
  | [] => 0
  | byte :: bytes => byte.toNat + 256 * ofLittleEndian bytes

@[simp] theorem length_littleEndian (width n : Nat) : (littleEndian width n).length = width := by
  induction width generalizing n with
  | zero => rfl
  | succ width ih => rw [littleEndian, List.length_cons, ih]

theorem ofLittleEndian_littleEndian (width n : Nat) :
    ofLittleEndian (littleEndian width n) = n % 256 ^ width := by
  induction width generalizing n with
  | zero => rw [Nat.pow_zero, Nat.mod_one]; rfl
  | succ width ih =>
    rw [littleEndian, ofLittleEndian, ih, Nat.pow_succ', Nat.mod_mul]
    rfl

theorem littleEndian_ofLittleEndian (bytes : List UInt8) :
    littleEndian bytes.length (ofLittleEndian bytes) = bytes := by
  induction bytes with
  | nil => rfl
  | cons byte bytes ih =>
    have hbyte := byte.toNat_lt
    have hdiv : (byte.toNat + 256 * ofLittleEndian bytes) / 256 = ofLittleEndian bytes := by omega
    have hmod : UInt8.ofNat (byte.toNat + 256 * ofLittleEndian bytes) = byte := by
      apply UInt8.toNat.inj
      rw [UInt8.toNat_ofNat']
      omega
    rw [List.length_cons, ofLittleEndian, littleEndian, hdiv, hmod, ih]

theorem ofLittleEndian_lt (bytes : List UInt8) : ofLittleEndian bytes < 256 ^ bytes.length := by
  induction bytes with
  | nil => exact Nat.one_pos
  | cons byte bytes ih =>
    have hbyte := byte.toNat_lt
    rw [ofLittleEndian, List.length_cons, Nat.pow_succ]
    omega

end LittleEndian

namespace Codec

variable {ρ τ : Type}

def uint64 : Codec UInt64 where
  size := 8
  encode n := littleEndian 8 n.toNat
  decode bytes := UInt64.ofNat (ofLittleEndian bytes)
  length_encode n := length_littleEndian 8 n.toNat
  decode_encode n := by
    have hlt : n.toNat < 256 ^ 8 := n.toNat_lt
    rw [ofLittleEndian_littleEndian, Nat.mod_eq_of_lt hlt, UInt64.ofNat_toNat]
  encode_decode bytes h := by
    have hlt := ofLittleEndian_lt bytes
    rw [h] at hlt
    rw [UInt64.toNat_ofNat_of_lt' hlt, ← h, littleEndian_ofLittleEndian]

def uint8 : Codec UInt8 where
  size := 1
  encode n := [n]
  decode bytes := bytes.headD 0
  length_encode _ := rfl
  decode_encode _ := rfl
  encode_decode bytes h := by
    obtain ⟨byte, rfl⟩ := List.length_eq_one_iff.mp h
    rfl

/-- A block of bytes as it is. -/
def block (n : Nat) : Codec { bytes : List UInt8 // bytes.length = n } where
  size := n
  encode b := b.1
  decode bytes := ⟨bytes.takeD n 0, List.takeD_length n bytes 0⟩
  length_encode b := b.2
  decode_encode b := Subtype.ext
    ((List.takeD_eq_take _ b.2.ge).trans (List.take_of_length_le b.2.le))
  encode_decode bytes h := by
    dsimp only
    rw [List.takeD_eq_take _ h.ge, List.take_of_length_le h.le]

/-- One value behind the other. -/
def pair (a : Codec ρ) (b : Codec τ) : Codec (ρ × τ) where
  size := a.size + b.size
  encode r := a.encode r.1 ++ b.encode r.2
  decode bytes := (a.decode (bytes.take a.size), b.decode (bytes.drop a.size))
  length_encode r := by rw [List.length_append, a.length_encode, b.length_encode]
  decode_encode r := by
    rw [List.take_left' (a.length_encode r.1), List.drop_left' (a.length_encode r.1),
      a.decode_encode, b.decode_encode]
  encode_decode bytes h := by
    dsimp only
    rw [a.encode_decode _ (by rw [List.length_take]; omega),
      b.encode_decode _ (by rw [List.length_drop]; omega), List.take_append_drop]

/-- The same values under other names. -/
def via (a : Codec ρ) (f : τ → ρ) (g : ρ → τ) (hgf : ∀ t, g (f t) = t) (hfg : ∀ r, f (g r) = r) :
    Codec τ where
  size := a.size
  encode t := a.encode (f t)
  decode bytes := g (a.decode bytes)
  length_encode t := a.length_encode (f t)
  decode_encode t := by rw [a.decode_encode, hgf]
  encode_decode bytes h := by rw [hfg, a.encode_decode bytes h]

end Codec

/-- Where a reader stands. -/
inductive Cursor where
  | closed
  | failed
  | reading (position : Nat)
  deriving DecidableEq, Repr

inductive FileCall (ρ : Type) where
  | append (r : ρ)
  | rewind (opens : Bool)
  | read

inductive FileAnswer (ρ : Type) where
  | done
  | record (r : ρ)
  | failed
  | undefined
  deriving DecidableEq

/-- A list of records, and how many of them have been read. -/
structure Tape (ρ : Type) where
  records : List ρ
  cursor : Cursor

/-- A file with a second, independent descriptor for reading. -/
structure RecordFile where
  bytes : List UInt8
  cursor : Cursor

section Files

variable {ρ : Type} {c : Codec ρ}

def Tape.step (t : Tape ρ) : FileCall ρ → FileAnswer ρ × Tape ρ
  | .append r => (.done, { t with records := t.records ++ [r] })
  | .rewind true => (.done, { t with cursor := .reading 0 })
  | .rewind false => (.failed, { t with cursor := .failed })
  | .read =>
    match t.cursor with
    | .closed => (.undefined, t)
    | .failed => (.failed, t)
    | .reading position =>
      match t.records[position]? with
      | some r => (.record r, { t with cursor := .reading (position + 1) })
      | none => (.failed, { t with cursor := .failed })

/-- A read that comes to the end of the file before it has a whole record fails, and so do all
that follow it. -/
def RecordFile.step (c : Codec ρ) (f : RecordFile) : FileCall ρ → FileAnswer ρ × RecordFile
  | .append r => (.done, { f with bytes := f.bytes ++ c.encode r })
  | .rewind true => (.done, { f with cursor := .reading 0 })
  | .rewind false => (.failed, { f with cursor := .failed })
  | .read =>
    match f.cursor with
    | .closed => (.undefined, f)
    | .failed => (.failed, f)
    | .reading position =>
      let got := (f.bytes.drop position).take c.size
      if got.length = c.size then
        (.record (c.decode got), { f with cursor := .reading (position + c.size) })
      else (.failed, { f with cursor := .failed })

def Cursor.scaled (size : Nat) : Cursor → Cursor
  | .reading position => .reading (position * size)
  | other => other

/-- The file holds the records of the tape, and its reader stands between two of them. -/
structure Holds (c : Codec ρ) (f : RecordFile) (t : Tape ρ) : Prop where
  bytes : f.bytes = t.records.flatMap c.encode
  cursor : f.cursor = t.cursor.scaled c.size
  within : ∀ position, t.cursor = .reading position → position ≤ t.records.length

theorem drop_records (c : Codec ρ) (records : List ρ) (n : Nat) :
    (records.flatMap c.encode).drop (n * c.size) = (records.drop n).flatMap c.encode := by
  induction n generalizing records with
  | zero => rw [Nat.zero_mul, List.drop_zero, List.drop_zero]
  | succ n ih =>
    cases records with
    | nil => simp
    | cons r records =>
      rw [List.flatMap_cons, List.drop_succ_cons, ← ih, Nat.succ_mul, Nat.add_comm,
        ← List.drop_drop, List.drop_left' (c.length_encode r)]

/-- Where the tape has a record, the file has its block. -/
theorem Holds.block {f : RecordFile} {t : Tape ρ} (h : Holds c f t) (position : Nat) :
    (f.bytes.drop (position * c.size)).take c.size = (t.records[position]?.map c.encode).getD [] := by
  rw [h.bytes, drop_records]
  cases hr : t.records[position]? with
  | none => simp [List.drop_of_length_le (List.getElem?_eq_none_iff.mp hr)]
  | some r =>
    obtain ⟨hlt, rfl⟩ := List.getElem?_eq_some_iff.mp hr
    rw [List.drop_eq_getElem_cons hlt, List.flatMap_cons, List.take_left' (c.length_encode _)]
    rfl

theorem Holds.step {f : RecordFile} {t : Tape ρ} (hpos : 0 < c.size) (h : Holds c f t)
    (call : FileCall ρ) :
    (f.step c call).1 = (t.step call).1 ∧ Holds c (f.step c call).2 (t.step call).2 := by
  cases call with
  | append r =>
    refine ⟨rfl, ?_, h.cursor, fun position hp => ?_⟩
    · change f.bytes ++ c.encode r = (t.records ++ [r]).flatMap c.encode
      rw [h.bytes, List.flatMap_append, List.flatMap_singleton]
    · change position ≤ (t.records ++ [r]).length
      rw [List.length_append]
      exact (h.within position hp).trans (Nat.le_add_right _ _)
  | rewind opens =>
    cases opens with
    | true =>
      refine ⟨rfl, h.bytes, ?_, fun position hp => ?_⟩
      · change Cursor.reading 0 = Cursor.reading (0 * c.size)
        rw [Nat.zero_mul]
      · cases hp
        exact Nat.zero_le _
    | false => exact ⟨rfl, h.bytes, rfl, nofun⟩
  | read =>
    have hcursor := h.cursor
    cases ht : t.cursor with
    | closed =>
      rw [ht] at hcursor
      simp only [RecordFile.step, Tape.step, ht, hcursor, Cursor.scaled]
      exact ⟨trivial, h⟩
    | failed =>
      rw [ht] at hcursor
      simp only [RecordFile.step, Tape.step, ht, hcursor, Cursor.scaled]
      exact ⟨trivial, h⟩
    | reading position =>
      rw [ht] at hcursor
      have hblock := h.block position
      simp only [RecordFile.step, Tape.step, ht, hcursor, Cursor.scaled, hblock]
      cases hr : t.records[position]? with
      | none =>
        rw [Option.map_none, Option.getD_none, List.length_nil, if_neg hpos.ne]
        exact ⟨rfl, h.bytes, rfl, nofun⟩
      | some r =>
        rw [Option.map_some, Option.getD_some, if_pos (c.length_encode r), c.decode_encode]
        refine ⟨rfl, h.bytes, ?_, fun next hn => ?_⟩
        · change Cursor.reading (position * c.size + c.size) = Cursor.reading ((position + 1) * c.size)
          rw [Nat.succ_mul]
        · cases hn
          exact (List.getElem?_eq_some_iff.mp hr).1

/-- The file answers as the list of its records does. -/
theorem recordFile_answers {f : RecordFile} {t : Tape ρ} (hpos : 0 < c.size) (h : Holds c f t)
    (calls : List (FileCall ρ)) :
    (answers (RecordFile.step c) f calls).1 = (answers Tape.step t calls).1 := by
  induction calls generalizing f t with
  | nil => rfl
  | cons call calls ih =>
    obtain ⟨hanswer, hnext⟩ := h.step hpos call
    rw [answers_cons, answers_cons, hanswer, ih hnext]

end Files

end LocalVault.Library
