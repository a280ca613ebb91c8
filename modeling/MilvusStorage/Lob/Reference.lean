import MilvusStorage.Common.RecordBatch
import MilvusStorage.Foundations.Bytes

/-!
# References to large objects

What the writer of a large-object column returns for a value, and what its reader takes. A short
value is kept inline, behind a flag byte. A long one is a row of a Vortex file, and its reference
has the UUID of the file and the offset of the row.

* `decodeLOBReference_encode`: an encoded reference is decoded again.
* `lobFilePath_injective`: different UUIDs are different files.
-/

namespace MilvusStorage.Lob

open List

abbrev Bytes := List UInt8

/-- A binary UUID. -/
abbrev UUID := { bytes : Bytes // bytes.length = 16 }

def flagInlineData : UInt8 := 0

def flagLobReference : UInt8 := 1

def lobReferenceSize : ℕ := 24

/-! ## Inline data -/

def encodeInlineData (payload : Bytes) : Bytes := flagInlineData :: payload

def decodeInlineData (data : Bytes) : Bytes := data.drop 1

def isInlineData (data : Bytes) : Bool := data.head? = some flagInlineData

def isLOBReference (data : Bytes) : Bool := data.head? = some flagLobReference

theorem decodeInlineData_encode (payload : Bytes) :
    decodeInlineData (encodeInlineData payload) = payload := rfl

theorem encodeInlineData_ne_nil (payload : Bytes) : encodeInlineData payload ≠ [] :=
  cons_ne_nil _ _

/-! ## References -/

structure LOBReference where
  fileId : String
  rowOffset : ℤ
  deriving DecidableEq

/-- The bytes of an `int32_t`. -/
def int32Bytes (x : ℤ) : Bytes := Bytes.toLE 4 (toUnsigned 32 x)

def encodeLOBReference (fileId : UUID) (rowOffset : ℤ) : Bytes :=
  flagLobReference :: [0, 0, 0] ++ fileId.1 ++ int32Bytes rowOffset

/-- `xxxxxxxx-xxxx-xxxx-xxxx-xxxxxxxxxxxx`. -/
def uuidToString (uuid : Bytes) : String :=
  let digits := fun start size => ((uuid.drop start).take size).flatMap Bytes.hex
  .ofList (digits 0 4 ++ '-' :: digits 4 2 ++ '-' :: digits 6 2 ++ '-' :: digits 8 2 ++
    '-' :: digits 10 6)

def decodeLOBReference (data : Bytes) : LOBReference where
  fileId := uuidToString ((data.drop 4).take 16)
  rowOffset := toSigned 32 (Bytes.ofLE ((data.drop 20).take 4))

theorem length_encodeLOBReference (fileId : UUID) (rowOffset : ℤ) :
    (encodeLOBReference fileId rowOffset).length = lobReferenceSize := by
  simp [encodeLOBReference, int32Bytes, fileId.2, lobReferenceSize]

theorem encodeLOBReference_ne_nil (fileId : UUID) (rowOffset : ℤ) :
    encodeLOBReference fileId rowOffset ≠ [] := cons_ne_nil _ _

theorem isInlineData_encodeLOBReference (fileId : UUID) (rowOffset : ℤ) :
    isInlineData (encodeLOBReference fileId rowOffset) = false := rfl

theorem toSigned_natCast {n : ℕ} (h : n < 2 ^ 31) : toSigned 32 n = n := by
  rw [toSigned, Int.bmod]
  omega

theorem toSigned_range (x : ℤ) : -2 ^ 31 ≤ toSigned 32 x ∧ toSigned 32 x < 2 ^ 31 := by
  rw [toSigned, Int.bmod]
  omega

/-- The bytes of an `int32_t` are read back. -/
theorem toSigned_int32Bytes {x : ℤ} (hle : -2 ^ 31 ≤ x) (hlt : x < 2 ^ 31) :
    toSigned 32 (Bytes.ofLE (int32Bytes x)) = x := by
  rw [int32Bytes, Bytes.ofLE_toLE, toSigned, toUnsigned, Int.bmod]
  omega

theorem decodeLOBReference_encode (fileId : UUID) {rowOffset : ℤ} (hle : -2 ^ 31 ≤ rowOffset)
    (hlt : rowOffset < 2 ^ 31) :
    decodeLOBReference (encodeLOBReference fileId rowOffset) =
      ⟨uuidToString fileId.1, rowOffset⟩ := by
  have hid : ((encodeLOBReference fileId rowOffset).drop 4).take 16 = fileId.1 := by
    show (fileId.1 ++ int32Bytes rowOffset).take 16 = _
    rw [take_left' fileId.2]
  have hoff : ((encodeLOBReference fileId rowOffset).drop 20).take 4 = int32Bytes rowOffset := by
    show ((fileId.1 ++ int32Bytes rowOffset).drop 16).take 4 = _
    rw [drop_left' fileId.2]
    exact take_of_length_le (Bytes.length_toLE ..).le
  rw [decodeLOBReference, hid, hoff, toSigned_int32Bytes hle hlt]

/-! ## Paths -/

/-- `std::filesystem::path::operator/` with a relative path. -/
def pathAppend (path tail : String) : String :=
  if path = "" ∨ path.toList.getLast? = some '/' then path ++ tail else path ++ "/" ++ tail

def buildLOBFilePath (lobBasePath fileIdStr : String) : String :=
  pathAppend (pathAppend lobBasePath "_data") (fileIdStr ++ ".vx")

/-- The path of the file with a UUID. -/
def lobFilePath (lobBasePath : String) (fileId : UUID) : String :=
  buildLOBFilePath lobBasePath (uuidToString fileId.1)

theorem filter_uuidToString {uuid : Bytes} (h : uuid.length = 16) :
    (uuidToString uuid).toList.filter (· ≠ '-') = uuid.flatMap Bytes.hex := by
  have hdigits : ∀ bs : Bytes, (bs.flatMap Bytes.hex).filter (· ≠ '-') = bs.flatMap Bytes.hex := by
    intro bs
    refine filter_eq_self.mpr fun c hc => decide_eq_true ?_
    rintro rfl
    exact Bytes.notMem_hex (by decide) bs hc
  have hdash : ∀ cs : List Char, ('-' :: cs).filter (· ≠ '-') = cs.filter (· ≠ '-') := fun _ => rfl
  have hjoin : ∀ start size, ((uuid.drop start).take size).flatMap Bytes.hex ++
      (uuid.drop (start + size)).flatMap Bytes.hex = (uuid.drop start).flatMap Bytes.hex := by
    intro start size
    rw [← flatMap_append, ← drop_drop, take_append_drop]
  have hlast : (uuid.drop 10).take 6 = uuid.drop 10 :=
    take_of_length_le (by rw [length_drop, h])
  rw [uuidToString, String.toList_ofList]
  simp only [filter_append, hdash, hdigits, append_assoc]
  rw [hlast, hjoin 8 2, hjoin 6 2, hjoin 4 2, hjoin 0 4, drop_zero]

theorem uuidToString_injective {a b : UUID} (h : uuidToString a.1 = uuidToString b.1) : a = b := by
  apply Subtype.ext
  apply Bytes.flatMap_hex_injective
  show a.1.flatMap Bytes.hex = b.1.flatMap Bytes.hex
  rw [← filter_uuidToString a.2, ← filter_uuidToString b.2, h]

theorem append_left_cancel {r s t : String} (h : r ++ s = r ++ t) : s = t := by
  rw [← String.toList_inj, String.toList_append, String.toList_append] at h
  exact String.toList_inj.mp (append_cancel_left h)

theorem append_right_cancel {r s t : String} (h : s ++ r = t ++ r) : s = t := by
  rw [← String.toList_inj, String.toList_append, String.toList_append] at h
  exact String.toList_inj.mp (append_cancel_right h)

theorem pathAppend_injective (path : String) : Function.Injective (pathAppend path) := by
  intro s t h
  unfold pathAppend at h
  split_ifs at h <;> exact append_left_cancel h

theorem lobFilePath_injective (lobBasePath : String) :
    Function.Injective (lobFilePath lobBasePath) := by
  intro a b h
  have hname := pathAppend_injective _ h
  exact uuidToString_injective (append_right_cancel hname)

end MilvusStorage.Lob
