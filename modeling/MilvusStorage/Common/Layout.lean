import Mathlib.Algebra.Order.Ring.Nat
import Mathlib.Data.List.Basic

/-!
# Manifest file names

Version `v` of a table's manifest is the file `manifest-v.avro` of its metadata directory. The
latest version is found by listing the directory and reading the numbers off the names. The suffix
is cut off by its length and not compared.

* `manifestVersion_getManifestFilename`: reading the name of version `v` gives `v`.
-/

namespace MilvusStorage

open List

def manifestFileNamePrefix : String := "manifest-"

def manifestFileNameSuffix : String := ".avro"

def getManifestFilename (version : ℕ) : String :=
  manifestFileNamePrefix ++ version.repr ++ manifestFileNameSuffix

/-- The value of a non-empty string of digits. -/
def digitsValue (cs : List Char) : Option ℕ :=
  if cs ≠ [] ∧ cs.all Char.isDigit then some (Nat.ofDigitChars 10 cs 0) else none

/-- `std::from_chars` to an `int64_t`, on the whole string. -/
def fromChars : List Char → Option ℤ
  | '-' :: cs => (digitsValue cs).bind fun n => if n ≤ 2 ^ 63 then some (-(n : ℤ)) else none
  | cs => (digitsValue cs).bind fun n => if n < 2 ^ 63 then some (n : ℤ) else none

/-- The version the listing reads off a file name. A character stands for one byte, as in
`std::string`. -/
def manifestVersion (fileName : String) : Option ℤ :=
  let cs := fileName.toList
  if !manifestFileNamePrefix.toList.isPrefixOf cs then none
  else if cs.length ≤ manifestFileNamePrefix.length + manifestFileNameSuffix.length then none
  else fromChars ((cs.drop manifestFileNamePrefix.length).take
    (cs.length - manifestFileNamePrefix.length - manifestFileNameSuffix.length))

/-- `get_latest_version` on the names in the metadata directory, 0 if there are none. -/
def latestVersion (fileNames : List String) : ℕ :=
  fileNames.foldl (fun latest name => max latest ((manifestVersion name).elim 0 Int.toNat)) 0

/-! ## Reading a name back -/

theorem digitsValue_toDigits (n : ℕ) : digitsValue (Nat.toDigits 10 n) = some n := by
  have hdigits : (Nat.toDigits 10 n).all Char.isDigit := by
    rw [all_eq_true]
    exact fun c hc => Nat.isDigit_of_mem_toDigits (by decide) (by decide) hc
  rw [digitsValue, if_pos ⟨Nat.toDigits_ne_nil, hdigits⟩,
    Nat.ofDigitChars_toDigits (by decide) (by decide)]

theorem fromChars_toDigits {n : ℕ} (h : n < 2 ^ 63) :
    fromChars (Nat.toDigits 10 n) = some (n : ℤ) := by
  have hminus : ∀ cs, Nat.toDigits 10 n ≠ '-' :: cs := by
    intro cs heq
    have hdigit := Nat.isDigit_of_mem_toDigits (by decide) (by decide) (heq ▸ mem_cons_self)
    revert hdigit
    decide
  rw [fromChars.eq_2 _ hminus, digitsValue_toDigits, Option.bind_some, if_pos h]

theorem toList_getManifestFilename (v : ℕ) : (getManifestFilename v).toList =
      manifestFileNamePrefix.toList ++ (Nat.toDigits 10 v ++ manifestFileNameSuffix.toList) := by
  simp [getManifestFilename]

variable {v : ℕ}

theorem manifestVersion_getManifestFilename (h : v < 2 ^ 63) :
    manifestVersion (getManifestFilename v) = some (v : ℤ) := by
  have hpos := length_pos_iff.mpr (Nat.toDigits_ne_nil (n := v) (b := 10))
  have hlen : (getManifestFilename v).toList.length = 9 + ((Nat.toDigits 10 v).length + 5) := by
    rw [toList_getManifestFilename, length_append, length_append]
    rfl
  have hdrop : ((getManifestFilename v).toList.drop 9).take (Nat.toDigits 10 v).length =
      Nat.toDigits 10 v := by
    rw [toList_getManifestFilename]
    change ((_ : List Char).drop manifestFileNamePrefix.toList.length).take _ = _
    rw [drop_left, take_left]
  rw [manifestVersion]
  have hstarts : manifestFileNamePrefix.toList.isPrefixOf (getManifestFilename v).toList := by
    rw [ isPrefixOf_iff_prefix, toList_getManifestFilename]
    exact prefix_append ..
  have hp : manifestFileNamePrefix.length = 9 := rfl
  have hs : manifestFileNameSuffix.length = 5 := rfl
  simp only [hstarts, Bool.not_true, Bool.false_eq_true, if_false, hp, hs, hlen]
  rw [if_neg (by omega), show 9 + ((Nat.toDigits 10 v).length + 5) - 9 - 5 =
    (Nat.toDigits 10 v).length by omega, hdrop, fromChars_toDigits h]

theorem getManifestFilename_injective : Function.Injective getManifestFilename := by
  intro v w h
  have hl := congrArg String.toList h
  rw [toList_getManifestFilename, toList_getManifestFilename, append_cancel_left_eq,
    append_cancel_right_eq] at hl
  have hv := digitsValue_toDigits v
  rw [hl, digitsValue_toDigits] at hv
  exact (Option.some.inj hv).symm

/-! ## The latest version -/

theorem latestVersion_cons (name : String) (fileNames : List String) :
    latestVersion (name :: fileNames) =
      max ((manifestVersion name).elim 0 Int.toNat) (latestVersion fileNames) := by
  have hfold : ∀ (l : List String) (a b : ℕ),
      l.foldl (fun latest name => max latest ((manifestVersion name).elim 0 Int.toNat)) (max a b) =
        max a (l.foldl
          (fun latest name => max latest ((manifestVersion name).elim 0 Int.toNat)) b) := by
    intro l
    induction l with
    | nil => exact fun a b => rfl
    | cons x l ih =>
      intro a b
      rw [foldl_cons, foldl_cons, Nat.max_assoc, ih]
  rw [latestVersion, foldl_cons, Nat.max_comm, hfold]
  rfl

theorem fromChars_lt {cs : List Char} {v : ℤ} (h : fromChars cs = some v) : v < 2 ^ 63 := by
  unfold fromChars at h
  split at h
  all_goals
    obtain ⟨n, -, hn⟩ := Option.bind_eq_some_iff.mp h
    split_ifs at hn
    simp only [Option.some.injEq] at hn
    omega

/-- The latest version fits an `int64_t`. -/
theorem latestVersion_lt (fileNames : List String) : latestVersion fileNames < 2 ^ 63 := by
  induction fileNames with
  | nil => decide
  | cons name fileNames ih =>
    rw [latestVersion_cons]
    cases hv : manifestVersion name with
    | none =>
      simp only [Option.elim_none]
      omega
    | some v =>
      have hlt : v < 2 ^ 63 := by
        unfold manifestVersion at hv
        simp only at hv
        split_ifs at hv
        exact fromChars_lt hv
      simp only [Option.elim_some]
      omega

variable {fileNames : List String}

/-- A new version above the latest one becomes the latest. -/
theorem latestVersion_cons_of_le {name : String} (h : manifestVersion name = some (v : ℤ))
    (hle : latestVersion fileNames ≤ v) : latestVersion (name :: fileNames) = v := by
  rw [latestVersion_cons, h, Option.elim_some, Int.toNat_natCast]
  exact Nat.max_eq_left hle

/-- A version in the directory is at most the latest one. -/
theorem le_latestVersion (hv : v < 2 ^ 63) (h : getManifestFilename v ∈ fileNames) :
    v ≤ latestVersion fileNames := by
  induction fileNames with
  | nil => simp at h
  | cons name fileNames ih =>
    rw [latestVersion_cons]
    rcases mem_cons.mp h with rfl | h
    · rw [manifestVersion_getManifestFilename hv]
      exact Nat.le_max_left ..
    · exact Nat.le_trans (ih h) (Nat.le_max_right ..)

end MilvusStorage
