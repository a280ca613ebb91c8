import Mathlib.Algebra.Order.Ring.Int

/-!
# Statuses and faults

The error results of the storage library. A failed call returns an `arrow::Status`: a code, a
message and, for the errors the library classifies itself, an `ExtendStatusDetail`. Besides
returning a status, a C++ call can throw an exception, and it can leave the language: it can
dereference a null pointer, index past the end of a vector, use an iterator that an insertion has
invalidated, overflow a signed integer, or fail an `assert`. These are kept apart from statuses as
the other constructors of `Fault`, so that a theorem about a call can say that it returns at all.
-/

namespace MilvusStorage

/-- The `arrow::StatusCode`s the modelled code returns. -/
inductive StatusCode
  | invalid
  | keyError
  | ioError
  | alreadyExists
  | notImplemented
  | indexError
  | capacityError
  | unknownError
  deriving DecidableEq, Repr

/-- The errors the library classifies. -/
inductive ExtendStatusCode
  | packedInvalidArgs
  | packedStorageIO
  | packedMetadataCorrupted
  | packedFileCorrupted
  | packedArrowError
  | packedUnexpected
  | awsErrorNoSuchUpload
  | awsErrorConflict
  | awsErrorPreConditionFailed
  | awsErrorNotFound
  | awsErrorAccessDenied
  | awsErrorNonRetryable
  | storageTransientNetwork
  | storageTransientTimeout
  | storageTransientThrottling
  | storageTransientService
  | txnExhaustedRetry
  | txnResolutionFailed
  deriving DecidableEq, Repr

structure ExtendStatusDetail where
  code : ExtendStatusCode
  extraInfo : String := ""
  deriving DecidableEq, Repr

/-- A status other than `OK`. -/
structure Status where
  code : StatusCode
  message : String
  detail : Option ExtendStatusDetail := none
  deriving DecidableEq, Repr

def StatusCode.codeAsString : StatusCode → String
  | invalid => "Invalid"
  | keyError => "Key error"
  | ioError => "IOError"
  | alreadyExists => "Already exists"
  | notImplemented => "NotImplemented"
  | indexError => "Index error"
  | capacityError => "Capacity error"
  | unknownError => "Unknown error"

def ExtendStatusCode.codeAsString : ExtendStatusCode → String
  | packedInvalidArgs => "PackedInvalidArgs"
  | packedStorageIO => "PackedStorageIO"
  | packedMetadataCorrupted => "PackedMetadataCorrupted"
  | packedFileCorrupted => "PackedFileCorrupted"
  | packedArrowError => "PackedArrowError"
  | packedUnexpected => "PackedUnexpected"
  | awsErrorNoSuchUpload => "AwsErrorNoSuchUpload"
  | awsErrorConflict => "AwsErrorConflict"
  | awsErrorPreConditionFailed => "AwsErrorPreConditionFailed"
  | awsErrorNotFound => "AwsErrorNotFound"
  | awsErrorAccessDenied => "AwsErrorAccessDenied"
  | awsErrorNonRetryable => "AwsErrorNonRetryable"
  | storageTransientNetwork => "StorageTransientNetwork"
  | storageTransientTimeout => "StorageTransientTimeout"
  | storageTransientThrottling => "StorageTransientThrottling"
  | storageTransientService => "StorageTransientService"
  | txnExhaustedRetry => "TxnExhaustedRetry"
  | txnResolutionFailed => "TxnResolutionFailed"

def ExtendStatusDetail.toString (d : ExtendStatusDetail) : String :=
  d.code.codeAsString ++ ": " ++ d.extraInfo

namespace Status

def invalid (message : String) : Status := { code := .invalid, message }

def keyError (message : String) : Status := { code := .keyError, message }

def ioError (message : String) : Status := { code := .ioError, message }

def alreadyExists (message : String) : Status := { code := .alreadyExists, message }

def notImplemented (message : String) : Status := { code := .notImplemented, message }

def indexError (message : String) : Status := { code := .indexError, message }

def capacityError (message : String) : Status := { code := .capacityError, message }

def unknownError (message : String) : Status := { code := .unknownError, message }

/-- `MakeExtendError`: every classified error is an `IOError`, except for invalid arguments of the
packed reader. -/
def makeExtendError (code : ExtendStatusCode) (message : String) (extraInfo : String := "") :
    Status where
  code := if code = .packedInvalidArgs then .invalid else .ioError
  message := message
  detail := some { code, extraInfo }

def toString (s : Status) : String :=
  s.code.codeAsString ++ ": " ++ s.message ++ s.detail.elim "" fun d => ". Detail: " ++ d.toString

/-- `WrapExtendError`: the cause keeps its classification if it has one. -/
def wrapExtendError (code : ExtendStatusCode) (message : String) (cause : Status) : Status :=
  let wrappedMessage := message ++ ": " ++ cause.toString
  if cause.detail.isSome then { cause with message := wrappedMessage }
  else makeExtendError code wrappedMessage cause.toString

end Status

/-- How a call can end other than by returning a value. -/
inductive Fault
  /-- It returns an error status. -/
  | status (s : Status)
  /-- It throws an exception with this message. -/
  | thrown (what : String)
  /-- It dereferences a null pointer. -/
  | nullDereference
  /-- It indexes past the end of a vector. -/
  | outOfBounds
  /-- It appends to the vector it is iterating over. -/
  | iteratorInvalidated
  /-- A signed integer overflows. -/
  | signedOverflow
  /-- An `assert` fails. -/
  | assertionFailed
  /-- An integer is divided by zero. -/
  | divisionByZero
  deriving DecidableEq, Repr

/-- The call returns, a value or an error status. -/
def Returns {α : Type} (x : Except Fault α) : Prop := ∀ e, x = .error e → ∃ s, e = .status s

section Returns

variable {α β : Type}

theorem returns_ok (a : α) : Returns (.ok a : Except Fault α) := nofun

theorem returns_status (s : Status) : Returns (.error (.status s) : Except Fault α) :=
  fun _ h => ⟨s, (Except.error.inj h).symm⟩

variable {f : α → Except Fault β}

theorem Returns.bind {x : Except Fault α} (hx : Returns x) (hf : ∀ a, x = .ok a → Returns (f a)) :
    Returns (x >>= f) := by
  cases x with
  | error e =>
    obtain ⟨s, rfl⟩ := hx e rfl
    exact returns_status s
  | ok a => exact hf a rfl

theorem Returns.mapM {l : List α} (hf : ∀ a ∈ l, Returns (f a)) : Returns (l.mapM f) := by
  induction l with
  | nil => exact returns_ok []
  | cons a l ih =>
    obtain ⟨ha, hl⟩ := List.forall_mem_cons.mp hf
    rw [List.mapM_cons]
    exact ha.bind fun b _ => (ih hl).bind fun bs _ => returns_ok (b :: bs)

end Returns

/-- What becomes of a call to a filesystem. -/
inductive IoOutcome
  /-- It is performed and answered. -/
  | performed
  /-- It fails before it takes effect. -/
  | failed (s : Status)
  /-- It takes effect, and the caller gets an error. -/
  | replyLost (s : Status)
  deriving DecidableEq, Repr

end MilvusStorage
