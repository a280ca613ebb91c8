import MilvusStorage.Common.Status
import MilvusStorage.Foundations.Runs
import Mathlib.Logic.Function.Basic

/-!
# Writing a manifest

`Manifest::WriteTo` stores the bytes of a manifest under a path where no file should be yet. On a
filesystem with conditional writes it opens a conditional stream; the filesystem refuses it, when
the stream is opened or when it is closed, if the path is taken. On any other filesystem it asks
whether the file exists and then writes it with a plain stream, which replaces what is there.

The system is any number of calls on one path, interleaved between their calls to the filesystem
(`next`). What is wanted is that at most one of them wins (`OneWinner`).
-/

namespace MilvusStorage

def isConditionalWriteConflict (status : Status) : Bool :=
  status.code = .ioError ∧ (status.detail.any fun d =>
    d.code = .awsErrorPreConditionFailed || d.code = .awsErrorConflict)

/-- Where a call of `WriteTo` stands: before its next call to the filesystem. -/
inductive WritePhase
  | idle
  /-- Before the conditional stream is opened. -/
  | start
  /-- Before the file is looked up. -/
  | checking
  /-- Before the plain stream is opened. -/
  | absent
  /-- Before the bytes are written to a stream. -/
  | opened (conditional : Bool)
  /-- Before the stream is closed. -/
  | wrote (conditional : Bool)
  | returned (result : Except Status Unit)

namespace WritePhase

def alreadyExists (path : String) : WritePhase :=
  .returned (.error (.alreadyExists ("File already exists: " ++ path)))

def afterConditionalOpen (path : String) : Except Status Unit → WritePhase
  | .ok () => .opened true
  | .error s =>
    if isConditionalWriteConflict s then alreadyExists path
    else if s.code ≠ .notImplemented then .returned (.error s)
    else .checking

def afterCheck (path : String) : Except Status Bool → WritePhase
  | .error s => .returned (.error s)
  | .ok found => if found then alreadyExists path else .absent

def afterOpen : Except Status Unit → WritePhase
  | .error s => .returned (.error s)
  | .ok () => .opened false

def afterWrite (conditional : Bool) : Except Status Unit → WritePhase
  | .error s => .returned (.error s)
  | .ok () => .wrote conditional

def afterClose (path : String) (conditional : Bool) : Except Status Unit → WritePhase
  | .ok () => .returned (.ok ())
  | .error s =>
    if conditional && isConditionalWriteConflict s then alreadyExists path else .returned (.error s)

end WritePhase

/-! ## Filesystems -/

/-- When a conditional stream is refused, if the filesystem has them. -/
inductive ConditionalWrite
  /-- The filesystem does not implement the interface. -/
  | unsupported
  /-- It implements it and answers that it is not implemented. -/
  | notImplemented
  /-- The file is created when the stream is opened. -/
  | atOpen
  /-- The file is created when the stream is closed. -/
  | atClose
  deriving DecidableEq, Repr

/-- A filesystem; a plain stream truncates the file when it is opened, or replaces it when it is
closed. -/
structure FsKind where
  conditional : ConditionalWrite
  truncates : Bool
  deriving DecidableEq, Repr

/-- Whether what is written to a stream is in the file at once. -/
def FsKind.writesThrough (fs : FsKind) (conditional : Bool) : Bool :=
  if conditional then fs.conditional = .atOpen else fs.truncates

structure WriteCall (β : Type) where
  data : List β
  phase : WritePhase

/-- The file under the path, and the calls. -/
structure WriteSystem (β : Type) where
  file : Option (List β)
  calls : ℕ → WriteCall β

inductive WriteAction (β : Type)
  /-- `WriteTo` is called; the manifest is serialized and its directory is made. -/
  | call (i : ℕ) (data : Except Status (List β))
  | conditionalOpen (i : ℕ) (failure : Option Status)
  | check (i : ℕ) (failure : Option Status)
  | open (i : ℕ) (outcome : IoOutcome)
  /-- Of a write whose reply is lost, the first `k` bytes are in the file. -/
  | write (i : ℕ) (k : ℕ) (outcome : IoOutcome)
  | close (i : ℕ) (outcome : IoOutcome)

namespace WriteSystem

variable {β : Type} (fs : FsKind) (path : String) (S : WriteSystem β)

/-- The file after bytes are written to it from its beginning. -/
def overwrite (data : List β) (file : Option (List β)) : Option (List β) :=
  some (data ++ (file.getD []).drop data.length)

/-- What a stream that is closed, or given up, leaves in the file. A conditional stream does not
replace a file. -/
def publish (conditional : Bool) (data : List β) : Option (List β) :=
  if conditional then S.file.or (some data) else some data

/-- The file after a write of `data` to a stream that is then given up. -/
def abandon (conditional : Bool) (data : List β) : Option (List β) :=
  if fs.writesThrough conditional then overwrite data S.file else S.publish conditional data

def set (i : ℕ) (file : Option (List β)) (phase : WritePhase) : WriteSystem β where
  file := file
  calls := Function.update S.calls i { S.calls i with phase }

/-- The answer to opening a conditional stream, and the file after it. -/
def conditionalOpen : Except Status Unit × Option (List β) :=
  match fs.conditional with
  | .atOpen =>
    if S.file.isSome then
      (.error (.makeExtendError .awsErrorConflict ("File already exists: " ++ path)), S.file)
    else (.ok (), some [])
  | .atClose => (.ok (), S.file)
  | _ => (.error (.notImplemented "UploadConditional is not implemented"), S.file)

/-- The answer to closing a stream, and the file after it. -/
def closeStream (conditional : Bool) (data : List β) : Except Status Unit × Option (List β) :=
  if fs.writesThrough conditional then (.ok (), S.file)
  else if conditional && S.file.isSome then
    (.error (.makeExtendError .awsErrorPreConditionFailed "At least one precondition failed"),
      S.file)
  else (.ok (), S.publish conditional data)

/-- The system after an action, if the action is enabled. -/
def next : WriteAction β → Option (WriteSystem β)
  | .call i data =>
    match (S.calls i).phase, data with
    | .idle, .error s => some (S.set i S.file (.returned (.error s)))
    | .idle, .ok data =>
      let phase := if fs.conditional = .unsupported then .checking else .start
      some { S with calls := Function.update S.calls i { data, phase } }
    | _, _ => none
  | .conditionalOpen i failure =>
    match (S.calls i).phase, failure with
    | .start, none =>
      match S.conditionalOpen fs path with
      | (answer, file) => some (S.set i file (.afterConditionalOpen path answer))
    | .start, some s =>
      if s.code = .notImplemented then none
      else some (S.set i S.file (.afterConditionalOpen path (.error s)))
    | _, _ => none
  | .check i failure =>
    match (S.calls i).phase with
    | .checking =>
      some (S.set i S.file (.afterCheck path (failure.elim (.ok S.file.isSome) .error)))
    | _ => none
  | .open i outcome =>
    let truncated := if fs.truncates then some [] else S.file
    match (S.calls i).phase, outcome with
    | .absent, .performed => some (S.set i truncated (.afterOpen (.ok ())))
    | .absent, .failed s => some (S.set i S.file (.afterOpen (.error s)))
    | .absent, .replyLost s => some (S.set i truncated (.afterOpen (.error s)))
    | _, _ => none
  | .write i k outcome =>
    match (S.calls i).phase, outcome with
    | .opened c, .performed =>
      let file := if fs.writesThrough c then overwrite (S.calls i).data S.file else S.file
      some (S.set i file (.afterWrite c (.ok ())))
    | .opened c, .failed s => some (S.set i S.file (.afterWrite c (.error s)))
    | .opened c, .replyLost s =>
      some (S.set i (S.abandon fs c ((S.calls i).data.take k)) (.afterWrite c (.error s)))
    | _, _ => none
  | .close i outcome =>
    match (S.calls i).phase, outcome with
    | .wrote c, .performed =>
      match S.closeStream fs c (S.calls i).data with
      | (answer, file) => some (S.set i file (.afterClose path c answer))
    | .wrote c, .failed s => some (S.set i S.file (.afterClose path c (.error s)))
    | .wrote c, .replyLost s =>
      some (S.set i (S.closeStream fs c (S.calls i).data).2 (.afterClose path c (.error s)))
    | _, _ => none

/-- No call has been made yet. -/
def initial (file : Option (List β)) : WriteSystem β where
  file := file
  calls _ := { data := [], phase := .idle }

/-! ## One winner -/

/-- The call has returned `OK`. -/
def Won (i : ℕ) : Prop := (S.calls i).phase = .returned (.ok ())

/-- At most one call has won, and the file holds its bytes. -/
structure OneWinner : Prop where
  unique : ∀ i j, S.Won i → S.Won j → i = j
  content : ∀ i, S.Won i → S.file = some (S.calls i).data

/-- The call has found the path free and has not ended. -/
def PastCheck (i : ℕ) : Prop :=
  match (S.calls i).phase with
  | .absent => True
  | .opened c => c = false
  | .wrote c => c = false
  | _ => False

/-- A check that finds the path free is made while no other call is past its own. -/
def Alone : WriteAction β → Prop
  | .check _ none => S.file = none → ∀ j, ¬ S.PastCheck j
  | _ => True

end WriteSystem

end MilvusStorage
