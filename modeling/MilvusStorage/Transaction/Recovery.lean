import MilvusStorage.Transaction.StreamSteps

/-!
# Opening a table after a failed commit

The latest version is decided by the names in the directory. A plain stream that is given up leaves
the name of a version that nobody has written, and then `Open` fails. As long as plain streams run
to their end undisturbed, and paths survive being stored, the latest version can always be read, and
some `Commit` has reported it (`Table.reopens`).
-/

namespace MilvusStorage.Table

/-- A manifest and a mark for its end. -/
def framedCodec : Codec (List (Option Manifest)) where
  encode m := .ok [some m, none]
  decode
    | [some m, none] => .ok m
    | _ => .error (.invalid "Failed to deserialize manifest")
  code_of_encode_error _ _ h := nomatch h

/-- Manifests of the table at `/table`. -/
def tableCodec : Codec (List (Option Manifest)) := framedCodec.withPaths schemeParser "/table"

theorem reopens_empty {β : Type} (codec : Codec (List β)) :
    (initial [] []).Reopens codec id := fun _ => ⟨0, {}, rfl, .inl ⟨rfl, rfl⟩⟩

/-- A transaction on an empty table up to the call of `WriteTo`. -/
def beforeWrite : List TableAction :=
  let o : OpenOptions := { readVersion := none, resolver := overwriteResolver, retryLimit := 1 }
  [.step (.open 0 o), .step (.list 0 none), .step (.read 0 none),
    .step (.update 0 noGroups { addedDeltaLogs := deltaManifest.deltaLogs }),
    .step (.commit 0), .step (.list 0 none), .step (.resolve 0), .call 0]

/-- A conditional stream that fails when it is closed. -/
def closeFails : List TableAction :=
  beforeWrite ++ [.conditionalOpen 0, .write 0 0 none, .close 0 0 (some (.ioError "lost"))]

/-- A plain stream whose write fails after a part of the manifest. -/
def writeFails : List TableAction :=
  beforeWrite ++ [.check 0, .openStream 0, .write 0 1 (some (.ioError "no space"))]

end MilvusStorage.Table
