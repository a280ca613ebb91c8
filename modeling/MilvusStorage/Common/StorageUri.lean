import MilvusStorage.Common.Status

/-!
# Storage URIs

`StorageUri` splits a URI into scheme, address, bucket and key, over the URI parser of the arrow
library. A string that is no URI with a scheme is a relative path, which is its own key. The
address and the bucket are read off a URI in one of two ways: `scheme://address/bucket/key`, or
`scheme://bucket/key` without an address.
-/

namespace MilvusStorage

/-- `arrow::util::Uri`. The port is -1 if there is none. -/
structure Uri where
  scheme : String
  host : String
  port : Int
  path : String
  deriving DecidableEq, Repr

/-- `arrow::util::Uri::Parse`, which fails on some strings. -/
abbrev UriParser := String → Option Uri

structure StorageUri where
  scheme : String := ""
  address : String := ""
  bucketName : String := ""
  key : String := ""
  deriving DecidableEq, Repr

namespace StorageUri

/-- The host of a URI, with its port. -/
def hostAndPort (uri : Uri) : String :=
  if uri.port > 0 then uri.host ++ ":" ++ toString uri.port else uri.host

/-- Split `bucket/key`, where the first character is not the separator. -/
def splitBucket (host uri : String) (path : List Char) (includeAddress : Bool) :
    Except Fault (String × String × String) :=
  if includeAddress then
    if '/' ∉ path then .error (.status (.invalid ("Missing path in storage URI: " ++ uri)))
    else .ok (host, .ofList (path.takeWhile (· ≠ '/')), .ofList ((path.dropWhile (· ≠ '/')).drop 1))
  else .ok ("", host, .ofList path)

/-- `StorageUri::Parse`. -/
def parse (parseUri : UriParser) (uri : String) (includeAddress : Bool := true) :
    Except Fault StorageUri :=
  match parseUri uri with
  | none => .ok { key := uri }
  | some parsed =>
    if parsed.scheme = "" then .ok { key := uri }
    else if parsed.path = "" then
      .error (.status (.invalid ("Storage URI missing bucket and key: " ++ uri)))
    else
      let path := if parsed.path.toList.head? = some '/' then parsed.path.toList.tail
        else parsed.path.toList
      if path = [] then
        .error (.status (.invalid ("Storage URI missing bucket/container name: " ++ uri)))
      else do
        let (address, bucketName, key) ← splitBucket (hostAndPort parsed) uri path includeAddress
        if bucketName = "" then
          .error (.status (.invalid ("Missing bucket/container name in storage URI: " ++ uri)))
        else return { scheme := parsed.scheme, address, bucketName, key }

/-- The bare host and port of an HTTP address. -/
def resolveAddress (parseUri : UriParser) (address : String) : String :=
  match parseUri address with
  | none => address
  | some parsed =>
    if parsed.scheme = "http" ∨ parsed.scheme = "https" then hostAndPort parsed else address

/-- `StorageUri::Make`. -/
def make (parseUri : UriParser) (uri : StorageUri) (includeAddress : Bool := true) :
    Except Fault String :=
  if uri.scheme = "" then
    .error (.status (.invalid "StorageUri::Make: scheme must not be empty"))
  else if uri.bucketName = "" then
    .error (.status (.invalid "StorageUri::Make: bucket_name must not be empty"))
  else if uri.key = "" then
    .error (.status (.invalid "StorageUri::Make: key must not be empty"))
  else if !includeAddress then .ok (uri.scheme ++ "://" ++ uri.bucketName ++ "/" ++ uri.key)
  else
    let address := if uri.address = "" then "" else resolveAddress parseUri uri.address
    .ok (uri.scheme ++ "://" ++ address ++ "/" ++ uri.bucketName ++ "/" ++ uri.key)

end StorageUri

end MilvusStorage
