import OperationSystems.Foundation.CStrings
import OperationSystems.Proxy.Socket

/-!
# Reading and parsing a request

The first part of `handle_client`: fill `buf[8192]` until the headers are in it,
cut the request line and the host out by storing NULs, and print the cache key
and the request for the origin. Pointers into `buf` are indices, and `buf` is
what has been written to it so far.
-/

namespace OperationSystems.Proxy

open CStrings

/-- `sizeof(buf)`. -/
def bufSize : Nat := 8192

/-- `sizeof(host)`. -/
def hostSize : Nat := 256

/-- `sizeof(key)`. -/
def keySize : Nat := 512

/-- `sizeof(req)`. -/
def reqSize : Nat := 4096

/-- The bytes the parser looks for. -/
abbrev space : UInt8 := 32
abbrev tab : UInt8 := 9
abbrev cr : UInt8 := 13
abbrev lf : UInt8 := 10
abbrev slash : UInt8 := 47

/-- `memmem_simple`. -/
def memmemSimple (haystack needle : List UInt8) : Option Nat :=
  if needle.length = 0 ∨ haystack.length < needle.length then none
  else (List.range (haystack.length + 1 - needle.length)).find? fun i =>
    (haystack.drop i).take needle.length == needle

/-- `find_host_header`: where the value of the first `Host:` starts. -/
def findHostHeader (buf : List UInt8) : Option Nat :=
  (memmemSimple buf (ascii "Host:")).map fun p =>
    p + 5 + ((buf.drop (p + 5)).takeWhile fun c => c == space || c == tab).length

/-- The messages with which `handle_client` closes a connection before it looks
at the cache. -/
inductive Reject
  | recvFailed
  | closedBeforeHeaders
  | headersTooLarge
  | noCrlf
  | noSpaceAfterMethod
  | noSpaceBeforeHttp
  | unsupportedMethod
  | noHostHeader
  deriving DecidableEq

/-- How parsing stops: the connection is closed, or a byte outside `buf` is read
or written. -/
inductive Stop
  | rejected (why : Reject)
  | fault
  deriving DecidableEq

/-- The loop that fills `buf`, after one `recv`. -/
inductive Receive
  | reading (buf : List UInt8)
  | received (buf : List UInt8)
  | rejected (why : Reject)
  deriving DecidableEq

/-- One iteration of the loop that fills `buf`; `none` where `recv` does not
answer so. -/
def receive (buf : List UInt8) : RecvAnswer → Option Receive
  | .interrupted => some (.reading buf)
  | .reset => some (.rejected .recvFailed)
  | .failed => some (.rejected .recvFailed)
  | .closed => some (.rejected .closedBeforeHeaders)
  | .bytes received =>
      if 0 < received.length ∧ received.length ≤ bufSize - buf.length then
        let buf := buf ++ received
        if memmemSimple buf (ascii "\r\n\r\n") ≠ none then some (.received buf)
        else if buf.length = bufSize then some (.rejected .headersTooLarge)
        else some (.reading buf)
      else none

/-- A load or store of the parser. -/
def access {α : Type} : Option α → Except Stop α
  | some a => .ok a
  | none => .error .fault

/-- A search of the parser, and the message when it finds nothing. -/
def require {α : Type} (why : Reject) : Option α → Except Stop α
  | some a => .ok a
  | none => .error (.rejected why)

/-- The request line after NULs were stored behind the method, the target and
the line: the buffer, `path`, and `headers_start`. -/
structure RequestLine where
  buf : List UInt8
  path : Nat
  headersStart : Nat

/-- Lines 227 to 261. -/
def splitRequestLine (buf : List UInt8) : Except Stop RequestLine := do
  let lineEnd ← require .noCrlf (memmemSimple buf (ascii "\r\n"))
  let buf ← access (storeNul bufSize buf lineEnd)
  let line ← access (loadString buf 0)
  let sp1 ← require .noSpaceAfterMethod (strchr line space)
  let buf ← access (storeNul bufSize buf sp1)
  let path := sp1 + 1
  let rest ← access (loadString buf path)
  let sp2 ← require .noSpaceBeforeHttp (strchr rest space)
  let buf ← access (storeNul bufSize buf (path + sp2))
  let method ← access (loadString buf 0)
  if method.bytes ≠ ascii "GET" then throw (.rejected .unsupportedMethod)
  return { buf := buf, path := path, headersStart := lineEnd + 2 }

/-- The literal `"/"`. -/
def rootUri : CString := ⟨ascii "/", by decide⟩

/-- Lines 263 to 270: the uri, a pointer into the target or the literal. -/
def findUri (path : Nat) (target : CString) : Option Nat :=
  if (ascii "http://").isPrefixOf target.bytes then
    let host := ((target.bytes.drop 7).takeWhile (· != slash)).length
    if (target.bytes.drop (7 + host)) = [] then none else some (path + 7 + host)
  else some path

/-- The string behind the uri pointer. -/
def loadUri (buf : List UInt8) : Option Nat → Except Stop CString
  | none => .ok rootUri
  | some uri => access (loadString buf uri)

/-- The host and the uri of an accepted request. -/
structure Request where
  host : CString
  uri : CString
  deriving DecidableEq

/-- Lines 227 to 293. -/
def parseRequest (buf : List UInt8) : Except Stop Request := do
  let line ← splitRequestLine buf
  let target ← access (loadString line.buf line.path)
  let header ← require .noHostHeader (findHostHeader (line.buf.drop line.headersStart))
  let hostStart := line.headersStart + header
  let value := (line.buf.drop hostStart).takeWhile fun c => c != cr && c != lf
  let buf ← access (storeNul bufSize line.buf (hostStart + value.length))
  let host ← access (loadString buf hostStart)
  let uri ← loadUri buf (findUri line.path target)
  return { host := host.part (host.bytes.take (hostSize - 1)) (List.take_subset _ _), uri := uri }

/-- `snprintf(str, size, ...)` of a text: what it writes before the NUL. -/
def snprintf (size : Nat) (text : CString) : CString :=
  text.part (text.bytes.take (size - 1)) (List.take_subset _ _)

namespace Request

variable (request : Request)

/-- `"%s %s"` of host and uri. -/
def keyText : CString where
  bytes := request.host.bytes ++ space :: request.uri.bytes
  noNul := by
    have host := request.host.noNul
    have uri := request.uri.noNul
    simp [space, host, uri]

/-- `key`. -/
def key : CString := snprintf keySize request.keyText

/-- The text of the request for the origin. -/
def originText : List UInt8 :=
  ascii "GET " ++ request.uri.bytes ++ ascii " HTTP/1.0\r\nHost: " ++ request.host.bytes ++
    ascii "\r\nConnection: close\r\n\r\n"

/-- `req`, unless it does not fit. -/
def originRequest : Option (List UInt8) :=
  if reqSize ≤ request.originText.length then none else some request.originText

end Request

/-- The loop that fills `buf`, over the answers of its `recv` calls. -/
def receiveAll (buf : List UInt8) : List RecvAnswer → Option Receive
  | [] => some (.reading buf)
  | answer :: answers =>
      match receive buf answer with
      | some (.reading buf) => receiveAll buf answers
      | some ended => if answers.isEmpty then some ended else none
      | none => none

/-- A client whose `recv` calls answer so is accepted with this request:
`handle_client` goes on to `cache_start_or_join`. -/
def Accepted (answers : List RecvAnswer) (request : Request) : Prop :=
  ∃ buf, receiveAll [] answers = some (.received buf) ∧ parseRequest buf = .ok request

end OperationSystems.Proxy
