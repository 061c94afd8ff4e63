import OperationSystems.Foundation.CArrays
import OperationSystems.Proxy.Parse

/-!
# The parser on its arrays

The first part of `handle_client` once more, now on `buf[8192]`, `host[256]` and
`key[512]` as they lie in memory: what was never written holds anything, every load and
store is checked, and one outside its array stops the handler with `Stop.fault`. It is
related to the description of the parser as a function of the text that was received.
-/

namespace OperationSystems.Proxy

namespace Buffers

open CStrings CArrays

/-- The arrays on the stack of `handle_client`. -/
structure Memory where
  buf : CArray bufSize
  host : CArray hostSize
  key : CArray keySize

/-- The loop of `memmem_simple`, with so many iterations left. -/
def memmemLoop {size : ℕ} (buf : CArray size) (haystack : ℕ) (needle : List UInt8) :
    ℕ → ℕ → Option (Option ℕ)
  | 0, _ => some none
  | left + 1, i => do
      let block ← buf.loadBlock (haystack + i) needle.length
      if block = needle then some (some (haystack + i))
      else memmemLoop buf haystack needle left (i + 1)

/-- `memmem_simple`. -/
def memmemSimple {size : ℕ} (buf : CArray size) (haystack haystackLen : ℕ)
    (needle : List UInt8) : Option (Option ℕ) :=
  if needle.length = 0 ∨ haystackLen < needle.length then some none
  else memmemLoop buf haystack needle (haystackLen + 1 - needle.length) 0

/-- `find_host_header`. -/
def findHostHeader {size : ℕ} (buf : CArray size) (start len : ℕ) : Option (Option ℕ) := do
  match ← memmemSimple buf start len (ascii "Host:") with
  | none => some none
  | some p =>
      let p := p + 5
      let blanks ← scanBelow (fun c => c == space || c == tab) (start + len - p) (buf.pointer p)
      some (some (p + blanks))

/-- The request line after it was cut: `path` and `headers_start`. -/
structure RequestLine where
  buf : CArray bufSize
  path : ℕ
  headersStart : ℕ

/-- Lines 227 to 261. -/
def splitRequestLine (buf : CArray bufSize) (used : ℕ) : Except Stop RequestLine := do
  let lineEnd ← require .noCrlf (← access (memmemSimple buf 0 used (ascii "\r\n")))
  let buf ← access (buf.store lineEnd 0)
  let sp1 ← require .noSpaceAfterMethod (← access (CArrays.strchr space (buf.pointer 0)))
  let buf ← access (buf.store sp1 0)
  let path := sp1 + 1
  let sp2 ← require .noSpaceBeforeHttp (← access (CArrays.strchr space (buf.pointer path)))
  let buf ← access (buf.store (path + sp2) 0)
  let get ← access (strcmp (ascii "GET" ++ [0]) (buf.pointer 0))
  if !get then throw (.rejected .unsupportedMethod)
  return { buf := buf, path := path, headersStart := lineEnd + 2 }

/-- Lines 263 to 270. -/
def findUri (buf : CArray bufSize) (path : ℕ) : Option (Option ℕ) := do
  let absolute ← strncmp 7 (buf.pointer path) (ascii "http://" ++ [0])
  if absolute then
    let p := path + 7
    let passed ← scan (fun c => c != 0 && c != slash) (buf.pointer p)
    let p := p + passed
    let c ← buf.load p
    some (if c = 0 then none else some p)
  else some (some path)

/-- What `%s` prints of the uri. -/
def loadUri (buf : CArray bufSize) : Option ℕ → Option CString
  | none => some rootUri
  | some uri => loadString buf.bytes uri

/-- `snprintf` of a text into the front of an array. -/
def snprintf {size : ℕ} (a : CArray size) (n : ℕ) (text : List UInt8) : Option (CArray size) :=
  a.storeBlock 0 (text.take (n - 1) ++ [0])

/-- Lines 286 to 298: `host` and `key`. -/
def printKey (memory : Memory) (buf : CArray bufSize) (hostStart : ℕ) (uri : Option ℕ) :
    Except Stop Memory := do
  let hostLen ← access (strlen (buf.pointer hostStart))
  let hostLen := if hostSize ≤ hostLen then hostSize - 1 else hostLen
  let copied ← access (buf.loadBlock hostStart hostLen)
  let host ← access (memory.host.storeBlock 0 copied)
  let host ← access (host.store hostLen 0)
  let hostText ← access (loadString host.bytes 0)
  let uriText ← access (loadUri buf uri)
  let key ← access (snprintf memory.key keySize (hostText.bytes ++ space :: uriText.bytes))
  return { buf := buf, host := host, key := key }

/-- Lines 227 to 298. -/
def parse (memory : Memory) (used : ℕ) : Except Stop Memory := do
  let line ← splitRequestLine memory.buf used
  let uri ← access (findUri line.buf line.path)
  let headersLen := used - line.headersStart
  let hostStart ← require .noHostHeader
    (← access (findHostHeader line.buf line.headersStart headersLen))
  let value ← access (scanBelow (fun c => c != cr && c != lf) (used - hostStart)
    (line.buf.pointer hostStart))
  let buf ← access (line.buf.store (hostStart + value) 0)
  printKey memory buf hostStart uri

/-- The handler between two `recv` calls, or at its end here: `key` is ready, or it has
stopped. -/
inductive Outcome
  | reading (memory : Memory) (used : ℕ)
  | received (memory : Memory) (used : ℕ)
  | stopped (stop : Stop)
  | parsed (memory : Memory)

/-- One iteration of the loop that fills `buf`; `none` where `recv` does not answer so. -/
def receive (memory : Memory) (used : ℕ) : RecvAnswer → Option Outcome
  | .interrupted => some (.reading memory used)
  | .reset => some (.stopped (.rejected .recvFailed))
  | .failed => some (.stopped (.rejected .recvFailed))
  | .closed => some (.stopped (.rejected .closedBeforeHeaders))
  | .bytes received =>
      if 0 < received.length ∧ received.length ≤ bufSize - used then
        match memory.buf.storeBlock used received with
        | none => some (.stopped .fault)
        | some buf =>
            let memory := { memory with buf := buf }
            let used := used + received.length
            match memmemSimple buf 0 used (ascii "\r\n\r\n") with
            | none => some (.stopped .fault)
            | some (some _) => some (.received memory used)
            | some none =>
                if used = bufSize then some (.stopped (.rejected .headersTooLarge))
                else some (.reading memory used)
      else none

/-- The loop that fills `buf`, over the answers of its `recv` calls. -/
def receiveAll (memory : Memory) (used : ℕ) : List RecvAnswer → Option Outcome
  | [] => some (.reading memory used)
  | answer :: answers =>
      match receive memory used answer with
      | some (.reading memory used) => receiveAll memory used answers
      | some ended => if answers.isEmpty then some ended else none
      | none => none

/-- `handle_client` until it calls `cache_start_or_join`. -/
def handleClient (memory : Memory) (answers : List RecvAnswer) : Option Outcome :=
  (receiveAll memory 0 answers).map fun
    | .received memory used =>
        match parse memory used with
        | .ok memory => .parsed memory
        | .error stop => .stopped stop
    | other => other

end Buffers

end OperationSystems.Proxy
