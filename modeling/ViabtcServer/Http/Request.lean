import ViabtcServer.Container.Dict
import ViabtcServer.Wire.Word

/-!
# HTTP requests

The request of `ut_http.c`, and the callbacks by which `ut_http_svr.c` and
`ut_ws_svr.c` build it from what the parser finds.
-/

namespace ViabtcServer.Http

open Container
open Wire (Byte)

/-! ## Requests -/

/-- A header as `dict_header_dup` keeps it. -/
structure Header where
  field : List Byte
  val : List Byte
  deriving DecidableEq

/-- `http_request_t`; `url` and `body` may be `NULL`. -/
structure HttpRequest where
  versionMajor : ℕ
  versionMinor : ℕ
  method : ℕ
  headers : Dict (List Byte) Header
  url : Option (List Byte)
  body : Option (List Byte)

/-- `http_request_new`. -/
def httpRequestNew : HttpRequest := ⟨0, 0, 0, ∅, none, none⟩

/-- The bytes up to the end of a C string. -/
def cString (bytes : List Byte) : List Byte :=
  bytes.takeWhile (· ≠ 0)

def lowerByte (byte : Byte) : Byte :=
  if 65 ≤ byte.toNat ∧ byte.toNat ≤ 90 then byte + 32 else byte

/-- What names are compared by: `dict_header_hash_func` and `strcasecmp`. -/
def headerKey (field : List Byte) : List Byte :=
  (cString field).map lowerByte

/-- The two bytes between values of one name: `", "`. -/
def separator : List Byte := [44, 32]

/-- `http_request_set_header`. -/
def httpRequestSetHeader (request : HttpRequest) (field value : List Byte) : HttpRequest :=
  let key := headerKey field
  match dictFind request.headers key with
  | some entry =>
      let val := entry.val ++ separator ++ cString value
      { request with headers := dictReplace request.headers key { entry with val := val } }
  | none =>
      { request with
        headers := dictReplace request.headers key ⟨cString field, cString value⟩ }

/-! ## Callbacks -/

/-- What the callbacks use of `clt_info`, and the requests that were complete. -/
structure CltInfo where
  field : Option (List Byte)
  fieldSet : Bool
  value : Option (List Byte)
  valueSet : Bool
  request : Option HttpRequest
  requests : List HttpRequest

/-- `on_message_begin`. -/
def onMessageBegin (info : CltInfo) : CltInfo :=
  { info with request := some httpRequestNew }

/-- `on_url`. -/
def onUrl (info : CltInfo) (at_ : List Byte) : CltInfo :=
  { info with request := info.request.map fun request => { request with url := some at_ } }

/-- `on_header_field`. -/
def onHeaderField (info : CltInfo) (at_ : List Byte) : CltInfo :=
  { info with fieldSet := true, field := some at_ }

/-- `on_header_value`. -/
def onHeaderValue (info : CltInfo) (at_ : List Byte) : CltInfo :=
  let info := { info with valueSet := true, value := some at_ }
  if info.fieldSet && info.valueSet then
    { info with
      request := info.request.map fun request =>
        httpRequestSetHeader request (info.field.getD []) (info.value.getD [])
      fieldSet := false
      valueSet := false }
  else info

/-- `on_body`. -/
def onBody (info : CltInfo) (at_ : List Byte) : CltInfo :=
  { info with request := info.request.map fun request => { request with body := some at_ } }

/-- `on_message_complete`: the request goes to `on_request`, or to the handshake. -/
def onMessageComplete (info : CltInfo) (httpMajor httpMinor method : ℕ) : CltInfo :=
  let request := info.request.map fun request =>
    { request with versionMajor := httpMajor, versionMinor := httpMinor, method := method }
  { info with request := request, requests := info.requests ++ request.toList }

/-! The callbacks of `ut_ws_svr.c`, of which `on_http_body` does not free the body
before. -/

/-- `on_http_message_begin`. -/
def onHttpMessageBegin := onMessageBegin

/-- `on_http_url`. -/
def onHttpUrl := onUrl

/-- `on_http_header_field`. -/
def onHttpHeaderField := onHeaderField

/-- `on_http_header_value`. -/
def onHttpHeaderValue := onHeaderValue

/-- `on_http_body`. -/
def onHttpBody := onBody

/-- `on_http_message_complete`. -/
def onHttpMessageComplete := onMessageComplete

/-! ## The parser -/

/-- What `http_parser` calls. -/
inductive Callback
  | messageBegin
  | url (at_ : List Byte)
  | headerField (at_ : List Byte)
  | headerValue (at_ : List Byte)
  | body (at_ : List Byte)
  | messageComplete (httpMajor httpMinor method : ℕ)

/-- The settings of `http_svr_create` and of `ws_svr_create`. -/
inductive Settings
  | http
  | webSocket

/-- One callback. -/
def Settings.call (settings : Settings) (info : CltInfo) : Callback → CltInfo :=
  match settings with
  | .http => fun
    | .messageBegin => onMessageBegin info
    | .url at_ => onUrl info at_
    | .headerField at_ => onHeaderField info at_
    | .headerValue at_ => onHeaderValue info at_
    | .body at_ => onBody info at_
    | .messageComplete httpMajor httpMinor method =>
        onMessageComplete info httpMajor httpMinor method
  | .webSocket => fun
    | .messageBegin => onHttpMessageBegin info
    | .url at_ => onHttpUrl info at_
    | .headerField at_ => onHttpHeaderField info at_
    | .headerValue at_ => onHttpHeaderValue info at_
    | .body at_ => onHttpBody info at_
    | .messageComplete httpMajor httpMinor method =>
        onHttpMessageComplete info httpMajor httpMinor method

/-- A header in the pieces the parser finds. Every byte of a name is one of its `tokens`,
which has no NUL; of a value only the first byte is looked at before the end of the line. -/
structure HeaderPieces where
  field : List (List Byte)
  value : List (List Byte)
  fieldSome : field ≠ []
  valueSome : value ≠ []
  tokens : ∀ piece ∈ field, (0 : Byte) ∉ piece

def HeaderPieces.callbacks (header : HeaderPieces) : List Callback :=
  header.field.map .headerField ++ header.value.map .headerValue

/-- A request in the pieces the parser finds: the body comes in one or more, if there
is one, and a chunked body may have headers behind it. -/
structure Pieces where
  httpMajor : ℕ
  httpMinor : ℕ
  method : ℕ
  url : List (List Byte)
  headers : List HeaderPieces
  body : List (List Byte)
  trailers : List HeaderPieces
  urlSome : url ≠ []

def Pieces.callbacks (pieces : Pieces) : List Callback :=
  .messageBegin :: (pieces.url.map .url ++ (pieces.headers.flatMap HeaderPieces.callbacks ++
    (pieces.body.map .body ++ (pieces.trailers.flatMap HeaderPieces.callbacks ++
      [.messageComplete pieces.httpMajor pieces.httpMinor pieces.method]))))

end ViabtcServer.Http
