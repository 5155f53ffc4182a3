import Rsylar.Http.Request

/-!
# Responses

`HttpResponse` with the functions that write it.
-/

set_option autoImplicit false
set_option relaxedAutoImplicit false

namespace Rsylar.Http

/-- `HTTP_STATUS_MAP` -/
def httpStatusMap : List (ℕ × String) :=
  [(100, "Continue"), (101, "Switching Protocols"), (102, "Processing"), (200, "OK"),
    (201, "Created"), (202, "Accepted"), (203, "Non-Authoritative Information"),
    (204, "No Content"), (205, "Reset Content"), (206, "Partial Content"), (207, "Multi-Status"),
    (208, "Already Reported"), (226, "IM Used"), (300, "Multiple Choices"),
    (301, "Moved Permanently"), (302, "Found"), (303, "See Other"), (304, "Not Modified"),
    (305, "Use Proxy"), (307, "Temporary Redirect"), (308, "Permanent Redirect"),
    (400, "Bad Request"), (401, "Unauthorized"), (402, "Payment Required"), (403, "Forbidden"),
    (404, "Not Found"), (405, "Method Not Allowed"), (406, "Not Acceptable"),
    (407, "Proxy Authentication Required"), (408, "Request Timeout"), (409, "Conflict"),
    (410, "Gone"), (411, "Length Required"), (412, "Precondition Failed"),
    (413, "Payload Too Large"), (414, "URI Too Long"), (415, "Unsupported Media Type"),
    (416, "Range Not Satisfiable"), (417, "Expectation Failed"), (421, "Misdirected Request"),
    (422, "Unprocessable Entity"), (423, "Locked"), (424, "Failed Dependency"),
    (426, "Upgrade Required"), (428, "Precondition Required"), (429, "Too Many Requests"),
    (431, "Request Header Fields Too Large"), (451, "Unavailable For Legal Reasons"),
    (500, "Internal Server Error"), (501, "Not Implemented"), (502, "Bad Gateway"),
    (503, "Service Unavailable"), (504, "Gateway Timeout"), (505, "HTTP Version Not Supported"),
    (506, "Variant Also Negotiates"), (507, "Insufficient Storage"), (508, "Loop Detected"),
    (510, "Not Extended"), (511, "Network Authentication Required")]

/-- A status that comes from the wire may be any number. -/
def httpStatusToString (status : BitVec 32) : String :=
  ((httpStatusMap.find? fun entry ↦ entry.1 = status.toNat).map Prod.snd).getD "<unknown>"

structure HttpResponse where
  status : BitVec 32 := 200
  version : Byte := 0x11
  close : Bool := true
  websocket : Bool := false
  body : List Byte := []
  reason : List Byte := []
  headers : Headers := ⟨[], Headers.sorted_nil⟩
  cookies : List (List Byte) := []
deriving DecidableEq

namespace HttpResponse

def dump (r : HttpResponse) : List Byte :=
  bytesOf "HTTP/" ++ decimal (r.version.toNat / 16) ++ bytesOf "." ++
    decimal (r.version.toNat % 16) ++ bytesOf " " ++ decimal r.status.toNat ++ bytesOf " " ++
    (if r.reason = [] then bytesOf (httpStatusToString r.status) else r.reason) ++
    bytesOf "\r\n" ++
    r.headers.list.flatMap (fun h ↦
      if !r.websocket && strcasecmp h.name (bytesOf "connection") then []
      else HttpRequest.dumpHeader h.name h.value) ++
    r.cookies.flatMap (HttpRequest.dumpHeader (bytesOf "Set-Cookie")) ++
    (if r.websocket then []
      else HttpRequest.dumpHeader (bytesOf "connection")
        (bytesOf (if r.close then "close" else "keep-alive"))) ++
    (if r.body = [] then bytesOf "\r\n"
      else HttpRequest.dumpHeader (bytesOf "content-length") (decimal r.body.length) ++
        bytesOf "\r\n" ++ r.body)

end HttpResponse

/-- The texts of the map are on one line. -/
theorem not_mem_httpStatusToString (status : BitVec 32) :
    10#8 ∉ bytesOf (httpStatusToString status) := by
  have htable : ∀ entry ∈ httpStatusMap, 10#8 ∉ bytesOf entry.2 := by
    decide +kernel
  rw [httpStatusToString]
  cases hfind : httpStatusMap.find? fun entry ↦ entry.1 = status.toNat with
  | none =>
    rw [Option.map_none, Option.getD_none]
    decide
  | some entry =>
    rw [Option.map_some, Option.getD_some]
    exact htable entry (List.mem_of_find?_eq_some hfind)

end Rsylar.Http
