import Rsylar.Http.Headers

/-!
# Requests

`HttpRequest` with the functions that write it and that the parser's callbacks call.
-/

set_option autoImplicit false
set_option relaxedAutoImplicit false

namespace Rsylar.Http

inductive HttpMethod
  | delete | get | head | post | put | connect
  | options | trace | copy | lock | mkcol | move
  | propfind | proppatch | search | unlock | bind | rebind
  | unbind | acl | report | mkactivity | checkout | merge
  | msearch | notify | subscribe | unsubscribe | patch | purge
  | mkcalendar | link | unlink | source
deriving DecidableEq

namespace HttpMethod

/-- `HTTP_METHOD_MAP`, in its order. -/
def all : List HttpMethod :=
  [.delete, .get, .head, .post, .put, .connect, .options, .trace, .copy, .lock, .mkcol, .move,
    .propfind, .proppatch, .search, .unlock, .bind, .rebind, .unbind, .acl, .report,
    .mkactivity, .checkout, .merge, .msearch, .notify, .subscribe, .unsubscribe, .patch,
    .purge, .mkcalendar, .link, .unlink, .source]

/-- `HttpMethodToString`. -/
def text : HttpMethod → String
  | delete => "DELETE"
  | get => "GET"
  | head => "HEAD"
  | post => "POST"
  | put => "PUT"
  | connect => "CONNECT"
  | options => "OPTIONS"
  | trace => "TRACE"
  | copy => "COPY"
  | lock => "LOCK"
  | mkcol => "MKCOL"
  | move => "MOVE"
  | propfind => "PROPFIND"
  | proppatch => "PROPPATCH"
  | search => "SEARCH"
  | unlock => "UNLOCK"
  | bind => "BIND"
  | rebind => "REBIND"
  | unbind => "UNBIND"
  | acl => "ACL"
  | report => "REPORT"
  | mkactivity => "MKACTIVITY"
  | checkout => "CHECKOUT"
  | merge => "MERGE"
  | msearch => "M-SEARCH"
  | notify => "NOTIFY"
  | subscribe => "SUBSCRIBE"
  | unsubscribe => "UNSUBSCRIBE"
  | patch => "PATCH"
  | purge => "PURGE"
  | mkcalendar => "MKCALENDAR"
  | link => "LINK"
  | unlink => "UNLINK"
  | source => "SOURCE"

end HttpMethod

/-- The first method of the map that the bytes begin with, `none` for `INVALID_METHOD`. -/
def charsToHttpMethod (m : List Byte) : Option HttpMethod :=
  HttpMethod.all.find? fun method ↦ strncmp (bytesOf method.text) m (bytesOf method.text).length

structure HttpRequest where
  method : HttpMethod := .get
  version : Byte := 0x11
  close : Bool := true
  websocket : Bool := false
  path : List Byte := bytesOf "/"
  query : List Byte := []
  fragment : List Byte := []
  body : List Byte := []
  headers : Headers := {}
deriving DecidableEq

namespace HttpRequest

/-- A header line. -/
def dumpHeader (name value : List Byte) : List Byte :=
  name ++ bytesOf ": " ++ value ++ bytesOf "\r\n"

def dump (r : HttpRequest) : List Byte :=
  bytesOf r.method.text ++ bytesOf " " ++ r.path ++
    (if r.query = [] then [] else bytesOf "?") ++ r.query ++
    (if r.fragment = [] then [] else bytesOf "#") ++ r.fragment ++
    bytesOf " HTTP/" ++ decimal (r.version.toNat / 16) ++ bytesOf "." ++
    decimal (r.version.toNat % 16) ++ bytesOf "\r\n" ++
    (if r.websocket then []
      else dumpHeader (bytesOf "connection") (bytesOf (if r.close then "close" else "keep-alive"))) ++
    r.headers.list.flatMap (fun h ↦
      if !r.websocket && strcasecmp h.name (bytesOf "connection") then []
      else dumpHeader h.name h.value) ++
    (if r.body = [] then bytesOf "\r\n"
      else dumpHeader (bytesOf "content-length") (decimal r.body.length) ++ bytesOf "\r\n" ++ r.body)

/-- Sets `m_close` from the header `connection`. -/
def init (r : HttpRequest) : HttpRequest :=
  if r.headers.getHeader (bytesOf "connection") = [] then r
  else
    { r with
      close :=
        !strcasecmp (r.headers.getHeader (bytesOf "connection")) (bytesOf "keep-alive") }

end HttpRequest

end Rsylar.Http
