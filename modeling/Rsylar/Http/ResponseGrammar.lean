import Rsylar.Http.RequestGrammar

/-!
# The grammar of responses

The machine of `httpclient_parser.rl`, one definition for each of its rules: it reads the head of a
response, or the line in front of a chunk. `any -- CRLF` is every byte but the line feed, which is a
line end of its own.

A machine that is generated from the rules runs an action once in a transition. Here two header
rules that read the same line may both write its field; the second time changes nothing.
-/

set_option autoImplicit false
set_option relaxedAutoImplicit false

namespace Rsylar.Http

open ActionRegex

/-- The actions that use the bytes from the mark on: callbacks, and two that convert a number. -/
inductive ResponseToken
  | reasonPhrase
  | statusCode
  | httpVersion
  | chunkSize
  | contentLen
deriving DecidableEq

/-- `chunked`, which the header sets. Nothing reads `close`. -/
inductive ResponseFlag
  | transChunked
deriving DecidableEq

abbrev ResponseExpr := Expr (ScanAction ResponseToken ResponseFlag)

namespace HttpClientParser

open Expr CharSet

open HttpParser (any ascii digit xdigit space)

section Actions

variable (r : ResponseExpr)

def marked : ResponseExpr := enter 0 .mark r

def field : ResponseExpr := leave (enter 0 .startField r) 0 .writeField

def token (k : ResponseToken) : ResponseExpr := leave r 0 (.token k)

def written : ResponseExpr := leave r 0 .writeValue

end Actions

/-- `/s/i` -/
def strNoCase (s : String) : ResponseExpr :=
  seqAll (s.toList.map fun c ↦ chars (ofList (if c.isAlpha then [c.toUpper, c.toLower] else [c])))

def crlf : ResponseExpr := alt (str "\r\n") (str "\n")

def ctl : CharSet := union (range 0 31) (range 127 127)
def tspecials : CharSet := oneOf "()<>@,;:\\\"/[]?=\x7b\x7d \t"

/-! ### Elements -/

def tokenChar : CharSet := diff ascii (union ctl tspecials)

def reasonPhrase : ResponseExpr :=
  token (marked (plus (chars (diff any (oneOf "\n"))))) .reasonPhrase
def statusCode : ResponseExpr := token (marked (plus (chars digit))) .statusCode
def httpNumber : ResponseExpr := seqAll [plus (chars digit), str ".", plus (chars digit)]
def httpVersion : ResponseExpr := token (marked (cat (str "HTTP/") httpNumber)) .httpVersion

def statusLine : ResponseExpr :=
  guard (seqAll [httpVersion, str " ", statusCode, str " ", reasonPhrase]) crlf

def fieldName : ResponseExpr := field (plus (chars tokenChar))
def fieldValue : ResponseExpr := written (marked (star (chars any)))
def fields : ResponseExpr :=
  guard (seqAll [fieldName, str ":", star (chars space), fieldValue]) crlf

def contentLength : ResponseExpr :=
  seqAll [field (strNoCase "Content-Length"), str ":", star (chars space),
    written (token (marked (plus (chars digit))) .contentLen), crlf]

def connClose : ResponseExpr :=
  seqAll [strNoCase "Connection", str ":", star (chars space), strNoCase "close",
    leave crlf 0 .skip]

def transferEncodingChunked : ResponseExpr :=
  seqAll [field (strNoCase "Transfer-Encoding"), str ":", star (chars space),
    written (marked (strNoCase "chunked")), finish crlf 0 (.flag .transChunked)]

def messageHeader : ResponseExpr :=
  altAll [transferEncodingChunked, connClose, contentLength, fields]

def response : ResponseExpr := seqAll [statusLine, star messageHeader, crlf]

/-! ### Chunks -/

def chunkExtVal : ResponseExpr := plus (chars tokenChar)
def chunkExtName : ResponseExpr := plus (chars tokenChar)

def chunkExtension : ResponseExpr :=
  star (seqAll [str ";", leave (field chunkExtName) 0 .mark,
    written (opt (cat (str "=") (marked chunkExtVal)))])

def chunkSize : ResponseExpr := plus (chars xdigit)

def chunkedHeader : ResponseExpr :=
  guard (cat (token (marked chunkSize) .chunkSize) chunkExtension) crlf

def main : ResponseExpr := finish (alt response chunkedHeader) 0 .done

/-- The state of the machine at the start. -/
def start : ResponseExpr := (main.number 0).1

/-- `cs == first_final`: it is one of the final states, the one from which nothing can be read. The
others are behind an empty line that may as well be a blank in front of the value of the header above
it. -/
def isFirstFinal (cs : ResponseExpr) : Bool :=
  cs.nullable && (List.range 256).all fun c ↦ (cs.deriv c).1.isVoid

end HttpClientParser

end Rsylar.Http
