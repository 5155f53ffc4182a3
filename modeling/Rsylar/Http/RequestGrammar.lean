import Rsylar.Http.Scanner

/-!
# The grammar of requests

The machine of `http11_parser.rl`, one definition for each of its rules. `relaxed` is
`uri_relaxed`, which nothing sets. Some rules say something else than what they seem to:
`0 - 31` and `"1"-"9"` are differences of one-letter expressions and `6( h16 ":" )` is the byte 6
before one group.
-/

set_option autoImplicit false
set_option relaxedAutoImplicit false

namespace Rsylar.Http

open ActionRegex

/-- The callbacks with the bytes from the mark on. -/
inductive RequestToken
  | requestMethod
  | fragment
  | requestPath
  | httpVersion
deriving DecidableEq

abbrev RequestExpr := Expr (ScanAction RequestToken Empty)

namespace HttpParser

open Expr CharSet

section Actions

variable (r : RequestExpr)

/-- The callback of `request_uri` is empty, and `xml` and `json` set flags that only choose whether
the callback of `header_done`, which is empty too, is made. -/
def atRequestUri : RequestExpr := leave r 0 .skip

def withFlag : RequestExpr := finish r 0 .skip

def marked : RequestExpr := enter 0 .mark r

def token (k : RequestToken) : RequestExpr := leave r 0 (.token k)

end Actions

/-! ### Character classes of Ragel -/

def any : CharSet := range 0 255
def ascii : CharSet := range 0 127
def upper : CharSet := range 65 90
def lower : CharSet := range 97 122
def alpha : CharSet := union upper lower
def digit : CharSet := range 48 57
def xdigit : CharSet := union digit (union (range 65 70) (range 97 102))
def space : CharSet := union (range 9 13) (range 32 32)

/-! ### URIs -/

section Uri

variable (relaxed : Bool)

def crlf : RequestExpr := alt (str "\r\n") (str "\n")

def moreDelims : CharSet := if relaxed then oneOf "\x7b\x7d^" else oneOf ""
def subDelims : CharSet := union (oneOf "!$&'()*+,;=") (moreDelims relaxed)
def unreserved : CharSet := union alpha (union digit (oneOf "-._~"))

def pctEncoded : RequestExpr := seqAll [str "%", chars xdigit, chars xdigit]

def pchar : RequestExpr :=
  altAll [chars (diff any ascii), chars unreserved, pctEncoded, chars (subDelims relaxed),
    chars (oneOf ":@")]

def fragmentChars : RequestExpr := star (alt (pchar relaxed) (chars (oneOf "/?")))
def queryChars : RequestExpr := star (alt (pchar relaxed) (chars (oneOf "/?")))

def fragment : RequestExpr := token (marked (fragmentChars relaxed)) .fragment
def query : RequestExpr := leave (queryChars relaxed) 0 .queryString

def segmentNzNc : RequestExpr :=
  plus (altAll [chars unreserved, pctEncoded, chars (subDelims relaxed), chars (oneOf "@")])
def segmentNz : RequestExpr := plus (pchar relaxed)
def segment : RequestExpr := star (pchar relaxed)

def pathEmpty : RequestExpr := times 0 (pchar relaxed)
def pathRootless : RequestExpr := cat (segmentNz relaxed) (star (cat (str "/") (segment relaxed)))
def pathNoscheme : RequestExpr := cat (segmentNzNc relaxed) (star (cat (str "/") (segment relaxed)))
def pathAbsolute : RequestExpr :=
  cat (str "/") (opt (cat (segmentNz relaxed) (star (cat (str "/") (segment relaxed)))))
def pathAbempty : RequestExpr := star (cat (str "/") (segment relaxed))

def regName : RequestExpr := star (altAll [chars unreserved, pctEncoded, chars (subDelims relaxed)])

def decOctet : RequestExpr :=
  altAll [chars digit, cat (chars (diff (oneOf "1") (oneOf "9"))) (chars digit),
    cat (str "1") (times 2 (chars digit)),
    seqAll [str "2", chars (diff (oneOf "0") (oneOf "4")), chars digit],
    cat (str "25") (chars (diff (oneOf "0") (oneOf "5")))]

def ipv4address : RequestExpr :=
  seqAll [decOctet, str ".", decOctet, str ".", decOctet, str ".", decOctet]

def h16 : RequestExpr := cat (chars xdigit) (upTo 3 (chars xdigit))
def ls32 : RequestExpr := alt (seqAll [h16, str ":", h16]) ipv4address

/-- `( ( h16 ":" ){n,} h16 )?` -/
def h16s (n : ℕ) : RequestExpr := opt (cat (atLeast n (cat h16 (str ":"))) h16)

def ipv6address : RequestExpr :=
  altAll [seqAll [lit 6, cat h16 (str ":"), ls32],
    seqAll [str "::", lit 5, cat h16 (str ":"), ls32],
    seqAll [opt h16, str "::", lit 4, cat h16 (str ":"), ls32],
    seqAll [h16s 1, str "::", lit 3, cat h16 (str ":"), ls32],
    seqAll [h16s 2, str "::", lit 2, cat h16 (str ":"), ls32],
    seqAll [h16s 3, str "::", h16, str ":", ls32],
    seqAll [h16s 4, str "::", ls32],
    seqAll [h16s 5, str "::", h16],
    seqAll [h16s 6, str "::"]]

def ipvFuture : RequestExpr :=
  seqAll [str "v", plus (chars xdigit), str ".",
    plus (altAll [chars unreserved, chars (subDelims relaxed), chars (oneOf ":")])]

def ipLiteral : RequestExpr := seqAll [str "[", alt ipv6address (ipvFuture relaxed), str "]"]

def port : RequestExpr := star (chars digit)
def host : RequestExpr := altAll [ipLiteral relaxed, ipv4address, regName relaxed]
def userinfo : RequestExpr :=
  star (altAll [chars unreserved, pctEncoded, chars (subDelims relaxed), chars (oneOf ":")])
def authority : RequestExpr :=
  seqAll [opt (cat (userinfo relaxed) (str "@")), host relaxed, opt (cat (str ":") port)]

def scheme : RequestExpr :=
  cat (chars alpha) (star (altAll [chars alpha, chars digit, chars (oneOf "+-.")]))

def relativePart : RequestExpr :=
  altAll [seqAll [str "//", authority relaxed, pathAbempty relaxed], pathAbsolute relaxed,
    pathNoscheme relaxed, pathEmpty relaxed]

def hierPart : RequestExpr :=
  altAll [seqAll [str "//", authority relaxed, pathAbempty relaxed], pathAbsolute relaxed,
    pathRootless relaxed, pathEmpty relaxed]

/-- `((part %request_path ("?" %start_query query)?) >mark %request_uri ("#" fragment)?)` -/
def pathQueryFragment (part : RequestExpr) : RequestExpr :=
  cat
    (atRequestUri (marked (cat (token part .requestPath)
      (opt (cat (leave (str "?") 0 .startQuery) (query relaxed))))))
    (opt (cat (str "#") (fragment relaxed)))

def relativeRef : RequestExpr := pathQueryFragment relaxed (relativePart relaxed)

def uri : RequestExpr :=
  seqAll [scheme, str ":", pathQueryFragment relaxed (hierPart relaxed)]

def uriReference : RequestExpr := alt (uri relaxed) (relativeRef relaxed)

end Uri

/-! ### Heads -/

def method : RequestExpr :=
  token (marked (cat (chars (union upper digit)) (upTo 19 (chars (union upper digit)))))
    .requestMethod

def httpNumber : RequestExpr := cat (str "1.") (chars (oneOf "01"))
def httpVersion : RequestExpr := token (marked (cat (str "HTTP/") httpNumber)) .httpVersion

def requestLine (relaxed : Bool) : RequestExpr :=
  seqAll [method, str " ", uriReference relaxed, str " ", httpVersion, crlf]

def httpCtl : CharSet := union (diff (range 0 0) (range 31 31)) (range 127 127)
def httpSeparator : CharSet := oneOf "()<>@,;:\\\"/[]?=\x7b\x7d \t"

def lws : RequestExpr := seqAll [opt crlf, plus (chars (oneOf " \t"))]
def tokenChar : CharSet := diff ascii (union httpCtl httpSeparator)
def content : RequestExpr := alt (chars (diff any httpCtl)) lws

def fieldName : RequestExpr := leave (enter 0 .startField (plus (chars tokenChar))) 0 .writeField
def fieldValue : RequestExpr := leave (enter 0 .mark (star content)) 0 .writeValue

def messageHeader : RequestExpr := guard (seqAll [fieldName, str ":", star lws, fieldValue]) crlf

def request (relaxed : Bool) : RequestExpr :=
  seqAll [requestLine relaxed, star messageHeader, crlf]

/-! ### Messages of sockets -/

def socketJSONStart (relaxed : Bool) : RequestExpr := cat (str "@") (relativePart relaxed)
def socketJSONData : RequestExpr := guard (seqAll [str "\x7b", star (chars any), str "\x7d"]) (lit 0)

def socketXMLData : RequestExpr :=
  guard
    (seqAll
      [token (marked (cat (str "<") (plus (chars (union lower (union digit (union upper
        (oneOf "-.")))))))) .requestPath,
        chars (union (oneOf "/>") space), star (chars any), str ">"])
    (lit 0)

def socketJSON (relaxed : Bool) : RequestExpr :=
  seqAll [token (marked (socketJSONStart relaxed)) .requestPath, str " ",
    withFlag (marked socketJSONData)]

def socketXML : RequestExpr := withFlag socketXMLData

def socketRequest (relaxed : Bool) : RequestExpr := alt socketXML (socketJSON relaxed)

def main (relaxed : Bool) : RequestExpr :=
  finish (alt (request relaxed) (socketRequest relaxed)) 0 .done

/-- The state of the machine at the start. -/
def start (relaxed : Bool) : RequestExpr := ((main relaxed).number 0).1

end HttpParser

end Rsylar.Http
