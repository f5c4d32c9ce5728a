import CncContent.Lib.Decimal
import CncContent.Workshop.Package

/-! # Mirror lists

`parse_mirror_list_response` and `is_safe_mirror_url` of the source. A URL is cut by hand: the host is what stands
between the scheme and the next slash, and the checks look at its text. -/

namespace CncContent.Downloads.Mirrors

open CncContent.Lib.Bytes CncContent.Lib.Decimal
open CncContent.Workshop.Package (toAsciiLowercase)

inductive DownloadError
  | noUrls
deriving DecidableEq, Repr

/-! ### The host -/

/-- `str::strip_prefix`. -/
def stripPrefix (start s : List UInt8) : Option (List UInt8) :=
  if start <+: s then some (s.drop start.length) else none

def afterScheme (url : List UInt8) : Option (List UInt8) :=
  (stripPrefix (text "https://") url).or (stripPrefix (text "http://") url)

/-- The host, with its port. -/
def hostOf (rest : List UInt8) : List UInt8 := rest.takeWhile (· ≠ byte '/')

/-- In brackets, everything up to the closing one, which may be missing. -/
def hostNoPort (host : List UInt8) : List UInt8 :=
  if host.head? = some (byte '[') then host.tail.takeWhile (· ≠ byte ']') else host.takeWhile (· ≠ byte ':')

/-! ### The checks -/

/-- The prefixes of the private and link-local ranges. -/
def inPrivateRange (host : List UInt8) : Bool :=
  if text "10." <+: host ∨ text "192.168." <+: host ∨ text "169.254." <+: host then true
  else if text "172." <+: host then
    match (host.splitOn (byte '.'))[1]? with
    | some secondOctet =>
      match parseNat 255 secondOctet with
      | some n => 16 ≤ n ∧ n ≤ 31
      | none => false
    | none => false
  else false

/-- What is behind the prefix of an IPv4-mapped address. -/
def mappedPart (hostLower : List UInt8) : Option (List UInt8) :=
  (stripPrefix (text "::ffff:") hostLower).or (stripPrefix (text "0:0:0:0:0:ffff:") hostLower)

def deniedMapped (hostLower : List UInt8) : Bool :=
  match mappedPart hostLower with
  | some mapped => mapped = text "127.0.0.1" ∨ inPrivateRange mapped
  | none => false

/-- The checks that refuse a host, in their order. -/
def deniedHost (hostNoPort : List UInt8) : Bool :=
  let hostLower := hostNoPort.map toAsciiLowercase
  if hostNoPort = text "localhost" ∨ hostNoPort = text "127.0.0.1" ∨ hostNoPort = text "::1" ∨
      hostNoPort = text "0.0.0.0" then true
  else if deniedMapped hostLower then true
  else if text "fe80" <+: hostLower then true
  else if text "fc" <+: hostLower ∨ text "fd" <+: hostLower then true
  else inPrivateRange hostNoPort

/-- A host that is not in brackets has a dot. -/
def isSafeMirrorUrl (url : List UInt8) : Bool :=
  if ¬ text "http://" <+: url ∧ ¬ text "https://" <+: url then false
  else if byte '\n' ∈ url ∨ byte '\r' ∈ url then false
  else
    match afterScheme url with
    | none => false
    | some rest =>
      let host := hostOf rest
      if deniedHost (hostNoPort host) then false
      else if host.head? ≠ some (byte '[') ∧ byte '.' ∉ hostNoPort host then false
      else true

/-! ### The list -/

def stripCarriageReturn (line : List UInt8) : List UInt8 :=
  if line.getLast? = some (byte '\r') then line.dropLast else line

/-- `str::lines`: a line ends in a newline, perhaps after a carriage return; the last may lack it. -/
def lines (body : List UInt8) : List (List UInt8) :=
  let pieces := body.splitOn (byte '\n')
  pieces.dropLast.map stripCarriageReturn ++ pieces.getLast?.toList.filter (· ≠ [])

def parseMirrorListResponse (body : List UInt8) : Except DownloadError (List (List UInt8)) :=
  let mirrors := ((lines body).map trim).filter fun l => l ≠ [] ∧ isSafeMirrorUrl l
  if mirrors = [] then .error .noUrls else .ok mirrors

example : parseMirrorListResponse (text "http://localhost/\n\n https://x.y:80/b \r\nftp://x.y/") =
    .ok [text "https://x.y:80/b"] := by decide +kernel

end CncContent.Downloads.Mirrors
