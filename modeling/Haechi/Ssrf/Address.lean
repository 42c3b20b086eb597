import Haechi.Text.Json
import Mathlib.Data.Int.Bitwise

/-! The address check of the SSRF guard, and the copies of it in two satellites: the
bearer-token verifier's, which is the same, and the key custody client's. -/

namespace Haechi.Ssrf

open Text Json

theorem not_isDigits {s : JsString} {c : UInt16} (h : c ∈ s) (hc : isDigit c = false) :
    ¬isDigits s = true := by
  intro hdigits
  rw [isDigits, Bool.and_eq_true, List.all_eq_true] at hdigits
  rw [hdigits.2 c h] at hc
  cases hc

/-- What the platform does with texts. -/
structure Platform where
  /-- `Number(text)`, where that is an integer. -/
  toInteger : JsString → Option ℤ
  decimal : ∀ s, isDigits s = true → toInteger s = some (natValue s : ℤ)
  percent : ∀ s, 37 ∈ s → toInteger s = none
  toLowerCase : JsString → JsString
  ascii : ∀ s, (∀ c ∈ s, c < 128) → toLowerCase s = lowerAscii s

/-- A platform that reads no number but the decimal ones, and lowers no letter but the
ASCII ones. -/
def Platform.ofAscii : Platform where
  toInteger s := if isDigits s then some (natValue s : ℤ) else none
  decimal _ h := if_pos h
  percent _ h := if_neg (not_isDigits h rfl)
  toLowerCase := lowerAscii
  ascii s _ := lowerAscii_eq_map s

/-! ### `net.isIP` -/

/-- `text.split("::")`. -/
def splitDouble : JsString → List JsString
  | [] => [[]]
  | [c] => [[c]]
  | c :: d :: rest =>
    if c = 58 ∧ d = 58 then [] :: splitDouble rest
    else (splitDouble (d :: rest)).modifyHead (c :: ·)

/-- `/^[0-9a-fA-F]{1,4}$/`. -/
def isHextet (s : JsString) : Bool :=
  1 ≤ s.length && s.length ≤ 4 && s.all fun c => (hexValue c).isSome

/-- A decimal octet without a superfluous zero. -/
def isOctet (s : JsString) : Bool :=
  isDigits s && (s.length == 1 || s.head? != some 48) && natValue s ≤ 255

def isIPv4 (s : JsString) : Bool := (s.splitOn 46).length == 4 && (s.splitOn 46).all isOctet

/-- The pieces of one side of a `::`. -/
def pieces (half : JsString) : List JsString := if half = [] then [] else half.splitOn 58

/-- How many groups the pieces up to the end of an address are; only the last may be
a dotted quad. -/
def countGroups : List JsString → Option ℕ
  | [] => some 0
  | [p] => if isHextet p then some 1 else if isIPv4 p then some 2 else none
  | p :: ps => if isHextet p then (countGroups ps).map (· + 1) else none

/-- An IPv6 address without a zone. -/
def isIPv6Body (s : JsString) : Bool :=
  match splitDouble s with
  | [whole] => countGroups (pieces whole) == some 8
  | [left, right] =>
    (pieces left).all isHextet && (countGroups (pieces right)).any fun n => (pieces left).length + n ≤ 7
  | _ => false

/-- The characters of a zone id. -/
def isZoneUnit (c : UInt16) : Bool :=
  isDigit c || (65 ≤ c && c ≤ 90) || (97 ≤ c && c ≤ 122) || c == 45 || c == 46 || c == 58

def isIPv6 (s : JsString) : Bool :=
  isIPv6Body (s.takeWhile (· ≠ 37)) &&
    match s.dropWhile (· ≠ 37) with
    | [] => true
    | _ :: zone => !zone.isEmpty && zone.all isZoneUnit

/-- `isIP`. -/
def isIP (s : JsString) : ℕ := if isIPv4 s then 4 else if isIPv6 s then 6 else 0

/-! ### The octets of an IPv6 literal -/

/-- The value of a run of hexadecimal digits. -/
def hexNumber (s : JsString) : ℕ := s.foldl (fun acc c => 16 * acc + (hexValue c).getD 0) 0

/-- `parseInt(text, 16)`. -/
def parseHex (s : JsString) : Option ℤ :=
  let unblank := s.dropWhile isSpace
  let negative := unblank.head? = some 45
  let unsigned := if negative ∨ unblank.head? = some 43 then unblank.tail else unblank
  let bare := if unsigned.take 2 = js "0x" ∨ unsigned.take 2 = js "0X" then unsigned.drop 2 else unsigned
  let digits := bare.takeWhile fun c => (hexValue c).isSome
  if digits = [] then none
  else some (if negative then -(hexNumber digits : ℤ) else hexNumber digits)

/-- `toGroups`; `none` is a group that is not a number. -/
def toGroups (g : JsString) : Option (List ℕ) :=
  if g = [] then some []
  else (g.splitOn 58).mapM fun h => if isHextet h then some (hexNumber h) else none

/-- The eight groups of a text of hexadecimal groups. -/
def hexGroups (s : JsString) : Option (List ℕ) :=
  match splitDouble s with
  | [whole] => (toGroups whole).bind fun head => if head.length ≠ 8 then none else some head
  | [left, right] => do
    let head ← toGroups left
    let tail ← toGroups right
    if head.length + tail.length > 8 then none
    else return head ++ List.replicate (8 - head.length - tail.length) 0 ++ tail
  -- at most one `::`
  | _ => none

/-- `bytes.push((g >> 8) & 0xff, g & 0xff)`. -/
def groupBytes (groups : List ℕ) : List ℕ := groups.flatMap fun g => [g >>> 8 &&& 0xff, g &&& 0xff]

/-- `quad.map(Number)`, unless one of them is no octet. -/
def quadOctets (p : Platform) (quad : List JsString) : Option (List ℕ) :=
  quad.mapM fun part =>
    (p.toInteger part).bind fun n => if n < 0 ∨ n > 255 then none else some n.toNat

/-- `bytes[12] = tailV4[0]`, and so on. -/
def overwriteTail (bytes : List ℕ) : List ℕ → List ℕ
  | [a, b, c, d] => (((bytes.set 12 a).set 13 b).set 14 c).set 15 d
  | _ => bytes

/-- `ipv6ToBytes`, the same in all three copies. A trailing dotted quad is peeled off at
the last colon, and overwrites the groups that stand in for it. -/
def ipv6ToBytes (p : Platform) (str : JsString) : Option (List ℕ) :=
  if 46 ∈ str then
    if 58 ∉ str then none
    else
      let quad := (str.rtakeWhile (· ≠ 58)).splitOn 46
      if quad.length ≠ 4 then none
      else (quadOctets p quad).bind fun tailV4 =>
        (hexGroups (str.rdropWhile (· ≠ 58) ++ js "0:0")).map fun groups =>
          overwriteTail (groupBytes groups) tailV4
  else (hexGroups str).map groupBytes

/-- `${a}.${b}.${c}.${d}`. -/
def quadText (a b c d : ℕ) : JsString :=
  natText a ++ 46 :: natText b ++ 46 :: natText c ++ 46 :: natText d

/-- `mappedIpv4`, the same in all three copies. -/
def mappedIpv4 (p : Platform) (bare : JsString) : Option JsString :=
  (ipv6ToBytes p bare).bind fun b =>
    if (b.take 10).any (· ≠ 0) then none
    else if b.getD 10 0 ≠ 0xff ∨ b.getD 11 0 ≠ 0xff then none
    else some (quadText (b.getD 12 0) (b.getD 13 0) (b.getD 14 0) (b.getD 15 0))

/-! ### The check of the core -/

/-- `String(host).replace(/^\[|\]$/g, "")`. -/
def stripBrackets (s : JsString) : JsString :=
  let s := if s.head? = some 91 then s.tail else s
  if s.getLast? = some 93 then s.dropLast else s

/-- The ranges of a first group: link-local, unique local and multicast. -/
def blockedHextet (firstHextet : ℤ) : Bool :=
  (firstHextet ≥ 0xfe80 && firstHextet ≤ 0xfebf) ||
    (firstHextet ≥ 0xfc00 && firstHextet ≤ 0xfdff) ||
    (firstHextet ≥ 0xff00 && firstHextet ≤ 0xffff)

/-- The check of the octets of an IPv4 literal, of which the first two matter. -/
def blockedOctets (a b : ℤ) : Bool :=
  a == 127 || a == 10 || (a == 172 && b ≥ 16 && b ≤ 31) || (a == 192 && b == 168) ||
    (a == 169 && b == 254) || a == 0

/-- `bare.split(".").map(Number)` of an IPv4 literal. -/
def octetsOf (p : Platform) (bare : JsString) : List ℤ :=
  (bare.splitOn 46).map fun part => (p.toInteger part).getD (-1)

/-- The body of `isBlockedAddress`; `embedded` is the call it makes of itself for the IPv4
address embedded in an IPv4-mapped one. -/
def checkAddress (p : Platform) (embedded : JsString → Bool) (host : JsString) : Bool :=
  let bare := stripBrackets host
  if isIP bare = 4 then
    let o := octetsOf p bare
    blockedOctets (o.getD 0 (-1)) (o.getD 1 (-1))
  else if isIP bare = 6 then
    let h := p.toLowerCase bare
    if h = js "::1" ∨ h = js "::" then true
    else
      match mappedIpv4 p bare with
      | some mapped => embedded mapped
      | none => (parseHex (h.takeWhile (· ≠ 58))).any blockedHextet
  else false

/-- `isBlockedAddress`. The embedded address is an IPv4 literal, so its check embeds none. -/
def isBlockedAddress (p : Platform) (host : JsString) : Bool :=
  checkAddress p (checkAddress p fun _ => false) host

/-! ### The copies -/

namespace AuthJwt

/-- The bearer-token verifier's `isBlockedAddress` is the core's, line by line. -/
def isBlockedAddress (p : Platform) (host : JsString) : Bool :=
  checkAddress p (checkAddress p fun _ => false) host

end AuthJwt

namespace VaultKms

/-- `isBlockedV4`. -/
def isBlockedV4 (p : Platform) (ip : JsString) : Bool :=
  let parts := ip.splitOn 46
  if parts.length ≠ 4 then true
  else
    match quadOctets p parts with
    | none => true
    | some oct => blockedOctets (oct.getD 0 0) (oct.getD 1 0)

/-- The ranges of a first group, by its leading bits. -/
def blockedHead (head : ℤ) : Bool :=
  Int.land head 0xffc0 = 0xfe80 || Int.land head 0xfe00 = 0xfc00 || Int.land head 0xff00 = 0xff00

/-- `isBlockedV6`. -/
def isBlockedV6 (p : Platform) (ip : JsString) : Bool :=
  let lower := p.toLowerCase ip
  if lower = js "::1" ∨ lower = js "::" then true
  else
    let firstGroup := lower.takeWhile (· ≠ 58)
    if firstGroup = [] then true
    else
      -- `firstGroup.padEnd(4, "0").slice(0, 4)`
      match parseHex ((firstGroup ++ List.replicate (4 - firstGroup.length) 48).take 4) with
      | none => true
      | some head => blockedHead head

/-- The key custody client's `isBlockedAddress`. -/
def isBlockedAddress (p : Platform) (address : JsString) : Bool :=
  if address = [] then true
  else
    let ip := (stripBrackets (trim address)).takeWhile (· ≠ 37)
    match mappedIpv4 p ip with
    | some mapped => isBlockedV4 p mapped
    | none => if 58 ∈ ip then isBlockedV6 p ip else isBlockedV4 p ip

end VaultKms

end Haechi.Ssrf
