import Haechi.Text.Units

/-! The target of an inbound request: which targets name a local observability route,
and which are refused because they are no origin-form path. -/

namespace Haechi.Proxy

open Text

/-- The parts of a request that are looked at before its body. -/
structure Request where
  method : JsString
  url : JsString
  /-- `x-forwarded-proto`. -/
  forwardedProto : Option JsString

def isAlpha (c : UInt16) : Bool := (65 ≤ c && c ≤ 90) || (97 ≤ c && c ≤ 122)

/-- The class `[A-Za-z\d+.-]`. -/
def isSchemeUnit (c : UInt16) : Bool :=
  isAlpha c || (48 ≤ c && c ≤ 57) || c == 43 || c == 46 || c == 45

/-- The expression `/^[A-Za-z][A-Za-z\d+.-]*:/`. -/
def hasScheme : JsString → Bool
  | [] => false
  | c :: s => isAlpha c && (s.dropWhile isSchemeUnit).head? == some 58

/-- `assertRelativeProxyTarget` lets the target pass. -/
def isRelativeTarget (url : JsString) : Bool :=
  let target := trim url
  !(hasScheme target || (js "//").isPrefixOf target)

/-- `isObservabilityRoute`. -/
def isObservabilityRoute (r : Request) : Bool :=
  r.method == js "GET" && (js "/__haechi/").isPrefixOf r.url

/-- A `GET` of one of the local routes. -/
def isLocal (r : Request) (route : String) : Bool :=
  r.method == js "GET" && r.url == js route

end Haechi.Proxy
