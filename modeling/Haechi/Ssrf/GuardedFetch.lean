import Haechi.Effects
import Haechi.Ssrf.Address
import Haechi.Text.Decoder
import Haechi.Text.Encoding

/-! The guarded fetch: one request to an https URL, whose host and resolved addresses are
checked first, and whose body is bounded. -/

namespace Haechi.Ssrf

open Text Json

/-- What `new URL` reads in a text. -/
structure Url where
  protocol : JsString
  hostname : JsString
  href : JsString

/-- What is thrown: an error of the guard, or what a call of the platform rejects with. -/
inductive Failure where
  | error (message : JsString)
  | rejected

/-- One `reader.read()`. -/
inductive BodyRead where
  | chunk (bytes : List ℕ)
  | failed

/-- The body of a response: a stream, up to its end, or the text alone. -/
inductive Body where
  | stream (reads : List BodyRead)
  | whole (text : Option JsString)

structure Response where
  ok : Bool
  status : ℕ
  body : Body

/-- What the network answers: the addresses of the host, and the response; `none` where the
call rejects, also because the timer aborted it. -/
structure Answers where
  lookup : Option (List JsString)
  response : Option Response

/-- `fetchOptions`, less the timeout. -/
structure FetchOptions where
  hasFetch : Bool := true
  maxBytes : ℕ := 1024 * 1024
  label : JsString := js "url"

/-- The platform and its URL parser. -/
structure Web extends Platform where
  parseUrl : JsString → Option Url

/-- `parseHttpsUrl`. -/
def parseHttpsUrl (w : Web) (value label : JsString) : Except Failure Url :=
  match w.parseUrl value with
  | none => .error (.error (label ++ js " must be a valid URL"))
  | some url =>
    if url.protocol ≠ js "https:" then .error (.error (label ++ js " must be https")) else .ok url

/-- The loop over the chunks. -/
def readChunks (o : FetchOptions) (total : ℕ) (chunks : List ℕ) :
    List BodyRead → Except Failure JsString
  | [] => .ok (decodeLossy chunks)
  | .failed :: _ => .error .rejected
  | .chunk value :: reads =>
    if total + value.length > o.maxBytes then
      .error (.error (o.label ++ js " response exceeds the size limit"))
    else readChunks o (total + value.length) (chunks ++ value) reads

def readBody (o : FetchOptions) : Body → Except Failure JsString
  | .stream reads => readChunks o 0 [] reads
  | .whole none => .error .rejected
  | .whole (some text) =>
    if (encodeUtf8 text).length > o.maxBytes then
      .error (.error (o.label ++ js " response exceeds the size limit"))
    else .ok text

/-- `if (wrong) throw new Error(message)`. -/
def refuse (wrong : Bool) (message : JsString) : Except Failure Unit :=
  if wrong then .error (.error message) else .ok ()

def awaited {α : Type} (answer : Option α) : Except Failure α := answer.elim (.error .rejected) .ok

/-- `guardedFetch`. -/
def guardedFetch (w : Web) (o : FetchOptions) (urlString : JsString) (net : Answers) :
    Except Failure JsString := do
  let url ← parseHttpsUrl w urlString o.label
  refuse (isBlockedAddress w.toPlatform url.hostname)
    (o.label ++ js " host is a blocked (private/loopback/link-local/metadata) address")
  refuse (!o.hasFetch) (js "global fetch is unavailable; pass fetchImpl")
  let records ← awaited net.lookup
  refuse (records.any (isBlockedAddress w.toPlatform)) (o.label ++ js " resolved to a blocked address")
  let res ← awaited net.response
  refuse (!res.ok) (o.label ++ js " fetch failed: " ++ natText res.status)
  readBody o res.body

/-! ### What a fetch that succeeds has checked -/

/-- The bytes of a body. -/
def Body.bytes : Body → List ℕ
  | .stream reads => reads.flatMap fun
    | .chunk bytes => bytes
    | .failed => []
  | .whole text => text.elim [] encodeUtf8

theorem readChunks_ok {o : FetchOptions} {total : ℕ} {chunks : List ℕ} {reads : List BodyRead}
    {text : JsString} (htotal : total = chunks.length) (hbound : total ≤ o.maxBytes)
    (h : readChunks o total chunks reads = .ok text) :
    text = decodeLossy (chunks ++ (Body.stream reads).bytes) ∧
      (chunks ++ (Body.stream reads).bytes).length ≤ o.maxBytes := by
  induction reads generalizing total chunks with
  | nil =>
    rw [readChunks] at h
    cases h
    simpa [Body.bytes, htotal] using hbound
  | cons read reads ih =>
    cases read with
    | failed => cases h
    | chunk value =>
      rw [readChunks] at h
      split_ifs at h with hover
      have hlen : total + value.length = (chunks ++ value).length := by
        rw [htotal, List.length_append]
      have hread := ih hlen (by omega) h
      simpa [Body.bytes] using hread

theorem parseHttpsUrl_ok {w : Web} {value label : JsString} {url : Url}
    (h : parseHttpsUrl w value label = .ok url) :
    w.parseUrl value = some url ∧ url.protocol = js "https:" := by
  rw [parseHttpsUrl] at h
  cases hurl : w.parseUrl value with
  | none =>
    rw [hurl] at h
    cases h
  | some found =>
    simp only [hurl] at h
    split_ifs at h with hprotocol
    cases h
    exact ⟨rfl, not_not.mp hprotocol⟩

theorem refuse_ok {wrong : Bool} {message : JsString} {u : Unit}
    (h : refuse wrong message = .ok u) : wrong = false := by
  cases wrong with
  | false => rfl
  | true => cases h

theorem awaited_ok {α : Type} {answer : Option α} {a : α} (h : awaited answer = .ok a) :
    answer = some a := by
  cases answer with
  | none => cases h
  | some b =>
    cases h
    rfl

theorem readBody_ok {o : FetchOptions} {body : Body} {text : JsString}
    (h : readBody o body = .ok text) : body.bytes.length ≤ o.maxBytes := by
  cases body with
  | stream reads =>
    have hempty : 0 = ([] : List ℕ).length := rfl
    exact (readChunks_ok hempty (Nat.zero_le _) h).2
  | whole text =>
    cases text with
    | none => cases h
    | some text =>
      rw [readBody] at h
      split_ifs at h with hover
      exact not_lt.mp hover

/-- The text a fetch returns comes from a host that is not blocked, neither by its name nor by
an address it resolves to, and its bytes are within the limit. -/
theorem guardedFetch_ok {w : Web} {o : FetchOptions} {urlString text : JsString} {net : Answers}
    (h : guardedFetch w o urlString net = .ok text) :
    (∃ url, w.parseUrl urlString = some url ∧ url.protocol = js "https:" ∧
      isBlockedAddress w.toPlatform url.hostname = false) ∧
    (∃ records, net.lookup = some records ∧
      ∀ address ∈ records, isBlockedAddress w.toPlatform address = false) ∧
    ∃ res, net.response = some res ∧ res.ok = true ∧ res.body.bytes.length ≤ o.maxBytes := by
  obtain ⟨url, hurl, h⟩ := bind_eq_ok.mp h
  obtain ⟨_, hhost, h⟩ := bind_eq_ok.mp h
  obtain ⟨_, -, h⟩ := bind_eq_ok.mp h
  obtain ⟨records, hlookup, h⟩ := bind_eq_ok.mp h
  obtain ⟨_, hresolved, h⟩ := bind_eq_ok.mp h
  obtain ⟨res, hresponse, h⟩ := bind_eq_ok.mp h
  obtain ⟨_, hok, hbody⟩ := bind_eq_ok.mp h
  obtain ⟨hparse, hprotocol⟩ := parseHttpsUrl_ok hurl
  refine ⟨⟨url, hparse, hprotocol, refuse_ok hhost⟩, ⟨records, awaited_ok hlookup, ?_⟩,
    res, awaited_ok hresponse, ?_, readBody_ok hbody⟩
  · simpa using refuse_ok hresolved
  · simpa using refuse_ok hok

end Haechi.Ssrf
