import Haechi.Text.Units

/-! What the OIDC broker is configured with, and what it reads of the answers of the
identity provider. A member of an answer that is not of the type the broker asks for
is taken as absent, which is how the broker treats it. -/

namespace Haechi.Oidc

/-- The normalized options that decide about sessions and logins. `storeShares` is the
session store's: it hands out the objects it holds, or copies of them. -/
structure Config where
  issuer : JsString
  clientId : JsString
  sessionTtlSeconds : ℤ
  idleTtlSeconds : ℤ
  maxAgeSeconds : Option ℤ
  clockSkewSeconds : ℤ
  enableRefresh : Bool
  refreshMaxLifetimeSeconds : ℤ
  pendingTtlSeconds : ℤ
  pendingCap : ℕ
  storeShares : Bool

/-- The members of a token response that are texts. -/
structure TokenResponse where
  iss : Option JsString
  idToken : Option JsString
  refreshToken : Option JsString

/-- A text that is there and not empty. -/
def nonempty? (s : Option JsString) : Option JsString := s.filter (· ≠ [])

/-- RFC 9207: an `iss` that is present is the pinned issuer. -/
def issOk (cfg : Config) (response : TokenResponse) : Bool :=
  response.iss.all (· = cfg.issuer)

/-- The `aud` claim. An entry of a list that is not a text is absent. -/
inductive Audience where
  | text (aud : JsString)
  | list (aud : List (Option JsString))
  | other

/-- The claims of an ID token the verifier has accepted. -/
structure Claims where
  aud : Audience
  azp : Option JsString
  sub : Option JsString
  nonce : Option JsString
  authTime : Option ℚ

def oidcAudienceProfileOk (cfg : Config) (claims : Claims) : Bool :=
  match claims.aud with
  | .text aud => aud = cfg.clientId
  | .list aud =>
    aud.all Option.isSome && aud.contains (some cfg.clientId) &&
      (aud.length ≤ 1 || claims.azp = some cfg.clientId)
  | .other => false

/-- The keyed hashes of `buildExternalIdentity`. -/
structure Identity where
  subjectHash : JsString
  issuerHash : JsString
deriving DecidableEq, Inhabited

end Haechi.Oidc
