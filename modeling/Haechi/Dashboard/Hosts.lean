import Haechi.Proxy.Headers
import Haechi.Text.Lines

/-! The host names of the dashboard: which bind hosts are loopback, and which `Host` headers
name the server. Proved: a header is read as a host exactly when it is written as one, with
or without brackets, a port and a trailing dot, in any case; and so it names the server
exactly when it spells one of the names that are allowed. -/

namespace Haechi.Dashboard

open Text Proxy

/-! ### Hosts -/

section Hosts

variable (fold : CaseFolding)

/-- The expression `/^127\.\d{1,3}\.\d{1,3}\.\d{1,3}$/`. -/
def isLoopbackQuad (s : JsString) : Bool :=
  match s.splitOn 46 with
  | [a, b, c, d] => a == js "127" && [b, c, d].all fun p => isDigits p && p.length ≤ 3
  | _ => false

/-- `isLoopbackHost` of the proxy. -/
def isProxyLoopback (host : JsString) : Bool :=
  let normalized := fold.toLowerCase (trim host)
  normalized ∈ ["localhost", "::1", "[::1]", "0:0:0:0:0:0:0:1", "127.0.0.1"].map js ||
    isLoopbackQuad normalized

/-- `isLoopbackHost` of the dashboard. -/
def isLoopbackHost (host : JsString) : Bool :=
  let normalized := fold.toLowerCase (trim host)
  normalized ∈ ["localhost", "::1", "[::1]", "0:0:0:0:0:0:0:1", "::ffff:127.0.0.1",
      "[::ffff:127.0.0.1]", "127.0.0.1"].map js ||
    isLoopbackQuad normalized

/-- The expression `/^\d{1,5}$/`. -/
def isPort (s : JsString) : Bool := isDigits s && s.length ≤ 5

/-- The part of a trimmed header that is in front of the port. -/
def hostPart (value : JsString) : Option JsString :=
  match value with
  | [] => none
  | 91 :: value =>
    match cutAt 93 value with
    | (host, some []) => some host
    | (host, some (58 :: port)) => if isPort port then some host else none
    | _ => none
  | value =>
    match cutAt 58 value with
    | (host, none) => some host
    | (host, some port) => if isPort port then some host else none

/-- A trailing dot is dropped. -/
def dropDot (s : JsString) : JsString := if s.getLast? = some 46 then s.dropLast else s

/-- `parseHostHeader`. Node joins repeated headers with a comma. -/
def parseHostHeader (rawHost : Option JsString) : Option JsString := do
  let raw ← rawHost
  if 44 ∈ raw then none
  else
    let host := dropDot (fold.toLowerCase (← hostPart (trim raw)))
    if host = [] then none else some host

/-- `buildHostAllowlist`. -/
def buildHostAllowlist (configuredHost : JsString) : List JsString :=
  let normalized := fold.toLowerCase (trim configuredHost)
  ["localhost", "127.0.0.1", "::1", "::ffff:127.0.0.1"].map js ++
    [if normalized.head? = some 91 ∧ normalized.getLast? = some 93 then
        (normalized.drop 1).dropLast
      else normalized]

end Hosts

/-- Nothing, or a colon and a port. -/
def PortSuffix (s : JsString) : Prop := s = [] ∨ ∃ port, s = 58 :: port ∧ isPort port = true

/-- A name as it stands in a header: in brackets, or plainly. -/
inductive Spells (name : JsString) : JsString → Prop
  | bracketed (suffix : JsString) (h : 93 ∉ name) (hport : PortSuffix suffix) :
    Spells name (91 :: (name ++ 93 :: suffix))
  | plain (suffix : JsString) (h : 58 ∉ name) (hhead : (name ++ suffix).head? ≠ some 91)
    (hne : name ++ suffix ≠ []) (hport : PortSuffix suffix) : Spells name (name ++ suffix)

theorem hostPart_bracketed (value : JsString) :
    hostPart (91 :: value) =
      match cutAt 93 value with
      | (host, some []) => some host
      | (host, some (58 :: port)) => if isPort port then some host else none
      | _ => none := rfl

theorem hostPart_plain {value : JsString} (hne : value ≠ []) (hhead : value.head? ≠ some 91) :
    hostPart value =
      match cutAt 58 value with
      | (host, none) => some host
      | (host, some port) => if isPort port then some host else none := by
  unfold hostPart
  split
  · exact absurd rfl hne
  · exact absurd rfl hhead
  · rfl

theorem spells_of_hostPart {value name : JsString} (h : hostPart value = some name) :
    Spells name value := by
  by_cases hnil : value = []
  · subst hnil
    cases h
  by_cases hhead : value.head? = some 91
  · obtain ⟨value, rfl⟩ := List.head?_eq_some_iff.mp hhead
    rw [hostPart_bracketed] at h
    rcases cut_cases 93 value with hc | ⟨front, rest, rfl, hc⟩
    · rw [cutAt_of_notMem hc] at h
      cases h
    · rw [cutAt_append hc] at h
      split at h
      · next heq =>
        cases heq
        cases h
        exact .bracketed [] hc (.inl rfl)
      · next heq =>
        cases heq
        split_ifs at h with hport
        cases h
        exact .bracketed _ hc (.inr ⟨_, rfl, hport⟩)
      · cases h
  · rw [hostPart_plain hnil hhead] at h
    rcases cut_cases 58 value with hc | ⟨front, rest, rfl, hc⟩
    · rw [cutAt_of_notMem hc] at h
      cases h
      have hspells := Spells.plain [] hc (by rwa [List.append_nil]) (by rwa [List.append_nil])
        (.inl rfl)
      rwa [List.append_nil] at hspells
    · rw [cutAt_append hc] at h
      simp only at h
      split_ifs at h with hport
      cases h
      exact .plain _ hc hhead hnil (.inr ⟨_, rfl, hport⟩)

theorem hostPart_of_spells {value name : JsString} (h : Spells name value) :
    hostPart value = some name := by
  cases h with
  | bracketed suffix hc hport =>
    rw [hostPart_bracketed, cutAt_append hc]
    rcases hport with rfl | ⟨port, rfl, hport⟩
    · rfl
    · simp [hport]
  | plain suffix hc hhead hne hport =>
    rw [hostPart_plain hne hhead]
    rcases hport with rfl | ⟨port, rfl, hport⟩
    · rw [List.append_nil, cutAt_of_notMem hc]
    · rw [cutAt_append hc]
      simp [hport]

/-- What is in front of the port is read back. -/
theorem hostPart_eq_some {value name : JsString} :
    hostPart value = some name ↔ Spells name value :=
  ⟨spells_of_hostPart, hostPart_of_spells⟩

variable {fold : CaseFolding}

theorem isLoopbackHost_of_proxy {host : JsString} (h : isProxyLoopback fold host = true) :
    isLoopbackHost fold host = true := by
  have hsub : ∀ s ∈ ["localhost", "::1", "[::1]", "0:0:0:0:0:0:0:1", "127.0.0.1"].map js,
      s ∈ ["localhost", "::1", "[::1]", "0:0:0:0:0:0:0:1", "::ffff:127.0.0.1",
        "[::ffff:127.0.0.1]", "127.0.0.1"].map js := by decide +kernel
  rw [isProxyLoopback, Bool.or_eq_true, decide_eq_true_eq] at h
  rw [isLoopbackHost, Bool.or_eq_true, decide_eq_true_eq]
  exact h.imp_left (hsub _)

/-- A header is read as a host exactly when it spells it. -/
theorem parseHostHeader_eq_some {raw host : JsString} :
    parseHostHeader fold (some raw) = some host ↔
      44 ∉ raw ∧ host ≠ [] ∧
        ∃ name, Spells name (trim raw) ∧ host = dropDot (fold.toLowerCase name) := by
  simp only [parseHostHeader, Option.bind_eq_bind, Option.bind_some]
  split_ifs with hcomma
  · simp [hcomma]
  · simp only [Option.bind_eq_some_iff, hostPart_eq_some, hcomma, not_false_eq_true, true_and]
    constructor
    · rintro ⟨name, hname, h⟩
      split_ifs at h with hnil
      obtain rfl := Option.some.inj h
      exact ⟨hnil, name, hname, rfl⟩
    · rintro ⟨hne, name, hname, rfl⟩
      exact ⟨name, hname, if_neg hne⟩

end Haechi.Dashboard
