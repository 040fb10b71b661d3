import Tinyflows.Lib.Addresses
import Tinyflows.Lib.Text
import Tinyflows.Nodes.Execution

/-!
# Outbound HTTP

The client behind `http_request` nodes: an allowlist of hosts, a refusal of loopback and private
addresses whatever the allowlist says, and credentials that are injected after everything else.
-/

namespace Tinyflows.Caps
open Lib Lib.Text Nodes Json

/-! ## What the client is built on -/

structure SocketAddr where
  ip : IpAddr
  port : Nat
  deriving DecidableEq

structure Url where
  scheme : String
  host : Option String
  port : Option Nat
  deriving DecidableEq

/-- The URL and address parsers and the names of methods. Addresses are written in either case. -/
structure Net where
  parseUrl : String → Except String Url
  parseIp : String → Option IpAddr
  parseIp_lower : ∀ s, parseIp (asciiLower s) = parseIp s
  showIp : IpAddr → String
  parseMethod : String → Except String String

inductive Lookup where
  | answered (r : Except String (List SocketAddr))
  | panicked
  | elapsed

abbrev Resolver := Nat → String → Nat → Lookup

structure HostAllowlist where
  entries : List String
  deriving DecidableEq

/-- Hosts and entries are compared without case and without surrounding blanks. -/
def canonical (s : String) : String :=
  asciiLower (trim s)

def HostAllowlist.allows (list : HostAllowlist) (host : String) : Bool :=
  let host := canonical host
  host ≠ "" && list.entries.any fun entry =>
    let allowed := canonical entry
    allowed ≠ "" && (host = allowed || endsWith host ("." ++ allowed))

/-! ## Addresses -/

def isPrivateV4 (x : Ipv4Addr) : Bool :=
  let shared := x.a = 100 ∧ x.b &&& 0xC0 = 0x40
  x.isLoopback || x.isPrivate || x.isLinkLocal || x.isUnspecified || shared

def isPrivateAddr : IpAddr → Bool
  | .v4 x => isPrivateV4 x
  | .v6 x =>
    match x.toIpv4Mapped with
    | some mapped => isPrivateV4 mapped
    | none =>
      x.isLoopback || x.isUnspecified || x.s0 &&& 0xffc0 = 0xfe80 || x.s0 &&& 0xfe00 = 0xfc00

def stripBrackets (host : String) : String :=
  trimMatches (fun c => c = '[' || c = ']') host

def isPrivateHost (net : Net) (host : String) : Bool :=
  let host := asciiLower (stripBrackets host)
  if host = "localhost" ∨ endsWith host ".localhost" ∨ endsWith host ".internal" then true
  else (net.parseIp host).any isPrivateAddr

def vetResolution (net : Net) (host : String) (answer : Except String (List SocketAddr)) :
    Except EngineError (List SocketAddr) :=
  match answer with
  | .error e => .error (.capability s!"http_request: cannot resolve '{host}': {e}")
  | .ok resolved =>
    match resolved.find? (isPrivateAddr ·.ip) with
    | some addr => .error (.capability (s!"http_request: refusing '{host}': it resolves to " ++
        s!"{net.showIp addr.ip}, which is loopback or private"))
    | none =>
      if resolved = [] then
        .error (.capability s!"http_request: cannot resolve '{host}': it has no addresses")
      else .ok resolved

def resolveWithTimeout (net : Net) (host : String) : Lookup → Except EngineError (List SocketAddr)
  | .answered r => vetResolution net host r
  | .panicked => .error (.capability "http_request: dns lookup task panicked")
  | .elapsed => .error (.capability "http_request: dns lookup timed out")

/-! ## Credentials -/

structure HttpCredential where
  header : String
  value : String
  deriving DecidableEq

def HTTP_CRED_PREFIX : String := "http_cred:"

def httpCredName (conn : Option String) : Except EngineError (Option String) :=
  match (conn.map trim).filter (· ≠ "") with
  | none => .ok none
  | some conn =>
    match (stripPrefix HTTP_CRED_PREFIX conn).filter (· ≠ "") with
    | some name => .ok (some name)
    | none => .error (.capability (s!"http_request: unrecognised connection_ref '{conn}'; expected " ++
        s!"'{HTTP_CRED_PREFIX}<name>'"))

def injectCredential (request : Json) (cred : HttpCredential) : Except EngineError Json :=
  match request with
  | .obj fields =>
    let headers := (fields.lookup "headers").getD (.obj [])
    match if headers = .null then .obj [] else headers with
    | .obj headers =>
      let kept := headers.filter fun h => !eqIgnoreAsciiCase h.1 cred.header
      .ok (.obj (insertField "headers"
        (.obj (insertField cred.header (.str cred.value) kept)) fields))
    | _ => .error (.capability "http_request: headers must be an object or null")
  | _ => .error (.capability "http_request: request must be an object")

/-! ## The client -/

structure AllowlistHttpClient where
  allowlist : HostAllowlist
  credentials : List (String × HttpCredential)

/-- The transport of one request: where it goes when it would look `host` up. -/
structure Transport where
  override : Option (String × List SocketAddr) := none
  deriving DecidableEq

structure Sent where
  url : Url
  host : String
  port : Nat
  transport : Transport
  method : String
  headers : List (String × String)
  body : Option Json
  credential : Option HttpCredential
  deriving DecidableEq

def portOfUrl (url : Url) : Nat :=
  url.port.getD (if url.scheme = "https" then 443 else 80)

namespace AllowlistHttpClient

def permit (c : AllowlistHttpClient) (net : Net) (dns : Resolver) (request : Json) :
    Except EngineError (Url × String × List SocketAddr) := do
  let some raw := (request.get "url").bind asStr
    | throw (.capability "http_request: no url")
  let url ← (net.parseUrl raw).mapError fun e => EngineError.capability s!"http_request: invalid url: {e}"
  if url.scheme ≠ "http" ∧ url.scheme ≠ "https" then
    throw (.capability s!"http_request: refusing scheme '{url.scheme}'")
  let some host := url.host
    | throw (.capability "http_request: url has no host")
  if isPrivateHost net host then
    throw (.capability (s!"http_request: refusing '{host}': loopback and private addresses are not " ++
      "reachable from a workflow"))
  if !c.allowlist.allows host then
    throw (.capability s!"http_request: '{host}' is not in the configured http allowlist")
  let vetted ← resolveWithTimeout net host (dns 0 host (portOfUrl url))
  return (url, host, vetted)

def pinned (net : Net) (host : String) (addrs : List SocketAddr) : Transport :=
  let bare := stripBrackets host
  if addrs = [] ∨ (net.parseIp bare).isSome then {} else { override := some (bare, addrs) }

def credential (c : AllowlistHttpClient) (conn : Option String) :
    Except EngineError (Option HttpCredential) := do
  match ← httpCredName conn with
  | none => return none
  | some name =>
    match c.credentials.lookup name with
    | some cred => return some cred
    | none => throw (.capability s!"http_request: unknown credential '{name}'")

def stringHeaders (request : Json) : List (String × String) :=
  (((request.get "headers").bind asObject).getD []).filterMap fun h => h.2.asStr.map (h.1, ·)

def request (c : AllowlistHttpClient) (net : Net) (dns : Resolver) (request : Json)
    (conn : Option String) : Except EngineError Sent := do
  let (url, host, vetted) ← c.permit net dns request
  let transport := pinned net host vetted
  let credential ← c.credential conn
  if credential.isSome ∧ url.scheme = "http" then
    throw (.capability "http_request: refusing to send a credential over plain http")
  let request ← match credential with
    | some cred => injectCredential request cred
    | none => pure request
  let method := asciiUpper (((request.get "method").bind asStr).getD "GET")
  let method ← (net.parseMethod method).mapError fun e => EngineError.capability s!"http_request: {e}"
  return { url, host, port := portOfUrl url, transport, method, headers := stringHeaders request,
           body := request.get "body", credential }

end AllowlistHttpClient

/-- The transport connects to a literal as it stands, to the addresses it is pinned to, and otherwise
to whatever a further lookup answers. -/
def Sent.MayConnect (sent : Sent) (net : Net) (dns : Resolver) (addr : SocketAddr) : Prop :=
  match net.parseIp (stripBrackets sent.host) with
  | some ip => addr = ⟨ip, sent.port⟩
  | none =>
    match sent.transport.override with
    | some (domain, addrs) =>
      if domain = stripBrackets sent.host then addr ∈ addrs
      else ∃ n found, dns (n + 1) sent.host sent.port = .answered (.ok found) ∧ addr ∈ found
    | none => ∃ n found, dns (n + 1) sent.host sent.port = .answered (.ok found) ∧ addr ∈ found

/-! ## What must not be reached -/

def restrictedIpv4 : List AddressBlock :=
  [.ipv4 127 0 0 0 8, .ipv4 0 0 0 0 32, .ipv4 169 254 0 0 16, .ipv4 10 0 0 0 8, .ipv4 172 16 0 0 12,
    .ipv4 192 168 0 0 16, .ipv4 100 64 0 0 10]

def restrictedIpv6 : List AddressBlock :=
  [⟨0, 0⟩, ⟨1, 0⟩, .ipv6 0xfe80 10, .ipv6 0xfc00 7]

def RestrictedV4 (x : Ipv4Addr) : Prop :=
  ∃ block ∈ restrictedIpv4, block.Contains x.toNat

/-- In a restricted block, by itself or by the IPv4 address embedded in it. -/
def Restricted (embeddings : List Embedding) : IpAddr → Prop
  | .v4 x => RestrictedV4 x
  | .v6 x => (∃ block ∈ restrictedIpv6, block.Contains x.toNat) ∨
      ∃ e ∈ embeddings, ∃ y, e.Embeds x y ∧ RestrictedV4 y

/-- The host is an entry of the list or a subdomain of one. -/
def Listed (list : HostAllowlist) (host : String) : Prop :=
  ∃ entry ∈ list.entries, canonical entry ≠ "" ∧ (canonical host = canonical entry ∨
    ∃ labels, canonical host = labels ++ "." ++ canonical entry)

end Tinyflows.Caps
