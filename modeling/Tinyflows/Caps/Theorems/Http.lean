import Tinyflows.Caps.Lemmas.Addresses

/-!
# No request passes the guards unseen
-/

namespace Tinyflows.Caps
open Lib Lib.Text Nodes AllowlistHttpClient List Json

variable {host : String} {net : Net} {vetted : List SocketAddr} {c : AllowlistHttpClient}
  {dns : Resolver} {request : Json} {sent : Sent}

theorem listed_of_allows {listed} (h : listed.allows host = true) : Listed listed host := by
  simp only [HostAllowlist.allows, Bool.and_eq_true, any_eq_true, decide_eq_true_eq,
    Bool.or_eq_true] at h
  obtain ⟨-, entry, he, hn, hq | hs⟩ := h
  · exact ⟨entry, he, hn, .inl hq⟩
  · obtain ⟨label, hl⟩ := endsWith_iff.mp hs
    exact ⟨entry, he, hn, .inr ⟨label, by rw [hl, String.append_assoc]⟩⟩

/-! ## Addresses -/

theorem vetResolution_ok {answer} (h : vetResolution net host answer = .ok vetted) :
    vetted ≠ [] ∧ ∀ addr ∈ vetted, isPrivateAddr addr.ip = false := by
  unfold vetResolution at h
  split at h
  · cases h
  · split at h
    · cases h
    · next hf =>
        split at h
        · cases h
        · next hn =>
            cases h
            refine ⟨hn, fun addr ha => ?_⟩
            simpa using find?_eq_none.mp hf addr ha

theorem resolveWithTimeout_ok {lo} (h : resolveWithTimeout net host lo = .ok vetted) :
    vetted ≠ [] ∧ ∀ addr ∈ vetted, isPrivateAddr addr.ip = false := by
  cases lo with
  | answered r => exact vetResolution_ok h
  | panicked => cases h
  | elapsed => cases h

theorem literal_not_private {ip} (h : isPrivateHost net host = false)
    (hi : net.parseIp (stripBrackets host) = some ip) : isPrivateAddr ip = false := by
  simp only [isPrivateHost] at h
  split at h
  · cases h
  · rwa [net.parseIp_lower, hi] at h

structure Permitted (c : AllowlistHttpClient) (net : Net) (url : Url) (host : String)
    (vetted : List SocketAddr) : Prop where
  scheme : url.scheme = "http" ∨ url.scheme = "https"
  urlHost : url.host = some host
  named : isPrivateHost net host = false
  allowed : c.allowlist.allows host = true
  found : vetted ≠ []
  judged : ∀ addr ∈ vetted, isPrivateAddr addr.ip = false

theorem permit_ok {url} (h : c.permit net dns request = .ok (url, host, vetted)) :
    Permitted c net url host vetted := by
  simp only [permit, bind, Except.bind, throw, throwThe, MonadExceptOf.throw, pure, Except.pure] at h
  split at h
  · split at h
    · cases h
    · next url' _ =>
        split at h
        · cases h
        · next hs =>
            split at h
            · next host' hh =>
                split at h
                · cases h
                · next hn =>
                    split at h
                    · cases h
                    · next ha =>
                        split at h
                        · cases h
                        · next ve' he =>
                            cases h
                            have hv := resolveWithTimeout_ok he
                            refine ⟨?_, hh, by simpa using hn, by simpa using ha, hv.1, hv.2⟩
                            by_contra hN
                            exact hs (not_or.mp hN)
            · cases h
  · cases h

theorem Permitted.reach (h : Permitted c net sent.url sent.host vetted)
    (ht : sent.transport = pinned net sent.host vetted) {addr}
    (hc : sent.MayConnect net dns addr) : isPrivateAddr addr.ip = false := by
  unfold Sent.MayConnect at hc
  rw [ht] at hc
  split at hc
  · next ip hi =>
      subst hc
      exact literal_not_private h.named hi
  · next hi =>
      simp only [pinned, h.found, hi, Option.isSome_none, Bool.false_eq_true, or_self, if_false,
        if_true] at hc
      exact h.judged addr hc

theorem stringHeaders_of_headers {headers} (h : request.get "headers" = some (.obj headers)) :
    stringHeaders request = headers.filterMap fun h => h.2.asStr.map (h.1, ·) := by
  simp [stringHeaders, h, asObject]

theorem injectCredential_headers {final cred}
    (h : injectCredential request cred = .ok final) : (cred.header, cred.value) ∈ stringHeaders final ∧
      ∀ header ∈ stringHeaders final, eqIgnoreAsciiCase header.1 cred.header = true →
        header = (cred.header, cred.value) := by
  unfold injectCredential at h
  split at h
  · next fields =>
      simp only at h
      split at h
      · next headers _ =>
          cases h
          have hg : (obj (insertField "headers" (.obj (insertField cred.header
              (.str cred.value) (headers.filter fun h => !eqIgnoreAsciiCase h.1 cred.header)))
              fields)).get "headers" = some (.obj (insertField cred.header (.str cred.value)
              (headers.filter fun h => !eqIgnoreAsciiCase h.1 cred.header))) := by
            rw [get_obj, lookup_insertField, if_pos rfl]
          rw [stringHeaders_of_headers hg]
          constructor
          · exact mem_filterMap.mpr ⟨_, mem_insertField_self _ _ _, rfl⟩
          · intro header hm hn
            obtain ⟨⟨name, v⟩, hf, hv⟩ := mem_filterMap.mp hm
            obtain ⟨value, ha, rfl⟩ := Option.map_eq_some_iff.mp hv
            rcases mem_insertField hf with he | hk
            · obtain ⟨rfl, rfl⟩ := Prod.mk.inj he
              rw [← Option.some.inj ha]
            · have ho := (mem_filter.mp hk).2
              simp only at hn
              simp [hn] at ho
      · cases h
  · cases h

structure Handed (c : AllowlistHttpClient) (net : Net) (conn : Option String) (request : Json)
    (sent : Sent) (vetted : List SocketAddr) : Prop where
  permitted : Permitted c net sent.url sent.host vetted
  transport : sent.transport = pinned net sent.host vetted
  credential : c.credential conn = .ok sent.credential
  secure : sent.credential.isSome → sent.url.scheme ≠ "http"
  headers : ∃ final, sent.headers = stringHeaders final ∧
    match sent.credential with
    | some cred => injectCredential request cred = .ok final
    | none => final = request

theorem request_ok {conn} (h : c.request net dns request conn = .ok sent) :
    ∃ vetted, Handed c net conn request sent vetted := by
  simp only [AllowlistHttpClient.request, bind, Except.bind, throw, throwThe, MonadExceptOf.throw, pure,
    Except.pure] at h
  split at h
  · cases h
  · next p hr =>
      obtain ⟨url, host, vetted⟩ := p
      have hp := permit_ok hr
      split at h
      · cases h
      · next credential hc =>
          split at h
          · cases h
          · next hl =>
              have hs : credential.isSome → url.scheme ≠ "http" := fun ho hh =>
                hl ⟨ho, hh⟩
              split at h
              · next cred =>
                  split at h
                  · cases h
                  · next final hf =>
                      split at h
                      · cases h
                      · cases h
                        exact ⟨vetted, hp, rfl, hc, hs, final, rfl, hf⟩
              · split at h
                · cases h
                · cases h
                  exact ⟨vetted, hp, rfl, hc, hs, request, rfl, rfl⟩

/-- Whatever is requested, allowed and stored, and whatever the resolver answers from one lookup to the
next: a request that is sent goes to a host of the allowlist, connects only to addresses that were
judged and are in no restricted block, mapped IPv4 addresses included, and carries a credential only
over https, in place of any header of that name. -/
theorem request_guarded {c : AllowlistHttpClient} {net : Net} {dns : Resolver} {request : Json}
    {conn : Option String} {sent : Sent} (h : c.request net dns request conn = .ok sent) :
    (∃ host, sent.url.host = some host ∧ sent.host = host ∧ Listed c.allowlist host) ∧
    (∀ addr, sent.MayConnect net dns addr →
      isPrivateAddr addr.ip = false ∧ ¬ Restricted [.mapped] addr.ip) ∧
    (∀ cred, sent.credential = some cred → sent.url.scheme = "https" ∧
      (cred.header, cred.value) ∈ sent.headers ∧
      ∀ header ∈ sent.headers, eqIgnoreAsciiCase header.1 cred.header = true →
        header = (cred.header, cred.value)) ∧
    (sent.credential = none → sent.headers = stringHeaders request) := by
  obtain ⟨vetted, hpermitted, htransport, -, hsecure, final, hheaders, hfinal⟩ := request_ok h
  refine ⟨⟨sent.host, hpermitted.urlHost, rfl, listed_of_allows hpermitted.allowed⟩,
    fun addr haddr => ?_, fun cred hcred => ?_, fun hnone => ?_⟩
  · have hjudged := hpermitted.reach htransport haddr
    refine ⟨hjudged, fun hrestricted => ?_⟩
    rw [(isPrivateAddr_iff addr.ip).mpr hrestricted] at hjudged
    cases hjudged
  · rw [hcred] at hfinal hsecure
    rw [hheaders]
    exact ⟨hpermitted.scheme.resolve_left (hsecure rfl), injectCredential_headers hfinal⟩
  · rw [hnone] at hfinal
    rw [hheaders, hfinal]

/-! ## A request that is sent -/

def exampleNet : Net where
  parseUrl _ := .ok { scheme := "https", host := some "api.example.com", port := some 443 }
  parseIp _ := none
  parseIp_lower _ := rfl
  showIp _ := ""
  parseMethod m := .ok m

def exampleClient : AllowlistHttpClient where
  allowlist := ⟨["example.com"]⟩
  credentials := [("token", { header := "Authorization", value := "Bearer secret" })]

def exampleRequest : Json :=
  .object [("url", .str "https://api.example.com/"),
    ("headers", .object [("authorization", .str "mine"), ("x-trace", .str "1")])]

def answering (addr : IpAddr) : Resolver :=
  fun _ _ port => .answered (.ok [⟨addr, port⟩])

def exampleSent (addr : IpAddr) : Sent where
  url := { scheme := "https", host := some "api.example.com", port := some 443 }
  host := "api.example.com"
  port := 443
  transport := { override := some ("api.example.com", [⟨addr, 443⟩]) }
  method := "GET"
  headers := [("Authorization", "Bearer secret"), ("x-trace", "1")]
  body := none
  credential := some { header := "Authorization", value := "Bearer secret" }

def publicAddr : IpAddr := .v4 ⟨93, 184, 216, 34⟩

theorem exampleSent_public :
    exampleClient.request exampleNet (answering publicAddr) exampleRequest (some "http_cred:token") =
      .ok (exampleSent publicAddr) := by
  decide +kernel

theorem public_request_guarded :
    Listed exampleClient.allowlist "api.example.com" ∧
      ¬ Restricted [.mapped] publicAddr ∧ (exampleSent publicAddr).url.scheme = "https" := by
  obtain ⟨⟨host, hhost, -, hlisted⟩, haddr, hcred, -⟩ := request_guarded exampleSent_public
  refine ⟨?_, (haddr ⟨publicAddr, 443⟩ ?_).2, (hcred _ rfl).1⟩
  · rwa [Option.some.inj hhost]
  · exact mem_singleton.mpr rfl

def nat64Addr : Ipv6Addr := ⟨0x64, 0xff9b, 0, 0, 0, 0, 0x0a00, 1⟩

def compatibleAddr : Ipv6Addr := ⟨0, 0, 0, 0, 0, 0, 0x7f00, 1⟩

/-- An address that embeds a restricted one by other means than mapping is not refused. -/
theorem embedded_addresses_reached :
    (exampleClient.request exampleNet (answering (.v6 nat64Addr)) exampleRequest
        (some "http_cred:token") = .ok (exampleSent (.v6 nat64Addr)) ∧
      (exampleSent (.v6 nat64Addr)).MayConnect exampleNet (answering (.v6 nat64Addr))
        ⟨.v6 nat64Addr, 443⟩ ∧
      Restricted [.mapped, .compatible, .nat64] (.v6 nat64Addr)) ∧
    (exampleClient.request exampleNet (answering (.v6 compatibleAddr)) exampleRequest
        (some "http_cred:token") = .ok (exampleSent (.v6 compatibleAddr)) ∧
      (exampleSent (.v6 compatibleAddr)).MayConnect exampleNet (answering (.v6 compatibleAddr))
        ⟨.v6 compatibleAddr, 443⟩ ∧
      Restricted [.mapped, .compatible, .nat64] (.v6 compatibleAddr)) := by
  refine ⟨⟨by decide +kernel, mem_singleton.mpr rfl, .inr ⟨.nat64, by decide, ⟨10, 0, 0, 1⟩, ?_, ?_⟩⟩,
    by decide +kernel, mem_singleton.mpr rfl, .inr ⟨.compatible, by decide, ⟨127, 0, 0, 1⟩, ?_, ?_⟩⟩
  · exact Eq.refl (nat64Addr.toNat)
  · exact ⟨.ipv4 10 0 0 0 8, by simp [restrictedIpv4], rfl⟩
  · exact Eq.refl (compatibleAddr.toNat)
  · exact ⟨.ipv4 127 0 0 0 8, by simp [restrictedIpv4], rfl⟩

end Tinyflows.Caps
