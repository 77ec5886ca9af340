import TortaCore.Resolver.Upstreams

/-!
# The sinkhole for resolvers of browsers

A browser that resolves the name of a public DNS-over-HTTPS server gets past the resolver from
then on.  When the sinkhole is armed those names are denied (`resolver/doh_bypass.rs`), right
after the block list.  The upstreams of the resolver itself are configured elsewhere, and
nothing keeps their names out of the list of the sinkhole.

## Main definitions

* `isDohBootstrap`, `shouldDeny`, `firstDenial`, `configuredHosts`: the code.
-/

namespace TortaCore
namespace Resolver
namespace DohBypass

open Text Upstreams List

/-! ### The code -/

def dohBootstrapApexes : List Str :=
  ["cloudflare-dns.com".toList, "dns.google".toList, "dns.quad9.net".toList,
    "doh.opendns.com".toList, "dns.adguard.com".toList, "dns.adguard-dns.com".toList,
    "dns.nextdns.io".toList, "mozilla.cloudflare-dns.com".toList,
    "security.cloudflare-dns.com".toList, "family.cloudflare-dns.com".toList,
    "doh.dns.apple.com".toList]

/-- The name as it is compared. -/
def foldedHost (qname : Str) : Str := (trimEndMatches '.' qname).map asciiLower

def isDohBootstrap (qname : Str) : Bool :=
  let host := foldedHost qname
  if host.isEmpty then false
  else dohBootstrapApexes.any fun apex =>
    host == apex || (apex.length + 1 < host.length && ('.' :: apex).isSuffixOf host)

/-- The flag after the calls of `set_enforce`; it is off at first. -/
def enforceOn (calls : List Bool) : Bool := calls.getLast?.getD false

def shouldDeny (on : Bool) (qname : Str) : Bool := on && isDohBootstrap qname

inductive DenyGate where
  | blocklist
  | dohBypass
  deriving DecidableEq

/-- The first two steps of `resolve_inner`. -/
def firstDenial (blocked : Str → Bool) (on : Bool) (qname : Str) : Option DenyGate :=
  if blocked qname then some .blocklist
  else if shouldDeny on qname then some .dohBypass
  else none

/-- How the hosts are read: that of a URL, and those of an oblivious target and of its relay, each
of which is a stamp or a URL. -/
structure HostReaders where
  url : Str → Option Str
  target : Str → Option Str
  relay : Str → Option Str

def stampOrUrl (spec : UpstreamSpec) : Str := if spec.stamp ≠ [] then spec.stamp else spec.url

/-- `OdohTransport::new`: the target and the first relay, if there is one.  A relay that cannot be
read is an error. -/
def odohHosts (read : HostReaders) (spec : UpstreamSpec) : List Str :=
  match read.target (stampOrUrl spec), spec.relays.head?.map fun s => (splitRelayLabel s).2 with
  | none, _ => []
  | some target, none | some target, some [] => [target]
  | some target, some (c :: cs) =>
    match read.relay (c :: cs) with
    | none => []
    | some relay => [target, relay]

/-- The hosts of the upstreams over HTTPS that `configure` builds; those over QUIC are skipped. -/
def configuredHosts (read : HostReaders) (specsJson : Str) : List Str :=
  (parseUpstreams specsJson).flatMap fun spec =>
    if spec.transport ∈ ["doh".toList, "doh2".toList, "https".toList] then
      (read.url spec.url).toList
    else if spec.transport ∈ ["odoh".toList, "oblivious".toList] then odohHosts read spec
    else []

/-! ### What is denied -/

/-- The host is one of the names of the list, or lies below one. -/
def BelowApex (host : Str) : Prop :=
  ∃ apex ∈ dohBootstrapApexes, host = apex ∨ ∃ labels ≠ [], host = labels ++ '.' :: apex

theorem isDohBootstrap_iff (qname : Str) :
    isDohBootstrap qname = true ↔ BelowApex (foldedHost qname) := by
  unfold isDohBootstrap BelowApex
  generalize foldedHost qname = host
  have hbelow : ∀ apex : Str, (apex.length + 1 < host.length ∧ '.' :: apex <:+ host) ↔
      ∃ labels ≠ [], host = labels ++ '.' :: apex := by
    intro apex
    constructor
    · rintro ⟨hlt, labels, rfl⟩
      refine ⟨labels, ?_, rfl⟩
      rintro rfl
      simp at hlt
    · rintro ⟨labels, hne, rfl⟩
      have hpos := length_pos_of_ne_nil hne
      exact ⟨by simp; omega, suffix_append _ _⟩
  cases host with
  | nil =>
    have hnil : [] ∉ dohBootstrapApexes := by decide
    simpa using hnil
  | cons c host =>
    simp only [isEmpty_cons, Bool.false_eq_true, if_false, any_eq_true, Bool.or_eq_true,
      beq_iff_eq, Bool.and_eq_true, decide_eq_true_eq, isSuffixOf_iff_suffix, hbelow]

/-- **When no upstream is cut off**: a query for the host of one, in any case of its letters and
with or without the last dot, is denied by the sinkhole exactly when the sinkhole is armed, the
block list has no say, and the host is covered by the list. -/
theorem transports_resolve_iff (read : HostReaders) (specsJson : Str) (calls : List Bool)
    (blocked : Str → Bool) :
    (∀ host ∈ configuredHosts read specsJson, ∀ qname, foldedHost qname = foldedHost host →
      firstDenial blocked (enforceOn calls) qname ≠ some .dohBypass) ↔
    ∀ host ∈ configuredHosts read specsJson, ∀ qname, foldedHost qname = foldedHost host →
      enforceOn calls = false ∨ blocked qname = true ∨ ¬ BelowApex (foldedHost host) := by
  refine forall₂_congr fun host _ => forall₂_congr fun qname hsame => ?_
  rw [← hsame, ← isDohBootstrap_iff, firstDenial, shouldDeny]
  cases blocked qname <;> cases enforceOn calls <;> cases isDohBootstrap qname <;> decide

/-- A public server that is configured as upstream, with the sinkhole armed. -/
theorem google_upstream_denied :
    configuredHosts
        ⟨fun url => if url = "https://dns.google/dns-query".toList then some "dns.google".toList
          else none, fun _ => none, fun _ => none⟩
        "\x7b\"upstreams\":[\x7b\"url\":\"https://dns.google/dns-query\"\x7d]\x7d".toList =
      ["dns.google".toList] ∧
    firstDenial (fun _ => false) (enforceOn [false, true]) "dns.google".toList =
      some .dohBypass := by
  decide +kernel

end DohBypass
end Resolver
end TortaCore
