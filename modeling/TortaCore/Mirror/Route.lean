import TortaCore.Mirror.Cloak

/-!
# Routing a request

What the loopback does with a host and a path before anything is fetched
(`mirror/server.rs`, `mirror/absorb.rs`).  A request goes into one of five lanes: a known
fingerprinter is refused; a cloaked host whose path the table and the catalog cover is served
by the name of the asset; another path of a promoted host is served by the binding that was
remembered for it; another path of a host of the table is unknown; and without a cloaked host
the path itself is the name.

## Main definitions

* `ServeOutcome`, `serveShared`, `AbsorbIndex`: the verdict, and the two ways to the bytes.
* `routeHostAwareTraced`: the router.
* `Lane`, `lane`: the part of the decision that does not look at the store.
* `Request`: a request as the router sees it, and as it was.
-/

namespace TortaCore
namespace Mirror

open Text Store List Option

/-! ### The code -/

inductive ServeOutcome where
  | served (bytes : Bytes)
  | notInCatalog
  | blockedFingerprinter
  | cacheMiss (hash : ContentHash)
  | leakedThenServed (bytes : Bytes)
  | absorbMiss (name : Str)
  deriving DecidableEq

variable {H : Bytes → ContentHash}

def serveShared (catalog : Catalog) (cache : CacheStore H) (name : Str) : ServeOutcome :=
  match catalog.contentHashFor name with
  | none => .notInCatalog
  | some hash =>
    match cache.get hash with
    | some entry => .served entry.bytes
    | none => .cacheMiss hash

structure MirrorServer (H : Bytes → ContentHash) where
  catalog : Catalog
  cache : CacheStore H

def MirrorServer.serveName (s : MirrorServer H) (name : Str) : ServeOutcome :=
  serveShared s.catalog s.cache name

/-- The other surface: a host without an asset is handed back. -/
def MirrorServer.serveCdnUrl (s : MirrorServer H) (maps : List ResourceMap) (p : CloakPlane)
    (host path : Str) : ServeOutcome × CloakPlane :=
  if isBlockedFingerprinter host path then (.blockedFingerprinter, p)
  else match resolveAddressedIn host path maps s.catalog 0 with
    | some ar => (s.serveName ar.resolution.canonicalName, p)
    | none => (.notInCatalog, p.noteUnservable maps host)

/-- The path without one slash in front. -/
def requestName : Str → Str
  | '/' :: name => name
  | path => path

/-- The host of a `Host` header; an address in brackets is left alone. -/
def hostWithoutPort (host : Str) : Str :=
  let h := trim host
  if h.head? = some '[' then h else ((splitOnce ':' h).map Prod.fst).getD h

def absorbName (host path : Str) : Str := normalizeHost host ++ path

def absorbUrl (host path : Str) : Option Str :=
  let h := normalizeHost host
  if h = [] ∨ '/' ∈ h ∨ path.head? ≠ some '/' then none
  else some ("https://".toList ++ (h ++ path))

def maxBindings : ℕ := 8192

/-- The bindings, behind a gate that is open once there is one. -/
structure AbsorbIndex where
  any : Bool
  rows : Dict Str ContentHash
  gate : any = !rows.rows.isEmpty

namespace AbsorbIndex

def empty : AbsorbIndex := ⟨false, .empty, rfl⟩

def lookup (index : AbsorbIndex) (name : Str) : Option ContentHash :=
  if index.any then index.rows.get? name else none

theorem gate_set (rows : Dict Str ContentHash) (name : Str) (hash : ContentHash) :
    true = !(rows.set name hash).rows.isEmpty := by
  rw [eq_comm, Bool.not_eq_true', isEmpty_eq_false_iff]
  exact assocSet_ne_nil _ _ _

/-- A new name is not remembered once the index is full. -/
def remember (index : AbsorbIndex) (name : Str) (hash : ContentHash) : Bool × AbsorbIndex :=
  if index.rows.rows.length ≥ maxBindings ∧ index.rows.get? name = none then (false, index)
  else (true, ⟨true, index.rows.set name hash, gate_set ..⟩)

theorem lookup_eq (index : AbsorbIndex) (name : Str) :
    index.lookup name = index.rows.get? name := by
  rw [lookup]
  split
  · rfl
  next h =>
  rw [index.gate, Bool.not_eq_true', isEmpty_eq_false_iff, not_not] at h
  rw [Dict.get?, h]
  rfl

end AbsorbIndex

/-- What a server is started with. -/
structure Config where
  maps : List ResourceMap
  catalog : Catalog

/-- What all servers of a process share beside the store. -/
structure Shared where
  plane : CloakPlane
  index : AbsorbIndex

def routeHostAwareTraced (c : Config) (g : Shared) (cache : CacheStore H) (hostHeader path : Str) :
    ServeOutcome × Option Resolution :=
  let host := hostWithoutPort hostHeader
  if isBlockedFingerprinter host path then (.blockedFingerprinter, none)
  else if host ≠ [] ∧ g.plane.isCdnHost c.maps host then
    match resolveAddressedIn host path c.maps c.catalog 0 with
    | some ar => (serveShared c.catalog cache ar.resolution.canonicalName, some ar.resolution)
    | none =>
      if g.plane.isPromotedHost host then
        let name := absorbName host path
        match (g.index.lookup name).bind cache.get with
        | some entry => (.served entry.bytes, none)
        | none => (.absorbMiss name, none)
      else (.notInCatalog, none)
  else (serveShared c.catalog cache (requestName path), none)

def routeHostAware (c : Config) (g : Shared) (cache : CacheStore H) (hostHeader path : Str) :
    ServeOutcome :=
  (routeHostAwareTraced c g cache hostHeader path).1

/-! ### Lanes -/

inductive Lane where
  | blocked
  | asset (res : Resolution)
  | absorb (name : Str)
  | uncovered
  | path (name : Str)

/-- The lane of a request. -/
def lane (c : Config) (plane : CloakPlane) (hostHeader path : Str) : Lane :=
  let host := hostWithoutPort hostHeader
  if isBlockedFingerprinter host path then .blocked
  else if host ≠ [] ∧ plane.isCdnHost c.maps host then
    match resolveAddressedIn host path c.maps c.catalog 0 with
    | some ar => .asset ar.resolution
    | none => if plane.isPromotedHost host then .absorb (absorbName host path) else .uncovered
  else .path (requestName path)

/-- The bytes that a binding leads to. -/
def bound? (index : AbsorbIndex) (cache : CacheStore H) (name : Str) : Option (CacheEntry H) :=
  (index.lookup name).bind cache.get

def Lane.outcome (c : Config) (index : AbsorbIndex) (cache : CacheStore H) :
    Lane → ServeOutcome × Option Resolution
  | .blocked => (.blockedFingerprinter, none)
  | .asset res => (serveShared c.catalog cache res.canonicalName, some res)
  | .absorb name =>
    (((bound? index cache name).map fun e => .served e.bytes).getD (.absorbMiss name), none)
  | .uncovered => (.notInCatalog, none)
  | .path name => (serveShared c.catalog cache name, none)

/-- **The router is the lane, looked up.** -/
theorem routeHostAwareTraced_eq (c : Config) (g : Shared) (cache : CacheStore H)
    (hostHeader path : Str) :
    routeHostAwareTraced c g cache hostHeader path =
      (lane c g.plane hostHeader path).outcome c g.index cache := by
  simp only [routeHostAwareTraced, lane]
  split
  · rfl
  split
  · split
    · next ar har => rfl
    next hnone =>
    split
    · simp only [Lane.outcome, bound?]
      split
      · next e he => rw [he]; rfl
      · next he => rw [he]; rfl
    · rfl
  · rfl

variable {c : Config} {g : Shared} {cache : CacheStore H} {hostHeader path : Str}

theorem lane_eq_asset {plane : CloakPlane} {res : Resolution}
    (h : lane c plane hostHeader path = .asset res) :
    ∃ ar, resolveAddressedIn (hostWithoutPort hostHeader) path c.maps c.catalog 0 = some ar ∧
      ar.resolution = res := by
  revert h
  fun_cases lane with
  | case2 host _ _ ar har =>
    rintro ⟨⟩
    exact ⟨ar, har, rfl⟩
  | _ => exact fun h => by cases h

variable {name : Str} {b : Bytes} {catalog : Catalog}

theorem lane_eq_absorb {plane : CloakPlane} (h : lane c plane hostHeader path = .absorb name) :
    name = absorbName (hostWithoutPort hostHeader) path ∧
      plane.isCdnHost c.maps (hostWithoutPort hostHeader) = true ∧
      plane.isPromotedHost (hostWithoutPort hostHeader) = true := by
  revert h
  fun_cases lane with
  | case3 host _ hcdn _ hprom =>
    rintro ⟨⟩
    exact ⟨rfl, hcdn.2, hprom⟩
  | _ => exact fun h => by cases h

theorem serveShared_eq_served (h : serveShared catalog cache name = .served b) :
    ∃ hash e, catalog.contentHashFor name = some hash ∧ cache.get hash = some e ∧ e.bytes = b := by
  rw [serveShared] at h
  split at h
  · cases h
  next hash hhash =>
  split at h
  · next e he =>
    cases h
    exact ⟨hash, e, hhash, he, rfl⟩
  · cases h

theorem serveShared_eq_cacheMiss {hash : ContentHash}
    (h : serveShared catalog cache name = .cacheMiss hash) :
    catalog.contentHashFor name = some hash ∧ cache.get hash = none := by
  revert h
  fun_cases serveShared with
  | case3 hash' hhash hnone =>
    rintro ⟨⟩
    exact ⟨hhash, hnone⟩
  | _ => exact fun h => by cases h

/-! ### The asset that is fetched -/

/-- A miss with a resolution is the miss of an asset of the catalog. -/
theorem lane_of_cacheMiss {hash : ContentHash} {res : Resolution}
    (h : routeHostAwareTraced c g cache hostHeader path = (.cacheMiss hash, some res)) :
    lane c g.plane hostHeader path = .asset res ∧
      c.catalog.contentHashFor res.canonicalName = some hash := by
  rw [routeHostAwareTraced_eq] at h
  cases hlane : lane c g.plane hostHeader path with
  | asset res' =>
    rw [hlane, Lane.outcome, Prod.mk.injEq, some.injEq] at h
    obtain ⟨hmiss, rfl⟩ := h
    exact ⟨rfl, (serveShared_eq_cacheMiss hmiss).1⟩
  | _ => simp [hlane, Lane.outcome] at h

/-- **The URL of a missing asset.**  What is fetched is the asset that the catalog pins, if and
only if the request names a file and the catalog covers the best of all bundled versions. -/
theorem upstream_names_asset_iff {hash : ContentHash} {res : Resolution}
    (h : routeHostAwareTraced c g cache hostHeader path = (.cacheMiss hash, some res)) :
    c.catalog.contentHashFor res.canonicalName = some hash ∧
    ((∃ url, upstreamUrlFor c.maps (hostWithoutPort hostHeader) path = some url ∧
        NamesAsset c.maps (hostWithoutPort hostHeader) path res url) ↔
      BestCovered c.catalog c.maps (hostWithoutPort hostHeader) path) := by
  obtain ⟨hlane, hhash⟩ := lane_of_cacheMiss h
  obtain ⟨ar, har, rfl⟩ := lane_eq_asset hlane
  exact ⟨hhash, upstream_iff_of_resolveAddressedIn har⟩

/-- The first row of the shipped table: host `ajax.aspnetcdn.com`, base `/ajax/bootstrap/`,
library `twitter-bootstrap`. -/
def bootstrapRow : ResourceMap where
  host := ['a', 'j', 'a', 'x', '.', 'a', 's', 'p', 'n', 'e', 't', 'c', 'd', 'n', '.', 'c', 'o', 'm']
  basePath := ['/', 'a', 'j', 'a', 'x', '/', 'b', 'o', 'o', 't', 's', 't', 'r', 'a', 'p', '/']
  library := ['t', 'w', 'i', 't', 't', 'e', 'r', '-', 'b', 'o', 'o', 't', 's', 't', 'r', 'a', 'p']
  bundledVersions := [['2', '.', '3', '.', '2'], ['3', '.', '0', '.', '0'],
    ['3', '.', '3', '.', '7'], ['3', '.', '4', '.', '1'], ['4', '.', '1', '.', '1'],
    ['4', '.', '4', '.', '1'], ['4', '.', '6', '.', '2'], ['5', '.', '1', '.', '3'],
    ['5', '.', '3', '.', '8']]

def zeroHash : ContentHash := ⟨List.replicate 32 0, rfl⟩

/-- A catalog with the file `x` of one version. -/
def bootstrapCatalog (version : Str) : Catalog where
  entries := [{
    name := assetName bootstrapRow.library version ['x']
    host := bootstrapRow.host
    contentHash := zeroHash
    cloaked := true }]
  authoredAtSecs := 0

/-- The process when nothing has happened. -/
def Shared.start : Shared := ⟨⟨.empty, .empty⟩, .empty⟩

/-- The path of the file `x` of version 5.3.8. -/
def bootstrapPath : Str := bootstrapRow.basePath ++ ['5', '.', '3', '.', '8', '/', 'x']

/-- What the request is resolved to. -/
def bootstrapResolution (version : Str) (sub : Substitution) : Resolution where
  library := bootstrapRow.library
  requestedVersion := ['5', '.', '3', '.', '8']
  servedVersion := version
  file := ['x']
  substitution := sub

/-- The request finds the row, whatever rows follow. -/
theorem firstRow_bootstrap (test : Str → Str → Bool) (rest : List ResourceMap)
    (htest : test ['5', '.', '3', '.', '8'] ['x'] = true) :
    firstRow test (bootstrapRow :: rest) bootstrapRow.host bootstrapPath =
      some (bootstrapRow, ['5', '.', '3', '.', '8'], ['x']) := by
  have hseg : bootstrapRow.segments (lowerTrim bootstrapRow.host) bootstrapPath =
      some (['5', '.', '3', '.', '8'], ['x']) := by decide +kernel
  rw [firstRow, findSome?_cons, hseg, bind_some, if_pos htest]

theorem route_bootstrap {version : Str} {sub : Substitution} (rest : List ResourceMap)
    (hbest : bestBundledVersion ['5', '.', '3', '.', '8']
      (covered (bootstrapCatalog version) bootstrapRow ['x']) = some (version, sub)) :
    routeHostAwareTraced ⟨bootstrapRow :: rest, bootstrapCatalog version⟩ .start
      (.new fun _ => zeroHash) bootstrapRow.host bootstrapPath =
      (.cacheMiss zeroHash, some (bootstrapResolution version sub)) := by
  obtain ⟨hhost, hnorm, hne⟩ : hostWithoutPort bootstrapRow.host = bootstrapRow.host ∧
      normalizeHost bootstrapRow.host = bootstrapRow.host ∧ bootstrapRow.host ≠ [] := by
    decide +kernel
  have hfp : isBlockedFingerprinter bootstrapRow.host bootstrapPath = false :=
    isBlockedFingerprinter_of_head (x := 'a') (by rw [hnorm]; rfl) (by decide)
  have hcdn : Shared.start.plane.isCdnHost (bootstrapRow :: rest) bootstrapRow.host = true := by
    rw [CloakPlane.isCdnHost_iff, hnorm]
    exact ⟨hne, not_mem_nil, .inl (mem_dedup.mpr mem_cons_self)⟩
  have hhash : (bootstrapCatalog version).contentHashFor
      (bootstrapResolution version sub).canonicalName = some zeroHash := by
    simp [Catalog.contentHashFor, bootstrapCatalog, Resolution.canonicalName, bootstrapResolution]
  obtain ⟨ar, har, hres⟩ := exists_resolveAddressedIn 0 hhash
    (firstRow_bootstrap hasVersion rest rfl) rfl hbest
  have hlane : lane ⟨bootstrapRow :: rest, bootstrapCatalog version⟩ Shared.start.plane
      bootstrapRow.host bootstrapPath = .asset (bootstrapResolution version sub) := by
    dsimp only [lane]
    rw [hhost, hfp, if_neg Bool.false_ne_true, if_pos ⟨hne, hcdn⟩, har, ← hres]
  rw [routeHostAwareTraced_eq, hlane, Lane.outcome, serveShared, hhash]
  rfl

/-- With 5.3.8 in the catalog, that is what is fetched. -/
theorem upstream_names_asset_bootstrap :
    ∃ url, upstreamUrlFor [bootstrapRow] (hostWithoutPort bootstrapRow.host) bootstrapPath =
        some url ∧
      NamesAsset [bootstrapRow] (hostWithoutPort bootstrapRow.host) bootstrapPath
        (bootstrapResolution ['5', '.', '3', '.', '8'] .exact) url := by
  obtain ⟨hhost, hbest, hbundled, hcovered⟩ :
      hostWithoutPort bootstrapRow.host = bootstrapRow.host ∧
      bestBundledVersion ['5', '.', '3', '.', '8']
        (covered (bootstrapCatalog ['5', '.', '3', '.', '8']) bootstrapRow ['x']) =
          some (['5', '.', '3', '.', '8'], .exact) ∧
      bestBundledVersion ['5', '.', '3', '.', '8'] bootstrapRow.bundledVersions =
        some (['5', '.', '3', '.', '8'], .exact) ∧
      ((bootstrapCatalog ['5', '.', '3', '.', '8']).contentHashFor
        (assetName bootstrapRow.library ['5', '.', '3', '.', '8'] ['x'])).isSome = true := by
    decide +kernel
  refine (upstream_names_asset_iff (route_bootstrap [] hbest)).2.mpr
    ⟨bootstrapRow, _, _, _, ?_, cons_ne_nil _ _, hbundled, hcovered⟩
  rw [hhost]
  exact firstRow_bootstrap hasVersion [] rfl

/-- The catalog covers 5.1.3 only, which is what a request for 5.3.8 is resolved to; the URL
that is built for the same request asks for 5.3.8, and its bytes cannot have the address. -/
theorem fetch_asks_for_another_version :
    (∀ rest : List ResourceMap,
      routeHostAwareTraced ⟨bootstrapRow :: rest, bootstrapCatalog ['5', '.', '1', '.', '3']⟩ .start
        (.new fun _ => zeroHash) bootstrapRow.host bootstrapPath =
        (.cacheMiss zeroHash,
          some (bootstrapResolution ['5', '.', '1', '.', '3'] .riskyOlder))) ∧
    ∀ rest : List ResourceMap,
      upstreamUrlFor (bootstrapRow :: rest) bootstrapRow.host bootstrapPath =
        some (upstreamUrl bootstrapRow.host bootstrapRow.basePath ['5', '.', '3', '.', '8']
          ['x']) := by
  have hcovered : bestBundledVersion ['5', '.', '3', '.', '8']
      (covered (bootstrapCatalog ['5', '.', '1', '.', '3']) bootstrapRow ['x']) =
        some (['5', '.', '1', '.', '3'], .riskyOlder) := by decide +kernel
  have hbundled : bestBundledVersion ['5', '.', '3', '.', '8'] bootstrapRow.bundledVersions =
      some (['5', '.', '3', '.', '8'], .exact) := by decide +kernel
  refine ⟨fun rest => route_bootstrap rest hcovered, fun rest => ?_⟩
  rw [upstreamUrlFor, firstRow_bootstrap hasVersionAndFile rest rfl, bind_some]
  dsimp only
  rw [hbundled, map_some]

/-! ### What is served has the address -/

/-- The name of the catalog that a request asks for. -/
def Lane.catalogName : Lane → Option Str
  | .asset res => some res.canonicalName
  | .path name => some name
  | _ => none

theorem hash_of_serveShared (hsound : cache.Sound)
    (h : serveShared catalog cache name = .served b) :
    catalog.contentHashFor name = some (H b) := by
  obtain ⟨hash, e, hhash, he, rfl⟩ := serveShared_eq_served h
  rw [hhash, hsound.addressed he]

theorem hash_of_routeHostAware (hsound : cache.Sound)
    (h : routeHostAware c g cache hostHeader path = .served b)
    (hname : (lane c g.plane hostHeader path).catalogName = some name) :
    c.catalog.contentHashFor name = some (H b) := by
  rw [routeHostAware, routeHostAwareTraced_eq] at h
  cases hlane : lane c g.plane hostHeader path with
  | asset res =>
    rw [hlane] at h hname
    cases hname
    exact hash_of_serveShared hsound h
  | path name' =>
    rw [hlane] at h hname
    cases hname
    exact hash_of_serveShared hsound h
  | _ => simp [hlane, Lane.catalogName] at hname

/-- **Integrity of the content addresses**, over every sequence of calls on a store that starts
empty, of any capacity and with or without a directory. -/
theorem content_address_integrity (capacity : ℕ) (dir : Option Str) (disk : Runtime.Disk)
    (calls : List Backed.CacheCall) :
    let start : Backed H := ⟨⟨.empty, capacity, dir⟩, disk⟩
    let s := start.run calls
    s.store.Sound ∧
    (∀ pre post, calls = pre ++ post → Backed.Grows (start.run pre).store s.store) ∧
    (∀ pre call post hash, calls = pre ++ call :: post → (start.run pre).AddedBy call hash →
      s.OnDisk hash) ∧
    (∀ catalog name b, (MirrorServer.mk catalog s.store).serveName name = .served b →
      catalog.contentHashFor name = some (H b)) ∧
    (∀ catalog name b, serveShared catalog s.store name = .served b →
      catalog.contentHashFor name = some (H b)) ∧
    ∀ c g hostHeader path b name, routeHostAware c g s.store hostHeader path = .served b →
      (lane c g.plane hostHeader path).catalogName = some name →
      c.catalog.contentHashFor name = some (H b) := by
  intro start s
  have hsound : s.store.Sound := Backed.sound_run (CacheStore.sound_of_empty rfl) calls
  refine ⟨hsound, ?_, ?_, fun _ _ _ h => hash_of_serveShared hsound h,
    fun _ _ _ h => hash_of_serveShared hsound h,
    fun _ _ _ _ _ _ h => hash_of_routeHostAware hsound h⟩
  · intro pre post hcalls
    have hrun : s = (start.run pre).run post := by rw [← Backed.run_append, ← hcalls]
    rw [hrun]
    exact Backed.grows_run _ post
  · intro pre call post hash hcalls hadded
    have hrun : s = start.run (pre ++ call :: post) := by rw [← hcalls]
    rw [hrun]
    exact Backed.onDisk_run hadded

/-! ### What a binding is bound to -/

/-- The target of a request: hyper cuts it at the question mark. -/
structure Target where
  path : Str
  query : Option Str
  path_clean : '?' ∉ path

namespace Target

def pathAndQuery (t : Target) : Str := t.path ++ (t.query.map ('?' :: ·)).getD []

theorem takeWhile_pathAndQuery (t : Target) :
    t.pathAndQuery.takeWhile (· != '?') = t.path := by
  have hpath : ∀ x ∈ t.path, (x != '?') = true := by
    rintro x hx
    rw [bne_iff_ne]
    rintro rfl
    exact t.path_clean hx
  rw [pathAndQuery, takeWhile_append_of_pos hpath]
  cases t.query with
  | none => simp
  | some q => simp

theorem pathAndQuery_eq_iff {t t' : Target} :
    t.pathAndQuery = t'.pathAndQuery ↔ t.path = t'.path ∧ t.query = t'.query := by
  refine ⟨fun h => ?_, fun h => by rw [pathAndQuery, pathAndQuery, h.1, h.2]⟩
  have hpath : t.path = t'.path := by
    rw [← t.takeWhile_pathAndQuery, h, t'.takeWhile_pathAndQuery]
  rw [pathAndQuery, pathAndQuery, hpath] at h
  refine ⟨hpath, ?_⟩
  have htail := append_cancel_left h
  cases hq : t.query with
  | none =>
    cases hq' : t'.query with
    | none => rfl
    | some q => simp [hq, hq'] at htail
  | some q =>
    cases hq' : t'.query with
    | none => simp [hq, hq'] at htail
    | some q' => simpa [hq, hq'] using htail

end Target

structure Request where
  hostHeader : Str
  target : Target

namespace Request

/-- The host as a name is bound under it. -/
def host (r : Request) : Str := normalizeHost (hostWithoutPort r.hostHeader)

/-- The router sees the path and not the query. -/
def lane (c : Config) (plane : CloakPlane) (r : Request) : Lane :=
  Mirror.lane c plane r.hostHeader r.target.path

def absorbUrl (r : Request) : Option Str :=
  Mirror.absorbUrl (hostWithoutPort r.hostHeader) r.target.path

/-- Another host, or another path or query. -/
def Differs (a b : Request) : Prop :=
  a.host ≠ b.host ∨ a.target.pathAndQuery ≠ b.target.pathAndQuery

/-- What is fetched for the request is what was asked for. -/
def FetchesTarget (r : Request) : Prop :=
  ∀ url, r.absorbUrl = some url → url = "https://".toList ++ (r.host ++ r.target.pathAndQuery)

/-- The host of one request is the host of the other with the beginning of its path. -/
def Overlaps (a b : Request) : Prop :=
  ∃ x, x ≠ [] ∧ a.host = b.host ++ x ∧ b.target.path = x ++ a.target.path

theorem absorbUrl_eq_some {r : Request} {url : Str} (h : r.absorbUrl = some url) :
    '/' ∉ r.host ∧ r.target.path.head? = some '/' ∧
      url = "https://".toList ++ (r.host ++ r.target.path) := by
  dsimp only [absorbUrl, Mirror.absorbUrl] at h
  split at h
  · cases h
  · next hcond =>
    rw [not_or, not_or, not_not] at hcond
    exact ⟨hcond.2.1, hcond.2.2, (some.inj h).symm⟩

theorem fetchesTarget_iff (r : Request) :
    r.FetchesTarget ↔ r.target.query = none ∨ r.absorbUrl = none := by
  constructor
  · intro h
    cases hurl : r.absorbUrl with
    | none => exact .inr rfl
    | some url =>
      obtain ⟨-, -, heq⟩ := absorbUrl_eq_some hurl
      have hfull := h url hurl
      rw [heq] at hfull
      have htail : r.target.path = r.target.pathAndQuery :=
        append_cancel_left (append_cancel_left hfull)
      left
      cases hq : r.target.query with
      | none => rfl
      | some q =>
        rw [Target.pathAndQuery, hq] at htail
        simp at htail
  · rintro (hq | hnone)
    · intro url hurl
      rw [Target.pathAndQuery, hq, map_none, getD_none, append_nil]
      exact (absorbUrl_eq_some hurl).2.2
    · intro url hurl
      rw [hnone] at hurl
      cases hurl

/-- Two requests have one name when their hosts and paths are the same, or overlap. -/
theorem host_append_path_eq_iff {a b : Request} :
    a.host ++ a.target.path = b.host ++ b.target.path ↔
      (a.host = b.host ∧ a.target.path = b.target.path) ∨ a.Overlaps b ∨ b.Overlaps a := by
  constructor
  · intro h
    rcases append_eq_append_iff.mp h with ⟨x, hb, ha⟩ | ⟨x, ha, hb⟩
    · by_cases hx : x = []
      · subst hx
        exact .inl ⟨by simpa using hb.symm, by simpa using ha⟩
      · exact .inr (.inr ⟨x, hx, hb, ha⟩)
    · by_cases hx : x = []
      · subst hx
        exact .inl ⟨by simpa using ha, by simpa using hb.symm⟩
      · exact .inr (.inl ⟨x, hx, ha, hb⟩)
  · rintro (⟨hhost, hpath⟩ | ⟨x, -, hhost, hpath⟩ | ⟨x, -, hhost, hpath⟩)
    · rw [hhost, hpath]
    · rw [hhost, hpath, append_assoc]
    · rw [hhost, hpath, append_assoc]

theorem Overlaps.host_ne {a b : Request} (h : a.Overlaps b) : a.host ≠ b.host := by
  obtain ⟨x, hx, hhost, -⟩ := h
  rw [hhost]
  simpa using hx

theorem names_apart_iff {a b : Request} :
    (a.Differs b → a.host ++ a.target.path ≠ b.host ++ b.target.path) ↔
      (a.host = b.host → a.target.path = b.target.path → a.target.query = b.target.query) ∧
      ¬ a.Overlaps b ∧ ¬ b.Overlaps a := by
  rw [ne_eq, host_append_path_eq_iff]
  constructor
  · intro h
    refine ⟨fun hhost hpath => ?_, fun hab => h (.inl hab.host_ne) (.inr (.inl hab)),
      fun hba => h (.inl hba.host_ne.symm) (.inr (.inr hba))⟩
    by_contra hquery
    refine h (.inr fun heq => ?_) (.inl ⟨hhost, hpath⟩)
    exact hquery (Target.pathAndQuery_eq_iff.mp heq).2
  · rintro ⟨hquery, hab, hba⟩ hdiff (⟨hhost, hpath⟩ | h | h)
    · rcases hdiff with hne | hne
      · exact hne hhost
      · exact hne (Target.pathAndQuery_eq_iff.mpr ⟨hpath, hquery hhost hpath⟩)
    · exact hab h
    · exact hba h

end Request

/-- **When two requests keep their bindings apart**, and each is fetched as it was asked for:
neither that can be fetched has a query, no two queries of one path meet, and no host is the
other host with the beginning of its path. -/
theorem absorb_binding_iff {plane : CloakPlane} {a b : Request} {na nb : Str}
    (ha : a.lane c plane = .absorb na) (hb : b.lane c plane = .absorb nb) :
    ((a.Differs b → na ≠ nb) ∧ a.FetchesTarget ∧ b.FetchesTarget) ↔
      (a.target.query = none ∨ a.absorbUrl = none) ∧
      (b.target.query = none ∨ b.absorbUrl = none) ∧
      (a.host = b.host → a.target.path = b.target.path → a.target.query = b.target.query) ∧
      ¬ a.Overlaps b ∧ ¬ b.Overlaps a := by
  obtain ⟨rfl, -, -⟩ := lane_eq_absorb ha
  obtain ⟨rfl, -, -⟩ := lane_eq_absorb hb
  rw [a.fetchesTarget_iff, b.fetchesTarget_iff]
  have hapart : (a.Differs b → absorbName (hostWithoutPort a.hostHeader) a.target.path ≠
      absorbName (hostWithoutPort b.hostHeader) b.target.path) ↔ _ := Request.names_apart_iff
  rw [hapart]
  exact ⟨fun ⟨h, ha, hb⟩ => ⟨ha, hb, h⟩, fun ⟨ha, hb, h⟩ => ⟨h, ha, hb⟩⟩

/-- A host that discovery promoted: `img.a.net`. -/
def discoveredHost : Str := ['i', 'm', 'g', '.', 'a', '.', 'n', 'e', 't']

def discoveredPlane : CloakPlane := ⟨.ofHosts [discoveredHost], .empty⟩

/-- Nothing in the catalog. -/
def Config.plain (maps : List ResourceMap) : Config := ⟨maps, ⟨[], 0⟩⟩

/-- The script `/a`, with a query or without. -/
def scriptRequest (query : Option Str) : Request where
  hostHeader := discoveredHost
  target := ⟨['/', 'a'], query, by decide⟩

def scriptName : Str := discoveredHost ++ ['/', 'a']

theorem discoveredHost_facts :
    hostWithoutPort discoveredHost = discoveredHost ∧
    normalizeHost discoveredHost = discoveredHost ∧
    lowerTrim discoveredHost = discoveredHost ∧ discoveredHost ≠ [] := by
  decide +kernel

theorem lane_discoveredHost {maps : List ResourceMap}
    (hmaps : discoveredHost ∉ maps.map ResourceMap.host) (path : Str) :
    lane (.plain maps) discoveredPlane discoveredHost path = .absorb (discoveredHost ++ path) := by
  obtain ⟨hhost, hnorm, hlower, hne⟩ := discoveredHost_facts
  have hfp : isBlockedFingerprinter discoveredHost path = false :=
    isBlockedFingerprinter_of_head (x := 'i') (by rw [hnorm]; rfl) (by decide)
  have hcdn : discoveredPlane.isCdnHost maps discoveredHost = true := by
    rw [CloakPlane.isCdnHost_iff, hnorm]
    exact ⟨hne, not_mem_nil, .inr (mem_singleton_self _)⟩
  have hprom : discoveredPlane.isPromotedHost discoveredHost = true := by
    rw [CloakPlane.isPromotedHost_iff, hnorm]
    exact ⟨hne, mem_singleton_self _⟩
  dsimp only [lane, Config.plain]
  rw [hhost, hfp, if_neg Bool.false_ne_true, if_pos ⟨hne, hcdn⟩,
    resolveAddressedIn_of_unmapped (hlower.symm ▸ hmaps)]
  rw [if_pos hprom, absorbName, hnorm]

theorem lane_scriptRequest {maps : List ResourceMap}
    (hmaps : discoveredHost ∉ maps.map ResourceMap.host) (query : Option Str) :
    (scriptRequest query).lane (.plain maps) discoveredPlane = .absorb scriptName :=
  lane_discoveredHost hmaps _

theorem absorbUrl_scriptRequest (query : Option Str) :
    (scriptRequest query).absorbUrl = some ("https://".toList ++ scriptName) := by
  obtain ⟨hhost, hnorm, -, -⟩ := discoveredHost_facts
  dsimp only [Request.absorbUrl, scriptRequest]
  rw [hhost, absorbUrl, hnorm, if_neg (by decide), scriptName]

/-- The script, and another one beside it under `/b`: their names differ. -/
theorem absorb_binding_script :
    let other : Request := ⟨discoveredHost, ⟨['/', 'b'], none, by decide⟩⟩
    (scriptRequest none).Differs other ∧
      ((scriptRequest none).Differs other → scriptName ≠ discoveredHost ++ ['/', 'b']) ∧
      (scriptRequest none).FetchesTarget ∧ other.FetchesTarget := by
  intro other
  have hscript : (scriptRequest none).lane (.plain []) discoveredPlane = .absorb scriptName :=
    lane_scriptRequest not_mem_nil none
  have hother : other.lane (.plain []) discoveredPlane = .absorb (discoveredHost ++ ['/', 'b']) :=
    lane_discoveredHost not_mem_nil _
  refine ⟨.inr fun h => ?_, (absorb_binding_iff hscript hother).mpr ?_⟩
  · exact absurd (Target.pathAndQuery_eq_iff.mp h).1 (by decide)
  · exact ⟨.inl rfl, .inl rfl, fun _ _ => rfl, fun h => h.host_ne rfl, fun h => h.host_ne rfl⟩

/-- With the queries `1` and `2` the script is fetched from one URL without a query and bound
to one name, and what came for the first is served for the second. -/
theorem query_shares_binding :
    (scriptRequest (some ['1'])).Differs (scriptRequest (some ['2'])) ∧
    (scriptRequest (some ['1'])).absorbUrl = some ("https://".toList ++ scriptName) ∧
    ∀ maps : List ResourceMap, discoveredHost ∉ maps.map ResourceMap.host →
      (scriptRequest (some ['1'])).lane (.plain maps) discoveredPlane = .absorb scriptName ∧
      ∀ b : Bytes, routeHostAware (.plain maps)
        ⟨discoveredPlane, (AbsorbIndex.empty.remember scriptName zeroHash).2⟩
        ((CacheStore.new fun _ => zeroHash).insert (.new _ b))
        (scriptRequest (some ['2'])).hostHeader (scriptRequest (some ['2'])).target.path =
          .served b := by
  refine ⟨.inr fun h => ?_, absorbUrl_scriptRequest _,
    fun maps hmaps => ⟨lane_scriptRequest hmaps _, fun b => ?_⟩⟩
  · exact absurd (Target.pathAndQuery_eq_iff.mp h).2 (by decide)
  · have hlane : lane (.plain maps) discoveredPlane (scriptRequest (some ['2'])).hostHeader
        (scriptRequest (some ['2'])).target.path = .absorb scriptName := lane_scriptRequest hmaps _
    rw [routeHostAware, routeHostAwareTraced_eq, hlane, Lane.outcome, bound?, AbsorbIndex.lookup_eq]
    rfl

end Mirror
end TortaCore
