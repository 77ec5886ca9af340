import TortaCore.Mirror.Catalog
import TortaCore.Mirror.Version

/-!
# Resolving the URL of a CDN

The resource table maps the paths of a CDN host to libraries (`mirror/localcdn.rs`).  The
first row for the host whose base path begins the path names the library; then come the
version and the file.  Which version is served is chosen among the bundled ones.

The choice is made twice: for the name under which the catalog is asked, among the versions
that the catalog covers, and for the URL that is fetched when the asset is missing, among
all of them.

The shipped table is a parameter here.

## Main definitions

* `ResourceMap`, `firstRow`: the table and the scan for a row.
* `resolve`, `upstreamUrlFor`, `resolveAddressedIn`: the three uses of it.
-/

namespace TortaCore
namespace Mirror

open Text List

/-! ### The code -/

structure ResourceMap where
  host : Str
  basePath : Str
  library : Str
  bundledVersions : List Str

structure Resolution where
  library : Str
  requestedVersion : Str
  servedVersion : Str
  file : Str
  substitution : Substitution
  deriving DecidableEq

/-- The name of an asset in the catalog. -/
def assetName (library version file : Str) : Str := library ++ '/' :: (version ++ '/' :: file)

def Resolution.canonicalName (r : Resolution) : Str := assetName r.library r.servedVersion r.file

/-- `host.trim().to_ascii_lowercase()`; a dot at the end stays. -/
def lowerTrim (host : Str) : Str := (trim host).map asciiLower

/-- The version and the file behind the base path: `splitn(2, '/')`. -/
def ResourceMap.segments (m : ResourceMap) (host path : Str) : Option (Str × Str) :=
  if host ≠ m.host then none
  else (path.dropPrefix? m.basePath).map fun rest => (splitOnce '/' rest).getD (rest, [])

/-- The first row for a host and a path whose version and file pass a test. -/
def firstRow (test : Str → Str → Bool) (maps : List ResourceMap) (host path : Str) :
    Option (ResourceMap × Str × Str) :=
  maps.findSome? fun m => (m.segments (lowerTrim host) path).bind fun seg =>
    if test seg.1 seg.2 then some (m, seg.1, seg.2) else none

def hasVersion (requested _file : Str) : Bool := !requested.isEmpty

def hasVersionAndFile (requested file : Str) : Bool := !requested.isEmpty && !file.isEmpty

def resolve (host path : Str) (maps : List ResourceMap) : Option Resolution :=
  (firstRow hasVersion maps host path).bind fun (m, requested, file) =>
    (bestBundledVersion requested m.bundledVersions).map fun (served, sub) =>
      ⟨m.library, requested, served, file, sub⟩

def upstreamUrl (host basePath servedVersion file : Str) : Str :=
  "https://".toList ++ (host ++ (basePath ++ (servedVersion ++ '/' :: file)))

/-- Without a file there is nothing to fetch. -/
def upstreamUrlFor (maps : List ResourceMap) (host path : Str) : Option Str :=
  (firstRow hasVersionAndFile maps host path).bind fun (m, requested, file) =>
    (bestBundledVersion requested m.bundledVersions).map fun (served, _) =>
      upstreamUrl m.host m.basePath served file

def signedFloor : ℕ := 61

def corrStep : ℕ := 6

def corrCap : ℕ := 24

def recencyMinPct : ℕ := 70

def recencyFullDays : ℕ := 90

def recencyDecayDays : ℕ := 365

def recencyPct (lastSeenEpochDays nowDays : ℕ) : ℕ :=
  if lastSeenEpochDays = 0 ∨ nowDays ≤ lastSeenEpochDays then 100
  else
    let age := nowDays - lastSeenEpochDays
    if age ≤ recencyFullDays then 100
    else
      let overDays := age - recencyFullDays
      if overDays ≥ recencyDecayDays then recencyMinPct
      else max (100 - (100 - recencyMinPct) * overDays / recencyDecayDays) recencyMinPct

def substitutionQuality : Substitution → ℕ
  | .exact => 100
  | .safeNewer => 88
  | .riskyOlder => 72
  | .incompatible => signedFloor

/-- The bonus is computed in 16 bits. -/
def resolutionTrust (sub : Substitution) (corroboration nowDays catalogEpochDays : ℕ) : ℕ :=
  let recency := substitutionQuality sub * recencyPct catalogEpochDays nowDays / 100
  let corrBonus := min ((corroboration - 1) % 2 ^ 16 * corrStep % 2 ^ 16) corrCap
  max (min (recency + corrBonus) 100) signedFloor

/-- How many hosts have a row with that version of the library. -/
def corroborationFor (library servedVersion : Str) (maps : List ResourceMap) : ℕ :=
  ((maps.filter fun m => m.library = library ∧ m.bundledVersions.contains servedVersion).map
    ResourceMap.host).dedup.length

structure AddressedResolution where
  resolution : Resolution
  contentHash : ContentHash
  corroboration : ℕ
  trust : ℕ

/-- The bundled versions that the catalog has an entry for. -/
def covered (catalog : Catalog) (m : ResourceMap) (file : Str) : List Str :=
  m.bundledVersions.filter fun v => (catalog.contentHashFor (assetName m.library v file)).isSome

def catalogEpochUnknown : ℕ := 0

def resolveAddressedIn (host path : Str) (maps : List ResourceMap) (catalog : Catalog)
    (nowDays : ℕ) : Option AddressedResolution :=
  (firstRow hasVersion maps host path).bind fun (m, requested, file) =>
    (bestBundledVersion requested (covered catalog m file)).bind fun (served, sub) =>
      let resolution : Resolution := ⟨m.library, requested, served, file, sub⟩
      (catalog.contentHashFor resolution.canonicalName).map fun contentHash =>
        let corroboration := corroborationFor m.library served maps
        ⟨resolution, contentHash, corroboration,
          resolutionTrust sub corroboration nowDays catalogEpochUnknown⟩

def blockedFingerprinters : List Str :=
  ["cdn.jsdelivr.net/npm/@fingerprintjs/".toList,
   "cdnjs.cloudflare.com/ajax/libs/fingerprintjs/".toList,
   "cdnjs.cloudflare.com/ajax/libs/fingerprintjs2/".toList,
   "cdnjs.cloudflare.com/ajax/libs/clientjs/".toList]

def isBlockedFingerprinter (host path : Str) : Bool :=
  let h := normalizeHost host
  if h = [] then false
  else blockedFingerprinters.any fun lib => lib.isPrefixOf (h ++ path.map asciiLower)

/-- All of them are on hosts with the letter `c` in front. -/
theorem isBlockedFingerprinter_of_head {host path : Str} {x : Char}
    (h : (normalizeHost host).head? = some x) (hx : x ≠ 'c') :
    isBlockedFingerprinter host path = false := by
  have hall : ∀ lib ∈ blockedFingerprinters, lib.head? = some 'c' := by decide +kernel
  dsimp only [isBlockedFingerprinter]
  split
  · rfl
  rw [any_eq_false]
  intro lib hlib hpre
  obtain ⟨rest, hrest⟩ := isPrefixOf_iff_prefix.mp hpre
  have hhead := congrArg head? hrest
  rw [head?_append, hall lib hlib, head?_append, h] at hhead
  exact hx (Option.some.inj hhead.symm)

/-! ### The scan -/

variable {maps : List ResourceMap} {host path : Str} {catalog : Catalog}

theorem firstRow_eq_some {test : Str → Str → Bool} {m : ResourceMap} {requested file : Str}
    (h : firstRow test maps host path = some (m, requested, file)) :
    m ∈ maps ∧ m.segments (lowerTrim host) path = some (requested, file) ∧
      test requested file = true := by
  obtain ⟨m', hm, hrow⟩ := exists_of_findSome?_eq_some h
  obtain ⟨seg, hseg, hif⟩ := Option.bind_eq_some_iff.mp hrow
  split at hif
  · next htest =>
    obtain ⟨rfl, rfl, rfl⟩ := hif
    exact ⟨hm, hseg, htest⟩
  · cases hif

/-- A stricter test stops at the same row if it passes there. -/
theorem firstRow_of_imp {test test' : Str → Str → Bool}
    (himp : ∀ r f, test' r f = true → test r f = true) {m : ResourceMap} {requested file : Str}
    (h : firstRow test maps host path = some (m, requested, file))
    (hpass : test' requested file = true) :
    firstRow test' maps host path = some (m, requested, file) := by
  obtain ⟨before, m', after, rfl, hrow, hbefore⟩ := findSome?_eq_some_iff.mp h
  refine findSome?_eq_some_iff.mpr ⟨before, m', after, rfl, ?_, fun x hx => ?_⟩
  · obtain ⟨seg, hseg, hif⟩ := Option.bind_eq_some_iff.mp hrow
    rw [hseg, Option.bind_some]
    split at hif
    · obtain ⟨rfl, rfl, rfl⟩ := hif
      rw [if_pos hpass]
    · cases hif
  · have hnone := hbefore x hx
    cases hseg : x.segments (lowerTrim host) path with
    | none => rfl
    | some seg =>
      rw [hseg, Option.bind_some] at hnone
      rw [Option.bind_some, if_neg]
      intro htest
      rw [if_pos (himp _ _ htest)] at hnone
      cases hnone

theorem hasVersion_of_hasVersionAndFile (r f : Str) (h : hasVersionAndFile r f = true) :
    hasVersion r f = true := by
  rw [hasVersionAndFile, Bool.and_eq_true] at h
  exact h.1

theorem resolveAddressedIn_of_unmapped (h : lowerTrim host ∉ maps.map ResourceMap.host)
    (path : Str) (nowDays : ℕ) : resolveAddressedIn host path maps catalog nowDays = none := by
  have hrow : firstRow hasVersion maps host path = none := by
    rw [firstRow, findSome?_eq_none_iff]
    intro m hm
    rw [ResourceMap.segments, if_pos]
    · rfl
    · rintro heq
      exact h (heq ▸ mem_map_of_mem hm)
  rw [resolveAddressedIn, hrow]
  rfl

/-! ### Two choices of a version -/

theorem resolveAddressedIn_eq_some {nowDays : ℕ} {ar : AddressedResolution}
    (h : resolveAddressedIn host path maps catalog nowDays = some ar) :
    catalog.contentHashFor ar.resolution.canonicalName = some ar.contentHash ∧
    ∃ m, firstRow hasVersion maps host path =
        some (m, ar.resolution.requestedVersion, ar.resolution.file) ∧
      ar.resolution.library = m.library ∧
      bestBundledVersion ar.resolution.requestedVersion (covered catalog m ar.resolution.file) =
        some (ar.resolution.servedVersion, ar.resolution.substitution) := by
  obtain ⟨⟨m, requested, file⟩, hrow, h⟩ := Option.bind_eq_some_iff.mp h
  obtain ⟨⟨served, sub⟩, hbest, h⟩ := Option.bind_eq_some_iff.mp h
  obtain ⟨hash, hhash, rfl⟩ := Option.map_eq_some_iff.mp h
  exact ⟨hhash, m, hrow, rfl, hbest⟩

theorem exists_resolveAddressedIn (nowDays : ℕ) {m : ResourceMap} {res : Resolution}
    {hash : ContentHash} (hhash : catalog.contentHashFor res.canonicalName = some hash)
    (hrow : firstRow hasVersion maps host path = some (m, res.requestedVersion, res.file))
    (hlib : res.library = m.library)
    (hbest : bestBundledVersion res.requestedVersion (covered catalog m res.file) =
      some (res.servedVersion, res.substitution)) :
    ∃ ar, resolveAddressedIn host path maps catalog nowDays = some ar ∧ ar.resolution = res := by
  obtain ⟨library, requested, served, file, sub⟩ := res
  subst hlib
  refine ⟨_, Option.bind_eq_some_iff.mpr ⟨_, hrow, Option.bind_eq_some_iff.mpr ⟨_, hbest,
    Option.map_eq_some_iff.mpr ⟨hash, hhash, rfl⟩⟩⟩, rfl⟩

/-- The URL asks for the asset of a resolution, through the row that the fetch goes by. -/
def NamesAsset (maps : List ResourceMap) (host path : Str) (res : Resolution) (url : Str) : Prop :=
  ∃ m, firstRow hasVersionAndFile maps host path = some (m, res.requestedVersion, res.file) ∧
    m.library = res.library ∧ url = upstreamUrl m.host m.basePath res.servedVersion res.file

theorem upstreamUrl_inj {host basePath version version' file : Str} :
    upstreamUrl host basePath version file = upstreamUrl host basePath version' file ↔
      version = version' := by
  constructor
  · intro h
    have htail := append_cancel_left (append_cancel_left (append_cancel_left h))
    exact append_cancel_right htail
  · rintro rfl
    rfl

/-- The request names a file, and the catalog has an entry for the best of all versions that its
row bundles. -/
def BestCovered (catalog : Catalog) (maps : List ResourceMap) (host path : Str) : Prop :=
  ∃ m requested file best, firstRow hasVersion maps host path = some (m, requested, file) ∧
    file ≠ [] ∧ bestBundledVersion requested m.bundledVersions = some best ∧
    (catalog.contentHashFor (assetName m.library best.1 file)).isSome = true

/-- **When the fetch asks for the asset.**  There has to be a file, and the catalog has to cover
the choice among all bundled versions, which then is the choice among the covered ones. -/
theorem upstream_iff_of_resolveAddressedIn {nowDays : ℕ} {ar : AddressedResolution}
    (h : resolveAddressedIn host path maps catalog nowDays = some ar) :
    (∃ url, upstreamUrlFor maps host path = some url ∧
      NamesAsset maps host path ar.resolution url) ↔ BestCovered catalog maps host path := by
  obtain ⟨hhash, m, hrow, hlib, hchoice⟩ := resolveAddressedIn_eq_some h
  constructor
  · rintro ⟨url, hurl, m', hrow', hlib', rfl⟩
    obtain ⟨-, -, htest⟩ := firstRow_eq_some hrow'
    have hfile : ar.resolution.file ≠ [] := fun hnil => by
      simp [hasVersionAndFile, hnil] at htest
    cases hrow'.symm.trans (firstRow_of_imp hasVersion_of_hasVersionAndFile hrow htest)
    rw [upstreamUrlFor, hrow', Option.bind_some] at hurl
    obtain ⟨best, hbest, heq⟩ := Option.map_eq_some_iff.mp hurl
    rw [upstreamUrl_inj] at heq
    refine ⟨m, _, _, best, hrow, hfile, hbest, ?_⟩
    rw [heq, ← hlib]
    exact Option.isSome_iff_exists.mpr ⟨_, hhash⟩
  · rintro ⟨m', requested, file, best, hrow', hfile, hbest, hcovered⟩
    cases hrow.symm.trans hrow'
    -- the choice among the covered versions is that among all
    cases hchoice.symm.trans (bestBundledVersion_filter hbest hcovered)
    obtain ⟨-, -, hversion⟩ := firstRow_eq_some hrow
    have htest : hasVersionAndFile ar.resolution.requestedVersion ar.resolution.file = true := by
      rw [hasVersionAndFile, Bool.and_eq_true]
      exact ⟨hversion, by simpa using hfile⟩
    have hfetch := firstRow_of_imp hasVersion_of_hasVersionAndFile hrow htest
    refine ⟨_, ?_, m, hfetch, hlib.symm, rfl⟩
    rw [upstreamUrlFor, hfetch, Option.bind_some]
    dsimp only
    rw [hbest, Option.map_some]

end Mirror
end TortaCore
