import TortaCore.Mirror.Catalog
import Mathlib.Algebra.GroupWithZero.Nat
import Mathlib.Algebra.Order.BigOperators.Group.List
import Mathlib.Algebra.Order.Group.Nat
import Mathlib.Data.List.Sort

/-!
# The detectors

Three faculties with a memory look at every name that is scored (`detection/`): a registry of
the hosts seen lately, a ring of answers for each host, and the times of arrivals and of
NXDOMAIN answers for each host.  Two more judge the text of a label alone; they are parameters
here.

The registry drops its oldest host when it is full.  The rings are short, but there is one for
every host ever seen.

## Main definitions

* `Registry.newbornAt`, `Detectors.tunnelSignalAt`, `Detectors.nxBurst`,
  `Detectors.beaconSignalAt`: what one look does.
* `Detectors.sense`: all of them, in the order of the scorer.
* `Detectors.held`: how many hosts and events are kept.
-/

namespace TortaCore
namespace Underground

open Text Store Mirror List Dict

/-! ### The code -/

/-- The bound of every ring. -/
def ringCap : ℕ := 64

def windowSecs : ℕ := 60

inductive Signal where
  | suffix
  | geoMitm
  | geoRebind
  | beacon
  | tunnel
  | dga
  | reputation
  | correction
  | homoglyph
  | newborn
  deriving DecidableEq

/-- The switches of the detectors. -/
structure DetectionCfg where
  dga : Bool := true
  tunnel : Bool := true
  beacon : Bool := true
  homoglyph : Bool := true
  newborn : Bool := true

/-- The faculties that look at a label and nothing else. -/
structure Faculties where
  /-- The score of the label reaches the threshold. -/
  dgaHot : Str → Bool
  homoglyphHit : Str → Bool

def distributionDomains : List Str :=
  ["cloudfront.net".toList, "akamaized.net".toList, "akamaihd.net".toList,
   "akamaiedge.net".toList, "azureedge.net".toList, "fastly.net".toList,
   "fastlylb.net".toList, "b-cdn.net".toList, "kxcdn.com".toList, "stackpathdns.com".toList]

def labelIsDistributionId (host : Str) : Bool :=
  let labels := nonEmpty ((normalizeHost host).splitOn '.')
  if labels.length < 3 then false
  else distributionDomains.contains (['.'].intercalate (labels.drop (labels.length - 2)))

/-- `split('.').next()`. -/
def leadingLabel (host : Str) : Str := (host.splitOn '.').headD []

/-! The registry of hosts seen lately. -/

def probationSecs : ℕ := 600

def firstSeenCap : ℕ := 4096

structure Registry where
  born : Dict Str ℕ := .empty
  order : List Str := []

namespace Registry

/-- Make room for one more host. -/
def evict (g : Registry) : Registry :=
  if firstSeenCap ≤ g.born.rows.length then
    match g.order with
    | oldest :: rest => ⟨g.born.erase oldest, rest⟩
    | [] => g
  else g

def newbornAt (g : Registry) (host : Str) (now : ℕ) : Bool × Registry :=
  match g.born.get? host with
  | some born => (now - born ≤ probationSecs, g)
  | none => (true, ⟨g.evict.born.set host now, g.evict.order ++ [host]⟩)

end Registry

/-! Rings. -/

/-- Drop from the front what is over the bound. -/
def capped {α : Type} (ring : List α) : List α := ring.drop (ring.length - ringCap)

/-- Drop from the front what is out of the window. -/
def pruned {α : Type} (time : α → ℕ) (now : ℕ) (ring : List α) : List α :=
  ring.dropWhile fun x => windowSecs < now - time x

structure TunnelEvent where
  time : ℕ
  answerLen : ℕ
  qtype : ℕ

def txtOversizeBytes : ℕ := 220

def tunnelBurst : ℕ := 5

def oversizedTxt (events : List TunnelEvent) : ℕ :=
  events.countP fun e => e.qtype = 16 ∧ txtOversizeBytes ≤ e.answerLen

structure HostRhythm where
  arrivals : List ℕ := []
  nxTimes : List ℕ := []

def minTicks : ℕ := 6

def jitterToleranceSecs : ℕ := 2

def minPeriodSecs : ℕ := 10

def nxBurstCount : ℕ := 8

def qtypeAaaa : ℕ := 28

def qtypeSvcb : ℕ := 64

def qtypeHttps : ℕ := 65

/-- All gaps are close to the middle one. -/
def cadenceVerdict (tail : List ℕ) : Bool :=
  if tail.length < minTicks then false
  else
    let gaps := (List.zipWith (fun a b => b - a) tail tail.tail).insertionSort (· ≤ ·)
    let median := gaps.getD (gaps.length / 2) 0
    if median < minPeriodSecs then false
    else gaps.all fun g => g - median + (median - g) ≤ jitterToleranceSecs

structure Detectors where
  registry : Registry := {}
  rings : Dict Str (List TunnelEvent) := .empty
  rhythms : Dict Str HostRhythm := .empty

namespace Detectors

variable (f : Faculties) (d : Detectors)

def exfilVerdict (host : Str) (oversized : ℕ) : Bool :=
  tunnelBurst ≤ oversized || (f.dgaHot (leadingLabel host) && tunnelBurst - 1 ≤ oversized)

def tunnelSignalAt (host : Str) (qtype answerLen now : ℕ) : Bool × Detectors :=
  let ring := ((d.rings.get? host).getD []) ++ [⟨now, answerLen, qtype⟩]
  let ring := pruned TunnelEvent.time now (capped ring)
  (exfilVerdict f host (oversizedTxt ring), { d with rings := d.rings.set host ring })

def nxBurst (host : Str) (qtype rcode now : ℕ) : Bool × Detectors :=
  if rcode ≠ 3 then (false, d)
  else if qtype = qtypeAaaa ∨ qtype = qtypeSvcb ∨ qtype = qtypeHttps then (false, d)
  else
    let r := (d.rhythms.get? host).getD {}
    let nxTimes := pruned id now (capped (r.nxTimes ++ [now]))
    (nxBurstCount ≤ nxTimes.length,
      { d with rhythms := d.rhythms.set host { r with nxTimes := nxTimes } })

def beaconSignalAt (host : Str) (now : ℕ) : Bool × Detectors :=
  let r := (d.rhythms.get? host).getD {}
  let arrivals := capped (r.arrivals ++ [now])
  (minTicks ≤ arrivals.length && cadenceVerdict (arrivals.drop (arrivals.length - minTicks)),
    { d with rhythms := d.rhythms.set host { r with arrivals := arrivals } })

end Detectors

/-- What the detectors say about one name. -/
structure Senses where
  newborn : Bool
  dga : Bool
  tunnel : Bool
  beacon : Bool
  homoglyph : Bool

namespace Detectors

def newbornAt (d : Detectors) (host : Str) (now : ℕ) : Bool × Detectors :=
  ((d.registry.newbornAt host now).1, { d with registry := (d.registry.newbornAt host now).2 })

/-- The second detector is asked only if the first one says no. -/
def tunnelOrBurst (f : Faculties) (d : Detectors) (host : Str)
    (qtype answerLen rcode now : ℕ) : Bool × Detectors :=
  let r := d.tunnelSignalAt f host qtype answerLen now
  if r.1 then r else r.2.nxBurst host qtype rcode now

/-- The middle part of `score_host`. -/
def sense (f : Faculties) (det : DetectionCfg) (d : Detectors) (key : Str)
    (qtype answerLen rcode now : ℕ) : Senses × Detectors :=
  let born := if det.newborn then d.newbornAt key now else (false, d)
  let dga := det.dga && !labelIsDistributionId key && f.dgaHot (leadingLabel key)
  let tunnel := if det.tunnel then born.2.tunnelOrBurst f key qtype answerLen rcode now
    else (false, born.2)
  let beacon := if det.beacon then tunnel.2.beaconSignalAt key now else (false, tunnel.2)
  let homoglyph := det.homoglyph && (key.splitOn '.').any f.homoglyphHit
  (⟨born.1, dga, tunnel.1, beacon.1, homoglyph⟩, beacon.2)

/-- The hosts and the events that are kept. -/
def held (d : Detectors) : ℕ :=
  d.registry.born.rows.length + d.registry.order.length +
    ((d.rings.rows.map fun r => 1 + r.2.length).sum +
      (d.rhythms.rows.map fun r => 1 + (r.2.arrivals.length + r.2.nxTimes.length)).sum)

end Detectors

/-! ### Bounds -/

theorem length_capped_le {α : Type} (ring : List α) : (capped ring).length ≤ ringCap := by
  rw [capped, length_drop]
  omega

theorem length_pruned_le {α : Type} (time : α → ℕ) (now : ℕ) (ring : List α) :
    (pruned time now ring).length ≤ ring.length :=
  (dropWhile_suffix _).length_le

/-- The order is that of the registrations, and there are not too many. -/
structure Registry.Bounded (g : Registry) : Prop where
  order_eq : g.order = g.born.keys
  length_le : g.born.keys.length ≤ firstSeenCap

theorem Registry.Bounded.evict {g : Registry} (h : g.Bounded) :
    g.evict.order = g.evict.born.keys ∧ g.evict.born.keys.length + 1 ≤ firstSeenCap ∧
      ∀ host, g.born.get? host = none → g.evict.born.get? host = none := by
  unfold Registry.evict
  split
  · next hfull =>
    cases horder : g.order with
    | nil =>
      -- a full registry has an oldest host
      have hkeys : g.born.keys.length = 0 := by rw [← h.order_eq, horder, length_nil]
      rw [length_keys] at hkeys
      rw [hkeys] at hfull
      exact absurd hfull (by decide)
    | cons oldest rest =>
      have hkeys : g.born.keys = oldest :: rest := by rw [← h.order_eq, horder]
      have herase := keys_erase_of_keys_eq_cons hkeys
      refine ⟨herase.symm, ?_, fun host hhost => ?_⟩
      · have hle := h.length_le
        rw [hkeys, length_cons] at hle
        rwa [herase]
      · rw [get?_erase]
        split
        · rfl
        · exact hhost
  · next hroom =>
    refine ⟨h.order_eq, ?_, fun host hhost => hhost⟩
    rw [length_keys]
    omega

theorem Registry.Bounded.newbornAt {g : Registry} (h : g.Bounded) (host : Str) (now : ℕ) :
    (g.newbornAt host now).2.Bounded := by
  unfold Registry.newbornAt
  split
  · exact h
  next hnew =>
  obtain ⟨horder, hroom, hkeep⟩ := h.evict
  have hkeys := keys_set_of_get?_eq_none (hkeep host hnew) now
  constructor
  · rw [hkeys, horder]
  · rw [hkeys, length_append, length_singleton]
    exact hroom

namespace Detectors

/-- Everything but the number of the rings is bounded. -/
structure Bounded (d : Detectors) : Prop where
  registry : d.registry.Bounded
  ring : ∀ host ring, d.rings.get? host = some ring → ring.length ≤ ringCap
  rhythm : ∀ host r, d.rhythms.get? host = some r →
    r.arrivals.length ≤ ringCap ∧ r.nxTimes.length ≤ ringCap

theorem bounded_empty : ({} : Detectors).Bounded where
  registry := ⟨rfl, Nat.zero_le _⟩
  ring := fun _ _ h => by cases h
  rhythm := fun _ _ h => by cases h

section Kept

variable {d : Detectors} (h : d.Bounded)

include h

theorem Bounded.newbornAt (host : Str) (now : ℕ) : (d.newbornAt host now).2.Bounded :=
  ⟨h.registry.newbornAt host now, h.ring, h.rhythm⟩

theorem Bounded.tunnelSignalAt (f : Faculties) (host : Str) (qtype answerLen now : ℕ) :
    (d.tunnelSignalAt f host qtype answerLen now).2.Bounded := by
  refine ⟨h.registry, fun k ring hget => ?_, h.rhythm⟩
  simp only [Detectors.tunnelSignalAt, get?_set] at hget
  split at hget
  · cases hget
    exact (length_pruned_le _ _ _).trans (length_capped_le _)
  · exact h.ring k ring hget

theorem Bounded.setRhythm (host : Str) {r : HostRhythm}
    (hr : r.arrivals.length ≤ ringCap ∧ r.nxTimes.length ≤ ringCap) :
    ({ d with rhythms := d.rhythms.set host r } : Detectors).Bounded := by
  refine ⟨h.registry, h.ring, fun k r' hget => ?_⟩
  simp only [get?_set] at hget
  split at hget
  · cases hget
    exact hr
  · exact h.rhythm k r' hget

theorem Bounded.rhythm_getD (host : Str) :
    ((d.rhythms.get? host).getD {}).arrivals.length ≤ ringCap ∧
      ((d.rhythms.get? host).getD {}).nxTimes.length ≤ ringCap := by
  cases hget : d.rhythms.get? host with
  | none => exact ⟨Nat.zero_le _, Nat.zero_le _⟩
  | some r => exact h.rhythm host r hget

theorem Bounded.nxBurst (host : Str) (qtype rcode now : ℕ) :
    (d.nxBurst host qtype rcode now).2.Bounded := by
  unfold Detectors.nxBurst
  split
  · exact h
  split
  · exact h
  · exact h.setRhythm host ⟨(h.rhythm_getD host).1,
      (length_pruned_le _ _ _).trans (length_capped_le _)⟩

theorem Bounded.beaconSignalAt (host : Str) (now : ℕ) : (d.beaconSignalAt host now).2.Bounded :=
  h.setRhythm host ⟨length_capped_le _, (h.rhythm_getD host).2⟩

theorem Bounded.tunnelOrBurst (f : Faculties) (host : Str) (qtype answerLen rcode now : ℕ) :
    (d.tunnelOrBurst f host qtype answerLen rcode now).2.Bounded := by
  simp only [Detectors.tunnelOrBurst]
  split
  · exact h.tunnelSignalAt f host qtype answerLen now
  · exact (h.tunnelSignalAt f host qtype answerLen now).nxBurst host qtype rcode now

theorem Bounded.sense (f : Faculties) (det : DetectionCfg) (key : Str)
    (qtype answerLen rcode now : ℕ) : (d.sense f det key qtype answerLen rcode now).2.Bounded := by
  have hborn : (if det.newborn then d.newbornAt key now else (false, d)).2.Bounded := by
    split
    · exact h.newbornAt key now
    · exact h
  simp only [Detectors.sense]
  have htunnel : ∀ e : Detectors, e.Bounded →
      (if det.tunnel then e.tunnelOrBurst f key qtype answerLen rcode now
        else (false, e)).2.Bounded := by
    intro e he
    split
    · exact he.tunnelOrBurst f key qtype answerLen rcode now
    · exact he
  split
  · exact (htunnel _ hborn).beaconSignalAt key now
  · exact htunnel _ hborn

end Kept

/-! ### The hosts with a ring -/

/-- The hosts that have a ring or a rhythm. -/
def Tracks (d : Detectors) (host : Str) : Prop := host ∈ d.rings.keys ∨ host ∈ d.rhythms.keys

variable {d : Detectors} {host k : Str} {now answerLen qtype rcode : ℕ} {f : Faculties}

theorem tracks_newbornAt :
    (d.newbornAt host now).2.Tracks k ↔ d.Tracks k := Iff.rfl

theorem tracks_tunnelSignalAt :
    (d.tunnelSignalAt f host qtype answerLen now).2.Tracks k ↔ k = host ∨ d.Tracks k := by
  rw [Tracks, Tracks]
  simp only [Detectors.tunnelSignalAt, mem_keys_set, or_assoc]

theorem tracks_setRhythm {r : HostRhythm} :
    ({ d with rhythms := d.rhythms.set host r } : Detectors).Tracks k ↔
      k = host ∨ d.Tracks k := by
  rw [Tracks, Tracks]
  simp only [mem_keys_set]
  exact or_left_comm

/-- An NXDOMAIN answer may begin a rhythm. -/
theorem tracks_nxBurst (h : (d.nxBurst host qtype rcode now).2.Tracks k) :
    k = host ∨ d.Tracks k := by
  unfold Detectors.nxBurst at h
  split at h
  · exact .inr h
  · split at h
    · exact .inr h
    · exact tracks_setRhythm.mp h

theorem tracks_of_nxBurst (h : d.Tracks k) : (d.nxBurst host qtype rcode now).2.Tracks k := by
  unfold Detectors.nxBurst
  split
  · exact h
  · split
    · exact h
    · exact tracks_setRhythm.mpr (.inr h)

theorem tracks_tunnelOrBurst :
    (d.tunnelOrBurst f host qtype answerLen rcode now).2.Tracks k ↔ k = host ∨ d.Tracks k := by
  simp only [Detectors.tunnelOrBurst]
  split
  · exact tracks_tunnelSignalAt
  constructor
  · intro h
    rcases tracks_nxBurst h with h | h
    · exact .inl h
    · exact tracks_tunnelSignalAt.mp h
  · intro h
    exact tracks_of_nxBurst (tracks_tunnelSignalAt.mpr h)

theorem tracks_beaconSignalAt :
    (d.beaconSignalAt host now).2.Tracks k ↔ k = host ∨ d.Tracks k := tracks_setRhythm

/-- A look with one of the two detectors on begins a ring or a rhythm for the name. -/
theorem tracks_sense {det : DetectionCfg} {key : Str} :
    (d.sense f det key qtype answerLen rcode now).2.Tracks k ↔
      ((det.tunnel = true ∨ det.beacon = true) ∧ k = key) ∨ d.Tracks k := by
  have hborn : (if det.newborn then d.newbornAt key now else (false, d)).2.Tracks k ↔
      d.Tracks k := by
    split
    · exact tracks_newbornAt
    · exact Iff.rfl
  simp only [Detectors.sense]
  generalize (if det.newborn then d.newbornAt key now else (false, d)).2 = e at hborn ⊢
  cases det.tunnel <;> cases det.beacon <;>
    simp [tracks_beaconSignalAt, tracks_tunnelOrBurst, hborn]

/-! ### What is held -/

theorem Bounded.held_le (h : d.Bounded) {n : ℕ} (hrings : d.rings.rows.length ≤ n)
    (hrhythms : d.rhythms.rows.length ≤ n) :
    d.held ≤ 2 * firstSeenCap + n * (2 + 3 * ringCap) := by
  have hregistry := h.registry.length_le
  rw [length_keys] at hregistry
  have horder : d.registry.order.length = d.registry.born.rows.length := by
    rw [h.registry.order_eq, length_keys]
  have hring : (d.rings.rows.map fun r => 1 + r.2.length).sum ≤
      d.rings.rows.length * (1 + ringCap) := by
    rw [← length_map fun r : Str × List TunnelEvent => 1 + r.2.length]
    refine sum_le_card_nsmul _ (1 + ringCap) (forall_mem_map.mpr fun r hr => ?_)
    have := h.ring r.1 r.2 (mem_rows_iff.mp hr)
    omega
  have hrhythm : (d.rhythms.rows.map fun r => 1 + (r.2.arrivals.length + r.2.nxTimes.length)).sum
      ≤ d.rhythms.rows.length * (1 + 2 * ringCap) := by
    rw [← length_map fun r : Str × HostRhythm =>
      1 + (r.2.arrivals.length + r.2.nxTimes.length)]
    refine sum_le_card_nsmul _ (1 + 2 * ringCap) (forall_mem_map.mpr fun r hr => ?_)
    have := h.rhythm r.1 r.2 (mem_rows_iff.mp hr)
    omega
  have hn : n * (2 + 3 * ringCap) = n * (1 + ringCap) + n * (1 + 2 * ringCap) := by
    have hsum : 2 + 3 * ringCap = 1 + ringCap + (1 + 2 * ringCap) := by omega
    rw [hsum, Nat.mul_add]
  have h1 := Nat.mul_le_mul_right (1 + ringCap) hrings
  have h2 := Nat.mul_le_mul_right (1 + 2 * ringCap) hrhythms
  rw [held]
  omega

theorem length_le_held (d : Detectors) : d.rings.rows.length + d.rhythms.rows.length ≤ d.held := by
  have h1 := length_le_sum_of_one_le _
    (forall_mem_map.mpr fun r _ => Nat.le_add_right 1 r.2.length :
      ∀ i ∈ d.rings.rows.map _, 1 ≤ i)
  have h2 := length_le_sum_of_one_le _
    (forall_mem_map.mpr fun r _ =>
      Nat.le_add_right 1 (r.2.arrivals.length + r.2.nxTimes.length) :
      ∀ i ∈ d.rhythms.rows.map _, 1 ≤ i)
  rw [length_map] at h1 h2
  rw [held]
  omega

end Detectors

end Underground
end TortaCore
