import TortaCore.Underground.Detection
import Mathlib.Data.List.Dedup
import Mathlib.Data.List.Perm.Subperm

/-!
# The fused score

Every name that the resolver answered or denied is classified by what happened to it and by
lists of suffixes, and looked at by the detectors; together they give the lane and the weight
of an accident (`underground.rs`).  The weights come from an operator's file and from what the
users taught about the host.

## Main definitions

* `Risk`, `Source`, `Verdict`, `NavEvent`: the lanes, the witnesses, the pins, the events.
* `classify`, `scoreHost`: the classifier and the fusion.
-/

namespace TortaCore
namespace Underground

open Text Store Mirror List

/-! ### The code -/

inductive Risk where
  | analytics
  | ads
  | tracker
  | dnsLeak
  | ipLeak
  | sonar
  | mitm
  | spoof
  | malware
  | cdn
  | custom (slug : Str)
  deriving DecidableEq

namespace Risk

def slug : Risk → Str
  | analytics => "analytics".toList
  | ads => "ads".toList
  | tracker => "tracker".toList
  | dnsLeak => "dns-leak".toList
  | ipLeak => "ip-leak".toList
  | sonar => "sonar".toList
  | mitm => "mitm".toList
  | spoof => "spoof".toList
  | malware => "malware".toList
  | cdn => "cdn".toList
  | custom slug => slug

/-- The lanes with a name of their own. -/
def lanes : List Risk :=
  [analytics, ads, tracker, dnsLeak, ipLeak, sonar, mitm, spoof, malware, cdn]

/-- Any other text is the lane of a detector. -/
def fromSlug (s : Str) : Option Risk :=
  match lanes.find? fun r => r.slug = s with
  | some r => some r
  | none => if s = [] ∨ s = ['-'] then none else some (custom s)

def basePenalty : Risk → Int32
  | malware | spoof | mitm | custom _ => 10
  | ipLeak | dnsLeak => 8
  | sonar => 5
  | tracker | analytics => 3
  | ads | cdn => 1

/-- The lanes whose licence never heals. -/
def isActiveDestroy : Risk → Bool
  | malware | spoof | mitm | custom _ => true
  | _ => false

end Risk

inductive Source where
  | blocklist
  | guard
  | rebind
  | suffix
  | centauri
  deriving DecidableEq

inductive Verdict where
  | neutral
  | trusted
  | distrusted
  deriving DecidableEq

inductive NavEvent where
  | blocked
  | guarded
  | rebindReject
  | answered
  deriving DecidableEq

def adsSuffixes : List Str :=
  ["doubleclick.net".toList, "googlesyndication.com".toList, "adservice.google.com".toList,
   "adnxs.com".toList]

def analyticsSuffixes : List Str :=
  ["google-analytics.com".toList, "scorecardresearch.com".toList, "app-measurement.com".toList]

def telemetrySuffixes : List Str :=
  ["events.data.microsoft.com".toList, "telemetry.microsoft.com".toList,
   "datadoghq.com".toList, "crashlytics.com".toList, "appsflyer.com".toList,
   "adjust.com".toList, "branch.io".toList]

def suffixHit (host : Str) (suffixes : List Str) : Bool :=
  suffixes.any fun s => host = s || ('.' :: s).isSuffixOf host

/-- The name is normalised; `isCdnHost` is what the cloak says. -/
def classify (isCdnHost : Str → Bool) (host : Str) (qtype : ℕ) : NavEvent → Option (Risk × Source)
  | .blocked =>
    some (if suffixHit host adsSuffixes then .ads
      else if suffixHit host analyticsSuffixes then .analytics
      else .tracker, .blocklist)
  | .guarded => some (if qtype = 12 then .ipLeak else .sonar, .guard)
  | .rebindReject => some (.spoof, .rebind)
  | .answered =>
    if suffixHit host adsSuffixes then some (.ads, .suffix)
    else if suffixHit host analyticsSuffixes then some (.analytics, .suffix)
    else if suffixHit host telemetrySuffixes then some (.tracker, .suffix)
    else if isCdnHost host then some (.cdn, .centauri)
    else none

/-! The operator's file and what was learned. -/

def licenceStart : Int32 := 20

def probationAt : Int32 := 6

def quarantineTtlSecs : UInt64 := 86400

structure LicenceCfg where
  start : Int32 := licenceStart
  probationAt : Int32 := probationAt

structure PenaltyCfg where
  analytics : Int32 := Risk.analytics.basePenalty
  ads : Int32 := Risk.ads.basePenalty
  tracker : Int32 := Risk.tracker.basePenalty
  dnsLeak : Int32 := Risk.dnsLeak.basePenalty
  ipLeak : Int32 := Risk.ipLeak.basePenalty
  sonar : Int32 := Risk.sonar.basePenalty
  mitm : Int32 := Risk.mitm.basePenalty
  spoof : Int32 := Risk.spoof.basePenalty
  malware : Int32 := Risk.malware.basePenalty
  cdn : Int32 := Risk.cdn.basePenalty

structure ScoringCfg where
  licence : LicenceCfg := {}
  penalty : PenaltyCfg := {}
  ttlSecs : UInt64 := quarantineTtlSecs
  detection : DetectionCfg := {}

structure Rep where
  baseline : Int32
  licenceStart : Option Int32
  probationAt : Option Int32
  corrected : Bool

/-- What the scorer reads and does not change. -/
structure Law where
  cfg : ScoringCfg
  reputation : Dict Str Rep
  isCdnHost : Str → Bool
  faculties : Faculties

namespace Law

variable (law : Law)

def penaltyFor (risk : Risk) : Int32 :=
  let p := law.cfg.penalty
  max (match risk with
    | .analytics => p.analytics
    | .ads => p.ads
    | .tracker => p.tracker
    | .dnsLeak => p.dnsLeak
    | .ipLeak => p.ipLeak
    | .sonar => p.sonar
    | .mitm => p.mitm
    | .spoof => p.spoof
    | .malware => p.malware
    | .cdn => p.cdn
    | .custom _ => risk.basePenalty) 0

def licenceStartFor (host : Str) : Int32 :=
  match (law.reputation.get? host).bind Rep.licenceStart with
  | some v => max v 1
  | none => max law.cfg.licence.start 1

def probationAtFor (host : Str) : Int32 :=
  match (law.reputation.get? host).bind Rep.probationAt with
  | some v => max v 0
  | none => max law.cfg.licence.probationAt 0

end Law

structure ThreatScore where
  risk : Risk
  weight : Int32
  signals : List Signal

/-- The first detector that fired names the lane. -/
def coinedLane (s : Senses) : Option Risk :=
  if s.homoglyph then some (.custom "homoglyph".toList)
  else if s.dga then some (.custom "dga".toList)
  else if s.tunnel then some (.custom "tunnel".toList)
  else if s.beacon then some (.custom "beacon".toList)
  else none

def mark (b : Bool) (s : Signal) : List Signal := if b then [s] else []

/-- What the faculties saw, in the order of the scorer. -/
def witnesses (classified : Option (Risk × Source)) (key : Str) (event : NavEvent) (s : Senses) :
    List Signal :=
  let suffix := decide (classified.map Prod.snd = some Source.suffix) ||
    suffixHit key adsSuffixes || suffixHit key analyticsSuffixes || suffixHit key telemetrySuffixes
  let shape := s.dga || s.tunnel || s.beacon || s.homoglyph
  List.flatten [mark suffix .suffix, mark (decide (event = .rebindReject)) .geoRebind,
    mark s.dga .dga, mark s.tunnel .tunnel, mark s.beacon .beacon, mark s.homoglyph .homoglyph,
    -- a new host is no evidence on its own
    mark (s.newborn && shape) .newborn]

def scoreHost (law : Law) (d : Detectors) (host : Str) (qtype : ℕ) (event : NavEvent)
    (answerLen rcode now : ℕ) : Option ThreatScore × Detectors :=
  let key := normalizeHost host
  let classified := classify law.isCdnHost key qtype event
  let sensed := d.sense law.faculties law.cfg.detection key qtype answerLen rcode now
  let signals := witnesses classified key event sensed.1
  let score := ((classified.map Prod.fst).or (coinedLane sensed.1)).map fun risk =>
    match law.reputation.get? key with
    | some r =>
      if r.baseline ≠ 0 then
        ⟨risk, max (law.penaltyFor risk + r.baseline) 0,
          signals ++ [if r.corrected then .correction else .reputation]⟩
      else ⟨risk, law.penaltyFor risk, signals⟩
    | none => ⟨risk, law.penaltyFor risk, signals⟩
  (score, sensed.2)

/-! ### The lanes of an accident -/

/-- The lanes that the detectors coin. -/
def coined : List Risk :=
  [.custom "homoglyph".toList, .custom "dga".toList, .custom "tunnel".toList,
   .custom "beacon".toList]

theorem forall_of_ite {α : Type} {P : α → Prop} {c : Prop} [Decidable c] {a : α} {o : Option α}
    (ha : P a) (ho : ∀ b, o = some b → P b) : ∀ b, (if c then some a else o) = some b → P b := by
  intro b h
  split at h
  · exact Option.some.inj h ▸ ha
  · exact ho b h

theorem mem_lanes_of_classify {isCdnHost : Str → Bool} {host : Str} {qtype : ℕ} {event : NavEvent}
    {r : Risk × Source} (h : classify isCdnHost host qtype event = some r) : r.1 ∈ Risk.lanes := by
  cases event with
  | blocked =>
    cases h
    split
    · simp [Risk.lanes]
    · split <;> simp [Risk.lanes]
  | guarded =>
    cases h
    split <;> simp [Risk.lanes]
  | rebindReject =>
    cases h
    simp [Risk.lanes]
  | answered =>
    refine forall_of_ite (P := fun r => r.1 ∈ Risk.lanes) ?_
      (forall_of_ite ?_ (forall_of_ite ?_ (forall_of_ite ?_ ?_))) r h
    all_goals simp [Risk.lanes]

theorem mem_coined_of_coinedLane {s : Senses} {r : Risk} (h : coinedLane s = some r) :
    r ∈ coined := by
  refine forall_of_ite ?_ (forall_of_ite ?_ (forall_of_ite ?_ (forall_of_ite ?_ ?_))) r h
  all_goals simp [coined]

theorem risk_of_scoreHost {law : Law} {d : Detectors} {host : Str} {qtype : ℕ} {event : NavEvent}
    {answerLen rcode now : ℕ} {score : ThreatScore}
    (h : (scoreHost law d host qtype event answerLen rcode now).1 = some score) :
    score.risk ∈ Risk.lanes ++ coined := by
  simp only [scoreHost, Option.map_eq_some_iff] at h
  obtain ⟨risk, hrisk, rfl⟩ := h
  have hmem : risk ∈ Risk.lanes ++ coined := by
    rw [Option.or_eq_some_iff] at hrisk
    rcases hrisk with hrisk | ⟨-, hrisk⟩
    · obtain ⟨r, hr, rfl⟩ := Option.map_eq_some_iff.mp hrisk
      exact mem_append_left _ (mem_lanes_of_classify hr)
    · exact mem_append_right _ (mem_coined_of_coinedLane hrisk)
  split
  · split <;> exact hmem
  · exact hmem

/-! ### The memory of the detectors -/

/-- One call of the scorer. -/
structure Call where
  law : Law
  host : Str
  qtype : ℕ
  event : NavEvent
  answerLen : ℕ
  rcode : ℕ
  now : ℕ

namespace Call

def step (d : Detectors) (c : Call) : Detectors :=
  (scoreHost c.law d c.host c.qtype c.event c.answerLen c.rcode c.now).2

def run (calls : List Call) : Detectors := calls.foldl step {}

/-- One of the detectors that keep a ring for each host is on. -/
def Rings (c : Call) : Bool := c.law.cfg.detection.tunnel || c.law.cfg.detection.beacon

/-- The different hosts of the calls that touch a ring. -/
def ringHosts (calls : List Call) : List Str :=
  ((calls.filter Rings).map fun c => normalizeHost c.host).dedup

theorem bounded_run (calls : List Call) : (run calls).Bounded := by
  have hfold : ∀ (cs : List Call) (d : Detectors), d.Bounded → (cs.foldl step d).Bounded := by
    intro cs
    induction cs with
    | nil => intro d hd; exact hd
    | cons c cs ih => intro d hd; exact ih _ (hd.sense _ _ _ _ _ _ _)
  exact hfold calls _ Detectors.bounded_empty

theorem tracks_run {calls : List Call} {k : Str} :
    (run calls).Tracks k ↔ k ∈ ringHosts calls := by
  have hfold : ∀ (cs : List Call) (d : Detectors), (cs.foldl step d).Tracks k ↔
      d.Tracks k ∨ ∃ c ∈ cs, c.Rings = true ∧ k = normalizeHost c.host := by
    intro cs
    induction cs with
    | nil => intro d; simp
    | cons c cs ih =>
      intro d
      rw [foldl_cons, ih, step, scoreHost, Detectors.tracks_sense]
      simp only [exists_mem_cons_iff, Rings, Bool.or_eq_true]
      rw [or_assoc, or_left_comm]
  have hempty : ¬ ({} : Detectors).Tracks k := by
    rintro (h | h) <;> cases h
  rw [run, hfold, ringHosts, mem_dedup, mem_map]
  simp only [hempty, false_or, mem_filter, and_assoc, eq_comm]

theorem length_ringHosts_le_held (calls : List Call) :
    (ringHosts calls).length ≤ (run calls).held := by
  have hsub : ringHosts calls ⊆ (run calls).rings.keys ++ (run calls).rhythms.keys :=
    fun k hk => mem_append.mpr (tracks_run.mpr hk)
  have hlen := (subperm_of_subset (nodup_dedup _) hsub).length_le
  rw [length_append, Dict.length_keys, Dict.length_keys] at hlen
  exact hlen.trans (Detectors.length_le_held _)

theorem held_run_le (calls : List Call) :
    (run calls).held ≤ 2 * firstSeenCap + (ringHosts calls).length * (2 + 3 * ringCap) := by
  have hrings : (run calls).rings.keys ⊆ ringHosts calls := fun k hk => tracks_run.mp (.inl hk)
  have hrhythms : (run calls).rhythms.keys ⊆ ringHosts calls := fun k hk => tracks_run.mp (.inr hk)
  have h1 := (subperm_of_subset (run calls).rings.nodup hrings).length_le
  have h2 := (subperm_of_subset (run calls).rhythms.nodup hrhythms).length_le
  exact (bounded_run calls).held_le ((Dict.length_keys _).symm.le.trans h1)
    ((Dict.length_keys _).symm.le.trans h2)

/-- A set of runs keeps the memory of the detectors within a bound if and only if it keeps the
number of the hosts that touch a ring within one. -/
theorem detectors_bounded_iff (R : Set (List Call)) :
    (∃ B, ∀ calls ∈ R, (run calls).held ≤ B) ↔
      ∃ n, ∀ calls ∈ R, (ringHosts calls).length ≤ n := by
  constructor
  · rintro ⟨B, hB⟩
    exact ⟨B, fun calls hcalls => (length_ringHosts_le_held calls).trans (hB calls hcalls)⟩
  · rintro ⟨n, hn⟩
    refine ⟨2 * firstSeenCap + n * (2 + 3 * ringCap), fun calls hcalls => ?_⟩
    exact (held_run_le calls).trans
      (Nat.add_le_add_left (Nat.mul_le_mul_right _ (hn calls hcalls)) _)

/-- The scorer as it is shipped, with nothing learned and no cloaked host. -/
def shippedLaw : Law := ⟨{}, .empty, fun _ => false, ⟨fun _ => false, fun _ => false⟩⟩

/-- A name of `n + 1` letters is answered. -/
def freshCall (n : ℕ) : Call := ⟨shippedLaw, List.replicate (n + 1) 'a', 1, .answered, 40, 0, 0⟩

theorem normalizeHost_replicate (n : ℕ) :
    normalizeHost (List.replicate n 'a') = List.replicate n 'a' := by
  have hclean : trim (replicate n 'a') = replicate n 'a' := by
    refine trim_of_clean fun x hx => ?_
    rw [eq_of_mem_replicate hx]
    decide
  have hdots : trimEndMatches '.' (replicate n 'a') = replicate n 'a' := by
    rw [trimEndMatches, rdropWhile_eq_self_iff]
    intro hne
    rw [eq_of_mem_replicate (getLast_mem hne)]
    decide
  rw [normalizeHost, hclean, hdots, map_replicate]
  congr 1

/-- A stream of new names fills any memory. -/
theorem fresh_names_fill_memory :
    ¬ ∃ B, ∀ calls : List Call, (run calls).held ≤ B := by
  rintro ⟨B, hB⟩
  have hhosts : ringHosts ((range (B + 1)).map freshCall) =
      (range (B + 1)).map fun n => replicate (n + 1) 'a' := by
    have hon : ∀ c ∈ (range (B + 1)).map freshCall, Rings c = true := by
      intro c hc
      obtain ⟨n, -, rfl⟩ := mem_map.mp hc
      rfl
    have hnodup : ((range (B + 1)).map fun n => replicate (n + 1) 'a').Nodup := by
      refine nodup_range.map fun m n hmn => ?_
      have := congrArg length hmn
      simpa using this
    rw [ringHosts, filter_eq_self.mpr hon, map_map]
    have hmap : (fun c => normalizeHost c.host) ∘ freshCall =
        fun n => replicate (n + 1) 'a' := funext fun n => normalizeHost_replicate (n + 1)
    rw [hmap, hnodup.dedup]
  have hlen := (length_ringHosts_le_held _).trans (hB ((range (B + 1)).map freshCall))
  rw [hhosts, length_map, length_range] at hlen
  omega

end Call

end Underground
end TortaCore
