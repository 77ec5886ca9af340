import TortaCore.Mirror.Localcdn
import Mathlib.Data.List.Dedup

/-!
# Which hosts are cloaked

Two sets of hosts stand beside the hosts of the resource table (`mirror/localcdn.rs`): those
that discovery promoted, and those that are no longer cloaked, because a client refused the
certificate or because there was nothing to serve.  Each has a gate in front of it, which is
open exactly when the set has a member.

The code keeps both sets sorted and searches them by bisection; here a search is membership.

## Main definitions

* `HostSet`, `CloakPlane`: a set behind its gate, and the two sets.
* `isCdnHost`, `isPromotedHost`: what the resolver and the router ask.
* `CloakOp`, `CloakPlane.apply`: everything that changes the sets.
-/

namespace TortaCore
namespace Mirror

open Text List

/-! ### Sets behind a gate -/

structure HostSet where
  any : Bool
  hosts : List Str
  gate : any = !hosts.isEmpty

namespace HostSet

def empty : HostSet := ⟨false, [], rfl⟩

/-- The gate first, then the search. -/
def contains (s : HostSet) (host : Str) : Bool := s.any && s.hosts.contains host

def ofHosts (hosts : List Str) : HostSet := ⟨!hosts.isEmpty, hosts, rfl⟩

def insert (s : HostSet) (host : Str) : HostSet :=
  if s.hosts.contains host then s else ⟨true, host :: s.hosts, rfl⟩

@[simp] theorem contains_iff {s : HostSet} {host : Str} :
    s.contains host = true ↔ host ∈ s.hosts := by
  rw [contains, Bool.and_eq_true, contains_iff_mem]
  refine ⟨And.right, fun h => ⟨?_, h⟩⟩
  rw [s.gate, Bool.not_eq_true', isEmpty_eq_false_iff]
  exact ne_nil_of_mem h

theorem mem_insert {s : HostSet} {host h : Str} :
    h ∈ (s.insert host).hosts ↔ h = host ∨ h ∈ s.hosts := by
  rw [insert]
  split
  · next hmem =>
    rw [contains_iff_mem] at hmem
    exact ⟨.inr, fun h' => h'.elim (· ▸ hmem) id⟩
  · exact mem_cons

end HostSet

/-! ### The code -/

/-- `PROMOTED_CLOAK` and `TLS_DISTRUST`. -/
structure CloakPlane where
  promoted : HostSet
  distrust : HostSet

variable (maps : List ResourceMap)

def cdnHosts : List Str := (maps.map ResourceMap.host).dedup

namespace CloakPlane

def isTlsDistrusted (p : CloakPlane) (host : Str) : Bool := p.distrust.contains host

def isPromotedCloakHost (p : CloakPlane) (host : Str) : Bool := p.promoted.contains host

def isCdnHost (p : CloakPlane) (host : Str) : Bool :=
  let h := normalizeHost host
  if h = [] then false
  else !p.isTlsDistrusted h && ((cdnHosts maps).contains h || p.isPromotedCloakHost h)

def isPromotedHost (p : CloakPlane) (host : Str) : Bool :=
  let h := normalizeHost host
  if h = [] then false else p.isPromotedCloakHost h

def serveMissShouldUncloak (p : CloakPlane) (host : Str) : Bool :=
  let h := normalizeHost host
  if h = [] then false
  else if (cdnHosts maps).contains h then false
  else p.isPromotedCloakHost h

def noteTlsRejected (p : CloakPlane) (host : Str) : CloakPlane :=
  let h := normalizeHost host
  if h = [] then p else { p with distrust := p.distrust.insert h }

def noteUnservable (p : CloakPlane) (host : Str) : CloakPlane :=
  if p.serveMissShouldUncloak maps host then p.noteTlsRejected host else p

def clearTlsDistrust (p : CloakPlane) : CloakPlane := { p with distrust := .empty }

/-- The hosts in the file of refusals. -/
def loadedHosts (body : Str) : List Str :=
  ((lines body).map normalizeHost).filter fun l => !l.isEmpty && l.head? != some '#'

/-- At the start of the process; there may be no file. -/
def armTlsDistrustStore (p : CloakPlane) (body : Option Str) : CloakPlane :=
  { p with distrust := ((body.map loadedHosts).getD []).foldl HostSet.insert p.distrust }

/-- The whole promoted set is replaced. -/
def publishPromotedCloak (p : CloakPlane) (hosts : List Str) : CloakPlane :=
  let kept := (hosts.map normalizeHost).filter fun h =>
    !h.isEmpty && !p.isTlsDistrusted h && !(cdnHosts maps).contains h
  { p with promoted := .ofHosts kept.dedup }

end CloakPlane

/-- What changes the sets. -/
inductive CloakOp where
  | publishPromotedCloak (hosts : List Str)
  | noteTlsRejected (host : Str)
  | noteUnservable (host : Str)
  | clearTlsDistrust
  | armTlsDistrustStore (body : Option Str)

def CloakPlane.apply (p : CloakPlane) : CloakOp → CloakPlane
  | .publishPromotedCloak hosts => p.publishPromotedCloak maps hosts
  | .noteTlsRejected host => p.noteTlsRejected host
  | .noteUnservable host => p.noteUnservable maps host
  | .clearTlsDistrust => p.clearTlsDistrust
  | .armTlsDistrustStore body => p.armTlsDistrustStore body

/-! ### Cloaked hosts -/

namespace CloakPlane

variable {maps} {p : CloakPlane} {host : Str}

theorem isCdnHost_iff :
    p.isCdnHost maps host = true ↔ normalizeHost host ≠ [] ∧
      normalizeHost host ∉ p.distrust.hosts ∧
      (normalizeHost host ∈ cdnHosts maps ∨ normalizeHost host ∈ p.promoted.hosts) := by
  dsimp only [isCdnHost]
  split
  · next h => simp [h]
  · next h =>
    rw [Bool.and_eq_true, Bool.not_eq_true', Bool.or_eq_true, contains_iff_mem, isPromotedCloakHost,
      HostSet.contains_iff, isTlsDistrusted, ← Bool.not_eq_true, HostSet.contains_iff]
    exact ⟨fun hc => ⟨h, hc⟩, And.right⟩

theorem isPromotedHost_iff :
    p.isPromotedHost host = true ↔
      normalizeHost host ≠ [] ∧ normalizeHost host ∈ p.promoted.hosts := by
  dsimp only [isPromotedHost]
  split
  · next h => simp [h]
  · next h =>
    rw [isPromotedCloakHost, HostSet.contains_iff]
    exact ⟨fun hc => ⟨h, hc⟩, And.right⟩

theorem mem_foldl_insert {h : Str} : ∀ {l : List Str} {s : HostSet},
    h ∈ (l.foldl HostSet.insert s).hosts ↔ h ∈ l ∨ h ∈ s.hosts := by
  intro l
  induction l with
  | nil => simp
  | cons a l ih =>
    intro s
    rw [foldl_cons, ih, HostSet.mem_insert, mem_cons]
    tauto

theorem noteTlsRejected_spec (p : CloakPlane) (host : Str) :
    (p.noteTlsRejected host).promoted = p.promoted ∧
    ∀ h, h ∈ (p.noteTlsRejected host).distrust.hosts ↔
      (h = normalizeHost host ∧ h ≠ []) ∨ h ∈ p.distrust.hosts := by
  dsimp only [noteTlsRejected]
  split
  · next hempty =>
    refine ⟨rfl, fun h => ⟨.inr, ?_⟩⟩
    rintro (⟨rfl, hne⟩ | hmem)
    · exact absurd hempty hne
    · exact hmem
  · next hne =>
    refine ⟨rfl, fun h => ?_⟩
    rw [HostSet.mem_insert]
    exact or_congr_left ⟨fun heq => ⟨heq, heq ▸ hne⟩, And.left⟩

theorem mem_publishPromotedCloak {hosts : List Str} {h : Str} :
    h ∈ (p.publishPromotedCloak maps hosts).promoted.hosts ↔
      h ∈ hosts.map normalizeHost ∧ h ≠ [] ∧ h ∉ p.distrust.hosts ∧ h ∉ cdnHosts maps := by
  dsimp only [publishPromotedCloak, HostSet.ofHosts, isTlsDistrusted]
  rw [List.mem_dedup, List.mem_filter, Bool.and_eq_true, Bool.and_eq_true, Bool.not_eq_true',
    Bool.not_eq_true', Bool.not_eq_true', ← Bool.not_eq_true, ← Bool.not_eq_true,
    ← Bool.not_eq_true, List.isEmpty_iff, HostSet.contains_iff, List.contains_iff_mem, and_assoc]

/-- The operations that only record hosts as not to be cloaked. -/
theorem distrust_grows_apply (maps : List ResourceMap) (p : CloakPlane) {op : CloakOp}
    (hpub : ∀ hosts, op ≠ .publishPromotedCloak hosts) (hclear : op ≠ .clearTlsDistrust) :
    (p.apply maps op).promoted = p.promoted ∧
      ∀ h ∈ p.distrust.hosts, h ∈ (p.apply maps op).distrust.hosts := by
  cases op with
  | publishPromotedCloak hosts => exact absurd rfl (hpub hosts)
  | noteTlsRejected host =>
    obtain ⟨hprom, hdis⟩ := p.noteTlsRejected_spec host
    exact ⟨hprom, fun h hh => (hdis h).mpr (.inr hh)⟩
  | noteUnservable host =>
    dsimp only [apply, noteUnservable]
    split
    · obtain ⟨hprom, hdis⟩ := p.noteTlsRejected_spec host
      exact ⟨hprom, fun h hh => (hdis h).mpr (.inr hh)⟩
    · exact ⟨rfl, fun h hh => hh⟩
  | clearTlsDistrust => exact absurd rfl hclear
  | armTlsDistrustStore body => exact ⟨rfl, fun h hh => mem_foldl_insert.mpr (.inr hh)⟩

/-- A host of discovery becomes cloaked only by a promotion, or when what was handed back is
forgotten. -/
theorem isCdnHost_apply {op : CloakOp} (hcorpus : normalizeHost host ∉ cdnHosts maps)
    (hpub : ∀ hosts, op = .publishPromotedCloak hosts →
      normalizeHost host ∉ hosts.map normalizeHost)
    (hclear : op = .clearTlsDistrust → p.isPromotedHost host = false)
    (h : p.isCdnHost maps host = false) : (p.apply maps op).isCdnHost maps host = false := by
  rw [← Bool.not_eq_true, isCdnHost_iff] at h ⊢
  rintro ⟨hne, hdis, hmem⟩
  have hprom := hmem.resolve_left hcorpus
  by_cases hp : ∃ hosts, op = .publishPromotedCloak hosts
  · obtain ⟨hosts, rfl⟩ := hp
    exact hpub hosts rfl (mem_publishPromotedCloak.mp hprom).1
  by_cases hc : op = .clearTlsDistrust
  · subst hc
    have hnot := hclear rfl
    rw [← Bool.not_eq_true, isPromotedHost_iff] at hnot
    exact hnot ⟨hne, hprom⟩
  · obtain ⟨hsame, hgrow⟩ := distrust_grows_apply maps p (fun hosts heq => hp ⟨hosts, heq⟩) hc
    rw [hsame] at hprom
    exact h ⟨hne, fun hd => hdis (hgrow _ hd), .inr hprom⟩

end CloakPlane

end Mirror
end TortaCore
