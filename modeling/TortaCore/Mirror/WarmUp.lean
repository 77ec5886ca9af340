import TortaCore.Mirror.Flight

/-!
# The warm-up batch

`warm_up` (`mirror/packaging.rs`) serves a list of names one after the other and counts the
verdicts.  Each name is in one bucket.  The count of requests to the CDN is the bucket of the assets
that were filled, but the fetch leg was called for those that failed as well.
-/

namespace TortaCore
namespace Mirror
namespace WarmUp

open Text Machine List
open TortaCore.Runtime

variable {H : Bytes → ContentHash}

/-- A target, with what the fetch leg returns for it if it is called, and the fault that the write
of its bytes may meet. -/
structure WarmUpTarget where
  name : Str
  reply : Option Bytes
  fault : Option IoFault

/-- The counters are `u32` in the code.  Each is at most the number of targets, by the sum that is
proved below, and the caller hands over at most `MAX_WARM_UP_TARGETS`, 256. -/
structure WarmUpReport where
  targets : ℕ
  alreadyCached : ℕ
  filled : ℕ
  notInCatalog : ℕ
  failed : ℕ
  deriving DecidableEq

def WarmUpReport.cdnRequests (r : WarmUpReport) : ℕ := r.filled

/-- What a call leaves: its verdict, the store, and how often it called the fetch leg. -/
structure Served (H : Bytes → ContentHash) where
  verdict : ServeVerdict
  cache : Backed H
  calls : ℕ

/-- `serve_addressed` with no other call in flight, so that the lock is free. -/
def serveAddressed (mode : CacheMode) (c : Backed H) (hash : ContentHash) (t : WarmUpTarget) :
    Served H :=
  match c.store.get hash with
  | some e => ⟨.servedLocal e.bytes, c, 0⟩
  | none =>
    if mode = .blockMissing then ⟨.blockedMissing, c, 0⟩
    else
      -- the look under the lock
      match c.store.get hash with
      | some e => ⟨.servedLocal e.bytes, c, 0⟩
      | none =>
        match t.reply with
        | none => ⟨.fetchFailed, c, 1⟩
        | some bytes =>
          let r := c.insertVerified t.fault hash bytes
          if r.1.isSome then
            match r.2.store.get hash with
            | some e => ⟨.leakedThenServed e.bytes, r.2, 1⟩
            | none => ⟨.fetchFailed, r.2, 1⟩
          else ⟨.fetchFailed, r.2, 1⟩

def serveNamePrivate (catalog : Catalog) (mode : CacheMode) (c : Backed H) (t : WarmUpTarget) :
    Served H :=
  match catalog.contentHashFor t.name with
  | some hash => serveAddressed mode c hash t
  | none => ⟨.notInCatalog, c, 0⟩

/-- One verdict is counted. -/
def WarmUpReport.count (r : WarmUpReport) : ServeVerdict → WarmUpReport
  | .servedLocal _ => { r with alreadyCached := r.alreadyCached + 1 }
  | .leakedThenServed _ => { r with filled := r.filled + 1 }
  | .notInCatalog => { r with notInCatalog := r.notInCatalog + 1 }
  | .fetchFailed | .blockedMissing => { r with failed := r.failed + 1 }

/-- The batch on its way, with the calls of the fetch leg so far. -/
structure Batch (H : Bytes → ContentHash) where
  cache : Backed H
  report : WarmUpReport
  calls : ℕ

def serveTarget (catalog : Catalog) (b : Batch H) (t : WarmUpTarget) : Batch H :=
  let r := serveNamePrivate catalog .leakOnMiss b.cache t
  ⟨r.cache, b.report.count r.verdict, b.calls + r.calls⟩

def Batch.start (cache : Backed H) (targets : ℕ) : Batch H := ⟨cache, ⟨targets, 0, 0, 0, 0⟩, 0⟩

def warmUp (catalog : Catalog) (cache : Backed H) (targets : List WarmUpTarget) : Batch H :=
  targets.foldl (serveTarget catalog) (.start cache targets.length)

/-- The target needs no fetch, or its fetch brings bytes that the store admits. -/
def Delivers (catalog : Catalog) (b : Batch H) (t : WarmUpTarget) : Prop :=
  ∀ hash, catalog.contentHashFor t.name = some hash → b.cache.store.get hash = none →
    ∃ bytes, t.reply = some bytes ∧
      (b.cache.insertVerified t.fault hash bytes).1.isSome = true ∧
      ((b.cache.insertVerified t.fault hash bytes).2.store.get hash).isSome = true

/-- What one target adds: a call of the fetch leg is counted as filled or as failed, and one that
delivers as filled. -/
theorem serveTarget_spec (catalog : Catalog) (b : Batch H) (t : WarmUpTarget) :
    ∃ local? absent filled failed : ℕ, local? + absent + filled + failed = 1 ∧
      (failed = 0 ↔ Delivers catalog b t) ∧
      (serveTarget catalog b t).calls = b.calls + (filled + failed) ∧
      (serveTarget catalog b t).report = ⟨b.report.targets, b.report.alreadyCached + local?,
        b.report.filled + filled, b.report.notInCatalog + absent, b.report.failed + failed⟩ := by
  rw [serveTarget, serveNamePrivate]
  cases hname : catalog.contentHashFor t.name with
  | none => exact ⟨0, 1, 0, 0, rfl, by simp [Delivers, hname], rfl, rfl⟩
  | some hash =>
    have hdelivers : Delivers catalog b t ↔ (b.cache.store.get hash = none →
        ∃ bytes, t.reply = some bytes ∧
          (b.cache.insertVerified t.fault hash bytes).1.isSome = true ∧
          ((b.cache.insertVerified t.fault hash bytes).2.store.get hash).isSome = true) := by
      simp [Delivers, hname]
    rw [hdelivers]
    dsimp only
    rw [serveAddressed]
    cases hget : b.cache.store.get hash with
    | some e => exact ⟨1, 0, 0, 0, rfl, by simp, rfl, rfl⟩
    | none =>
      rw [if_neg nofun]
      cases t.reply with
      | none => exact ⟨0, 0, 0, 1, rfl, by simp, rfl, rfl⟩
      | some bytes =>
        dsimp only
        split
        · next hok =>
          cases hgot : (b.cache.insertVerified t.fault hash bytes).2.store.get hash with
          | some e => exact ⟨0, 0, 1, 0, rfl, by simp [hok, hgot], rfl, rfl⟩
          | none => exact ⟨0, 0, 0, 1, rfl, by simp [hgot], rfl, rfl⟩
        · next hok => exact ⟨0, 0, 0, 1, rfl, by simp [hok], rfl, rfl⟩

/-- **Warm-up accounting.**  Every target is in one bucket; the count of requests is the number of
times that the fetch leg was called exactly when each fetch delivers, in the state its target is
served in. -/
theorem cdnRequests_eq_calls_iff (catalog : Catalog) (cache : Backed H)
    (targets : List WarmUpTarget) :
    let b := warmUp catalog cache targets
    b.report.targets = targets.length ∧
    b.report.alreadyCached + b.report.filled + b.report.notInCatalog + b.report.failed =
      b.report.targets ∧
    (b.report.cdnRequests = b.calls ↔
      Along (serveTarget catalog) (Delivers catalog) (.start cache targets.length) targets) := by
  -- from any state of the batch
  have hfold : ∀ (ts : List WarmUpTarget) (b : Batch H),
      b.calls = b.report.filled + b.report.failed →
      let b' := ts.foldl (serveTarget catalog) b
      b'.report.targets = b.report.targets ∧ b.report.failed ≤ b'.report.failed ∧
      b'.report.alreadyCached + b'.report.filled + b'.report.notInCatalog + b'.report.failed =
        b.report.alreadyCached + b.report.filled + b.report.notInCatalog + b.report.failed +
          ts.length ∧
      b'.calls = b'.report.filled + b'.report.failed ∧
      (b'.report.failed = b.report.failed ↔
        Along (serveTarget catalog) (Delivers catalog) b ts) := by
    intro ts
    induction ts with
    | nil => intro b hb; exact ⟨rfl, le_rfl, rfl, hb, iff_of_true rfl trivial⟩
    | cons t ts ih =>
      intro b hb
      obtain ⟨l, a, x, f, hone, hdelivers, hcalls, hreport⟩ := serveTarget_spec catalog b t
      obtain ⟨htargets, hle, hsum, hrest, hiff⟩ := ih (serveTarget catalog b t) (by
        rw [hcalls, hreport, hb]
        dsimp only
        omega)
      rw [hreport] at htargets hle hsum hiff
      dsimp only at htargets hle hsum hiff
      refine ⟨htargets, by rw [foldl_cons]; omega, ?_, hrest, ?_⟩
      · rw [foldl_cons, hsum, length_cons]
        omega
      · rw [Along, ← hdelivers, ← hiff, foldl_cons]
        omega
  have hall := hfold targets (.start cache targets.length) rfl
  rw [warmUp]
  generalize targets.foldl (serveTarget catalog) (.start cache targets.length) = b at hall ⊢
  obtain ⟨htargets, -, hsum, hcalls, hiff⟩ := hall
  dsimp only [Batch.start] at htargets hsum hiff ⊢
  refine ⟨htargets, by omega, ?_⟩
  rw [← hiff, WarmUpReport.cdnRequests, hcalls]
  omega

/-- A fetch that fails is a request that is not counted. -/
theorem failed_fetch_not_counted :
    let b := warmUp (Flight.assetCatalog 1) Flight.emptyCache
      [⟨asciiText (Flight.assetBytes 0), none, none⟩]
    b.calls = 1 ∧ b.report.cdnRequests = 0 := by
  decide

end WarmUp
end Mirror
end TortaCore
