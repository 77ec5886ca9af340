import Mathlib.Data.List.Infix
import TortaCore.Resolver.Stamp

/-!
# Granting the shell powers

The privileged powers of the app (`elevation/PowerCatalogue.kt`, `GrantEngine.kt`,
`ShellResult.kt`): each one is a command that sets it and, for most, a command that reads it
back.  A power that is read back counts as held when the text that comes back shows it.  For
the two lists of the system, of packages and of uids, showing it means that the text of the
package or the uid stands somewhere in the list, and that can be inside a longer entry.

The state store, the clock, the tiers and the commands that undo a power are left out: no
verdict reads them.

## Main definitions

* `AdbSentinel.wrap`, `AdbSentinel.parse`: the exit code, carried behind the output.
* `PowerCatalogue.build`, `PowerCatalogue.isHeld`: the powers, and when a read-back shows one.
* `GrantEngine.verify`, `GrantEngine.apply`: the grant of one power, over any session.
-/

namespace TortaCore
namespace Elevation

open Text List
open Resolver.Stamp.Rotation (trimKt isBlank)

structure ShellResult where
  exit : ℤ
  stdout : Str
  stderr : Str
  deriving DecidableEq

namespace ShellResult

def ok (r : ShellResult) : Bool := r.exit == 0

def value (r : ShellResult) : Str := trimKt r.stdout

/-- The two streams as one. -/
def combined (r : ShellResult) : Str :=
  if isBlank r.stderr then r.stdout else r.stdout ++ '\n' :: r.stderr

end ShellResult

section Digits

-- `Character.digit`, which knows the decimal digits of all scripts
variable (digitOf : Char → Option ℕ)

/-- `String.toIntOrNull`. -/
def toIntOrNull (s : Str) : Option ℤ :=
  let negative := s.head? = some '-'
  let digits := if negative ∨ s.head? = some '+' then s.tail else s
  if digits.isEmpty || !(digits.all fun c => (digitOf c).isSome) then none
  else
    let size := digits.foldl (fun n c => n * 10 + (digitOf c).getD 0) 0
    let value : ℤ := if negative then -(size : ℤ) else size
    if -2147483648 ≤ value ∧ value ≤ 2147483647 then some value else none

namespace AdbSentinel

def exitUnknown : ℤ := -1

def mark : Str := "__YT_ELEV_EXIT__".toList

def wrap (command : Str) : Str := command ++ "; echo \"".toList ++ mark ++ "$?\"".toList

/-- `replace("\r\n", "\n")`. -/
def replaceCrLf : Str → Str
  | '\r' :: '\n' :: rest => '\n' :: replaceCrLf rest
  | c :: rest => c :: replaceCrLf rest
  | [] => []

def normalized (raw : Str) : Str := (replaceCrLf raw).map fun c => if c = '\r' then '\n' else c

/-- The last line that begins with the mark has the exit code, and what stands before it is the
output. -/
def parse (raw : Str) : ShellResult :=
  match ((normalized raw).splitOn '\n').reverse.dropWhile fun l => !mark.isPrefixOf l with
  | [] => ⟨exitUnknown, trimEndMatches '\n' (normalized raw), []⟩
  | line :: before =>
    let exit := (toIntOrNull digitOf (trimKt (line.drop mark.length))).getD exitUnknown
    -- one blank line is left by the command's own newline
    let output := match before with
      | [] :: before => before
      | _ => before
    ⟨exit, ['\n'].intercalate output.reverse, []⟩

end AdbSentinel

end Digits

/-! ### The powers -/

inductive PowerId where
  | alwaysOnVpn
  | lockdown
  | lockdownAllowlistEmpty
  | batteryBackground
  | batteryRunInBackground
  | batteryWakeLock
  | batteryDozeWhitelist
  | batteryStandbyBucket
  | postNotifications
  | readLogs
  | dataSaverBypass
  | writeSecureSettings
  | privateDnsOff
  | ignoreSystemDns
  | captivePortalOff
  | wifiScanThrottleOff
  | networkRecommendationsOff
  | usageStats
  | scheduleExactAlarm
  | systemAlertWindow
  | activateVpn
  deriving DecidableEq

structure PowerOp where
  id : PowerId
  setCmd : Str
  readBackCmd : Option Str
  expected : Str
  deriving DecidableEq

def PowerOp.readBackable (op : PowerOp) : Bool := op.readBackCmd.isSome

namespace PowerCatalogue

def allowToken : Str := "allow".toList

/-- A value of the secure or the global settings. -/
def setting (id : PowerId) (table key : String) (put expected : Str) : PowerOp :=
  ⟨id, "settings put ".toList ++ table.toList ++ ' ' :: key.toList ++ ' ' :: put,
    some ("settings get ".toList ++ table.toList ++ ' ' :: key.toList), expected⟩

/-- An operation of the app. -/
def appop (id : PowerId) (pkg : Str) (name : String) : PowerOp :=
  ⟨id, "cmd appops set ".toList ++ pkg ++ ' ' :: name.toList ++ " allow".toList,
    some ("cmd appops get ".toList ++ pkg ++ ' ' :: name.toList), allowToken⟩

/-- A permission, which is not read back. -/
def permission (id : PowerId) (pkg : Str) (name : String) : PowerOp :=
  ⟨id, "pm grant ".toList ++ pkg ++ " android.permission.".toList ++ name.toList, none, []⟩

def dozeWhitelist (pkg : Str) : PowerOp :=
  ⟨.batteryDozeWhitelist, "cmd deviceidle whitelist +".toList ++ pkg,
    some "dumpsys deviceidle whitelist".toList, pkg⟩

def standbyBucket (pkg : Str) : PowerOp :=
  ⟨.batteryStandbyBucket, "am set-standby-bucket ".toList ++ pkg ++ " active".toList,
    some ("am get-standby-bucket ".toList ++ pkg), "10".toList⟩

def dataSaverBypass (appUid : ℤ) : PowerOp :=
  ⟨.dataSaverBypass,
    "cmd netpolicy add restrict-background-whitelist ".toList ++ decimalInt appUid,
    some "cmd netpolicy list restrict-background-whitelist".toList, decimalInt appUid⟩

def build (pkg : Str) (appUid : Option ℤ) : List PowerOp :=
  [setting .alwaysOnVpn "secure" "always_on_vpn_app" pkg pkg,
    setting .lockdown "secure" "always_on_vpn_lockdown" "1".toList "1".toList,
    setting .lockdownAllowlistEmpty "secure" "always_on_vpn_lockdown_whitelist" "\"\"".toList
      "null".toList,
    appop .batteryBackground pkg "RUN_ANY_IN_BACKGROUND",
    appop .batteryRunInBackground pkg "RUN_IN_BACKGROUND",
    appop .batteryWakeLock pkg "WAKE_LOCK",
    dozeWhitelist pkg,
    standbyBucket pkg,
    permission .postNotifications pkg "POST_NOTIFICATIONS",
    permission .readLogs pkg "READ_LOGS",
    permission .writeSecureSettings pkg "WRITE_SECURE_SETTINGS"] ++
  (appUid.map dataSaverBypass).toList ++
  [setting .privateDnsOff "global" "private_dns_mode" "off".toList "off".toList,
    setting .ignoreSystemDns "global" "private_dns_specifier" "\"\"".toList "null".toList,
    setting .captivePortalOff "global" "captive_portal_mode" "0".toList "0".toList,
    setting .wifiScanThrottleOff "global" "wifi_scan_throttle_enabled" "0".toList "0".toList,
    setting .networkRecommendationsOff "global" "network_recommendations_enabled" "0".toList
      "0".toList,
    appop .usageStats pkg "GET_USAGE_STATS",
    appop .scheduleExactAlarm pkg "SCHEDULE_EXACT_ALARM",
    appop .systemAlertWindow pkg "SYSTEM_ALERT_WINDOW",
    appop .activateVpn pkg "ACTIVATE_VPN"]

/-- `contains` on strings. -/
def contains (s t : Str) : Bool := decide (t <:+: s)

def isHeld (op : PowerOp) (result : ShellResult) : Bool :=
  result.ok &&
    match op.id with
    | .batteryBackground | .batteryRunInBackground | .batteryWakeLock | .batteryDozeWhitelist
    | .dataSaverBypass | .usageStats | .scheduleExactAlarm | .systemAlertWindow | .activateVpn =>
      contains result.value op.expected
    | .batteryStandbyBucket => result.value == "10".toList || result.value == "5".toList
    | _ => result.value == op.expected

end PowerCatalogue

/-! ### The grant -/

/-- What the shell does with a command after those it has run: it answers, or it throws, with a
message or without one. -/
abbrev Session := List Str → Str → Except (Option Str) ShellResult

structure PowerOutcome where
  id : PowerId
  held : Bool
  applied : Bool
  detail : Str
  deriving DecidableEq

namespace GrantEngine

open AdbSentinel PowerCatalogue

variable (digitOf : Char → Option ℕ) (session : Session)

/-- Run a command with its exit code behind the output. -/
def exec (ran : List Str) (cmd : Str) : Except (Option Str) ShellResult :=
  (session ran (wrap cmd)).map fun r => parse digitOf r.combined

def verify (ran : List Str) (op : PowerOp) : Bool :=
  match op.readBackCmd with
  | none => false
  | some cmd =>
    match exec digitOf session ran cmd with
    | .error _ => false
    | .ok result => isHeld op result

/-- What is run for a read-back. -/
def readBackRun (op : PowerOp) : List Str := op.readBackCmd.toList.map wrap

/-- Verify, and if the power is not held set it and verify again. -/
def apply (ran : List Str) (op : PowerOp) : PowerOutcome :=
  if op.readBackable && verify digitOf session ran op then
    ⟨op.id, true, false, "already held".toList⟩
  else
    let ran := ran ++ readBackRun op
    match exec digitOf session ran op.setCmd with
    | .error message => ⟨op.id, false, true, message.getD "set threw".toList⟩
    | .ok setResult =>
      if !op.readBackable then
        ⟨op.id, setResult.ok, true,
          if setResult.ok then "granted".toList
          else "set exit ".toList ++ decimalInt setResult.exit⟩
      else
        let held := verify digitOf session (ran ++ [wrap op.setCmd]) op
        ⟨op.id, held, true,
          if held then "set+verified".toList else "set but read-back mismatch".toList⟩

/-- The read-backs of a grant that came back. -/
def readBacks (ran : List Str) (op : PowerOp) : List ShellResult :=
  match op.readBackCmd with
  | none => []
  | some cmd =>
    let first := (exec digitOf session ran cmd).toOption.toList
    let ran := ran ++ [wrap cmd]
    if first.any (isHeld op) then first
    else
      match exec digitOf session ran op.setCmd with
      | .error _ => first
      | .ok _ =>
        first ++ (exec digitOf session (ran ++ [wrap op.setCmd]) cmd).toOption.toList

theorem verify_eq_any {op : PowerOp} {cmd : Str} (hcmd : op.readBackCmd = some cmd)
    (ran : List Str) :
    verify digitOf session ran op =
      (exec digitOf session ran cmd).toOption.toList.any (isHeld op) := by
  rw [verify, hcmd]
  cases hexec : exec digitOf session ran cmd with
  | error message => simp [hexec, Except.toOption]
  | ok result => simp [hexec, Except.toOption]

/-- A power that is read back is held when a read-back of the run shows it. -/
theorem held_iff {op : PowerOp} (hop : op.readBackable = true) (ran : List Str) :
    (apply digitOf session ran op).held = true ↔
      ∃ r ∈ readBacks digitOf session ran op, isHeld op r = true := by
  obtain ⟨cmd, hcmd⟩ := Option.isSome_iff_exists.mp hop
  rw [← any_eq_true, apply, readBacks, hcmd, hop]
  simp only [verify_eq_any digitOf session hcmd, readBackRun, hcmd, Bool.true_and,
    Option.toList_some, map_cons, map_nil]
  by_cases hheld : (exec digitOf session ran cmd).toOption.toList.any (isHeld op) = true
  · rw [if_pos hheld, if_pos hheld, hheld]
  rw [if_neg hheld, if_neg hheld]
  cases exec digitOf session (ran ++ [wrap cmd]) op.setCmd with
  | error message =>
    rw [Bool.not_eq_true] at hheld
    rw [hheld]
  | ok setResult =>
    rw [Bool.not_eq_true] at hheld
    rw [any_append, hheld, Bool.false_or]
    rfl

/-- There is one read-back at most that shows the power: the run ends with it. -/
theorem readBacks_unique {op : PowerOp} {ran : List Str} {r r' : ShellResult}
    (hr : r ∈ readBacks digitOf session ran op) (hr' : r' ∈ readBacks digitOf session ran op)
    (hheld : isHeld op r = true) (hheld' : isHeld op r' = true) : r = r' := by
  have hone : ∀ (o : Option ShellResult), r ∈ o.toList → r' ∈ o.toList → r = r' := by
    intro o h h'
    rw [Option.mem_toList] at h h'
    rwa [h', Option.some.injEq, eq_comm] at h
  rw [readBacks] at hr hr'
  cases hcmd : op.readBackCmd with
  | none => simp [hcmd] at hr
  | some cmd =>
    rw [hcmd] at hr hr'
    dsimp only at hr hr'
    split at hr
    · next hfirst =>
      rw [if_pos hfirst] at hr'
      exact hone _ hr hr'
    next hfirst =>
    -- what came back first does not show the power
    have hno : ∀ x ∈ (exec digitOf session ran cmd).toOption.toList, isHeld op x ≠ true := by
      simpa using hfirst
    rw [if_neg hfirst] at hr'
    split at hr
    · exact absurd hheld (hno r hr)
    next setResult hset =>
    rw [hset] at hr'
    rcases mem_append.mp hr with hr | hr
    · exact absurd hheld (hno r hr)
    · rcases mem_append.mp hr' with hr' | hr'
      · exact absurd hheld' (hno r' hr')
      · exact hone _ hr hr'

end GrantEngine

/-! ### Lists of the system -/

/-- A character of a package id or of a number. -/
def isIdChar (c : Char) : Bool := c.isAlphanum || c == '_' || c == '.'

/-- What a list lists: the words between the characters that no name and no number has. -/
def entries (list : Str) : List Str := nonEmpty (list.splitOnP fun c => !isIdChar c)

structure PackageId where
  text : Str
  ne_nil : text ≠ []
  idChars : ∀ c ∈ text, isIdChar c = true

/-- The powers that are entries of a list of the system. -/
inductive ListedPower where
  | dozeWhitelist (pkg : PackageId)
  | dataSaverBypass (appUid : ℕ)

namespace ListedPower

def op : ListedPower → PowerOp
  | .dozeWhitelist pkg => PowerCatalogue.dozeWhitelist pkg.text
  | .dataSaverBypass appUid => PowerCatalogue.dataSaverBypass appUid

/-- The entry of the app. -/
def entry : ListedPower → Str
  | .dozeWhitelist pkg => pkg.text
  | .dataSaverBypass appUid => decimal appUid

theorem entry_ne_nil (power : ListedPower) : power.entry ≠ [] := by
  cases power with
  | dozeWhitelist pkg => exact pkg.ne_nil
  | dataSaverBypass appUid => exact decimal_ne_nil appUid

theorem isIdChar_entry (power : ListedPower) : ∀ c ∈ power.entry, isIdChar c = true := by
  cases power with
  | dozeWhitelist pkg => exact pkg.idChars
  | dataSaverBypass appUid =>
    intro c hc
    have hdigit : ∀ d < 10, isIdChar d.digitChar = true := by decide
    obtain ⟨d, hd, rfl⟩ := exists_digit_of_mem_decimal hc
    exact hdigit d hd

theorem readBackable_op (power : ListedPower) : power.op.readBackable = true := by
  cases power <;> rfl

/-- The power is shown by a list that has the text of the entry inside one of its entries. -/
theorem isHeld_op_iff (power : ListedPower) (r : ShellResult) :
    PowerCatalogue.isHeld power.op r = true ↔
      r.ok = true ∧ ∃ e ∈ entries r.value, power.entry <:+: e := by
  have hheld : PowerCatalogue.isHeld power.op r =
      (r.ok && PowerCatalogue.contains r.value power.entry) := by
    cases power with
    | dozeWhitelist pkg => rfl
    | dataSaverBypass appUid =>
      rfl
  have hsep : ∀ c ∈ power.entry, (!isIdChar c) = false := fun c hc => by
    rw [power.isIdChar_entry c hc]
    rfl
  rw [hheld, Bool.and_eq_true, PowerCatalogue.contains, decide_eq_true_iff,
    infix_iff_exists_mem_splitOnP hsep]
  refine and_congr_right fun _ => exists_congr fun e => ?_
  rw [entries, mem_nonEmpty]
  constructor
  · rintro ⟨he, hin⟩
    refine ⟨⟨he, ?_⟩, hin⟩
    rintro rfl
    exact power.entry_ne_nil (infix_nil.mp hin)
  · rintro ⟨⟨he, -⟩, hin⟩
    exact ⟨he, hin⟩

end ListedPower

namespace GrantEngine

variable (digitOf : Char → Option ℕ) (session : Session)

/-- **When a listed power is held on the app's own evidence**: when no list that came back
has the app's entry inside a longer one only. -/
theorem held_on_own_evidence_iff (ran : List Str) (power : ListedPower) :
    ((apply digitOf session ran power.op).held = true →
      ∃ r ∈ readBacks digitOf session ran power.op,
        r.ok = true ∧ power.entry ∈ entries r.value) ↔
    ∀ r ∈ readBacks digitOf session ran power.op, r.ok = true →
      (∃ e ∈ entries r.value, power.entry <:+: e) → power.entry ∈ entries r.value := by
  rw [held_iff digitOf session power.readBackable_op]
  constructor
  · intro h r hr hok hin
    have hheld := (power.isHeld_op_iff r).mpr ⟨hok, hin⟩
    obtain ⟨r', hr', hok', hlisted⟩ := h ⟨r, hr, hheld⟩
    have hheld' := (power.isHeld_op_iff r').mpr ⟨hok', _, hlisted, infix_rfl⟩
    rwa [readBacks_unique digitOf session hr hr' hheld hheld']
  · rintro h ⟨r, hr, hheld⟩
    obtain ⟨hok, hin⟩ := (power.isHeld_op_iff r).mp hheld
    exact ⟨r, hr, hok, h r hr hok hin⟩

/-- A shell that answers every command with one line and a clean exit. -/
def answering (line : Str) : Session :=
  fun _ _ => .ok ⟨0, line ++ '\n' :: AdbSentinel.mark ++ "0\n".toList, []⟩

/-- The list has the copy of the app in a work profile, and the app counts as listed. -/
theorem work_profile_counts_as_own :
    let session := answering "Restrict background whitelisted UIDs: 1010123".toList
    let power := ListedPower.dataSaverBypass 10123
    (apply (toDigit 10) session [] power.op).held = true ∧
      ∀ r ∈ readBacks (toDigit 10) session [] power.op, power.entry ∉ entries r.value := by
  decide +kernel

end GrantEngine

end Elevation
end TortaCore
