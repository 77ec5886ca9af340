import Mathlib.Data.List.Forall2
import TortaCore.Net.IpAddr
import TortaCore.Text.Slice
import TortaCore.Text.Utf8

/-!
# Two filters of one resolver list

The list of public resolvers is a text with a heading and a stamp for each server.  It is filtered
twice by the same settings: by the rotation, in `RotationPoolSource.kt` and `RotationSelector.kt`,
and by the manual picker, in `resolver/mod.rs`, `resolver/dnscrypt.rs` and `torta_ui`.  Each side
has its own line scan, its own notion of white space, its own decoder of the stamp's fields, its
own test of the protocol and its own classifier of addresses.

Base64 decoding is a parameter, the same on both sides.  The ping address and the operator family
of a candidate, which no filter reads, are left out.

## Main definitions

* `Rotation.admits`: what the rotation admits.
* `Picker.shows`: what the picker shows.
-/

namespace TortaCore
namespace Resolver
namespace Stamp

open Text Net List

/-- The settings of the server types. -/
structure ServerConfig where
  dnscryptServers : Bool
  dohServers : Bool
  odohServers : Bool
  requireDnssec : Bool
  requireNolog : Bool
  requireNofilter : Bool
  ipv4Servers : Bool
  ipv6Servers : Bool

def sdnsPrefix : Str := "sdns://".toList

def headingPrefix : Str := "## ".toList

def protoDnscrypt : UInt8 := 0x01

def protoRelay : UInt8 := 0x81

def bit (b : UInt8) (i : ℕ) : Bool := b.toNat.testBit i

variable (decode : Str → Option Bytes)

/-! ### The rotation -/

namespace Rotation

/-- `Char.isWhitespace` of Kotlin: it has the four separators and lacks the next-line character. -/
def isWhitespaceKt (c : Char) : Bool :=
  (isWhitespace c && c.toNat != 0x85) || (0x1C ≤ c.toNat && c.toNat ≤ 0x1F)

def trimKt (s : Str) : Str := (s.dropWhile isWhitespaceKt).rdropWhile isWhitespaceKt

def isBlank (s : Str) : Bool := s.all isWhitespaceKt

/-- `File.readLines`, with the line read so far: a line ends in a line feed, a carriage return or
both. -/
def readLinesFrom (line : Str) : Str → List Str
  | [] => if line.isEmpty then [] else [line]
  | '\r' :: '\n' :: rest => line :: readLinesFrom [] rest
  | '\r' :: rest => line :: readLinesFrom [] rest
  | '\n' :: rest => line :: readLinesFrom [] rest
  | c :: rest => readLinesFrom (line ++ [c]) rest

def readLines (text : Str) : List Str := readLinesFrom [] text

def isCleanToken (s : Str) : Bool :=
  !s.isEmpty && s.all fun c => !(c == '"' || c == '\'' || c == '\\' || c.toNat < 0x20)

/-- The loop of `scanNamedStamps`, with the pending name. -/
def scanFrom (pendingName : Option Str) : List Str → List (Str × Str)
  | [] => []
  | raw :: rest =>
    let line := trimKt raw
    if headingPrefix.isPrefixOf line then
      scanFrom (some (trimKt (line.drop headingPrefix.length))) rest
    else
      match pendingName with
      | none => scanFrom none rest
      | some name =>
        if sdnsPrefix.isPrefixOf line && !isBlank name then
          let stamp := line.takeWhile (· != ' ')
          if isCleanToken name && isCleanToken stamp then (name, stamp) :: scanFrom none rest
          else scanFrom none rest
        else scanFrom (some name) rest

def scanNamedStamps (lines : List Str) : List (Str × Str) := scanFrom none lines

structure ResolverCandidate where
  id : Str
  dnssec : Bool
  noLog : Bool
  noFilter : Bool
  dnsCrypt : Bool
  rttMs : ℤ
  reachable : Bool
  ipv4 : Bool
  ipv6 : Bool

structure StampedCandidate where
  candidate : ResolverCandidate
  sdns : Str

/-- An octet of a dotted quad, by its digits. -/
def isOctet (o : Str) : Bool :=
  !o.isEmpty && o.length ≤ 3 && o.all (fun c => '0' ≤ c && c ≤ '9') && digitsValue 10 o ≤ 255

def familyOfAddr (addr : Str) : Bool × Bool :=
  let a := trimKt addr
  if a.isEmpty then (true, true)
  else if a.head? = some '[' then (false, true)
  else if 2 ≤ a.count ':' then (false, true)
  else
    let octets := (a.takeWhile (· != ':')).splitOn '.'
    if octets.length = 4 && octets.all isOctet then (true, false) else (true, true)

def stampFamily (proto : UInt8) (bin : Bytes) : Bool × Bool :=
  let lenPos := if proto = protoRelay then 1 else 1 + 8
  let len := (bin[lenPos]?.getD 0).toNat
  let start := lenPos + 1
  if len = 0 ∨ bin.length < start + len then (true, true)
  else familyOfAddr (fromUtf8Lossy ((bin.drop start).take len))

def decodeStampBytes (name sdns : Str) (bin : Bytes) : Option StampedCandidate :=
  match bin with
  | proto :: props :: _ =>
    let fam := stampFamily proto bin
    some
      { candidate :=
          { id := name
            dnssec := bit props 0
            noLog := bit props 1
            noFilter := bit props 2
            dnsCrypt := proto == protoDnscrypt
            rttMs := 0
            reachable := true
            ipv4 := fam.1
            ipv6 := fam.2 }
        sdns := sdns }
  | _ => none

/-- `removePrefix("sdns://")`. -/
def removeSdns (sdns : Str) : Str :=
  if sdnsPrefix.isPrefixOf sdns then sdns.drop sdnsPrefix.length else sdns

def decodeStamped (name sdns : Str) : Option StampedCandidate :=
  (decode (removeSdns sdns)).bind (decodeStampBytes name sdns)

structure RotationPolicy where
  requireNoLog : Bool
  requireDnssec : Bool
  allowDnsCrypt : Bool
  allowDoh : Bool
  requireNoFilter : Bool
  allowIpv4 : Bool
  allowIpv6 : Bool

def policyFromConfig (cfg : ServerConfig) : RotationPolicy where
  requireNoLog := cfg.requireNolog
  requireDnssec := cfg.requireDnssec
  allowDnsCrypt := cfg.dnscryptServers
  allowDoh := cfg.dohServers
  requireNoFilter := cfg.requireNofilter
  allowIpv4 := cfg.ipv4Servers
  allowIpv6 := cfg.ipv6Servers

/-- The test of `filterTrusted`. -/
def trusted (policy : RotationPolicy) (c : ResolverCandidate) : Bool :=
  !isBlank c.id && c.reachable && 0 ≤ c.rttMs && (!policy.requireNoLog || c.noLog) &&
    (!policy.requireDnssec || c.dnssec) && (!policy.requireNoFilter || c.noFilter) &&
    ((policy.allowDnsCrypt && c.dnsCrypt) || (policy.allowDoh && !c.dnsCrypt)) &&
    ((policy.allowIpv4 && c.ipv4) || (policy.allowIpv6 && c.ipv6))

/-- The entries that the rotation admits. -/
def admits (text : Str) (cfg : ServerConfig) : List (Str × Str) :=
  (((scanNamedStamps (readLines text)).filterMap fun e => decodeStamped decode e.1 e.2).filter
    fun c => trusted (policyFromConfig cfg) c.candidate).map fun c => (c.candidate.id, c.sdns)

end Rotation

/-! ### The picker -/

namespace Picker

inductive ProtoLabel where
  | dnscrypt
  | doh
  | doq
  | odoh
  | relay
  | odohRelay
  | other
  deriving DecidableEq

/-- The bytes of a stamp: `stamp.trim().strip_prefix("sdns://")`, decoded. -/
def stampBytes (stamp : Str) : Option Bytes :=
  if sdnsPrefix.isPrefixOf (trim stamp) then decode ((trim stamp).drop sdnsPrefix.length) else none

def protoLabelOf : Bytes → ProtoLabel
  | [] => .other
  | b :: _ =>
    if b = protoDnscrypt then .dnscrypt
    else if b = 0x02 then .doh
    else if b = 0x04 then .doq
    else if b = 0x05 then .odoh
    else if b = protoRelay then .relay
    else if b = 0x85 then .odohRelay
    else .other

def stampProtoLabel (stamp : Str) : ProtoLabel :=
  ((stampBytes decode stamp).map protoLabelOf).getD .other

def propsOf : Bytes → Bool × Bool × Bool
  | proto :: p :: _ =>
    if proto = protoRelay then (false, false, false) else (bit p 0, bit p 1, bit p 2)
  | _ => (false, false, false)

def stampProps (stamp : Str) : Bool × Bool × Bool :=
  ((stampBytes decode stamp).map propsOf).getD (false, false, false)

def readLp (bytes : Bytes) (pos : ℕ) : Option Bytes :=
  bytes[pos]?.bind fun len =>
    if bytes.length < pos + 1 + len.toNat then none
    else some ((bytes.drop (pos + 1)).take len.toNat)

def familyOfIp : IpAddr → Bool × Bool
  | .v4 _ => (true, false)
  | .v6 _ => (false, true)

def familyOfAddr (addr : Str) : Bool × Bool :=
  let a := trim addr
  if a.isEmpty || a.head? == some ':' then (true, true)
  else
    match SocketAddr.parse a with
    | some sa => familyOfIp sa.ip
    | none =>
      match IpAddr.parse a with
      | some ip => familyOfIp ip
      | none =>
        if a.head? = some '[' ∧ a.tail.getLast? = some ']' ∧
            (Ipv6Addr.parse a.tail.dropLast).isSome then (false, true)
        else (true, true)

def addrFamilyOf (bytes : Bytes) : Bool × Bool :=
  match bytes with
  | [] => (true, true)
  | proto :: _ =>
    match (readLp bytes (if proto = protoRelay then 1 else 1 + 8)).bind fromUtf8 with
    | some addr => familyOfAddr addr
    | none => (true, true)

def stampAddrFamily (stamp : Str) : Bool × Bool :=
  ((stampBytes decode stamp).map addrFamilyOf).getD (true, true)

structure PickerEntry where
  name : Str
  proto : ProtoLabel
  stamp : Str
  dnssec : Bool
  noLog : Bool
  noFilter : Bool

/-- The row of a name and a stamp. -/
def entryOf (name stamp : Str) : PickerEntry where
  name := name
  proto := stampProtoLabel decode stamp
  stamp := stamp
  dnssec := (stampProps decode stamp).1
  noLog := (stampProps decode stamp).2.1
  noFilter := (stampProps decode stamp).2.2

/-- The loop of `scan_picker_lines`, with the pending name. -/
def scanFrom (pendingName : Option Str) : List Str → List PickerEntry
  | [] => []
  | line :: rest =>
    let l := trim line
    if headingPrefix.isPrefixOf l then scanFrom (some (trim (l.drop headingPrefix.length))) rest
    else if sdnsPrefix.isPrefixOf l then
      match pendingName with
      | some name => entryOf decode name l :: scanFrom none rest
      | none => scanFrom none rest
    else scanFrom pendingName rest

def scanPickerLines (text : Str) : List PickerEntry := scanFrom decode none (lines text)

/-- The test of `build_server_rows`. -/
def rowOk (cfg : ServerConfig) (e : PickerEntry) : Bool :=
  let typeOk := (e.proto == .dnscrypt && cfg.dnscryptServers) ||
    (e.proto == .doh && cfg.dohServers) || (e.proto == .odoh && cfg.odohServers)
  let reqOk := (!cfg.requireDnssec || e.dnssec) && (!cfg.requireNolog || e.noLog) &&
    (!cfg.requireNofilter || e.noFilter)
  let fam := stampAddrFamily decode e.stamp
  let familyOk := (cfg.ipv4Servers && fam.1) || (cfg.ipv6Servers && fam.2)
  typeOk && reqOk && familyOk

/-- The entries that the picker shows. -/
def shows (text : Str) (cfg : ServerConfig) : List (Str × Str) :=
  ((scanPickerLines decode text).filter (rowOk decode cfg)).map fun e => (e.name, e.stamp)

end Picker

/-! ### The servers of a list -/

def trimBy (white : Char → Bool) (s : Str) : Str := (s.dropWhile white).rdropWhile white

/-- Each heading with the next stamp line behind it, without the white space around them. -/
def servers (white : Char → Bool) (pending : Option Str) : List Str → List (Str × Str)
  | [] => []
  | raw :: rest =>
    let line := trimBy white raw
    if headingPrefix.isPrefixOf line then
      servers white (some (trimBy white (line.drop headingPrefix.length))) rest
    else if sdnsPrefix.isPrefixOf line then
      (pending.map (·, line)).toList ++ servers white none rest
    else servers white pending rest

def upToSpace (line : Str) : Str := line.takeWhile (· != ' ')

def isClean (s : Str × Str) : Bool :=
  Rotation.isCleanToken s.1 && Rotation.isCleanToken (upToSpace s.2)

/-- Name and stamp are clean, and the stamp has at least two bytes. -/
def rotates (s : Str × Str) : Bool :=
  isClean s && (decode (Rotation.removeSdns (upToSpace s.2))).any (2 ≤ ·.length)

/-- The stamp begins with the protocol of DNSCrypt or DNS over HTTPS. -/
def shown (s : Str × Str) : Bool :=
  (Picker.stampBytes decode s.2).any fun bin => bin.head? == some 0x01 || bin.head? == some 0x02

/-- What the rotation takes for an IPv6 address: a bracket in front, or two colons. -/
def LooksV6 (a : Str) : Prop := a.head? = some '[' ∨ 2 ≤ a.count ':'

/-- What it takes for an IPv4 address: four groups of up to three digits in front of a port. -/
def LooksV4 (a : Str) : Prop :=
  ¬LooksV6 a ∧ ((a.takeWhile (· != ':')).splitOn '.').length = 4 ∧
    ((a.takeWhile (· != ':')).splitOn '.').all Rotation.isOctet = true

/-- The address that the picker reads: with a port, without one, or IPv6 in brackets. -/
def literal (a : Str) : Option IpAddr :=
  if a.head? = some ':' then none
  else ((SocketAddr.parse a).map SocketAddr.ip).or ((IpAddr.parse a).or
    (if a.head? = some '[' ∧ a.tail.getLast? = some ']' then
      (Ipv6Addr.parse a.tail.dropLast).map .v6 else none))

/-- The address field of the stamp, if it is complete, looks like an address of a family to the
rotation exactly if it is UTF-8 and reads as one to the picker. -/
def AddressAgrees (bin : Bytes) : Prop :=
  ∀ field, Picker.readLp bin 9 = some field →
    let a := Rotation.trimKt (fromUtf8Lossy field)
    let lit := (fromUtf8 field).bind fun s => literal (trim s)
    (LooksV4 a ↔ ∃ ip, lit = some (.v4 ip)) ∧ (LooksV6 a ↔ ∃ ip, lit = some (.v6 ip))

/-- Server by server, in order: an address that both read alike, the same name, and nothing behind
the stamp on its line. -/
def SameServers (text : Str) : Prop :=
  Forall₂ (fun p r => (∀ bin, Picker.stampBytes decode p.2 = some bin → AddressAgrees bin) ∧
      p = (r.1, upToSpace r.2))
    ((servers isWhitespace none (lines text)).filter (shown decode))
    ((servers Rotation.isWhitespaceKt none (Rotation.readLines text)).filter (rotates decode))

variable {ls : List Str} {pending : Option Str}

theorem trimBy_ne_nil {white : Char → Bool} {s : Str} {c : Char} (hc : c ∈ s)
    (h : white c = false) : trimBy white s ≠ [] := by
  intro hnil
  rw [trimBy, rdropWhile_eq_nil_iff] at hnil
  cases hdrop : s.dropWhile white with
  | nil => exact ne_true_of_eq_false h (dropWhile_eq_nil_iff.mp hdrop c hc)
  | cons d rest =>
    have hhead := head_dropWhile_not white (l := s) (by simp [hdrop])
    simp only [hdrop, head_cons] at hhead
    exact ne_true_of_eq_false hhead (hnil d (by simp [hdrop]))

/-- A name behind a heading is not blank. -/
theorem not_isBlank_heading {raw : Str}
    (h : headingPrefix.isPrefixOf (Rotation.trimKt raw) = true) :
    Rotation.isBlank (Rotation.trimKt ((Rotation.trimKt raw).drop headingPrefix.length)) =
      false := by
  have hlast : ∀ s hne, ¬Rotation.isWhitespaceKt ((Rotation.trimKt s).getLast hne) = true :=
    fun s hne => rdropWhile_last_not _ _ hne
  obtain ⟨t, ht⟩ := isPrefixOf_iff_prefix.mp h
  rw [← ht, drop_left]
  have hline := hlast raw (by rw [← ht]; exact cons_ne_nil _ _)
  simp only [← ht] at hline
  rcases eq_nil_or_concat t with rfl | ⟨t, c, rfl⟩
  · exact absurd rfl hline
  · simp only [concat_eq_append, ← append_assoc, getLast_append_singleton] at hline
    have hne : Rotation.trimKt (t ++ [c]) ≠ [] :=
      trimBy_ne_nil (mem_append_right t mem_cons_self) (Bool.not_eq_true _ ▸ hline)
    rw [concat_eq_append, Rotation.isBlank, all_eq_false]
    exact ⟨_, getLast_mem hne, hlast _ hne⟩

theorem scanFrom_rotation (hname : ∀ name ∈ pending, Rotation.isBlank name = false) :
    Rotation.scanFrom pending ls =
      ((servers Rotation.isWhitespaceKt pending ls).filter isClean).map
        (fun s => (s.1, upToSpace s.2)) ∧
    ∀ s ∈ servers Rotation.isWhitespaceKt pending ls, Rotation.isBlank s.1 = false := by
  induction ls generalizing pending with
  | nil => exact ⟨rfl, fun s hs => by cases hs⟩
  | cons raw ls ih =>
    rw [Rotation.scanFrom.eq_def, servers, show trimBy Rotation.isWhitespaceKt = Rotation.trimKt
      from rfl]
    dsimp only
    split
    · next hhead => exact ih (by simpa using not_isBlank_heading hhead)
    cases pending with
    | none =>
      simp only [Option.map_none, Option.toList_none, nil_append, ite_self]
      exact ih hname
    | some name =>
      have hblank := hname name rfl
      simp only [hblank, Bool.not_false, Bool.and_true]
      split
      · obtain ⟨hscan, hnames⟩ := @ih none (by simp)
        rw [Option.map_some, Option.toList_some, singleton_append, filter_cons]
        refine ⟨?_, forall_mem_cons.mpr ⟨hblank, hnames⟩⟩
        rw [hscan, apply_ite (map _)]
        rfl
      · exact ih hname

theorem scanFrom_picker : Picker.scanFrom decode pending ls =
    (servers isWhitespace pending ls).map fun s => Picker.entryOf decode s.1 s.2 := by
  induction ls generalizing pending with
  | nil => rfl
  | cons line ls ih =>
    rw [Picker.scanFrom.eq_def, servers]
    change (if headingPrefix.isPrefixOf (trim line) = true then _ else _) = map _
      (if headingPrefix.isPrefixOf (trim line) = true then _ else _)
    split
    · exact ih
    change (if sdnsPrefix.isPrefixOf (trim line) = true then _ else _) = map _
      (if sdnsPrefix.isPrefixOf (trim line) = true then _ else _)
    split
    · cases pending with
      | none => exact ih
      | some name => exact congrArg _ ih
    · exact ih

theorem trim_of_mem_servers {s : Str × Str} (h : s ∈ servers isWhitespace pending ls) :
    trim s.2 = s.2 := by
  induction ls generalizing pending with
  | nil => cases h
  | cons line ls ih =>
    rw [servers] at h
    split at h
    · exact ih h
    split at h
    · rcases mem_append.mp h with h | h
      · obtain ⟨name, -, rfl⟩ := Option.map_eq_some_iff.mp (Option.mem_toList.mp h)
        exact trim_trim line
      · exact ih h
    · exact ih h

/-- The family of a stamp as the rotation sees it. -/
def rotationFamily (stamp : Str) : Bool × Bool :=
  ((decode (Rotation.removeSdns stamp)).map fun bin => Rotation.stampFamily (bin.headD 0) bin).getD
    (true, true)

/-- The entries that some settings let the rotation use. -/
def rotationPool (text : Str) : List (Str × Str) :=
  ((servers Rotation.isWhitespaceKt none (Rotation.readLines text)).filter (rotates decode)).map
    fun s => (s.1, upToSpace s.2)

/-- The entries that some settings let the picker show. -/
def pickerPool (text : Str) : List (Str × Str) :=
  (servers isWhitespace none (lines text)).filter (shown decode)

/-- What the settings ask of a candidate. -/
def rotationOk (cfg : ServerConfig) (e : Str × Str) : Bool :=
  ((Rotation.decodeStamped decode e.1 e.2).map fun c =>
    Rotation.trusted (Rotation.policyFromConfig cfg) c.candidate).getD false

variable {e : Str × Str} {text : Str}

theorem decodeStamped_eq_some {c : Rotation.StampedCandidate}
    (h : Rotation.decodeStamped decode e.1 e.2 = some c) :
    (c.candidate.id, c.sdns) = e ∧ ∃ proto props rest,
      decode (Rotation.removeSdns e.2) = some (proto :: props :: rest) ∧
      Rotation.decodeStampBytes e.1 e.2 (proto :: props :: rest) = some c := by
  obtain ⟨bin, hbin, hc⟩ := Option.bind_eq_some_iff.mp h
  match bin with
  | [] => cases hc
  | [_] => cases hc
  | proto :: props :: rest =>
    refine ⟨?_, proto, props, rest, hbin, hc⟩
    cases hc
    rfl

/-- The candidates that are trusted are the entries they were decoded from. -/
theorem map_filter_decodeStamped (cfg : ServerConfig) (es : List (Str × Str)) :
    ((es.filterMap fun e => Rotation.decodeStamped decode e.1 e.2).filter fun c =>
      Rotation.trusted (Rotation.policyFromConfig cfg) c.candidate).map
        (fun c => (c.candidate.id, c.sdns)) = es.filter (rotationOk decode cfg) := by
  induction es with
  | nil => rfl
  | cons e es ih =>
    rw [filterMap_cons]
    cases hdec : Rotation.decodeStamped decode e.1 e.2 with
    | none =>
      rw [filter_cons_of_neg (by simp [rotationOk, hdec])]
      exact ih
    | some c =>
      have hid := (decodeStamped_eq_some decode hdec).1
      rw [filter_cons]
      by_cases htrust : Rotation.trusted (Rotation.policyFromConfig cfg) c.candidate = true
      · rw [if_pos htrust, map_cons, hid, ih,
          filter_cons_of_pos (by simp [rotationOk, hdec, htrust])]
      · rw [if_neg htrust, ih, filter_cons_of_neg (by simp [rotationOk, hdec, htrust])]

/-- What is admitted are the entries of the pool that the settings let through. -/
theorem admits_eq (text : Str) (cfg : ServerConfig) :
    Rotation.admits decode text cfg =
      (rotationPool decode text).filter (rotationOk decode cfg) := by
  rw [Rotation.admits, map_filter_decodeStamped, Rotation.scanNamedStamps,
    (scanFrom_rotation (by simp)).1, rotationPool, filter_map, filter_map, filter_filter,
    filter_filter]
  congr 1
  refine filter_congr fun s _ => ?_
  rw [rotates, Function.comp_apply]
  cases hok : rotationOk decode cfg (s.1, upToSpace s.2) with
  | false => rfl
  | true =>
    -- an entry that is let through decodes
    cases hdec : Rotation.decodeStamped decode s.1 (upToSpace s.2) with
    | none => simp [rotationOk, hdec] at hok
    | some c =>
      obtain ⟨-, proto, props, rest, hbytes, -⟩ :=
        decodeStamped_eq_some decode (e := (s.1, upToSpace s.2)) hdec
      simp [hbytes]

/-- What the settings ask of a row. -/
def pickerOk (cfg : ServerConfig) (e : Str × Str) : Bool :=
  Picker.rowOk decode cfg (Picker.entryOf decode e.1 e.2)

theorem protoLabelOf_eq_dnscrypt_iff {b : UInt8} {bs : Bytes} :
    Picker.protoLabelOf (b :: bs) = .dnscrypt ↔ b = 0x01 := by
  unfold Picker.protoLabelOf
  grind [protoDnscrypt, protoRelay]

theorem protoLabelOf_eq_doh_iff {b : UInt8} {bs : Bytes} :
    Picker.protoLabelOf (b :: bs) = .doh ↔ b = 0x02 := by
  unfold Picker.protoLabelOf
  grind [protoDnscrypt, protoRelay]

/-- What is shown are the entries of the pool that the settings let through. -/
theorem shows_eq (text : Str) {cfg : ServerConfig} (hodoh : cfg.odohServers = false) :
    Picker.shows decode text cfg = (pickerPool decode text).filter (pickerOk decode cfg) := by
  rw [Picker.shows, Picker.scanPickerLines, scanFrom_picker, filter_map, map_map, pickerPool,
    filter_filter]
  refine (map_id _).trans (filter_congr fun s _ => ?_)
  rw [Function.comp_apply, ← pickerOk]
  cases hok : pickerOk decode cfg s with
  | false => rfl
  | true =>
    simp only [pickerOk, Picker.rowOk, hodoh, Bool.and_eq_true, Bool.and_false, Bool.or_false,
      Bool.or_eq_true, Picker.entryOf, Picker.stampProtoLabel, beq_iff_eq] at hok
    rw [Bool.true_and, eq_comm, shown]
    cases hbytes : Picker.stampBytes decode s.2 with
    | none => simp [hbytes] at hok
    | some bytes =>
      cases bytes with
      | nil => simp [hbytes, Picker.protoLabelOf] at hok
      | cons b bs =>
        simp only [hbytes, Option.map_some, Option.getD_some, protoLabelOf_eq_dnscrypt_iff,
          protoLabelOf_eq_doh_iff] at hok
        simpa using hok.1.1.imp And.left And.left

/-! ### When they agree -/

/-- The three requirements, of the properties of a stamp. -/
def requirementsMet (cfg : ServerConfig) (props : UInt8) : Bool :=
  (!cfg.requireDnssec || bit props 0) && (!cfg.requireNolog || bit props 1) &&
    (!cfg.requireNofilter || bit props 2)

def familyMet (cfg : ServerConfig) (fam : Bool × Bool) : Bool :=
  (cfg.ipv4Servers && fam.1) || (cfg.ipv6Servers && fam.2)

theorem rotationOk_eq {proto props : UInt8} {rest : Bytes} (cfg : ServerConfig)
    (hdec : decode (Rotation.removeSdns e.2) = some (proto :: props :: rest))
    (hname : Rotation.isBlank e.1 = false) :
    rotationOk decode cfg e = (requirementsMet cfg props &&
      ((cfg.dnscryptServers && proto == protoDnscrypt) ||
        (cfg.dohServers && !(proto == protoDnscrypt))) &&
      familyMet cfg (rotationFamily decode e.2)) := by
  rw [rotationOk, Rotation.decodeStamped, hdec, rotationFamily, hdec]
  simp only [Option.bind_some, Rotation.decodeStampBytes, Option.map_some, Option.getD_some,
    Rotation.trusted, Rotation.policyFromConfig, hname, requirementsMet, familyMet, headD_cons]
  simp only [Bool.not_false, Bool.true_and, Std.le_refl, decide_true]
  ac_rfl

theorem pickerOk_eq {proto props : UInt8} {rest : Bytes} {cfg : ServerConfig}
    (hodoh : cfg.odohServers = false)
    (hbytes : Picker.stampBytes decode e.2 = some (proto :: props :: rest))
    (hproto : proto = 0x01 ∨ proto = 0x02) :
    pickerOk decode cfg e = (requirementsMet cfg props &&
      ((cfg.dnscryptServers && proto == protoDnscrypt) ||
        (cfg.dohServers && !(proto == protoDnscrypt))) &&
      familyMet cfg (Picker.stampAddrFamily decode e.2)) := by
  have hrelay : proto ≠ protoRelay := by
    rcases hproto with rfl | rfl
    · decide
    · decide
  have htype : (Picker.protoLabelOf (proto :: props :: rest) == .dnscrypt) =
        (proto == protoDnscrypt) ∧
      (Picker.protoLabelOf (proto :: props :: rest) == .doh) = !(proto == protoDnscrypt) := by
    rcases hproto with rfl | rfl
    · exact ⟨rfl, rfl⟩
    · exact ⟨rfl, rfl⟩
  rw [pickerOk, Picker.rowOk]
  simp only [Picker.entryOf, Picker.stampProtoLabel, Picker.stampProps, hbytes, Option.map_some,
    Option.getD_some, Picker.propsOf, if_neg hrelay, requirementsMet, familyMet, hodoh, htype,
    Bool.and_false, Bool.or_false]
  ac_rfl

theorem rotationFamily_ne_none (stamp : Str) :
    ((rotationFamily decode stamp).1 || (rotationFamily decode stamp).2) = true := by
  have haddr : ∀ addr,
      ((Rotation.familyOfAddr addr).1 || (Rotation.familyOfAddr addr).2) = true := by
    intro addr
    unfold Rotation.familyOfAddr
    grind
  unfold rotationFamily
  cases decode (Rotation.removeSdns stamp) with
  | none => rfl
  | some bin =>
    unfold Rotation.stampFamily
    grind

theorem stampAddrFamily_ne_none (stamp : Str) :
    ((Picker.stampAddrFamily decode stamp).1 ||
      (Picker.stampAddrFamily decode stamp).2) = true := by
  have hip : ∀ ip, ((Picker.familyOfIp ip).1 || (Picker.familyOfIp ip).2) = true := by
    intro ip
    cases ip <;> rfl
  have haddr : ∀ addr, ((Picker.familyOfAddr addr).1 || (Picker.familyOfAddr addr).2) = true := by
    intro addr
    unfold Picker.familyOfAddr
    grind
  unfold Picker.stampAddrFamily
  cases Picker.stampBytes decode stamp with
  | none => rfl
  | some bytes =>
    unfold Picker.addrFamilyOf
    grind

/-- An entry of the rotation's pool has its two leading bytes and a name. -/
theorem mem_rotationPool (h : e ∈ rotationPool decode text) :
    Rotation.isBlank e.1 = false ∧ ∃ proto props rest,
      decode (Rotation.removeSdns e.2) = some (proto :: props :: rest) := by
  obtain ⟨s, hs, rfl⟩ := mem_map.mp h
  obtain ⟨hserver, hrot⟩ := mem_filter.mp hs
  refine ⟨(scanFrom_rotation (by simp)).2 s hserver, ?_⟩
  simp only [rotates, Bool.and_eq_true, Option.any_eq_true, decide_eq_true_eq] at hrot
  obtain ⟨-, bin, hbin, hlen⟩ := hrot
  match bin with
  | proto :: props :: rest => exact ⟨proto, props, rest, hbin⟩

/-- An entry of the picker's pool is of one of the two kinds; the rotation would decode the same
bytes. -/
theorem mem_pickerPool (h : e ∈ pickerPool decode text) :
    ∃ proto rest, Picker.stampBytes decode e.2 = some (proto :: rest) ∧
      (proto = 0x01 ∨ proto = 0x02) ∧
      decode (Rotation.removeSdns e.2) = some (proto :: rest) := by
  obtain ⟨hserver, hshow⟩ := mem_filter.mp h
  obtain ⟨bin, hbin, hproto⟩ := (Option.any_eq_true _ _).mp hshow
  cases bin with
  | nil => cases hproto
  | cons proto rest =>
    refine ⟨proto, rest, hbin, by simpa using hproto, ?_⟩
    rw [Picker.stampBytes, trim_of_mem_servers hserver] at hbin
    rw [Rotation.removeSdns]
    split at hbin
    next hpre => rw [if_pos hpre, hbin]
    next => cases hbin

/-- All kinds, no requirement and the given families. -/
def permissive (ipv4 ipv6 : Bool) : ServerConfig where
  dnscryptServers := true
  dohServers := true
  odohServers := false
  requireDnssec := false
  requireNolog := false
  requireNofilter := false
  ipv4Servers := ipv4
  ipv6Servers := ipv6

theorem rotationOk_permissive (h : e ∈ rotationPool decode text)
    (ipv4 ipv6 : Bool) : rotationOk decode (permissive ipv4 ipv6) e =
      familyMet (permissive ipv4 ipv6) (rotationFamily decode e.2) := by
  obtain ⟨hname, proto, props, rest, hdec⟩ := mem_rotationPool decode h
  rw [rotationOk_eq decode _ hdec hname]
  simp [requirementsMet, permissive]

theorem pickerOk_permissive (h : e ∈ pickerPool decode text)
    (ipv4 ipv6 : Bool) : pickerOk decode (permissive ipv4 ipv6) e =
      familyMet (permissive ipv4 ipv6) (Picker.stampAddrFamily decode e.2) := by
  obtain ⟨proto, rest, hbytes, hproto, -⟩ := mem_pickerPool decode h
  have hlabel : Picker.protoLabelOf (proto :: rest) = .dnscrypt ∨
      Picker.protoLabelOf (proto :: rest) = .doh :=
    hproto.imp protoLabelOf_eq_dnscrypt_iff.mpr protoLabelOf_eq_doh_iff.mpr
  simp [pickerOk, Picker.rowOk, Picker.entryOf, Picker.stampProtoLabel, permissive, familyMet,
    hbytes, hlabel]

theorem rotation_familyOfAddr (addr : Str) :
    ((Rotation.familyOfAddr addr).1 = true ↔ ¬LooksV6 (Rotation.trimKt addr)) ∧
      ((Rotation.familyOfAddr addr).2 = true ↔ ¬LooksV4 (Rotation.trimKt addr)) := by
  unfold Rotation.familyOfAddr LooksV4 LooksV6
  cases Rotation.trimKt addr with
  | nil => simp
  | cons c a => grind

theorem picker_familyOfAddr (addr : Str) :
    ((Picker.familyOfAddr addr).1 = true ↔ ¬∃ ip, literal (trim addr) = some (.v6 ip)) ∧
      ((Picker.familyOfAddr addr).2 = true ↔ ¬∃ ip, literal (trim addr) = some (.v4 ip)) := by
  have hip : ∀ ip, ((Picker.familyOfIp ip).1 = true ↔ ¬∃ v, ip = .v6 v) ∧
      ((Picker.familyOfIp ip).2 = true ↔ ¬∃ v, ip = .v4 v) := by
    intro ip
    cases ip <;> simp [Picker.familyOfIp]
  dsimp only [Picker.familyOfAddr]
  by_cases hempty : trim addr = []
  · rw [hempty, show literal [] = none by decide +kernel]
    simp
  rw [isEmpty_eq_false_iff.mpr hempty, literal]
  by_cases hcolon : (trim addr).head? = some ':'
  · simp [hcolon]
  simp only [Bool.false_or, beq_iff_eq, hcolon, if_false]
  cases hsocket : SocketAddr.parse (trim addr) with
  | some sa => simpa using hip sa.ip
  | none =>
    cases hparse : IpAddr.parse (trim addr) with
    | some ip => simpa using hip ip
    | none =>
      cases hv6 : Ipv6Addr.parse (trim addr).tail.dropLast with
      | none => simp
      | some v =>
        simp only [Option.isSome_some, and_true]
        split <;> simp

theorem stampFamily_eq {proto : UInt8} (hrelay : proto ≠ protoRelay) (bin : Bytes) :
    Rotation.stampFamily proto bin = ((Picker.readLp bin 9).map fun field =>
      Rotation.familyOfAddr (fromUtf8Lossy field)).getD (true, true) := by
  dsimp only [Rotation.stampFamily]
  rw [if_neg hrelay, Picker.readLp]
  cases hlen : bin[9]? with
  | none => simp
  | some len =>
    have hbin := (List.getElem?_eq_some_iff.mp hlen).1
    by_cases hzero : len.toNat = 0
    · simp only [Option.getD_some, hzero, true_or, if_true, Option.bind_some, take_zero]
      rw [if_neg (by omega)]
      rfl
    · simp only [Option.getD_some, hzero, false_or, Option.bind_some]
      split <;> rfl

/-- The families of a stamp agree exactly if the two readings of its address do. -/
theorem stampFamily_eq_iff {proto : UInt8} {rest : Bytes} (hrelay : proto ≠ protoRelay) :
    Rotation.stampFamily proto (proto :: rest) = Picker.addrFamilyOf (proto :: rest) ↔
      AddressAgrees (proto :: rest) := by
  have hext : ∀ f f' : Bool × Bool, f = f' ↔ (f.2 = true ↔ f'.2 = true) ∧
      (f.1 = true ↔ f'.1 = true) := by
    rintro ⟨_ | _, _ | _⟩ ⟨_ | _, _ | _⟩ <;> decide
  rw [stampFamily_eq hrelay, Picker.addrFamilyOf, if_neg hrelay, AddressAgrees]
  cases Picker.readLp (proto :: rest) (1 + 8) with
  | none => simp
  | some field =>
    obtain ⟨hv6, hv4⟩ := rotation_familyOfAddr (fromUtf8Lossy field)
    simp only [Option.map_some, Option.getD_some, Option.bind_some, Option.some.injEq, forall_eq']
    rw [hext, hv6, hv4]
    cases fromUtf8 field with
    | none => simp
    | some addr =>
      obtain ⟨hlit6, hlit4⟩ := picker_familyOfAddr addr
      simp only [Option.bind_some, hlit6, hlit4, not_iff_not]

theorem sameServers_iff (text : Str) :
    SameServers decode text ↔ (∀ e ∈ pickerPool decode text,
        rotationFamily decode e.2 = Picker.stampAddrFamily decode e.2) ∧
      pickerPool decode text = rotationPool decode text := by
  rw [SameServers, forall₂_and_left, ← forall₂_map_right_iff (R := Eq), forall₂_eq_eq_eq]
  refine and_congr_left fun _ => forall₂_congr fun e he => ?_
  obtain ⟨proto, rest, hbytes, hproto, hdec⟩ := mem_pickerPool decode he
  have hrelay : proto ≠ protoRelay := by
    rcases hproto with rfl | rfl <;> decide
  rw [rotationFamily, hdec, Picker.stampAddrFamily, hbytes]
  simp [← stampFamily_eq_iff hrelay]

/-- The settings of the server types, as far as both paths know them, filter alike: the two lists
agree under all of them exactly when the lines of the text name the same servers to both. -/
theorem one_filter_set_iff (text : Str) :
    (∀ cfg : ServerConfig, cfg.odohServers = false →
        Rotation.admits decode text cfg = Picker.shows decode text cfg) ↔
      SameServers decode text := by
  rw [sameServers_iff]
  constructor
  · intro hagree
    have hfilter : ∀ ipv4 ipv6,
        (rotationPool decode text).filter (rotationOk decode (permissive ipv4 ipv6)) =
          (pickerPool decode text).filter (pickerOk decode (permissive ipv4 ipv6)) := by
      intro ipv4 ipv6
      rw [← admits_eq, ← shows_eq decode text rfl]
      exact hagree _ rfl
    -- with both families on, every server of either pool is let through
    have hpools : rotationPool decode text = pickerPool decode text := by
      have hall := hfilter true true
      rwa [filter_eq_self.mpr, filter_eq_self.mpr] at hall
      · intro e he
        rw [pickerOk_permissive decode he]
        exact stampAddrFamily_ne_none decode e.2
      · intro e he
        rw [rotationOk_permissive decode he]
        exact rotationFamily_ne_none decode e.2
    refine ⟨fun e he' => ?_, hpools.symm⟩
    have he : e ∈ rotationPool decode text := hpools ▸ he'
    have hmet : ∀ ipv4 ipv6, familyMet (permissive ipv4 ipv6) (rotationFamily decode e.2) =
        familyMet (permissive ipv4 ipv6) (Picker.stampAddrFamily decode e.2) := by
      intro ipv4 ipv6
      rw [← rotationOk_permissive decode he, ← pickerOk_permissive decode he', Bool.eq_iff_iff]
      have hmem : e ∈ (rotationPool decode text).filter (rotationOk decode (permissive ipv4 ipv6)) ↔
          e ∈ (pickerPool decode text).filter (pickerOk decode (permissive ipv4 ipv6)) := by
        rw [hfilter ipv4 ipv6]
      simpa only [mem_filter, he, he', true_and] using hmem
    refine Prod.ext ?_ ?_
    · simpa [familyMet, permissive] using hmet true false
    · simpa [familyMet, permissive] using hmet false true
  · rintro ⟨hfam, hpools⟩ cfg hodoh
    rw [admits_eq, shows_eq decode text hodoh, ← hpools]
    refine filter_congr fun e he => ?_
    obtain ⟨hname, proto, props, rest, hdec⟩ := mem_rotationPool decode (hpools ▸ he)
    obtain ⟨proto', rest', hbytes, hproto, hdec'⟩ := mem_pickerPool decode he
    rw [hdec] at hdec'
    cases hdec'
    rw [rotationOk_eq decode cfg hdec hname, pickerOk_eq decode hodoh hbytes hproto, hfam e he]

/-! ### Two lists that are filtered differently -/

def sextet (c : Char) : Option ℕ :=
  if 'A' ≤ c ∧ c ≤ 'Z' then some (c.toNat - 'A'.toNat)
  else if 'a' ≤ c ∧ c ≤ 'z' then some (c.toNat - 'a'.toNat + 26)
  else if '0' ≤ c ∧ c ≤ '9' then some (c.toNat - '0'.toNat + 52)
  else if c = '-' then some 62
  else if c = '_' then some 63
  else none

/-- The loop of `base64url_decode`, with its bit buffer. -/
def base64urlFrom (buf bits : ℕ) : Str → Option Bytes
  | [] => if 6 ≤ bits ∨ buf % 2 ^ bits ≠ 0 then none else some []
  | c :: s =>
    (sextet c).bind fun v =>
      let buf := (buf * 64 + v) % 2 ^ 32
      if 8 ≤ bits + 6 then
        (base64urlFrom buf (bits + 6 - 8) s).map
          (UInt8.ofNat (buf / 2 ^ (bits + 6 - 8)) :: ·)
      else base64urlFrom buf (bits + 6) s

/-- Unpadded base64 with the alphabet for URLs; padding is tolerated. -/
def base64urlDecode (s : Str) : Option Bytes := base64urlFrom 0 0 (trimEndMatches '=' s)

/-- The stamp of a DNS-over-QUIC server. -/
def quicStamp : Str := "sdns://BAc".toList

/-- The stamp of a DNS-over-HTTPS server at `01.2.3.4`. -/
def zeroStamp : Str := "sdns://AgcAAAAAAAAACDAxLjIuMy40".toList

/-- A DNS-over-QUIC stamp is rotated to as if it were DNS over HTTPS, and is never shown.  A
DNS-over-HTTPS stamp whose address has a leading zero is an IPv4 server to the rotation and a server
of both families to the picker, which shows it also when IPv4 is off. -/
theorem quic_stamp_is_rotated_to :
    (Rotation.admits base64urlDecode ("## a\n".toList ++ quicStamp) (permissive true true) =
        [("a".toList, quicStamp)] ∧
      Picker.shows base64urlDecode ("## a\n".toList ++ quicStamp) (permissive true true) = []) ∧
    (Rotation.admits base64urlDecode ("## a\n".toList ++ zeroStamp) (permissive false true) = [] ∧
      Picker.shows base64urlDecode ("## a\n".toList ++ zeroStamp) (permissive false true) =
        [("a".toList, zeroStamp)]) := by
  decide +kernel

end Stamp
end Resolver
end TortaCore
