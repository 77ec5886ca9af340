import Mathlib.Data.List.Count
import TortaCore.Firewall.Cidr

/-!
# What the fingerprint of the address rules tells apart

`finalize` hashes two byte strings for each rule, one with its app and network and one with the
rest, and takes the exclusive or of all hashes.  Nothing binds the two strings of a rule to each
other, and strings that occur twice cancel.

## Main definitions

* `IpRule.place`, `IpRule.terms`: what the two strings of a rule say.
* `CidrRuleSet.hashed`, `TellsApart`: the strings, and whether some string is left over in one
  of two lists only.
-/

namespace TortaCore
namespace Firewall

open Text Store Wire List

/-- The app, the family and the network. -/
abbrev Place := UInt32 × UInt8 × BitVec 128

/-- The length of the prefix, and the codes of port, protocol and status. -/
abbrev Terms := UInt8 × UInt16 × UInt8 × UInt8

def Place.bytes (p : Place) : Bytes := leBytes 4 p.1.toNat ++ p.2.1 :: leBytes 16 p.2.2.toNat

def Terms.text (t : Terms) : Str :=
  '|' :: (decimal t.1.toNat ++ '|' :: (decimal t.2.1.toNat ++ '|' :: (decimal t.2.2.1.toNat ++
    '|' :: decimal t.2.2.2.toNat)))

def IpRule.place (uid : UInt32) (r : IpRule) : Place :=
  (uid, r.network.1, BitVec.ofNat 128 r.network.2.1)

def IpRule.terms (r : IpRule) : Terms := (r.network.2.2, r.portCode, r.protoCode, r.statusCode)

theorem IpRule.digest_eq (uid : UInt32) (r : IpRule) : r.digest uid =
    ruleFnv1aBytes (r.place uid).bytes ^^^ ruleFnv1aBytes (utf8 r.terms.text) := by
  have hnet : (r.place uid).2.2.toNat = r.network.2.1 := by
    obtain ⟨_, cidr, _, _, _⟩ := r
    cases cidr with
    | v4 net => exact Nat.mod_eq_of_lt (net.isLt.trans (by decide))
    | v6 net => exact Nat.mod_eq_of_lt net.isLt
  rw [Place.bytes, hnet]
  simp [digest, place, terms, Terms.text, ruleFnv1a, decimal]

/-! ### The strings tell places and terms -/

theorem leBytes_inj {w m n : ℕ} (hm : m < 256 ^ w) (hn : n < 256 ^ w)
    (h : leBytes w m = leBytes w n) : m = n := by
  have hnat := congrArg leNat h
  rwa [leNat_leBytes, leNat_leBytes, Nat.mod_eq_of_lt hm, Nat.mod_eq_of_lt hn] at hnat

theorem bytes_injective : Function.Injective Place.bytes := by
  rintro ⟨u, f, n⟩ ⟨u', f', n'⟩ h
  obtain ⟨huid, hrest⟩ := append_inj h (by rw [length_leBytes, length_leBytes])
  obtain ⟨rfl, hnet⟩ := cons.inj hrest
  have hu : u = u' := UInt32.toNat_inj.mp (leBytes_inj u.toNat_lt u'.toNat_lt huid)
  have hn : n = n' := BitVec.toNat_inj.mp (leBytes_inj n.isLt n'.isLt hnet)
  rw [hu, hn]

theorem text_injective : Function.Injective fun t : Terms => utf8 t.text := by
  have hbar : ∀ n, '|' ∉ decimal n := notMem_decimal (by decide)
  have hdec : ∀ {m n : ℕ}, decimal m = decimal n → m = n := by
    intro m n h
    rw [← digitsValue_decimal m, h, digitsValue_decimal]
  have hsplit : ∀ t : Terms, t.text.splitOn '|' = [[], decimal t.1.toNat, decimal t.2.1.toNat,
      decimal t.2.2.1.toNat, decimal t.2.2.2.toNat] := by
    intro t
    have hjoin : t.text = ['|'].intercalate [[], decimal t.1.toNat, decimal t.2.1.toNat,
        decimal t.2.2.1.toNat, decimal t.2.2.2.toNat] := by
      simp [Terms.text, intercalate]
    rw [hjoin]
    exact splitOn_intercalate '|' (by simp [hbar]) (by simp)
  rintro ⟨a, b, c, d⟩ ⟨a', b', c', d'⟩ h
  have hfields := congrArg (splitOn '|') (utf8_injective h)
  simp only [hsplit, cons.injEq, and_true, true_and] at hfields
  obtain ⟨ha, hb, hc, hd⟩ := hfields
  rw [UInt8.toNat_inj.mp (hdec ha), UInt16.toNat_inj.mp (hdec hb), UInt8.toNat_inj.mp (hdec hc),
    UInt8.toNat_inj.mp (hdec hd)]

/-- The byte of a family is no digit and no bar. -/
theorem text_ne_bytes (uid : UInt32) (r : IpRule) (t : Terms) :
    utf8 t.text ≠ (r.place uid).bytes := by
  have hfamily : (r.place uid).2.1.toNat < 0x30 := by
    obtain ⟨_, cidr, _, _, _⟩ := r
    cases cidr with
    | v4 => exact (by decide : (4 : UInt8).toNat < 0x30)
    | v6 => exact (by decide : (6 : UInt8).toNat < 0x30)
  have htext : ∀ c ∈ t.text, c = '|' ∨ ∃ n, c ∈ decimal n := by
    intro c hc
    simp only [Terms.text, mem_cons, mem_append] at hc
    tauto
  intro h
  have hmem : (r.place uid).2.1 ∈ utf8 t.text := by
    rw [h]
    exact mem_append_right _ mem_cons_self
  obtain ⟨c, hc, hbyte⟩ := mem_flatMap.mp hmem
  have hlow := (utf8EncodeChar_of_mem_ascii hbyte (by omega)).2
  rcases htext c hc with rfl | ⟨n, hn⟩
  · exact absurd hlow (by rw [← hlow] at hfamily; exact absurd hfamily (by decide))
  obtain ⟨d, hd, rfl⟩ := exists_digit_of_mem_decimal hn
  have hall : ∀ d < 10, 0x30 ≤ (Nat.digitChar d).toNat := by decide
  have := hall d hd
  omega

/-! ### The strings of a set -/

namespace CidrRuleSet

/-- The rules with the app whose list they are in. -/
def entries (s : CidrRuleSet) : List (UInt32 × IpRule) :=
  s.byUid.rows.flatMap fun row => row.2.map fun r => (row.1, r)

def places (s : CidrRuleSet) : List Place := s.entries.map fun k => k.2.place k.1

def terms (s : CidrRuleSet) : List Terms := s.entries.map fun k => k.2.terms

/-- The two strings of each entry. -/
def strings (l : List (UInt32 × IpRule)) : List Bytes :=
  l.flatMap fun k => [(k.2.place k.1).bytes, utf8 k.2.terms.text]

/-- What `finalize` hashes. -/
def hashed (s : CidrRuleSet) : List Bytes := strings s.entries

/-- Some string is left over in one list and not in the other, when pairs of a string cancel. -/
def TellsApart (l l' : List Bytes) : Prop := ∃ b, l.count b % 2 ≠ l'.count b % 2

theorem foldl_digest (l : List (UInt32 × IpRule)) (n : ℕ) (h : UInt64) :
    (l.foldl (fun (acc : ℕ × UInt64) k => (acc.1 + 1, acc.2 ^^^ k.2.digest k.1)) (n, h)).2 =
      ((strings l).map ruleFnv1aBytes).foldl (· ^^^ ·) h := by
  induction l generalizing n h with
  | nil => rfl
  | cons k l ih =>
    rw [foldl_cons, ih, IpRule.digest_eq, ← UInt64.xor_assoc]
    rfl

/-- The fingerprint is the exclusive or of the hashes of the strings, in any order. -/
theorem fingerprint_finalize (s : CidrRuleSet) : s.finalize.fingerprint =
    (s.finalize.hashed.map ruleFnv1aBytes).foldl (· ^^^ ·) 0 := by
  rw [finalize, foldl_digest]
  exact (((perm_insertionSort _ _).flatMap_right _).map _).foldl_eq 0

theorem count_strings (l : List (UInt32 × IpRule)) (b : Bytes) : (strings l).count b =
    ((l.map fun k => k.2.place k.1).map Place.bytes).count b +
      ((l.map fun k => k.2.terms).map fun t => utf8 t.text).count b := by
  induction l with
  | nil => rfl
  | cons k l ih =>
    rw [strings, flatMap_cons, count_append, ← strings, ih]
    simp only [map_cons, count_cons, count_nil]
    omega

theorem count_hashed_text (s : CidrRuleSet) (t : Terms) :
    s.hashed.count (utf8 t.text) = s.terms.count t := by
  have hplaces : (s.places.map Place.bytes).count (utf8 t.text) = 0 := by
    rw [count_eq_zero]
    intro hmem
    obtain ⟨p, hp, heq⟩ := mem_map.mp hmem
    obtain ⟨k, -, rfl⟩ := mem_map.mp hp
    exact text_ne_bytes k.1 k.2 t heq.symm
  rw [hashed, count_strings, ← places, hplaces, Nat.zero_add]
  exact count_map_of_injective _ _ text_injective t

theorem count_hashed_bytes (s : CidrRuleSet) (uid : UInt32) (r : IpRule) :
    s.hashed.count (r.place uid).bytes = s.places.count (r.place uid) := by
  have hterms : (s.terms.map fun t => utf8 t.text).count (r.place uid).bytes = 0 := by
    rw [count_eq_zero]
    intro hmem
    obtain ⟨t, -, heq⟩ := mem_map.mp hmem
    exact text_ne_bytes uid r t heq
  rw [hashed, count_strings, ← terms, hterms, Nat.add_zero]
  exact count_map_of_injective _ _ bytes_injective _

/-- **What the fingerprint is made of.**  The strings that `finalize` hashes for two sets differ
after pairs cancel if and only if some app and network, or some combination of prefix length and
codes, belongs to an odd number of rules of one set and to an even number of the other. -/
theorem hashed_tellsApart_iff (s t : CidrRuleSet) :
    TellsApart s.hashed t.hashed ↔
      (∃ p, s.places.count p % 2 ≠ t.places.count p % 2) ∨
        ∃ q, s.terms.count q % 2 ≠ t.terms.count q % 2 := by
  -- a value that is counted differently belongs to a rule of one of the sets
  have hmem : ∀ {α : Type} [BEq α] [LawfulBEq α] {l l' : List α} {a : α},
      l.count a % 2 ≠ l'.count a % 2 → a ∈ l ++ l' := by
    intro α _ _ l l' a h
    by_contra hnot
    rw [mem_append, not_or] at hnot
    rw [count_eq_zero.mpr hnot.1, count_eq_zero.mpr hnot.2] at h
    exact h rfl
  constructor
  · rintro ⟨b, hb⟩
    have hstring : b ∈ strings (s.entries ++ t.entries) := by
      rw [strings, flatMap_append]
      exact hmem hb
    obtain ⟨k, -, hk⟩ := mem_flatMap.mp hstring
    rcases mem_pair.mp hk with rfl | rfl
    · rw [count_hashed_bytes, count_hashed_bytes] at hb
      exact .inl ⟨_, hb⟩
    · rw [count_hashed_text, count_hashed_text] at hb
      exact .inr ⟨_, hb⟩
  · rintro (⟨p, hp⟩ | ⟨q, hq⟩)
    · have hplace : p ∈ (s.entries ++ t.entries).map fun k => k.2.place k.1 := by
        rw [map_append]
        exact hmem hp
      obtain ⟨k, -, rfl⟩ := mem_map.mp hplace
      exact ⟨_, by rwa [count_hashed_bytes, count_hashed_bytes]⟩
    · exact ⟨_, by rwa [count_hashed_text, count_hashed_text]⟩

/-- A rule of all apps that blocks a network. -/
def blockRule (net : BitVec 32) (bits : UInt8) (port : PortSpec) (proto : ProtoSpec) : IpRule :=
  ⟨uidUniversal, .v4 net bits, port, proto, .block⟩

/-- **Sets with one fingerprint.**  Two networks that trade their prefix lengths; two prefixes of
one network and the same two of another; any port and port 65535; any protocol and protocol 224. -/
theorem different_rules_hash_alike :
    let rule net bits := blockRule net bits .any .any
    let set (rules : List IpRule) := (rules.foldl insert {}).finalize
    ∀ pair ∈ [([rule 0x0A000000 8, rule 0xAC100000 12], [rule 0x0A000000 12, rule 0xAC100000 8]),
        ([rule 0x0A000000 8, rule 0x0A000000 12], [rule 0xAC100000 8, rule 0xAC100000 12]),
        ([rule 0x0A000000 8], [blockRule 0x0A000000 8 (.exact 65535) .any]),
        ([rule 0x0A000000 8], [blockRule 0x0A000000 8 .any (.other 224)])],
      ¬ (set pair.1).rules.Perm (set pair.2).rules ∧
        ¬ TellsApart (set pair.1).hashed (set pair.2).hashed ∧
        (set pair.1).fingerprint = (set pair.2).fingerprint := by
  have hcount : ∀ {l l' : List Bytes},
      (∀ b ∈ l ++ l', l.count b % 2 = l'.count b % 2) → ¬ TellsApart l l' := by
    rintro l l' h ⟨b, hb⟩
    by_cases hmem : b ∈ l ++ l'
    · exact hb (h b hmem)
    · rw [mem_append, not_or] at hmem
      rw [count_eq_zero.mpr hmem.1, count_eq_zero.mpr hmem.2] at hb
      exact hb rfl
  intro rule set pair hpair
  simp only [mem_cons, not_mem_nil, or_false] at hpair
  rcases hpair with rfl | rfl | rfl | rfl
  all_goals exact ⟨by decide +kernel, hcount (by decide +kernel), by decide +kernel⟩

end CidrRuleSet

end Firewall
end TortaCore
