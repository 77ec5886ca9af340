import TortaCore.Dns.Message

/-!
# What an accepted answer echoes

`validate_response` compares the two questions as decoded strings: labels joined with
dots, lossily decoded and lower-cased over all of Unicode.  Its documentation says that
the question "byte-matches case-insensitively".  Decoding is not injective (a dot inside
a label, an invalid byte, a letter outside ASCII), so an accepted answer may echo another
question.
-/

namespace TortaCore
namespace Dns

open Text Wire List

/-! ### Relations between joined labels -/

section Joined

variable {R : UInt8 → UInt8 → Prop}

theorem forall₂_intercalate (hdot : R dot dot) {ls ms : List Bytes}
    (h : List.Forall₂ (List.Forall₂ R) ls ms) :
    List.Forall₂ R ([dot].intercalate ls) ([dot].intercalate ms) := by
  induction h with
  | nil => exact .nil
  | @cons l m ls ms hlm h ih =>
    cases h with
    | nil => simpa using hlm
    | cons =>
      rw [intercalate_cons_cons, intercalate_cons_cons]
      exact rel_append (rel_append hlm (.cons hdot .nil)) ih

/-- Related lists of one length fall apart where the labels do. -/
theorem forall₂_of_append {a b c d : Bytes} (hlen : a.length = c.length)
    (h : List.Forall₂ R (a ++ b) (c ++ d)) : List.Forall₂ R a c ∧ List.Forall₂ R b d := by
  have htake := forall₂_take a.length h
  have hdrop := forall₂_drop a.length h
  rw [take_left, hlen, take_left] at htake
  rw [drop_left, hlen, drop_left] at hdrop
  exact ⟨htake, hdrop⟩

theorem forall₂_of_intercalate {ls ms : List Bytes}
    (hlen : List.Forall₂ (fun l m => l.length = m.length) ls ms)
    (h : List.Forall₂ R ([dot].intercalate ls) ([dot].intercalate ms)) :
    List.Forall₂ (List.Forall₂ R) ls ms := by
  induction hlen with
  | nil => exact .nil
  | @cons l m ls ms hlm hrest ih =>
    cases hrest with
    | nil => exact .cons (by simpa using h) .nil
    | cons =>
      rw [intercalate_cons_cons, intercalate_cons_cons] at h
      obtain ⟨hhead, htail⟩ := forall₂_of_append (by simp [hlm]) h
      exact .cons (forall₂_of_append hlm hhead).1 (ih htail)

end Joined

/-! ### The question -/

/-- Labels as raw bytes, equal up to ASCII letter case: as many, as long, and the same
bytes. -/
def SameLabels (ls ms : List Bytes) : Prop :=
  List.Forall₂ (List.Forall₂ fun x y => asciiLowerByte x = asciiLowerByte y) ls ms

/-- The response asks what the query asks. -/
structure QuestionEchoed (query response : Bytes) : Prop where
  labels : ∃ ls ms, LabelsAt query 12 ls ∧ LabelsAt response 12 ms ∧ SameLabels ls ms
  types : ∃ q qend r rend, parseQuestionFull query = some (q, qend) ∧
    parseQuestionFull response = some (r, rend) ∧ q.qtype = r.qtype ∧ q.qclass = r.qclass

/-- Labels that are as many and as long, with the same bytes outside ASCII.  Nothing is
said about the ASCII bytes. -/
def SameLayout (query response : Bytes) : Prop :=
  ∃ ls ms, LabelsAt query 12 ls ∧ LabelsAt response 12 ms ∧
    List.Forall₂ (List.Forall₂ SameOutsideAscii) ls ms

theorem sameOutsideAscii_of_lower {x y : UInt8} (h : asciiLowerByte x = asciiLowerByte y) :
    SameOutsideAscii x y := by
  by_cases hxy : x.toNat < 0x80 ∧ y.toNat < 0x80
  · exact .inr hxy
  · -- a byte outside ASCII is its own lower case, and no letter has it as lower case
    have hnat := congrArg UInt8.toNat h
    refine .inl (UInt8.toNat_inj.mp ?_)
    rw [toNat_asciiLowerByte, toNat_asciiLowerByte] at hnat
    split at hnat <;> split at hnat <;> omega

/-- The labels a parsed question was decoded from. -/
theorem labelsAt_of_parseQuestionFull {buf : Bytes} {q : DnsQuestion} {qend : ℕ}
    (h : parseQuestionFull buf = some (q, qend)) :
    ∃ ls, LabelsAt buf 12 ls ∧ q.qname = toLowercase (fromUtf8Lossy ([dot].intercalate ls)) := by
  obtain ⟨-, -, pos, hname, -⟩ := parseQuestionFull_eq_some_iff.mp h
  exact labelsAt_of_readName hname

/-- **An accepted answer echoes the question exactly when the two names have the same
layout**: the check itself supplies the ASCII letters, the type and the class, and the
decoding loses the rest. -/
theorem validateResponse_echoes_iff (query response : Bytes)
    (h : validateResponse query response = .ok ()) :
    QuestionEchoed query response ↔ SameLayout query response := by
  obtain ⟨-, ⟨q, qend, r, rend, hq, hr, hqr⟩, -⟩ := validateResponse_eq_ok_iff.mp h
  obtain ⟨ls, hls, hqname⟩ := labelsAt_of_parseQuestionFull hq
  obtain ⟨ms, hms, hrname⟩ := labelsAt_of_parseQuestionFull hr
  constructor
  · intro hecho
    obtain ⟨ls', ms', hls', hms', hsame⟩ := hecho.labels
    exact ⟨ls', ms', hls', hms', hsame.imp fun _ _ hlm =>
      hlm.imp fun _ _ => sameOutsideAscii_of_lower⟩
  · rintro ⟨ls', ms', hls', hms', hlayout⟩
    obtain rfl := hls.unique hls'
    obtain rfl := hms.unique hms'
    have hjoined := forall₂_intercalate (.inl rfl) hlayout
    have hdecoded : toLowercase (fromUtf8Lossy ([dot].intercalate ls)) =
        toLowercase (fromUtf8Lossy ([dot].intercalate ms)) := by
      rw [← hqname, ← hrname, hqr]
    have hletters := forall₂_asciiLower_of_toLowercase_eq hjoined hdecoded
    refine ⟨⟨ls, ms, hls, hms, ?_⟩, q, qend, r, rend, hq, hr, by rw [hqr], by rw [hqr]⟩
    exact forall₂_of_intercalate (hlayout.imp fun _ _ hlm => hlm.length_eq) hletters

/-- `A.b` answers `a.B`, and echoes it. -/
theorem validateResponse_echoes_case :
    QuestionEchoed [0, 7, 1, 0, 0, 1, 0, 0, 0, 0, 0, 0, 1, 97, 1, 66, 0, 0, 1, 0, 1]
      [0, 7, 129, 128, 0, 1, 0, 0, 0, 0, 0, 0, 1, 65, 1, 98, 0, 0, 1, 0, 1] := by
  apply (validateResponse_echoes_iff _ _ (by decide +kernel)).mpr
  refine ⟨[[97], [66]], [[65], [98]], ?_, ?_, ?_⟩
  · exact .label (show _ = some 1 from rfl) (by decide) (by decide) (by decide)
      (.label (show _ = some 1 from rfl) (by decide) (by decide) (by decide) (.root rfl))
  · exact .label (show _ = some 1 from rfl) (by decide) (by decide) (by decide)
      (.label (show _ = some 1 from rfl) (by decide) (by decide) (by decide) (.root rfl))
  · exact .cons (.cons (.inr (by decide)) .nil) (.cons (.cons (.inr (by decide)) .nil) .nil)

/-- The two labels `a`, `b` are answered by the one label `a.b`. -/
theorem validateResponse_accepts_dotted_label :
    validateResponse [0, 7, 1, 0, 0, 1, 0, 0, 0, 0, 0, 0, 1, 97, 1, 98, 0, 0, 1, 0, 1]
        [0, 7, 129, 128, 0, 1, 0, 0, 0, 0, 0, 0, 3, 97, 46, 98, 0, 0, 1, 0, 1] = .ok () ∧
      ¬ QuestionEchoed [0, 7, 1, 0, 0, 1, 0, 0, 0, 0, 0, 0, 1, 97, 1, 98, 0, 0, 1, 0, 1]
        [0, 7, 129, 128, 0, 1, 0, 0, 0, 0, 0, 0, 3, 97, 46, 98, 0, 0, 1, 0, 1] := by
  refine ⟨by decide +kernel, fun hecho => ?_⟩
  obtain ⟨ls, ms, hls, hms, hsame⟩ := hecho.labels
  obtain rfl : ls = [[97], [98]] := hls.unique
    (.label (show _ = some 1 from rfl) (by decide) (by decide) (by decide)
      (.label (show _ = some 1 from rfl) (by decide) (by decide) (by decide) (.root rfl)))
  obtain rfl : ms = [[97, 46, 98]] := hms.unique
    (.label (show _ = some 3 from rfl) (by decide) (by decide) (by decide) (.root rfl))
  cases hsame.length_eq

end Dns
end TortaCore
