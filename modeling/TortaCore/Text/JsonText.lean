import TortaCore.Text.Slice
import TortaCore.Text.Utf8

/-!
# Strings in JSON text

Strings as JSON writes them, and the search for a quoted word in such a text by characters
alone.  The search does not know where a string begins: it finds the word as a string of its
own, and also at the end of a string, behind a quote that belongs to it.

## Main definitions

* `Json.escape`, `Json.quoted`: a string as it is written.
* `Json.afterKey`: the text behind the first place where a word stands in quotes.
* `Json.Shadows`: the string ends in the word, behind a quote of its own or its opening one.
* `Json.readString`: a reader that goes byte by byte and drops the backslashes; `Json.readBack`:
  what it makes of a string.

## Main results

* `Json.afterKey_quoted`: where the search stops in a string.
* `Json.readString_escape`, `Json.readBack_eq_iff`: the reader gives back the strings that are
  printable ASCII.
-/

namespace TortaCore
namespace Text
namespace Json

open List

/-! ### Strings as they are written -/

/-- What stands behind the backslash of a control character: a letter, or the number. -/
def controlEscape (long : Bool) (c : Char) : Str :=
  let number := ['u', '0', '0', Nat.digitChar (c.toNat / 16), Nat.digitChar (c.toNat % 16)]
  if long then number
  else
    match c with
    | '\x08' => ['b']
    | '\t' => ['t']
    | '\n' => ['n']
    | '\x0c' => ['f']
    | '\r' => ['r']
    | _ => number

section Escape

-- the writer may give any control character the long form
variable (long : Char → Bool)

def escapeChar (c : Char) : Str :=
  if c = '"' then ['\\', '"']
  else if c = '\\' then ['\\', '\\']
  else if c.toNat < 0x20 then '\\' :: controlEscape (long c) c
  else [c]

def escape (s : Str) : Str := s.flatMap (escapeChar long)

def quoted (s : Str) : Str := '"' :: (escape long s ++ ['"'])

/-- The character is written as it is. -/
def Bare (c : Char) : Prop := c ≠ '"' ∧ c ≠ '\\' ∧ 0x20 ≤ c.toNat

instance (c : Char) : Decidable (Bare c) := inferInstanceAs (Decidable (_ ∧ _))

@[simp] theorem escape_nil : escape long [] = [] := rfl

@[simp] theorem escape_cons (c : Char) (s : Str) :
    escape long (c :: s) = escapeChar long c ++ escape long s := rfl

theorem escape_append (s t : Str) : escape long (s ++ t) = escape long s ++ escape long t :=
  flatMap_append

theorem escapeChar_quote : escapeChar long '"' = ['\\', '"'] := rfl

theorem escapeChar_backslash : escapeChar long '\\' = ['\\', '\\'] := rfl

variable {long}

variable {c : Char} {s : Str}

theorem escapeChar_of_bare (h : Bare c) : escapeChar long c = [c] := by
  rw [escapeChar, if_neg h.1, if_neg h.2.1, if_neg (Nat.not_lt.mpr h.2.2)]

theorem escapeChar_of_control (h : c.toNat < 0x20) :
    escapeChar long c = '\\' :: controlEscape (long c) c := by
  have hquote : c ≠ '"' := by rintro rfl; exact absurd h (by decide)
  have hback : c ≠ '\\' := by rintro rfl; exact absurd h (by decide)
  rw [escapeChar, if_neg hquote, if_neg hback, if_pos h]

/-- The three ways a character is written. -/
theorem escapeChar_cases (c : Char) :
    (c = '"' ∨ c = '\\') ∨ c.toNat < 0x20 ∨ Bare c := by
  by_cases hquote : c = '"'
  · exact .inl (.inl hquote)
  · by_cases hback : c = '\\'
    · exact .inl (.inr hback)
    · rcases Nat.lt_or_ge c.toNat 0x20 with hc | hc
      · exact .inr (.inl hc)
      · exact .inr (.inr ⟨hquote, hback, hc⟩)

theorem controlEscape_spec (h : c.toNat < 0x20) (b : Bool) :
    controlEscape b c ≠ [] ∧ ∀ x ∈ controlEscape b c, x.isAlphanum = true ∧ x.toNat < 0x80 := by
  have htable : ((range 0x20).all fun n => [true, false].all fun b =>
      !(controlEscape b (Char.ofNat n)).isEmpty &&
        (controlEscape b (Char.ofNat n)).all fun x => x.isAlphanum && x.toNat < 0x80) = true := by
    decide
  have hc := all_eq_true.mp (all_eq_true.mp htable c.toNat (mem_range.mpr h)) b
    (by cases b <;> simp)
  simpa using hc

theorem escape_of_bare (h : ∀ c ∈ s, Bare c) : escape long s = s := by
  induction s with
  | nil => rfl
  | cons c s ih =>
    rw [escape_cons, escapeChar_of_bare (h c mem_cons_self),
      ih fun x hx => h x (mem_cons_of_mem _ hx), singleton_append]

theorem escapeChar_ne_nil (long : Char → Bool) (c : Char) : escapeChar long c ≠ [] := by
  unfold escapeChar
  split_ifs <;> simp

theorem length_le_length_escape (long : Char → Bool) (s : Str) :
    s.length ≤ (escape long s).length := by
  induction s with
  | nil => exact Nat.le_refl _
  | cons c s ih =>
    have hpos := length_pos_of_ne_nil (escapeChar_ne_nil long c)
    rw [escape_cons, length_append, length_cons]
    omega

/-- Only a quote is written with a quote. -/
theorem quote_notMem_escapeChar (hc : c ≠ '"') : '"' ∉ escapeChar long c := by
  rcases escapeChar_cases c with (rfl | rfl) | hcontrol | hbare
  · exact absurd rfl hc
  · rw [escapeChar_backslash]
    decide
  · rw [escapeChar_of_control hcontrol]
    intro hmem
    rcases mem_cons.mp hmem with hmem | hmem
    · cases hmem
    · exact absurd ((controlEscape_spec hcontrol _).2 _ hmem).1 (by decide)
  · rw [escapeChar_of_bare hbare, mem_singleton]
    exact hbare.1.symm

/-- What stands in a string as it is written is a character of it, a backslash or a letter. -/
theorem mem_escape {x : Char} (hx : x ∈ escape long s) :
    x ∈ s ∨ x = '\\' ∨ x.isAlphanum = true := by
  obtain ⟨c, hc, hx⟩ := mem_flatMap.mp hx
  rcases escapeChar_cases c with (rfl | rfl) | hcontrol | hbare
  · rcases mem_cons.mp hx with rfl | hx
    · exact .inr (.inl rfl)
    · exact .inl (mem_singleton.mp hx ▸ hc)
  · rcases mem_cons.mp hx with rfl | hx
    · exact .inr (.inl rfl)
    · exact .inr (.inl (mem_singleton.mp hx))
  · rw [escapeChar_of_control hcontrol] at hx
    rcases mem_cons.mp hx with rfl | hx
    · exact .inr (.inl rfl)
    · exact .inr (.inr ((controlEscape_spec hcontrol _).2 x hx).1)
  · rw [escapeChar_of_bare hbare, mem_singleton] at hx
    exact .inl (hx ▸ hc)

/-- A string is what is left of it without the quotes at its end only if it is written as it
is. -/
theorem escape_eq_of_rdropWhile_eq (h : (escape long s).rdropWhile (· == '"') = s) :
    escape long s = s := by
  rcases eq_nil_or_concat s with rfl | ⟨s, c, rfl⟩
  · rfl
  rw [concat_eq_append, escape_append, escape_cons, escape_nil, append_nil] at h ⊢
  by_cases hc : c = '"'
  · -- the quote goes, and the backslash before it stays
    subst hc
    have hstrip : (escape long s ++ escapeChar long '"').rdropWhile (· == '"') =
        escape long s ++ ['\\'] := by
      have hsplit : escape long s ++ escapeChar long '"' =
          (escape long s ++ ['\\']) ++ ['"'] := by
        rw [escapeChar_quote, append_assoc]
        rfl
      rw [hsplit, rdropWhile_concat_pos _ _ _ rfl, rdropWhile_concat_neg _ _ _ (by decide)]
    rw [hstrip] at h
    have hlast := congrArg getLast? h
    simp at hlast
  · rw [rdropWhile_eq_self_iff.mpr fun hne => ?_] at h
    · exact h
    · have hmem : (escape long s ++ escapeChar long c).getLast hne ∈ escapeChar long c := by
        rw [getLast_append_of_ne_nil _ (escapeChar_ne_nil long c)]
        exact getLast_mem _
      simp only [beq_iff_eq]
      intro hquote
      rw [hquote] at hmem
      exact quote_notMem_escapeChar hc hmem

theorem bare_of_escape_eq (h : escape long s = s) : ∀ c ∈ s, Bare c := by
  induction s with
  | nil => simp
  | cons c s ih =>
    rw [escape_cons] at h
    rcases escapeChar_cases c with (rfl | rfl) | hc | hc
    · cases h
    · -- the backslash is doubled, and nothing after it gets shorter
      have hlen := congrArg length h
      have hle := length_le_length_escape long s
      simp [escapeChar_backslash] at hlen
      omega
    · rw [escapeChar_of_control hc] at h
      injection h with hhead
      rw [← hhead] at hc
      exact absurd hc (by decide)
    · rw [escapeChar_of_bare hc, singleton_append, cons.injEq] at h
      intro x hx
      rcases mem_cons.mp hx with rfl | hx
      · exact hc
      · exact ih h.2 x hx

end Escape

/-! ### The search for a quoted word -/

/-- `find` of the word in quotes, and the text behind it. -/
def afterKey (key : Str) : Str → Option Str
  | [] => none
  | c :: cs =>
    if ('"' :: (key ++ ['"'])).isPrefixOf (c :: cs) then some ((c :: cs).drop (key.length + 2))
    else afterKey key cs

/-- The string is the word, or ends in it behind a quote of its own. -/
def Shadows (key s : Str) : Prop := '"' :: key <:+ '"' :: s

instance (key s : Str) : Decidable (Shadows key s) := inferInstanceAs (Decidable (_ <:+ _))

theorem shadows_iff {key s : Str} : Shadows key s ↔ s = key ∨ '"' :: key <:+ s := by
  rw [Shadows, suffix_cons_iff, cons.injEq, and_iff_right rfl, eq_comm]

section Search

variable {key : Str}

theorem afterKey_cons_of_ne {c : Char} (hc : c ≠ '"') (t : Str) :
    afterKey key (c :: t) = afterKey key t := by
  rw [afterKey, if_neg]
  simp [isPrefixOf, Ne.symm hc]

theorem afterKey_append_of_notMem {s : Str} (hs : '"' ∉ s) (t : Str) :
    afterKey key (s ++ t) = afterKey key t := by
  induction s with
  | nil => rfl
  | cons c s ih =>
    have hc : c ≠ '"' := fun h => hs (h ▸ mem_cons_self)
    rw [cons_append, afterKey_cons_of_ne hc, ih fun h => hs (mem_cons_of_mem _ h)]

theorem afterKey_quote (t : Str) :
    afterKey key ('"' :: t) =
      if key ++ ['"'] <+: t then some (t.drop (key.length + 1)) else afterKey key t := by
  rw [afterKey]
  simp only [isPrefixOf, beq_self_eq_true, Bool.true_and, isPrefixOf_iff_prefix, drop_succ_cons]

theorem not_prefix_cons {c : Char} (hc : c ∉ key) (hquote : c ≠ '"') (t : Str) :
    ¬ key ++ ['"'] <+: c :: t := by
  cases key with
  | nil => simp [Ne.symm hquote]
  | cons x key =>
    have hx : x ≠ c := fun h => hc (h ▸ mem_cons_self)
    simp [hx]

variable (long : Char → Bool) (hkey : ∀ c ∈ key, Bare c)
include hkey

/-- A string begins with the word and its closing quote only if it is the word. -/
theorem prefix_escape_iff (s rest : Str) :
    key ++ ['"'] <+: escape long s ++ '"' :: rest ↔ s = key := by
  induction key generalizing s with
  | nil =>
    cases s with
    | nil => simp
    | cons c s =>
      rcases escapeChar_cases c with (rfl | rfl) | hc | hc
      · simp [escapeChar_quote]
      · simp [escapeChar_backslash]
      · simp [escapeChar_of_control hc]
      · simp [escapeChar_of_bare hc, hc.1.symm]
  | cons x key ih =>
    have hx := hkey x mem_cons_self
    cases s with
    | nil => simp [hx.1]
    | cons c s =>
      have hstep := ih (fun y hy => hkey y (mem_cons_of_mem _ hy)) s
      rcases escapeChar_cases c with (rfl | rfl) | hc | hc
      · simp [escapeChar_quote, hx.2.1, hx.1.symm]
      · simp [escapeChar_backslash, hx.2.1, hx.2.1.symm]
      · have hne : c ≠ x := by
          rintro rfl
          exact Nat.not_lt.mpr hx.2.2 hc
        simp [escapeChar_of_control hc, hx.2.1, hne]
      · rw [escape_cons, escapeChar_of_bare hc, cons_append, append_assoc,
          cons_append, nil_append, cons_prefix_cons, hstep, cons.injEq, eq_comm]

variable {rest : Str}

theorem afterKey_opening {s : Str} (hs : afterKey key (escape long s ++ '"' :: rest) =
      if '"' :: key <:+ s then some rest else afterKey key rest) :
    afterKey key ('"' :: (escape long s ++ '"' :: rest)) =
      if Shadows key s then some rest else afterKey key rest := by
  rw [afterKey_quote]
  by_cases hword : s = key
  · have hdrop : (escape long key ++ '"' :: rest).drop (key.length + 1) = rest := by
      rw [escape_of_bare hkey, ← List.drop_drop, List.drop_left]
      rfl
    rw [if_pos ((prefix_escape_iff long hkey s rest).mpr hword),
      if_pos (shadows_iff.mpr (.inl hword)), hword, hdrop]
  · have hshadows : Shadows key s ↔ '"' :: key <:+ s := shadows_iff.trans (or_iff_right hword)
    rw [if_neg fun h => hword ((prefix_escape_iff long hkey s rest).mp h), hs]
    simp only [hshadows]

/-- Inside a string the search stops where the rest of the string, behind a quote of its own,
is the word. -/
theorem afterKey_escape (hrest : ¬ key ++ ['"'] <+: rest) (s : Str) :
    afterKey key (escape long s ++ '"' :: rest) =
      if '"' :: key <:+ s then some rest else afterKey key rest := by
  induction s with
  | nil =>
    rw [escape_nil, nil_append, afterKey_quote, if_neg hrest, if_neg (by simp)]
  | cons c s ih =>
    rw [escape_cons, append_assoc]
    by_cases hc : c = '"'
    · subst hc
      exact (afterKey_cons_of_ne (by decide) _).trans (afterKey_opening long hkey ih)
    have hnot : '"' ∉ escapeChar long c := quote_notMem_escapeChar hc
    have hsuffix : '"' :: key <:+ c :: s ↔ '"' :: key <:+ s := by
      rw [suffix_cons_iff, cons.injEq]
      simp [Ne.symm hc]
    rw [afterKey_append_of_notMem hnot, ih]
    simp only [hsuffix]

theorem afterKey_quoted (hrest : ¬ key ++ ['"'] <+: rest) (s : Str) :
    afterKey key (quoted long s ++ rest) =
      if Shadows key s then some rest else afterKey key rest := by
  rw [quoted, cons_append, append_assoc]
  exact afterKey_opening long hkey (afterKey_escape long hkey hrest s)

end Search

/-! ### The reader -/

/-- A reader of the rest of a string, byte by byte: a backslash is dropped and what follows it
is taken as it is. -/
def readString (value : Str) (esc : Bool) : Bytes → Option Str
  | [] => none
  | c :: cs =>
    if esc then readString (value ++ [Char.ofNat c.toNat]) false cs
    else if c = 0x5C then readString value true cs
    else if c = 0x22 then some value
    else readString (value ++ [Char.ofNat c.toNat]) false cs

/-- What the reader makes of a character. -/
def readBackChar (long : Char → Bool) (c : Char) : Str :=
  if c = '"' ∨ c = '\\' then [c]
  else if c.toNat < 0x20 then controlEscape (long c) c
  else (String.utf8EncodeChar c).map fun b => Char.ofNat b.toNat

def readBack (long : Char → Bool) (s : Str) : Str := s.flatMap (readBackChar long)

/-- The characters are printable ASCII. -/
def Printable (s : Str) : Prop := ∀ c ∈ s, 0x20 ≤ c.toNat ∧ c.toNat < 0x80

instance (s : Str) : Decidable (Printable s) := inferInstanceAs (Decidable (∀ _ ∈ _, _))

section Reader

variable (long : Char → Bool)

theorem readString_append {bs : Bytes} (hback : (0x5C : UInt8) ∉ bs) (hquote : (0x22 : UInt8) ∉ bs)
    (value : Str) (rest : Bytes) :
    readString value false (bs ++ rest) =
      readString (value ++ bs.map fun b => Char.ofNat b.toNat) false rest := by
  induction bs generalizing value with
  | nil => simp
  | cons b bs ih =>
    rw [mem_cons, not_or] at hback hquote
    obtain ⟨hb, hback⟩ := hback
    obtain ⟨hb', hquote⟩ := hquote
    rw [cons_append, readString, if_neg (by simp), if_neg (Ne.symm hb), if_neg (Ne.symm hb'),
      ih hback hquote, map_cons, append_assoc, singleton_append]

theorem map_ofNat_utf8 {s : Str} (h : ∀ c ∈ s, c.toNat < 0x80) :
    (utf8 s).map (fun b => Char.ofNat b.toNat) = s := by
  rw [utf8_of_ascii h, map_map]
  refine (map_congr_left fun c hc => ?_).trans (map_id s)
  have hlt : c.toNat % 256 = c.toNat := Nat.mod_eq_of_lt (by have := h c hc; omega)
  simp [hlt]

theorem readString_escapeChar (c : Char) (value : Str) (rest : Bytes) :
    readString value false (utf8 (escapeChar long c) ++ rest) =
      readString (value ++ readBackChar long c) false rest := by
  rcases escapeChar_cases c with (rfl | rfl) | hc | hc
  · rfl
  · rfl
  · obtain ⟨hne, hspec⟩ := controlEscape_spec hc (long c)
    have hquote : c ≠ '"' := by rintro rfl; exact absurd hc (by decide)
    have hback : c ≠ '\\' := by rintro rfl; exact absurd hc (by decide)
    have hread : readBackChar long c = controlEscape (long c) c := by
      simp [readBackChar, hquote, hback, hc]
    obtain ⟨e, es, hes⟩ := exists_cons_of_ne_nil hne
    rw [escapeChar_of_control hc, hread, hes]
    rw [hes] at hspec
    obtain ⟨he, hspec⟩ := forall_mem_cons.mp hspec
    -- the letters behind the backslash are ASCII and none of the two marks
    have hplain : ∀ m : UInt8, m.toNat < 0x80 → (Char.ofNat m.toNat).isAlphanum = false →
        m ∉ utf8 es := by
      intro m hm hno hmem
      rw [utf8, mem_flatMap] at hmem
      obtain ⟨x, hx, hmx⟩ := hmem
      have hval := (utf8EncodeChar_of_mem_ascii hmx hm).2
      have halnum := (hspec x hx).1
      rw [← Char.ofNat_toNat x, hval, hno] at halnum
      cases halnum
    have hfirst : utf8 ('\\' :: e :: es) = 0x5C :: UInt8.ofNat e.toNat :: utf8 es := by
      have hone := utf8_of_ascii (s := [e]) (by simpa using he.2)
      rw [utf8_cons, utf8_cons]
      rw [utf8_cons, utf8_nil, append_nil] at hone
      rw [hone]
      rfl
    have hchar : Char.ofNat (UInt8.ofNat e.toNat).toNat = e := by
      have hlt : e.toNat % 256 = e.toNat := Nat.mod_eq_of_lt (by omega)
      simp [hlt]
    rw [hfirst, cons_append, readString, if_neg (by simp), if_pos rfl, cons_append, readString,
      if_pos rfl, hchar, readString_append (hplain 0x5C (by decide) (by decide))
        (hplain 0x22 (by decide) (by decide)), map_ofNat_utf8 fun x hx => (hspec x hx).2,
      append_assoc, singleton_append]
  · have hread : readBackChar long c =
        (String.utf8EncodeChar c).map fun b => Char.ofNat b.toNat := by
      rw [readBackChar, if_neg (by simp [hc.1, hc.2.1]), if_neg (Nat.not_lt.mpr hc.2.2)]
    have hno : ∀ m : UInt8, m.toNat < 0x80 → Char.ofNat m.toNat ≠ c →
        m ∉ String.utf8EncodeChar c := by
      intro m hm hne hmem
      exact hne (by rw [← (utf8EncodeChar_of_mem_ascii hmem hm).2, Char.ofNat_toNat])
    rw [escapeChar_of_bare hc, utf8_cons, utf8_nil, append_nil, hread]
    exact readString_append (hno 0x5C (by decide) hc.2.1.symm) (hno 0x22 (by decide) hc.1.symm) _ _

theorem readString_escape (s rest : Str) (value : Str) :
    readString value false (utf8 (escape long s ++ '"' :: rest)) =
      some (value ++ readBack long s) := by
  induction s generalizing value with
  | nil =>
    rw [escape_nil, nil_append, readBack, flatMap_nil, append_nil]
    rfl
  | cons c s ih =>
    rw [escape_cons, append_assoc, utf8_append, readString_escapeChar, ih, readBack, readBack,
      flatMap_cons, append_assoc]

theorem readBackChar_of_printable {c : Char} (h : 0x20 ≤ c.toNat ∧ c.toNat < 0x80) :
    readBackChar long c = [c] := by
  rw [readBackChar]
  split
  · rfl
  · rw [if_neg (Nat.not_lt.mpr h.1)]
    have hread := map_ofNat_utf8 (s := [c]) (by simpa using h.2)
    rwa [utf8_cons, utf8_nil, append_nil] at hread

theorem one_le_length_readBackChar (c : Char) : 1 ≤ (readBackChar long c).length := by
  rw [readBackChar]
  split
  · exact Nat.le_refl _
  · split
    · next hc => exact length_pos_of_ne_nil (controlEscape_spec hc _).1
    · rw [length_map, String.length_utf8EncodeChar]
      exact Char.utf8Size_pos c

theorem length_le_length_readBack (s : Str) : s.length ≤ (readBack long s).length := by
  induction s with
  | nil => exact Nat.le_refl _
  | cons c s ih =>
    have hone := one_le_length_readBackChar long c
    rw [readBack, flatMap_cons, length_append, length_cons]
    rw [readBack] at ih
    omega

/-- The reader gives back the strings that are printable ASCII, and no others: a control
character comes back as a letter, and any other character as two or more. -/
theorem readBack_eq_iff (s : Str) : readBack long s = s ↔ Printable s := by
  induction s with
  | nil => simp [readBack, Printable]
  | cons c s ih =>
    have hcons : readBack long (c :: s) = readBackChar long c ++ readBack long s := flatMap_cons
    constructor
    · intro h
      rw [hcons] at h
      have hc : 0x20 ≤ c.toNat ∧ c.toNat < 0x80 := by
        constructor
        · by_contra hlt
          have hcontrol : c.toNat < 0x20 := Nat.lt_of_not_le hlt
          have hback : ¬ (c = '"' ∨ c = '\\') := by
            rintro (rfl | rfl) <;> exact absurd hcontrol (by decide)
          obtain ⟨hne, hspec⟩ := controlEscape_spec hcontrol (long c)
          rw [readBackChar, if_neg hback, if_pos hcontrol] at h
          obtain ⟨e, es, hes⟩ := List.exists_cons_of_ne_nil hne
          rw [hes, List.cons_append, List.cons.injEq] at h
          have halnum := (hspec e (by rw [hes]; exact List.mem_cons_self)).1
          have hnone : ∀ n < 0x20, (Char.ofNat n).isAlphanum = false := by decide
          have hno := hnone c.toNat hcontrol
          rw [Char.ofNat_toNat, ← h.1, halnum] at hno
          cases hno
        · by_contra hge
          have htwo : 2 ≤ (readBackChar long c).length := by
            have hback : ¬ (c = '"' ∨ c = '\\') := by
              rintro (rfl | rfl) <;> exact hge (by decide)
            rw [readBackChar, if_neg hback, if_neg (by omega), length_map,
              String.length_utf8EncodeChar]
            have hpos := Char.utf8Size_pos c
            have hone : c.utf8Size ≠ 1 := fun hsize =>
              hge (Nat.lt_succ_of_le (Char.utf8Size_eq_one_iff.mp hsize))
            omega
          have hlen := congrArg length h
          have hle := length_le_length_readBack long s
          rw [length_append, length_cons] at hlen
          omega
      rw [readBackChar_of_printable long hc, singleton_append, cons.injEq] at h
      exact forall_mem_cons.mpr ⟨hc, ih.mp h.2⟩
    · intro h
      obtain ⟨hc, hs⟩ := forall_mem_cons.mp h
      rw [hcons, readBackChar_of_printable long hc, ih.mpr hs, singleton_append]

end Reader

end Json
end Text
end TortaCore
