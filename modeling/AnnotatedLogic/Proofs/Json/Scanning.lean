import AnnotatedLogic.Document.Json.Printer
import AnnotatedLogic.Document.Json.Token
import Mathlib.Algebra.Group.Nat.Defs
import Mathlib.Data.List.TakeWhile
/-!
# Printed texts and their tokens

What is printed is cut into the tokens that it was printed from.

* `scanText_escaped`, `scanToken_quoted`: the escapes of a string are undone, whatever characters it has.
* `scanNumeral_append`: a numeral that reads as one by itself reads as the same one in front of a mark or
  a blank.
* `scanNumeral_natural`: the digits of a count are a numeral, and its value is the count.
-/

namespace AnnotatedLogic.Document.Json

/-! ## Strings -/

/-- A character that needs no escape is taken as it is. -/
theorem scanText_plain {c : Char} (hquote : c ≠ '"') (hslash : c ≠ '\\') (hprint : ¬ c.toNat < 0x20)
    (read : Option (List Char)) (cs : List Char) :
    scanText read (c :: cs) = scanText (read.map (c :: ·)) cs := by
  rw [scanText]
  · rw [if_neg hprint]
  · exact hquote
  · exact fun _ _ _ _ _ h _ => hslash h
  · exact fun _ _ h _ => hslash h

/-- The value of the digits that a control character is written with. -/
theorem hexValue?_control {n : Nat} (h : n < 0x20) :
    hexValue? 0 ['0', '0', hexDigit (n / 16), hexDigit (n % 16)] = some n := by
  have hall : ∀ n < 0x20, hexValue? 0 ['0', '0', hexDigit (n / 16), hexDigit (n % 16)] = some n := by
    decide
  exact hall n h

/-- A one-letter escape is read as the character that it stands for. -/
theorem scanText_escape {e c : Char} (hu : e ≠ 'u') (h : escape? e = some c) (read : Option (List Char))
    (cs : List Char) : scanText read ('\\' :: e :: cs) = scanText (read.map (c :: ·)) cs := by
  rw [scanText]
  · rw [h]
  · exact fun _ _ _ _ _ he _ => hu he

/-- An escaped character is read as the character. -/
theorem scanText_escapeChar (c : Char) (read : Option (List Char)) (cs : List Char) :
    scanText read (escapeChar c ++ cs) = scanText (read.map (c :: ·)) cs := by
  have hletter {e d : Char} (hd : c = d) (hu : e ≠ 'u') (h : escape? e = some d) :
      scanText read (['\\', e] ++ cs) = scanText (read.map (c :: ·)) cs :=
    hd ▸ scanText_escape hu h read cs
  unfold escapeChar
  split
  · next hc => exact hletter hc (by decide) rfl
  · next hquote =>
    split
    · next hc => exact hletter hc (by decide) rfl
    · next hslash =>
      split
      · next hc => exact hletter hc (by decide) rfl
      · split
        · next hc => exact hletter hc (by decide) rfl
        · split
          · next hc => exact hletter hc (by decide) rfl
          · split
            · next hc => exact hletter hc (by decide) rfl
            · split
              · next hc => exact hletter hc (by decide) rfl
              · split
                · next hcontrol =>
                  have hhigh : isHighSurrogate c.toNat = false := decide_eq_false (by omega)
                  have hlow : isLowSurrogate c.toNat = false := decide_eq_false (by omega)
                  have hchar : Char.ofNat c.toNat = c := Char.ofNat_toNat c
                  rw [List.cons_append, List.cons_append, List.cons_append, List.cons_append,
                    List.cons_append, List.cons_append, List.nil_append, scanText,
                    hexValue?_control hcontrol]
                  simp only [hhigh, hlow, hchar, Bool.false_eq_true, if_false]
                · next hprint => exact scanText_plain hquote hslash hprint read cs

/-- Escaped characters up to the closing quote are read as the characters. -/
theorem scanText_escaped (s read rest : List Char) :
    scanText (some read) (s.flatMap escapeChar ++ '"' :: rest)
      = some (some (String.ofList (read.reverse ++ s)), rest) := by
  induction s generalizing read with
  | nil =>
    rw [List.flatMap_nil, List.nil_append, List.append_nil, scanText]
    rfl
  | cons c s ih =>
    rw [List.flatMap_cons, List.append_assoc, scanText_escapeChar, Option.map_some, ih,
      List.reverse_cons, List.append_assoc]
    rfl

/-- A string in quotes is one token. -/
theorem scanToken_quoted (s : String) (rest : List Char) :
    scanToken (quoted s ++ rest) = some (.text (some s), rest) := by
  have h := scanText_escaped s.toList [] rest
  rw [List.reverse_nil, List.nil_append, String.ofList_toList] at h
  unfold quoted
  rw [List.cons_append, List.append_assoc, List.singleton_append, scanToken, h]
  rfl

/-! ## Numerals -/

/-- No numeral goes on with these characters. -/
def Ends (rest : List Char) : Prop :=
  ∀ c cs, rest = c :: cs → c.isDigit = false ∧ c ≠ '.' ∧ c ≠ 'e' ∧ c ≠ 'E'

theorem ends_nil : Ends [] := nofun

theorem ends_cons {c : Char} (hdigit : c.isDigit = false) (hpoint : c ≠ '.') (he : c ≠ 'e') (hE : c ≠ 'E')
    (cs : List Char) : Ends (c :: cs) := by
  intro d ds h
  cases h
  exact ⟨hdigit, hpoint, he, hE⟩

variable {rest : List Char}

theorem spanDigits_append (h : Ends rest) (cs : List Char) :
    spanDigits (cs ++ rest) = ((spanDigits cs).1, (spanDigits cs).2 ++ rest) := by
  unfold spanDigits
  induction cs with
  | nil =>
    cases rest with
    | nil => rfl
    | cons c rest => simp [(h c rest rfl).1]
  | cons c cs ih =>
    by_cases hc : c.isDigit = true
    · simpa [hc] using ih
    · simp [hc]

/-- The digits in front of the point are all that are there, with no zero before another digit. -/
theorem scanWhole_eq_some {cs ds left : List Char} :
    scanWhole cs = some (ds, left) ↔
      spanDigits cs = (ds, left) ∧ ds ≠ [] ∧ ∀ d others, ds ≠ '0' :: d :: others := by
  unfold scanWhole
  rcases spanDigits cs with ⟨digits, others⟩
  constructor
  · intro h
    split at h
    · cases h
    · cases h
    · next hnil hzero heq =>
      cases heq
      cases h
      exact ⟨rfl, hnil, hzero⟩
  · rintro ⟨heq, hnil, hzero⟩
    cases heq
    split
    · next h => cases h; exact absurd rfl hnil
    · next h => cases h; exact absurd rfl (hzero _ _)
    · next h => cases h; rfl

theorem scanWhole_append (h : Ends rest) {cs ds left : List Char} (hs : scanWhole cs = some (ds, left)) :
    scanWhole (cs ++ rest) = some (ds, left ++ rest) := by
  obtain ⟨hspan, hds⟩ := scanWhole_eq_some.1 hs
  refine scanWhole_eq_some.2 ⟨?_, hds⟩
  rw [spanDigits_append h, hspan]

theorem scanFraction_append (h : Ends rest) {cs ds left : List Char}
    (hs : scanFraction cs = some (ds, left)) : scanFraction (cs ++ rest) = some (ds, left ++ rest) := by
  cases cs with
  | nil =>
    cases hs
    cases rest with
    | nil => rfl
    | cons c rest =>
      rw [List.nil_append, scanFraction]
      exact fun _ heq => (h c rest rfl).2.1 (List.cons.inj heq).1
  | cons c cs =>
    by_cases hc : c = '.'
    · subst hc
      rw [List.cons_append, scanFraction, spanDigits_append h]
      rw [scanFraction] at hs
      generalize spanDigits cs = digits at hs
      obtain ⟨_ | ⟨d, digits⟩, others⟩ := digits
      · cases hs
      · cases hs
        rfl
    · rw [scanFraction] at hs
      · cases hs
        rw [List.cons_append, scanFraction]
        exact fun _ heq => hc (List.cons.inj heq).1
      · exact fun _ heq => hc (List.cons.inj heq).1

theorem scanExponentDigits_append (h : Ends rest) {negative : Bool} {cs left : List Char}
    {e : Option Int} (hs : scanExponentDigits negative cs = some (e, left)) :
    scanExponentDigits negative (cs ++ rest) = some (e, left ++ rest) := by
  unfold scanExponentDigits at hs ⊢
  rw [spanDigits_append h]
  generalize spanDigits cs = digits at hs
  obtain ⟨_ | ⟨d, digits⟩, others⟩ := digits
  · cases hs
  · cases hs
    rfl

/-- Without a sign there is nothing to split off. -/
theorem splitSign_of_ne {cs : List Char} (hminus : ∀ ds, cs ≠ '-' :: ds) (hplus : ∀ ds, cs ≠ '+' :: ds) :
    Decimal.splitSign cs = (false, cs) := by
  rw [Decimal.splitSign]
  · exact hminus
  · exact hplus

theorem splitSign_append {cs : List Char} (h : cs ≠ []) (rest : List Char) :
    Decimal.splitSign (cs ++ rest) = ((Decimal.splitSign cs).1, (Decimal.splitSign cs).2 ++ rest) := by
  obtain ⟨c, cs, rfl⟩ := List.exists_cons_of_ne_nil h
  by_cases hminus : c = '-'
  · subst hminus
    rfl
  · by_cases hplus : c = '+'
    · subst hplus
      rfl
    · have hplain (ds : List Char) : Decimal.splitSign (c :: ds) = (false, c :: ds) :=
        splitSign_of_ne (fun _ heq => hminus (List.cons.inj heq).1)
          fun _ heq => hplus (List.cons.inj heq).1
      rw [List.cons_append, hplain, hplain]
      rfl

theorem scanExponent_cons (c : Char) (cs : List Char) :
    scanExponent (c :: cs) =
      if c == 'e' || c == 'E' then
        scanExponentDigits (Decimal.splitSign cs).1 (Decimal.splitSign cs).2
      else some (none, c :: cs) := by
  rw [scanExponent.eq_def]
  dsimp only
  split
  · split
    · rfl
    · rfl
    · next hplus hminus => rw [splitSign_of_ne hminus hplus]
  · rfl

theorem scanExponent_append (h : Ends rest) {cs left : List Char} {e : Option Int}
    (hs : scanExponent cs = some (e, left)) : scanExponent (cs ++ rest) = some (e, left ++ rest) := by
  cases cs with
  | nil =>
    cases hs
    cases rest with
    | nil => rfl
    | cons c rest =>
      obtain ⟨-, -, he, hE⟩ := h c rest rfl
      simp [scanExponent, he, hE]
  | cons c cs =>
    rw [scanExponent_cons] at hs
    rw [List.cons_append, scanExponent_cons]
    split at hs
    · next hc =>
      have hcs : cs ≠ [] := by
        rintro rfl
        cases hs
      rw [if_pos hc, splitSign_append hcs]
      exact scanExponentDigits_append h hs
    · next hc =>
      cases hs
      rw [if_neg hc]
      rfl

/-- A numeral behind its sign. -/
def scanMagnitude (negative : Bool) (cs : List Char) : Option (Numeral × List Char) :=
  (scanWhole cs).bind fun (whole, cs) =>
    (scanFraction cs).bind fun (fraction, cs) =>
      (scanExponent cs).map fun (exponent, cs) => (⟨negative, whole, fraction, exponent⟩, cs)

theorem scanMagnitude_append (h : Ends rest) {negative : Bool} {cs left : List Char} {n : Numeral}
    (hs : scanMagnitude negative cs = some (n, left)) :
    scanMagnitude negative (cs ++ rest) = some (n, left ++ rest) := by
  unfold scanMagnitude at hs ⊢
  obtain ⟨⟨whole, cs₁⟩, hwhole, hs⟩ := Option.bind_eq_some_iff.1 hs
  obtain ⟨⟨fraction, cs₂⟩, hfraction, hs⟩ := Option.bind_eq_some_iff.1 hs
  obtain ⟨⟨exponent, cs₃⟩, hexponent, heq⟩ := Option.map_eq_some_iff.1 hs
  cases heq
  simp only [scanWhole_append h hwhole, scanFraction_append h hfraction,
    scanExponent_append h hexponent, Option.bind_some, Option.map_some]

/-- A magnitude starts with a digit. -/
theorem scanMagnitude_head {negative : Bool} {cs left : List Char} {n : Numeral}
    (hs : scanMagnitude negative cs = some (n, left)) : ∃ c ds, cs = c :: ds ∧ c.isDigit = true := by
  obtain ⟨⟨whole, cs₁⟩, hwhole, -⟩ := Option.bind_eq_some_iff.1 hs
  obtain ⟨hspan, hne, -⟩ := scanWhole_eq_some.1 hwhole
  unfold spanDigits at hspan
  cases cs with
  | nil =>
    cases hspan
    exact absurd rfl hne
  | cons c ds =>
    cases hc : c.isDigit with
    | true => exact ⟨c, ds, rfl, hc⟩
    | false =>
      rw [List.takeWhile_cons_of_neg (by simp [hc])] at hspan
      cases hspan
      exact absurd rfl hne

theorem scanNumeral_of_ne {c : Char} (hc : c ≠ '-') (cs : List Char) :
    scanNumeral (c :: cs) = scanMagnitude false (c :: cs) := by
  unfold scanNumeral
  split
  · next h =>
    split at h
    · next heq => exact absurd (List.cons.inj heq).1 hc
    · next heq => cases h; rfl

/-- A numeral starts with a digit or the sign. -/
theorem scanNumeral_head {cs left : List Char} {n : Numeral} (hs : scanNumeral cs = some (n, left)) :
    ∃ c ds, cs = c :: ds ∧ (c = '-' ∨ c.isDigit = true) := by
  cases cs with
  | nil => cases hs
  | cons c cs =>
    by_cases hc : c = '-'
    · exact ⟨c, cs, rfl, .inl hc⟩
    · rw [scanNumeral_of_ne hc] at hs
      obtain ⟨d, ds, heq, hd⟩ := scanMagnitude_head hs
      exact ⟨d, ds, heq, .inr hd⟩

/-- A numeral reads in front of a mark or a blank as it reads by itself. -/
theorem scanNumeral_append (h : Ends rest) {cs left : List Char} {n : Numeral}
    (hs : scanNumeral cs = some (n, left)) : scanNumeral (cs ++ rest) = some (n, left ++ rest) := by
  obtain ⟨c, cs, rfl, -⟩ := scanNumeral_head hs
  by_cases hc : c = '-'
  · subst hc
    exact scanMagnitude_append h hs
  · rw [scanNumeral_of_ne hc] at hs
    rw [List.cons_append, scanNumeral_of_ne hc, ← List.cons_append]
    exact scanMagnitude_append h hs

/-- A numeral at the front of a text is one token. -/
theorem scanToken_numeral {cs left : List Char} {n : Numeral} (hs : scanNumeral cs = some (n, left)) :
    scanToken cs = some (.scalar n.value, left) := by
  obtain ⟨c, ds, rfl, hc⟩ := scanNumeral_head hs
  have hother {d : Char} {others : List Char} (heq : c :: ds = d :: others) (hd : d ≠ '-')
      (hdigit : d.isDigit = false) : False := by
    obtain ⟨rfl, -⟩ := List.cons.inj heq
    rcases hc with hc | hc
    · exact hd hc
    · rw [hdigit] at hc
      cases hc
  rw [scanToken]
  · rw [hs]
    rfl
  all_goals exact fun _ heq => hother heq (by decide) (by decide)

/-! ### Counts -/

theorem natOfDigits_toDigits (n : Nat) : Decimal.natOfDigits (Nat.toDigits 10 n) = n :=
  Nat.ofDigitChars_ten_toDigits

/-- Only the digits of zero start with one. -/
theorem toDigits_head {n : Nat} (hn : 0 < n) : ∃ c ds, Nat.toDigits 10 n = c :: ds ∧ c ≠ '0' := by
  induction n using Nat.strongRecOn with
  | _ n ih =>
    by_cases hlt : n < 10
    · exact ⟨n.digitChar, [], Nat.toDigits_of_lt_base hlt, fun h => by simp at h; omega⟩
    · obtain ⟨c, ds, heq, hc⟩ := ih (n / 10) (by omega) (by omega)
      exact ⟨c, ds ++ [(n % 10).digitChar], by rw [Nat.toDigits_of_base_le (by omega) (by omega), heq]; rfl,
        hc⟩

/-- The digits of a count are a numeral. -/
theorem scanNumeral_natural (n : Nat) :
    scanNumeral (Nat.toDigits 10 n) = some (⟨false, Nat.toDigits 10 n, [], none⟩, []) := by
  have hdigits (c : Char) (hc : c ∈ Nat.toDigits 10 n) : c.isDigit = true :=
    Nat.isDigit_of_mem_toDigits (by decide) (by decide) hc
  have hspan : spanDigits (Nat.toDigits 10 n) = (Nat.toDigits 10 n, []) := by
    unfold spanDigits
    rw [List.takeWhile_eq_self_iff.2 hdigits, List.dropWhile_eq_nil_iff.2 hdigits]
  have hwhole : scanWhole (Nat.toDigits 10 n) = some (Nat.toDigits 10 n, []) := by
    refine scanWhole_eq_some.2 ⟨hspan, Nat.toDigits_ne_nil, fun d others heq => ?_⟩
    rcases Nat.eq_zero_or_pos n with rfl | hn
    · rw [Nat.toDigits_zero] at heq
      cases heq
    · obtain ⟨c, ds, hcons, hc⟩ := toDigits_head hn
      rw [hcons] at heq
      exact hc (List.cons.inj heq).1
  have hmagnitude : scanMagnitude false (Nat.toDigits 10 n)
      = some (⟨false, Nat.toDigits 10 n, [], none⟩, []) := by
    unfold scanMagnitude
    rw [hwhole]
    rfl
  obtain ⟨c, ds, hcons, hc⟩ := scanMagnitude_head hmagnitude
  have hne : c ≠ '-' := by
    rintro rfl
    cases hc
  rw [hcons] at hmagnitude ⊢
  rw [scanNumeral_of_ne hne]
  exact hmagnitude

theorem value_natural {n : Nat} (hn : n < 2 ^ 64) :
    Numeral.value ⟨false, Nat.toDigits 10 n, [], none⟩ = .integer n := by
  have htoInt : Numeral.toInt? ⟨false, Nat.toDigits 10 n, [], none⟩ = some (n : Int) := by
    unfold Numeral.toInt?
    simp only [natOfDigits_toDigits]
    exact if_pos hn
  unfold Numeral.value
  rw [htoInt]

end AnnotatedLogic.Document.Json
