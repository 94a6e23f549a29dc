import TaggedCache.Json.Token

namespace TaggedCache.Json

theorem isDigit_eq (c : Char) : isDigit c = c.isDigit := by
  simp [isDigit, Char.isDigit, Char.le_def]

theorem isDigit_of_mem_toDigits {n : Nat} {c : Char} (h : c ∈ Nat.toDigits 10 n) :
    isDigit c = true := by
  rw [isDigit_eq]
  exact Nat.isDigit_of_mem_toDigits (by decide) (by decide) h

theorem head?_toDigits_ne_zero {n : Nat} (h : 0 < n) : (Nat.toDigits 10 n).head? ≠ some '0' := by
  induction n using Nat.strongRecOn with
  | ind n ih =>
      rw [Nat.toDigits_eq_if (by decide)]
      split
      · have hdigit : ∀ d < 10, 0 < d → Nat.digitChar d ≠ '0' := by decide
        simpa using hdigit n (by omega) h
      · obtain ⟨d, ds, hds⟩ :=
          List.exists_cons_of_ne_nil (Nat.toDigits_ne_nil (b := 10) (n := n / 10))
        have hhead := ih (n / 10) (by omega) (by omega)
        rw [hds] at hhead ⊢
        exact hhead

-- What follows does not start with a character that passes a test.
def StartsOutside (test : Char → Bool) (rest : List Char) : Prop :=
  ∀ c ∈ rest.head?, test c = false

theorem startsOutside_cons {test : Char → Bool} {c : Char} {rest : List Char} :
    StartsOutside test (c :: rest) ↔ test c = false := by
  simp [StartsOutside]

theorem startsOutside_nil {test : Char → Bool} : StartsOutside test [] := by
  simp [StartsOutside]

-- The characters that would lengthen a numeral
def continuesNumeral (c : Char) : Bool := isDigit c || c == '.' || c == 'e' || c == 'E'

theorem StartsOutside.isDigit {rest : List Char} (h : StartsOutside continuesNumeral rest) :
    StartsOutside isDigit rest := by
  intro c hc
  have := h c hc
  simp only [continuesNumeral, Bool.or_eq_false_iff] at this
  exact this.1.1.1

theorem spanDigits_append {digits rest : List Char} (hdigits : ∀ c ∈ digits, isDigit c = true)
    (hrest : StartsOutside isDigit rest) : spanDigits (digits ++ rest) = (digits, rest) := by
  have hstop : rest.takeWhile isDigit = [] ∧ rest.dropWhile isDigit = rest := by
    cases rest with
    | nil => simp
    | cons c rest => simp [startsOutside_cons.mp hrest]
  simp [spanDigits, List.takeWhile_append_of_pos hdigits, List.dropWhile_append_of_pos hdigits,
    hstop.1, hstop.2]

-- Digits that may stand before the point
structure IsWhole (digits : List Char) : Prop where
  ne_nil : digits ≠ []
  isDigit : ∀ c ∈ digits, isDigit c = true
  zero : digits.head? = some '0' → digits.length = 1

theorem isWhole_toDigits (n : Nat) : IsWhole (Nat.toDigits 10 n) where
  ne_nil := Nat.toDigits_ne_nil
  isDigit _ := isDigit_of_mem_toDigits
  zero h := by
    rcases Nat.eq_zero_or_pos n with rfl | hn
    · simp
    · exact absurd h (head?_toDigits_ne_zero hn)

theorem scanWhole_append {digits rest : List Char} (hdigits : IsWhole digits)
    (hrest : StartsOutside isDigit rest) : scanWhole (digits ++ rest) = some (digits, rest) := by
  unfold scanWhole
  rw [spanDigits_append hdigits.isDigit hrest]
  split
  · rename_i h
    exact absurd (congrArg Prod.fst h) hdigits.ne_nil
  · rename_i h
    obtain rfl := congrArg Prod.fst h
    simpa using hdigits.zero rfl
  · rename_i h
    rw [h]

theorem scanFraction_of_outside {rest : List Char} (h : StartsOutside continuesNumeral rest) :
    scanFraction rest = some ([], rest) := by
  cases rest with
  | nil => rfl
  | cons c rest =>
      have hc := startsOutside_cons.mp h
      unfold scanFraction
      split
      · rename_i heq
        obtain ⟨rfl, -⟩ := List.cons.inj heq
        simp [continuesNumeral] at hc
      · rfl

theorem scanFraction_point {digits rest : List Char} (hne : digits ≠ [])
    (hdigits : ∀ c ∈ digits, isDigit c = true) (hrest : StartsOutside isDigit rest) :
    scanFraction ('.' :: (digits ++ rest)) = some (digits, rest) := by
  simp only [scanFraction, spanDigits_append hdigits hrest]

theorem scanExponent_of_outside {rest : List Char} (h : StartsOutside continuesNumeral rest) :
    scanExponent rest = some (none, rest) := by
  cases rest with
  | nil => rfl
  | cons c rest =>
      have hc := startsOutside_cons.mp h
      simp only [continuesNumeral, Bool.or_eq_false_iff, beq_eq_false_iff_ne] at hc
      simp [scanExponent, hc.1.2, hc.2]

-- A signed exponent
def exponentChars (value : Int) : List Char :=
  'e' :: (if value < 0 then '-' else '+') :: Nat.toDigits 10 value.natAbs

theorem scanExponent_exponentChars (value : Int) {rest : List Char}
    (hrest : StartsOutside isDigit rest) :
    scanExponent (exponentChars value ++ rest) = some (some value, rest) := by
  have hspan := spanDigits_append (fun _ => isDigit_of_mem_toDigits (n := value.natAbs)) hrest
  have hvalue := Nat.ofDigitChars_ten_toDigits (n := value.natAbs)
  obtain ⟨d, ds, hds⟩ :=
    List.exists_cons_of_ne_nil (Nat.toDigits_ne_nil (b := 10) (n := value.natAbs))
  rw [hds] at hspan hvalue
  by_cases hneg : value < 0
  · simp only [exponentChars, hneg, if_true, hds, List.cons_append, scanExponent, scanSign]
    have hback : -(value.natAbs : Int) = value := by omega
    rw [← List.cons_append, hspan]
    simp only [hvalue, hback]
    rfl
  · simp only [exponentChars, hneg, if_false, hds, List.cons_append, scanExponent, scanSign]
    have hback : (value.natAbs : Int) = value := by omega
    rw [← List.cons_append, hspan]
    simp only [hvalue, hback]
    rfl

theorem scanUnsigned_whole (negative : Bool) {whole rest : List Char} (hwhole : IsWhole whole)
    (hrest : StartsOutside continuesNumeral rest) :
    scanUnsigned negative (whole ++ rest) =
      some (⟨negative, Nat.ofDigitChars 10 whole 0, 0, true⟩, rest) := by
  simp [scanUnsigned, scanWhole_append hwhole hrest.isDigit, scanFraction_of_outside hrest,
    scanExponent_of_outside hrest]

theorem scanUnsigned_point (negative : Bool) {whole fraction rest : List Char}
    (hwhole : IsWhole whole) (hne : fraction ≠ []) (hfraction : ∀ c ∈ fraction, isDigit c = true)
    (hrest : StartsOutside continuesNumeral rest) :
    scanUnsigned negative (whole ++ '.' :: (fraction ++ rest)) =
      some (⟨negative, Nat.ofDigitChars 10 (whole ++ fraction) 0, -fraction.length, false⟩,
        rest) := by
  have hpoint : StartsOutside isDigit ('.' :: (fraction ++ rest)) :=
    startsOutside_cons.mpr (by decide)
  simp [scanUnsigned, scanWhole_append hwhole hpoint,
    scanFraction_point hne hfraction hrest.isDigit, scanExponent_of_outside hrest, hne]

theorem scanUnsigned_exponent (negative : Bool) {whole rest : List Char} (exponent : Int)
    (hwhole : IsWhole whole) (hrest : StartsOutside isDigit rest) :
    scanUnsigned negative (whole ++ (exponentChars exponent ++ rest)) =
      some (⟨negative, Nat.ofDigitChars 10 whole 0, exponent, false⟩, rest) := by
  have hletter : StartsOutside isDigit (exponentChars exponent ++ rest) :=
    startsOutside_cons.mpr (by decide)
  have hfraction : scanFraction (exponentChars exponent ++ rest) =
      some ([], exponentChars exponent ++ rest) := rfl
  simp [scanUnsigned, scanWhole_append hwhole hletter, hfraction,
    scanExponent_exponentChars exponent hrest]

theorem scanUnsigned_point_exponent (negative : Bool) {whole fraction rest : List Char}
    (exponent : Int) (hwhole : IsWhole whole) (hne : fraction ≠ [])
    (hfraction : ∀ c ∈ fraction, isDigit c = true) (hrest : StartsOutside isDigit rest) :
    scanUnsigned negative (whole ++ '.' :: (fraction ++ (exponentChars exponent ++ rest))) =
      some (⟨negative, Nat.ofDigitChars 10 (whole ++ fraction) 0, exponent - fraction.length,
        false⟩, rest) := by
  have hpoint : StartsOutside isDigit ('.' :: (fraction ++ (exponentChars exponent ++ rest))) :=
    startsOutside_cons.mpr (by decide)
  have hletter : StartsOutside isDigit (exponentChars exponent ++ rest) :=
    startsOutside_cons.mpr (by decide)
  simp [scanUnsigned, scanWhole_append hwhole hpoint, scanFraction_point hne hfraction hletter,
    scanExponent_exponentChars exponent hrest]

end TaggedCache.Json
