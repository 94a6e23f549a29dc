import TaggedCache.Json.Printer
import TaggedCache.Proofs.Binary.Decimals
import TaggedCache.Proofs.Json.Numeral
import Mathlib.Data.List.TakeWhile

namespace TaggedCache.Json

open Binary

-- The digits of a positive number end in zeros, and the part before them is a number
-- that starts with another digit.
theorem exists_significant {n : Nat} (hn : 0 < n) :
    ∃ digits : List Char, ∃ zeros : Nat,
      ((Nat.toDigits 10 n).reverse.dropWhile (· == '0')).reverse = digits ∧
      (Nat.toDigits 10 n).length = digits.length + zeros ∧
      digits ≠ [] ∧ digits.head? ≠ some '0' ∧ (∀ c ∈ digits, isDigit c = true) ∧
      Nat.ofDigitChars 10 digits 0 * 10 ^ zeros = n := by
  let trailing := (Nat.toDigits 10 n).reverse.takeWhile (· == '0')
  have hzeros : trailing = List.replicate trailing.length '0' := by
    apply List.eq_replicate_of_mem
    intro c hc
    simpa using List.mem_takeWhile_imp hc
  have hsplit : Nat.toDigits 10 n =
      ((Nat.toDigits 10 n).reverse.dropWhile (· == '0')).reverse ++
        List.replicate trailing.length '0' := by
    have h := congrArg List.reverse (List.takeWhile_append_dropWhile (p := (· == '0'))
      (l := (Nat.toDigits 10 n).reverse))
    rw [List.reverse_reverse, List.reverse_append] at h
    conv_lhs => rw [← h]
    rw [show (Nat.toDigits 10 n).reverse.takeWhile (· == '0') = trailing from rfl, hzeros,
      List.reverse_replicate, List.length_replicate]
  generalize ((Nat.toDigits 10 n).reverse.dropWhile (· == '0')).reverse = digits at hsplit ⊢
  generalize trailing.length = zeros at hsplit
  have hvalue := Nat.ofDigitChars_ten_toDigits (n := n)
  rw [hsplit, Nat.ofDigitChars_append, Nat.ofDigitChars_replicate_zero, Nat.mul_comm] at hvalue
  have hne : digits ≠ [] := by
    rintro rfl
    simp at hvalue
    omega
  refine ⟨digits, zeros, rfl, ?_, hne, ?_, ?_, hvalue⟩
  · rw [hsplit, List.length_append, List.length_replicate]
  · have hhead := head?_toDigits_ne_zero hn
    obtain ⟨d, ds, rfl⟩ := List.exists_cons_of_ne_nil hne
    rw [hsplit] at hhead
    exact hhead
  · intro c hc
    apply isDigit_of_mem_toDigits (n := n)
    rw [hsplit]
    exact List.mem_append_left _ hc

-- A text that reads as a numeral with a fraction or an exponent. It stands for the given digits
-- times a power of ten, perhaps with zeros at the end of the digits.
def ReadsAs (text : List Char) (digits : Nat) (exponent : Int) : Prop :=
  ∀ (negative : Bool) (rest : List Char), StartsOutside continuesNumeral rest →
    ∃ zeros : Nat, scanUnsigned negative (text ++ rest) =
      some (⟨negative, digits * 10 ^ zeros, exponent - zeros, false⟩, rest)

theorem readsAs_point {whole fraction : List Char} {digits : Nat} {exponent : Int} (zeros : Nat)
    (hwhole : IsWhole whole) (hne : fraction ≠ []) (hfraction : ∀ c ∈ fraction, isDigit c = true)
    (hvalue : Nat.ofDigitChars 10 (whole ++ fraction) 0 = digits * 10 ^ zeros)
    (hexponent : -(fraction.length : Int) = exponent - zeros) :
    ReadsAs (whole ++ '.' :: fraction) digits exponent := by
  intro negative rest hrest
  refine ⟨zeros, ?_⟩
  rw [← hvalue, ← hexponent, List.append_assoc, List.cons_append]
  exact scanUnsigned_point negative hwhole hne hfraction hrest

theorem isDigit_of_mem_replicate {n : Nat} {c : Char} (h : c ∈ List.replicate n '0') :
    isDigit c = true := by
  rw [List.eq_of_mem_replicate h]
  decide

section Layout

variable {digits : List Char} (hne : digits ≠ []) (hhead : digits.head? ≠ some '0')
  (hdigits : ∀ c ∈ digits, isDigit c = true)

include hne hhead hdigits

theorem isWhole_take {n : Nat} (hn : 0 < n) : IsWhole (digits.take n) where
  ne_nil := by simp [hne]; omega
  isDigit c hc := hdigits c (List.mem_of_mem_take hc)
  zero h := by
    rw [List.head?_take, if_neg (by omega)] at h
    exact absurd h hhead

theorem isWhole_append_zeros (n : Nat) : IsWhole (digits ++ List.replicate n '0') where
  ne_nil := by simp [hne]
  isDigit c hc := by
    rcases List.mem_append.mp hc with hc | hc
    · exact hdigits c hc
    · exact isDigit_of_mem_replicate hc
  zero h := by
    obtain ⟨d, ds, rfl⟩ := List.exists_cons_of_ne_nil hne
    exact absurd h hhead

-- The first of the digits has the given decade in each layout.
theorem positional_readsAs (decade : Int) :
    ReadsAs (Style.positional digits decade) (Nat.ofDigitChars 10 digits 0)
      (decade + 1 - digits.length) := by
  have hlength := List.length_pos_iff.mpr hne
  by_cases hdecade : decade < 0
  · have hfraction : ∀ c ∈ List.replicate (-decade - 1).toNat '0' ++ digits, isDigit c = true := by
      intro c hc
      rcases List.mem_append.mp hc with hc | hc
      · exact isDigit_of_mem_replicate hc
      · exact hdigits c hc
    have htext : Style.positional digits decade =
        ['0'] ++ '.' :: (List.replicate (-decade - 1).toNat '0' ++ digits) := by
      simp [Style.positional, hdecade]
    rw [htext]
    apply readsAs_point 0 (isWhole_toDigits 0) (by simp [hne]) hfraction
    · simp [Nat.ofDigitChars_cons, Nat.ofDigitChars_append]
    · rw [List.length_append, List.length_replicate]
      omega
  · by_cases hfits : digits.length ≤ decade.toNat + 1
    · have htext : Style.positional digits decade =
          (digits ++ List.replicate (decade.toNat + 1 - digits.length) '0') ++ '.' :: ['0'] := by
        simp [Style.positional, hdecade, hfits]
      rw [htext]
      apply readsAs_point (decade.toNat + 1 - digits.length + 1)
        (isWhole_append_zeros hne hhead hdigits _) (by simp) (List.forall_mem_singleton.mpr rfl)
      · rw [List.append_assoc, ← List.replicate_succ', Nat.ofDigitChars_append,
          Nat.ofDigitChars_replicate_zero, Nat.mul_comm]
      · simp only [List.length_singleton]
        omega
    · have htext : Style.positional digits decade =
          digits.take (decade.toNat + 1) ++ '.' :: digits.drop (decade.toNat + 1) := by
        simp [Style.positional, hdecade, hfits]
      rw [htext]
      apply readsAs_point 0 (isWhole_take hne hhead hdigits (by omega))
      · intro hnil
        have := List.drop_eq_nil_iff.mp hnil
        omega
      · exact fun c hc => hdigits c (List.mem_of_mem_drop hc)
      · rw [List.take_append_drop, Nat.pow_zero, Nat.mul_one]
      · rw [List.length_drop]
        omega

theorem scientific_readsAs (decade : Int) :
    ReadsAs (Style.scientific digits decade) (Nat.ofDigitChars 10 digits 0)
      (decade + 1 - digits.length) := by
  have hlength := List.length_pos_iff.mpr hne
  intro negative rest hrest
  refine ⟨0, ?_⟩
  by_cases hone : digits.length ≤ 1
  · have htake : digits.take 1 = digits := List.take_of_length_le hone
    have htext : Style.scientific digits decade = digits ++ exponentChars decade := by
      simp [Style.scientific, exponentChars, hone, htake]
    have hwhole := isWhole_take hne hhead hdigits Nat.one_pos
    rw [htake] at hwhole
    rw [htext, List.append_assoc, scanUnsigned_exponent negative decade hwhole hrest.isDigit]
    congr 3
    · rw [Nat.pow_zero, Nat.mul_one]
    · omega
  · have htext : Style.scientific digits decade =
        digits.take 1 ++ '.' :: (digits.drop 1 ++ exponentChars decade) := by
      simp [Style.scientific, exponentChars, hone]
    have hdrop : digits.drop 1 ≠ [] := by
      intro hnil
      have := List.drop_eq_nil_iff.mp hnil
      omega
    rw [htext, List.append_assoc, List.cons_append, List.append_assoc,
      scanUnsigned_point_exponent negative decade (isWhole_take hne hhead hdigits Nat.one_pos) hdrop
        (fun c hc => hdigits c (List.mem_of_mem_drop hc)) hrest.isDigit]
    congr 3
    · rw [List.take_append_drop, Nat.pow_zero, Nat.mul_one]
    · rw [List.length_drop]
      omega

end Layout

-- The text of a decimal reads as that decimal without the zeros at its end.
theorem chars_readsAs (style : Style) (decimal : Decimal) (hpos : 0 < decimal.digits) :
    ∃ digits zeros : Nat, ReadsAs (style.chars decimal) digits (decimal.exponent + zeros) ∧
      digits * 10 ^ zeros = decimal.digits := by
  obtain ⟨digits, zeros, hstrip, hlength, hne, hhead, hdigits, hvalue⟩ := exists_significant hpos
  have hdecade :
      decimal.exponent + (Nat.toDigits 10 decimal.digits).length - 1 + 1 - digits.length =
        decimal.exponent + zeros := by
    rw [hlength]
    omega
  have hpositional := positional_readsAs hne hhead hdigits
    (decimal.exponent + (Nat.toDigits 10 decimal.digits).length - 1)
  have hscientific := scientific_readsAs hne hhead hdigits
    (decimal.exponent + (Nat.toDigits 10 decimal.digits).length - 1)
  rw [hdecade] at hpositional hscientific
  refine ⟨Nat.ofDigitChars 10 digits 0, zeros, ?_, hvalue⟩
  simp only [Style.chars, hstrip]
  split
  · exact hpositional
  · exact hscientific

theorem zero_readsAs : ReadsAs ['0', '.', '0'] 0 0 :=
  readsAs_point 1 (isWhole_toDigits 0) (by simp) (List.forall_mem_singleton.mpr rfl) rfl rfl

-- The text of a finite magnitude without its sign
theorem magnitude_readsAs (style : Style) {format : Format} (hformat : format.Moderate)
    {magnitude : Nat} (hfinite : magnitude < format.infinity) :
    ∃ digits exponent, format.nearestDecimal digits exponent = magnitude ∧
      ReadsAs (if magnitude = 0 then ['0', '.', '0'] else style.chars (format.shortest magnitude))
        digits exponent := by
  by_cases hzero : magnitude = 0
  · exact ⟨0, 0, by simp [Format.nearestDecimal, hzero], by simpa [hzero] using zero_readsAs⟩
  · have hback := Format.nearestDecimal_shortest hformat (by omega) hfinite
    have hpos : 0 < (format.shortest magnitude).digits := by
      apply Nat.pos_of_ne_zero
      intro hdigits
      rw [hdigits] at hback
      simp [Format.nearestDecimal] at hback
      omega
    obtain ⟨digits, zeros, hreads, hvalue⟩ := chars_readsAs style _ hpos
    refine ⟨digits, _, ?_, by simpa only [hzero, if_false] using hreads⟩
    rw [← format.nearestDecimal_mul_pow digits zeros, hvalue, Int.add_sub_cancel]
    exact hback

theorem scanNumeral_of_scanUnsigned {text rest : List Char} {numeral : Numeral}
    (h : scanUnsigned false text = some (numeral, rest)) :
    scanNumeral text = some (numeral, rest) := by
  unfold scanNumeral
  split
  · simp [scanUnsigned, scanWhole, spanDigits, isDigit] at h
  · exact h

theorem ofParts_self (f : Binary64) : Binary64.ofParts f.negative f.magnitude = f := by
  have hlt := f.bits.toNat_lt
  have hbits : (if f.negative then 0x8000000000000000 else 0) + f.magnitude = f.bits.toNat := by
    simp only [Binary64.negative, Binary64.magnitude, decide_eq_true_eq]
    split <;> omega
  simp [Binary64.ofParts, hbits]

theorem scanNumeral_double (f : Binary64) (hfinite : f.isFinite = true) {rest : List Char}
    (hrest : StartsOutside continuesNumeral rest) :
    ∃ numeral : Numeral, scanNumeral (f.chars ++ rest) = some (numeral, rest) ∧
      numeral.number? = some (.double f hfinite) := by
  obtain ⟨digits, exponent, hvalue, hreads⟩ := magnitude_readsAs Style.double Format.moderate_double
    (show f.magnitude < Format.double.infinity by simpa [Binary64.isFinite] using hfinite)
  obtain ⟨zeros, hscan⟩ := hreads f.negative rest hrest
  refine ⟨⟨f.negative, digits * 10 ^ zeros, exponent - zeros, false⟩, ?_, ?_⟩
  · cases hneg : f.negative with
    | false =>
        rw [hneg] at hscan
        simp only [Binary64.chars, Style.number, hneg]
        exact scanNumeral_of_scanUnsigned hscan
    | true =>
        rw [hneg] at hscan
        simp only [Binary64.chars, Style.number, hneg, if_true, List.cons_append, scanNumeral]
        exact hscan
  · simp [Numeral.number?, Binary64.ofDecimal, Format.nearestDecimal_mul_pow, hvalue, ofParts_self,
      Number.ofDouble?, hfinite]

theorem ofInt?_whole {value : Int} (least : -0x8000000000000000 ≤ value)
    (greatest : value < 0x10000000000000000) :
    Number.ofInt? value = some (.whole value least greatest) :=
  dif_pos ⟨least, greatest⟩

theorem scanNumeral_whole (value : Int) (least : -0x8000000000000000 ≤ value)
    (greatest : value < 0x10000000000000000) {rest : List Char}
    (hrest : StartsOutside continuesNumeral rest) :
    ∃ numeral : Numeral, scanNumeral (intChars value ++ rest) = some (numeral, rest) ∧
      numeral.number? = some (.whole value least greatest) := by
  have hscan := fun negative => scanUnsigned_whole negative (isWhole_toDigits value.natAbs) hrest
  simp only [Nat.ofDigitChars_ten_toDigits] at hscan
  by_cases hneg : value < 0
  · refine ⟨⟨true, value.natAbs, 0, true⟩, ?_, ?_⟩
    · simp only [intChars, hneg, if_true, List.cons_append, scanNumeral]
      exact hscan true
    · have hvalue : -(value.natAbs : Int) = value := by omega
      have hne : (value.natAbs == 0) = false := beq_false_of_ne (by omega)
      simp only [Numeral.number?, if_true, hvalue, hne, Bool.and_false, Bool.not_false,
        Bool.and_true, ofInt?_whole least greatest, Option.orElse_some]
  · refine ⟨⟨false, value.natAbs, 0, true⟩, ?_, ?_⟩
    · simp only [intChars, hneg, if_false, List.nil_append]
      exact scanNumeral_of_scanUnsigned (hscan false)
    · have hvalue : (value.natAbs : Int) = value := by omega
      simp only [Numeral.number?, hvalue, Bool.false_and, Bool.not_false, Bool.and_true, if_true,
        Bool.false_eq_true, if_false, ofInt?_whole least greatest, Option.orElse_some]

-- A number reads back as itself, whatever comes next, as long as that does not lengthen it.
theorem scanNumeral_chars (number : Number) {rest : List Char}
    (hrest : StartsOutside continuesNumeral rest) :
    ∃ numeral : Numeral, scanNumeral (number.chars ++ rest) = some (numeral, rest) ∧
      numeral.number? = some number := by
  cases number with
  | whole value least greatest => exact scanNumeral_whole value least greatest hrest
  | double value finite => exact scanNumeral_double value finite hrest

end TaggedCache.Json
