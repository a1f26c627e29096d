import ElmBindings.Proofs.Written
import Mathlib

set_option autoImplicit false

/-! # Numbers and their texts

The text of an integer is read as that integer, and the text of a finite float as a float. A text
of a number is a sign, a whole part and perhaps a fraction; `text_parts` and `floatText_parts` say
that the printer writes no other form, and `numberToken?_parts` that the lexer reads this one. -/

namespace ElmBindings

namespace GraphQL

/-- Whether digits are the whole part of a number: zero, or digits of which the first is not zero. -/
def IsWhole (digits : List Char) : Prop :=
  digits = ['0'] ∨ (digits ≠ [] ∧ digits.head? ≠ some '0' ∧ digits.all Char.isDigit = true)

/-- The sign of a number. -/
def signChars (negative : Bool) : List Char := if negative then ['-'] else []

theorem isDigit_of_mem_toDigits {n : Nat} {c : Char} (h : c ∈ Nat.toDigits 10 n) :
    c.isDigit = true :=
  Nat.isDigit_of_mem_toDigits (by decide) (by decide) h

theorem head?_toDigits_ne {n : Nat} (hn : n ≠ 0) : (Nat.toDigits 10 n).head? ≠ some '0' := by
  induction n using Nat.strongRecOn with
  | ind n ih =>
    rw [Nat.toDigits_eq_if (by decide)]
    split
    · next hlt =>
      have hall : ∀ n < 10, n ≠ 0 → [Nat.digitChar n].head? ≠ some '0' := by decide
      exact hall n hlt hn
    · next hge =>
      rw [List.head?_append_of_ne_nil _ Nat.toDigits_ne_nil]
      exact ih (n / 10) (by omega) (by omega)

theorem isWhole_toDigits (n : Nat) : IsWhole (Nat.toDigits 10 n) := by
  by_cases hn : n = 0
  · exact .inl (by rw [hn, Nat.toDigits_zero])
  · exact .inr ⟨Nat.toDigits_ne_nil, head?_toDigits_ne hn,
      List.all_eq_true.mpr fun _ => isDigit_of_mem_toDigits⟩

theorem IsWhole.isDigit {digits : List Char} (h : IsWhole digits) :
    ∀ c ∈ digits, c.isDigit = true := by
  rcases h with rfl | ⟨-, -, hall⟩
  · simp
  · exact List.all_eq_true.mp hall

theorem signedDigits?_sign {digits : List Char} (h : IsWhole digits) (negative : Bool) :
    signedDigits? (signChars negative ++ digits) = some (negative, digitsValue digits) := by
  have hminus : digits.head? ≠ some '-' := by
    intro hhead
    have hdigit := h.isDigit '-' (List.mem_of_mem_head? hhead)
    cases hdigit
  have hsign : ((signChars negative ++ digits).head? == some '-') = negative := by
    cases negative <;> simp [signChars, hminus]
  have hrest : (if negative = true then (signChars negative ++ digits).drop 1
      else signChars negative ++ digits) = digits := by
    cases negative <;> simp [signChars]
  simp only [signedDigits?, hsign, hrest]
  exact if_pos h

theorem toList_toString_int (n : Int) :
    (toString n).toList = signChars (decide (n < 0)) ++ Nat.toDigits 10 n.natAbs := by
  rw [Int.toString_eq_repr, Int.repr_eq_if]
  by_cases hn : 0 ≤ n
  · have hnat : n.toNat = n.natAbs := by omega
    rw [if_pos hn, Nat.toList_repr, hnat, decide_eq_false (not_lt.mpr hn)]
    rfl
  · have hnat : (-n).toNat = n.natAbs := by omega
    rw [if_neg hn, String.toList_append, Nat.toList_repr, hnat, decide_eq_true (not_le.mp hn)]
    rfl

theorem intToken?_toString {floats : Binary64 → Bool} {n : Int}
    (hn : Token.Valid floats (.int n)) : intToken? (toString n).toList = some (.int n) := by
  have hdigits := signedDigits?_sign (isWhole_toDigits n.natAbs) (decide (n < 0))
  have hmagnitude : digitsValue (Nat.toDigits 10 n.natAbs) = n.natAbs :=
    Nat.ofDigitChars_ten_toDigits
  rw [← toList_toString_int, hmagnitude] at hdigits
  have hvalue : (if decide (n < 0) = true then -(n.natAbs : Int) else (n.natAbs : Int)) = n := by
    by_cases hneg : n < 0
    · rw [if_pos (decide_eq_true hneg)]
      omega
    · rw [if_neg (by simpa using hneg)]
      omega
  simp only [intToken?, hdigits, Option.bind_eq_bind, Option.bind_some, hvalue]
  exact if_pos hn

/-! ## Floats -/

/-- Whether characters are decimal digits. -/
def AllDigits (cs : List Char) : Prop := ∀ c ∈ cs, c.isDigit = true

/-- A fraction after a point, or nothing if there are no digits. -/
def fractionChars (fraction : List Char) : List Char :=
  if fraction.isEmpty then [] else '.' :: fraction

theorem allDigits_replicate (n : Nat) : AllDigits (List.replicate n '0') := by
  intro c hc
  rw [List.eq_of_mem_replicate hc]
  decide

theorem AllDigits.append {xs ys : List Char} (hxs : AllDigits xs) (hys : AllDigits ys) :
    AllDigits (xs ++ ys) := by
  intro c hc
  rcases List.mem_append.mp hc with h | h
  · exact hxs c h
  · exact hys c h

/-- The whole part of digits of which so many stand after the point, with zeros in front where there
are not enough. -/
theorem isWhole_take_padded {digits : List Char} (hhead : digits.head? ≠ some '0')
    (hdigits : AllDigits digits) (places : Nat) :
    IsWhole ((List.replicate (places + 1 - digits.length) '0' ++ digits).take
      ((List.replicate (places + 1 - digits.length) '0' ++ digits).length - places)) := by
  by_cases hlen : places < digits.length
  · -- no zero is needed, and the first digit is not one
    have hzero : places + 1 - digits.length = 0 := by omega
    rw [hzero, List.replicate_zero, List.nil_append]
    refine .inr ⟨?_, ?_, ?_⟩
    · intro hnil
      have hlength := congrArg List.length hnil
      rw [List.length_take, List.length_nil] at hlength
      omega
    · rw [List.head?_take, if_neg (by omega)]
      exact hhead
    · exact List.all_eq_true.mpr fun c hc => hdigits c (List.mem_of_mem_take hc)
  · -- all digits stand after the point, so the whole part is one of the zeros
    obtain ⟨zeros, hzeros⟩ : ∃ zeros, places + 1 - digits.length = zeros + 1 :=
      ⟨places - digits.length, by omega⟩
    have hone : (List.replicate (zeros + 1) '0' ++ digits).length - places = 1 := by
      rw [List.length_append, List.length_replicate]
      omega
    rw [hzeros, hone, List.replicate_succ, List.cons_append, List.take_succ_cons, List.take_zero]
    exact .inl rfl

end GraphQL

namespace Binary64

open GraphQL

/-- A positive decimal is written as a whole part and a fraction. -/
theorem Decimal.text_parts {d : Decimal} (hd : d.coefficient ≠ 0) :
    ∃ whole fraction, d.text.toList = whole ++ fractionChars fraction ∧ IsWhole whole ∧
      AllDigits fraction := by
  have hdigits : AllDigits (Nat.toDigits 10 d.coefficient) := fun _ => isDigit_of_mem_toDigits
  have hhead := head?_toDigits_ne hd
  have hne : Nat.toDigits 10 d.coefficient ≠ [] := Nat.toDigits_ne_nil
  unfold Decimal.text
  extract_lets digits places padded whole fraction
  split
  · refine ⟨digits ++ List.replicate d.exponent.toNat '0', [], ?_, .inr ⟨?_, ?_, ?_⟩, ?_⟩
    · simp [fractionChars]
    · simp [digits]
    · rwa [List.head?_append_of_ne_nil _ hne]
    · exact List.all_eq_true.mpr (hdigits.append (allDigits_replicate _))
    · simp [AllDigits]
  · refine ⟨padded.take whole, fraction, ?_, isWhole_take_padded hhead hdigits places, ?_⟩
    · simp [fractionChars]
    · intro c hc
      -- zeros at the end are cut, which leaves digits of the padded ones
      have hmem : c ∈ padded := by
        have hdrop := (List.dropWhile_suffix _).subset (List.mem_reverse.mp hc)
        exact List.mem_of_mem_drop (List.mem_reverse.mp hdrop)
      exact (allDigits_replicate _).append hdigits c hmem

theorem lowerEnd_pos {m : Nat} (hm : m ≠ 0) (s : Nat) : 0 < lowerEnd m s := by
  have hpow : 0 < twoPow s := Nat.pow_pos (by decide)
  unfold lowerEnd
  split
  all_goals exact Nat.mul_pos (by omega) hpow

theorem readsBack_ne_zero {m s c : Nat} {e : Int} (hm : m ≠ 0) (h : readsBack m s c e = true) :
    c ≠ 0 := by
  rintro rfl
  have hpow : 0 < tenPow (-e).toNat := Nat.pow_pos (by decide)
  have hlower := Nat.mul_pos (lowerEnd_pos hm s) hpow
  simp only [readsBack, Nat.zero_mul] at h
  split at h
  all_goals
    rw [Bool.and_eq_true, decide_eq_true_eq] at h
    omega

theorem readsBack_of_onGrid {m s c : Nat} {e : Int} (h : onGrid m s e = some c) :
    readsBack m s c e = true := by
  unfold onGrid at h
  extract_lets num den below r preferred at h
  simpa only using List.find?_some h

theorem shortest_ne_zero {m : Nat} (hm : m ≠ 0) (s : Nat) : (shortest m s).coefficient ≠ 0 := by
  unfold shortest
  extract_lets top found
  cases hfound : found with
  | none =>
    exact Nat.mul_ne_zero hm (Nat.pow_pos (by decide)).ne'
  | some d =>
    obtain ⟨n, -, hn⟩ := List.exists_of_findSome?_eq_some hfound
    obtain ⟨c, hc, rfl⟩ := Option.map_eq_some_iff.mp hn
    exact readsBack_ne_zero hm (readsBack_of_onGrid hc)

/-- The text of a finite number has a sign, a whole part and perhaps a fraction. -/
theorem text_parts {x : Binary64} (hx : x.isFinite = true) :
    ∃ whole fraction, x.text.toList = signChars x.isNegative ++ (whole ++ fractionChars fraction) ∧
      IsWhole whole ∧ AllDigits fraction := by
  have hnan : x.isNaN = false := by
    simp_all [isFinite, isNaN]
  have hmagnitude : ∃ whole fraction,
      (if x.significand = 0 then "0" else (shortest x.significand x.scale).text).toList =
        whole ++ fractionChars fraction ∧ IsWhole whole ∧ AllDigits fraction := by
    split
    · exact ⟨['0'], [], rfl, .inl rfl, by simp [AllDigits]⟩
    · next hm => exact Decimal.text_parts (shortest_ne_zero hm x.scale)
  obtain ⟨whole, fraction, htext, hwhole, hfraction⟩ := hmagnitude
  refine ⟨whole, fraction, ?_, hwhole, hfraction⟩
  rw [text]
  simp only [hnan, hx, Bool.false_eq_true, Bool.not_true, if_false]
  cases x.isNegative with
  | true => rw [if_pos rfl, String.toList_append, htext]; rfl
  | false => rw [if_neg (by decide), htext]; rfl

end Binary64

namespace GraphQL

/-- Whether a character marks a fraction or an exponent. -/
def isFloatMark (c : Char) : Bool := c == '.' || isExponentMark c

theorem AllDigits.not_mark {cs : List Char} (h : AllDigits cs) : ∀ c ∈ cs, isFloatMark c = false := by
  intro c hc
  by_contra hne
  have hmark := Bool.eq_true_of_not_eq_false hne
  have hdigit := h c hc
  simp only [isFloatMark, isExponentMark, Bool.or_eq_true, beq_iff_eq] at hmark
  rcases hmark with rfl | rfl | rfl <;> cases hdigit

theorem IsWhole.not_mark {whole : List Char} (h : IsWhole whole) (negative : Bool) :
    ∀ c ∈ signChars negative ++ whole, isFloatMark c = false := by
  intro c hc
  rcases List.mem_append.mp hc with hsign | hdigit
  · cases negative with
    | true => rw [List.mem_singleton.mp hsign]; rfl
    | false => cases hsign
  · exact AllDigits.not_mark h.isDigit c hdigit

/-- The text of a finite number as a float has a sign, a whole part and a fraction. -/
theorem floatText_parts {x : Binary64} (hx : x.isFinite = true) :
    ∃ whole fraction, (floatText x).toList = signChars x.isNegative ++ whole ++ '.' :: fraction ∧
      IsWhole whole ∧ fraction ≠ [] ∧ AllDigits fraction := by
  obtain ⟨whole, fraction, htext, hwhole, hfraction⟩ := Binary64.text_parts hx
  have hmarks : x.text.toList.any (fun c => c == '.' || c == 'e' || c == 'E') =
      x.text.toList.any isFloatMark := by
    congr 1
    funext c
    rw [isFloatMark, isExponentMark, Bool.or_assoc]
  simp only [floatText, hmarks]
  cases fraction with
  | nil =>
    -- a whole number is printed without a point, so a fraction is put behind it
    have hplain : x.text.toList.any isFloatMark = false := by
      rw [htext, fractionChars, List.isEmpty_nil, if_pos rfl, List.append_nil, List.any_eq_false]
      exact fun c hc => Bool.not_eq_true _ ▸ hwhole.not_mark _ c hc
    refine ⟨whole, ['0'], ?_, hwhole, by simp, by simp [AllDigits]⟩
    rw [hplain, if_neg (by decide), String.toList_append, htext]
    simp [fractionChars]
  | cons d fraction =>
    have hmark : x.text.toList.any isFloatMark = true := by
      rw [List.any_eq_true]
      exact ⟨'.', by simp [htext, fractionChars], rfl⟩
    refine ⟨whole, d :: fraction, ?_, hwhole, by simp, hfraction⟩
    rw [hmark, if_pos rfl, htext]
    simp [fractionChars]

theorem splitLast?_eq_none {isMark : Char → Bool} {cs : List Char}
    (h : ∀ c ∈ cs, isMark c = false) : splitLast? isMark cs = none := by
  have hafter : (cs.reverse.takeWhile (!isMark ·)).reverse = cs := by
    rw [List.takeWhile_eq_self_iff.mpr, List.reverse_reverse]
    intro c hc
    rw [h c (List.mem_reverse.mp hc)]
    rfl
  rw [splitLast?, hafter]
  exact if_neg (lt_irrefl _)

theorem splitLast?_append {isMark : Char → Bool} {mark : Char} {before after : List Char}
    (hmark : isMark mark = true) (h : ∀ c ∈ after, isMark c = false) :
    splitLast? isMark (before ++ mark :: after) = some (before, after) := by
  have hafter : ((before ++ mark :: after).reverse.takeWhile (!isMark ·)).reverse = after := by
    rw [List.reverse_append, List.reverse_cons, List.append_assoc, List.takeWhile_append_of_pos]
    · simp [hmark]
    · intro c hc
      rw [h c (List.mem_reverse.mp hc)]
      rfl
  have hlength : (before ++ mark :: after).length = before.length + 1 + after.length := by
    rw [List.length_append, List.length_cons]
    omega
  simp only [splitLast?, hafter, hlength]
  rw [if_pos (by omega), Nat.add_sub_cancel_right, Nat.add_sub_cancel_right, List.take_left']
  rfl

/-- A whole part and a fraction are read as a float. -/
theorem numberToken?_parts (negative : Bool) {whole fraction : List Char} (hwhole : IsWhole whole)
    (hne : fraction ≠ []) (hfraction : AllDigits fraction) :
    numberToken? (signChars negative ++ whole ++ '.' :: fraction) =
      some (.float (.ofDecimal negative
        (digitsValue whole * tenPow fraction.length + digitsValue fraction)
        (0 - (fraction.length : Int)))) := by
  have hmark : (signChars negative ++ whole ++ '.' :: fraction).any
      (fun c => c == '.' || isExponentMark c) = true :=
    List.any_eq_true.mpr ⟨'.', by simp, rfl⟩
  have hexponent : splitLast? isExponentMark (signChars negative ++ whole ++ '.' :: fraction) =
      none := by
    refine splitLast?_eq_none fun c hc => ?_
    rcases List.mem_append.mp hc with hc | hc
    · exact (Bool.or_eq_false_iff.mp (hwhole.not_mark negative c hc)).2
    · rcases List.mem_cons.mp hc with rfl | hc
      · rfl
      · exact (Bool.or_eq_false_iff.mp (hfraction.not_mark c hc)).2
  have hpoint : splitLast? (· == '.') (signChars negative ++ whole ++ '.' :: fraction) =
      some (signChars negative ++ whole, fraction) :=
    splitLast?_append rfl fun c hc => (Bool.or_eq_false_iff.mp (hfraction.not_mark c hc)).1
  rw [numberToken?, hmark, if_pos rfl]
  simp only [floatToken?, hexponent, hpoint, signedDigits?_sign hwhole, Option.bind_eq_bind,
    Option.bind_some]
  exact if_pos ⟨hne, List.all_eq_true.mpr hfraction⟩

end GraphQL

/-- The float that the text of a float is read as. -/
def Binary64.reread (x : Binary64) : Binary64 :=
  match GraphQL.numberToken? (GraphQL.floatText x).toList with
  | some (.float y) => y
  | _ => x

theorem GraphQL.numberToken?_floatText {x : Binary64} (hx : x.isFinite = true) :
    numberToken? (floatText x).toList = some (.float x.reread) := by
  obtain ⟨whole, fraction, htext, hwhole, hne, hfraction⟩ := floatText_parts hx
  have htoken := numberToken?_parts x.isNegative hwhole hne hfraction
  rw [← htext] at htoken
  delta Binary64.reread
  rw [htoken]

end ElmBindings
