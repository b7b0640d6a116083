import Mathlib.Tactic

/-!
# Decimal numbers and file names as text

Two readings of text.  A decimal number is read digit by digit with an overflow
check after every digit, and reading back a number padded with zeros gives the
number.  A byte string is read as UTF-8 with one replacement character for every
malformed piece, and such a reading starts with an ASCII text only when the
bytes do.
-/

namespace InMemoryDb.Text

/-! ## Decimal numbers -/

/-- The digits of `value`, with zeros in front up to `width` characters. -/
def zeroPadded (width value : ℕ) : List Char :=
  (Nat.toDigits 10 value).leftpad width '0'

/-- Reads digits onto `value`; a character that is not a digit and a value that
reaches `limit` are both rejected. -/
def readDigits (limit : ℕ) : List Char → ℕ → Option ℕ
  | [], value => some value
  | c :: text, value =>
      if c.isDigit ∧ value * 10 + (c.toNat - '0'.toNat) < limit then
        readDigits limit text (value * 10 + (c.toNat - '0'.toNat))
      else none

theorem le_ofDigitChars (text : List Char) (value : ℕ) :
    value ≤ Nat.ofDigitChars 10 text value := by
  induction text generalizing value with
  | nil => rw [Nat.ofDigitChars_nil]
  | cons c text ih =>
      rw [Nat.ofDigitChars_cons]
      calc value ≤ 10 * value + (c.toNat - '0'.toNat) := by omega
        _ ≤ _ := ih _

/-- Digits that denote a number below the limit are read as that number. -/
theorem readDigits_of_lt {limit value : ℕ} {text : List Char}
    (hdigits : ∀ c ∈ text, c.isDigit) (hlt : Nat.ofDigitChars 10 text value < limit) :
    readDigits limit text value = some (Nat.ofDigitChars 10 text value) := by
  induction text generalizing value with
  | nil => rw [readDigits, Nat.ofDigitChars_nil]
  | cons c text ih =>
      rw [Nat.ofDigitChars_cons, mul_comm] at hlt ⊢
      have hnext := (le_ofDigitChars text _).trans_lt hlt
      rw [readDigits, if_pos ⟨hdigits c List.mem_cons_self, hnext⟩]
      exact ih (fun d hd => hdigits d (List.mem_cons_of_mem c hd)) hlt

theorem isDigit_of_mem_zeroPadded {width value : ℕ} {c : Char}
    (hmem : c ∈ zeroPadded width value) : c.isDigit := by
  rw [zeroPadded, List.leftpad, List.mem_append] at hmem
  rcases hmem with hzero | hdigit
  · rw [List.eq_of_mem_replicate hzero]
    rfl
  · exact Nat.isDigit_of_mem_toDigits (by decide) (by decide) hdigit

theorem zeroPadded_ne_nil (width value : ℕ) : zeroPadded width value ≠ [] := by
  intro hnil
  rw [zeroPadded, List.leftpad, List.append_eq_nil_iff] at hnil
  exact Nat.toDigits_ne_nil hnil.2

theorem readDigits_zeroPadded {limit value : ℕ} (width : ℕ) (hlt : value < limit) :
    readDigits limit (zeroPadded width value) 0 = some value := by
  have hvalue : Nat.ofDigitChars 10 (zeroPadded width value) 0 = value := by
    rw [zeroPadded, List.leftpad, Nat.ofDigitChars_append, Nat.ofDigitChars_replicate_zero,
      mul_zero, Nat.ofDigitChars_ten_toDigits]
  have hread := readDigits_of_lt (fun c => isDigit_of_mem_zeroPadded) (hvalue.trans_lt hlt)
  rwa [hvalue] at hread

/-! ## Lossy UTF-8 -/

/-- The replacement character U+FFFD. -/
def replacement : Char := Char.ofNat 0xFFFD

/-- The byte at the head as a trailing byte of a character, when it lies in the
range that is allowed there. -/
def trailing (low high : ℕ) : List UInt8 → Option ℕ
  | [] => none
  | byte :: _ => if low ≤ byte.toNat ∧ byte.toNat ≤ high then some (byte.toNat - 0x80) else none

/-- A character of two bytes, or the malformed piece read for it, with the
number of bytes behind the first that it takes. -/
def lossyTwo (first : ℕ) (rest : List UInt8) : Char × ℕ :=
  match trailing 0x80 0xBF rest with
  | some second => (Char.ofNat ((first - 0xC0) * 0x40 + second), 1)
  | none => (replacement, 0)

def lossyThree (first : ℕ) (rest : List UInt8) : Char × ℕ :=
  match trailing (if first = 0xE0 then 0xA0 else 0x80) (if first = 0xED then 0x9F else 0xBF)
    rest with
  | none => (replacement, 0)
  | some second =>
      match trailing 0x80 0xBF (rest.drop 1) with
      | none => (replacement, 1)
      | some third =>
          (Char.ofNat ((first - 0xE0) * 0x1000 + second * 0x40 + third), 2)

def lossyFour (first : ℕ) (rest : List UInt8) : Char × ℕ :=
  match trailing (if first = 0xF0 then 0x90 else 0x80) (if first = 0xF4 then 0x8F else 0xBF)
    rest with
  | none => (replacement, 0)
  | some second =>
      match trailing 0x80 0xBF (rest.drop 1) with
      | none => (replacement, 1)
      | some third =>
          match trailing 0x80 0xBF (rest.drop 2) with
          | none => (replacement, 2)
          | some fourth =>
              (Char.ofNat
                ((first - 0xF0) * 0x40000 + second * 0x1000 + third * 0x40 + fourth), 3)

/-- What stands at the start of a byte string: a character, or a malformed
piece, which is as long as it could still have become a character. -/
def lossyChar (first : UInt8) (rest : List UInt8) : Char × ℕ :=
  if first.toNat < 0x80 then (Char.ofNat first.toNat, 0)
  else if 0xC2 ≤ first.toNat ∧ first.toNat ≤ 0xDF then lossyTwo first.toNat rest
  else if 0xE0 ≤ first.toNat ∧ first.toNat ≤ 0xEF then lossyThree first.toNat rest
  else if 0xF0 ≤ first.toNat ∧ first.toNat ≤ 0xF4 then lossyFour first.toNat rest
  else (replacement, 0)

/-- A byte string as text, with U+FFFD for every malformed piece. -/
def lossy : List UInt8 → List Char
  | [] => []
  | first :: rest => (lossyChar first rest).1 :: lossy (rest.drop (lossyChar first rest).2)
  termination_by bytes => bytes.length
  decreasing_by
    rw [List.length_drop, List.length_cons]
    omega

/-- The bytes of a text. -/
def utf8 (text : List Char) : List UInt8 := text.flatMap String.utf8EncodeChar

theorem trailing_bounds {low high value : ℕ} {rest : List UInt8}
    (h : trailing low high rest = some value) :
    low - 0x80 ≤ value ∧ value ≤ high - 0x80 := by
  cases rest with
  | nil => simp [trailing] at h
  | cons byte rest =>
      simp only [trailing, Option.ite_none_right_eq_some, Option.some.injEq] at h
      omega

theorem toNat_ofNat_of_valid {value : ℕ} (hvalid : value.isValidChar) :
    (Char.ofNat value).toNat = value := by
  rw [Char.ofNat, dif_pos hvalid]
  rfl

theorem lossyTwo_large {first : ℕ} (rest : List UInt8) (hlow : 0xC2 ≤ first)
    (hhigh : first ≤ 0xDF) : 0x80 ≤ (lossyTwo first rest).1.toNat := by
  unfold lossyTwo
  split
  next second hsecond =>
    have hbounds := trailing_bounds hsecond
    rw [toNat_ofNat_of_valid (Or.inl (by omega))]
    omega
  next => decide

theorem lossyThree_large {first : ℕ} (rest : List UInt8) (hlow : 0xE0 ≤ first)
    (hhigh : first ≤ 0xEF) : 0x80 ≤ (lossyThree first rest).1.toNat := by
  unfold lossyThree
  split
  next => decide
  next second hsecond =>
    have hbounds := trailing_bounds hsecond
    split
    next => decide
    next third hthird =>
      have hbounds' := trailing_bounds hthird
      rw [toNat_ofNat_of_valid]
      · split_ifs at hbounds <;> omega
      · unfold Nat.isValidChar
        split_ifs at hbounds <;> omega

theorem lossyFour_large {first : ℕ} (rest : List UInt8) (hlow : 0xF0 ≤ first)
    (hhigh : first ≤ 0xF4) : 0x80 ≤ (lossyFour first rest).1.toNat := by
  unfold lossyFour
  split
  next => decide
  next second hsecond =>
    have hbounds := trailing_bounds hsecond
    split
    next => decide
    next third hthird =>
      have hbounds' := trailing_bounds hthird
      split
      next => decide
      next fourth hfourth =>
        have hbounds'' := trailing_bounds hfourth
        rw [toNat_ofNat_of_valid]
        · split_ifs at hbounds <;> omega
        · unfold Nat.isValidChar
          split_ifs at hbounds <;> omega

/-- Only an ASCII byte is read as an ASCII character. -/
theorem lossyChar_large {first : UInt8} (rest : List UInt8) (hfirst : 0x80 ≤ first.toNat) :
    0x80 ≤ (lossyChar first rest).1.toNat := by
  rw [lossyChar, if_neg (by omega)]
  split_ifs with htwo hthree hfour
  · exact lossyTwo_large rest htwo.1 htwo.2
  · exact lossyThree_large rest hthree.1 hthree.2
  · exact lossyFour_large rest hfour.1 hfour.2
  · decide

theorem lossy_cons_ascii {first : UInt8} (rest : List UInt8) (hfirst : first.toNat < 0x80) :
    lossy (first :: rest) = Char.ofNat first.toNat :: lossy rest := by
  have hchar : lossyChar first rest = (Char.ofNat first.toNat, 0) := by
    rw [lossyChar, if_pos hfirst]
  rw [lossy, hchar, List.drop_zero]

theorem utf8EncodeChar_ascii {c : Char} (hc : c.toNat < 0x80) :
    String.utf8EncodeChar c = [UInt8.ofNat c.toNat] := by
  have hsize : c.utf8Size = 1 := Char.utf8Size_eq_one_iff.mpr (by
    apply UInt32.le_iff_toNat_le.mpr
    exact Nat.le_of_lt_succ hc)
  rw [String.utf8EncodeChar_eq_singleton hsize]
  rfl

theorem utf8_cons_ascii {c : Char} (text : List Char) (hc : c.toNat < 0x80) :
    utf8 (c :: text) = UInt8.ofNat c.toNat :: utf8 text := by
  rw [utf8, List.flatMap_cons, utf8EncodeChar_ascii hc, List.singleton_append, utf8]

theorem utf8_ascii {text : List Char} (hascii : ∀ c ∈ text, c.toNat < 0x80) :
    utf8 text = text.map fun c => UInt8.ofNat c.toNat := by
  induction text with
  | nil => rfl
  | cons c text ih =>
      rw [utf8_cons_ascii text (hascii c List.mem_cons_self), List.map_cons,
        ih fun d hd => hascii d (List.mem_cons_of_mem c hd)]

theorem toNat_ofNat_ascii {c : Char} (hc : c.toNat < 0x80) :
    (UInt8.ofNat c.toNat).toNat = c.toNat := by
  rw [UInt8.toNat_ofNat', Nat.mod_eq_of_lt (by omega)]

/-- ASCII text is read back from its bytes. -/
theorem lossy_utf8 {text : List Char} (hascii : ∀ c ∈ text, c.toNat < 0x80) :
    lossy (utf8 text) = text := by
  induction text with
  | nil => rw [utf8, List.flatMap_nil, lossy]
  | cons c text ih =>
      have hc := hascii c List.mem_cons_self
      have hbyte := toNat_ofNat_ascii hc
      rw [utf8_cons_ascii text hc, lossy_cons_ascii _ (hbyte.trans_lt hc), hbyte, Char.ofNat_toNat,
        ih fun d hd => hascii d (List.mem_cons_of_mem c hd)]

/-- A reading that starts with ASCII text comes from bytes that start with it. -/
theorem utf8_isPrefix_of_lossy {text : List Char} {bytes : List UInt8}
    (hascii : ∀ c ∈ text, c.toNat < 0x80) (hstart : text <+: lossy bytes) :
    utf8 text <+: bytes := by
  induction text generalizing bytes with
  | nil => exact List.nil_prefix
  | cons c text ih =>
      have hc := hascii c List.mem_cons_self
      cases bytes with
      | nil =>
          rw [lossy] at hstart
          exact absurd (List.prefix_nil.mp hstart) (List.cons_ne_nil c text)
      | cons first rest =>
          have hhead : c = (lossyChar first rest).1 := by
            rw [lossy] at hstart
            exact (List.cons_prefix_cons.mp hstart).1
          have hfirst : first.toNat < 0x80 := by
            by_contra hlarge
            have := lossyChar_large rest (Nat.le_of_not_lt hlarge)
            rw [← hhead] at this
            omega
          rw [lossy_cons_ascii rest hfirst] at hstart
          obtain ⟨hchar, hrest⟩ := List.cons_prefix_cons.mp hstart
          have hbyte : UInt8.ofNat c.toNat = first := by
            rw [hchar, toNat_ofNat_of_valid (Or.inl (by omega)), UInt8.ofNat_toNat]
          rw [utf8_cons_ascii text hc, hbyte]
          exact List.cons_prefix_cons.mpr
            ⟨rfl, ih (fun d hd => hascii d (List.mem_cons_of_mem c hd)) hrest⟩

end InMemoryDb.Text
