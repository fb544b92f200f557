import Zenith.Lib.Bytes

/-!
# Text streams

Decimal numbers and the formatted reads of a text stream: `nextToken` skips white space and
reads up to the next one, `readInt` skips white space and reads a signed 32-bit decimal
number. Both fail when nothing is left to read. A number that is out of range is a failure
as well, and what it would have left of the text is not looked at.

A reader takes what it can: after a number the rest may start in the middle of a word, and
it is up to the next read what to make of it. So the lemmas about reads say what is left,
and the lemmas about written text say what has to follow for it to be read back.

Main results: `nextToken_append` and `readInt_decimal`, which read back a token or a number
that white space or the end of the text follows, and `decimal_append_inj`, by which a
spelling determines its number.
-/

namespace Text

/-- White space: the blank and the control characters from tab to carriage return. -/
def isSpace (b : UInt8) : Bool := b == 32 || (decide (9 ≤ b) && decide (b ≤ 13))

/-- The digits, from `0` to `9`. -/
def isDigit (b : UInt8) : Bool := decide (48 ≤ b) && decide (b ≤ 57)

/-- The value of one. -/
def digitValue (b : UInt8) : Nat := b.toNat - 48

/-- The decimal spelling of a number. -/
def decimal (n : Nat) : Bytes :=
  if n < 10 then [UInt8.ofNat (48 + n)]
  else decimal (n / 10) ++ [UInt8.ofNat (48 + n % 10)]

/-- The number that digits spell, most significant first. -/
def digitsValue (ds : Bytes) : Nat := ds.foldl (fun acc d => acc * 10 + digitValue d) 0

/-- White space at the front is skipped. -/
def skipSpace (s : Bytes) : Bytes := s.dropWhile isSpace

/-- `iss >> token`: the next token and the rest of the text. -/
def nextToken (s : Bytes) : Option (Bytes × Bytes) :=
  let token := (skipSpace s).takeWhile fun b => !isSpace b
  if token = [] then none
  else some (token, (skipSpace s).dropWhile fun b => !isSpace b)

/-- An optional sign: whether it is a minus, and the text behind it. -/
def readSign : Bytes → Bool × Bytes
  | 45 :: rest => (true, rest)
  | 43 :: rest => (false, rest)
  | rest => (false, rest)

/-- `iss >> number` for a 32-bit integer. A number out of range is a failure. -/
def readInt (s : Bytes) : Option (Int × Bytes) :=
  let p := readSign (skipSpace s)
  let digits := p.2.takeWhile isDigit
  let value : Int := if p.1 then -(digitsValue digits : Int) else digitsValue digits
  if digits = [] then none
  else if value < -2 ^ 31 ∨ 2 ^ 31 ≤ value then none
  else some (value, p.2.dropWhile isDigit)

/-! ## Tokens -/

/-- A part on which a test holds ends where it first fails. -/
theorem takeWhile_append_stop {p : UInt8 → Bool} {a rest : Bytes} (ha : ∀ b ∈ a, p b = true)
    (hrest : ∀ b ∈ rest.head?, p b = false) :
    (a ++ rest).takeWhile p = a ∧ (a ++ rest).dropWhile p = rest := by
  induction a with
  | nil =>
    cases rest with
    | nil => exact ⟨rfl, rfl⟩
    | cons b rest =>
      have hb : p b = false := hrest b rfl
      exact ⟨List.takeWhile_cons_of_neg (by simp [hb]), List.dropWhile_cons_of_neg (by simp [hb])⟩
  | cons b a ih =>
    have hb : p b = true := ha b (List.mem_cons_self ..)
    obtain ⟨htake, hdrop⟩ := ih fun c hc => ha c (List.mem_cons_of_mem _ hc)
    rw [List.cons_append, List.takeWhile_cons_of_pos hb, List.dropWhile_cons_of_pos hb, htake, hdrop]
    exact ⟨rfl, rfl⟩

/-- There is nothing to skip in front of a word. -/
theorem skipSpace_of_not {s : Bytes} (h : ∀ b ∈ s.head?, isSpace b = false) : skipSpace s = s := by
  cases s with
  | nil => rfl
  | cons b s => exact List.dropWhile_cons_of_neg (by simp [h b rfl])

/-- A token with white space or the end of the text behind it. -/
theorem nextToken_append {token rest : Bytes} (hne : token ≠ [])
    (htoken : ∀ b ∈ token, isSpace b = false) (hrest : ∀ b ∈ rest.head?, isSpace b = true) :
    nextToken (token ++ rest) = some (token, rest) := by
  have hskip : skipSpace (token ++ rest) = token ++ rest := by
    apply skipSpace_of_not
    intro b hb
    cases token with
    | nil => exact absurd rfl hne
    | cons c token => exact htoken b (by simp_all)
  obtain ⟨htake, hdrop⟩ := takeWhile_append_stop
    (show ∀ b ∈ token, (!isSpace b) = true by simpa using htoken)
    (show ∀ b ∈ rest.head?, (!isSpace b) = false by simpa using hrest)
  unfold nextToken
  rw [hskip]
  simp only [htake, hdrop]
  rw [if_neg hne]

/-- One blank in front of a token is skipped. -/
theorem nextToken_blank (s : Bytes) : nextToken (32 :: s) = nextToken s := by
  unfold nextToken
  rw [show skipSpace (32 :: s) = skipSpace s from List.dropWhile_cons_of_pos rfl]

theorem nextToken_nil : nextToken [] = none := rfl

/-- A token has no white space. -/
theorem nextToken_noSpace {s token rest : Bytes} (h : nextToken s = some (token, rest)) :
    ∀ b ∈ token, isSpace b = false := by
  unfold nextToken at h
  simp only at h
  split at h
  · exact absurd h nofun
  · obtain ⟨rfl, -⟩ := Prod.mk.inj (Option.some.inj h)
    intro b hb
    simpa using List.mem_takeWhile_imp hb

/-- A token and the rest behind it are no longer than the text. -/
theorem nextToken_length {s token rest : Bytes} (h : nextToken s = some (token, rest)) :
    token.length + rest.length ≤ s.length := by
  unfold nextToken at h
  simp only at h
  split at h
  · exact absurd h nofun
  · obtain ⟨rfl, rfl⟩ := Prod.mk.inj (Option.some.inj h)
    rw [← List.length_append, List.takeWhile_append_dropWhile]
    exact List.length_dropWhile_le ..

/-! ## Numbers -/

/-- A digit spells its value. -/
theorem digit_spec {d : Nat} (h : d < 10) :
    isDigit (UInt8.ofNat (48 + d)) = true ∧ digitValue (UInt8.ofNat (48 + d)) = d := by
  have hall : ∀ d < 10, isDigit (UInt8.ofNat (48 + d)) = true ∧
      digitValue (UInt8.ofNat (48 + d)) = d := by decide
  exact hall d h

/-- The spelling of a number consists of digits and spells the number. -/
theorem decimal_spec (n : Nat) :
    decimal n ≠ [] ∧ (∀ b ∈ decimal n, isDigit b = true) ∧ digitsValue (decimal n) = n := by
  -- the last digit is put behind those of the quotient
  induction n using decimal.induct with
  | case1 n h =>
    obtain ⟨hdigit, hvalue⟩ := digit_spec h
    rw [decimal, if_pos h]
    refine ⟨List.cons_ne_nil _ _, ?_, ?_⟩
    · intro b hb
      rw [List.mem_singleton] at hb
      rw [hb, hdigit]
    · show 0 * 10 + digitValue (UInt8.ofNat (48 + n)) = n
      omega
  | case2 n h ih =>
    obtain ⟨hdigit, hvalue⟩ := digit_spec (Nat.mod_lt n (show 0 < 10 by norm_num))
    rw [decimal, if_neg h]
    refine ⟨by simp, ?_, ?_⟩
    · intro b hb
      rcases List.mem_append.mp hb with hb | hb
      · exact ih.2.1 b hb
      · rw [List.mem_singleton] at hb
        rw [hb, hdigit]
    · rw [digitsValue, List.foldl_append, ← digitsValue, ih.2.2, List.foldl_cons, hvalue,
        List.foldl_nil]
      omega

/-- A number that something else than a digit follows can be told from the text. -/
theorem decimal_append_inj {m n : Nat} {r s : Bytes} (hr : ∀ b ∈ r.head?, isDigit b = false)
    (hs : ∀ b ∈ s.head?, isDigit b = false) (h : decimal m ++ r = decimal n ++ s) :
    m = n ∧ r = s := by
  obtain ⟨-, hm, hvalm⟩ := decimal_spec m
  obtain ⟨-, hn, hvaln⟩ := decimal_spec n
  obtain ⟨htakem, hdropm⟩ := takeWhile_append_stop hm hr
  obtain ⟨htaken, hdropn⟩ := takeWhile_append_stop hn hs
  rw [h] at htakem hdropm
  have hdigits : decimal n = decimal m := htaken.symm.trans htakem
  exact ⟨by rw [← hvalm, ← hvaln, hdigits], hdropm.symm.trans hdropn⟩

/-- Digits are no white space. -/
theorem not_isSpace_of_isDigit {b : UInt8} (h : isDigit b = true) : isSpace b = false := by
  rw [isDigit, Bool.and_eq_true, decide_eq_true_eq, decide_eq_true_eq, UInt8.le_iff_toNat_le,
    UInt8.le_iff_toNat_le] at h
  have h48 : (48 : UInt8).toNat = 48 := rfl
  rw [isSpace, Bool.or_eq_false_iff, Bool.and_eq_false_iff]
  refine ⟨?_, Or.inr ?_⟩
  · rw [beq_eq_false_iff_ne]
    rintro rfl
    exact absurd h.1 (by decide)
  · rw [decide_eq_false_iff_not, UInt8.le_iff_toNat_le, show (13 : UInt8).toNat = 13 from rfl]
    omega

/-- A decimal number with something behind it that is no digit. -/
theorem readInt_decimal {n : Nat} (hn : n < 2 ^ 31) {rest : Bytes}
    (hrest : ∀ b ∈ rest.head?, isDigit b = false) :
    readInt (32 :: (decimal n ++ rest)) = some ((n : Int), rest) := by
  obtain ⟨hne, hdigits, hvalue⟩ := decimal_spec n
  obtain ⟨b, bs, hcons⟩ := List.exists_cons_of_ne_nil hne
  have hb : isDigit b = true := hdigits b (by rw [hcons]; exact List.mem_cons_self ..)
  -- a digit is no blank, so only the one in front is skipped
  have hskip : skipSpace (32 :: (decimal n ++ rest)) = decimal n ++ rest := by
    rw [show skipSpace (32 :: (decimal n ++ rest)) = skipSpace (decimal n ++ rest) from
      List.dropWhile_cons_of_pos rfl]
    apply skipSpace_of_not
    intro c hc
    rw [hcons] at hc
    obtain rfl : b = c := by simpa using hc
    exact not_isSpace_of_isDigit hb
  -- a digit is no sign
  have hsign : readSign (decimal n ++ rest) = (false, decimal n ++ rest) := by
    rw [hcons, List.cons_append]
    unfold readSign
    split
    · next heq => rw [(List.cons.inj heq).1] at hb; exact absurd hb (by decide)
    · next heq => rw [(List.cons.inj heq).1] at hb; exact absurd hb (by decide)
    · rfl
  obtain ⟨htake, hdrop⟩ := takeWhile_append_stop hdigits hrest
  unfold readInt
  rw [hskip, hsign]
  simp only [htake, hdrop, hvalue, if_neg hne]
  rw [if_neg (by simp; omega)]
  rfl

end Text
