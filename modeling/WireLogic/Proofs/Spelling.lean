import WireLogic.Proofs.LineNumbers

/-!
# Spelling

Which texts stand for a token, with which character a token opens and where it ends. A text that
begins with the spelling of a token is read as that token, if the rest does not go on with it.
-/

namespace WireLogic

set_option autoImplicit false

namespace Token

/-- The texts that stand for a token. -/
inductive Spelled : Token → List Char → Prop where
  | identifier {c : Char} {cs : List Char} : c.isAlpha = true ∨ c = '_' →
      (∀ x ∈ cs, x.isAlphanum = true ∨ x = '_') →
      Spelled (.identifier (String.ofList (c :: cs))) (c :: cs)
  | integer {value : Nat} (zeros : Nat) : value < 2 ^ 64 →
      Spelled (.integer value) (List.replicate zeros '0' ++ Nat.toDigits 10 value)
  | colon : Spelled .colon [':']
  | equals : Spelled .equals ['=']
  | leftParen : Spelled .leftParen ['(']
  | rightParen : Spelled .rightParen [')']
  | newline : Spelled .newline ['\n']

theorem isLetter_iff {c : Char} : isLetter c = true ↔ c.isAlpha = true ∨ c = '_' := by
  simp only [isLetter, Char.isAlpha, Char.isUpper, Char.isLower, Char.le_def, Bool.or_eq_true,
    Bool.and_eq_true, decide_eq_true_eq, beq_iff_eq, ge_iff_le]
  tauto

theorem isDigit_eq (c : Char) : isDigit c = c.isDigit := by
  simp [isDigit, Char.isDigit, Char.le_def]

theorem isWordChar_iff {c : Char} : isWordChar c = true ↔ c.isAlphanum = true ∨ c = '_' := by
  rw [isWordChar, Bool.or_eq_true, isLetter_iff, isDigit_eq, Char.isAlphanum, Bool.or_eq_true]
  tauto

theorem isBlank_iff {c : Char} : isBlank c = true ↔ c ∈ [' ', '\t', '\r', '\x0c'] := by
  simp [isBlank, or_assoc]

theorem isWordChar_of_isBlank {c : Char} (hc : isBlank c = true) : isWordChar c = false := by
  rw [isBlank_iff] at hc
  simp only [List.mem_cons, List.not_mem_nil, or_false] at hc
  rcases hc with rfl | rfl | rfl | rfl <;> rfl

theorem isWordChar_of_isLetter {c : Char} (hc : isLetter c = true) : isWordChar c = true := by
  rw [isWordChar, hc, Bool.true_or]

theorem isWordChar_of_isDigit {c : Char} (hc : isDigit c = true) : isWordChar c = true := by
  rw [isWordChar, hc, Bool.or_true]

theorem isBlank_of_isWordChar {c : Char} (hc : isWordChar c = true) : isBlank c = false := by
  by_contra hblank
  rw [Bool.not_eq_false] at hblank
  rw [isWordChar_of_isBlank hblank] at hc
  cases hc

theorem isLetter_of_isDigit {c : Char} (hc : isDigit c = true) : isLetter c = false := by
  simp only [isDigit, Bool.and_eq_true, decide_eq_true_eq] at hc
  by_contra hletter
  simp only [Bool.not_eq_false, isLetter, Bool.or_eq_true, Bool.and_eq_true, decide_eq_true_eq,
    beq_iff_eq] at hletter
  rcases hletter with (⟨hlow, _⟩ | ⟨hlow, _⟩) | rfl
  · exact absurd (le_trans hlow hc.2) (by decide)
  · exact absurd (le_trans hlow hc.2) (by decide)
  · exact absurd hc.2 (by decide)

def signs : List (Char × Token) :=
  [(':', colon), ('=', equals), ('(', leftParen), (')', rightParen), ('\n', newline)]

theorem mem_signs_of_ofChar? {c : Char} {t : Token} (h : ofChar? c = some t) : (c, t) ∈ signs := by
  unfold ofChar? at h
  split at h <;> cases h <;> decide

theorem ofChar?_apart {c : Char} {t : Token} (h : ofChar? c = some t) :
    isBlank c = false ∧ isWordChar c = false := by
  have hsigns : ∀ s ∈ signs, isBlank s.1 = false ∧ isWordChar s.1 = false := by decide
  exact hsigns _ (mem_signs_of_ofChar? h)

theorem ofDigits_eq (digits : List Char) : ofDigits digits = Nat.ofDigitChars 10 digits 0 :=
  Nat.ofDigitChars_eq_foldl.symm

theorem isDigit_of_mem_replicate_append {zeros value : Nat} {d : Char}
    (hd : d ∈ List.replicate zeros '0' ++ Nat.toDigits 10 value) : isDigit d = true := by
  rw [isDigit_eq]
  rcases List.mem_append.mp hd with hd | hd
  · rw [List.eq_of_mem_replicate hd]
    rfl
  · exact Nat.isDigit_of_mem_toDigits (by decide) (by decide) hd

theorem exists_digits (zeros value : Nat) :
    ∃ d ds, List.replicate zeros '0' ++ Nat.toDigits 10 value = d :: ds ∧
      (∀ x ∈ d :: ds, isDigit x = true) ∧ ofDigits (d :: ds) = value := by
  obtain ⟨d, ds, hds⟩ := List.exists_cons_of_ne_nil
    (List.append_ne_nil_of_right_ne_nil (List.replicate zeros '0') Nat.toDigits_ne_nil)
  refine ⟨d, ds, hds, ?_, ?_⟩
  · rw [← hds]
    exact fun x hx => isDigit_of_mem_replicate_append hx
  · rw [← hds, ofDigits_eq, Nat.ofDigitChars_append, Nat.ofDigitChars_replicate_zero, Nat.mul_zero,
      Nat.ofDigitChars_ten_toDigits]

theorem toDigits_of_isDigit {d : Char} (hd : isDigit d = true) :
    d.toNat - '0'.toNat < 10 ∧ Nat.toDigits 10 (d.toNat - '0'.toNat) = [d] := by
  have hzero : '0'.toNat = 48 := rfl
  have hnine : '9'.toNat = 57 := rfl
  rw [isDigit_eq, Char.isDigit_iff_toNat] at hd
  refine ⟨by omega, ?_⟩
  rw [Nat.toDigits_of_lt_base (by omega), List.singleton_inj, ← Char.toNat_inj,
    Nat.toNat_digitChar_of_lt_ten (by omega)]
  omega

theorem exists_zeros {digits : List Char} (hne : digits ≠ [])
    (hdigits : ∀ d ∈ digits, isDigit d = true) :
    ∃ zeros, digits = List.replicate zeros '0' ++ Nat.toDigits 10 (ofDigits digits) := by
  induction digits using List.reverseRecOn with
  | nil => exact absurd rfl hne
  | append_singleton digits d ih =>
    obtain ⟨hlt, hlast⟩ := toDigits_of_isDigit (hdigits d (by simp))
    have hvalue : ofDigits (digits ++ [d]) = 10 * ofDigits digits + (d.toNat - '0'.toNat) := by
      simp [ofDigits]
    rw [hvalue]
    by_cases hnil : digits = []
    · subst hnil
      refine ⟨0, ?_⟩
      rw [show ofDigits [] = 0 from rfl, Nat.mul_zero, Nat.zero_add, hlast]
      rfl
    · obtain ⟨zeros, hzeros⟩ := ih hnil fun x hx => hdigits x (List.mem_append_left _ hx)
      by_cases hzero : ofDigits digits = 0
      · refine ⟨zeros + 1, ?_⟩
        rw [hzero, Nat.toDigits_zero] at hzeros
        rw [hzero, Nat.mul_zero, Nat.zero_add, hlast, hzeros, List.replicate_succ']
      · refine ⟨zeros, ?_⟩
        rw [← Nat.toDigits_append_toDigits (by decide) (Nat.pos_of_ne_zero hzero) hlt, hlast,
          ← List.append_assoc, ← hzeros]

theorem Spelled.of_word {c : Char} {chars : List Char} (hc : isLetter c = true) :
    Spelled (.identifier (String.ofList (c :: chars.takeWhile isWordChar)))
      (c :: chars.takeWhile isWordChar) := by
  apply Spelled.identifier (isLetter_iff.mp hc)
  intro x hx
  exact isWordChar_iff.mp (List.mem_takeWhile_imp hx)

theorem Spelled.of_digits {c : Char} {chars : List Char} (hc : isDigit c = true)
    (hvalue : ofDigits (c :: chars.takeWhile isDigit) < integerBound) :
    Spelled (.integer (ofDigits (c :: chars.takeWhile isDigit)))
      (c :: chars.takeWhile isDigit) := by
  have hdigits : ∀ d ∈ c :: chars.takeWhile isDigit, isDigit d = true :=
    List.forall_mem_cons.mpr ⟨hc, fun d hd => List.mem_takeWhile_imp hd⟩
  obtain ⟨zeros, hzeros⟩ := exists_zeros (List.cons_ne_nil _ _) hdigits
  have hspelled := Spelled.integer zeros hvalue
  rwa [← hzeros] at hspelled

theorem Spelled.of_char {c : Char} {t : Token} (h : ofChar? c = some t) : Spelled t [c] := by
  have hsigns : ∀ s ∈ signs, Spelled s.2 [s.1] := by
    simp [signs, Spelled.colon, Spelled.equals, Spelled.leftParen, Spelled.rightParen,
      Spelled.newline]
  exact hsigns _ (mem_signs_of_ofChar? h)

def OpensWith : Token → Char → Prop
  | identifier _, c => isLetter c = true
  | integer _, c => isDigit c = true
  | t, c => ofChar? c = some t

theorem Spelled.opens {t : Token} {spelling : List Char} (h : Spelled t spelling) :
    ∃ c cs, spelling = c :: cs ∧ t.OpensWith c := by
  cases h with
  | identifier hc _ => exact ⟨_, _, rfl, isLetter_iff.mpr hc⟩
  | @integer value zeros _ =>
    obtain ⟨d, ds, hds, hdigits, _⟩ := exists_digits zeros value
    exact ⟨d, ds, hds, hdigits d List.mem_cons_self⟩
  | _ => exact ⟨_, _, rfl, rfl⟩

theorem OpensWith.newline_iff {t : Token} {c : Char} (h : t.OpensWith c) :
    t = .newline ↔ c = '\n' := by
  constructor
  · rintro rfl
    exact (eq_newline_iff_of_ofChar? h).mp rfl
  · rintro rfl
    cases t with
    | newline => rfl
    | _ => cases h

/-- The character would be read as part of the token before it. -/
def goesOn : Token → Char → Bool
  | identifier _, c => isWordChar c
  | integer _, c => isDigit c
  | _, _ => false

/-- Without a gap, the second token would be read as part of the first one. An integer ends where a
name begins. -/
def runsOn : Token → Token → Bool
  | identifier _, identifier _ => true
  | identifier _, integer _ => true
  | integer _, integer _ => true
  | _, _ => false

theorem goesOn_of_not_word {c : Char} (hc : isWordChar c = false) (t : Token) :
    t.goesOn c = false := by
  cases t with
  | identifier _ => exact hc
  | integer _ => exact (Bool.or_eq_false_iff.mp hc).2
  | _ => rfl

theorem goesOn_eq_runsOn {u : Token} {c : Char} (h : u.OpensWith c) (t : Token) :
    t.goesOn c = t.runsOn u := by
  cases u with
  | identifier _ =>
    cases t with
    | identifier _ => exact isWordChar_of_isLetter h
    | integer _ =>
      by_contra hdigit
      have hletter := isLetter_of_isDigit (Bool.not_eq_false _ ▸ hdigit)
      rw [show isLetter c = true from h] at hletter
      cases hletter
    | _ => rfl
  | integer _ =>
    cases t with
    | identifier _ => exact isWordChar_of_isDigit h
    | integer _ => exact h
    | _ => rfl
  | _ =>
    rw [goesOn_of_not_word (ofChar?_apart h).2]
    cases t <;> rfl

theorem goesOn_of_ofChar? {c : Char} {t : Token} (h : ofChar? c = some t) (x : Char) :
    t.goesOn x = false := by
  have hsigns : ∀ s ∈ signs, s.2.goesOn x = false := by simp [signs, goesOn]
  exact hsigns _ (mem_signs_of_ofChar? h)

/-- The token ends where the text begins. -/
def Stops (t : Token) (rest : List Char) : Prop := ∀ c ∈ rest.head?, t.goesOn c = false

/-- Reading the characters has the result, if the bound on the number of tokens is no less than the
number of characters. -/
def Reads (start : Nat) (chars : List Char) (result : Except InvalidText (List Lexeme)) : Prop :=
  ∀ steps, chars.length ≤ steps → scanFrom steps start chars = result

section Reads

variable {start : Nat} {rest : List Char} {result : Except InvalidText (List Lexeme)}

theorem reads_nil (start : Nat) : Reads start [] (.ok []) := by
  intro steps _
  cases steps <;> rfl

theorem reads_cons {c : Char} {chars : List Char}
    (h : ∀ steps, chars.length ≤ steps → scanFrom (steps + 1) start (c :: chars) = result) :
    Reads start (c :: chars) result := by
  intro steps hsteps
  cases steps with
  | zero => exact absurd hsteps (Nat.not_succ_le_zero _)
  | succ steps => exact h steps (Nat.le_of_succ_le_succ hsteps)

theorem takeWhile_stops {p : Char → Bool} {word : List Char} (hword : ∀ c ∈ word, p c = true)
    (hrest : ∀ c ∈ rest.head?, p c = false) :
    (word ++ rest).takeWhile p = word ∧ (word ++ rest).dropWhile p = rest := by
  rw [List.takeWhile_append_of_pos hword, List.dropWhile_append_of_pos hword]
  cases rest with
  | nil => simp
  | cons c rest => simp [hrest c rfl]

theorem Reads.blank {c : Char} (hc : isBlank c = true) (h : Reads (start + 1) rest result) :
    Reads start (c :: rest) result := by
  apply reads_cons
  intro steps hsteps
  have hscan : scanFrom (steps + 1) start (c :: rest) = scanFrom steps (start + 1) rest := if_pos hc
  rw [hscan]
  exact h steps hsteps

theorem Reads.comment {text : List Char} (htext : '\n' ∉ text)
    (hrest : ∀ c ∈ rest.head?, c = '\n') (h : Reads (start + 2 + text.length) rest result) :
    Reads start ('/' :: '/' :: (text ++ rest)) result := by
  apply reads_cons
  intro steps hsteps
  obtain ⟨htake, hdrop⟩ : (text ++ rest).takeWhile (· != '\n') = text ∧
      (text ++ rest).dropWhile (· != '\n') = rest := by
    apply takeWhile_stops
    · intro c hc
      simpa using ne_of_mem_of_not_mem hc htext
    · intro c hc
      simpa using hrest c hc
  have hscan : scanFrom (steps + 1) start ('/' :: '/' :: (text ++ rest)) =
      scanFrom steps (start + 2 + ((text ++ rest).takeWhile (· != '\n')).length)
        ((text ++ rest).dropWhile (· != '\n')) := rfl
  rw [hscan, htake, hdrop]
  apply h
  simp only [List.length_cons, List.length_append] at hsteps
  omega

theorem Reads.word {c : Char} {cs : List Char} (hc : isLetter c = true)
    (hcs : ∀ x ∈ cs, isWordChar x = true) (hstops : ∀ x ∈ rest.head?, isWordChar x = false)
    (h : Reads (start + (c :: cs).length) rest result) :
    Reads start (c :: cs ++ rest) (result.map
      (⟨.identifier (String.ofList (c :: cs)), start, start + (c :: cs).length⟩ :: ·)) := by
  apply reads_cons
  intro steps hsteps
  obtain ⟨htake, hdrop⟩ := takeWhile_stops hcs hstops
  unfold scanFrom
  rw [if_neg (by simp [isBlank_of_isWordChar (isWordChar_of_isLetter hc)]), if_pos hc]
  dsimp only [List.append_eq]
  rw [htake, hdrop, h steps]
  simp only [List.append_eq, List.length_append] at hsteps
  omega

theorem Reads.number {c : Char} {cs : List Char} (hcs : ∀ x ∈ c :: cs, isDigit x = true)
    (hvalue : ofDigits (c :: cs) < integerBound) (hstops : ∀ x ∈ rest.head?, isDigit x = false)
    (h : Reads (start + (c :: cs).length) rest result) :
    Reads start (c :: cs ++ rest)
      (result.map (⟨.integer (ofDigits (c :: cs)), start, start + (c :: cs).length⟩ :: ·)) := by
  apply reads_cons
  intro steps hsteps
  obtain ⟨hc, hcs⟩ := List.forall_mem_cons.mp hcs
  obtain ⟨htake, hdrop⟩ := takeWhile_stops hcs hstops
  unfold scanFrom
  rw [if_neg (by simp [isBlank_of_isWordChar (isWordChar_of_isDigit hc)]),
    if_neg (by simp [isLetter_of_isDigit hc]), if_pos hc]
  dsimp only [List.append_eq]
  rw [htake, hdrop, if_pos hvalue, h steps]
  simp only [List.append_eq, List.length_append] at hsteps
  omega

theorem Reads.sign {c : Char} {t : Token} (hc : ofChar? c = some t)
    (h : Reads (start + 1) rest result) :
    Reads start (c :: rest) (result.map (⟨t, start, start + 1⟩ :: ·)) := by
  apply reads_cons
  intro steps hsteps
  obtain ⟨hblank, hword⟩ := ofChar?_apart hc
  obtain ⟨hletter, hdigit⟩ := Bool.or_eq_false_iff.mp hword
  unfold scanFrom
  rw [if_neg (by simp [hblank]), if_neg (by simp [hletter]), if_neg (by simp [hdigit]), hc]
  dsimp only
  rw [h steps hsteps]

/-- A token that ends where the rest begins is read, and then the rest. -/
theorem Reads.token {t : Token} {spelling : List Char} (hspelled : Spelled t spelling)
    (hstops : t.Stops rest) (h : Reads (start + spelling.length) rest result) :
    Reads start (spelling ++ rest)
      (result.map (⟨t, start, start + spelling.length⟩ :: ·)) := by
  cases hspelled with
  | identifier hc hcs =>
    exact h.word (isLetter_iff.mpr hc) (fun x hx => isWordChar_iff.mpr (hcs x hx)) hstops
  | @integer value zeros hvalue =>
    obtain ⟨d, ds, hds, hdigits, hof⟩ := exists_digits zeros value
    rw [hds] at h ⊢
    rw [← hof] at hvalue ⊢
    exact h.number hdigits hvalue hstops
  | _ => exact h.sign rfl

end Reads

end Token

end WireLogic
