import WireLogic.Proofs.CursorReading

/-!
# Line numbers

Only newline tokens stand for newlines: blanks, comments and words hold none. So a cursor that
counts the newline tokens it passes is, at every lexeme, on the line of the text where the lexeme
begins. The lines that a program is read from begin with lexemes, which is how their numbers come to
be lines of the text.
-/

namespace WireLogic

set_option autoImplicit false

namespace Token

def lineAfter (t : Token) (line : Nat) : Nat := if t = .newline then line + 1 else line

/-- Counting from the given line on, each lexeme is reached on its line of the text and the end of
the lexemes on the last one. -/
def Numbered (source : List Char) : Nat → List Lexeme → Prop
  | line, [] => line = source.count '\n' + 1
  | line, x :: rest => line = lineOf source x.start ∧ Numbered source (x.token.lineAfter line) rest

section Numbering

variable {before word rest : List Char} {lexemes : List Lexeme}

theorem numbered_skip (hword : '\n' ∉ word)
    (h : Numbered (before ++ word ++ rest) ((before ++ word).count '\n' + 1) lexemes) :
    Numbered (before ++ (word ++ rest)) (before.count '\n' + 1) lexemes := by
  rwa [List.count_append, List.count_eq_zero.mpr hword, Nat.add_zero, List.append_assoc] at h

theorem numbered_cons {t : Token} {start stop : Nat} (hstart : before.length = start)
    (ht : t.lineAfter (before.count '\n' + 1) = (before ++ word).count '\n' + 1)
    (h : Numbered (before ++ word ++ rest) ((before ++ word).count '\n' + 1) lexemes) :
    Numbered (before ++ (word ++ rest)) (before.count '\n' + 1) (⟨t, start, stop⟩ :: lexemes) := by
  refine ⟨by simp [lineOf, ← hstart], ?_⟩
  rw [ht, ← List.append_assoc]
  exact h

theorem lineAfter_word {t : Token} (ht : t ≠ .newline) (hword : '\n' ∉ word) :
    t.lineAfter (before.count '\n' + 1) = (before ++ word).count '\n' + 1 := by
  rw [lineAfter, if_neg ht, List.count_append, List.count_eq_zero.mpr hword]

theorem eq_newline_iff_of_ofChar? {c : Char} {t : Token} (h : ofChar? c = some t) :
    t = .newline ↔ c = '\n' := by
  unfold ofChar? at h
  split at h <;> grind

theorem lineAfter_ofChar? {c : Char} {t : Token} (h : ofChar? c = some t) :
    t.lineAfter (before.count '\n' + 1) = (before ++ [c]).count '\n' + 1 := by
  have ht := eq_newline_iff_of_ofChar? h
  by_cases hc : c = '\n'
  · simp [lineAfter, ht.mpr hc, hc]
  · simp [lineAfter, mt ht.mp hc, hc]

theorem newline_not_mem_takeWhile {p : Char → Bool} (hp : p '\n' = false) (chars : List Char) :
    '\n' ∉ chars.takeWhile p := by
  intro h
  have hp' := List.mem_takeWhile_imp h
  simp [hp] at hp'

theorem numbered_word {p q : Char → Bool} (hp : p '\n' = false) (hq : q '\n' = false) {c : Char}
    (hc : p c = true) {chars : List Char} {t : Token} (ht : t ≠ .newline) {start stop : Nat}
    (hstart : before.length = start)
    (h : Numbered (before ++ c :: chars.takeWhile q ++ chars.dropWhile q)
      ((before ++ c :: chars.takeWhile q).count '\n' + 1) lexemes) :
    Numbered (before ++ c :: chars) (before.count '\n' + 1) (⟨t, start, stop⟩ :: lexemes) := by
  have hword : '\n' ∉ c :: chars.takeWhile q := by
    intro hmem
    rcases List.mem_cons.mp hmem with rfl | hmem
    · rw [hp] at hc
      cases hc
    · exact newline_not_mem_takeWhile hq chars hmem
  have hsplit : c :: chars = (c :: chars.takeWhile q) ++ chars.dropWhile q := by
    simp [List.takeWhile_append_dropWhile]
  rw [hsplit]
  exact numbered_cons hstart (lineAfter_word ht hword) h

end Numbering

theorem numbered_scanFrom {steps : Nat} {before chars : List Char} {lexemes : List Lexeme}
    (hsteps : chars.length ≤ steps) (h : scanFrom steps before.length chars = .ok lexemes) :
    Numbered (before ++ chars) (before.count '\n' + 1) lexemes := by
  generalize hstart : before.length = start at h
  fun_induction scanFrom steps start chars generalizing before lexemes with
  | case1 start chars =>
    obtain rfl := List.length_eq_zero_iff.mp (Nat.le_zero.mp hsteps)
    cases h
    simp [Numbered]
  | case2 =>
    cases h
    simp [Numbered]
  | case3 steps start c rest hblank ih =>
    have hc : '\n' ∉ [c] := by
      simp only [List.mem_singleton]
      rintro rfl
      cases hblank
    exact numbered_skip hc (ih (by simpa using hsteps) (by simp [hstart]) h)
  | case4 steps start c rest _ hletter =>
    rename_i word stop ih
    obtain ⟨others, hothers, rfl⟩ := Outcome.map_eq_ok.mp h
    have hlength := (List.dropWhile_suffix isWordChar (l := rest)).length_le
    rw [List.length_cons] at hsteps
    exact numbered_word (by decide) (by decide) hletter (by simp) hstart
      (ih (by omega) (by simp [stop, word, hstart]) hothers)
  | case5 steps start c rest _ _ hdigit =>
    rename_i digits stop _ ih
    obtain ⟨others, hothers, rfl⟩ := Outcome.map_eq_ok.mp h
    have hlength := (List.dropWhile_suffix isDigit (l := rest)).length_le
    rw [List.length_cons] at hsteps
    exact numbered_word (by decide) (by decide) hdigit (by simp) hstart
      (ih (by omega) (by simp [stop, digits, hstart]) hothers)
  | case7 steps start c rest _ _ _ t ht ih =>
    obtain ⟨others, hothers, rfl⟩ := Outcome.map_eq_ok.mp h
    rw [← List.singleton_append]
    exact numbered_cons hstart (lineAfter_ofChar? ht)
      (ih (by simpa using hsteps) (by simp [hstart]) hothers)
  | case8 steps start c _ _ _ comment _ hslash =>
    rename_i skipped ih
    have hskipped : '\n' ∉ c :: '/' :: skipped := by
      rw [beq_iff_eq.mp hslash]
      simp [skipped, newline_not_mem_takeWhile]
    have hsplit : c :: '/' :: comment = (c :: '/' :: skipped) ++ comment.dropWhile (· != '\n') := by
      simp [skipped, List.takeWhile_append_dropWhile]
    have hlength := (List.dropWhile_suffix (· != '\n') (l := comment)).length_le
    rw [List.length_cons, List.length_cons] at hsteps
    rw [hsplit]
    exact numbered_skip hskipped (ih (by omega) (by simp [hstart]; omega) h)
  | _ => cases h

/-- Counting lines along the lexemes of a text agrees with counting newlines in it. -/
theorem numbered_of_scan {source : List Char} {lexemes : List Lexeme}
    (h : scan source = .ok lexemes) : Numbered source 1 lexemes := by
  have hnumbered : Numbered ([] ++ source) (([] : List Char).count '\n' + 1) lexemes :=
    numbered_scanFrom le_rfl h
  exact hnumbered

def bytes (text : List Char) : List UInt8 := text.flatMap String.utf8EncodeChar

/-- The line that a byte of the text is on. -/
def lineOfByte (source : List Char) (offset : Nat) : Nat :=
  ((bytes source).take offset).count 10 + 1

theorem ofNat_eq_newline_iff {n : Nat} (hn : n < 256) : UInt8.ofNat n = 10 ↔ n = 10 := by
  rw [← UInt8.toNat_inj, UInt8.toNat_ofNat', Nat.mod_eq_of_lt hn]
  rfl

theorem newline_not_mem_utf8EncodeChar {c : Char} (hc : ¬c.val.toNat ≤ 127) :
    10 ∉ String.utf8EncodeChar c := by
  have hhigh : ∀ {n : Nat}, 10 = UInt8.ofNat n → 128 ≤ n → n < 256 → False := by
    intro n h hlow hn
    have hten := (ofNat_eq_newline_iff hn).mp h.symm
    omega
  intro h
  rw [String.utf8EncodeChar, if_neg hc] at h
  split_ifs at h <;> simp only [List.mem_cons, List.not_mem_nil, or_false] at h
  · rcases h with h | h <;> exact hhigh h (by omega) (by omega)
  · rcases h with h | h | h <;> exact hhigh h (by omega) (by omega)
  · rcases h with h | h | h | h <;> exact hhigh h (by omega) (by omega)

/-- The byte of a newline is part of no other character. -/
theorem count_utf8EncodeChar (c : Char) :
    (String.utf8EncodeChar c).count 10 = [c].count '\n' := by
  have hchar : c = '\n' ↔ c.val.toNat = 10 := by
    rw [Char.ext_iff, ← UInt32.toNat_inj]
    rfl
  by_cases hc : c.val.toNat ≤ 127
  · have hbyte := ofNat_eq_newline_iff (show c.val.toNat < 256 by omega)
    rw [String.utf8EncodeChar, if_pos hc]
    simp only [List.count_singleton', hchar, hbyte]
  · have hnot : '\n' ∉ [c] := by
      rw [List.mem_singleton, eq_comm, hchar]
      omega
    rw [List.count_eq_zero.mpr hnot, List.count_eq_zero.mpr (newline_not_mem_utf8EncodeChar hc)]

theorem count_bytes (text : List Char) : (bytes text).count 10 = text.count '\n' := by
  induction text with
  | nil => rfl
  | cons c text ih =>
    rw [bytes, List.flatMap_cons, List.count_append, ← bytes, ih, count_utf8EncodeChar,
      ← List.count_append, List.singleton_append]

theorem lineOfByte_eq (source : List Char) (position : Nat) :
    lineOfByte source (bytes (source.take position)).length = lineOf source position := by
  have hbytes : bytes source = bytes (source.take position) ++ bytes (source.drop position) := by
    rw [bytes, bytes, bytes, ← List.flatMap_append, List.take_append_drop]
  rw [lineOfByte, hbytes, List.take_left, count_bytes, lineOf]

end Token

namespace Cursor

theorem advance_cons (line : Nat) (t : Token) (rest : List Token) :
    advance ⟨line, t :: rest⟩ = ⟨t.lineAfter line, rest⟩ := rfl

theorem iterate_of_numbered {source : List Char} {line : Nat} {lexemes : List Lexeme}
    (h : Token.Numbered source line lexemes) {k : Nat} {x : Lexeme} (hx : lexemes[k]? = some x) :
    advance^[k] ⟨line, lexemes.map (·.token)⟩ =
      ⟨Token.lineOf source x.start, (lexemes.map (·.token)).drop k⟩ := by
  induction lexemes generalizing line k with
  | nil => cases hx
  | cons y lexemes ih =>
    obtain ⟨hline, hrest⟩ := h
    cases k with
    | zero =>
      obtain rfl := Option.some.inj hx
      rw [hline]
      rfl
    | succ k =>
      rw [Function.iterate_succ_apply, List.map_cons, advance_cons]
      exact ih hrest hx

theorem iterate_length_of_numbered {source : List Char} {line : Nat} {lexemes : List Lexeme}
    (h : Token.Numbered source line lexemes) :
    advance^[lexemes.length] ⟨line, lexemes.map (·.token)⟩ = ⟨source.count '\n' + 1, []⟩ := by
  induction lexemes generalizing line with
  | nil =>
    rw [← show line = _ from h]
    rfl
  | cons x lexemes ih =>
    rw [List.length_cons, Function.iterate_succ_apply, List.map_cons, advance_cons]
    exact ih h.2

end Cursor

/-- The lexemes that stand first on their lines. The flag tells whether none has come yet on the
line under way. -/
def Lexeme.lineStarts : Bool → List Lexeme → List Lexeme
  | _, [] => []
  | fresh, x :: rest =>
    if x.token = .newline then lineStarts true rest
    else if fresh then x :: lineStarts false rest
    else lineStarts false rest

namespace Lexeme

def Begins (source : List Char) (x : Lexeme) (l : List Token × Nat) : Prop :=
  l.1.head? = some x.token ∧ l.2 = Token.lineOf source x.start

def linesFrom (number : Nat) (current ts : List Token) : List (List Token × Nat) :=
  ((Line.cutFrom number current ts).filter fun l => !l.isBlank).map Grammar.view

theorem linesFrom_newline (number : Nat) (ts : List Token) :
    linesFrom number [] (.newline :: ts) = linesFrom (number + 1) [] ts := rfl

theorem linesFrom_end {current : List Token} (h : current ≠ []) (number : Nat) :
    linesFrom number current [] = [(current.reverse, number)] := by
  simp [linesFrom, Line.cutFrom, Line.isBlank, h, Grammar.view]

theorem linesFrom_newline_of_ne {current : List Token} (h : current ≠ []) (number : Nat)
    (ts : List Token) :
    linesFrom number current (.newline :: ts) =
      (current.reverse, number) :: linesFrom (number + 1) [] ts := by
  simp [linesFrom, Line.cutFrom, Line.isBlank, h, Grammar.view]

theorem linesFrom_cons {t : Token} (ht : t ≠ .newline) (number : Nat) (current ts : List Token) :
    linesFrom number current (t :: ts) = linesFrom number (t :: current) ts := by
  rw [linesFrom, Line.cutFrom, linesFrom]
  exact ht

theorem begins_of_getLast? {source : List Char} {number : Nat} {x : Lexeme} {current : List Token}
    (hlast : current.getLast? = some x.token) (hx : number = Token.lineOf source x.start) :
    current ≠ [] ∧ Begins source x (current.reverse, number) := by
  refine ⟨?_, ?_, hx⟩
  · rintro rfl
    cases hlast
  · rwa [List.head?_reverse]

/-- Line by line the first lexemes are those of the lines that are not blank. In the middle of a
line its first lexeme has been passed. -/
theorem begins_linesFrom {source : List Char} {number : Nat} {lexemes : List Lexeme}
    (h : Token.Numbered source number lexemes) :
    List.Forall₂ (Begins source) (lineStarts true lexemes)
        (linesFrom number [] (lexemes.map (·.token))) ∧
      ∀ (x : Lexeme) (current : List Token), current.getLast? = some x.token →
        number = Token.lineOf source x.start →
        List.Forall₂ (Begins source) (x :: lineStarts false lexemes)
          (linesFrom number current (lexemes.map (·.token))) := by
  induction lexemes generalizing number with
  | nil =>
    refine ⟨.nil, fun x current hlast hx => ?_⟩
    obtain ⟨hcurrent, hbegins⟩ := begins_of_getLast? hlast hx
    rw [List.map_nil, linesFrom_end hcurrent]
    exact .cons hbegins .nil
  | cons y lexemes ih =>
    obtain ⟨hy, hrest⟩ := h
    obtain ⟨hfresh, hunder⟩ := ih hrest
    rw [List.map_cons]
    by_cases hnewline : y.token = .newline
    · rw [hnewline] at hfresh
      rw [hnewline, lineStarts, if_pos hnewline, lineStarts, if_pos hnewline]
      rw [linesFrom_newline]
      refine ⟨hfresh, fun x current hlast hx => ?_⟩
      obtain ⟨hcurrent, hbegins⟩ := begins_of_getLast? hlast hx
      rw [linesFrom_newline_of_ne hcurrent]
      exact .cons hbegins hfresh
    · have hafter : y.token.lineAfter number = number := if_neg hnewline
      rw [hafter] at hunder
      rw [linesFrom_cons hnewline]
      refine ⟨?_, fun x current hlast hx => ?_⟩
      · rw [lineStarts, if_neg hnewline]
        exact hunder y [y.token] rfl hy
      · rw [linesFrom_cons hnewline, lineStarts, if_neg hnewline]
        exact hunder x (y.token :: current) (by simp [List.getLast?_cons, hlast]) hx

theorem begins_lines {source : List Char} {lexemes : List Lexeme}
    (h : Token.Numbered source 1 lexemes) :
    List.Forall₂ (Begins source) (lineStarts true lexemes)
      (Grammar.lines (lexemes.map (·.token))) := by
  rw [Grammar.lines_eq]
  exact (begins_linesFrom h).1

end Lexeme

namespace Program

/-- Of the lexemes that stand first on a line, all but the first one and the last one are the names
of the bindings, in order. The numbers of the lines are those of the text. -/
def Placed (p : Program) (source : List Char) (lexemes : List Lexeme) : Prop :=
  ∃ first middle last, Lexeme.lineStarts true lexemes = first :: (middle ++ [last]) ∧
    List.Forall₂ (fun x b => x.token = .identifier b.name ∧ b.line = Token.lineOf source x.start)
      middle p.bindings ∧
    p.outputLine = Token.lineOf source last.start

theorem bindings_placed {source : List Char} {starts : List Lexeme}
    {lines : List (List Token × Nat)} {bindings : List Binding}
    (hstarts : List.Forall₂ (Lexeme.Begins source) starts lines)
    (hlines : List.Forall₂ Grammar.IsBindingLine lines bindings) :
    List.Forall₂ (fun x b => x.token = .identifier b.name ∧ b.line = Token.lineOf source x.start)
      starts bindings := by
  induction hstarts generalizing bindings with
  | nil =>
    cases hlines
    exact .nil
  | cons hbegins _ ih =>
    cases hlines with
    | cons hbinding hrest =>
      obtain ⟨ts, htokens, _, hline⟩ := hbinding
      obtain ⟨hhead, hnumber⟩ := hbegins
      refine .cons ⟨?_, hline.trans hnumber⟩ (ih hrest)
      rw [htokens] at hhead
      exact (Option.some.inj hhead).symm

theorem placed_of_tokens {source : List Char} {lexemes : List Lexeme}
    (hnumbered : Token.Numbered source 1 lexemes) {p : Program}
    (h : Parse.tokens (lexemes.map (·.token)) = .ok p) : p.Placed source lexemes := by
  obtain ⟨first, middle, last, hlines, _, hbindings, _, hlast⟩ := Grammar.tokens_eq_ok_iff.mp h
  have hbegins := Lexeme.begins_lines hnumbered
  rw [hlines] at hbegins
  obtain ⟨x, others, _, hothers, hstarts⟩ := List.forall₂_cons_right_iff.mp hbegins
  have hmiddle := List.forall₂_take_append _ _ _ hothers
  have hfinal := List.forall₂_drop_append _ _ _ hothers
  obtain ⟨y, rest, hy, hrest, hdrop⟩ := List.forall₂_cons_right_iff.mp hfinal
  cases hrest
  refine ⟨x, others.take middle.length, y, ?_, bindings_placed hmiddle hbindings, hlast.trans hy.2⟩
  rw [hstarts, ← hdrop, List.take_append_drop]

end Program

end WireLogic
